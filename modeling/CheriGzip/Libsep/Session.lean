import CheriGzip.Libsep.Framing

/-!
# RPC sessions

A host that makes a finite sequence of synchronous RPCs, and a sandbox that serves them for
ever with `sandbox_recvrpc` and `sandbox_sendrpc`. Their session is a dialogue by turns, so
every interleaving and every fragmentation delivers the same requests and replies.
-/
namespace CheriGzip.Libsep

open Socket Proc Loop

/-- One RPC of the host: the request entries and the reply buffers with what they hold. -/
structure Call where
  opno : UInt32
  req : List Bytes
  rep : List Bytes

def Call.params (scb : SandboxCb) (call : Call) : HostRpcParams :=
  { scb := scb, opno := call.opno, req := call.req, reqFdp := none, rep := call.rep,
    repFdp := none }

/-- The host's side: each call through `host_rpc`, with a mark for its results. -/
def hostSession (scb : SandboxCb) : List Call → Prog Unit
  | [] => pure ()
  | call :: calls => do
    let r ← hostRpcFix (call.params scb)
    note (.answered r.rc r.rep)
    hostSession scb calls

/-- What a sandbox replies to its `k`-th request: the reply entries. -/
abbrev Handler := (k : Nat) → (opno : UInt32) → (payload : Bytes) → List Bytes

/-- The sandbox's answer to its `k`-th request, under the opno and seqno it came with. -/
def serveAnswer (scb : SandboxCb) (reply : Handler) (k : Nat) (req : Request) :
    Prog (Turn Nat Unit) := do
  match ← sandboxSendrpc scb req.opno req.seqno (reply k req.opno req.buffer) with
  | .error _ => pure (.leave ())
  | .ok () => pure (.again (k + 1))

/-- A round of the sandbox's loop, with a mark for the request it was handed. -/
def serveRound (scb : SandboxCb) (mallocs : Nat → Bool) (reply : Handler) (k : Nat) :
    Prog (Turn Nat Unit) := do
  match ← sandboxRecvrpc scb mallocs with
  | .error _ => pure (.leave ())
  | .ok req =>
    note (.served req.opno req.seqno req.buffer)
    serveAnswer scb reply k req

/-- The sandbox's side. -/
def sandboxSession (scb : SandboxCb) (mallocs : Nat → Bool) (reply : Handler) : Prog Unit :=
  iterate (serveRound scb mallocs reply) 0

/-- The socket pair before the first RPC. -/
def session (scb : SandboxCb) (mallocs : Nat → Bool) (reply : Handler) (calls : List Call)
    (interrupts : Nat) : Link UInt8 Event Unit Unit where
  left := (hostSession scb calls).head
  right := (sandboxSession scb mallocs reply).head
  toRight := []
  toLeft := []
  noted := []
  interrupts := interrupts

/-- The bytes of the reply to the `k`-th call. -/
def Call.replyData (call : Call) (reply : Handler) (k : Nat) : Bytes :=
  (reply k call.opno call.req.flatten).flatten

/-- The marks a session has to make: the `k`-th request handed over as it was sent, and the
`k`-th reply scattered over the reply buffers. -/
def expected (reply : Handler) : Nat → List Call → List Event
  | _, [] => []
  | k, call :: calls =>
    .served call.opno 0 call.req.flatten ::
      .answered (.ok (call.replyData reply k).length) (fill call.rep (call.replyData reply k)) ::
      expected reply (k + 1) calls

/-- Both ends are descriptors the RPC layer accepts. -/
structure SandboxCb.Wired (scb : SandboxCb) : Prop where
  host : scb.fdHostEnd ≠ -1 ∧ scb.fdHostEnd ≠ 0
  sandbox : scb.fdSandboxEnd ≠ -1 ∧ scb.fdSandboxEnd ≠ 0

/-- The lengths of a call fit the header's length fields, the sandbox can allocate the
request, and the reply fits the reply space. -/
structure Call.Fits (mallocs : Nat → Bool) (reply : Handler) (k : Nat) (call : Call) : Prop where
  req : call.req.flatten.length < 2 ^ 64
  rep : call.rep.flatten.length < 2 ^ 64
  allocated : mallocs call.req.flatten.length = true
  reply : (call.replyData reply k).length ≤ call.rep.flatten.length

/-- `Call.Fits` for a sequence of calls, the first of which is the `k`-th. -/
def AllFit (mallocs : Nat → Bool) (reply : Handler) (k : Nat) (calls : List Call) : Prop :=
  ∀ i (inside : i < calls.length), calls[i].Fits mallocs reply (k + i)

variable {α : Type} {h' : Socket.Head UInt8 Event α}

/-! ## The four transfers of an RPC -/

theorem sends_hostSendRequest {params : HostRpcParams} {rest : Bytes}
    {f : Except Errno Unit → Prog α}
    (wired : params.scb.fdHostEnd ≠ -1 ∧ params.scb.fdHostEnd ≠ 0)
    (plain : params.reqFdp = none)
    (later : Sends params.scb.fdHostEnd (f (.ok ())).head rest h') :
    Sends params.scb.fdHostEnd ((hostSendRequest params).bind f).head
      (params.reqHdr.bytes ++ (params.req.flatten ++ rest)) h' := by
  simp only [hostSendRequest, sendHdr, plain, bind_eq, Proc.bind_assoc]
  refine sends_sandboxRpcSend wired ?_
  simpa using sends_sendIovecs wired later

theorem feeds_payload {fd : Int} {hdr : RequestHdr} {payload rest : Bytes}
    {f : Except Errno Request → Prog α} (wired : fd ≠ -1 ∧ fd ≠ 0)
    (size : payload.length = hdr.datalen.toNat)
    (later : Feeds fd (f (.ok ⟨hdr.opno, hdr.seqno, payload, []⟩)).head rest h') :
    Feeds fd (loop (payloadRound fd hdr []) [] f).head (payload ++ rest) h' := by
  -- The loop asks for nothing where the length is 0, and else once.
  by_cases empty : payload.length = 0
  · obtain rfl : payload = [] := List.length_eq_zero_iff.mp empty
    simpa [head_loop, payloadRound, ← size] using later
  · have some : 0 < payload.length := Nat.pos_of_ne_zero empty
    have received : Feeds fd (loop (payloadRound fd hdr []) payload f).head rest h' := by
      simpa [head_loop, payloadRound, ← size] using later
    rw [head_unroll]
    · simp only [payloadRound, ← size, List.length_nil, some, if_true, bind_eq, Proc.bind_assoc,
        Nat.sub_zero]
      refine feeds_sandboxRpcRecv wired ?_
      simpa [empty] using received
    · intro s' round
      simp only [payloadRound, ← size, List.length_nil, some, if_true, bind_eq,
        Nat.sub_zero] at round
      obtain ⟨e, k, waits⟩ := sandboxRpcRecv_waits (f := _) wired some
      rw [waits] at round
      cases round

theorem feeds_sandboxRecvrpc {scb : SandboxCb} {mallocs : Nat → Bool} {hdr : RequestHdr}
    {payload rest : Bytes} {f : Except Errno Request → Prog α}
    (wired : scb.fdSandboxEnd ≠ -1 ∧ scb.fdSandboxEnd ≠ 0)
    (magic : hdr.magic = requestHdrMagic) (size : payload.length = hdr.datalen.toNat)
    (allocated : mallocs payload.length = true)
    (later : Feeds scb.fdSandboxEnd (f (.ok ⟨hdr.opno, hdr.seqno, payload, []⟩)).head rest h') :
    Feeds scb.fdSandboxEnd ((sandboxRecvrpc scb mallocs).bind f).head
      (hdr.bytes ++ (payload ++ rest)) h' := by
  simp only [sandboxRecvrpc, sandboxRecvrpcInternal, recvHdr, bind_eq, Proc.bind_assoc]
  rw [← RequestHdr.bytes_length hdr]
  refine feeds_sandboxRpcRecv wired ?_
  simpa [RequestHdr.ofBytes_bytes, magic, ← size, allocated, sizeofHdr] using
    feeds_payload wired size later

theorem sends_sandboxSendrpc {scb : SandboxCb} {opno seqno : UInt32} {rep : List Bytes}
    {rest : Bytes} {f : Except Errno Unit → Prog α}
    (wired : scb.fdSandboxEnd ≠ -1 ∧ scb.fdSandboxEnd ≠ 0)
    (later : Sends scb.fdSandboxEnd (f (.ok ())).head rest h') :
    Sends scb.fdSandboxEnd ((sandboxSendrpc scb opno seqno rep).bind f).head
      (ReplyHdr.bytes ⟨replyHdrMagic, seqno, opno, sumLen rep⟩ ++ (rep.flatten ++ rest)) h' := by
  simp only [sandboxSendrpc, sandboxSendrpcInternal, sendHdr, bind_eq, Proc.bind_assoc]
  refine sends_sandboxRpcSend wired ?_
  simpa using sends_sendIovecs wired later

theorem feeds_hostReceiveReply {params : HostRpcParams} {datalen : UInt64}
    {data rest : Bytes} {f : HostRpcResult → Prog α}
    (wired : params.scb.fdHostEnd ≠ -1 ∧ params.scb.fdHostEnd ≠ 0)
    (plain : params.repFdp = none) (fits : params.rep.flatten.length < 2 ^ 64)
    (size : data.length = datalen.toNat) (room : data.length ≤ params.rep.flatten.length)
    (later : Feeds params.scb.fdHostEnd
      (f ⟨.ok data.length, fill params.rep data, []⟩).head rest h') :
    Feeds params.scb.fdHostEnd ((hostReceiveReply params).bind f).head
      (ReplyHdr.bytes ⟨replyHdrMagic, 0, params.opno, datalen⟩ ++ (data ++ rest)) h' := by
  simp only [hostReceiveReply, recvHdr, plain, bind_eq, Proc.bind_assoc]
  rw [← ReplyHdr.bytes_length ⟨replyHdrMagic, 0, params.opno, datalen⟩]
  refine feeds_sandboxRpcRecv wired ?_
  -- The reply is as long as it says and fits, so that the host takes it.
  have short : ¬ datalen > params.reqHdr.maxrepdatalen := by
    rw [gt_iff_lt, UInt64.lt_iff_toNat_lt, HostRpcParams.reqHdr, sumLen_toNat,
      Nat.mod_eq_of_lt fits]
    omega
  have entries : ∀ v ∈ params.rep, v.length < 2 ^ 64 := by
    intro v mem
    have part := (List.sublist_flatten_of_mem mem).length_le
    omega
  simp only [ReplyHdr.ofBytes_bytes, ReplyHdr.bytes_length, short, ret_bind, pure_eq, ne_eq,
    not_true_eq_false, or_self, if_false, Proc.bind_assoc]
  refine feeds_scatter wired entries room (by simpa using size) ?_
  simpa [Except.map, size] using later

/-! ## The session as a dialogue -/

/-- The sandbox waits for the next request. -/
theorem serveRound_waits {scb : SandboxCb} (wired : scb.Wired) (mallocs : Nat → Bool)
    (reply : Handler) (k : Nat) : (∃ e c, (serveRound scb mallocs reply k).head = .waits e c) := by
  simp only [serveRound, sandboxRecvrpc, sandboxRecvrpcInternal, recvHdr, bind_eq, Proc.bind_assoc]
  exact sandboxRpcRecv_waits wired.sandbox (by decide) _

theorem head_serve {scb : SandboxCb} (wired : scb.Wired) (mallocs : Nat → Bool)
    (reply : Handler) (k : Nat) :
    (loop (serveRound scb mallocs reply) k (.ret : Unit → Prog Unit)).head =
      ((serveRound scb mallocs reply k).bind (next (serveRound scb mallocs reply) .ret)).head := by
  refine head_unroll .ret ?_
  intro s' round
  obtain ⟨e, c, waits⟩ := serveRound_waits wired mallocs reply k
  rw [waits] at round
  cases round

/-- The sandbox's loop at the request of the `k`-th call: it takes the request in and makes
its mark, with the answer to follow. -/
theorem feeds_serve {scb : SandboxCb} (wired : scb.Wired) {mallocs : Nat → Bool}
    {reply : Handler} {k : Nat} {call : Call} (fits : call.Fits mallocs reply k) :
    Feeds scb.fdSandboxEnd (loop (serveRound scb mallocs reply) k (.ret : Unit → Prog Unit)).head
      ((call.params scb).reqHdr.bytes ++ (call.req.flatten ++ []))
      (.waits (Op.note (.served call.opno 0 call.req.flatten)) fun _ =>
        (serveAnswer scb reply k ⟨call.opno, 0, call.req.flatten, []⟩).bind
          (next (serveRound scb mallocs reply) .ret)) := by
  rw [head_serve wired]
  simp only [serveRound, bind_eq, Proc.bind_assoc]
  refine feeds_sandboxRecvrpc wired.sandbox rfl ?_ fits.allocated ?_
  · rw [Call.params, HostRpcParams.reqHdr, sumLen_toNat, Nat.mod_eq_of_lt fits.req]
  -- The mark is the next thing it does.
  · simp only [note_bind, op_bind, head_op]
    exact .nil _

theorem sends_serveAnswer {scb : SandboxCb} (wired : scb.Wired) {mallocs : Nat → Bool}
    {reply : Handler} {k : Nat} {call : Call} :
    Sends scb.fdSandboxEnd ((serveAnswer scb reply k ⟨call.opno, 0, call.req.flatten, []⟩).bind
        (next (serveRound scb mallocs reply) (.ret : Unit → Prog Unit))).head
      (ReplyHdr.bytes ⟨replyHdrMagic, 0, call.opno, sumLen (reply k call.opno call.req.flatten)⟩
        ++ (call.replyData reply k ++ []))
      (loop (serveRound scb mallocs reply) (k + 1) (.ret : Unit → Prog Unit)).head := by
  simp only [serveAnswer, bind_eq, Proc.bind_assoc]
  refine sends_sandboxSendrpc wired.sandbox ?_
  simp only [pure_eq, ret_bind, next_again]
  exact .nil _

theorem awaits_serve {scb : SandboxCb} (wired : scb.Wired) (mallocs : Nat → Bool)
    (reply : Handler) (k : Nat) : Awaits scb.fdSandboxEnd
      (loop (serveRound scb mallocs reply) k (.ret : Unit → Prog Unit)).head := by
  rw [head_serve wired]
  simp only [serveRound, sandboxRecvrpc, sandboxRecvrpcInternal, recvHdr, bind_eq, Proc.bind_assoc]
  -- whatever header is coming, it is taken in first
  have takes : ∀ f : Received → Prog Unit, Feeds scb.fdSandboxEnd
      ((sandboxRpcRecv scb.fdSandboxEnd (List.replicate sizeofHdr (0 : UInt8)).length).bind f).head
      (List.replicate sizeofHdr 0 ++ []) (f ⟨.ok _, List.replicate sizeofHdr 0⟩).head :=
    fun f => feeds_sandboxRpcRecv wired.sandbox (.nil _)
  simp only [List.length_replicate] at takes
  exact (takes _).awaits (by simp [sizeofHdr])

/-- The bytes a session still has to move, both ways. -/
def volume (reply : Handler) : Nat → List Call → Nat
  | _, [] => 0
  | k, call :: calls =>
    2 * (sizeofHdr + call.req.flatten.length) + 1 +
      (2 * (sizeofHdr + (call.replyData reply k).length) + 1 + volume reply (k + 1) calls)

theorem session_legs {scb : SandboxCb} (wired : scb.Wired) {mallocs : Nat → Bool}
    {reply : Handler} {calls : List Call} {k : Nat} (fits : AllFit mallocs reply k calls) :
    Legs UInt8 Event scb.fdHostEnd scb.fdSandboxEnd (hostSession scb calls).head
      (loop (serveRound scb mallocs reply) k (.ret : Unit → Prog Unit)).head
      (expected reply k calls) (volume reply k calls) := by
  -- By induction on the calls: each has a leg to the sandbox and one back.
  induction calls generalizing k with
  | nil => exact .ended (awaits_serve wired mallocs reply k)
  | cons call calls ih =>
    have first : call.Fits mallocs reply k := fits 0 (by simp)
    -- The rest of the calls, counted from the next one on.
    have others : AllFit mallocs reply (k + 1) calls := by
      intro i inside
      have fit := fits (i + 1) (by simpa using inside)
      have shift : k + (i + 1) = k + 1 + i := by omega
      rw [shift] at fit
      exact fit
    have replySize : (call.replyData reply k).length =
        (sumLen (reply k call.opno call.req.flatten)).toNat := by
      have short := first.reply
      have space := first.rep
      rw [sumLen_toNat, Nat.mod_eq_of_lt]
      · rfl
      · exact Nat.lt_of_le_of_lt short space
    let params := call.params scb
    let after : HostRpcResult → Prog Unit := fun r => do
      note (.answered r.rc r.rep)
      hostSession scb calls
    -- The reply leg: the host takes the reply in and makes its mark.
    have takes : Feeds scb.fdHostEnd ((hostReceiveReply params).bind after).head
        (ReplyHdr.bytes ⟨replyHdrMagic, 0, call.opno, sumLen (reply k call.opno call.req.flatten)⟩
          ++ (call.replyData reply k ++ []))
        (.waits (Op.note (.answered (.ok (call.replyData reply k).length)
          (fill call.rep (call.replyData reply k)))) fun _ => hostSession scb calls) :=
      @feeds_hostReceiveReply _ _ params _ _ _ _ wired.host rfl first.rep replySize first.reply
        (.nil _)
    -- The request leg: the host sends and then waits for the reply.
    have asks : Sends scb.fdHostEnd (hostSession scb (call :: calls)).head
        (params.reqHdr.bytes ++ (call.req.flatten ++ []))
        ((hostReceiveReply params).bind after).head := by
      simp only [hostSession, hostRpcFix, hostRpcInternalFix, bind_eq, Proc.bind_assoc]
      exact @sends_hostSendRequest _ _ params _ _ wired.host rfl (.nil _)
    -- Both headers have bytes, so that no leg is empty.
    have reqLive : params.reqHdr.bytes ++ (call.req.flatten ++ []) ≠ [] := by
      rw [← List.length_pos_iff, List.length_append, RequestHdr.bytes_length]
      exact Nat.lt_of_lt_of_le (by decide : 0 < sizeofHdr) (Nat.le_add_right _ _)
    have repLive : ReplyHdr.bytes ⟨replyHdrMagic, 0, call.opno,
        sumLen (reply k call.opno call.req.flatten)⟩ ++ (call.replyData reply k ++ []) ≠ [] := by
      rw [← List.length_pos_iff, List.length_append, ReplyHdr.bytes_length]
      exact Nat.lt_of_lt_of_le (by decide : 0 < sizeofHdr) (Nat.le_add_right _ _)
    have legs := Legs.leg reqLive asks (takes.awaits repLive) (feeds_serve wired first)
      (.leg repLive (sends_serveAnswer wired) (awaits_serve wired mallocs reply (k + 1)) takes
        (ih others))
    simpa [expected, volume] using legs

/-! ## Every run of a session -/

/-- What a link of a session has done so far: its marks are the first ones expected, each
made with nothing unread, and if nothing can happen any more then all were made. -/
def OnTrack (scb : SandboxCb) (marks : List Event) (c : Link UInt8 Event Unit Unit) : Prop :=
  (∃ done left, marks = done ++ left ∧ c.noted = done.map (·, true)) ∧
  ((∀ c', ¬ Step scb.fdHostEnd scb.fdSandboxEnd c c') →
    c.noted = marks.map (·, true) ∧ c.toRight = [] ∧ c.toLeft = [])

/-- Every run of a session, under any interleaving, fragmentation and interrupts, hands the
sandbox the requests in order and the host the replies, each with both directions drained;
it ends after a bounded number of steps, and only when all calls were answered. -/
theorem session_framed {scb : SandboxCb} {mallocs : Nat → Bool} {reply : Handler}
    {calls : List Call} (wired : scb.Wired) (fits : AllFit mallocs reply 0 calls)
    {interrupts n : Nat} {c : Link UInt8 Event Unit Unit}
    (runs : Runs scb.fdHostEnd scb.fdSandboxEnd n (session scb mallocs reply calls interrupts) c) :
    OnTrack scb (expected reply 0 calls) c ∧ n ≤ volume reply 0 calls + interrupts := by
  obtain ⟨log, volume', talks, marks, bound⟩ :=
    legs_run (session_legs wired fits) rfl rfl rfl runs
  -- The marks made and those to come are together the marks expected.
  obtain ⟨done, log', whole, noted, same⟩ := List.map_eq_append_iff.mp marks.symm
  obtain rfl : log' = log := by
    exact (List.map_inj_right fun _ _ eq => (Prod.mk.inj eq).1).mp same
  refine ⟨⟨⟨done, log', whole, noted.symm⟩, ?_⟩, ?_⟩
  · intro stuck
    obtain ⟨rfl, toRight, toLeft⟩ := talks_stuck talks stuck
    exact ⟨by simpa using marks, toRight, toLeft⟩
  · simp only [session] at bound
    omega

/-- The calls of a small session: the first has an empty request and a reply that does not fill the
space for it, the second a request of two bytes. -/
def twoCalls : List Call := [⟨1, [], [[], [0, 0]]⟩, ⟨2, [[5], [6]], [[0]]⟩]

theorem twoCalls_fit : AllFit (fun _ => true) (fun _ _ _ => [[7]]) 0 twoCalls := by
  intro i inside
  have two : i = 0 ∨ i = 1 := by
    have short : i < 2 := inside
    omega
  have first : Call.Fits (fun _ => true) (fun _ _ _ => [[7]]) 0 ⟨1, [], [[], [0, 0]]⟩ :=
    ⟨by decide, by decide, rfl, by decide⟩
  have second : Call.Fits (fun _ => true) (fun _ _ _ => [[7]]) 1 ⟨2, [[5], [6]], [[0]]⟩ :=
    ⟨by decide, by decide, rfl, by decide⟩
  rcases two with rfl | rfl
  · exact first
  · exact second

/-- A whole run of it, with an interrupt. -/
theorem session_framed_two : ∃ n c, Runs 3 4 n
    (session ⟨3, 4⟩ (fun _ => true) (fun _ _ _ => [[7]]) twoCalls 1) c ∧
    (∀ c', ¬ Step 3 4 c c') ∧
    OnTrack ⟨3, 4⟩ (expected (fun _ _ _ => [[7]]) 0 twoCalls) c ∧
    n ≤ volume (fun _ _ _ => [[7]]) 0 twoCalls + 1 := by
  have wired : SandboxCb.Wired ⟨3, 4⟩ := ⟨by decide, by decide⟩
  obtain ⟨n, c, runs, stuck⟩ := Runs.exhausts fun runs => (session_framed wired twoCalls_fit runs).2
  exact ⟨n, c, runs, stuck, session_framed wired twoCalls_fit runs⟩

end CheriGzip.Libsep
