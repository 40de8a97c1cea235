import CheriGzip.Libsep.Calls
import CheriGzip.Libsep.Wire
import Mathlib.Data.List.Basic

/-!
# The host against a hostile sandbox

The kernel may answer every call of the host with anything its type allows: any bytes, at
most as many as were asked for, the end of the stream, or an error, with a bounded number of
interrupts. `host_rpc` then ends, stores only inside the reply buffers, and returns 0 only
for a reply with a proper header.
-/
namespace CheriGzip.Libsep

open Socket Proc Loop

/-- What the host has taken from its peer, and the interrupts still to come. -/
structure Peer where
  taken : Bytes
  interrupts : Nat

/-- The peer after an error of a call. -/
def Peer.failed (peer peer' : Peer) : Errno → Prop
  | .eintr => peer.interrupts = peer'.interrupts + 1 ∧ peer'.taken = peer.taken
  | _ => peer' = peer

/-- Every answer the kernel can give on behalf of a hostile peer. -/
def hostile : Env (@Answer UInt8 Event) Peer
  | .send _ bytes, peer, answer, peer' =>
    match answer with
    | .ok n => 0 < n ∧ n ≤ bytes.length ∧ peer' = peer
    | .error errno => peer.failed peer' errno
  | .recv _ len, peer, answer, peer' =>
    match answer with
    | .ok bytes => bytes.length ≤ len ∧ peer' = { peer with taken := peer.taken ++ bytes }
    | .error errno => peer.failed peer' errno
  | .sendmsg _ bytes _, peer, answer, peer' =>
    match answer with
    | .ok n => n ≤ bytes.length ∧ peer' = peer
    | .error errno => peer.failed peer' errno
  | .recvmsg _ len, peer, answer, peer' =>
    match answer with
    | .ok (bytes, _) => bytes.length ≤ len ∧ peer' = { peer with taken := peer.taken ++ bytes }
    | .error errno => peer.failed peer' errno
  | .close _, peer, _, peer' => peer' = peer
  | .note _, peer, _, peer' => peer' = peer
  | .undefined, _, _, _ => False

variable {fd : Int}

/-! ## The calls -/

/-- A send leaves what was taken alone and is not interrupted in the end. -/
def Sent (peer : Peer) (retlen : Except Errno Nat) (peer' : Peer) : Prop :=
  peer'.taken = peer.taken ∧ retlen ≠ .error .eintr

theorem ensures_sendEverything (buf : Bytes) (peer : Peer) :
    Ensures hostile (Sent peer) (sendEverything fd buf) peer := by
  refine .loop (fun _ now => now.taken = peer.taken)
    (fun x now => x.1.length + now.interrupts) ?_ rfl
  rintro ⟨buf, totlen⟩ now same
  by_cases empty : buf.length = 0
  · simp only [sendRound, empty, if_true]
    exact .ret (.ret ⟨same, by simp⟩)
  · simp only [sendRound, empty, if_false, bind_eq, send_bind]
    refine .call ⟨.error .epipe, now, rfl⟩ ?_
    rintro (errno | n) later answer
    · cases errno with
      | eintr => exact .ret ⟨answer.2.trans same, by simp only [answer.1]; omega⟩
      | _ =>
        obtain rfl := answer
        exact .ret (.ret ⟨same, by simp⟩)
    · obtain ⟨some, most, rfl⟩ := answer
      refine .ret ⟨same, ?_⟩
      simp only [List.length_drop]
      omega

theorem ensures_sandboxRpcSend (msg : Bytes) (peer : Peer) :
    Ensures hostile (Sent peer) (sandboxRpcSend fd msg) peer := by
  unfold sandboxRpcSend
  split
  · exact .ret ⟨rfl, by simp⟩
  · refine ensures_untilNoEintr (· = peer) Peer.interrupts ?_ rfl
    rintro _ rfl
    refine (ensures_sendEverything msg _).mono ?_
    intro r later sent
    simpa [sent.2] using sent

/-- At most `len` bytes were received and stored, and a nonzero count is their number. -/
structure Took (len : Nat) (peer : Peer) (received : Received) (peer' : Peer) : Prop where
  taken : peer'.taken = peer.taken ++ received.buf
  most : received.buf.length ≤ len
  count : ∀ n, received.retlen = .ok n → n = received.buf.length ∨ n = 0
  settled : received.retlen ≠ .error .eintr

theorem ensures_recvEverything (len : Nat) (peer : Peer) :
    Ensures hostile (Took len peer) (recvEverything fd len) peer := by
  refine .loop (fun x now => now.taken = peer.taken ++ x.2 ∧ x.2.length + x.1 = len)
    (fun x now => x.1 + now.interrupts) ?_ (by simp)
  rintro ⟨left, buf⟩ now ⟨same, sum⟩
  by_cases empty : left = 0
  · simp only [recvRound, empty, if_true]
    refine .ret (.ret ⟨same, by simp only at sum ⊢; omega, ?_, by simp⟩)
    rintro n ⟨⟩
    exact .inl rfl
  · simp only [recvRound, empty, if_false, bind_eq, recv_bind]
    refine .call ⟨.error .epipe, now, rfl⟩ ?_
    rintro (errno | bytes) later answer
    · cases errno with
      | eintr => exact .ret ⟨⟨answer.2.trans same, sum⟩, by simp only [answer.1]; omega⟩
      | _ =>
        obtain rfl := answer
        exact .ret (.ret ⟨same, by simp only at sum ⊢; omega, by simp, by simp⟩)
    · obtain ⟨most, rfl⟩ := answer
      by_cases none : bytes.length = 0
      · obtain rfl : bytes = [] := List.length_eq_zero_iff.mp none
        refine .ret (.ret ⟨by simpa using same, by simp only at sum ⊢; omega, ?_, by simp⟩)
        rintro n ⟨⟩
        exact .inr rfl
      · simp only [none, if_false]
        refine .ret ⟨⟨by simp [same], ?_⟩, ?_⟩
        · simp only [List.length_append] at sum ⊢
          omega
        · simp only
          omega

theorem ensures_sandboxRpcRecv (len : Nat) (peer : Peer) :
    Ensures hostile (Took len peer) (sandboxRpcRecv fd len) peer := by
  unfold sandboxRpcRecv
  split
  · exact .ret ⟨by simp, by simp, by simp, by simp⟩
  · refine ensures_untilNoEintr (· = peer) Peer.interrupts ?_ rfl
    rintro _ rfl
    refine (ensures_recvEverything len _).mono ?_
    intro r later took
    simpa [took.settled] using took

theorem ensures_dispose (fds : List Int) (peer : Peer) :
    Ensures hostile (fun _ peer' => peer' = peer) (sandboxDisposeRights fds) peer := by
  have disposed := @ensures_sandboxDisposeRights Peer hostile (fun peer _ => peer)
    (fun _ _ _ => .rfl) fds peer
  rwa [List.foldl_fixed] at disposed

/-! ## Descriptors -/

theorem ensures_sandboxRpcSendRights {fdp : List Int} (few : fdp.length ≤ sandboxRpcApiMaxrights)
    (msg : Bytes) (peer : Peer) :
    Ensures hostile (Sent peer) (sandboxRpcSendRights fd msg fdp) peer := by
  unfold sandboxRpcSendRights
  have room : ¬ cmsgLen (4 * fdp.length) > cmsgSpace (4 * sandboxRpcApiMaxrights) := by
    simp only [cmsgLen, cmsgSpace, cmsgAlign, sandboxRpcApiMaxrights] at few ⊢
    omega
  simp only [room, if_false]
  split
  · exact ensures_sandboxRpcSend msg peer
  · split
    · exact .ret ⟨rfl, by simp⟩
    · refine ensures_untilNoEintr (·.taken = peer.taken) Peer.interrupts ?_ rfl
      intro now same
      refine .call ⟨.error .epipe, now, rfl⟩ ?_
      rintro (errno | n) later answer
      · cases errno with
        | eintr => exact .ret (by simp [answer.2, same, answer.1])
        | _ =>
          obtain rfl := answer
          exact .ret (by simpa [Sent] using same)
      · obtain ⟨-, rfl⟩ := answer
        exact .ret (by simpa [Sent] using same)

theorem ensures_sandboxRpcReceiveRights (control : List Cmsg) (fdcount : Nat) (peer : Peer) :
    Ensures hostile (fun r peer' => r ≠ .error .eintr ∧ peer' = peer)
      (sandboxRpcReceiveRights control fdcount) peer := by
  unfold sandboxRpcReceiveRights
  simp only
  split
  · refine (ensures_dispose _ peer).bind ?_
    rintro _ _ rfl
    exact .ret ⟨by simp, rfl⟩
  · exact .ret ⟨by simp, rfl⟩

/-- The outcome of one `recvmsg` on a stream. -/
def TookMsg (len : Nat) (peer : Peer) : Except Errno (Bytes × List Cmsg) → Peer → Prop
  | .error errno, now => now.taken = peer.taken ∧ errno ≠ .eintr
  | .ok (bytes, _), now => now.taken = peer.taken ++ bytes ∧ bytes.length ≤ len

theorem ensures_recvmsg (len : Nat) (peer : Peer) :
    Ensures hostile (TookMsg len peer)
      (untilNoEintr (recvmsg fd len) (fun r => r.map fun m => m.1.length)) peer := by
  refine ensures_untilNoEintr (·.taken = peer.taken) Peer.interrupts ?_ rfl
  intro now same
  refine .call ⟨.error .epipe, now, rfl⟩ ?_
  rintro (errno | ⟨bytes, control⟩) later answer
  · cases errno with
    | eintr => exact .ret (by simp [Except.map, answer.2, same, answer.1])
    | _ =>
      obtain rfl := answer
      exact .ret (by simpa [Except.map, TookMsg] using same)
  · obtain ⟨most, rfl⟩ := answer
    exact .ret (by simpa [Except.map, TookMsg, same] using most)

theorem ensures_sandboxRpcRecvRights (len fdcount : Nat) (peer : Peer) :
    Ensures hostile (fun r => Took len peer r.1) (sandboxRpcRecvRights fd len fdcount) peer := by
  unfold sandboxRpcRecvRights
  split
  · exact (ensures_sandboxRpcRecv len peer).bind fun _ _ took => .ret took
  split
  · exact .ret ⟨by simp, by simp, by simp, by simp⟩
  split
  · exact .ret ⟨by simp, by simp, by simp, by simp⟩
  · refine (ensures_recvmsg len peer).bind ?_
    rintro (errno | ⟨bytes, control⟩) now holds
    · exact .ret ⟨by simpa using holds.1, by simp, by simp, by simpa using holds.2⟩
    · refine (ensures_sandboxRpcReceiveRights control fdcount now).bind ?_
      rintro (errno | fds) _ ⟨settled, rfl⟩
      · exact .ret ⟨holds.1, holds.2, by simp, by simpa using settled⟩
      · refine .ret ⟨holds.1, holds.2, ?_, by simp⟩
        rintro n ⟨⟩
        exact .inl rfl

/-! ## The scatter loop -/

/-- What one reply entry `v` becomes: its first bytes are the ones received for it. -/
def EntryFilled (datalen totlen : UInt64) (v : Bytes) (peer : Peer)
    (out : Except Errno Unit × Filling) (peer' : Peer) : Prop :=
  ∃ got, peer'.taken = peer.taken ++ got ∧ out.2.base = got ++ v.drop got.length ∧
    got.length ≤ min (datalen.toNat - totlen.toNat) v.length ∧
    (out.1 = .ok () → got.length = min (datalen.toNat - totlen.toNat) v.length ∧
      out.2.totlen.toNat = totlen.toNat + got.length)

theorem ensures_scatterEntry {datalen totlen : UInt64} {v : Bytes} (fds : List Int)
    (fits : v.length < 2 ^ 64) (more : totlen < datalen) (peer : Peer) :
    Ensures hostile (EntryFilled datalen totlen v peer)
      (iterate (scatterRound fd datalen fds) ⟨v, 0, totlen⟩) peer := by
  have want := scatter_want fits more
  have bound := datalen.toNat_lt
  have less := UInt64.lt_iff_toNat_lt.mp more
  refine .unroll ?_
  simp only [scatterRound, more, if_true, bind_eq]
  generalize (if datalen - totlen < UInt64.ofNat v.length - 0 then datalen - totlen
    else UInt64.ofNat v.length - 0) = w at want
  refine (ensures_sandboxRpcRecv w.toNat peer).bind ?_
  intro received now took
  have inside : received.buf.length ≤ v.length := by
    have most := took.most
    omega
  have stored : ∀ g : Bytes → Prog (Turn Filling (Except Errno Unit × Filling)),
      (store v (0 : UInt64).toNat received.buf).bind g =
        g (received.buf ++ v.drop received.buf.length) := by
    intro g
    simp [store, inside]
  rw [stored]
  have part : received.buf.length ≤ min (datalen.toNat - totlen.toNat) v.length := by
    have most := took.most
    omega
  rcases code : received.retlen with errno | n
  · exact .ret (.ret ⟨received.buf, took.taken, rfl, part, by simp⟩)
  · simp only
    by_cases whole : UInt64.ofNat n = w
    · -- all that was asked for arrived
      have size : received.buf.length = w.toNat := by
        have most := took.most
        rcases took.count n code with same | zero
        · have small := w.toNat_lt
          rw [← whole, UInt64.toNat_ofNat', Nat.mod_eq_of_lt] <;> omega
        · have none : w.toNat = 0 := by rw [← whole, zero]; rfl
          omega
      have total : (totlen + w).toNat = totlen.toNat + received.buf.length := by
        rw [UInt64.toNat_add, size, want, Nat.mod_eq_of_lt]
        omega
      simp only [whole, ne_eq, not_true_eq_false, if_false, UInt64.zero_add]
      split
      · exact .ret (.ret ⟨received.buf, took.taken, rfl, part,
          fun _ => ⟨by omega, total⟩⟩)
      next room =>
        -- the entry has room left, so this was all of the data
        refine .ret (.unroll ?_)
        have partly : w.toNat ≠ v.length := by
          intro full
          exact room (UInt64.toNat_inj.mp (by rw [UInt64.toNat_ofNat', Nat.mod_eq_of_lt fits, full]))
        have spent : ¬ totlen + w < datalen := by
          rw [UInt64.lt_iff_toNat_lt, total]
          omega
        simp only [scatterRound, spent, if_false]
        exact .ret (.ret ⟨received.buf, took.taken, rfl, part, fun _ => ⟨by omega, total⟩⟩)
    · simp only [whole, ne_eq, not_false_eq_true, if_true]
      refine (ensures_dispose fds now).bind ?_
      rintro _ _ rfl
      exact .ret (.ret ⟨received.buf, took.taken, rfl, part, by simp⟩)

theorem ensures_scatter {datalen : UInt64} (fds : List Int) {rep : List Bytes}
    (fits : ∀ v ∈ rep, v.length < 2 ^ 64) {totlen : UInt64} (before : totlen ≤ datalen)
    (room : datalen.toNat - totlen.toNat ≤ rep.flatten.length) (peer : Peer) :
    Ensures hostile (fun out peer' => ∃ got, peer'.taken = peer.taken ++ got ∧
        out.2 = fill rep got ∧ got.length ≤ datalen.toNat - totlen.toNat ∧
        ∀ n, out.1 = .ok n → n = datalen ∧ got.length = datalen.toNat - totlen.toNat)
      (scatter fd datalen fds rep totlen) peer := by
  induction rep generalizing totlen peer with
  | nil =>
    have same : totlen = datalen := by
      have le := UInt64.le_iff_toNat_le.mp before
      apply UInt64.toNat_inj.mp
      simp only [List.flatten_nil, List.length_nil] at room
      omega
    refine .ret ⟨[], by simp, rfl, by simp, ?_⟩
    rintro n ⟨⟩
    exact ⟨same, by simp [same]⟩
  | cons v rep ih =>
    have le := UInt64.le_iff_toNat_le.mp before
    simp only [scatter, bind_eq]
    by_cases spent : totlen = datalen
    · -- nothing is left to receive: the round leaves at once and so does the loop
      subst spent
      have idle : Ensures hostile (fun out now => out = (.ok (), ⟨v, 0, totlen⟩) ∧ now = peer)
          (iterate (scatterRound fd totlen fds) ⟨v, 0, totlen⟩) peer := by
        apply Ensures.unroll
        simp only [scatterRound, UInt64.lt_irrefl, if_false]
        exact .ret (.ret ⟨rfl, rfl⟩)
      apply idle.bind
      · rintro _ _ ⟨rfl, rfl⟩
        simp only [if_true]
        refine .ret ⟨[], by simp, by simp, by simp, ?_⟩
        rintro n ⟨⟩
        exact ⟨rfl, by simp⟩
    · have more : totlen < datalen := by
        have differ : totlen.toNat ≠ datalen.toNat := fun same => spent (UInt64.toNat_inj.mp same)
        rw [UInt64.lt_iff_toNat_lt]
        omega
      refine (ensures_scatterEntry fds (fits v (by simp)) more peer).bind ?_
      rintro ⟨rc, s⟩ now ⟨got, taken, base, most, full⟩
      simp only at base
      have within : got.length ≤ v.length := by omega
      have first : fill (v :: rep) got = s.base :: rep := by
        simp [fill, base, List.take_of_length_le within, List.drop_eq_nil_of_le within]
      rcases rc with errno | ⟨⟨⟩⟩
      · exact .ret ⟨got, taken, first.symm, by omega, by simp⟩
      · obtain ⟨size, total⟩ := full rfl
        simp only
        split
        next done =>
          refine .ret ⟨got, taken, first.symm, by omega, ?_⟩
          rintro n ⟨⟩
          have count := congrArg UInt64.toNat done
          simp only at total
          exact ⟨done, by omega⟩
        next notDone =>
          -- the entry is full, and the other entries take the rest
          have differ : s.totlen.toNat ≠ datalen.toNat :=
            fun same => notDone (UInt64.toNat_inj.mp same)
          simp only at total
          have filled : got.length = v.length := by omega
          rw [List.flatten_cons, List.length_append] at room
          refine (ih (fun w mem => fits w (List.mem_cons_of_mem v mem))
            (UInt64.le_iff_toNat_le.mpr (by omega)) (by omega) now).bind ?_
          rintro ⟨rc, rep'⟩ last ⟨got', taken', rest, most', full'⟩
          refine .ret ⟨got ++ got', by rw [taken', taken, List.append_assoc], ?_, ?_, ?_⟩
          · have head : v.drop got.length = [] := List.drop_eq_nil_of_le (by omega)
            have none : v.drop (got ++ got').length = [] :=
              List.drop_eq_nil_of_le (by rw [List.length_append]; omega)
            simp only at rest
            rw [fill, none, List.take_left' filled, List.drop_left' filled, base, head, rest]
          · rw [List.length_append]
            omega
          · intro n ok
            obtain ⟨same, size'⟩ := full' n ok
            exact ⟨same, by rw [List.length_append]; omega⟩

/-! ## host_rpc -/

/-- The outcome of an RPC against a peer: the reply buffers hold the bytes taken after the
header and keep their lengths, and a return of 0 means a proper reply of that length. -/
structure Confined (params : HostRpcParams) (peer : Peer) (r : HostRpcResult) (peer' : Peer) :
    Prop where
  took : ∃ hdr data, peer'.taken = peer.taken ++ (hdr ++ data) ∧ hdr.length ≤ sizeofHdr ∧
    data.length ≤ params.rep.flatten.length ∧ r.rep = fill params.rep data ∧
    ∀ n, r.rc = .ok n → hdr.length = sizeofHdr ∧
      ReplyHdr.ofBytes hdr = ⟨replyHdrMagic, 0, params.opno, .ofNat n⟩ ∧
      n ≤ params.rep.flatten.length ∧ data.length = n
  shape : r.rep.map List.length = params.rep.map List.length

theorem ensures_sendIovecs (short : Errno) (iov : List Bytes) (peer : Peer) :
    Ensures hostile (fun _ peer' => peer'.taken = peer.taken) (sendIovecs fd short iov) peer := by
  induction iov generalizing peer with
  | nil => exact .ret rfl
  | cons v iov ih =>
    refine (ensures_sandboxRpcSend v peer).bind ?_
    rintro (errno | len) now sent
    · exact .ret sent.1
    · simp only
      split
      · exact .ret sent.1
      · exact (ih now).mono fun _ _ same => same.trans sent.1

theorem ensures_hostSendRequest {params : HostRpcParams}
    (rights : ∀ fdp, params.reqFdp = some fdp → fdp.length ≤ sandboxRpcApiMaxrights)
    (peer : Peer) :
    Ensures hostile (fun _ peer' => peer'.taken = peer.taken) (hostSendRequest params) peer := by
  have header : Ensures hostile (Sent peer)
      (sendHdr params.scb.fdHostEnd params.reqHdr.bytes params.reqFdp) peer := by
    rcases given : params.reqFdp with _ | fdp
    · exact ensures_sandboxRpcSend _ peer
    · exact ensures_sandboxRpcSendRights (rights fdp given) _ peer
  refine header.bind ?_
  rintro (errno | len) now sent
  · exact .ret sent.1
  · simp only
    split
    · exact .ret sent.1
    · exact (ensures_sendIovecs _ _ now).mono fun _ _ same => same.trans sent.1

/-- A return of -1 that left the reply buffers alone. -/
theorem Confined.fail {params : HostRpcParams} {peer peer' : Peer} (errno : Errno) {hdr : Bytes}
    (taken : peer'.taken = peer.taken ++ hdr) (most : hdr.length ≤ sizeofHdr) :
    Confined params peer (params.fail errno) peer' :=
  ⟨⟨hdr, [], by simpa using taken, most, by simp, by simp [HostRpcParams.fail],
    by simp [HostRpcParams.fail]⟩, rfl⟩

theorem ensures_hostReceiveReply {params : HostRpcParams}
    (entries : ∀ v ∈ params.rep, v.length < 2 ^ 64) (peer : Peer) :
    Ensures hostile (Confined params peer) (hostReceiveReply params) peer := by
  have header : Ensures hostile (fun r => Took sizeofHdr peer r.1)
      (recvHdr params.scb.fdHostEnd params.repFdp) peer := by
    rcases params.repFdp with _ | fdcount
    · exact (ensures_sandboxRpcRecv sizeofHdr peer).bind fun _ _ took => .ret took
    · exact ensures_sandboxRpcRecvRights sizeofHdr fdcount peer
  -- whatever the peer sends, the header takes at most its own size
  refine header.bind ?_
  rintro ⟨received, fds⟩ now took
  simp only at took
  rcases code : received.retlen with errno | len
  · simp only [code]
    exact .ret (.fail errno took.taken took.most)
  · simp only [code, bind_eq, pure_eq]
    split
    · refine (ensures_dispose fds now).bind ?_
      rintro _ _ rfl
      exact .ret (.fail .echild took.taken took.most)
    next whole =>
      split
      · refine (ensures_dispose fds now).bind ?_
        rintro _ _ rfl
        exact .ret (.fail .ebadrpc took.taken took.most)
      next proper =>
        simp only [not_or, Decidable.not_not, gt_iff_lt, UInt64.not_lt] at proper whole
        obtain ⟨magic, seqno, opno, short⟩ := proper
        -- a reply that is taken on is as long as a header
        have size : received.buf.length = sizeofHdr := by
          rcases took.count len code with same | zero
          · omega
          · rw [whole] at zero
            cases zero
        generalize hdr : ReplyHdr.ofBytes received.buf = repHdr at *
        -- the check against the request's datalen is what keeps the scatter inside
        have room : repHdr.datalen.toNat ≤ params.rep.flatten.length := by
          have le := UInt64.le_iff_toNat_le.mp short
          rw [HostRpcParams.reqHdr, sumLen_toNat] at le
          exact Nat.le_trans le (Nat.mod_le _ _)
        refine (ensures_scatter fds entries UInt64.zero_le (by simpa using room) now).bind ?_
        rintro ⟨rc, rep⟩ last ⟨data, taken, rfl, most, full⟩
        refine .ret ⟨⟨received.buf, data, ?_, took.most, ?_, rfl, ?_⟩, fill_lengths _ _⟩
        · rw [taken, took.taken, List.append_assoc]
        · simp only [UInt64.toNat_zero] at most
          omega
        · intro n ok
          rcases rc with errno | total
          · cases ok
          · obtain ⟨rfl, count⟩ := full total rfl
            cases ok
            refine ⟨size, ?_, room, by simpa using count⟩
            rw [hdr, ← magic, ← seqno, ← opno, UInt64.ofNat_toNat]

/-- Whatever the sandbox sends and wherever it stops, the RPC ends, stores only inside the
reply buffers, and returns 0 only for a proper reply that fits them. -/
theorem hostRpcInternalFix_confined {params : HostRpcParams}
    (entries : ∀ v ∈ params.rep, v.length < 2 ^ 64)
    (rights : ∀ fdp, params.reqFdp = some fdp → fdp.length ≤ sandboxRpcApiMaxrights)
    (peer : Peer) :
    Ensures hostile (Confined params peer) (hostRpcInternalFix params) peer := by
  refine (ensures_hostSendRequest rights peer).bind ?_
  rintro (errno | ⟨⟨⟩⟩) now same
  · have nothing : now.taken = peer.taken ++ [] := by rw [same, List.append_nil]
    exact .ret (.fail errno nothing (by simp))
  · refine (ensures_hostReceiveReply entries now).mono ?_
    rintro r last ⟨⟨hdr, data, taken, rest⟩, shape⟩
    exact ⟨⟨hdr, data, by rw [taken, same], rest⟩, shape⟩

/-- A request with one descriptor, answered into a zero-length and a two-byte buffer. -/
theorem hostRpcInternalFix_confined_small :
    let params : HostRpcParams := ⟨⟨3, 4⟩, 1, [[5]], some [0], [[], [0, 0]], some 2⟩
    Ensures hostile (Confined params ⟨[], 3⟩) (hostRpcInternalFix params) ⟨[], 3⟩ := by
  refine hostRpcInternalFix_confined ?_ ?_ ⟨[], 3⟩
  · simp
  · rintro fdp ⟨⟩
    decide

end CheriGzip.Libsep
