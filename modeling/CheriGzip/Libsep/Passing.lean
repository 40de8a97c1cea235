import CheriGzip.Libsep.Hygiene

/-!
# Descriptors through a socket

`_sandbox_rpc_send_rights` at one end and `_sandbox_rpc_recv_rights` at the other. The kernel
transfers as many descriptors as the `cmsg_len` of the message says, and the receiver knows
each by another number.
-/
namespace CheriGzip.Libsep

open Socket Proc Loop

/-- What is under way from a sender to a receiver: the message in the socket, with its descriptors as
the receiver knows them, and what the receiver did with descriptors. -/
structure Transit where
  flying : Option (Bytes × List Int)
  received : List Int
  closed : List Int
  interrupts : Nat

/-- Nothing was sent. -/
def Transit.idle (interrupts : Nat) : Transit := ⟨none, [], [], interrupts⟩

/-- The descriptors the kernel takes from the control messages of a `sendmsg`. -/
def transferred (control : List Cmsg) : List Int :=
  (control.filter (·.rights)).flatMap fun cmsg => cmsg.data.take (Cmsg.fdcount cmsg)

/-- The state after an interrupted call. -/
def Transit.Interrupted (s s' : Transit) : Prop := s = { s' with interrupts := s'.interrupts + 1 }

/-- The kernel between the two ends. `opened` tells which descriptors the sender has open, and
`image` how the receiver knows them. -/
def linked (opened : Int → Bool) (image : Int → Int) : Env (@Answer UInt8 Event) Transit
  | .send _ bytes, s, answer, s' =>
    match answer with
    | .ok n => n ≤ bytes.length ∧ s' = { s with flying := some (bytes.take n, []) }
    | .error errno => errno = .eintr ∧ s.Interrupted s'
  | .recv _ len, s, answer, s' =>
    match answer with
    | .ok bytes => ∃ data fds, s.flying = some (data, fds) ∧ bytes <+: data ∧ bytes.length ≤ len ∧
        -- descriptors for which the call has no buffer are lost
        s' = { s with flying := some (data.drop bytes.length, []) }
    | .error errno => errno = .eintr ∧ s.Interrupted s'
  | .sendmsg _ bytes control, s, answer, s' =>
    match answer with
    | .ok n => n ≤ bytes.length ∧ (∀ fd ∈ transferred control, opened fd = true) ∧
        s' = { s with flying := some (bytes.take n, (transferred control).map image) }
    | .error .eintr => s.Interrupted s'
    | .error _ => (∃ fd ∈ transferred control, opened fd = false) ∧ s' = s
  | .recvmsg _ len, s, answer, s' =>
    match answer with
    | .ok (bytes, control) => ∃ data fds, s.flying = some (data, fds) ∧ bytes <+: data ∧
        bytes.length ≤ len ∧ control = [⟨true, cmsgLen (4 * fds.length), fds⟩] ∧
        s' = { s with flying := none, received := s.received ++ fds }
    | .error errno => errno = .eintr ∧ s.Interrupted s'
  | .close fd, s, _, s' => s' = { s with closed := s.closed ++ [fd] }
  | .note _, s, _, s' => s' = s
  | .undefined, _, _, _ => False

/-- A message with descriptors sent by one end and received by the other. -/
def transfer (sender receiver : Int) (msg : Bytes) (fdp : List Int) (fdcount : Nat) :
    Prog (Except Errno Nat × Option (Received × List Int)) := do
  match ← sandboxRpcSendRights sender msg fdp with
  | .error errno => pure (.error errno, none)
  | .ok len => do pure (.ok len, some (← sandboxRpcRecvRights receiver msg.length fdcount))

/-- The descriptors `sandboxRpcSendRights` puts in its control message: an odd number of them
leaves a padding slot behind, which holds descriptor 0. -/
def padded (fdp : List Int) : List Int := fdp ++ List.replicate (fdp.length % 2) 0

variable {opened : Int → Bool} {image : Int → Int} {sender receiver : Int}

/-! ## The sender -/

/-- What the sender does, when its control buffer has room for the descriptors. -/
theorem sandboxRpcSendRights_eq (msg : Bytes) {fdp : List Int} (given : fdp ≠ [])
    (few : fdp.length ≤ sandboxRpcApiMaxrights) (usable : ¬ (sender = -1 ∨ sender = 0)) :
    sandboxRpcSendRights sender msg fdp =
      untilNoEintr (sendmsg sender msg [⟨true, cmsgSpace (4 * fdp.length), padded fdp⟩]) id := by
  have some : fdp.length ≠ 0 := by simpa using given
  have room : ¬ cmsgLen (4 * fdp.length) > cmsgSpace (4 * sandboxRpcApiMaxrights) := by
    simp only [cmsgLen, cmsgSpace, cmsgAlign, sandboxRpcApiMaxrights] at few ⊢
    omega
  have slots : (cmsgSpace (4 * fdp.length) - cmsgLen 0) / 4 - fdp.length = fdp.length % 2 := by
    simp only [cmsgLen, cmsgSpace, cmsgAlign]
    omega
  simp only [sandboxRpcSendRights, some, usable, room, if_false, slots, padded]

/-- More descriptors than the control buffer holds are written past its end. -/
theorem sandboxRpcSendRights_overflows (msg : Bytes) {fdp : List Int}
    (many : sandboxRpcApiMaxrights < fdp.length) (usable : ¬ (sender = -1 ∨ sender = 0)) :
    sandboxRpcSendRights sender msg fdp = undefined := by
  have some : fdp.length ≠ 0 := by omega
  have excess : cmsgLen (4 * fdp.length) > cmsgSpace (4 * sandboxRpcApiMaxrights) := by
    simp only [cmsgLen, cmsgSpace, cmsgAlign, sandboxRpcApiMaxrights] at many ⊢
    omega
  simp only [sandboxRpcSendRights, some, usable, excess, if_false, if_true]

/-- The length of the message counts the padding slot. -/
theorem transferred_padded (fdp : List Int) :
    transferred [⟨true, cmsgSpace (4 * fdp.length), padded fdp⟩] = padded fdp := by
  have all : Cmsg.fdcount ⟨true, cmsgSpace (4 * fdp.length), padded fdp⟩ =
      (padded fdp).length := by
    simp only [Cmsg.fdcount, cmsgLen, cmsgSpace, cmsgAlign, padded, List.length_append,
      List.length_replicate]
    omega
  simp [transferred, all]

/-- The outcome of a send: descriptors in the socket, or one of them was not open. -/
def SentRights (opened : Int → Bool) (image : Int → Int) (fds : List Int) :
    Except Errno Nat → Transit → Prop
  | .ok _, s => (∀ fd ∈ fds, opened fd = true) ∧
      ∃ data interrupts, s = ⟨some (data, fds.map image), [], [], interrupts⟩
  | .error _, _ => ∃ fd ∈ fds, opened fd = false

theorem ensures_sendRights (msg : Bytes) {fdp : List Int} (given : fdp ≠ [])
    (few : fdp.length ≤ sandboxRpcApiMaxrights) (usable : ¬ (sender = -1 ∨ sender = 0))
    (interrupts : Nat) :
    Ensures (linked opened image) (SentRights opened image (padded fdp))
      (sandboxRpcSendRights sender msg fdp) (.idle interrupts) := by
  rw [sandboxRpcSendRights_eq msg given few usable]
  refine ensures_untilNoEintr (fun s => ∃ n, s = .idle n) Transit.interrupts ?_ ⟨interrupts, rfl⟩
  rintro _ ⟨n, rfl⟩
  refine .call ?_ ?_
  · -- the kernel takes the message or refuses it
    by_cases all : ∀ fd ∈ padded fdp, opened fd = true
    · exact ⟨.ok 0, _, Nat.zero_le _, by rwa [transferred_padded], rfl⟩
    · refine ⟨.error (.other 9), .idle n, ?_, rfl⟩
      rw [transferred_padded]
      simpa using all
  · rintro (errno | len) s answer
    · cases errno with
      | eintr =>
        refine .ret ⟨fun _ => ?_, by simp⟩
        obtain ⟨flying, received, closed, left⟩ := s
        cases answer
        exact ⟨⟨left, rfl⟩, by simp [Transit.idle]⟩
      | _ =>
        refine .ret ⟨by simp, fun _ => ?_⟩
        have refused := answer.1
        rwa [transferred_padded] at refused
    · refine .ret ⟨nofun, fun _ => ?_⟩
      obtain ⟨-, all, rfl⟩ := answer
      rw [transferred_padded] at all ⊢
      exact ⟨all, _, n, rfl⟩

/-! ## The receiver -/

/-- A plain receive of a message that waits does not fail. -/
theorem ensures_recvWaiting (len : Nat) {s : Transit} (waits : s.flying ≠ none)
    (usable : ¬ (receiver = -1 ∨ receiver = 0)) :
    Ensures (linked opened image) (fun r _ => ∃ n, r.retlen = .ok n)
      (sandboxRpcRecv receiver len) s := by
  simp only [sandboxRpcRecv, usable, if_false]
  refine ensures_untilNoEintr (·.flying ≠ none) Transit.interrupts ?_ waits
  intro s waits
  have received : Ensures (linked opened image) (fun r _ => ∃ n, r.retlen = .ok n)
      (recvEverything receiver len) s := by
    refine .loop (fun _ s => s.flying ≠ none) (fun x s => x.1 + s.interrupts) ?_ waits
    rintro ⟨left, buf⟩ s waits
    by_cases empty : left = 0
    · simp only [recvRound, empty, if_true]
      exact .ret (.ret ⟨_, rfl⟩)
    · simp only [recvRound, empty, if_false, bind_eq, recv_bind]
      obtain ⟨⟨data, fds⟩, message⟩ := Option.ne_none_iff_exists'.mp waits
      refine .call ⟨.ok [], _, data, fds, message, List.nil_prefix, Nat.zero_le _, rfl⟩ ?_
      rintro (errno | bytes) s' answer
      · obtain ⟨rfl, same⟩ := answer
        cases same
        exact .ret ⟨waits, by simp⟩
      · obtain ⟨data', fds', message', -, most, rfl⟩ := answer
        by_cases none : bytes.length = 0
        · simp only [none, if_true]
          exact .ret (.ret ⟨_, rfl⟩)
        · simp only [none, if_false]
          exact .ret ⟨by simp, by simp only; omega⟩
  refine received.mono ?_
  rintro r s' ⟨n, ok⟩
  exact ⟨by simp [ok], fun _ => ⟨n, ok⟩⟩

/-- The outcome of a receive with room for `fdcount` descriptors. -/
def ReceivedRights (fds : List Int) (fdcount : Nat) (r : Received × List Int) (s : Transit) : Prop :=
  if fdcount = 0 then
    -- no descriptors are asked for
    ∃ n, r.1.retlen = .ok n
  else if fdcount > sandboxRpcApiMaxrights then
    r.1.retlen = .error .emsgsize
  else if fds.length > fdcount then
    r.1.retlen = .error .ebadmsg ∧ s.received = fds ∧ s.closed = fds
  else
    (∃ n, r.1.retlen = .ok n) ∧ r.2 = fds ∧ s.received = fds ∧ s.closed = []

theorem ensures_closeAll (fds : List Int) (s : Transit) :
    Ensures (linked opened image) (fun _ s' => s' = { s with closed := s.closed ++ fds })
      (sandboxDisposeRights fds) s := by
  let shut (s : Transit) (fd : Int) : Transit := { s with closed := s.closed ++ [fd] }
  have all : ∀ s, fds.foldl shut s = { s with closed := s.closed ++ fds } := by
    induction fds with
    | nil => simp
    | cons fd fds ih => simp [ih, shut]
  rw [← all]
  exact @ensures_sandboxDisposeRights Transit (linked opened image) shut (fun _ _ _ => .rfl) fds s

/-- The code counts the descriptors of a single delivered message right. -/
theorem fdcount_delivered (fds : List Int) :
    Cmsg.fdcount ⟨true, cmsgLen (4 * fds.length), fds⟩ = fds.length :=
  Delivered.fdcount (fun _ => rfl) rfl

theorem ensures_recvRights (len : Nat) (data : Bytes) (fds : List Int) (fdcount interrupts : Nat)
    (usable : ¬ (receiver = -1 ∨ receiver = 0)) :
    Ensures (linked opened image) (ReceivedRights fds fdcount)
      (sandboxRpcRecvRights receiver len fdcount) ⟨some (data, fds), [], [], interrupts⟩ := by
  unfold sandboxRpcRecvRights ReceivedRights
  by_cases plain : fdcount = 0
  · simp only [plain, if_true]
    exact (ensures_recvWaiting len (by simp) usable).bind fun _ _ received => .ret received
  by_cases large : fdcount > sandboxRpcApiMaxrights
  · simp only [plain, usable, large, if_false, if_true]
    exact .ret rfl
  simp only [plain, usable, large, if_false]
  have message : Ensures (linked opened image) (fun r s => ∃ bytes interrupts,
      r = .ok (bytes, [⟨true, cmsgLen (4 * fds.length), fds⟩]) ∧ s = ⟨none, fds, [], interrupts⟩)
      (untilNoEintr (recvmsg receiver len) (fun r => r.map fun m => m.1.length))
      ⟨some (data, fds), [], [], interrupts⟩ := by
    refine ensures_untilNoEintr (fun s => ∃ n, s = ⟨some (data, fds), [], [], n⟩)
      Transit.interrupts ?_ ⟨interrupts, rfl⟩
    rintro _ ⟨n, rfl⟩
    refine .call ⟨.ok ([], _), _, data, fds, rfl, List.nil_prefix, Nat.zero_le _, rfl, rfl⟩ ?_
    rintro (errno | ⟨bytes, control⟩) s answer
    · obtain ⟨rfl, same⟩ := answer
      obtain ⟨flying, received, closed, left⟩ := s
      cases same
      exact .ret ⟨fun _ => ⟨⟨left, rfl⟩, by simp⟩, by simp [Except.map]⟩
    · obtain ⟨data', fds', waits, -, -, rfl, rfl⟩ := answer
      cases waits
      exact .ret ⟨nofun, fun _ => ⟨bytes, n, rfl, rfl⟩⟩
  refine message.bind ?_
  rintro _ _ ⟨bytes, n, rfl, rfl⟩
  simp only [sandboxRpcReceiveRights, List.filter_cons_of_pos, List.filter_nil, List.map_cons,
    List.map_nil, List.sum_cons, List.sum_nil, Nat.add_zero, fdcount_delivered,
    List.flatMap_cons, List.flatMap_nil, List.append_nil, List.take_length, List.length_cons,
    List.length_nil]
  by_cases many : fds.length > fdcount
  · simp only [many, or_true, if_true, bind_eq, pure_eq, Proc.bind_assoc, ret_bind]
    refine (ensures_closeAll fds _).bind ?_
    rintro _ _ rfl
    exact .ret ⟨rfl, rfl, rfl⟩
  · simp only [many, or_false, if_false]
    exact .ret ⟨⟨_, rfl⟩, rfl, rfl, rfl⟩

/-! ## The round trip -/

/-- What passing `fdp` to a receiver with room for `fdcount` is to do: up to 16 descriptors
arrive in order and nothing else does, more than 16 are not sent, and descriptors without room
are closed. -/
structure Passes (image : Int → Int) (fdp : List Int) (fdcount : Nat)
    (out : Except Errno Nat × Option (Received × List Int)) (s : Transit) : Prop where
  delivers : fdp.length ≤ sandboxRpcApiMaxrights → fdp.length ≤ fdcount →
    ∃ received n, out.2 = some (received, fdp.map image) ∧ received.retlen = .ok n ∧
      s.received = fdp.map image ∧ s.closed = []
  refuses : sandboxRpcApiMaxrights < fdp.length →
    (∃ errno, out.1 = .error errno) ∧ s.flying = none
  closes : fdp.length ≤ sandboxRpcApiMaxrights → fdcount < fdp.length →
    ∃ received fds errno, out.2 = some (received, fds) ∧ received.retlen = .error errno ∧
      s.closed.Perm s.received

/-- The outcome of a transfer of at most 16 descriptors. -/
def Transferred (opened : Int → Bool) (image : Int → Int) (fdp : List Int) (fdcount : Nat)
    (out : Except Errno Nat × Option (Received × List Int)) (s : Transit) : Prop :=
  match out.2 with
  | some r => (∀ fd ∈ padded fdp, opened fd = true) ∧
      ReceivedRights ((padded fdp).map image) fdcount r s
  | none => ∃ fd ∈ padded fdp, opened fd = false

theorem ensures_transfer (msg : Bytes) {fdp : List Int} (given : fdp ≠ [])
    (few : fdp.length ≤ sandboxRpcApiMaxrights) (fdcount interrupts : Nat)
    (sends : ¬ (sender = -1 ∨ sender = 0)) (receives : ¬ (receiver = -1 ∨ receiver = 0)) :
    Ensures (linked opened image) (Transferred opened image fdp fdcount)
      (transfer sender receiver msg fdp fdcount) (.idle interrupts) := by
  refine (ensures_sendRights msg given few sends interrupts).bind ?_
  rintro (errno | len) s sent
  · exact .ret sent
  · obtain ⟨all, data, n, rfl⟩ := sent
    exact (ensures_recvRights msg.length data _ fdcount n receives).bind
      fun _ _ received => .ret ⟨all, received⟩

theorem padded_even {fdp : List Int} (even : fdp.length % 2 = 0) : padded fdp = fdp := by
  simp [padded, even]

theorem padded_odd {fdp : List Int} (odd : fdp.length % 2 = 1) : padded fdp = fdp ++ [0] := by
  simp [padded, odd]

/-- When a transfer of at most 16 descriptors is what passing them is to do. -/
theorem Transferred.passes_iff {fdp : List Int} {fdcount : Nat}
    {out : Except Errno Nat × Option (Received × List Int)} {s : Transit} (given : fdp ≠ [])
    (few : fdp.length ≤ sandboxRpcApiMaxrights) (allOpen : ∀ fd ∈ fdp, opened fd = true)
    (transferred : Transferred opened image fdp fdcount out s) :
    Passes image fdp fdcount out s ↔ 1 ≤ fdcount ∧ fdcount ≤ sandboxRpcApiMaxrights ∧
      (fdp.length % 2 = 0 ∨ (fdcount < fdp.length ∧ opened 0 = true)) := by
  unfold Transferred at transferred
  rcases arrived : out.2 with _ | r
  · -- the padding slot was refused, and nothing reached the receiver
    rw [arrived] at transferred
    obtain ⟨fd, mem, shut⟩ := transferred
    have zero : fdp.length % 2 = 1 ∧ opened 0 = false := by
      rcases Nat.mod_two_eq_zero_or_one fdp.length with even | odd
      · rw [padded_even even] at mem
        rw [allOpen fd mem] at shut
        cases shut
      · rw [padded_odd odd, List.mem_append, List.mem_singleton] at mem
        rcases mem with mem | rfl
        · rw [allOpen fd mem] at shut
          cases shut
        · exact ⟨odd, shut⟩
    refine iff_of_false (fun passes => ?_) (by simp [zero])
    rcases Nat.lt_or_ge fdcount fdp.length with short | room
    · obtain ⟨received, fds, errno, some, -⟩ := passes.closes few short
      rw [arrived] at some
      cases some
    · obtain ⟨received, n, some, -⟩ := passes.delivers few room
      rw [arrived] at some
      cases some
  · -- the message arrived, with the padding slot if there is one
    rw [arrived] at transferred
    obtain ⟨paddedOpen, received⟩ := transferred
    unfold ReceivedRights at received
    rw [List.length_map] at received
    by_cases plain : fdcount = 0
    · -- nothing was closed and nothing failed
      rw [if_pos plain] at received
      obtain ⟨n, ok⟩ := received
      refine iff_of_false (fun passes => ?_) (by omega)
      have some : 0 < fdp.length := List.length_pos_iff.mpr given
      obtain ⟨received, fds, errno, same, failed, -⟩ := passes.closes few (by omega)
      rw [arrived] at same
      cases same
      rw [ok] at failed
      cases failed
    rw [if_neg plain] at received
    -- more slots than a message may have: the receiver fails before it looks
    by_cases large : fdcount > sandboxRpcApiMaxrights
    · rw [if_pos large] at received
      refine iff_of_false (fun passes => ?_) (by omega)
      obtain ⟨received', n, same, ok, -⟩ := passes.delivers few (by omega)
      rw [arrived] at same
      cases same
      rw [ok] at received
      cases received
    rw [if_neg large] at received
    have length : (padded fdp).length = fdp.length + fdp.length % 2 := by simp [padded]
    by_cases many : (padded fdp).length > fdcount
    · -- everything that arrived was closed, which is right when there was no room
      rw [if_pos many] at received
      obtain ⟨failed, all, closed⟩ := received
      have short : Passes image fdp fdcount out s ↔ fdcount < fdp.length := by
        constructor
        · intro passes
          by_contra room
          obtain ⟨received, n, same, ok, -⟩ := passes.delivers few (by omega)
          rw [arrived] at same
          cases same
          rw [ok] at failed
          cases failed
        · intro short
          exact ⟨fun _ room => by omega, fun many => by omega,
            fun _ _ => ⟨r.1, r.2, .ebadmsg, arrived, failed, .of_eq (closed.trans all.symm)⟩⟩
      rw [short]
      rcases Nat.mod_two_eq_zero_or_one fdp.length with even | odd
      · omega
      · have zero : opened 0 = true := paddedOpen 0 (by simp [padded_odd odd])
        simp only [zero, and_true]
        omega
    · -- everything that was sent arrived, a padding slot included
      rw [if_neg many] at received
      obtain ⟨⟨n, ok⟩, fds, all, closed⟩ := received
      rcases Nat.mod_two_eq_zero_or_one fdp.length with even | odd
      · rw [padded_even even] at fds all
        refine iff_of_true ⟨fun _ _ => ⟨r.1, n, by rw [arrived, ← fds], ok, all, closed⟩,
          fun many => by omega, fun _ short => by omega⟩ (by omega)
      · refine iff_of_false (fun passes => ?_) (by omega)
        obtain ⟨received, n', same, -⟩ := passes.delivers few (by omega)
        rw [arrived] at same
        have counts := congrArg List.length (congrArg Prod.snd (Option.some.inj same))
        simp only [fds, List.length_map, length] at counts
        omega

/-- Descriptors pass when there is room for an even number of them. For an odd number a
padding slot is sent as well: the round trip fails, except that a receiver without room
still closes everything when descriptor 0 could be sent. More than 16 overflow the sender's
buffer. -/
theorem transfer_passes_iff (msg : Bytes) {fdp : List Int} (given : fdp ≠ [])
    (allOpen : ∀ fd ∈ fdp, opened fd = true) (fdcount interrupts : Nat)
    (sends : ¬ (sender = -1 ∨ sender = 0)) (receives : ¬ (receiver = -1 ∨ receiver = 0)) :
    Ensures (linked opened image) (Passes image fdp fdcount)
      (transfer sender receiver msg fdp fdcount) (.idle interrupts) ↔
    fdp.length ≤ sandboxRpcApiMaxrights ∧ 1 ≤ fdcount ∧ fdcount ≤ sandboxRpcApiMaxrights ∧
      (fdp.length % 2 = 0 ∨ (fdcount < fdp.length ∧ opened 0 = true)) := by
  rcases Nat.lt_or_ge sandboxRpcApiMaxrights fdp.length with many | few
  · -- the overflow is undefined behaviour, from which no run goes on
    refine iff_of_false (fun ensures => ?_) (by omega)
    rw [transfer, sandboxRpcSendRights_overflows msg many sends] at ensures
    cases ensures with
    | done rests => cases rests
    | turn rests => cases rests
    | op rests answered =>
      cases rests
      obtain ⟨x, -⟩ := answered
      exact x.elim
  · have run := @ensures_transfer opened image _ _ msg fdp given few fdcount interrupts sends
      receives
    constructor
    · intro ensures
      obtain ⟨out, s, passes, transferred⟩ := ensures.meet run
      exact ⟨few, (transferred.passes_iff given few allOpen).mp passes⟩
    · rintro ⟨-, condition⟩
      exact run.mono fun out s transferred =>
        (transferred.passes_iff given few allOpen).mpr condition

/-- Two descriptors pass to a receiver with room for two. -/
theorem transfer_passes_iff_two :
    Ensures (linked (fun _ => true) (· + 10)) (Passes (· + 10) [5, 6] 2)
      (transfer 3 4 [1] [5, 6] 2) (.idle 0) :=
  (transfer_passes_iff [1] (by simp) (by simp) 2 0 (by decide) (by decide)).mpr (by decide)

/-- A single descriptor does not pass to a receiver with room for one. -/
theorem single_not_passed :
    ¬ Ensures (linked (fun _ => true) (· + 10)) (Passes (· + 10) [7] 1)
      (transfer 3 4 [1] [7] 1) (.idle 0) := by
  intro ensures
  obtain ⟨out, s, passes, transferred⟩ :=
    ensures.meet (ensures_transfer [1] (by simp) (by decide) 1 0 (by decide) (by decide))
  have even := (transferred.passes_iff (by simp) (by decide) (by simp)).mp passes
  simp at even

end CheriGzip.Libsep
