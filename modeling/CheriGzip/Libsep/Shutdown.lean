import CheriGzip.Libsep.Calls
import CheriGzip.Libsep.Wire

/-!
# The end of a session

The peer sends a stream of bytes and closes the socket, and the kernel hands the stream over
in any fragments. `sandbox_recvrpc` takes the messages off it until it fails.
-/
namespace CheriGzip.Libsep

open Socket Proc Loop

/-- What the peer sent and the sandbox has not received, and the interrupts still to come. -/
structure Stream where
  rest : Bytes
  interrupts : Nat

/-- A receive takes some of what is left, and nothing only at the end of the stream. -/
def Stream.Gives (s : Stream) (len : Nat) (bytes : Bytes) (s' : Stream) : Prop :=
  bytes <+: s.rest ∧ bytes.length ≤ len ∧ (bytes = [] → s.rest = [] ∨ len = 0) ∧
    s' = { s with rest := s.rest.drop bytes.length }

/-- The stream after an interrupted call. -/
def Stream.Interrupted (s s' : Stream) : Prop := s = { s' with interrupts := s'.interrupts + 1 }

/-- The kernel's answers for a peer that sent a stream and closed. -/
def closing : Env (@Answer UInt8 Event) Stream
  | .send _ bytes, s, answer, s' =>
    match answer with
    | .ok n => n ≤ bytes.length ∧ s' = s
    | .error errno => errno = .epipe ∧ s' = s
  | .recv _ len, s, answer, s' =>
    match answer with
    | .ok bytes => s.Gives len bytes s'
    | .error errno => errno = .eintr ∧ s.Interrupted s'
  | .sendmsg _ bytes _, s, answer, s' =>
    match answer with
    | .ok n => n ≤ bytes.length ∧ s' = s
    | .error errno => errno = .epipe ∧ s' = s
  | .recvmsg _ len, s, answer, s' =>
    match answer with
    | .ok (bytes, control) => s.Gives len bytes s' ∧ control = []
    | .error errno => errno = .eintr ∧ s.Interrupted s'
  | .close _, s, _, s' => s' = s
  | .note _, s, _, s' => s' = s
  | .undefined, _, _, _ => False

variable {fd : Int}

/-! ## Receiving -/

/-- However the stream is fragmented, a receive gets all of what it asked for, or reports the
end of the stream with a count of 0 when it got less. -/
def Drained (len : Nat) (stream : Bytes) (r : Received) (s : Stream) : Prop :=
  if len ≤ stream.length then
    r.retlen = .ok len ∧ r.buf = stream.take len ∧ s.rest = stream.drop len
  else
    r.retlen = .ok 0 ∧ s.rest = []

theorem ensures_recvStream (len : Nat) (s : Stream) :
    Ensures closing (Drained len s.rest) (recvEverything fd len) s := by
  obtain ⟨stream, interrupts⟩ := s
  -- what was received and what is left make up the stream at every round
  refine .loop (fun x s => stream = x.2 ++ s.rest ∧ x.2.length + x.1 = len)
    (fun x s => x.1 + s.interrupts) ?_ ⟨rfl, by simp⟩
  rintro ⟨left, buf⟩ s ⟨whole, sum⟩
  simp only at whole sum
  by_cases empty : left = 0
  · simp only [recvRound, empty, if_true]
    refine .ret (.ret ?_)
    have count : buf.length = len := by omega
    simp only [Drained, whole, List.length_append, count, Nat.le_add_right, if_true]
    exact ⟨trivial, (List.take_left' count).symm, (List.drop_left' count).symm⟩
  · simp only [recvRound, empty, if_false, bind_eq, recv_bind]
    have asked : min left sendMax ≠ 0 := by
      have positive : sendMax ≠ 0 := by decide
      omega
    refine .call ?_ ?_
    · -- the kernel can hand over a single byte, or report the end
      rcases ended : s.rest with _ | ⟨b, rest⟩
      · exact ⟨.ok [], ⟨[], s.interrupts⟩, List.nil_prefix, by simp, by simp [ended],
          by simp [ended]⟩
      · refine ⟨.ok [b], ⟨rest, s.interrupts⟩, ?_, ?_, nofun, by simp [ended]⟩
        · simp [ended]
        · simp only [List.length_singleton]
          omega
    · rintro (errno | bytes) s' answer
      · obtain ⟨rfl, rfl⟩ := answer
        exact .ret ⟨⟨whole, sum⟩, by simp⟩
      · obtain ⟨⟨rest, left_eq⟩, most, nothing, rfl⟩ := answer
        by_cases none : bytes.length = 0
        · simp only [none, if_true]
          obtain rfl : bytes = [] := List.length_eq_zero_iff.mp none
          have ended : s.rest = [] := by simpa [asked] using nothing
          refine .ret (.ret ?_)
          have less : ¬ len ≤ stream.length := by
            rw [whole, ended, List.append_nil]
            omega
          simp [Drained, less, ended]
        · simp only [none, if_false]
          refine .ret ⟨⟨?_, ?_⟩, ?_⟩
          · simp only [whole, ← left_eq, List.drop_left, List.append_assoc]
          · simp only [List.length_append]
            omega
          · simp only
            omega

theorem ensures_sandboxRpcRecvStream (usable : ¬ (fd = -1 ∨ fd = 0)) (len : Nat) (s : Stream) :
    Ensures closing (Drained len s.rest) (sandboxRpcRecv fd len) s := by
  simp only [sandboxRpcRecv, usable, if_false]
  refine ensures_untilNoEintr (· = s) Stream.interrupts ?_ rfl
  rintro _ rfl
  refine (ensures_recvStream len _).mono ?_
  intro r s' drained
  have settled : r.retlen ≠ .error .eintr := by
    unfold Drained at drained
    split at drained <;> simp [drained.1]
  exact ⟨fun interrupted => absurd interrupted settled, fun _ => drained⟩

/-! ## One call -/

/-- The header at the head of a stream. -/
def headerOf (stream : Bytes) : RequestHdr := RequestHdr.ofBytes (stream.take sizeofHdr)

/-- The length of the message at the head of a stream. -/
def messageLen (stream : Bytes) : Nat := sizeofHdr + (headerOf stream).datalen.toNat

/-- A stream begins with a whole message that the sandbox can take. -/
def Whole (mallocs : Nat → Bool) (stream : Bytes) : Prop :=
  (headerOf stream).magic = requestHdrMagic ∧
    mallocs (headerOf stream).datalen.toNat = true ∧ messageLen stream ≤ stream.length

instance (mallocs : Nat → Bool) (stream : Bytes) : Decidable (Whole mallocs stream) :=
  inferInstanceAs (Decidable (_ ∧ _ ∧ _))

/-- The outcome of a call of `sandbox_recvrpc` on a stream: it took the whole message at its
head; or it failed, with `EPIPE` when not even a header was there, and past the header when
it was. -/
def Called (mallocs : Nat → Bool) (stream : Bytes) (r : Except Errno Request) (s : Stream) :
    Prop :=
  match r with
  | .ok _ => Whole mallocs stream ∧ s.rest = stream.drop (messageLen stream)
  | .error errno => ¬ Whole mallocs stream ∧ (stream.length < sizeofHdr → errno = .epipe) ∧
      (sizeofHdr ≤ stream.length → s.rest.length + sizeofHdr ≤ stream.length)

theorem ensures_payload (usable : ¬ (fd = -1 ∨ fd = 0)) (reqHdr : RequestHdr) (s : Stream) :
    Ensures closing (fun r s' => match r with
        | .ok _ => reqHdr.datalen.toNat ≤ s.rest.length ∧
          s'.rest = s.rest.drop reqHdr.datalen.toNat
        | .error _ => s.rest.length < reqHdr.datalen.toNat ∧ s'.rest = [])
      (iterate (payloadRound fd reqHdr []) []) s := by
  generalize size : reqHdr.datalen.toNat = datalen
  refine .unroll ?_
  simp only [payloadRound, size, List.length_nil, Nat.sub_zero]
  split
  next some =>
    refine (ensures_sandboxRpcRecvStream usable _ s).bind ?_
    intro received s' drained
    unfold Drained at drained
    split at drained
    next enough =>
      obtain ⟨count, bytes, rest⟩ := drained
      simp only [count, Nat.ne_of_gt some, if_false]
      -- all of the payload came at once, so the next round leaves
      refine .ret (.unroll ?_)
      have full : ¬ received.buf.length < datalen := by
        rw [bytes, List.length_take]
        omega
      simp only [payloadRound, size, List.nil_append, full, if_false]
      exact .ret (.ret ⟨enough, rest⟩)
    next short =>
      obtain ⟨count, rest⟩ := drained
      simp only [count, if_true]
      exact .ret (.ret ⟨by omega, rest⟩)
  next nothing =>
    refine .ret (.ret ⟨by omega, ?_⟩)
    have zero : datalen = 0 := by omega
    rw [zero, List.drop_zero]

/-- A call fails at once on a descriptor that stands for no socket. -/
theorem sandboxRecvrpc_gone {scb : SandboxCb} (mallocs : Nat → Bool)
    (gone : scb.fdSandboxEnd = -1 ∨ scb.fdSandboxEnd = 0) :
    sandboxRecvrpc scb mallocs = .ret (.error .esrch) := by
  simp [sandboxRecvrpc, sandboxRecvrpcInternal, recvHdr, sandboxRpcRecv, gone]

theorem ensures_sandboxRecvrpc {scb : SandboxCb} (mallocs : Nat → Bool) (s : Stream)
    (usable : ¬ (scb.fdSandboxEnd = -1 ∨ scb.fdSandboxEnd = 0)) :
    Ensures closing (Called mallocs s.rest) (sandboxRecvrpc scb mallocs) s := by
  simp only [sandboxRecvrpc, sandboxRecvrpcInternal, recvHdr, bind_eq, pure_eq, Proc.bind_assoc,
    ret_bind]
  refine (ensures_sandboxRpcRecvStream usable sizeofHdr s).bind ?_
  intro received s₁ drained
  unfold Drained at drained
  split at drained
  -- a whole header is there
  next enough =>
    obtain ⟨count, bytes, rest⟩ := drained
    have header : RequestHdr.ofBytes received.buf = headerOf s.rest := by rw [bytes, headerOf]
    have left : s₁.rest.length + sizeofHdr = s.rest.length := by
      rw [rest, List.length_drop]
      omega
    have refused : ∀ errno, ¬ Whole mallocs s.rest →
        Called mallocs s.rest (.error errno) s₁ :=
      fun errno broken => ⟨broken, fun short => by omega, fun _ => by omega⟩
    have positive : sizeofHdr ≠ 0 := by decide
    simp only [count, positive, if_false, ne_eq, not_true_eq_false, header, sandboxDisposeRights,
      pure_eq, ret_bind]
    split
    next magic => exact .ret (refused .ebadmsg fun whole => magic whole.1)
    next magic =>
      split
      next fails => exact .ret (refused .enomem fun whole => by simp [whole.2.1] at fails)
      next room =>
        refine (ensures_payload usable _ s₁).mono ?_
        rintro (errno | request) s₂ ⟨size, after⟩
        · refine ⟨fun whole => ?_, fun short => by omega, fun _ => ?_⟩
          · have fits := whole.2.2
            rw [messageLen] at fits
            omega
          · rw [after]
            simpa using enough
        · refine ⟨⟨Decidable.not_not.mp magic, by simpa using room, ?_⟩, ?_⟩
          · rw [messageLen]
            omega
          · rw [after, rest, List.drop_drop, messageLen]
  -- the stream ends in the header, and all of it was taken
  next short =>
    obtain ⟨count, rest⟩ := drained
    simp only [count, if_true, sandboxDisposeRights, pure_eq, ret_bind]
    refine .ret ⟨fun whole => ?_, fun _ => rfl, fun enough => absurd enough short⟩
    have fits := whole.2.2
    rw [messageLen] at fits
    omega

/-! ## The calls of a session -/

/-- The calls of a session one after the other, up to the one that fails. -/
def recvrpcs (scb : SandboxCb) (mallocs : Nat → Bool) : Prog Errno :=
  iterate (fun _ => do
    match ← sandboxRecvrpc scb mallocs with
    | .error errno => pure (.leave errno)
    | .ok _ => pure (.again ()))
    ()

/-- What the calls that succeed leave of a stream. -/
def unread (mallocs : Nat → Bool) (stream : Bytes) : Bytes :=
  if Whole mallocs stream then unread mallocs (stream.drop (messageLen stream)) else stream
termination_by stream.length
decreasing_by
  next whole =>
    have fits := whole.2.2
    rw [List.length_drop, messageLen] at *
    simp only [sizeofHdr] at *
    omega

/-- A call that fails on a stream with less than a header tells the end of the session from a
truncated one. `EPIPE` counts as the end of the session when no header was received. -/
structure Distinguishes (stream : Bytes) (errno : Errno) (s : Stream) : Prop where
  clean : errno = .epipe → stream.length < s.rest.length + sizeofHdr → stream = []
  truncated : 0 < stream.length → stream.length < sizeofHdr → errno = .ebadmsg

/-- The failing call goes by the bytes it finds: any part of a header is taken for the end. -/
theorem Called.distinguishes_iff {mallocs : Nat → Bool} {stream : Bytes} {errno : Errno}
    {s : Stream} (called : Called mallocs stream (.error errno) s) :
    Distinguishes stream errno s ↔ ¬ (0 < stream.length ∧ stream.length < sizeofHdr) := by
  obtain ⟨-, short, long⟩ := called
  constructor
  · rintro distinguishes ⟨some, part⟩
    have badmsg := distinguishes.truncated some part
    rw [short part] at badmsg
    cases badmsg
  · intro outside
    refine ⟨fun _ part => ?_, fun some part => absurd ⟨some, part⟩ outside⟩
    rcases Nat.lt_or_ge stream.length sizeofHdr with less | more
    · exact List.length_eq_zero_iff.mp (by omega)
    · have header := long more
      omega

/-- The call that fails finds what the calls before it left. -/
theorem ensures_recvrpcs {scb : SandboxCb} (mallocs : Nat → Bool) (stream : Bytes)
    (interrupts : Nat) (usable : ¬ (scb.fdSandboxEnd = -1 ∨ scb.fdSandboxEnd = 0)) :
    Ensures closing (fun errno => Called mallocs (unread mallocs stream) (.error errno))
      (recvrpcs scb mallocs) ⟨stream, interrupts⟩ := by
  -- each call that succeeds takes a whole message off the stream
  refine .loop (fun _ s => unread mallocs s.rest = unread mallocs stream)
    (fun _ s => s.rest.length) ?_ rfl
  rintro ⟨⟩ s same
  refine (ensures_sandboxRecvrpc mallocs s usable).bind ?_
  rintro (errno | request) s' called
  · have last : unread mallocs s.rest = s.rest := by rw [unread, if_neg called.1]
    rw [← same, last]
    exact .ret (.ret called)
  · obtain ⟨whole, rest⟩ := called
    have step : unread mallocs s.rest = unread mallocs (s.rest.drop (messageLen s.rest)) := by
      rw [unread, if_pos whole]
    refine .ret ⟨?_, ?_⟩
    · rw [rest, ← step, same]
    · have fits := whole.2.2
      rw [rest, List.length_drop]
      simp only [messageLen, sizeofHdr] at fits ⊢
      omega

/-- A session on any stream in any fragments: its last call tells a clean end from a truncated
message exactly when the peer did not close inside a header. -/
theorem recvrpcs_distinguish_iff (scb : SandboxCb) (mallocs : Nat → Bool) (stream : Bytes)
    (interrupts : Nat) :
    Ensures closing (fun errno s =>
        Distinguishes (unread mallocs stream) errno s ↔
          ¬ (0 < (unread mallocs stream).length ∧ (unread mallocs stream).length < sizeofHdr))
      (recvrpcs scb mallocs) ⟨stream, interrupts⟩ := by
  by_cases gone : scb.fdSandboxEnd = -1 ∨ scb.fdSandboxEnd = 0
  · refine .unroll ?_
    simp only [sandboxRecvrpc_gone mallocs gone, bind_eq, ret_bind]
    refine .ret (.ret ⟨?_, fun outside => ⟨nofun, fun some part => absurd ⟨some, part⟩ outside⟩⟩)
    rintro distinguishes ⟨some, part⟩
    cases distinguishes.truncated some part
  · exact (ensures_recvrpcs mallocs stream interrupts gone).mono
      fun _ _ called => called.distinguishes_iff

/-- A peer that closed after one byte of a header is taken for one that ended the session. -/
theorem partHeader_silent :
    ¬ Ensures closing (Distinguishes (unread (fun _ => true) [0]))
      (recvrpcs ⟨3, 4⟩ fun _ => true) ⟨[0], 0⟩ := by
  intro ensures
  obtain ⟨errno, s, distinguishes, called⟩ :=
    ensures.meet (ensures_recvrpcs (fun _ => true) [0] 0 (by decide))
  have part : unread (fun _ => true) [0] = [0] := by
    rw [unread, if_neg]
    intro whole
    have fits := whole.2.2
    simp only [messageLen, sizeofHdr, List.length_singleton] at fits
    omega
  rw [part] at distinguishes called
  exact called.distinguishes_iff.mp distinguishes (by decide)

end CheriGzip.Libsep
