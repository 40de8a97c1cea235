import CheriGzip.Gzip.UncompressCorrect
import Mathlib.Logic.Function.Basic

/-!
# What gz_uncompress releases through the wrapper

`gz_uncompress` calls `inflateEnd` at the end of each stream, and once more when its loop is
left past `GZSTATE_INIT`. In zlib the second call does nothing, because the first one cleared
`strm->state`. The wrapper clears the field of its shadow stream only.
-/
namespace CheriGzip.Gzip

open Loop

variable {ι : Type}

/-- The fields of a `z_stream` that `inflateEnd` goes by: `state`, 0 for `Z_NULL` and otherwise
the number of an allocation, and whether `zfree` is set. -/
structure Handle where
  state : Nat
  zfree : Bool

/-- `memset(&strm, 0, sizeof(strm))` -/
def Handle.zero : Handle := ⟨0, false⟩

/-- The application's stream and the sandbox behind it: the states the sandbox holds, how many
it has allocated, and what was passed to its `free`. -/
structure Boxed (ι : Type) where
  strm : Handle
  objects : Nat → Option ι
  allocated : Nat
  freed : List Nat

/-- `inflateInit2_c` on a shadow stream. A state that could not be allocated is `Z_NULL`. -/
def inflateInit2C (E : InflateEngine ι) (b : Boxed ι) (cap : Handle) : ZCode × Handle × Boxed ι :=
  match E.inflateInit2 E.zero with
  | (.ok, s) => (.ok, ⟨b.allocated + 1, true⟩,
      { b with
        objects := Function.update b.objects (b.allocated + 1) (some s)
        allocated := b.allocated + 1 })
  | (code, _) => (code, ⟨cap.state, true⟩, b)

/-- `inflateEnd_c` on a shadow stream. It cannot tell a state that was freed before. -/
def inflateEndC (b : Boxed ι) (cap : Handle) : Handle × Boxed ι :=
  if cap.state = 0 ∨ cap.zfree = false then (cap, b)
  else ({ cap with state := 0 },
    { b with
      objects := Function.update b.objects cap.state none
      freed := b.freed ++ [cap.state] })

/-- zlib through `zwrapper.c`. -/
def boxed (E : InflateEngine ι) : InflateEngine (Boxed ι) where
  zero := ⟨.zero, fun _ => none, 0, []⟩
  inflateInit2 b :=
    let (code, cap, b) := inflateInit2C E b .zero
    (code, { b with strm := cap })
  inflate b flush input room :=
    match b.objects b.strm.state with
    | some s =>
      let step := E.inflate s flush input room
      { step with
        strm := { b with objects := Function.update b.objects b.strm.state (some step.strm) } }
    | none => ⟨b, 0, [], .streamError⟩
  inflateEnd b :=
    -- the shadow stream with its cleared `state` is not copied back
    let (_, b) := inflateEndC b b.strm
    b

/-- The same call with zlib behind the wrapper. -/
def UConfig.boxed (cfg : UConfig ι) : UConfig (Boxed ι) :=
  ⟨Gzip.boxed cfg.engine, cfg.env, cfg.buflen, cfg.tflag, cfg.filename⟩

/-- Every state that was allocated was passed to `free` exactly once. -/
def ReleasedOnce (b : Boxed ι) : Prop :=
  ∀ k, 1 ≤ k → k ≤ b.allocated → b.freed.count k = 1

/-! ## The account -/

/-- The first `n` states were freed, once each, and nothing else was. -/
def Boxed.FreedTo (b : Boxed ι) (n : Nat) : Prop :=
  ∀ k, b.freed.count k = if 1 ≤ k ∧ k ≤ n then 1 else 0

/-- The stream holds the state that was allocated last. -/
def Boxed.HoldsLast (b : Boxed ι) : Prop := b.strm = ⟨b.allocated, true⟩ ∧ 0 < b.allocated

/-- What has been freed when the automaton is in a state. After the end of a stream the
application still holds its state, which is no longer there. -/
def Accounted (state : GzState) (b : Boxed ι) : Prop :=
  match state with
  | .read => b.HoldsLast ∧ b.FreedTo (b.allocated - 1)
  | .crc | .len => b.HoldsLast ∧ b.FreedTo b.allocated
  | _ => b.FreedTo b.allocated

section

variable {E : InflateEngine ι} {b : Boxed ι}

theorem Boxed.HoldsLast.inflateEnd (holds : b.HoldsLast) :
    ((Gzip.boxed E).inflateEnd b).strm = b.strm ∧
      ((Gzip.boxed E).inflateEnd b).allocated = b.allocated ∧
      ((Gzip.boxed E).inflateEnd b).freed = b.freed ++ [b.allocated] := by
  obtain ⟨strm, some⟩ := holds
  have live : ¬ (b.strm.state = 0 ∨ b.strm.zfree = false) := by
    rw [strm]
    simp only [Bool.true_eq_false, or_false]
    omega
  simp only [Gzip.boxed, inflateEndC, if_neg live]
  rw [strm]
  exact ⟨trivial, trivial, rfl⟩

/-- Ending a stream frees its state, which was the one not freed yet. -/
theorem Boxed.FreedTo.inflateEnd (holds : b.HoldsLast) (freed : b.FreedTo (b.allocated - 1)) :
    ((Gzip.boxed E).inflateEnd b).FreedTo ((Gzip.boxed E).inflateEnd b).allocated := by
  obtain ⟨-, allocated, added⟩ := @holds.inflateEnd _ E
  have some := holds.2
  intro k
  rw [allocated, added, List.count_append, freed k, List.count_singleton]
  simp only [beq_iff_eq]
  by_cases last : b.allocated = k
  · rw [if_neg (by omega), if_pos last, if_pos (by omega)]
  · rw [if_neg last, Nat.add_zero]
    by_cases before : 1 ≤ k ∧ k ≤ b.allocated - 1
    · rw [if_pos before, if_pos (by omega)]
    · rw [if_neg before, if_neg (by omega)]

/-- The end of a stream, as `gz_uncompress` accounts for it. -/
theorem Accounted.ended (account : Accounted .read b) :
    Accounted .crc ((Gzip.boxed E).inflateEnd b) := by
  obtain ⟨holds, freed⟩ := account
  obtain ⟨strm, allocated, -⟩ := @holds.inflateEnd _ E
  refine ⟨⟨?_, ?_⟩, freed.inflateEnd holds⟩
  · rw [strm, allocated]
    exact holds.1
  · rw [allocated]
    exact holds.2

/-- Ending it again frees the state again. -/
theorem Boxed.FreedTo.twice (holds : b.HoldsLast) (freed : b.FreedTo b.allocated) :
    ¬ ReleasedOnce ((Gzip.boxed E).inflateEnd b) := by
  obtain ⟨-, allocated, added⟩ := @holds.inflateEnd _ E
  have some := holds.2
  intro once
  have count := once b.allocated some (Nat.le_of_eq allocated.symm)
  rw [added, List.count_append, freed b.allocated, if_pos ⟨some, Nat.le_refl _⟩] at count
  simp at count

theorem Boxed.FreedTo.releasedOnce (freed : b.FreedTo b.allocated) : ReleasedOnce b := by
  intro k some last
  rw [freed k, if_pos ⟨some, last⟩]

end

/-! ## The rounds -/

/-- The account of a turn. -/
def AccountedTurn : URound (Boxed ι) → Prop
  | .again s => Accounted s.state s.strm
  | .leave s => Accounted s.state s.strm

theorem AccountedTurn.ite {c : Prop} [Decidable c] {one other : URound (Boxed ι)}
    (first : AccountedTurn one) (second : AccountedTurn other) :
    AccountedTurn (if c then one else other) := by
  split
  · exact first
  · exact second

variable {cfg : UConfig ι} {s : UState (Boxed ι)}

theorem drain_accounted (account : Accounted .read s.strm) (state : s.state = .read) :
    AccountedTurn (drain cfg.boxed s) := by
  have settled : ∀ t : UState (Boxed ι), t.strm = s.strm → t.state = .read →
      AccountedTurn (.again (settle cfg.boxed t)) := by
    intro t same reading
    simp only [AccountedTurn, settle, same, reading]
    split
    · exact account.ended
    · exact account
  unfold drain
  simp only
  split
  · generalize (if cfg.boxed.tflag = true then (some s.outbuf.length, s.world)
      else s.world.write cfg.boxed.env s.outbuf) = written
    split
    · simp only [AccountedTurn, UState.fail, state]
      exact account
    · exact settled _ rfl state
  · exact settled _ rfl state

/-- A call of `inflate` leaves the account alone. -/
theorem Accounted.inflated (account : Accounted .read s.strm) (flush : ZFlush) (input : Bytes)
    (room : Nat) : Accounted .read (cfg.boxed.engine.inflate s.strm flush input room).strm := by
  simp only [UConfig.boxed, boxed]
  split <;> exact account

theorem readState_accounted (account : Accounted .read s.strm) (state : s.state = .read) :
    AccountedTurn (readState cfg.boxed s) := by
  have after := @account.inflated _ cfg s .finish s.nextIn (cfg.boxed.buflen.size - s.outbuf.length)
  unfold readState
  generalize cfg.boxed.engine.inflate s.strm .finish s.nextIn
    (cfg.boxed.buflen.size - s.outbuf.length) = step at after
  have fails : ∀ message, AccountedTurn (.leave ((s.inflated step).fail message)) := by
    intro message
    simp only [AccountedTurn, UState.fail, UState.inflated, state]
    exact after
  simp only
  split
  · split
    · simp only [AccountedTurn, UState.inflated, state]
      exact after
    · exact drain_accounted after state
  · exact drain_accounted after state
  · exact drain_accounted after state
  · exact fails _
  · exact fails _
  · exact fails _
  · exact fails _
  · exact drain_accounted after state

/-- A state is allocated, or none is and the automaton goes no further. -/
theorem started_accounted {b : Boxed ι} (freed : b.FreedTo b.allocated) :
    match cfg.boxed.engine.inflateInit2 b with
    | (.ok, b') => Accounted .read b'
    | (_, b') => b'.FreedTo b'.allocated := by
  simp only [UConfig.boxed, boxed, inflateInit2C]
  rcases cfg.engine.inflateInit2 cfg.engine.zero with ⟨code, state⟩
  cases code with
  | ok => exact ⟨⟨rfl, Nat.succ_pos _⟩, freed⟩
  | _ => exact freed

theorem dispatch_accounted (account : Accounted s.state s.strm) (b : UInt8) (rest : Bytes) :
    AccountedTurn (dispatch cfg.boxed s b rest) := by
  unfold dispatch
  cases state : s.state with
  | init =>
    rw [state] at account
    have started := @started_accounted _ cfg _ account
    simp only
    split
    next strm ok =>
      rw [ok] at started
      exact started
    next code strm other failed =>
      rw [failed] at started
      simp only [AccountedTurn, UState.fail]
      cases code with
      | ok => exact absurd rfl other
      | _ => exact started
  | read =>
    rw [state] at account
    exact readState_accounted account state
  | crc =>
    rw [state] at account
    simp only
    split
    · split
      · exact account
      · simpa only [AccountedTurn, UState.fail, state] using account
    · split
      · simpa only [AccountedTurn, UState.fail, state] using account
      · split
        · exact account
        · exact account
  | len =>
    rw [state] at account
    simp only
    split
    · split
      · exact account
      · simpa only [AccountedTurn, UState.fail, state] using account
    · split
      · simpa only [AccountedTurn, UState.fail, state] using account
      · split
        · exact account
        · exact account.2
  | _ =>
    -- the states before `GZSTATE_INIT` touch no stream
    rw [state] at account
    have freed : s.strm.FreedTo s.strm.allocated := account
    simp only
    repeat' split
    all_goals
      simp only [AccountedTurn, UState.fail, state]
      try split
      all_goals exact freed

/-- A refill leaves the automaton and the stream alone. -/
theorem refill_accounted (account : Accounted s.state s.strm) :
    match refill cfg.boxed s with
    | .ok r => Accounted r.state r.strm
    | .error r => Accounted r.state r.strm := by
  unfold refill
  by_cases reads : (s.nextIn = [] ∨ s.needmore) ∧ s.doneReading = false
  · rw [if_pos reads]
    rcases s.world.read cfg.boxed.env (cfg.boxed.buflen.size - s.nextIn.length) with
      ⟨_ | bytes, w⟩
    · exact account
    · exact account
  · rw [if_neg reads]
    exact account

theorem round_accounted (account : Accounted s.state s.strm) :
    AccountedTurn (uncompressRound cfg.boxed s) := by
  have refilled := @refill_accounted _ cfg s account
  unfold uncompressRound
  cases refills : refill cfg.boxed s with
  | error r =>
    rw [refills] at refilled
    exact refilled
  | ok r =>
    rw [refills] at refilled
    simp only
    cases nextIn : r.nextIn with
    | nil =>
      simp only
      split
      · exact refilled
      · exact refilled
    | cons b rest => exact dispatch_accounted refilled b rest

/-- What has been freed when the loop is left. -/
theorem left_accounted {pre : Bytes} {w : World} {last : UState (Boxed ι)}
    (left : Leaves (uncompressRound cfg.boxed) (uncompressStart cfg.boxed pre w) last) :
    Accounted last.state last.strm := by
  refine left.invariant (fun s => Accounted s.state s.strm) (fun s => Accounted s.state s.strm)
    ?_ ?_ ?_
  · intro s s' account turn
    have after := @round_accounted _ cfg s account
    rw [turn] at after
    exact after
  · intro s r account turn
    have after := @round_accounted _ cfg s account
    rw [turn] at after
    exact after
  · intro k
    rw [if_neg (by simp only [uncompressStart, UConfig.boxed, boxed]; omega)]
    rfl

/-- The exit of `gz_uncompress`. -/
def exitStrm (cfg : UConfig ι) (last : UState (Boxed ι)) : Boxed ι :=
  if last.state.toNat > GzState.init.toNat then cfg.boxed.engine.inflateEnd last.strm
  else last.strm

/-- Whatever zlib, the system and the input do: everything was released once, unless the loop
was left between the end of a stream and the end of its trailer. -/
theorem exit_releasedOnce {last : UState (Boxed ι)} (account : Accounted last.state last.strm) :
    ReleasedOnce (exitStrm cfg last) ↔ last.state ≠ .crc ∧ last.state ≠ .len := by
  unfold exitStrm
  cases state : last.state with
  | read =>
    rw [state] at account
    refine iff_of_true ?_ (by decide)
    rw [if_pos (by decide)]
    exact (account.2.inflateEnd account.1).releasedOnce
  | crc | len =>
    rw [state] at account
    refine iff_of_false ?_ (by decide)
    rw [if_pos (by decide)]
    exact account.2.twice account.1
  | _ =>
    rw [state] at account
    refine iff_of_true ?_ (by decide)
    rw [if_neg (by decide)]
    exact Boxed.FreedTo.releasedOnce account

/-! ## The contract behind the wrapper -/

/-- The wrapper keeps the streaming contract: its stream is as live as the one it holds. -/
def Inflates.boxed {F : Format} {E : InflateEngine ι} (C : Inflates F E) :
    Inflates F (Gzip.boxed E) where
  Live b u v := ∃ s, b.objects b.strm.state = some s ∧ C.Live s u v
  init b := by
    obtain ⟨succeeds, live⟩ := C.init E.zero
    simp only [Gzip.boxed, inflateInit2C]
    rcases started : E.inflateInit2 E.zero with ⟨code, s⟩
    rw [started] at succeeds live
    subst succeeds
    exact ⟨rfl, s, Function.update_self .., live⟩
  produced := fun ⟨_, _, live⟩ => C.produced live
  inside := fun ⟨_, _, live⟩ => C.inside live
  within := fun ⟨s, held, live⟩ => by
    simp only [Gzip.boxed, held]
    exact C.within live
  goes := fun ⟨s, held, live⟩ some room => by
    simp only [Gzip.boxed, held, Function.update_self, Option.some.injEq, exists_eq_left']
    exact C.goes live some room
  ends := fun ⟨s, held, live⟩ some room => by
    simp only [Gzip.boxed, held]
    exact C.ends live some room
  fails := fun ⟨s, held, live⟩ some room => by
    simp only [Gzip.boxed, held]
    exact C.fails live some room

/-! ## Inputs with a trailer that is not there -/

/-- Some member's stream is complete, but `t`, which is not its trailer, follows. Members
before it are complete. -/
inductive Untrailed (F : Format) (P : Bytes → Prop) : Bytes → Prop where
  | here {header z t : Bytes} (isHeader : IsHeader header) (ends : F.Ends z)
      (other : ¬ trailer (F.payload z) <+: t) (holds : P t) : Untrailed F P (header ++ (z ++ t))
  | later {m v rest : Bytes} (first : Member F m v) (others : Untrailed F P rest) :
      Untrailed F P (m ++ rest)

section

variable {F : Format} {P : Bytes → Prop}

/-- The trailer of `payload` is missing from `t`, or one further on is. -/
def UntrailedFrom (F : Format) (P : Bytes → Prop) (payload t : Bytes) : Prop :=
  (¬ trailer payload <+: t ∧ P t) ∨ ∃ rest, t = trailer payload ++ rest ∧ Untrailed F P rest

/-- The same of what follows a member's header. -/
def UntrailedBody (F : Format) (P : Bytes → Prop) (body : Bytes) : Prop :=
  ∃ z t, F.Ends z ∧ body = z ++ t ∧ UntrailedFrom F P (F.payload z) t

theorem untrailed_header {input : Bytes} :
    Untrailed F P input ↔ ∃ body, scanHeader input = some body ∧ UntrailedBody F P body := by
  constructor
  · intro untrailed
    cases untrailed with
    | @here header z t isHeader ends other holds =>
      exact ⟨z ++ t, scanHeader_some.mpr ⟨header, isHeader, rfl⟩, z, t, ends, rfl,
        .inl ⟨other, holds⟩⟩
    | @later m v rest first others =>
      obtain ⟨header, z, isHeader, ends, rfl, rfl⟩ := first
      refine ⟨z ++ (trailer (F.payload z) ++ rest), ?_, z, _, ends, rfl, .inr ⟨rest, rfl, others⟩⟩
      exact scanHeader_some.mpr ⟨header, isHeader, by simp⟩
  · rintro ⟨_, scanned, z, t, ends, rfl, ⟨other, holds⟩ | ⟨rest, rfl, others⟩⟩
    · obtain ⟨header, isHeader, rfl⟩ := scanHeader_some.mp scanned
      exact .here isHeader ends other holds
    · obtain ⟨header, isHeader, rfl⟩ := scanHeader_some.mp scanned
      have member : Member F (header ++ (z ++ trailer (F.payload z))) (F.payload z) :=
        ⟨header, z, isHeader, ends, rfl, rfl⟩
      simpa using Untrailed.later member others

/-- The same of the bytes to come at a position. -/
def Ahead (F : Format) (P : Bytes → Prop) (view : View) (rest : Bytes) : Prop :=
  match view with
  | .magic0 => Untrailed F P rest
  | .read taken _ _ => ∃ z t, F.Ends (taken ++ z) ∧ rest = z ++ t ∧
      UntrailedFrom F P (F.payload (taken ++ z)) t
  | .crc payload => UntrailedFrom F P payload rest
  | .len payload => ¬ le 4 payload.length <+: rest ∨
      ∃ t, rest = le 4 payload.length ++ t ∧ Untrailed F P t
  | view => ∃ body, view.scan rest = some body ∧ UntrailedBody F P body

theorem ahead_header {view : View} (header : view.InHeader) {rest : Bytes} :
    Ahead F P view rest ↔ ∃ body, view.scan rest = some body ∧ UntrailedBody F P body := by
  cases view <;> first | exact Iff.rfl | exact header.elim

/-- Behind the CRC the length is what is left of the trailer. -/
theorem untrailedFrom_crc (some : ∀ t, t ≠ [] → P t) {payload rest : Bytes} :
    UntrailedFrom F P payload (le 4 (crc32 crc32Null payload).toNat ++ rest) ↔
      Ahead F P (.len payload) rest := by
  have nonempty : le 4 (crc32 crc32Null payload).toNat ++ rest ≠ [] := by
    intro nil
    have length := congrArg List.length nil
    simp only [List.length_append, le_length, List.length_nil] at length
    omega
  unfold UntrailedFrom
  rw [trailer, List.prefix_append_right_inj]
  constructor
  · rintro (⟨other, -⟩ | ⟨t, same, others⟩)
    · exact .inl other
    · rw [List.append_assoc] at same
      exact .inr ⟨t, List.append_cancel_left same, others⟩
  · rintro (other | ⟨t, rfl, others⟩)
    · exact .inl ⟨other, some _ nonempty⟩
    · exact .inr ⟨t, by rw [List.append_assoc], others⟩

variable {σ : Type} {cfg : UConfig σ} {C : Inflates F cfg.engine}

/-- A step leaves what lies ahead as it is. -/
theorem Advance.ahead (some : ∀ t, t ≠ [] → P t) {rest rest' w : Bytes} {view view' : View}
    (advance : Advance C rest rest' view view' w) :
    Ahead F P view rest ↔ Ahead F P view' rest' := by
  -- A stream that has taken `c` more is inside whatever complete stream there is.
  have takes : ∀ {strm taken produced pending c out pending' rest}, C.Live strm (taken ++ c) out →
      (Ahead F P (.read taken produced pending) (c ++ rest) ↔
        Ahead F P (.read (taken ++ c) out pending') rest) := by
    intro strm taken produced pending c out pending' rest live
    constructor
    · rintro ⟨z, t, ends, same, from'⟩
      obtain ⟨z, rfl, after⟩ := live_within live ends same
      rw [← List.append_assoc] at ends from'
      exact ⟨z, t, ends, after, from'⟩
    · rintro ⟨z, t, ends, same, from'⟩
      rw [List.append_assoc] at ends from'
      exact ⟨c ++ z, t, ends, by rw [same, List.append_assoc], from'⟩
  cases advance with
  | magic cut =>
    rw [cut]
    exact untrailed_header
  | header header header' scan => rw [ahead_header header, ahead_header header', scan]
  | init same =>
    rw [same]
    constructor
    · rintro ⟨_, ⟨⟩, body⟩
      exact body
    · intro body
      exact ⟨rest, rfl, body⟩
  | inflated cut live | drained cut live =>
    rw [cut]
    exact takes live
  | @ended taken produced pending c out cut ends payload =>
    rw [cut]
    constructor
    · rintro ⟨z, t, ends', same, from'⟩
      have whole : taken ++ c ++ rest' = taken ++ z ++ t := by
        rw [List.append_assoc, same, List.append_assoc]
      obtain ⟨eq, after⟩ := F.ends_append ends ends' whole
      rw [← eq, payload, ← after] at from'
      exact from'
    · intro from'
      exact ⟨_, _, ends, rfl, by rw [payload]; exact from'⟩
  | crc cut =>
    rw [cut]
    exact untrailedFrom_crc some
  | @len payload cut =>
    rw [cut]
    constructor
    · rintro (other | ⟨t, same, others⟩)
      · exact absurd ⟨_, rfl⟩ other
      · rw [List.append_cancel_left same]
        exact others
    · intro others
      exact .inr ⟨_, rfl, others⟩

/-- Behind the end of a stream the loop is only left because the trailer is not there. -/
theorem Left.untrailed {i : Ghost} {r : UState σ} (left : Left F i r)
    (behind : r.state = .crc ∨ r.state = .len) : Ahead F (fun _ => True) i.view i.rest := by
  obtain ⟨state, stops | ⟨unfit, -⟩⟩ := left
  · rw [state, stops.here] at behind
    simp [View.state] at behind
  rw [state] at behind
  cases here : i.view with
  | crc payload =>
    rw [here] at unfit
    refine .inl ⟨?_, trivial⟩
    cases unfit with
    | header header => exact header.elim
    | crc other => exact fun within => other ((List.prefix_append _ _).trans within)
    | eof _ nil =>
      rw [nil, List.prefix_nil]
      simpa using trailer_append_ne payload []
  | len payload =>
    rw [here] at unfit
    refine .inl ?_
    cases unfit with
    | header header => exact header.elim
    | len other => exact other
    | eof _ nil =>
      rw [nil]
      exact le_not_within (by decide)
  | _ =>
    rw [here] at behind
    simp [View.state] at behind

theorem not_untrailedFrom_nil (none : ¬ P []) {payload : Bytes} :
    ¬ UntrailedFrom F P payload [] := by
  rintro (⟨-, holds⟩ | ⟨rest, same, -⟩)
  · exact none holds
  · exact trailer_append_ne _ _ same.symm

/-- The end of a stream with no trailer, but more bytes, behind it is where the loop is left. -/
theorem Left.behind (none : ¬ P []) {i : Ghost} {r : UState σ} (left : Left F i r)
    (ahead : Ahead F P i.view i.rest) : r.state = .crc ∨ r.state = .len := by
  obtain ⟨state, stops | ⟨unfit, -⟩⟩ := left
  · rw [stops.here] at ahead
    obtain ⟨body, scanned, -⟩ := untrailed_header.mp ahead
    obtain ⟨header, ⟨⟩, same⟩ := scanHeader_some.mp scanned
    exact absurd (congrArg List.head? same) stops.garbage
  rw [state]
  generalize i.view = view at unfit ahead ⊢
  cases unfit with
  | header header scan =>
    obtain ⟨body, scanned, -⟩ := (ahead_header header).mp ahead
    rw [scan] at scanned
    cases scanned
  | read endless =>
    obtain ⟨z, t, ends, same, -⟩ := ahead
    exact absurd ends (endless z t same)
  | crc => exact .inl rfl
  | len => exact .inr rfl
  | eof inside nil =>
    rw [nil] at ahead
    by_cases header : view.InHeader
    · obtain ⟨body, scanned, z, t, -, same, from'⟩ := (ahead_header header).mp ahead
      rw [scan_nil header scanned] at same
      rw [(List.append_eq_nil_iff.mp same.symm).2] at from'
      exact absurd from' (not_untrailedFrom_nil none)
    cases view with
    | magic0 => exact absurd rfl inside
    | read =>
      obtain ⟨z, t, -, same, from'⟩ := ahead
      rw [(List.append_eq_nil_iff.mp same.symm).2] at from'
      exact absurd from' (not_untrailedFrom_nil none)
    | crc => exact .inl rfl
    | len => exact .inr rfl
    | _ => exact absurd trivial header

end

/-! ## The rounds behind the end of a stream -/

section

variable {σ : Type} {F : Format} {cfg : UConfig σ} {C : Inflates F cfg.engine} {i : Ghost}
  {s : UState σ}

/-- The trailer field the automaton waits for. -/
def UState.field (s : UState σ) : Nat :=
  if s.state = .crc then s.crc.toNat else s.outSubTot.toNat

/-- If a round starts behind the end of a stream, it finds the field there, or the beginning
of it with more to come. -/
def Followed (cfg : UConfig σ) (s : UState σ) : Prop :=
  s.state = .crc ∨ s.state = .len →
    ∃ s', refill cfg s = .ok s' ∧ s'.nextIn ≠ [] ∧
      if s'.nextIn.length < 4 then s'.doneReading = false else s'.word = s'.field

theorem followed_iff (behind : s.state = .crc ∨ s.state = .len) {s' : UState σ}
    (refills : refill cfg s = .ok s') :
    Followed cfg s ↔ s'.nextIn ≠ [] ∧
      if s'.nextIn.length < 4 then s'.doneReading = false else s'.word = s'.field := by
  constructor
  · intro followed
    obtain ⟨s'', refills', holds⟩ := followed behind
    rw [refills] at refills'
    cases refills'
    exact holds
  · exact fun holds _ => ⟨s', refills, holds⟩

/-- A round goes on if the field is there, and leaves the loop where it is if not. -/
def FollowedTurn (followed : Prop) : URound σ → Prop
  | .again _ => followed
  | .leave r => (r.state ≠ .crc ∧ r.state ≠ .len) ↔ followed

theorem FollowedTurn.fails {followed : Prop} {r : UState σ} (not : ¬ followed)
    (behind : r.state = .crc ∨ r.state = .len) : FollowedTurn followed (.leave r) := by
  refine iff_of_false ?_ not
  rintro ⟨notCrc, notLen⟩
  exact behind.elim notCrc notLen

/-- The two trailer states, with bytes at hand. -/
theorem dispatch_followed (inv : Inv C i s) (behind : s.state = .crc ∨ s.state = .len)
    (b : UInt8) (bs : Bytes) :
    FollowedTurn (if s.nextIn.length < 4 then s.doneReading = false else s.word = s.field)
      (dispatch cfg s b bs) := by
  by_cases short : s.nextIn.length < 4
  · -- the field is not all there yet
    rw [if_pos short]
    by_cases reading : s.doneReading = false
    · rcases behind with state | state
      all_goals
        simp only [dispatch, state, if_pos short, if_pos reading, FollowedTurn]
        exact reading
    · rcases behind with state | state
      · simp only [dispatch, state, if_pos short, if_neg reading]
        exact .fails reading (.inl state)
      · simp only [dispatch, state, if_pos short, if_neg reading]
        exact .fails reading (.inr state)
  · rw [if_neg short]
    have more : ¬ (s.nextIn.drop 4 = [] ∧ s.doneReading = true) :=
      fun atEnd => short (inv.done atEnd.2).2
    rcases behind with state | state
    · have field : s.field = s.crc.toNat := if_pos state
      rw [field]
      by_cases agrees : s.word = s.crc.toNat
      · simp only [dispatch, state, if_neg short, agrees, ne_eq, not_true, if_false, if_neg more,
          FollowedTurn]
      · simp only [dispatch, state, if_neg short, ne_eq, agrees, not_false_eq_true, if_true]
        exact .fails (by simp) (.inl state)
    · have field : s.field = s.outSubTot.toNat := if_neg (by rw [state]; decide)
      rw [field]
      have ended : s.error = .streamEnd := by
        have regs := inv.regs
        revert regs
        cases i.view <;> simp [Regs, View.state, state]
      by_cases agrees : s.word = s.outSubTot.toNat
      · simp only [dispatch, state, if_neg short, agrees, ne_eq, not_true, if_false, ended,
          ZCode.toInt, FollowedTurn]
        rw [if_neg (by decide)]
        trivial
      · simp only [dispatch, state, if_neg short, ne_eq, agrees, not_false_eq_true, if_true]
        exact .fails (by simp) (.inr state)

theorem round_followed (inv : Inv C i s) (reliable : cfg.env.Reliable cfg.buflen)
    (large : 4 ≤ cfg.buflen.size) : FollowedTurn (Followed cfg s) (uncompressRound cfg s) := by
  by_cases behind : s.state = .crc ∨ s.state = .len
  · obtain ⟨s', refills, refilled⟩ := refill_inv reliable large inv
    have state : s'.state = s.state := refilled.inv.regs.1.trans inv.regs.1.symm
    rw [followed_iff behind refills]
    rw [← state] at behind
    simp only [uncompressRound, refills]
    cases nextIn : s'.nextIn with
    | nil =>
      have inside : s'.doneReading = true ∧ s'.state ≠ .magic0 :=
        ⟨refilled.empty nextIn, by rcases behind with at' | at' <;> simp [at']⟩
      simp only [inside, ne_eq, not_true, not_false_eq_true, and_self, if_true, false_and]
      exact .fails not_false behind
    | cons b bs =>
      have turn := dispatch_followed refilled.inv behind b bs
      rw [nextIn] at turn
      simpa only [ne_eq, reduceCtorEq, not_false_eq_true, true_and] using turn
  · -- Elsewhere there is nothing to find, and the loop is not left for the lack of it.
    have followed : Followed cfg s := fun at' => absurd at' behind
    obtain ⟨s', -, steps⟩ := round_steps inv reliable large
    cases turn : uncompressRound cfg s with
    | again => exact followed
    | leave r =>
      rw [turn] at steps
      refine iff_of_true ?_ followed
      rw [steps.1, ← inv.regs.1]
      exact not_or.mp behind

end

/-! ## Whole runs -/

section

variable {F : Format} {cfg : UConfig ι}

/-- The run of the wrapped `gz_uncompress`, what it has released, and what lies ahead at its
start. -/
theorem gzUncompress_boxed (C : Inflates F cfg.engine) (reliable : cfg.env.Reliable cfg.buflen)
    (large : 4 ≤ cfg.buflen.size) {pre : Bytes} (short : pre.length < 2 ^ 32) (w : World) :
    ∃ last : UState (Boxed ι),
      Leaves (uncompressRound cfg.boxed) (uncompressStart cfg.boxed pre w) last ∧
      (ReleasedOnce (exitStrm cfg last) ↔ last.state ≠ .crc ∧ last.state ≠ .len) ∧
      ((last.state = .crc ∨ last.state = .len) → Untrailed F (fun _ => True) (pre ++ w.input)) ∧
      (Untrailed F (· ≠ []) (pre ++ w.input) → last.state = .crc ∨ last.state = .len) := by
  let C' : Inflates F cfg.boxed.engine := C.boxed
  obtain ⟨last, left, untrailed, behind⟩ := leaves_steps C' reliable large
    (fun i r => ((r.state = .crc ∨ r.state = .len) → Ahead F (fun _ => True) i.view i.rest) ∧
      (Ahead F (· ≠ []) i.view i.rest → r.state = .crc ∨ r.state = .len))
    (fun advance post =>
      ⟨fun at' => (advance.ahead fun _ _ => trivial).mpr (post.1 at'),
        fun ahead => post.2 ((advance.ahead fun _ some => some).mp ahead)⟩)
    (fun left => ⟨left.untrailed, left.behind fun some => some rfl⟩)
    (inv_start C' short w)
  exact ⟨last, left, exit_releasedOnce (left_accounted left), untrailed, behind⟩

/-- Every state that `inflateInit2` allocates is freed exactly once if and only if every round
that starts behind the end of a stream finds the trailer field there. So it is freed once when
no complete stream lacks its trailer, and not when one does and more bytes follow it. -/
theorem gzUncompress_releases_iff (C : Inflates F cfg.engine)
    (reliable : cfg.env.Reliable cfg.buflen) (large : 4 ≤ cfg.buflen.size) {pre : Bytes}
    (short : pre.length < 2 ^ 32) (w : World) :
    ∃ fuel result w', gzUncompress cfg.boxed pre w fuel = some (.returns result w') ∧
      (ReleasedOnce result.strm ↔
        ∀ s, Goes (uncompressRound cfg.boxed) (uncompressStart cfg.boxed pre w) s →
          Followed cfg.boxed s) ∧
      (¬ Untrailed F (fun _ => True) (pre ++ w.input) → ReleasedOnce result.strm) ∧
      (Untrailed F (· ≠ []) (pre ++ w.input) → ¬ ReleasedOnce result.strm) := by
  obtain ⟨last, left, once, untrailed, behind⟩ := gzUncompress_boxed C reliable large short w
  obtain ⟨fuel, ran⟩ := left
  have returned : gzUncompress cfg.boxed pre w fuel =
      some (.returns ⟨last.outTot, last.inTot, exitStrm cfg last⟩ last.world) := by
    unfold gzUncompress
    rw [if_neg (by simp [UConfig.boxed, reliable.mallocs]), ran]
    rfl
  refine ⟨fuel, _, last.world, returned, ?_, ?_, ?_⟩
  · rw [once]
    let C' : Inflates F cfg.boxed.engine := C.boxed
    apply Leaves.iff_goes (fun s => ∃ i, Inv C' i s) (Followed cfg.boxed)
      (fun r : UState (Boxed ι) => r.state ≠ .crc ∧ r.state ≠ .len) _ _ ⟨fuel, ran⟩
      ⟨_, inv_start C' short w⟩
    · rintro s s' ⟨i, inv⟩ turn
      have followed := round_followed inv reliable large
      obtain ⟨mid, -, steps⟩ := round_steps inv reliable large
      rw [turn] at followed steps
      rcases steps with ⟨view, rest, w, -, -, inv'⟩ | ⟨inv', -⟩
      · exact ⟨⟨_, inv'⟩, followed⟩
      · exact ⟨⟨_, inv'⟩, followed⟩
    · rintro s r ⟨i, inv⟩ turn
      have followed := round_followed inv reliable large
      rwa [turn] at followed
  · intro trailed
    apply once.mpr
    rw [← not_or]
    exact fun at' => trailed (untrailed at')
  · intro ahead released
    obtain ⟨notCrc, notLen⟩ := once.mp released
    exact (behind ahead).elim notCrc notLen

end

/-- Stored streams, the smallest buffer and reads of one byte. -/
def smallConfig : UConfig StoredIn :=
  ⟨storedInflate, .steady 1, ⟨4, Buflen.four_fits⟩, false, "hi.gz"⟩

/-- A member with its trailer. -/
theorem gzUncompress_releases_iff_small :
    ∃ fuel result w', gzUncompress smallConfig.boxed [0x1f, 0x8b]
        ⟨storedHi.drop 2, [], 0, 0, 0, []⟩ fuel = some (.returns result w') ∧
      (ReleasedOnce result.strm ↔
        ∀ s, Goes (uncompressRound smallConfig.boxed)
            (uncompressStart smallConfig.boxed [0x1f, 0x8b] ⟨storedHi.drop 2, [], 0, 0, 0, []⟩) s →
          Followed smallConfig.boxed s) ∧
      (¬ Untrailed storedFormat (fun _ => True) storedHi → ReleasedOnce result.strm) ∧
      (Untrailed storedFormat (· ≠ []) storedHi → ¬ ReleasedOnce result.strm) :=
  gzUncompress_releases_iff storedInflates (Env.steady_reliable _ _) (by decide)
    (by decide : ([0x1f, 0x8b] : Bytes).length < 2 ^ 32) _

/-- The member of `storedHi` with the CRC 0 in its trailer. -/
def storedHiWrongCrc : Bytes := storedHi.take 17 ++ [0, 0, 0, 0, 2, 0, 0, 0]

/-- How many states a run has allocated, and what it has freed. -/
def released : Ran (UResult (Boxed ι)) → Option (Nat × List Nat)
  | .returns result _ => some (result.strm.allocated, result.strm.freed)
  | _ => none

/-- The state of its stream is freed at the end of the stream, and again at the exit. -/
theorem wrongCrc_releases_twice :
    ∃ fuel result w', gzUncompress smallConfig.boxed []
        ⟨storedHiWrongCrc, [], 0, 0, 0, []⟩ fuel = some (.returns result w') ∧
      result.strm.allocated = 1 ∧ result.strm.freed = [1, 1] ∧ ¬ ReleasedOnce result.strm := by
  have counts : (gzUncompress smallConfig.boxed [] ⟨storedHiWrongCrc, [], 0, 0, 0, []⟩ 50).bind
      released = some (1, [1, 1]) := by
    decide +kernel
  obtain ⟨ran, some, counts⟩ := Option.bind_eq_some_iff.mp counts
  cases ran with
  | exits => cases counts
  | returns result w' =>
    simp only [released, Option.some.injEq, Prod.mk.injEq] at counts
    obtain ⟨allocated, freed⟩ := counts
    refine ⟨50, result, w', some, allocated, freed, ?_⟩
    intro once
    have count := once 1 (Nat.le_refl _) (Nat.le_of_eq allocated.symm)
    rw [freed] at count
    exact absurd count (by decide)

end CheriGzip.Gzip
