import CheriGzip.Gzip.Zlib
import CheriGzip.Lib.Machine

/-!
# Stored blocks

The part of deflate that needs no codes: streams of stored blocks, a decoder for them that
keeps the contract of `inflate`, and an encoder, as level 0 of zlib, that keeps the contract
of `deflate`. The contracts are not empty, and examples can run.
-/
namespace CheriGzip.Gzip

/-- Where a decoder of stored blocks stands: before a block, in its two lengths, with bytes
left to copy, behind the last block, or at a mistake. -/
inductive StoredState where
  | head
  | len1 (final : Bool)
  | len2 (final : Bool) (lo : UInt8)
  | nlen1 (final : Bool) (len : Nat)
  | nlen2 (final : Bool) (len : Nat) (lo : UInt8)
  | copy (final : Bool) (left : Nat)
  | done
  | bad
  deriving DecidableEq, Repr

/-- After a block with `left` bytes to copy. -/
def StoredState.next (final : Bool) : (left : Nat) → StoredState
  | 0 => if final then .done else .head
  | left + 1 => .copy final left

/-- One byte: `BFINAL` and `BTYPE` 00, `LEN`, its complement `NLEN`, and the data. -/
def StoredState.step : StoredState → UInt8 → StoredState × Bytes
  | .head, b => (if b &&& 6 = 0 then .len1 (b &&& 1 = 1) else .bad, [])
  | .len1 final, b => (.len2 final b, [])
  | .len2 final lo, b => (.nlen1 final (ofLe [lo, b]), [])
  | .nlen1 final len, b => (.nlen2 final len b, [])
  | .nlen2 final len lo, b =>
    (if ofLe [lo, b] + len = 65535 then .next final len else .bad, [])
  | .copy final left, b => (.next final left, [b])
  | .done, _ => (.bad, [])
  | .bad, _ => (.bad, [])

def storedMachine : Machine StoredState where
  start := .head
  step := StoredState.step
  done := .done
  bad := .bad
  done_ne_bad := StoredState.noConfusion
  step_done _ := rfl
  step_bad _ := rfl

/-- Streams of stored blocks. -/
def storedFormat : Format := storedMachine.format

/-- A decoder's state and the output it still holds. -/
structure StoredIn where
  state : StoredState
  held : Bytes

/-- What the decoder holds before it puts anything out. -/
def StoredIn.feed (s : StoredIn) (input : Bytes) : StoredIn where
  state := storedMachine.after s.state (input.take (storedMachine.reads s.state input))
  held := s.held ++ storedMachine.emits s.state (input.take (storedMachine.reads s.state input))

/-- `inflate` on stored blocks: it reads to the end of the stream at most, and returns
`Z_BUF_ERROR` when the stream has not ended and been put out. -/
def storedInflate : InflateEngine StoredIn where
  zero := ⟨.bad, []⟩
  inflateInit2 _ := (.ok, ⟨.head, []⟩)
  inflate s _ input room :=
    { strm := ⟨(s.feed input).state, (s.feed input).held.drop room⟩
      consumed := storedMachine.reads s.state input
      out := (s.feed input).held.take room
      code := if (s.feed input).state = .bad then .dataError
        else if (s.feed input).state = .done ∧ (s.feed input).held.length ≤ room then .streamEnd
        else .bufError }
  inflateEnd s := s

/-- The decoder has read `u` and put out `v`. -/
def StoredIn.Reads (s : StoredIn) (u v : Bytes) : Prop :=
  storedMachine.after .head u = s.state ∧ storedMachine.emits .head u = v ++ s.held

theorem StoredIn.Reads.feed {s : StoredIn} {u v : Bytes} (reads : s.Reads u v)
    (input : Bytes) :
    (s.feed input).Reads (u ++ input.take (storedMachine.reads s.state input)) v := by
  obtain ⟨state, emitted⟩ := reads
  constructor
  · rw [storedMachine.after_append, state]
    rfl
  · rw [storedMachine.emits_append, state, emitted, List.append_assoc]
    rfl

/-- The decoder keeps the contract of `inflate`. -/
def storedInflates : Inflates storedFormat storedInflate where
  Live s u v := s.Reads u v ∧ s.state ≠ .bad
  init _ := ⟨rfl, ⟨rfl, rfl⟩, StoredState.noConfusion⟩
  produced := by
    rintro s u v ⟨⟨-, emitted⟩, -⟩
    exact ⟨s.held, emitted.symm⟩
  inside := by
    rintro s u v z ⟨⟨state, -⟩, live⟩ ends less
    rw [← state] at live
    exact storedMachine.inside live ends less
  within := by
    rintro s u v input room -
    constructor
    · exact storedMachine.reads_le _ _
    · exact List.length_take_le _ _
  goes := by
    rintro s u v input room ⟨reads, live⟩ - - step code
    have fed := reads.feed input
    have good : (s.feed input).state ≠ .bad := by
      intro bad
      simp [step, storedInflate, bad] at code
    constructor
    · refine ⟨⟨fed.1, fed.2.trans ?_⟩, good⟩
      rw [List.append_assoc]
      exact congrArg (v ++ ·) (List.take_append_drop room _).symm
    · rcases storedMachine.reads_stop s.state input with all | done | bad
      · exact .inl all
      · right
        have more : ¬ (s.feed input).held.length ≤ room := by
          intro fits
          have done' : (s.feed input).state = .done := done
          simp [step, storedInflate, done', fits] at code
        exact List.length_take_of_le (Nat.le_of_not_le more)
      · exact absurd bad good
  ends := by
    rintro s u v input room ⟨reads, live⟩ - - step code
    have fed := reads.feed input
    have ended : (s.feed input).state = .done ∧ (s.feed input).held.length ≤ room := by
      apply Classical.byContradiction
      intro going
      by_cases bad : (s.feed input).state = .bad <;> simp [step, storedInflate, bad, going] at code
    constructor
    · exact fed.1.trans ended.1
    · have all : step.out = (s.feed input).held := List.take_of_length_le ended.2
      rw [all]
      exact fed.2
  fails := by
    rintro s u v input room ⟨reads, live⟩ - - step notOk notBuf notEnd
    have bad : (s.feed input).state = .bad := by
      apply Classical.byContradiction
      intro good
      by_cases ended : (s.feed input).state = .done ∧ (s.feed input).held.length ≤ room <;>
        simp [step, storedInflate, good, ended] at notBuf notEnd
    constructor
    · exact .inr (.inl (by simp [step, storedInflate, bad]))
    · intro z t ends
      have fed := reads.feed input
      have split := List.take_append_drop (storedMachine.reads s.state input) input
      rw [← split, ← List.append_assoc, List.append_assoc _ _ t]
      apply storedMachine.outside (fed.1.trans bad) ends
      -- Neither the part read before nor the part read now goes past a complete stream.
      intro z ends less
      have past : u <+: z := by
        rcases Format.comparable less (List.prefix_append u _) with before | after
        · rw [← reads.1] at live
          have same := storedMachine.inside live ends before
          subst same
          exact List.prefix_refl _
        · exact after
      obtain ⟨y, rfl⟩ := past
      have ended : storedMachine.after s.state y = .done := by
        rw [← reads.1, ← storedMachine.after_append]
        exact ends
      have whole := storedMachine.reads_unended live input ended
        ((List.prefix_append_right_inj u).mp less)
      have done : (s.feed input).state = .done := by
        unfold StoredIn.feed
        rw [← whole]
        exact ended
      rw [done] at bad
      cases bad

/-! ## Encoding -/

def storedBlock (final : Bool) (data : Bytes) : Bytes :=
  (if final then 1 else 0) :: (le 2 data.length ++ (le 2 (65535 - data.length) ++ data))

/-- Blocks of the largest size, and a final one with what is left. -/
def storedStream (x : Bytes) : Bytes :=
  if x.length ≤ 65535 then storedBlock true x
  else storedBlock false (x.take 65535) ++ storedStream (x.drop 65535)
termination_by x.length
decreasing_by rw [List.length_drop]; omega

theorem after_copy (final : Bool) (data : Bytes) :
    storedMachine.after (.next final data.length) data = .next final 0 ∧
      storedMachine.emits (.next final data.length) data = data := by
  induction data with
  | nil => exact ⟨rfl, rfl⟩
  | cons b data ih => exact ⟨ih.1, congrArg (b :: ·) ih.2⟩

/-- A block decodes to its data. -/
theorem after_block (final : Bool) {data : Bytes} (fits : data.length ≤ 65535) :
    storedMachine.after storedMachine.start (storedBlock final data) = .next final 0 ∧
      storedMachine.emits storedMachine.start (storedBlock final data) = data := by
  have len : ofLe (le 2 data.length) = data.length := by
    rw [ofLe_le]
    omega
  have sum : ofLe (le 2 (65535 - data.length)) + ofLe (le 2 data.length) = 65535 := by
    rw [len, ofLe_le]
    omega
  have opens : ∀ rest, storedMachine.after storedMachine.start
      ((if final then 1 else 0) :: rest) = storedMachine.after (.len1 final) rest ∧
      storedMachine.emits storedMachine.start ((if final then 1 else 0) :: rest) =
      storedMachine.emits (.len1 final) rest := by
    intro rest
    cases final <;> exact ⟨rfl, rfl⟩
  have lengths : ∀ rest, storedMachine.after (.len1 final)
      (le 2 data.length ++ (le 2 (65535 - data.length) ++ rest)) =
      storedMachine.after (.next final data.length) rest ∧
      storedMachine.emits (.len1 final)
        (le 2 data.length ++ (le 2 (65535 - data.length) ++ rest)) =
      storedMachine.emits (.next final data.length) rest := by
    intro rest
    simp only [le] at len sum
    simp only [le, List.cons_append, List.nil_append, Machine.after, Machine.emits, storedMachine,
      StoredState.step, sum, if_true]
    rw [len]
    exact ⟨rfl, rfl⟩
  unfold storedBlock
  rw [(opens _).1, (opens _).2, (lengths _).1, (lengths _).2]
  exact after_copy final data

/-- Every input is encoded by a complete stream. -/
theorem storedStream_ends (x : Bytes) :
    storedFormat.Ends (storedStream x) ∧ storedFormat.payload (storedStream x) = x := by
  induction x using storedStream.induct with
  | case1 x small =>
    rw [storedStream, if_pos small]
    exact after_block true small
  | case2 x large ih =>
    have short : (x.take 65535).length ≤ 65535 := List.length_take_le _ _
    obtain ⟨state, emitted⟩ := after_block false short
    rw [storedStream, if_neg large]
    constructor
    · exact (storedMachine.after_append _ _ _).trans (by rw [state]; exact ih.1)
    · refine (storedMachine.emits_append _ _ _).trans ?_
      rw [state, emitted]
      exact (congrArg (_ ++ ·) ih.2).trans (List.take_append_drop _ _)

theorem storedStream_length (x : Bytes) : (storedStream x).length ≤ 6 * x.length + 5 := by
  induction x using storedStream.induct with
  | case1 x small =>
    rw [storedStream, if_pos small]
    simp only [storedBlock, List.length_cons, List.length_append, le_length]
    omega
  | case2 x large ih =>
    rw [storedStream, if_neg large]
    rw [List.length_drop] at ih
    simp only [storedBlock, List.length_cons, List.length_append, le_length, List.length_take]
    omega

/-- An encoder's input so far, what it has still to put out, and its last flush. -/
structure StoredOut where
  input : Bytes
  held : Bytes
  last : ZFlush

/-- What the encoder holds, before it puts anything out. -/
def StoredOut.close (s : StoredOut) (input : Bytes) : Bytes :=
  if s.last = .finish then s.held else storedStream (s.input ++ input)

/-- `deflate` on stored blocks: it collects the input, and encodes it when told to finish. -/
def storedDeflate : DeflateEngine StoredOut where
  zero := ⟨[], [], .noFlush⟩
  deflateInit2 _ _ := (.ok, ⟨[], [], .noFlush⟩)
  deflate s flush input room :=
    match flush with
    | .noFlush =>
      { strm := { s with input := s.input ++ input }
        consumed := input.length
        out := []
        code := .ok }
    | .finish =>
      { strm := ⟨s.input ++ input, (s.close input).drop room, .finish⟩
        consumed := input.length
        out := (s.close input).take room
        code := if (s.close input).length ≤ room then .streamEnd else .ok }
  deflateEnd s := (.ok, s)

/-- The encoder has taken `x` and put out `z`. -/
def StoredOut.Fed (s : StoredOut) (last : ZFlush) (x z : Bytes) : Prop :=
  s.last = last ∧ s.input = x ∧
    match last with
    | .noFlush => z = []
    | .finish => z ++ s.held = storedStream x

theorem StoredOut.Fed.close {s : StoredOut} {last : ZFlush} {x z : Bytes} (fed : s.Fed last x z) :
    z ++ s.close [] = storedStream x := by
  obtain ⟨rfl, rfl, produced⟩ := fed
  unfold StoredOut.close
  cases last : s.last with
  | noFlush =>
    rw [last] at produced
    simp [produced]
  | finish =>
    rw [last] at produced
    simpa using produced

theorem StoredOut.Fed.begins {s : StoredOut} {last : ZFlush} {x z : Bytes}
    (fed : s.Fed last x z) : z <+: storedStream x :=
  ⟨_, fed.close⟩

/-- The encoder keeps the contract of a `deflate` that does not fail. -/
def storedDeflates : DeflatesAll storedFormat storedDeflate where
  Fed := StoredOut.Fed
  init _ := ⟨rfl, rfl, rfl⟩
  begins fed := ⟨_, (storedStream_ends _).1, fed.begins⟩
  within := by
    rintro s last x z flush input room -
    cases flush with
    | noFlush => exact ⟨Nat.le_refl _, Nat.zero_le _⟩
    | finish => exact ⟨Nat.le_refl _, List.length_take_le _ _⟩
  feeds := by
    rintro s x z input room ⟨last, rfl, rfl⟩
    refine ⟨ZCode.noConfusion, fun _ => ⟨last, ?_, rfl⟩⟩
    exact congrArg (s.input ++ ·) (List.take_length).symm
  closes := by
    rintro s last x z room fed step -
    refine ⟨rfl, ?_, ?_⟩
    · exact (List.append_nil _).trans fed.2.1
    · have whole := fed.close
      rw [← List.take_append_drop room (s.close []), ← List.append_assoc] at whole
      exact whole
  ends := by
    rintro s last x z room fed step code
    have fits : (s.close []).length ≤ room := by
      apply Classical.byContradiction
      intro long
      have going : step.code = .ok := if_neg long
      rw [going] at code
      cases code
    have all : step.out = s.close [] := List.take_of_length_le fits
    rw [all, fed.close]
    exact storedStream_ends x
  initOk _ _ _ := rfl
  bound n := 6 * n + 5
  bounded fed := Nat.le_trans fed.begins.length_le (storedStream_length _)
  feedsAll _ _ _ := ⟨rfl, .inl rfl⟩
  closesAll := by
    rintro s last x z room - - step
    by_cases fits : (s.close []).length ≤ room
    · left
      exact if_pos fits
    · right
      exact ⟨if_neg fits, List.length_take_of_le (by omega)⟩
  endOk _ _ := rfl

end CheriGzip.Gzip
