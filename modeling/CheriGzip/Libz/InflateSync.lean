import CheriGzip.Libz.InflateBound

/-!
# inflateSync

After wrong data `inflateSync` looks for the end of a flushed block, the bytes `00 00 FF FF`. It
begins with what the bit buffer holds, and goes on in each call with the input of that.
-/
namespace CheriGzip.Inflate

/-! ## The search -/

/-- The length of an empty stored block, behind which `inflate` can begin again. -/
def syncPattern : Bytes := [0, 0, 0xff, 0xff]

/-- The byte of the pattern behind `got` of them. -/
def syncNext (got : Nat) : UInt8 := if got < 2 then 0 else 0xff

/-- One byte of `syncsearch`. -/
def syncByte (got : Nat) (b : UInt8) : Nat :=
  if b = syncNext got then got + 1
  else if b ≠ 0 then 0
  else 4 - got

/-- What is found now, and how many bytes of `buf` that took. -/
def syncsearch : Nat → Bytes → Nat × Nat
  | got, [] => (got, 0)
  | got, b :: buf =>
    if got < 4 then
      let found := syncsearch (syncByte got b) buf
      (found.1, found.2 + 1)
    else (got, 0)

/-- The longest beginning of the pattern that `seen` ends with has `got` bytes, and the pattern is
not in front of that. -/
structure Searched (got : Nat) (seen : Bytes) : Prop where
  few : got ≤ 4
  ends : syncPattern.take got <:+ seen
  longest : ∀ k, k ≤ 4 → syncPattern.take k <:+ seen → k ≤ got
  before : got < 4 → ¬ syncPattern <:+: seen

theorem concat_suffix {α : Type} {a b : α} {xs ys : List α} :
    xs ++ [a] <:+ ys ++ [b] ↔ a = b ∧ xs <:+ ys := by
  rw [← List.reverse_prefix, List.reverse_append, List.reverse_append]
  simp [List.reverse_prefix]

section

variable {got k : Nat} {b : UInt8} {seen buf : Bytes}

theorem syncByte_cases (got : Nat) (b : UInt8) :
    b = syncNext got ∧ syncByte got b = got + 1 ∨
      b ≠ syncNext got ∧ b ≠ 0 ∧ syncByte got b = 0 ∨
        b ≠ syncNext got ∧ b = 0 ∧ 2 ≤ got ∧ syncByte got b = 4 - got := by
  unfold syncByte
  by_cases next : b = syncNext got
  · exact .inl ⟨next, if_pos next⟩
  · rw [if_neg next]
    by_cases zero : b = 0
    · refine .inr (.inr ⟨next, zero, Nat.le_of_not_lt fun two => next ?_, if_neg ?_⟩)
      · rw [zero, syncNext, if_pos two]
      · exact not_not_intro zero
    · exact .inr (.inl ⟨next, zero, if_pos zero⟩)

theorem pattern_suffix (less : k < 4) : syncPattern.take (k + 1) <:+ seen ++ [b] ↔
    syncNext k = b ∧ syncPattern.take k <:+ seen := by
  have last : syncPattern.take (k + 1) = syncPattern.take k ++ [syncNext k] := by
    interval_cases k
    · rfl
    · rfl
    · rfl
    · rfl
  rw [last, concat_suffix]

theorem Searched.nothing : Searched 0 [] where
  few := Nat.zero_le 4
  ends := List.suffix_rfl
  longest k le suffix := by
    have short := suffix.length_le
    simp only [List.length_take, syncPattern, List.length_cons, List.length_nil] at short
    omega
  before _ infix' := absurd infix'.length_le (by decide)

/-- What ends with `b` ended with all but that before. -/
theorem Searched.shorter (searched : Searched got seen) (less : k < 4)
    (suffix : syncPattern.take (k + 1) <:+ seen ++ [b]) :
    syncNext k = b ∧ syncPattern.take k <:+ seen ∧ k ≤ got := by
  obtain ⟨is, ends⟩ := (pattern_suffix less).mp suffix
  exact ⟨is, ends, searched.longest k (Nat.le_of_lt less) ends⟩

theorem Searched.longest_byte (searched : Searched got seen) (more : got < 4) (le : k ≤ 4)
    (suffix : syncPattern.take k <:+ seen ++ [b]) : k ≤ syncByte got b := by
  cases k with
  | zero => exact Nat.zero_le _
  | succ k =>
    obtain ⟨is, ends, le'⟩ := searched.shorter le suffix
    rcases syncByte_cases got b with ⟨-, byte⟩ | ⟨other, some, byte⟩ | ⟨other, zero, two, byte⟩
    · omega
    · -- Only the zeros of the pattern are in front of another byte of it.
      exfalso
      have behind : ¬ k < 2 := fun two => some (by rw [← is, syncNext, if_pos two])
      refine other ?_
      rw [← is, syncNext, syncNext, if_neg behind, if_neg (by omega)]
    · have first : k < 2 := by
        refine Decidable.byContradiction fun behind => ?_
        rw [zero, syncNext, if_neg behind] at is
        exact absurd is (by decide)
      by_cases three : got = 3
      · -- Behind the byte `FF` there is no zero in front of `b`.
        subst three
        have short : k = 0 ∨ k = 1 := by omega
        rcases short with rfl | rfl
        · omega
        · have conflict := List.suffix_of_suffix_length_le ends searched.ends (by decide)
          exact absurd conflict (by decide)
      · omega

/-- After a zero that does not go on with the pattern, two zeros are there behind two, and one is
behind a byte `FF`. -/
theorem Searched.byte (searched : Searched got seen) (more : got < 4) (b : UInt8) :
    Searched (syncByte got b) (seen ++ [b]) where
  few := by
    rcases syncByte_cases got b with ⟨-, byte⟩ | ⟨-, -, byte⟩ | ⟨-, -, two, byte⟩
    · omega
    · omega
    · omega
  ends := by
    rcases syncByte_cases got b with ⟨is, byte⟩ | ⟨-, -, byte⟩ | ⟨-, zero, two, byte⟩
    · rw [byte]
      exact (pattern_suffix more).mpr ⟨is.symm, searched.ends⟩
    · rw [byte]
      exact List.nil_suffix
    · have which : got = 2 ∨ got = 3 := by omega
      rw [byte]
      rcases which with rfl | rfl
      · refine (pattern_suffix (by decide : 1 < 4)).mpr ⟨zero.symm, ?_⟩
        exact List.IsSuffix.trans (by decide) searched.ends
      · exact (pattern_suffix (by decide : 0 < 4)).mpr ⟨zero.symm, List.nil_suffix⟩
  longest _ le suffix := searched.longest_byte more le suffix
  before := by
    intro still within
    rcases List.infix_concat_iff.mp within with suffix | inside
    · exact absurd (searched.longest_byte more (Nat.le_refl 4) suffix) (Nat.not_le_of_lt still)
    · exact searched.before more inside

/-- `syncsearch` stops behind the first pattern, or at the end. -/
theorem Searched.search (searched : Searched got seen) (buf : Bytes) :
    (syncsearch got buf).2 ≤ buf.length ∧
      Searched (syncsearch got buf).1 (seen ++ buf.take (syncsearch got buf).2) ∧
      ((syncsearch got buf).1 < 4 → (syncsearch got buf).2 = buf.length) ∧
      ∀ k, k < (syncsearch got buf).2 → ¬ syncPattern <:+: seen ++ buf.take k := by
  induction buf generalizing got seen with
  | nil =>
    refine ⟨Nat.le_refl _, ?_, fun _ => rfl, fun k less => absurd less (Nat.not_lt_zero k)⟩
    simpa [syncsearch] using searched
  | cons b buf ih =>
    -- The loop stops when `got` is 4, and else goes on behind `b`.
    by_cases more : got < 4
    · obtain ⟨le, found, all, first⟩ := ih (searched.byte more b)
      simp only [syncsearch, if_pos more]
      refine ⟨Nat.succ_le_succ le, ?_, fun less => congrArg (· + 1) (all less), fun k less => ?_⟩
      · simpa using found
      · cases k with
        | zero => simpa using searched.before more
        | succ k => simpa using first k (Nat.lt_of_succ_lt_succ less)
    · simp only [syncsearch, if_neg more]
      refine ⟨Nat.zero_le _, by simpa using searched, fun less => absurd less more, ?_⟩
      exact fun k less => absurd less (Nat.not_lt_zero k)

end

/-! ## The calls -/

/-- What `inflateSync` uses of the state. -/
structure Syncing where
  /-- `mode` is `SYNC`. -/
  sync : Bool
  got : Nat
  hold : Nat
  bits : Nat
  deriving DecidableEq, Repr

/-- The bit buffer as a byte string. -/
def restore : Nat → Nat → Bytes
  | 0, _ => []
  | len + 1, hold => UInt8.ofNat hold :: restore len (hold >>> 8)

/-- What is put into `buf` when the search starts. As the shift is to the left, these are the bytes
of the stream only where no bits of another one are in front of them. -/
def Syncing.restored (s : Syncing) : Bytes := restore (s.bits / 8) (s.hold <<< (s.bits &&& 7))

def Syncing.begin (s : Syncing) : Syncing :=
  if s.sync then s
  else ⟨true, (syncsearch 0 s.restored).1, s.hold <<< (s.bits &&& 7) >>> (s.bits / 8 * 8), 0⟩

/-- What is returned, how many bytes of the input were taken, and the state then. -/
def inflateSync (input : Bytes) (s : Syncing) : Int × Nat × Syncing :=
  if input.length = 0 ∧ s.bits < 8 then (zBufError, 0, s)
  else
    let s := s.begin
    let found := syncsearch s.got input
    if found.1 ≠ 4 then (zDataError, found.2, { s with got := found.1 })
    else
      -- `inflateReset`, and then `mode` is `TYPE`.
      (zOk, found.2, ⟨false, found.1, 0, 0⟩)

/-- Calls from `s` on that did not find the pattern in their input. -/
inductive Seeks (s : Syncing) : Bytes → Syncing → Prop where
  | start : Seeks s [] s
  | call {before input : Bytes} {s' t : Syncing} {ret : Int} {len : Nat} (seeks : Seeks s before s')
      (returns : inflateSync input s' = (ret, len, t)) (not : ret ≠ zOk) :
      Seeks s (before ++ input) t

section

variable {s s' t : Syncing} {before input : Bytes} {ret : Int} {len : Nat}

theorem restore_length (n hold : Nat) : (restore n hold).length = n := by
  induction n generalizing hold with
  | zero => rfl
  | succ n ih => exact congrArg (· + 1) (ih _)

/-- Whole bytes in the bit buffer are searched as they are. -/
theorem restored_whole (held : Bytes) (sync : Bool) (got : Nat) :
    Syncing.restored ⟨sync, got, ofLe held, 8 * held.length⟩ = held := by
  have aligned : 8 * held.length &&& 7 = 0 := by
    have mod := Nat.and_two_pow_sub_one_eq_mod (8 * held.length) 3
    exact mod.trans (Nat.mul_mod_right 8 held.length)
  have bytes : ∀ held : Bytes, restore held.length (ofLe held) = held := by
    intro held
    induction held with
    | nil => rfl
    | cons b held ih =>
      have small := b.toNat_lt
      have rest : ofLe (b :: held) >>> 8 = ofLe held := by
        rw [Nat.shiftRight_eq_div_pow, ofLe]
        omega
      have low : UInt8.ofNat (ofLe (b :: held)) = b := by
        apply UInt8.toNat_inj.mp
        rw [UInt8.toNat_ofNat', ofLe]
        omega
      rw [List.length_cons, restore, rest, low, ih]
  simp only [Syncing.restored, aligned, Nat.shiftLeft_zero]
  rw [Nat.mul_div_cancel_left _ (by decide), bytes]

-- A bit of another byte is in front of `FF` here.
example : Syncing.restored ⟨false, 0, 0x1fe, 9⟩ = [0xfc] := by decide

/-- What was found in `before`, when the search from `s` has come to `s'`. -/
structure Syncing.Looks (s : Syncing) (before : Bytes) (s' : Syncing) : Prop where
  searched : Searched s'.begin.got (s.restored ++ before)
  more : s'.sync = true → s'.got < 4

/-- `buf` has at most four bytes, so the pattern can only be all of it. -/
theorem Syncing.Looks.start (fresh : s.sync = false) (small : s.bits < 40) : s.Looks [] s := by
  obtain ⟨le, found, all, -⟩ := Searched.nothing.search s.restored
  have length : s.restored.length = s.bits / 8 := restore_length _ _
  have whole : s.restored.take (syncsearch 0 s.restored).2 = s.restored := by
    by_cases more : (syncsearch 0 s.restored).1 < 4
    · rw [all more, List.take_length]
    · have four := found.ends.length_le
      rw [Nat.le_antisymm found.few (Nat.le_of_not_lt more)] at four
      simp only [List.length_take, syncPattern, List.length_cons, List.length_nil,
        List.length_append] at four
      exact List.take_of_length_le (by omega)
  rw [List.nil_append, whole] at found
  refine ⟨?_, fun sync => absurd (sync.symm.trans fresh) (by decide)⟩
  rw [List.append_nil, Syncing.begin, fresh]
  exact found

theorem Syncing.begin_few (fresh : s.sync = false) (few : s.bits < 8) : s.begin.got = 0 := by
  have none : s.bits / 8 = 0 := by omega
  rw [Syncing.begin, fresh, Syncing.restored, none]
  rfl

/-- One call. -/
theorem Syncing.Looks.call (looks : s.Looks before s') (input : Bytes) :
    ∃ ret len t, inflateSync input s' = (ret, len, t) ∧ len ≤ input.length ∧
      (ret = zOk ∧ syncPattern <:+ s.restored ++ before ++ input.take len ∧
          (∀ k, k < len → ¬ syncPattern <:+: s.restored ++ before ++ input.take k) ∨
        ret ≠ zOk ∧ len = input.length ∧ ¬ syncPattern <:+: s.restored ++ before ++ input ∧
          s.Looks (before ++ input) t) := by
  unfold inflateSync
  split
  · -- Nothing is searched, and the pattern was not there before.
    rename_i nothing
    obtain ⟨none, few⟩ := nothing
    have empty : input = [] := List.length_eq_zero_iff.mp none
    subst empty
    have more : s'.begin.got < 4 := by
      cases sync : s'.sync with
      | true =>
        rw [Syncing.begin, if_pos sync]
        exact looks.more sync
      | false =>
        rw [Syncing.begin_few sync few]
        decide
    refine ⟨_, _, _, rfl, Nat.le_refl _, .inr ⟨by decide, rfl, ?_, ?_⟩⟩
    · rw [List.append_nil]
      exact looks.searched.before more
    · rwa [List.append_nil]
  obtain ⟨le, found, all, first⟩ := looks.searched.search input
  by_cases whole : (syncsearch s'.begin.got input).1 = 4
  · refine ⟨_, _, _, if_neg (not_not_intro whole), le, .inl ⟨rfl, ?_, first⟩⟩
    have ends := found.ends
    rwa [whole] at ends
  · have less := Nat.lt_of_le_of_ne found.few whole
    rw [all less, List.take_length] at found
    have sync : s'.begin.sync = true := by
      unfold Syncing.begin
      split
      · assumption
      · rfl
    refine ⟨_, _, _, if_pos whole, le, .inr ⟨by decide, all less, found.before less, ?_, ?_⟩⟩
    · rw [Syncing.begin, if_pos sync, ← List.append_assoc]
      exact found
    · exact fun _ => less

theorem Seeks.looks (seeks : Seeks s before s') (fresh : s.sync = false) (small : s.bits < 40) :
    s.Looks before s' := by
  induction seeks with
  | start => exact .start fresh small
  | @call before input s' t ret len _ returns not ih =>
    obtain ⟨ret', len', t', returns', -, found | ⟨-, -, -, looks⟩⟩ := ih.call input
    · rw [returns] at returns'
      cases returns'
      exact absurd found.1 not
    · rw [returns] at returns'
      cases returns'
      exact looks

/-- In whatever pieces the input comes, `inflateSync` finds the first pattern in it and in the bit
buffer before it, takes the input up to the end of that, and otherwise all of it. -/
theorem inflateSync_finds (seeks : Seeks s before s') (fresh : s.sync = false)
    (small : s.bits < 40) (input : Bytes) :
    ∃ ret len t, inflateSync input s' = (ret, len, t) ∧ len ≤ input.length ∧
      (ret = zOk ↔ syncPattern <:+: s.restored ++ before ++ input) ∧
      (ret = zOk → syncPattern <:+ s.restored ++ before ++ input.take len ∧
        ∀ k, k < len → ¬ syncPattern <:+: s.restored ++ before ++ input.take k) ∧
      (ret ≠ zOk → len = input.length) := by
  obtain ⟨ret, len, t, returns, le, ⟨ok, ends, first⟩ | ⟨not, all, none, -⟩⟩ :=
    (seeks.looks fresh small).call input
  · have within : s.restored ++ before ++ input.take len <+: s.restored ++ before ++ input :=
      List.prefix_append_right_inj _ |>.mpr (List.take_prefix len input)
    refine ⟨ret, len, t, returns, le, ?_, fun _ => ⟨ends, first⟩, fun not => absurd ok not⟩
    exact ⟨fun _ => ends.isInfix.trans within.isInfix, fun _ => ok⟩
  · refine ⟨ret, len, t, returns, le, ?_, fun ok => absurd ok not, fun _ => all⟩
    exact ⟨fun ok => absurd ok not, fun found => absurd found none⟩

end

/-- Two bytes of it are in the bit buffer, one in the first input and one in the next. -/
theorem inflateSync_finds_cut : ∃ ret len t,
    inflateSync [0xff, 7] ⟨true, 3, 0, 0⟩ = (ret, len, t) ∧ len ≤ 2 ∧
      (ret = zOk ↔ syncPattern <:+: [0, 0] ++ [0xff] ++ [0xff, 7]) ∧
      (ret = zOk → syncPattern <:+ [0, 0] ++ [0xff] ++ [0xff, 7].take len ∧
        ∀ k, k < len → ¬ syncPattern <:+: [0, 0] ++ [0xff] ++ [0xff, 7].take k) ∧
      (ret ≠ zOk → len = 2) := by
  have first : inflateSync [0xff] ⟨false, 0, 0, 16⟩ = (zDataError, 1, ⟨true, 3, 0, 0⟩) := by decide
  exact inflateSync_finds (.call .start first (by decide)) rfl (by decide) [0xff, 7]

end CheriGzip.Inflate
