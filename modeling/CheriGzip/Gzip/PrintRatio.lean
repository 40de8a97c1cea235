import Mathlib.Data.Nat.Digits.Defs
import Mathlib.Order.Lattice.Nat
import Mathlib.Tactic.Positivity
import Mathlib.Algebra.Order.Ring.Int
import Mathlib.Tactic.Ring

/-!
# print_ratio

The size reduction is printed in tenths of a per cent, out of a 32-bit division: both operands are
halved until the size of the input fits. An input that comes to more than twice its size is to be
printed as -99.9%. An output just short of that is smaller than a two-thousandth of the input away
from it, and the quotient is then rounded down to zero, which is -100.0%.
-/
namespace CheriGzip.PrintRatio

/-! ## The function -/

/-- `while (in > 0x100000) { diff >>= 1; in >>= 1; }` -/
def reduce (diff insize : Int) : Int × Int :=
  if 0x100000 < insize then reduce (diff >>> (1 : Nat)) (insize >>> (1 : Nat)) else (diff, insize)
termination_by insize.toNat
decreasing_by
  rw [Int.shiftRight_eq_div_pow]
  omega

/-- `(u_int)diff * 2000`. -/
def product (diff : Int) : UInt32 := UInt32.ofInt diff * 2000

/-- `diff` and `in` as they are divided, when they are: `diff` is positive and `in` not zero. -/
def operands (insize outsize : Int) : Option (Int × Int) :=
  let diff := insize - outsize.tdiv 2
  if diff ≤ 0 then none
  else
    let (diff, insize) := reduce diff insize
    if insize ≠ 0 then some (diff, insize) else none

/-- Ten times the percentage. The subtraction is one of unsigned numbers, and the assignment to an
`int` makes a negative number of it. -/
def percent10 (insize outsize : Int) : Int :=
  if insize - outsize.tdiv 2 ≤ 0 then -999
  else
    match operands insize outsize with
    | some (diff, insize) => (product diff / UInt32.ofInt insize - 1000).toInt32.toInt
    | none => 0

/-- `%2.2d`: a sign, and at least two digits. -/
def twoDigits (n : Int) : List Char :=
  let digits := Nat.toDigits 10 n.natAbs
  (if n < 0 then ['-'] else []) ++ List.replicate (2 - digits.length) '0' ++ digits

/-- What `snprintf` puts into `buff`, but for the NUL. -/
def formatted (insize outsize : Int) : List Char := twoDigits (percent10 insize outsize) ++ ['.']

/-- The '.' moved before the last digit, at the right end of five columns. -/
def printRatio (insize outsize : Int) : List Char :=
  let buff := formatted insize outsize
  let len := buff.length
  let buff := (buff.set (len - 1) (buff.getD (len - 2) ' ')).set (len - 2) '.'
  List.replicate (5 - buff.length) ' ' ++ buff ++ ['%']

/-! ## What is to hold -/

/-- A size in `off_t` that is not negative. -/
def Size (n : Int) : Prop := 0 ≤ n ∧ n < 2 ^ 63

/-- The arithmetic stays inside its types, the percentage inside its range, more output is no better
a percentage, and the text has room in `buff[8]`. -/
structure Sound (insize outsize : Int) : Prop where
  divides : ∀ diff n, operands insize outsize = some (diff, n) → UInt32.ofInt n ≠ 0
  product : ∀ diff n, operands insize outsize = some (diff, n) → 0 ≤ diff ∧ diff * 2000 < 2 ^ 32
  range : -999 ≤ percent10 insize outsize ∧ percent10 insize outsize ≤ 1000
  antitone : ∀ outsize', Size outsize' → outsize ≤ outsize' →
    percent10 insize outsize' ≤ percent10 insize outsize
  fits : (formatted insize outsize).length + 1 ≤ 8

/-- The number of halvings that bring a size down to 20 bits. -/
noncomputable def halvings (insize : Int) : Nat := sInf { k | insize / 2 ^ k ≤ 0x100000 }

/-- The reduction is smaller than a two-thousandth of the input, as the halvings leave them. -/
def Vanishes (insize outsize : Int) : Prop :=
  0 < insize - outsize / 2 ∧
    2000 * ((insize - outsize / 2) / 2 ^ halvings insize) < insize / 2 ^ halvings insize

/-! ## The halving loop -/

theorem halvings_small {insize : Int} (small : insize ≤ 0x100000) : halvings insize = 0 :=
  Nat.sInf_eq_zero.mpr (.inl (by simpa using small))

/-- Some number of halvings is enough. -/
theorem halvings_nonempty (insize : Int) : { k | insize / 2 ^ k ≤ 0x100000 }.Nonempty := by
  refine ⟨insize.toNat, ?_⟩
  have less : insize.toNat < 2 ^ insize.toNat := Nat.lt_two_pow_self
  have below : insize < 2 ^ insize.toNat := by
    have cast : ((insize.toNat : Nat) : Int) < ((2 ^ insize.toNat : Nat) : Int) := by
      exact_mod_cast less
    rw [Nat.cast_pow, Nat.cast_ofNat] at cast
    omega
  have none : insize / 2 ^ insize.toNat < 1 :=
    Int.ediv_lt_of_lt_mul (by positivity) (by omega)
  show insize / 2 ^ insize.toNat ≤ 0x100000
  omega

theorem halvings_spec (insize : Int) : insize / 2 ^ halvings insize ≤ 0x100000 :=
  Nat.sInf_mem (halvings_nonempty insize)

theorem div_two_pow_succ (n : Int) (k : Nat) : n / 2 ^ (k + 1) = n / 2 / 2 ^ k := by
  rw [pow_succ', Int.ediv_ediv_of_nonneg (by decide)]

theorem halvings_large {insize : Int} (large : 0x100000 < insize) :
    halvings insize = halvings (insize / 2) + 1 := by
  apply le_antisymm
  · apply Nat.sInf_le
    show insize / 2 ^ (halvings (insize / 2) + 1) ≤ 0x100000
    rw [div_two_pow_succ]
    exact halvings_spec (insize / 2)
  · cases count : halvings insize with
    | zero =>
      have small := halvings_spec insize
      rw [count, pow_zero, Int.ediv_one] at small
      omega
    | succ k =>
      have enough := halvings_spec insize
      rw [count, div_two_pow_succ] at enough
      have least : halvings (insize / 2) ≤ k := Nat.sInf_le enough
      omega

theorem reduce_eq (diff insize : Int) :
    reduce diff insize = (diff / 2 ^ halvings insize, insize / 2 ^ halvings insize) := by
  induction diff, insize using reduce.induct with
  | case1 diff insize large ih =>
    rw [reduce, if_pos large, ih, Int.shiftRight_eq_div_pow, Int.shiftRight_eq_div_pow, pow_one,
      halvings_large large, div_two_pow_succ, div_two_pow_succ]
    rfl
  | case2 diff insize small =>
    rw [reduce, if_neg small, halvings_small (by omega), pow_zero, Int.ediv_one, Int.ediv_one]

/-- Something is left of a size after the halvings. -/
theorem halved_pos (diff insize : Int) (pos : 0 < insize) :
    0 < insize / 2 ^ halvings insize := by
  induction diff, insize using reduce.induct with
  | case1 diff insize large ih =>
    rw [Int.shiftRight_eq_div_pow, pow_one] at ih
    rw [halvings_large large, div_two_pow_succ]
    exact ih (by omega)
  | case2 diff insize small =>
    rw [halvings_small (by omega), pow_zero, Int.ediv_one]
    exact pos

/-! ## The 32-bit division -/

theorem ofInt_toNat {n : Int} (nonneg : 0 ≤ n) (small : n < 2 ^ 32) :
    (UInt32.ofInt n).toNat = n.toNat := by
  rw [UInt32.ofInt, Int.emod_eq_of_lt nonneg (by omega)]
  exact UInt32.toNat_ofNat_of_lt' (by show n.toNat < 2 ^ 32; omega)

theorem product_toNat {diff : Int} (nonneg : 0 ≤ diff) (small : diff ≤ 0x100000) :
    (product diff).toNat = diff.toNat * 2000 := by
  have small' : diff.toNat ≤ 0x100000 := by omega
  rw [product, UInt32.toNat_mul, ofInt_toNat nonneg (by omega)]
  exact Nat.mod_eq_of_lt (by show diff.toNat * 2000 < 2 ^ 32; omega)

/-- A quotient of at most 2000, with 1000 taken away from it in unsigned numbers. -/
theorem minus_thousand {q : UInt32} (small : q.toNat ≤ 2000) :
    (q - 1000).toInt32.toInt = q.toNat - 1000 := by
  have value : (q - 1000).toNat = (2 ^ 32 - 1000 + q.toNat) % 2 ^ 32 := UInt32.toNat_sub q 1000
  show (q - 1000).toBitVec.toInt = q.toNat - 1000
  rw [BitVec.toInt_eq_toNat_bmod]
  show ((q - 1000).toNat : Int).bmod (2 ^ 32) = q.toNat - 1000
  rw [value, Int.bmod]
  split <;> omega

theorem quotient_toInt {diff n : Int} (nonneg : 0 ≤ diff) (le : diff ≤ n) (pos : 0 < n)
    (small : n ≤ 0x100000) :
    (product diff / UInt32.ofInt n - 1000).toInt32.toInt = diff * 2000 / n - 1000 := by
  have quotient : (product diff / UInt32.ofInt n).toNat = diff.toNat * 2000 / n.toNat := by
    rw [UInt32.toNat_div, product_toNat nonneg (by omega), ofInt_toNat pos.le (by omega)]
  have bound : diff.toNat * 2000 / n.toNat ≤ 2000 :=
    Nat.div_le_of_le_mul (by rw [Nat.mul_comm n.toNat]; omega)
  rw [minus_thousand (by omega), quotient]
  push_cast
  rw [Int.toNat_of_nonneg nonneg, Int.toNat_of_nonneg pos.le]

/-! ## The percentage -/

section

variable {insize outsize : Int}

theorem operands_eq (nonneg : 0 ≤ outsize) (more : 0 < insize - outsize / 2) :
    operands insize outsize = some ((insize - outsize / 2) / 2 ^ halvings insize,
      insize / 2 ^ halvings insize) := by
  have pos := halved_pos 0 insize (by omega)
  rw [operands, Int.tdiv_eq_ediv_of_nonneg nonneg]
  simp only [reduce_eq]
  rw [if_neg (by omega), if_pos (by omega)]

theorem operands_none (nonneg : 0 ≤ outsize) (less : insize - outsize / 2 ≤ 0) :
    operands insize outsize = none := by
  rw [operands, Int.tdiv_eq_ediv_of_nonneg nonneg]
  exact if_pos less

/-- What is left of the difference is no more than what is left of the input. -/
theorem halved_le (insize : Int) (nonneg : 0 ≤ outsize) :
    (insize - outsize / 2) / 2 ^ halvings insize ≤ insize / 2 ^ halvings insize :=
  Int.ediv_le_ediv (by positivity) (by omega)

theorem percent10_divided (nonneg : 0 ≤ outsize) (more : 0 < insize - outsize / 2) :
    percent10 insize outsize =
      (insize - outsize / 2) / 2 ^ halvings insize * 2000 / (insize / 2 ^ halvings insize) - 1000 := by
  have start : ¬ insize - outsize.tdiv 2 ≤ 0 := by
    rw [Int.tdiv_eq_ediv_of_nonneg nonneg]
    omega
  rw [percent10, if_neg start, operands_eq nonneg more]
  exact quotient_toInt (Int.ediv_nonneg more.le (by positivity)) (halved_le insize nonneg)
    (halved_pos 0 insize (by omega)) (halvings_spec insize)

theorem percent10_double (nonneg : 0 ≤ outsize) (less : insize - outsize / 2 ≤ 0) :
    percent10 insize outsize = -999 := by
  rw [percent10, Int.tdiv_eq_ediv_of_nonneg nonneg]
  exact if_pos less

/-- The percentage never leaves the range by more than one. -/
theorem percent10_range (insize : Int) (nonneg : 0 ≤ outsize) :
    -1000 ≤ percent10 insize outsize ∧ percent10 insize outsize ≤ 1000 := by
  by_cases more : 0 < insize - outsize / 2
  · have pos := halved_pos 0 insize (by omega)
    have diff : 0 ≤ (insize - outsize / 2) / 2 ^ halvings insize :=
      Int.ediv_nonneg more.le (by positivity)
    have le := halved_le insize nonneg
    have least : 0 ≤ (insize - outsize / 2) / 2 ^ halvings insize * 2000 /
        (insize / 2 ^ halvings insize) := Int.ediv_nonneg (by omega) pos.le
    have most : (insize - outsize / 2) / 2 ^ halvings insize * 2000 /
        (insize / 2 ^ halvings insize) ≤ 2000 := Int.ediv_le_of_le_mul pos (by omega)
    rw [percent10_divided nonneg more]
    omega
  · rw [percent10_double nonneg (by omega)]
    omega

/-- The quotient is zero when the difference is too small, and only then. -/
theorem percent10_least (nonneg : 0 ≤ outsize) :
    -999 ≤ percent10 insize outsize ↔ ¬ Vanishes insize outsize := by
  by_cases more : 0 < insize - outsize / 2
  · have pos := halved_pos 0 insize (by omega)
    have one := Int.le_ediv_iff_mul_le (c := insize / 2 ^ halvings insize) (a := 1)
      (b := (insize - outsize / 2) / 2 ^ halvings insize * 2000) pos
    rw [percent10_divided nonneg more, Vanishes]
    constructor
    · rintro least ⟨_, less⟩
      have := one.mp (by omega)
      omega
    · intro large
      have := one.mpr (by omega)
      omega
  · rw [percent10_double nonneg (by omega)]
    exact iff_of_true le_rfl fun vanishes => more vanishes.1

/-- More output, and a smaller difference. -/
theorem percent10_antitone {outsize' : Int} (nonneg : 0 ≤ outsize) (more : outsize ≤ outsize')
    (left : 0 < insize - outsize' / 2) : percent10 insize outsize' ≤ percent10 insize outsize := by
  have pos := halved_pos 0 insize (by omega)
  have halved : (insize - outsize' / 2) / 2 ^ halvings insize ≤
      (insize - outsize / 2) / 2 ^ halvings insize := Int.ediv_le_ediv (by positivity) (by omega)
  have divided := Int.ediv_le_ediv (a := (insize - outsize' / 2) / 2 ^ halvings insize * 2000)
    (b := (insize - outsize / 2) / 2 ^ halvings insize * 2000) pos (by omega)
  rw [percent10_divided (by omega) left, percent10_divided nonneg (by omega)]
  omega

/-! ## The text -/

/-- A number of at most four digits has five characters with its sign. -/
theorem twoDigits_length {n : Int} (small : n.natAbs < 10000) : (twoDigits n).length ≤ 5 := by
  have digits : (Nat.toDigits 10 n.natAbs).length ≤ 4 :=
    Nat.toDigits_length 10 n.natAbs 4 (by decide) small
  rw [twoDigits, List.length_append, List.length_append, List.length_replicate]
  have sign : (if n < 0 then ['-'] else []).length ≤ 1 := by split <;> decide
  omega

theorem formatted_fits (nonneg : 0 ≤ outsize) : (formatted insize outsize).length + 1 ≤ 8 := by
  have range := percent10_range insize nonneg
  have length := twoDigits_length (n := percent10 insize outsize) (by omega)
  rw [formatted, List.length_append, List.length_singleton]
  omega

end

/-! ## Soundness -/

theorem print_ratio_sound_iff (insize outsize : Int) (out : Size outsize) :
    Sound insize outsize ↔ ¬ Vanishes insize outsize := by
  constructor
  · intro sound
    exact (percent10_least out.1).mp sound.range.1
  · intro large
    have least := (percent10_least out.1).mpr large
    have range := percent10_range insize out.1
    have small := halvings_spec insize
    have nonneg : 0 ≤ outsize := out.1
    refine ⟨?_, ?_, ⟨least, range.2⟩, ?_, formatted_fits out.1⟩
    · intro diff n given zero
      by_cases more : 0 < insize - outsize / 2
      · have pos := halved_pos 0 insize (by omega)
        rw [operands_eq out.1 more] at given
        obtain ⟨rfl, rfl⟩ := Prod.mk.inj (Option.some.inj given)
        have value := ofInt_toNat pos.le (by omega)
        rw [zero, UInt32.toNat_zero] at value
        omega
      · rw [operands_none out.1 (by omega)] at given
        cases given
    · intro diff n given
      by_cases more : 0 < insize - outsize / 2
      · have le := halved_le insize out.1
        rw [operands_eq out.1 more] at given
        obtain ⟨rfl, rfl⟩ := Prod.mk.inj (Option.some.inj given)
        exact ⟨Int.ediv_nonneg more.le (by positivity), by omega⟩
      · rw [operands_none out.1 (by omega)] at given
        cases given
    · intro outsize' out' more
      by_cases left : 0 < insize - outsize' / 2
      · exact percent10_antitone out.1 more left
      · -- More than double the size, and -99.9% is the least there is.
        rw [percent10_double out'.1 (by omega)]
        exact least

theorem print_ratio_sound_third : Sound 1000 700 := by
  refine (print_ratio_sound_iff 1000 700 ⟨by decide, by decide⟩).mpr ?_
  rw [Vanishes, halvings_small (by decide)]
  decide

/-- 2001 bytes in and 4000 out: -100.0%. -/
theorem print_ratio_vanishes :
    ¬ ∀ insize outsize, Size insize → Size outsize → Sound insize outsize := by
  intro all
  have sound := all 2001 4000 ⟨by decide, by decide⟩ ⟨by decide, by decide⟩
  have value : percent10 2001 4000 = -1000 := by
    rw [percent10_divided (by decide) (by decide), halvings_small (by decide)]
    decide
  have least := sound.range.1
  rw [value] at least
  exact absurd least (by decide)

end CheriGzip.PrintRatio
