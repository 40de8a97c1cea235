import CheriGzip.Lib.Bytes
import Mathlib.Data.Nat.Bits

/-!
# Fields of bits

The bits of a number from a position on, lowest first, and the accumulator through which a decoder
reads them: it takes whole bytes in at the top and drops bits at the bottom.
-/
namespace CheriGzip

/-- The low `n` bits: `hold & ((1 << n) - 1)`. -/
def lowBits (hold n : Nat) : Nat := hold &&& (1 <<< n - 1)

/-- The `n` bits of `x` from bit `c` on. -/
def bitField (x c n : Nat) : Nat := x / 2 ^ c % 2 ^ n

@[simp] theorem lowBits_eq (hold n : Nat) : lowBits hold n = hold % 2 ^ n := by
  rw [lowBits, Nat.one_shiftLeft, Nat.and_two_pow_sub_one_eq_mod]

variable {x c m n : Nat}

theorem bitField_lt (x c n : Nat) : bitField x c n < 2 ^ n :=
  Nat.mod_lt _ (Nat.two_pow_pos n)

@[simp] theorem bitField_zero (x c : Nat) : bitField x c 0 = 0 := by
  rw [bitField, Nat.pow_zero, Nat.mod_one]

theorem bitField_testBit (x c n i : Nat) :
    (bitField x c n).testBit i = (decide (i < n) && x.testBit (c + i)) := by
  rw [bitField, Nat.testBit_mod_two_pow, Nat.testBit_div_two_pow, Nat.add_comm]

/-- The low bits of a field. -/
theorem bitField_mod (within : m ≤ n) : bitField x c n % 2 ^ m = bitField x c m :=
  Nat.mod_mod_of_dvd _ (Nat.pow_dvd_pow 2 within)

/-- The field without its low bits. -/
theorem bitField_shift (within : m ≤ n) :
    bitField x c n >>> m = bitField x (c + m) (n - m) := by
  have split : 2 ^ n = 2 ^ m * 2 ^ (n - m) := by
    rw [← Nat.pow_add, Nat.add_sub_cancel' within]
  rw [Nat.shiftRight_eq_div_pow, bitField, split, Nat.mod_mul_right_div_self,
    Nat.div_div_eq_div_mul, ← Nat.pow_add, bitField]

/-- A field and the one behind it. -/
theorem bitField_add (x c n m : Nat) :
    bitField x c (n + m) = bitField x c n + bitField x (c + n) m <<< n := by
  rw [bitField, Nat.pow_add, Nat.mod_mul, Nat.div_div_eq_div_mul, ← Nat.pow_add,
    Nat.shiftLeft_eq, Nat.mul_comm (2 ^ n)]
  rfl

/-! ## Streams of bytes -/

theorem ofLe_byte {bs : Bytes} {k : Nat} (inside : k < bs.length) :
    bitField (ofLe bs) (8 * k) 8 = (bs[k]).toNat := by
  induction bs generalizing k with
  | nil => exact absurd inside (Nat.not_lt_zero k)
  | cons b bs ih =>
    have byte : b.toNat < 256 := b.toNat_lt
    cases k with
    | zero =>
      show (b.toNat + 256 * ofLe bs) / 2 ^ 0 % 2 ^ 8 = b.toNat
      omega
    | succ k =>
      have further : bitField (ofLe (b :: bs)) (8 * (k + 1)) 8 = bitField (ofLe bs) (8 * k) 8 := by
        have high : (b.toNat + 256 * ofLe bs) / 2 ^ 8 = ofLe bs := by omega
        rw [bitField, bitField, ofLe, Nat.mul_succ, Nat.add_comm (8 * k), Nat.pow_add,
          ← Nat.div_div_eq_div_mul, high]
      rw [further, List.getElem_cons_succ]
      exact ih (Nat.lt_of_succ_lt_succ inside)

/-- The bits that are still to be read: `bits` bits in `hold`, and then bytes. -/
def bitStream (hold bits : Nat) (bs : Bytes) : Nat := hold + ofLe bs <<< bits

variable {hold bits : Nat} {bs : Bytes}

theorem bitStream_hold (held : hold < 2 ^ bits) :
    bitField (bitStream hold bits bs) 0 bits = hold := by
  rw [bitField, bitStream, Nat.pow_zero, Nat.div_one, Nat.shiftLeft_eq, Nat.add_mul_mod_self_right,
    Nat.mod_eq_of_lt held]

theorem bitStream_byte (held : hold < 2 ^ bits) {k : Nat} (inside : k < bs.length) :
    bitField (bitStream hold bits bs) (bits + 8 * k) 8 = (bs[k]).toNat := by
  have high : bitStream hold bits bs / 2 ^ bits = ofLe bs := by
    rw [bitStream, Nat.shiftLeft_eq, Nat.add_mul_div_right _ _ (Nat.two_pow_pos bits),
      Nat.div_eq_of_lt held, Nat.zero_add]
  rw [bitField, Nat.pow_add, ← Nat.div_div_eq_div_mul, high, ← ofLe_byte inside, bitField]

end CheriGzip
