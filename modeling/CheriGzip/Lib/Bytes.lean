import Mathlib.Algebra.Group.Int.Defs
import Mathlib.Algebra.GroupWithZero.Nat

/-!
# Little-endian integers

Fixed-width little-endian encodings, as a C struct of unsigned integers lies in memory.
-/
namespace CheriGzip

abbrev Bytes := List UInt8

/-- The `width` low bytes of `v`, lowest first. -/
def le : (width : Nat) → (v : Nat) → Bytes
  | 0, _ => []
  | width + 1, v => UInt8.ofNat v :: le width (v / 256)

/-- The value of a little-endian string of bytes. -/
def ofLe : Bytes → Nat
  | [] => 0
  | b :: bs => b.toNat + 256 * ofLe bs

@[simp] theorem le_length (width v : Nat) : (le width v).length = width := by
  induction width generalizing v with
  | zero => rfl
  | succ width ih => simp [le, ih]

@[simp] theorem ofLe_le (width v : Nat) : ofLe (le width v) = v % 256 ^ width := by
  induction width generalizing v with
  | zero => simp [le, ofLe, Nat.mod_one]
  | succ width ih =>
    rw [le, ofLe, ih, Nat.pow_succ, Nat.mul_comm _ 256, Nat.mod_mul]
    simp

theorem le_ofLe (bs : Bytes) : le bs.length (ofLe bs) = bs := by
  induction bs with
  | nil => rfl
  | cons b bs ih =>
    have byte : b.toNat < 256 := b.toNat_lt
    have low : UInt8.ofNat (b.toNat + 256 * ofLe bs) = b := by
      apply UInt8.toNat_inj.mp
      simp
    have high : (b.toNat + 256 * ofLe bs) / 256 = ofLe bs := by omega
    rw [List.length_cons, ofLe, le, low, high, ih]

/-- Strings of one length are determined by their values. -/
theorem ofLe_inj {as bs : Bytes} (length : as.length = bs.length) (same : ofLe as = ofLe bs) :
    as = bs := by
  rw [← le_ofLe as, ← le_ofLe bs, length, same]

@[simp] theorem le_mod (width v : Nat) : le width (v % 256 ^ width) = le width v := by
  apply ofLe_inj
  · simp
  · simp

/-- `bs[off .. off + len)` -/
def slice (bs : Bytes) (off len : Nat) : Bytes := (bs.drop off).take len

/-- A field with other fields before it and behind it. -/
theorem slice_field {as bs cs : Bytes} {off len : Nat} (front : as.length = off)
    (field : bs.length = len) : slice (as ++ (bs ++ cs)) off len = bs := by
  rw [slice, ← front, List.drop_left, ← field, List.take_left]

theorem slice_last {as bs : Bytes} {off len : Nat} (front : as.length = off)
    (field : bs.length = len) : slice (as ++ bs) off len = bs := by
  rw [slice, ← front, List.drop_left, ← field, List.take_length]

theorem slice_first {bs cs : Bytes} {len : Nat} (field : bs.length = len) :
    slice (bs ++ cs) 0 len = bs := by
  rw [slice, List.drop_zero, ← field, List.take_left]

end CheriGzip
