import CheriGzip.Lib.Bytes

/-!
# Regions of memory

Bytes at an address, and accesses to them that fail outside.
-/
namespace CheriGzip

/-- The bytes from the address `base` on. -/
structure Region where
  base : Int
  bytes : Bytes
  deriving DecidableEq, Repr

namespace Region

/-- `n` bytes at `p` lie inside; no bytes lie anywhere. -/
def Holds (r : Region) (p : Int) (n : Nat) : Prop :=
  n = 0 ∨ r.base ≤ p ∧ p + n ≤ r.base + r.bytes.length

instance (r : Region) (p : Int) (n : Nat) : Decidable (r.Holds p n) := by
  unfold Holds
  infer_instance

/-- The `n` bytes at `p`. -/
def load (r : Region) (p : Int) (n : Nat) : Option Bytes :=
  if r.Holds p n then some ((r.bytes.drop (p - r.base).toNat).take n) else none

/-- The region with `data` at `p`. -/
def store (r : Region) (p : Int) (data : Bytes) : Option Region :=
  if r.Holds p data.length then
    some { r with bytes :=
      r.bytes.take (p - r.base).toNat ++ data ++ r.bytes.drop ((p - r.base).toNat + data.length) }
  else none

variable {r : Region} {k n : Nat} {data : Bytes}

theorem holds_iff (inside : k ≤ r.bytes.length) :
    r.Holds (r.base + k) n ↔ k + n ≤ r.bytes.length := by
  unfold Holds
  omega

theorem load_base (r : Region) (inside : k ≤ r.bytes.length) (n : Nat) :
    r.load (r.base + k) n =
      if k + n ≤ r.bytes.length then some ((r.bytes.drop k).take n) else none := by
  have offset : (r.base + k - r.base).toNat = k := by omega
  simp only [load, holds_iff inside, offset]

theorem store_base (r : Region) (inside : k ≤ r.bytes.length) (data : Bytes) :
    r.store (r.base + k) data =
      if k + data.length ≤ r.bytes.length then
        some ⟨r.base, r.bytes.take k ++ data ++ r.bytes.drop (k + data.length)⟩
      else none := by
  have offset : (r.base + k - r.base).toNat = k := by omega
  simp only [store, holds_iff inside, offset]

/-- A store over the whole region. -/
theorem store_whole (r : Region) {data : Bytes} (all : data.length = r.bytes.length) :
    r.store r.base data = some ⟨r.base, data⟩ := by
  have whole := r.store_base (k := 0) (Nat.zero_le _) data
  simpa [all] using whole

theorem load_whole (r : Region) : r.load r.base r.bytes.length = some r.bytes := by
  have whole := r.load_base (k := 0) (Nat.zero_le _) r.bytes.length
  simpa using whole

end Region

end CheriGzip
