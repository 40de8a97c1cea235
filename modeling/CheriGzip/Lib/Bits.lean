import CheriGzip.Lib.Bytes

/-!
# Bits of numbers and of bytes

Numbers of a fixed width as lists of bits, bytes as eight bits in either order, and the packing
of bits into bytes.
-/
namespace CheriGzip

/-- The low `width` bits of `v`, the highest one first. -/
def msb : (width : Nat) → (v : Nat) → List Bool
  | 0, _ => []
  | width + 1, v => v.testBit width :: msb width v

/-- The low `width` bits of `v`, the lowest one first. -/
def lsb : (width : Nat) → (v : Nat) → List Bool
  | 0, _ => []
  | width + 1, v => v.testBit 0 :: lsb width (v / 2)

@[simp] theorem msb_length (width v : Nat) : (msb width v).length = width := by
  induction width with
  | zero => rfl
  | succ width ih => rw [msb, List.length_cons, ih]

@[simp] theorem lsb_length (width v : Nat) : (lsb width v).length = width := by
  induction width generalizing v with
  | zero => rfl
  | succ width ih => rw [lsb, List.length_cons, ih]

/-- One more bit of a number read from the highest bit on. -/
theorem div_pow_step (v width : Nat) :
    2 * (v / 2 ^ (width + 1)) + (v.testBit width).toNat = v / 2 ^ width := by
  have halves : v / 2 ^ (width + 1) = v / 2 ^ width / 2 := by
    rw [Nat.pow_succ, Nat.div_div_eq_div_mul]
  rw [halves, Nat.testBit_eq_decide_div_mod_eq]
  cases low : decide (v / 2 ^ width % 2 = 1) with
  | false =>
    have even := of_decide_eq_false low
    simp only [Bool.toNat_false]
    omega
  | true =>
    have odd := of_decide_eq_true low
    simp only [Bool.toNat_true]
    omega

/-! ## Bytes -/

/-- The bits of bytes, in each byte the highest one first. -/
def msbBits (bs : Bytes) : List Bool := bs.flatMap fun b => msb 8 b.toNat

/-- The bits of bytes, in each byte the lowest one first. -/
def lsbBits (bs : Bytes) : List Bool := bs.flatMap fun b => lsb 8 b.toNat

theorem msbBits_cons (b : UInt8) (bs : Bytes) : msbBits (b :: bs) = msb 8 b.toNat ++ msbBits bs :=
  List.flatMap_cons

theorem lsbBits_cons (b : UInt8) (bs : Bytes) : lsbBits (b :: bs) = lsb 8 b.toNat ++ lsbBits bs :=
  List.flatMap_cons

theorem lsbBits_length (bs : Bytes) : (lsbBits bs).length = 8 * bs.length := by
  induction bs with
  | nil => rfl
  | cons b bs ih =>
    rw [lsbBits_cons, List.length_append, lsb_length, ih, List.length_cons]
    omega

theorem lsbBits_append (as bs : Bytes) : lsbBits (as ++ bs) = lsbBits as ++ lsbBits bs :=
  List.flatMap_append

theorem lsb_getElem? (width v i : Nat) :
    (lsb width v)[i]? = if i < width then some (v.testBit i) else none := by
  induction width generalizing v i with
  | zero => rfl
  | succ width ih =>
    cases i with
    | zero => rfl
    | succ i =>
      rw [lsb, List.getElem?_cons_succ, ih, Nat.testBit_succ]
      simp only [Nat.succ_lt_succ_iff]

/-- A bit of bytes is a bit of one of them. -/
theorem lsbBits_getElem? (bs : Bytes) (i : Nat) :
    (lsbBits bs)[i]? = bs[i / 8]?.map fun b => b.toNat.testBit (i % 8) := by
  induction bs generalizing i with
  | nil => rfl
  | cons b bs ih =>
    rw [lsbBits_cons]
    by_cases first : i < 8
    · rw [List.getElem?_append_left (by rwa [lsb_length]), lsb_getElem?, if_pos first,
        Nat.div_eq_of_lt first, Nat.mod_eq_of_lt first]
      rfl
    · have byte : i / 8 = (i - 8) / 8 + 1 := by omega
      have bit : i % 8 = (i - 8) % 8 := by omega
      rw [List.getElem?_append_right (by rw [lsb_length]; omega), lsb_length, ih, byte, bit,
        List.getElem?_cons_succ]

/-- Eight bits from the front, with zeros where there are no more. -/
def octet (bits : List Bool) : List Bool := (bits ++ List.replicate 8 false).take 8

/-- The byte with these bits, the highest one first. -/
def byteMsb (bits : List Bool) : UInt8 :=
  UInt8.ofNat ((octet bits).foldl (fun v b => 2 * v + b.toNat) 0)

/-- The byte with these bits, the lowest one first. -/
def byteLsb (bits : List Bool) : UInt8 :=
  UInt8.ofNat ((octet bits).foldr (fun b v => 2 * v + b.toNat) 0)

theorem octet_eight (bits : List Bool) :
    ∃ a b c d e f g h, octet bits = [a, b, c, d, e, f, g, h] := by
  have length : (octet bits).length = 8 := by
    simp only [octet, List.length_take, List.length_append, List.length_replicate]
    omega
  match octet bits, length with
  | [a, b, c, d, e, f, g, h], _ => exact ⟨a, b, c, d, e, f, g, h, rfl⟩

theorem msb_byteMsb (bits : List Bool) : msb 8 (byteMsb bits).toNat = octet bits := by
  have all : ∀ a b c d e f g h : Bool,
      msb 8 (UInt8.ofNat ([a, b, c, d, e, f, g, h].foldl (fun v b => 2 * v + b.toNat) 0)).toNat =
        [a, b, c, d, e, f, g, h] := by
    decide
  obtain ⟨a, b, c, d, e, f, g, h, eight⟩ := octet_eight bits
  rw [byteMsb, eight]
  exact all a b c d e f g h

theorem lsb_byteLsb (bits : List Bool) : lsb 8 (byteLsb bits).toNat = octet bits := by
  have all : ∀ a b c d e f g h : Bool,
      lsb 8 (UInt8.ofNat ([a, b, c, d, e, f, g, h].foldr (fun b v => 2 * v + b.toNat) 0)).toNat =
        [a, b, c, d, e, f, g, h] := by
    decide
  obtain ⟨a, b, c, d, e, f, g, h, eight⟩ := octet_eight bits
  rw [byteLsb, eight]
  exact all a b c d e f g h

/-- `n` bytes from bits, by how one byte is made. -/
def packed (byte : List Bool → UInt8) : Nat → List Bool → Bytes
  | 0, _ => []
  | n + 1, bits => byte bits :: packed byte n (bits.drop 8)

/-- Packing and unpacking by the same order gives the bits back, with zeros behind. -/
theorem packed_bits {byte : List Bool → UInt8} {bitsOf : UInt8 → List Bool}
    (back : ∀ bits, bitsOf (byte bits) = octet bits) (n : Nat) (bits : List Bool)
    (fits : bits.length ≤ 8 * n) :
    (packed byte n bits).flatMap bitsOf =
      bits ++ List.replicate (8 * n - bits.length) false := by
  induction n generalizing bits with
  | zero =>
    have none : bits = [] := List.length_eq_zero_iff.mp (by omega)
    rw [none]
    rfl
  | succ n ih =>
    have rest := ih (bits.drop 8) (by rw [List.length_drop]; omega)
    rw [packed, List.flatMap_cons, back, rest, octet]
    by_cases long : 8 ≤ bits.length
    · rw [List.take_append_of_le_length long, ← List.append_assoc, List.take_append_drop,
        List.length_drop]
      congr 2
      omega
    · have short : bits.drop 8 = [] := List.drop_eq_nil_of_le (by omega)
      rw [short, List.nil_append, List.length_nil, List.take_append, List.take_of_length_le (by omega),
        List.append_assoc, List.take_replicate, List.replicate_append_replicate]
      congr 2
      omega

/-- The bytes that hold the bits, the last one filled up with zeros. -/
def packMsb (bits : List Bool) : Bytes := packed byteMsb ((bits.length + 7) / 8) bits

def packLsb (bits : List Bool) : Bytes := packed byteLsb ((bits.length + 7) / 8) bits

theorem msbBits_packMsb (bits : List Bool) :
    ∃ k, msbBits (packMsb bits) = bits ++ List.replicate k false :=
  ⟨_, @packed_bits byteMsb (fun b => msb 8 b.toNat) msb_byteMsb _ bits (by omega)⟩

/-- Whole bytes need no zeros. -/
theorem lsbBits_packLsb (bits : List Bool) (whole : bits.length % 8 = 0) :
    lsbBits (packLsb bits) = bits := by
  have bytes := @packed_bits byteLsb (fun b => lsb 8 b.toNat) lsb_byteLsb
    ((bits.length + 7) / 8) bits (by omega)
  have full : 8 * ((bits.length + 7) / 8) - bits.length = 0 := by omega
  rw [full, List.replicate_zero, List.append_nil] at bytes
  exact bytes

end CheriGzip
