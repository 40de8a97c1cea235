import CheriGzip.Gzip.Crc32
import Mathlib.Tactic.IntervalCases

/-!
# crc32.c

`crc32_little` and `crc32_big`, which take four bytes at a time from the first aligned one on. A
step of the register is linear in exclusive or, so that they compute what the loop over single
bytes does, wherever the buffer lies.
-/
namespace CheriGzip.Crc32

/-- The byte order of the machine. -/
inductive Endian where
  | little
  | big
  deriving DecidableEq, Repr

/-- `ZSWAP32(q)` -/
def zswap32 (q : UInt32) : UInt32 :=
  ((q >>> 24) &&& (0xff : UInt32)) + ((q >>> 8) &&& (0xff00 : UInt32))
    + ((q &&& (0xff00 : UInt32)) <<< 8) + ((q &&& (0xff : UInt32)) <<< 24)

/-- `crc_table[k][n]` for `k < 4`; the tables from 4 on are the `ZSWAP32` of these. -/
def crcTable : Nat → UInt32 → UInt32
  | 0, n => Nat.repeat Gzip.crcShift 8 n
  | k + 1, n => crcTable 0 (crcTable k n &&& 0xff) ^^^ (crcTable k n >>> 8)

/-- The word at four bytes. -/
def word (endian : Endian) (bs : Bytes) : UInt32 :=
  let byte (i : Nat) : UInt32 := (bs.getD i 0).toUInt32
  match endian with
  | .little => byte 0 ||| byte 1 <<< 8 ||| byte 2 <<< 16 ||| byte 3 <<< 24
  | .big => byte 3 ||| byte 2 <<< 8 ||| byte 1 <<< 16 ||| byte 0 <<< 24

/-! ## The loops -/

/-- `while (len && ((ptrdiff_t)buf & 3))` -/
def align (byte : UInt32 → UInt8 → UInt32) : Int → UInt32 → Bytes → UInt32 × Bytes
  | _, c, [] => (c, [])
  | buf, c, b :: bs => if buf % 4 ≠ 0 then align byte (buf + 1) (byte c b) bs else (c, b :: bs)

/-- `while (len >= n)`, with the rounds bounded by the fuel. -/
def strides (n : Nat) (step : UInt32 → Bytes → UInt32) : Nat → UInt32 → Bytes → UInt32 × Bytes
  | 0, c, bs => (c, bs)
  | fuel + 1, c, bs =>
    if n ≤ bs.length then strides n step fuel (step c (bs.take n)) (bs.drop n) else (c, bs)

/-- The four loops of `crc32_little` and `crc32_big`. `DOLIT32` and `DOBIG32` are eight times the
step with four bytes. -/
def crcLoops (byte : UInt32 → UInt8 → UInt32) (four : UInt32 → Bytes → UInt32) (buf : Int)
    (c : UInt32) (bs : Bytes) : UInt32 :=
  let (c, bs) := align byte buf c bs
  let (c, bs) := strides 32 (fun c bs => (strides 4 four 8 c bs).1) bs.length c bs
  let (c, bs) := strides 4 four bs.length c bs
  bs.foldl byte c

def litByte (c : UInt32) (b : UInt8) : UInt32 :=
  crcTable 0 ((c ^^^ b.toUInt32) &&& 0xff) ^^^ (c >>> 8)

/-- `DOLIT4` -/
def doLit4 (c : UInt32) (bs : Bytes) : UInt32 :=
  let c := c ^^^ word .little bs
  crcTable 3 (c &&& 0xff) ^^^ crcTable 2 ((c >>> 8) &&& 0xff) ^^^ crcTable 1 ((c >>> 16) &&& 0xff)
    ^^^ crcTable 0 (c >>> 24)

def crc32Little (crc : UInt64) (buf : Int) (bs : Bytes) : UInt64 :=
  (~~~ crcLoops litByte doLit4 buf (~~~ crc.toUInt32) bs).toUInt64

def bigByte (c : UInt32) (b : UInt8) : UInt32 :=
  zswap32 (crcTable 0 ((c >>> 24) ^^^ b.toUInt32)) ^^^ (c <<< 8)

/-- `DOBIG4` -/
def doBig4 (c : UInt32) (bs : Bytes) : UInt32 :=
  let c := c ^^^ word .big bs
  zswap32 (crcTable 0 (c &&& 0xff)) ^^^ zswap32 (crcTable 1 ((c >>> 8) &&& 0xff))
    ^^^ zswap32 (crcTable 2 ((c >>> 16) &&& 0xff)) ^^^ zswap32 (crcTable 3 (c >>> 24))

def crc32Big (crc : UInt64) (buf : Int) (bs : Bytes) : UInt64 :=
  (zswap32 (~~~ crcLoops bigByte doBig4 buf (~~~ zswap32 crc.toUInt32) bs)).toUInt64

/-- `zlib_crc32(crc, buf, len)` with the `len` bytes at `buf`. -/
def zlibCrc32 (endian : Endian) (crc : UInt64) (buf : Int) (bs : Bytes) : UInt64 :=
  if buf = 0 then 0
  else
    match endian with
    | .little => crc32Little crc buf bs
    | .big => crc32Big crc buf bs

example :
    zlibCrc32 .little 0 1 [0x31, 0x32, 0x33, 0x34, 0x35, 0x36, 0x37, 0x38, 0x39] = 0xcbf43926 := by
  decide +kernel

/-! ## The loops go over the bytes one by one -/

section

variable {byte : UInt32 → UInt8 → UInt32}

theorem align_foldl (buf : Int) (c : UInt32) (bs : Bytes) :
    (align byte buf c bs).2.foldl byte (align byte buf c bs).1 = bs.foldl byte c := by
  induction bs generalizing buf c with
  | nil => rfl
  | cons b bs ih =>
    rw [align]
    split
    · exact ih (buf + 1) (byte c b)
    · rfl

variable {n : Nat} {step : UInt32 → Bytes → UInt32}

theorem strides_foldl (steps : ∀ c chunk, chunk.length = n → step c chunk = chunk.foldl byte c)
    (fuel : Nat) (c : UInt32) (bs : Bytes) :
    (strides n step fuel c bs).2.foldl byte (strides n step fuel c bs).1 = bs.foldl byte c := by
  induction fuel generalizing c bs with
  | zero => rfl
  | succ fuel ih =>
    rw [strides]
    split
    next long =>
      have chunk : (bs.take n).length = n := List.length_take_of_le long
      rw [ih, steps c _ chunk, ← List.foldl_append, List.take_append_drop]
    · rfl

/-- As many rounds as there are chunks leave nothing. -/
theorem strides_rest (fuel : Nat) (c : UInt32) (bs : Bytes) (exactly : bs.length = n * fuel) :
    (strides n step fuel c bs).2 = [] := by
  induction fuel generalizing c bs with
  | zero => exact List.eq_nil_of_length_eq_zero exactly
  | succ fuel ih =>
    have long : n ≤ bs.length := by
      rw [exactly]
      exact Nat.le_mul_of_pos_right n (Nat.succ_pos fuel)
    rw [strides, if_pos long]
    apply ih
    rw [List.length_drop, exactly, Nat.mul_succ, Nat.add_sub_cancel]

theorem crcLoops_foldl {four : UInt32 → Bytes → UInt32}
    (fours : ∀ c chunk, chunk.length = 4 → four c chunk = chunk.foldl byte c) (buf : Int)
    (c : UInt32) (bs : Bytes) : crcLoops byte four buf c bs = bs.foldl byte c := by
  have eights (c : UInt32) (chunk : Bytes) (length : chunk.length = 32) :
      (strides 4 four 8 c chunk).1 = chunk.foldl byte c := by
    have whole := strides_foldl fours 8 c chunk
    rwa [strides_rest 8 c chunk length] at whole
  rw [crcLoops]
  simp only
  rw [strides_foldl fours, strides_foldl eights, align_foldl]

end

/-! ## A step of the register is linear -/

theorem crcShift_xor (a b : UInt32) :
    Gzip.crcShift (a ^^^ b) = Gzip.crcShift a ^^^ Gzip.crcShift b := by
  have low (c : UInt32) : c &&& 1 = 1 ↔ c.toBitVec[0] = true := by
    rw [← UInt32.toBitVec_inj]
    constructor
    · intro same
      have bit := congrArg (fun v : BitVec 32 => v[0]) same
      simpa using bit
    · intro bit
      ext i hi
      interval_cases i <;> simp [bit]
  have bit : (a ^^^ b).toBitVec[0] = (a.toBitVec[0] ^^ b.toBitVec[0]) := by simp
  simp only [Gzip.crcShift, low, bit, UInt32.shiftRight_xor]
  generalize (0xedb88320 : UInt32) = poly
  cases a.toBitVec[0] <;> cases b.toBitVec[0] <;> simp
  · ac_rfl
  · ac_rfl
  · have twice : poly ^^^ poly = 0 := UInt32.xor_self
    calc a >>> 1 ^^^ b >>> 1
        = (poly ^^^ poly) ^^^ (a >>> 1 ^^^ b >>> 1) := by rw [twice, UInt32.zero_xor]
      _ = poly ^^^ a >>> 1 ^^^ (poly ^^^ b >>> 1) := by ac_rfl

theorem crcTable_xor (a b : UInt32) : crcTable 0 (a ^^^ b) = crcTable 0 a ^^^ crcTable 0 b := by
  have rounds (n : Nat) : Nat.repeat Gzip.crcShift n (a ^^^ b)
      = Nat.repeat Gzip.crcShift n a ^^^ Nat.repeat Gzip.crcShift n b := by
    induction n with
    | zero => rfl
    | succ n ih => rw [Nat.repeat, ih, crcShift_xor, Nat.repeat, Nat.repeat]
  simp only [crcTable]
  exact rounds 8

theorem and_xor (a b mask : UInt32) : (a ^^^ b) &&& mask = (a &&& mask) ^^^ (b &&& mask) := by
  apply UInt32.toBitVec_inj.mp
  ext i hi
  simp only [UInt32.toBitVec_and, UInt32.toBitVec_xor, BitVec.getElem_and, BitVec.getElem_xor,
    Bool.and_xor_distrib_right]

/-- The register after eight of its bits. -/
def crcStep (c : UInt32) : UInt32 := crcTable 0 (c &&& 0xff) ^^^ (c >>> 8)

theorem crcStep_xor (a b : UInt32) : crcStep (a ^^^ b) = crcStep a ^^^ crcStep b := by
  rw [crcStep, and_xor, crcTable_xor, UInt32.shiftRight_xor, crcStep, crcStep]
  ac_rfl

theorem mask_byte (x : Nat) : x &&& 255 = x % 256 := Nat.and_two_pow_sub_one_eq_mod x 8

theorem crcStep_high {c : UInt32} (low : c &&& 0xff = 0) : crcStep c = c >>> 8 := by
  have zero : crcTable 0 0 = 0 := by decide +kernel
  rw [crcStep, low, zero, UInt32.zero_xor]

/-- A byte that is not at the end yet moves down. -/
theorem crcStep_shifted (b : UInt8) : crcStep (b.toUInt32 <<< 8) = b.toUInt32 ∧
    crcStep (b.toUInt32 <<< 16) = b.toUInt32 <<< 8 ∧
    crcStep (b.toUInt32 <<< 24) = b.toUInt32 <<< 16 := by
  have small := b.toNat_lt
  refine ⟨?_, ?_, ?_⟩
  all_goals
    rw [crcStep_high]
    · apply UInt32.toNat_inj.mp
      simp [Nat.shiftLeft_eq, Nat.shiftRight_eq_div_pow]
      omega
    · apply UInt32.toNat_inj.mp
      simp only [UInt32.toNat_and, UInt32.toNat_shiftLeft, UInt8.toNat_toUInt32, Nat.shiftLeft_eq,
        UInt32.reduceToNat, Nat.reduceMod, Nat.reducePow, mask_byte]
      omega

theorem byte_masked (b : UInt8) : b.toUInt32 &&& (0xff : UInt32) = b.toUInt32 := by
  apply UInt32.toNat_inj.mp
  simp [mask_byte]

theorem byte_gone (b : UInt8) : b.toUInt32 >>> 8 = 0 := by
  apply UInt32.toNat_inj.mp
  simp only [UInt32.toNat_shiftRight, UInt8.toNat_toUInt32, Nat.shiftRight_eq_div_pow]
  exact Nat.div_eq_of_lt b.toNat_lt

theorem crcStep_byte (b : UInt8) : crcStep b.toUInt32 = crcTable 0 b.toUInt32 := by
  rw [crcStep, byte_masked, byte_gone, UInt32.xor_zero]

/-- The table `k` is for a byte with `k` bytes of zeros behind it. -/
theorem crcTable_succ (k : Nat) (n : UInt32) : crcTable (k + 1) n = crcStep (crcTable k n) := by
  simp only [crcTable, crcStep]

/-- A byte of the register, without what is above it. -/
theorem toUInt8_toUInt32 (c : UInt32) : c.toUInt8.toUInt32 = c &&& (0xff : UInt32) := by
  apply UInt32.toNat_inj.mp
  simp [mask_byte]

/-- The register byte by byte. -/
theorem split_bytes (c : UInt32) :
    c = (c &&& (0xff : UInt32)) ^^^ ((c >>> 8) &&& (0xff : UInt32)) <<< 8
      ^^^ ((c >>> 16) &&& (0xff : UInt32)) <<< 16 ^^^ (c >>> 24) <<< 24 := by
  apply UInt32.toBitVec_inj.mp
  ext i hi
  interval_cases i <;> simp

theorem top_byte (c : UInt32) : (c >>> 24) &&& (0xff : UInt32) = c >>> 24 := by
  have small := c.toNat_lt
  apply UInt32.toNat_inj.mp
  simp [mask_byte, Nat.shiftRight_eq_div_pow]
  omega

theorem word_little (b₀ b₁ b₂ b₃ : UInt8) : word .little [b₀, b₁, b₂, b₃] =
    b₀.toUInt32 ^^^ b₁.toUInt32 <<< 8 ^^^ b₂.toUInt32 <<< 16 ^^^ b₃.toUInt32 <<< 24 := by
  apply UInt32.toBitVec_inj.mp
  ext i hi
  interval_cases i <;> simp [word]

/-! ## Little endian -/

theorem litByte_eq (c : UInt32) (b : UInt8) : litByte c b = crcStep (c ^^^ b.toUInt32) := by
  rw [litByte, crcStep, UInt32.shiftRight_xor, byte_gone, UInt32.xor_zero]

/-- Four bytes of the register at once. -/
theorem crcStep_four (c : UInt32) : crcStep (crcStep (crcStep (crcStep c))) =
    crcTable 3 (c &&& (0xff : UInt32)) ^^^ crcTable 2 ((c >>> 8) &&& (0xff : UInt32))
      ^^^ crcTable 1 ((c >>> 16) &&& (0xff : UInt32)) ^^^ crcTable 0 (c >>> 24) := by
  obtain ⟨b₀, first⟩ : ∃ b : UInt8, c &&& (0xff : UInt32) = b.toUInt32 :=
    ⟨_, (toUInt8_toUInt32 c).symm⟩
  obtain ⟨b₁, second⟩ : ∃ b : UInt8, (c >>> 8) &&& (0xff : UInt32) = b.toUInt32 :=
    ⟨_, (toUInt8_toUInt32 _).symm⟩
  obtain ⟨b₂, third⟩ : ∃ b : UInt8, (c >>> 16) &&& (0xff : UInt32) = b.toUInt32 :=
    ⟨_, (toUInt8_toUInt32 _).symm⟩
  obtain ⟨b₃, fourth⟩ : ∃ b : UInt8, c >>> 24 = b.toUInt32 :=
    ⟨_, (top_byte c).symm.trans (toUInt8_toUInt32 _).symm⟩
  have split := split_bytes c
  rw [first, second, third, fourth] at split
  rw [first, second, third, fourth, split]
  simp only [crcStep_xor, crcStep_shifted, crcStep_byte, crcTable_succ]

theorem doLit4_foldl (c : UInt32) (bs : Bytes) (length : bs.length = 4) :
    doLit4 c bs = bs.foldl litByte c := by
  obtain ⟨b₀, b₁, b₂, b₃, rfl⟩ : ∃ b₀ b₁ b₂ b₃, bs = [b₀, b₁, b₂, b₃] := by
    match bs, length with
    | [b₀, b₁, b₂, b₃], _ => exact ⟨b₀, b₁, b₂, b₃, rfl⟩
  rw [doLit4, ← crcStep_four, word_little]
  simp only [List.foldl_cons, List.foldl_nil, litByte_eq, crcStep_xor, crcStep_shifted]
  ac_rfl

/-! ## Big endian -/

theorem eq_of_bits {a b : UInt32}
    (bits : ∀ i < 32, a.toBitVec.getLsbD i = b.toBitVec.getLsbD i) : a = b :=
  UInt32.toBitVec_inj.mp (BitVec.eq_of_getLsbD_eq bits)

/-- A sum without a carry. -/
theorem add_eq_or {a b : UInt32}
    (apart : ∀ i < 32, (a.toBitVec.getLsbD i && b.toBitVec.getLsbD i) = false) :
    a + b = a ||| b := by
  apply UInt32.toBitVec_inj.mp
  apply BitVec.add_eq_or_of_and_eq_zero
  apply BitVec.eq_of_getLsbD_eq
  intro i within
  rw [BitVec.getLsbD_and, apart i within, BitVec.getLsbD_zero]

/-- The bits of a byte stay in order. -/
theorem zswap32_bit (q : UInt32) {i : Nat} (within : i < 32) :
    (zswap32 q).toBitVec.getLsbD i = q.toBitVec.getLsbD (24 - 8 * (i / 8) + i % 8) := by
  rw [zswap32, add_eq_or (a := (q >>> 24) &&& (0xff : UInt32)),
    add_eq_or (b := (q &&& (0xff00 : UInt32)) <<< 8), add_eq_or]
  · interval_cases i <;> simp
  all_goals
    intro i within
    interval_cases i <;> simp

theorem zswap32_getElem (q : UInt32) {i : Nat} (within : i < 32) :
    (zswap32 q).toBitVec[i] = q.toBitVec.getLsbD (24 - 8 * (i / 8) + i % 8) :=
  zswap32_bit q within

theorem zswap32_xor (a b : UInt32) : zswap32 (a ^^^ b) = zswap32 a ^^^ zswap32 b := by
  apply eq_of_bits
  intro i within
  simp only [UInt32.toBitVec_xor, BitVec.getLsbD_xor, zswap32_bit _ within]

theorem zswap32_not (a : UInt32) : zswap32 (~~~a) = ~~~zswap32 a := by
  apply eq_of_bits
  intro i within
  have inside : 24 - 8 * (i / 8) + i % 8 < 32 := by omega
  simp only [UInt32.toBitVec_not, BitVec.getLsbD_not, zswap32_bit _ within, within, inside]

theorem zswap32_zswap32 (a : UInt32) : zswap32 (zswap32 a) = a := by
  apply eq_of_bits
  intro i within
  have inside : 24 - 8 * (i / 8) + i % 8 < 32 := by omega
  have back : 24 - 8 * ((24 - 8 * (i / 8) + i % 8) / 8) + (24 - 8 * (i / 8) + i % 8) % 8 = i := by
    omega
  rw [zswap32_bit _ within, zswap32_bit _ inside, back]

theorem zswap32_shift (c : UInt32) : zswap32 (c >>> 8) = zswap32 c <<< 8 := by
  apply eq_of_bits
  intro i within
  rw [zswap32_bit _ within]
  interval_cases i <;> simp [zswap32_getElem]

/-- The bytes of the swapped register. -/
theorem zswap32_bytes (c : UInt32) : zswap32 c &&& (0xff : UInt32) = c >>> 24 ∧
    (zswap32 c >>> 8) &&& (0xff : UInt32) = (c >>> 16) &&& (0xff : UInt32) ∧
    (zswap32 c >>> 16) &&& (0xff : UInt32) = (c >>> 8) &&& (0xff : UInt32) ∧
    zswap32 c >>> 24 = c &&& (0xff : UInt32) := by
  refine ⟨?_, ?_, ?_, ?_⟩
  all_goals
    apply eq_of_bits
    intro i within
    interval_cases i <;> simp [zswap32_getElem]

theorem word_big (b₀ b₁ b₂ b₃ : UInt8) :
    word .big [b₀, b₁, b₂, b₃] = zswap32 (word .little [b₀, b₁, b₂, b₃]) := by
  apply eq_of_bits
  intro i within
  rw [zswap32_bit _ within]
  interval_cases i <;> simp [word]

theorem bigByte_zswap32 (c : UInt32) (b : UInt8) :
    bigByte (zswap32 c) b = zswap32 (litByte c b) := by
  have masked : (c ^^^ b.toUInt32) &&& (0xff : UInt32)
      = (c &&& (0xff : UInt32)) ^^^ b.toUInt32 := by
    rw [and_xor, byte_masked]
  rw [bigByte, litByte, zswap32_xor, zswap32_shift, (zswap32_bytes c).2.2.2, masked]

theorem doBig4_zswap32 (c : UInt32) (b₀ b₁ b₂ b₃ : UInt8) :
    doBig4 (zswap32 c) [b₀, b₁, b₂, b₃] = zswap32 (doLit4 c [b₀, b₁, b₂, b₃]) := by
  obtain ⟨first, second, third, fourth⟩ := zswap32_bytes (c ^^^ word .little [b₀, b₁, b₂, b₃])
  simp only [doBig4, doLit4, word_big, ← zswap32_xor, first, second, third, fourth]
  congr 1
  ac_rfl

theorem foldl_bigByte (c : UInt32) (bs : Bytes) :
    bs.foldl bigByte (zswap32 c) = zswap32 (bs.foldl litByte c) := by
  induction bs generalizing c with
  | nil => rfl
  | cons b bs ih => rw [List.foldl_cons, List.foldl_cons, bigByte_zswap32, ih]

theorem doBig4_foldl (c : UInt32) (bs : Bytes) (length : bs.length = 4) :
    doBig4 c bs = bs.foldl bigByte c := by
  have swapped : zswap32 (zswap32 c) = c := zswap32_zswap32 c
  have little := doLit4_foldl (zswap32 c) bs length
  match bs, length with
  | [b₀, b₁, b₂, b₃], _ =>
    rw [← swapped, doBig4_zswap32, foldl_bigByte, ← little]

/-! ## Both -/

theorem litByte_crcByte (c : UInt32) (b : UInt8) : litByte c b = Gzip.crcByte c b := by
  have index : (c ^^^ b.toUInt32) &&& (0xff : UInt32) = (c.toUInt8 ^^^ b).toUInt32 := by
    rw [← toUInt8_toUInt32, UInt32.toUInt8_xor, UInt8.toUInt8_toUInt32]
  rw [litByte, index, Gzip.crcByte, Gzip.crcTable, crcTable]

/-- The loops over words compute what the loop over bytes does, wherever the buffer lies. -/
theorem zlibCrc32_eq (endian : Endian) (crc : UInt64) {buf : Int} (some : buf ≠ 0) (bs : Bytes) :
    zlibCrc32 endian crc buf bs = (Gzip.crc32 crc.toUInt32 bs).toUInt64 := by
  have bytes : bs.foldl litByte (~~~ crc.toUInt32) = bs.foldl Gzip.crcByte (~~~ crc.toUInt32) := by
    congr 1
    funext c b
    exact litByte_crcByte c b
  have ones (c : UInt32) : c ^^^ 0xffffffff = ~~~ c := UInt32.xor_neg_one
  rw [Gzip.crc32, ones, ones, ← bytes]
  cases endian with
  | little =>
    simp only [zlibCrc32, if_neg some]
    rw [crc32Little, crcLoops_foldl doLit4_foldl]
  | big =>
    simp only [zlibCrc32, if_neg some]
    rw [crc32Big, crcLoops_foldl doBig4_foldl, ← zswap32_not, foldl_bigByte, ← zswap32_not,
      zswap32_zswap32]

end CheriGzip.Crc32
