import CheriGzip.Lib.Bytes

/-!
# crc32

The CRC-32 of `crc32.c`, a byte at a time.
-/
namespace CheriGzip.Gzip

/-- `c = c & 1 ? poly ^ (c >> 1) : c >> 1` -/
def crcShift (c : UInt32) : UInt32 :=
  if c &&& 1 = 1 then (0xedb88320 : UInt32) ^^^ (c >>> 1) else c >>> 1

/-- `crc_table[0][n]` -/
def crcTable (n : UInt8) : UInt32 := Nat.repeat crcShift 8 n.toUInt32

/-- `DO1` -/
def crcByte (crc : UInt32) (b : UInt8) : UInt32 :=
  crcTable (crc.toUInt8 ^^^ b) ^^^ (crc >>> 8)

/-- `crc32(crc, buf, len)` of a buffer that is not `Z_NULL`. -/
def crc32 (crc : UInt32) (buf : Bytes) : UInt32 :=
  buf.foldl crcByte (crc ^^^ 0xffffffff) ^^^ 0xffffffff

/-- `crc32(0L, Z_NULL, 0)` -/
def crc32Null : UInt32 := 0

@[simp] theorem crc32_nil (crc : UInt32) : crc32 crc [] = crc := by
  rw [crc32, List.foldl_nil, UInt32.xor_assoc, UInt32.xor_self, UInt32.xor_zero]

/-- A check value can be computed piece by piece. -/
theorem crc32_append (crc : UInt32) (xs ys : Bytes) :
    crc32 crc (xs ++ ys) = crc32 (crc32 crc xs) ys := by
  simp only [crc32, List.foldl_append, UInt32.xor_assoc, UInt32.xor_self, UInt32.xor_zero]

end CheriGzip.Gzip
