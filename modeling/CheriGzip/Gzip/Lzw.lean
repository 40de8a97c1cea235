import CheriGzip.Lib.Bits

/-!
# The .Z format

LZW as `compress` writes it: codes for strings, a table that grows by one string with each code,
and groups of eight codes of one size. The padding behind a group may be anything.
-/
namespace CheriGzip.Lzw

/-- What the third byte of the header says. -/
structure Params where
  maxbits : Nat
  block : Bool
  least : 12 ≤ maxbits
  most : maxbits ≤ 16

/-- The third byte. -/
def Params.byte (p : Params) : UInt8 :=
  UInt8.ofNat (p.maxbits + if p.block then 0x80 else 0)

/-- The first code that is not a single byte. -/
def Params.first (p : Params) : Nat := if p.block then 257 else 256

/-- The largest table entry before the codes of this size have to grow. -/
def Params.maxcode (p : Params) (bits : Nat) : Nat :=
  if bits = p.maxbits then 2 ^ p.maxbits else 2 ^ bits - 1

/-- The strings of the table, the string before, and the size of the next code. -/
structure Dict where
  table : List Bytes
  prev : Option Bytes
  bits : Nat

def Dict.start : Dict := ⟨[], none, 9⟩

/-- The code of the next string. -/
def Dict.next (p : Params) (d : Dict) : Nat := p.first + d.table.length

/-- The string of a code that is in the table. -/
def spell (p : Params) (table : List Bytes) (code : Nat) : Option Bytes :=
  if code < 256 then some [UInt8.ofNat code]
  else if code < p.first then none
  else table[code - p.first]?

/-- The table with one more string, as long as there is a code for it. -/
def Dict.grow (p : Params) (d : Dict) (s : Bytes) : List Bytes :=
  match d.prev with
  | some prev => if d.next p < 2 ^ p.maxbits then d.table ++ [prev ++ s.take 1] else d.table
  | none => d.table

/-- The string of a code: in the table, or the one that is about to go there. -/
def Dict.string (p : Params) (d : Dict) (code : Nat) : Option Bytes :=
  if code = d.next p ∧ code < 2 ^ p.maxbits then d.prev.map fun prev => prev ++ prev.take 1
  else spell p d.table code

/-- Behind a string the table has grown, and the codes where they have to. -/
def Dict.after (p : Params) (d : Dict) (s : Bytes) : Dict where
  table := d.grow p s
  prev := some s
  bits := if p.first + (d.grow p s).length > p.maxcode d.bits then d.bits + 1 else d.bits

/-- The bits of a sequence of codes and the bytes they stand for, with the `k`-th code of a
group to come. -/
inductive Stream (p : Params) : Dict → Nat → List Nat → List Bool → Bytes → Prop where
  /-- The last group is cut to whole bytes. -/
  | done {d : Dict} {k : Nat} (pad : List Bool)
      (short : pad.length < 8) (whole : (k * d.bits + pad.length) % 8 = 0) :
      Stream p d k [] pad []
  /-- A code in the middle of its group, or the last one there. -/
  | code {d : Dict} {k code : Nat} {codes : List Nat} {bits : List Bool} {s out : Bytes}
      (plain : ¬ (p.block = true ∧ code = 256)) (string : d.string p code = some s)
      (same : (d.after p s).bits = d.bits)
      (rest : Stream p (d.after p s) ((k + 1) % 8) codes bits out) :
      Stream p d k (code :: codes) (lsb d.bits code ++ bits) (s ++ out)
  /-- A code behind which the size changes; its group is filled up. -/
  | grow {d : Dict} {k code : Nat} {codes : List Nat} {bits : List Bool} {s out : Bytes}
      (plain : ¬ (p.block = true ∧ code = 256)) (string : d.string p code = some s)
      (larger : (d.after p s).bits = d.bits + 1) (pad : List Bool)
      (filled : pad.length = (7 - k) * d.bits)
      (rest : Stream p (d.after p s) 0 codes bits out) :
      Stream p d k (code :: codes) (lsb d.bits code ++ (pad ++ bits)) (s ++ out)
  /-- The last code of all, when its group is cut although the size changes. -/
  | cut {d : Dict} {k code : Nat} {s : Bytes} (plain : ¬ (p.block = true ∧ code = 256))
      (string : d.string p code = some s) (larger : (d.after p s).bits = d.bits + 1)
      (pad : List Bool) (short : pad.length < 8)
      (whole : ((k + 1) * d.bits + pad.length) % 8 = 0) :
      Stream p d k [code] (lsb d.bits code ++ pad) s
  /-- `CLEAR`; its group is filled up. -/
  | clear {d : Dict} {k : Nat} {codes : List Nat} {bits : List Bool} {out : Bytes}
      (block : p.block = true) (pad : List Bool) (filled : pad.length = (7 - k) * d.bits)
      (rest : Stream p .start 0 codes bits out) :
      Stream p d k (256 :: codes) (lsb d.bits 256 ++ (pad ++ bits)) out

/-- A .Z file of these codes, and what it decodes to. -/
structure File (p : Params) (codes : List Nat) (file out : Bytes) : Prop where
  header : file.take 3 = [0x1f, 0x9d, p.byte]
  body : Stream p .start 0 codes (lsbBits (file.drop 3)) out

/-! ## The dictionary -/

variable {p : Params}

theorem Params.first_le (p : Params) : 256 ≤ p.first ∧ p.first ≤ 257 := by
  unfold Params.first
  split <;> omega

theorem Params.maxcode_le (p : Params) {bits : Nat} (most : bits ≤ p.maxbits) :
    p.maxcode bits ≤ 2 ^ p.maxbits := by
  have power : 2 ^ bits ≤ 2 ^ p.maxbits := Nat.pow_le_pow_right (by omega) most
  unfold Params.maxcode
  split
  next => exact Nat.le_refl _
  next => exact Nat.le_trans (Nat.sub_le _ 1) power

theorem spell_byte {table : List Bytes} {code : Nat} (byte : code < 256) :
    spell p table code = some [UInt8.ofNat code] := if_pos byte

/-- The code of an entry. -/
theorem spell_entry {table : List Bytes} {code : Nat} {s : Bytes} (large : 256 ≤ code) :
    spell p table code = some s ↔ p.first ≤ code ∧ table[code - p.first]? = some s := by
  rw [spell, if_neg (by omega)]
  by_cases below : code < p.first
  · rw [if_pos below]
    constructor
    · intro none
      cases none
    · rintro ⟨above, -⟩
      omega
  · rw [if_neg below]
    exact ⟨fun entry => ⟨by omega, entry⟩, fun ⟨_, entry⟩ => entry⟩

theorem spell_lt {table : List Bytes} {code : Nat} {s : Bytes}
    (spelled : spell p table code = some s) : code < p.first + table.length := by
  have first := p.first_le
  rcases Nat.lt_or_ge code 256 with byte | large
  · omega
  · obtain ⟨above, entry⟩ := (spell_entry large).mp spelled
    obtain ⟨inside, -⟩ := List.getElem?_eq_some_iff.mp entry
    omega

/-- A string stays in the table when the table grows. -/
theorem spell_append {table more : List Bytes} {code : Nat} {s : Bytes}
    (spelled : spell p table code = some s) : spell p (table ++ more) code = some s := by
  rcases Nat.lt_or_ge code 256 with byte | large
  · rw [spell_byte byte] at spelled ⊢
    exact spelled
  · obtain ⟨above, entry⟩ := (spell_entry large).mp spelled
    obtain ⟨inside, -⟩ := List.getElem?_eq_some_iff.mp entry
    refine (spell_entry large).mpr ⟨above, ?_⟩
    rw [List.getElem?_append_left inside, entry]

theorem spell_next {table : List Bytes} (s : Bytes) :
    spell p (table ++ [s]) (p.first + table.length) = some s := by
  have first := p.first_le
  refine (spell_entry (by omega)).mpr ⟨by omega, ?_⟩
  rw [Nat.add_sub_cancel_left, List.getElem?_concat_length]

/-- The dictionary has codes of its size for all its strings. -/
structure Dict.Fits (p : Params) (d : Dict) : Prop where
  least : 9 ≤ d.bits
  most : d.bits ≤ p.maxbits
  room : d.next p ≤ p.maxcode d.bits

theorem Dict.Fits.start : Dict.start.Fits p where
  least := Nat.le_refl 9
  most := Nat.le_trans (by decide) p.least
  room := by
    have first := p.first_le
    have least := p.least
    have nine : ¬ 9 = p.maxbits := by omega
    show p.first + 0 ≤ p.maxcode 9
    rw [Params.maxcode, if_neg nine]
    omega

/-- A code of the stream is in the table, or is the next one and its string begins and ends with
the same byte. -/
theorem Dict.string_cases {d : Dict} {code : Nat} {s : Bytes} (string : d.string p code = some s) :
    spell p d.table code = some s ∨
      code = d.next p ∧ code < 2 ^ p.maxbits ∧
        ∃ prev, d.prev = some prev ∧ s = prev ++ prev.take 1 := by
  rw [Dict.string] at string
  by_cases fresh : code = d.next p ∧ code < 2 ^ p.maxbits
  · rw [if_pos fresh] at string
    obtain ⟨prev, before, whole⟩ := Option.map_eq_some_iff.mp string
    exact .inr ⟨fresh.1, fresh.2, prev, before, whole.symm⟩
  · rw [if_neg fresh] at string
    exact .inl string

/-- The codes of the stream have the size of the codes. -/
theorem Dict.Fits.small {d : Dict} (fits : d.Fits p) {code : Nat} {s : Bytes}
    (string : d.string p code = some s) : code < 2 ^ d.bits := by
  have room := fits.room
  have power : 0 < 2 ^ d.bits := Nat.two_pow_pos _
  unfold Params.maxcode at room
  rcases Dict.string_cases string with spelled | ⟨next, small, -⟩
  · have below : code < d.next p := spell_lt spelled
    split at room
    next last =>
      rw [last]
      omega
    next => omega
  · split at room
    next last => rwa [last]
    next => omega

/-- Behind a string the table has one more string or is as before. -/
theorem Dict.grow_cases (p : Params) (d : Dict) (s : Bytes) :
    (∃ prev, d.prev = some prev ∧ d.next p < 2 ^ p.maxbits ∧
      d.grow p s = d.table ++ [prev ++ s.take 1]) ∨
    (d.prev = none ∨ ¬ d.next p < 2 ^ p.maxbits) ∧ d.grow p s = d.table := by
  unfold Dict.grow
  cases before : d.prev with
  | none => exact .inr ⟨.inl rfl, rfl⟩
  | some prev =>
    by_cases room : d.next p < 2 ^ p.maxbits
    · exact .inl ⟨prev, rfl, room, if_pos room⟩
    · exact .inr ⟨.inr room, if_neg room⟩

theorem Dict.Fits.after {d : Dict} (fits : d.Fits p) (s : Bytes) : (d.after p s).Fits p := by
  have least := fits.least
  have most := fits.most
  have room := fits.room
  have whole := p.maxcode_le most
  have grown : p.first + (d.grow p s).length ≤ d.next p + 1 ∧
      p.first + (d.grow p s).length ≤ 2 ^ p.maxbits := by
    rcases Dict.grow_cases p d s with ⟨prev, -, small, more⟩ | ⟨-, same⟩
    · rw [more, List.length_append, List.length_singleton]
      unfold Dict.next at small ⊢
      omega
    · rw [same]
      unfold Dict.next at room ⊢
      omega
  obtain ⟨step, below⟩ := grown
  by_cases large : p.first + (d.grow p s).length > p.maxcode d.bits
  · -- Codes of the full size are never outgrown.
    have smaller : d.bits ≠ p.maxbits := by
      intro last
      rw [Params.maxcode, if_pos last] at large
      omega
    have before : p.maxcode d.bits = 2 ^ d.bits - 1 := if_neg smaller
    have double : 2 ^ (d.bits + 1) = 2 * 2 ^ d.bits := Nat.pow_succ'
    have power : 0 < 2 ^ d.bits := Nat.two_pow_pos _
    have larger : (d.after p s).bits = d.bits + 1 := if_pos large
    constructor
    · omega
    · omega
    · rw [larger]
      show p.first + (d.grow p s).length ≤ p.maxcode (d.bits + 1)
      unfold Params.maxcode
      split <;> rename_i size
      · rw [← size]
        omega
      · omega
  · have same : (d.after p s).bits = d.bits := if_neg large
    constructor
    · omega
    · omega
    · rw [same]
      exact Nat.le_of_not_gt large

/-! ## The codes by themselves -/

/-- What a sequence of codes stands for. -/
def decodes (p : Params) : Dict → List Nat → Option Bytes
  | _, [] => some []
  | d, code :: codes =>
    if p.block = true ∧ code = 256 then decodes p .start codes
    else (d.string p code).bind fun s => (decodes p (d.after p s) codes).map (s ++ ·)

theorem decodes_plain {d : Dict} {code : Nat} {codes : List Nat} {s out : Bytes}
    (plain : ¬ (p.block = true ∧ code = 256)) (string : d.string p code = some s)
    (rest : decodes p (d.after p s) codes = some out) :
    decodes p d (code :: codes) = some (s ++ out) := by
  rw [decodes, if_neg plain, string, Option.bind_some, rest, Option.map_some]

/-- A stream has the bytes of its codes. -/
theorem Stream.decodes {d : Dict} {k : Nat} {codes : List Nat} {bits : List Bool} {out : Bytes}
    (stream : Stream p d k codes bits out) : decodes p d codes = some out := by
  induction stream with
  | done => rfl
  | code plain string same rest ih => exact decodes_plain plain string ih
  | grow plain string larger pad filled rest ih => exact decodes_plain plain string ih
  | @cut d k code s plain string larger pad short whole =>
    have nothing : Lzw.decodes p (d.after p s) [] = some [] := rfl
    have one := decodes_plain plain string nothing
    rwa [List.append_nil] at one
  | clear block pad filled rest ih => rwa [Lzw.decodes, if_pos ⟨block, rfl⟩]

theorem Dict.after_bits (d : Dict) (s : Bytes) :
    (d.after p s).bits = d.bits ∨ (d.after p s).bits = d.bits + 1 := by
  by_cases large : p.first + (d.grow p s).length > p.maxcode d.bits
  · exact .inr (if_pos large)
  · exact .inl (if_neg large)

/-- Codes that stand for something can be written, from any place of a group on. -/
theorem stream_exists {d : Dict} {k : Nat} (inside : k < 8) {codes : List Nat} {out : Bytes}
    (decoded : decodes p d codes = some out) :
    ∃ bits, Stream p d k codes bits out ∧ (k * d.bits + bits.length) % 8 = 0 := by
  induction codes generalizing d k out with
  | nil =>
    cases decoded
    obtain ⟨behind, isBehind⟩ : ∃ behind, behind = (8 - k * d.bits % 8) % 8 := ⟨_, rfl⟩
    have whole : (k * d.bits + (List.replicate behind false).length) % 8 = 0 := by
      rw [List.length_replicate]
      omega
    refine ⟨_, .done (List.replicate behind false) ?_ whole, whole⟩
    rw [List.length_replicate]
    omega
  | cons code codes ih =>
    -- A full group is eight codes.
    have full : k * d.bits + d.bits + (7 - k) * d.bits = 8 * d.bits := by
      rw [← Nat.succ_mul, ← Nat.add_mul]
      congr 1
      omega
    obtain ⟨pad, filled⟩ : ∃ pad : List Bool, pad.length = (7 - k) * d.bits :=
      ⟨List.replicate _ false, List.length_replicate⟩
    by_cases clear : p.block = true ∧ code = 256
    · rw [decodes, if_pos clear] at decoded
      obtain ⟨bits, stream, whole⟩ := ih (Nat.zero_lt_succ 7) decoded
      obtain ⟨block, rfl⟩ := clear
      refine ⟨_, .clear block pad filled stream, ?_⟩
      rw [Nat.zero_mul] at whole
      simp only [List.length_append, lsb_length, filled]
      omega
    · rw [decodes, if_neg clear] at decoded
      obtain ⟨s, string, rest⟩ := Option.bind_eq_some_iff.mp decoded
      obtain ⟨out', decoded', isOut⟩ := Option.map_eq_some_iff.mp rest
      rw [← isOut]
      rcases Dict.after_bits d s with same | larger
      · obtain ⟨bits, stream, whole⟩ := ih (Nat.mod_lt (k + 1) (by decide)) decoded'
        refine ⟨_, .code clear string same stream, ?_⟩
        rw [same] at whole
        simp only [List.length_append, lsb_length]
        rcases Nat.lt_or_ge (k + 1) 8 with more | last
        · rw [Nat.mod_eq_of_lt more, Nat.succ_mul] at whole
          omega
        · have seven : k = 7 := by omega
          subst seven
          rw [Nat.mod_self, Nat.zero_mul] at whole
          omega
      · obtain ⟨bits, stream, whole⟩ := ih (Nat.zero_lt_succ 7) decoded'
        refine ⟨_, .grow clear string larger pad filled stream, ?_⟩
        rw [Nat.zero_mul] at whole
        simp only [List.length_append, lsb_length, filled]
        omega

/-- A sequence of codes has a file exactly when it stands for something, which is what the file
stands for. -/
theorem file_exists_iff {codes : List Nat} {out : Bytes} :
    (∃ file, File p codes file out) ↔ decodes p .start codes = some out := by
  constructor
  · rintro ⟨file, -, stream⟩
    exact stream.decodes
  · intro decoded
    obtain ⟨bits, stream, whole⟩ := stream_exists (by decide : 0 < 8) decoded
    rw [Nat.zero_mul, Nat.zero_add] at whole
    refine ⟨[0x1f, 0x9d, p.byte] ++ packLsb bits, rfl, ?_⟩
    show Stream p .start 0 codes (lsbBits (packLsb bits)) out
    rwa [lsbBits_packLsb bits whole]

end CheriGzip.Lzw
