import CheriGzip.Gzip.Lzw
import CheriGzip.Gzip.Zread

/-!
# getcode finds the codes of a stream

The codes come from a buffer that holds one group. A group of another size is read when the
table has outgrown the codes or was cleared, and then what is left of the old group is skipped.
-/
namespace CheriGzip.Zread

open Loop Lzw

/-! ## The code at a place in the group -/

/-- Bit `i` of bytes, with zeros behind. -/
def bitAt (bs : Bytes) (i : Nat) : Bool := (bs.getD (i / 8) 0).toNat.testBit (i % 8)

theorem byte_testBit (b : UInt8) {i : Nat} (high : 8 ≤ i) : b.toNat.testBit i = false := by
  apply Nat.testBit_lt_two_pow
  have small := b.toNat_lt
  have power : 2 ^ 8 ≤ 2 ^ i := Nat.pow_le_pow_right (by omega) high
  omega

/-- The pieces of two or three bytes put together. -/
theorem gcode_testBit (gbuf : Bytes) (roffset : Nat) {n : Nat} (least : 9 ≤ n) (most : n ≤ 16)
    (i : Nat) :
    (gcode gbuf roffset n).testBit i = (decide (i < n) && bitAt gbuf (roffset + i)) := by
  obtain ⟨q, isQ⟩ : ∃ q, q = roffset / 8 := ⟨_, rfl⟩
  obtain ⟨r, isR⟩ : ∃ r, r = roffset % 8 := ⟨_, rfl⟩
  have inByte : r < 8 := by omega
  unfold gcode bitAt rmask
  simp only [← isQ, ← isR]
  -- The bit is in the first byte, the second or the third.
  have first (here : r + i < 8) : (roffset + i) / 8 = q + 0 ∧ (roffset + i) % 8 = r + i := by omega
  have second (above : 8 ≤ r + i) (here : r + i < 16) :
      (roffset + i) / 8 = q + 1 ∧ (roffset + i) % 8 = i - (8 - r) := by omega
  have third (above : 16 ≤ r + i) (here : r + i < 24) :
      (roffset + i) / 8 = q + 2 ∧ (roffset + i) % 8 = i - (16 - r) := by omega
  split
  next long =>
    simp only [Nat.testBit_or, Nat.testBit_shiftRight, Nat.testBit_shiftLeft, Nat.testBit_and,
      Nat.testBit_two_pow_sub_one]
    rcases Nat.lt_or_ge (r + i) 8 with one | above
    · obtain ⟨byte, bit⟩ := first one
      have lowSecond : ¬ i ≥ 8 - r := by omega
      have lowThird : ¬ i ≥ 16 - r := by omega
      have inside : i < n := by omega
      simp only [lowSecond, lowThird, inside, byte, bit, decide_false, decide_true, Bool.false_and,
        Bool.true_and, Bool.or_false]
    · rcases Nat.lt_or_ge (r + i) 16 with two | past
      · obtain ⟨byte, bit⟩ := second above two
        have inSecond : i ≥ 8 - r := by omega
        have lowThird : ¬ i ≥ 16 - r := by omega
        have inside : i < n := by omega
        simp only [byte_testBit _ above, inSecond, lowThird, inside, byte, bit, decide_false,
          decide_true, Bool.false_and, Bool.true_and, Bool.or_false, Bool.false_or]
      · have pastSecond : 8 ≤ i - (8 - r) := by omega
        have inThird : i ≥ 16 - r := by omega
        have mask : i - (16 - r) < n - (8 - r) - 8 ↔ i < n := by omega
        simp only [byte_testBit _ above, byte_testBit _ pastSecond, inThird, mask, decide_true,
          Bool.and_false, Bool.false_or, Bool.true_and]
        by_cases inside : i < n
        · obtain ⟨byte, bit⟩ := third past (by omega)
          rw [byte, bit, Bool.and_comm]
        · simp only [inside, decide_false, Bool.and_false, Bool.false_and]
  next short =>
    simp only [Nat.testBit_or, Nat.testBit_shiftRight, Nat.testBit_shiftLeft, Nat.testBit_and,
      Nat.testBit_two_pow_sub_one]
    rcases Nat.lt_or_ge (r + i) 8 with one | above
    · obtain ⟨byte, bit⟩ := first one
      have lowSecond : ¬ i ≥ 8 - r := by omega
      have inside : i < n := by omega
      simp only [lowSecond, inside, byte, bit, decide_false, decide_true, Bool.false_and,
        Bool.true_and, Bool.or_false]
    · have inSecond : i ≥ 8 - r := by omega
      have mask : i - (8 - r) < n - (8 - r) ↔ i < n := by omega
      simp only [byte_testBit _ above, inSecond, mask, decide_true, Bool.false_or, Bool.true_and]
      by_cases inside : i < n
      · obtain ⟨byte, bit⟩ := second above (by omega)
        rw [byte, bit, Bool.and_comm]
      · simp only [inside, decide_false, Bool.and_false, Bool.false_and]

/-- Where the bits of a group go on with a code, `getcode` takes the code. -/
theorem gcode_eq {gbuf : Bytes} {roffset n code : Nat} {more : List Bool} (least : 9 ≤ n)
    (most : n ≤ 16) (small : code < 2 ^ n)
    (here : (lsbBits gbuf).drop roffset = lsb n code ++ more) : gcode gbuf roffset n = code := by
  apply Nat.eq_of_testBit_eq
  intro i
  rw [gcode_testBit gbuf roffset least most]
  by_cases inside : i < n
  · have bit : (lsbBits gbuf)[roffset + i]? = some (code.testBit i) := by
      rw [← List.getElem?_drop, here, List.getElem?_append_left (by rwa [lsb_length]), lsb_getElem?,
        if_pos inside]
    rw [lsbBits_getElem?] at bit
    obtain ⟨b, byte, value⟩ := Option.map_eq_some_iff.mp bit
    simp only [inside, decide_true, Bool.true_and, bitAt, List.getD_eq_getElem?_getD, byte,
      Option.getD_some, value]
  · have power : 2 ^ n ≤ 2 ^ i := Nat.pow_le_pow_right (by omega) (by omega)
    have none : code.testBit i = false := Nat.testBit_lt_two_pow (by omega)
    simp only [inside, decide_false, Bool.false_and, none]

/-! ## The groups of codes -/

/-- What is left of the file and of what was read of it before. -/
def Zstate.rest (zs : Zstate) : Bytes := zs.pre ++ zs.file

theorem fetch_fst (zs : Zstate) (n : Nat) : (zs.fetch n).1 = zs.rest.take n :=
  List.take_append.symm

theorem fetch_rest (zs : Zstate) (n : Nat) : (zs.fetch n).2.rest = zs.rest.drop n :=
  List.drop_append.symm

/-- `getcode` leaves alone everything but the bits and their size. -/
structure Kept (zs zs' : Zstate) : Prop where
  state : zs'.state = zs.state
  maxbits : zs'.maxbits = zs.maxbits
  maxmaxcode : zs'.maxmaxcode = zs.maxmaxcode
  prefixof : zs'.prefixof = zs.prefixof
  suffixof : zs'.suffixof = zs.suffixof
  freeEnt : zs'.freeEnt = zs.freeEnt
  blockCompress : zs'.blockCompress = zs.blockCompress
  stack : zs'.stack = zs.stack
  finchar : zs'.finchar = zs.finchar
  oldcode : zs'.oldcode = zs.oldcode

theorem Kept.trans {zs zs' zs'' : Zstate} (first : Kept zs zs') (second : Kept zs' zs'') :
    Kept zs zs'' where
  state := second.state.trans first.state
  maxbits := second.maxbits.trans first.maxbits
  maxmaxcode := second.maxmaxcode.trans first.maxmaxcode
  prefixof := second.prefixof.trans first.prefixof
  suffixof := second.suffixof.trans first.suffixof
  freeEnt := second.freeEnt.trans first.freeEnt
  blockCompress := second.blockCompress.trans first.blockCompress
  stack := second.stack.trans first.stack
  finchar := second.finchar.trans first.finchar
  oldcode := second.oldcode.trans first.oldcode

theorem widen_kept (zs : Zstate) : Kept zs zs.widen ∧ zs.widen.rest = zs.rest := by
  by_cases grows : zs.freeEnt > zs.maxcode
  · rw [Zstate.widen, if_pos grows]
    exact ⟨⟨rfl, rfl, rfl, rfl, rfl, rfl, rfl, rfl, rfl, rfl⟩, rfl⟩
  · rw [Zstate.widen, if_neg grows]
    exact ⟨⟨rfl, rfl, rfl, rfl, rfl, rfl, rfl, rfl, rfl, rfl⟩, rfl⟩

theorem narrow_kept (zs : Zstate) :
    Kept zs zs.narrow ∧ zs.narrow.rest = zs.rest ∧ zs.narrow.clearFlg = false := by
  by_cases cleared : zs.clearFlg = true
  · rw [Zstate.narrow, if_pos cleared]
    exact ⟨⟨rfl, rfl, rfl, rfl, rfl, rfl, rfl, rfl, rfl, rfl⟩, rfl, rfl⟩
  · rw [Zstate.narrow, if_neg cleared]
    exact ⟨⟨rfl, rfl, rfl, rfl, rfl, rfl, rfl, rfl, rfl, rfl⟩, rfl, Bool.eq_false_iff.mpr cleared⟩

theorem resize_kept (zs : Zstate) :
    Kept zs zs.resize ∧ zs.resize.rest = zs.rest ∧ zs.resize.clearFlg = false := by
  obtain ⟨kept, rest⟩ := widen_kept zs
  obtain ⟨kept', rest', clear⟩ := narrow_kept zs.widen
  exact ⟨kept.trans kept', rest'.trans rest, clear⟩

/-- `taken` codes of `n` bits of the group in the buffer are behind, and `bits` are to come. -/
structure Within (zs : Zstate) (n taken : Nat) (bits : List Bool) (group stale : Bytes) : Prop where
  gbuf : zs.gbuf = group ++ stale
  size : zs.size = 8 * group.length - (n - 1)
  roffset : zs.roffset = taken * n
  inside : taken * n ≤ 8 * group.length
  bits : (lsbBits group).drop (taken * n) ++ lsbBits zs.rest = bits
  full : group.length = n ∨ group.length < n ∧ zs.rest = []

/-- Where the next code comes from: the group in the buffer, or the group to be read. -/
inductive Reader (zs : Zstate) (maxcode n : Nat) : Nat → List Bool → Prop where
  | within {k : Nat} {bits : List Bool} {group stale : Bytes} (open_ : k < 8)
      (clear : zs.clearFlg = false) (fits : ¬ zs.freeEnt > zs.maxcode) (nBits : zs.nBits = n)
      (same : zs.maxcode = maxcode) (here : Within zs n k bits group stale) :
      Reader zs maxcode n k bits
  | due {bits : List Bool} (due : zs.Due) (nBits : zs.resize.nBits = n)
      (same : zs.resize.maxcode = maxcode) (rest : lsbBits zs.rest = bits) :
      Reader zs maxcode n 0 bits

/-- A group that ends with the last bits has room for the next code. -/
theorem Within.room {zs : Zstate} {n k : Nat} {bits : List Bool} {group stale : Bytes}
    (here : Within zs n k bits group stale) (inside : k < 8) (long : n ≤ bits.length) :
    (k + 1) * n ≤ 8 * group.length := by
  rw [Nat.succ_mul]
  rcases here.full with full | ⟨-, none⟩
  · have most : (k + 1) * n ≤ 8 * n := Nat.mul_le_mul_right n (by omega)
    rw [Nat.succ_mul] at most
    omega
  · have length := congrArg List.length here.bits
    rw [none, List.length_append, List.length_drop, lsbBits_length, lsbBits_length,
      List.length_nil] at length
    have within := here.inside
    omega

/-- The code at a place of the group, and the place behind it. -/
theorem Within.code {zs : Zstate} {n k code : Nat} {more : List Bool} {group stale : Bytes}
    (here : Within zs n k (lsb n code ++ more) group stale) (inside : k < 8) (least : 9 ≤ n)
    (most : n ≤ 16) (small : code < 2 ^ n) :
    gcode zs.gbuf zs.roffset n = code ∧
      Within { zs with roffset := zs.roffset + n } n (k + 1) more group stale := by
  have long : n ≤ (lsb n code ++ more).length := by
    rw [List.length_append, lsb_length]
    exact Nat.le_add_right _ _
  have room := here.room inside long
  have count : ((lsbBits group).drop (k * n)).length = 8 * group.length - k * n := by
    rw [List.length_drop, lsbBits_length]
  rw [Nat.succ_mul] at room
  -- The group holds the whole code.
  have front : (lsbBits group).drop (k * n) = lsb n code ++ (lsbBits group).drop ((k + 1) * n) := by
    have first := congrArg (List.take n) here.bits
    rw [List.take_append_of_le_length (by omega), List.take_left' (lsb_length n code)] at first
    rw [Nat.succ_mul, ← List.drop_drop, ← first, List.take_append_drop]
  constructor
  · apply gcode_eq least most small
    rw [here.gbuf, here.roffset, lsbBits_append, List.drop_append_of_le_length, front]
    · exact List.append_assoc _ _ _
    · rw [lsbBits_length]
      exact here.inside
  · constructor
    · exact here.gbuf
    · exact here.size
    · simp only [here.roffset, Nat.succ_mul]
    · rw [Nat.succ_mul]
      exact room
    · have bits := here.bits
      rw [front, List.append_assoc] at bits
      exact List.append_cancel_left bits
    · exact here.full

theorem refill_some {zs : Zstate} {n : Nat} (nBits : zs.resize.nBits = n) (least : 9 ≤ n)
    (more : zs.rest ≠ []) :
    ∃ zs' stale, zs.refill = (true, zs') ∧ Kept zs zs' ∧ zs'.clearFlg = false ∧ zs'.nBits = n ∧
      zs'.maxcode = zs.resize.maxcode ∧
      Within zs' n 0 (lsbBits zs.rest) (zs.rest.take n) stale := by
  obtain ⟨kept, rest, clear⟩ := resize_kept zs
  have got : (zs.resize.fetch zs.resize.nBits).1 = zs.rest.take n := by
    rw [fetch_fst, rest, nBits]
  have left : (zs.resize.fetch zs.resize.nBits).2.rest = zs.rest.drop n := by
    rw [fetch_rest, rest, nBits]
  have some : ¬ (zs.rest.take n).length = 0 := by
    have positive := List.length_pos_iff.mpr more
    rw [List.length_take]
    omega
  obtain ⟨taken, isTaken⟩ : ∃ taken, taken = (zs.resize.fetch zs.resize.nBits).2 := ⟨_, rfl⟩
  have same : Kept zs.resize taken ∧ taken.clearFlg = false ∧ taken.nBits = n ∧
      taken.maxcode = zs.resize.maxcode := by
    rw [isTaken]
    exact ⟨⟨rfl, rfl, rfl, rfl, rfl, rfl, rfl, rfl, rfl, rfl⟩, clear, nBits, rfl⟩
  obtain ⟨kept', clear', nBits', maxcode⟩ := same
  have whole := kept.trans kept'
  rw [← isTaken] at left
  have answer : zs.refill = (true, taken.load (zs.rest.take n)) := by
    unfold Zstate.refill
    simp only [got, ← isTaken, if_neg some]
  refine ⟨_, taken.gbuf.drop (zs.rest.take n).length, answer, ?_, clear', nBits', maxcode, ?_⟩
  · exact ⟨whole.state, whole.maxbits, whole.maxmaxcode, whole.prefixof, whole.suffixof,
      whole.freeEnt, whole.blockCompress, whole.stack, whole.finchar, whole.oldcode⟩
  · constructor
    · rfl
    · simp only [Zstate.load, nBits']
    · exact (Nat.zero_mul n).symm
    · rw [Nat.zero_mul]
      exact Nat.zero_le _
    · show (lsbBits (zs.rest.take n)).drop (0 * n) ++ lsbBits taken.rest = lsbBits zs.rest
      rw [left, Nat.zero_mul, List.drop_zero, ← lsbBits_append, List.take_append_drop]
    · show _ ∨ _ ∧ taken.rest = []
      rw [left, List.length_take]
      by_cases long : n ≤ zs.rest.length
      · exact .inl (Nat.min_eq_left long)
      · exact .inr ⟨by omega, List.drop_eq_nil_of_le (by omega)⟩

theorem refill_none {zs : Zstate} (none : zs.rest = []) : ∃ zs', zs.refill = (false, zs') := by
  obtain ⟨-, rest, -⟩ := resize_kept zs
  have got : (zs.resize.fetch zs.resize.nBits).1 = [] := by
    rw [fetch_fst, rest, none, List.take_nil]
  unfold Zstate.refill
  simp only [got, List.length_nil, if_true]
  exact ⟨_, rfl⟩

/-- `getcode` takes the next code of the stream. -/
theorem getcode_some {zs : Zstate} {maxcode n k code : Nat} {more : List Bool}
    (reader : Reader zs maxcode n k (lsb n code ++ more)) (least : 9 ≤ n) (most : n ≤ 16)
    (small : code < 2 ^ n) :
    ∃ zs' group stale, getcode zs = (some code, zs') ∧ Kept zs zs' ∧ zs'.clearFlg = false ∧
      zs'.nBits = n ∧ zs'.maxcode = maxcode ∧ Within zs' n (k + 1) more group stale := by
  generalize isBits : lsb n code ++ more = bits at reader
  cases reader with
  | within inside clear fits nBits same here =>
    rw [← isBits] at here
    obtain ⟨value, behind⟩ := here.code inside least most small
    have room := here.room inside (by rw [List.length_append, lsb_length]; omega)
    have there : ¬ zs.Due := by
      rintro (cleared | past | large)
      · rw [clear] at cleared
        cases cleared
      · rw [here.roffset, here.size] at past
        rw [Nat.succ_mul] at room
        omega
      · exact fits large
    refine ⟨{ zs with roffset := zs.roffset + n }, _, _, ?_, ?_, clear, nBits, same, behind⟩
    · rw [getcode, if_neg there, Zstate.next, nBits, value]
    · exact ⟨rfl, rfl, rfl, rfl, rfl, rfl, rfl, rfl, rfl, rfl⟩
  | due due nBits same rest =>
    have some : zs.rest ≠ [] := by
      intro none
      have length := congrArg List.length (rest.trans isBits.symm)
      rw [none, List.length_append, lsb_length] at length
      simp only [lsbBits, List.flatMap_nil, List.length_nil] at length
      omega
    obtain ⟨zs', stale, filled, kept, clear, nBits', same', here⟩ :=
      refill_some nBits least some
    rw [rest, ← isBits] at here
    obtain ⟨value, behind⟩ := here.code (by omega) least most small
    refine ⟨{ zs' with roffset := zs'.roffset + n }, _, _, ?_, ?_, clear, nBits',
      same'.trans same, behind⟩
    · rw [getcode, if_pos due, filled]
      simp only [Zstate.next, nBits', value]
    · exact ⟨kept.state, kept.maxbits, kept.maxmaxcode, kept.prefixof, kept.suffixof,
        kept.freeEnt, kept.blockCompress, kept.stack, kept.finchar, kept.oldcode⟩

/-- Fewer bits than a byte are the end of the file. -/
theorem Within.ended {zs : Zstate} {n k : Nat} {pad : List Bool} {group stale : Bytes}
    (here : Within zs n k pad group stale) (least : 9 ≤ n) (short : pad.length < 8) :
    zs.rest = [] ∧ 8 * group.length < (k + 1) * n := by
  have length := congrArg List.length here.bits
  rw [List.length_append, List.length_drop, lsbBits_length, lsbBits_length] at length
  have within := here.inside
  have step : (k + 1) * n = k * n + n := Nat.succ_mul k n
  have none : zs.rest.length = 0 := by omega
  exact ⟨List.length_eq_zero_iff.mp none, by omega⟩

/-- `getcode` finds the end of the stream. -/
theorem getcode_none {zs : Zstate} {maxcode n k : Nat} {pad : List Bool}
    (reader : Reader zs maxcode n k pad) (least : 9 ≤ n) (short : pad.length < 8)
    (whole : (k * n + pad.length) % 8 = 0) : ∃ zs', getcode zs = (none, zs') := by
  have ended : zs.Due ∧ zs.rest = [] := by
    cases reader with
    | within inside clear fits nBits same here =>
      obtain ⟨none, past⟩ := here.ended least short
      have step : (k + 1) * n = k * n + n := Nat.succ_mul k n
      refine ⟨.inr (.inl ?_), none⟩
      rw [here.roffset, here.size]
      omega
    | due due nBits same rest =>
      have length := congrArg List.length rest
      rw [lsbBits_length] at length
      exact ⟨due, List.length_eq_zero_iff.mp (by omega)⟩
  obtain ⟨due, none⟩ := ended
  obtain ⟨zs', empty⟩ := refill_none none
  rw [getcode, if_pos due, empty]
  exact ⟨zs', rfl⟩

/-! ## Behind a code -/

theorem resize_unchanged {zs : Zstate} (clear : zs.clearFlg = false)
    (fits : ¬ zs.freeEnt > zs.maxcode) : zs.resize = zs := by
  have same : zs.widen = zs := if_neg fits
  rw [Zstate.resize, same, Zstate.narrow, clear]
  exact if_neg Bool.false_ne_true

theorem resize_grown {zs : Zstate} (clear : zs.clearFlg = false)
    (large : zs.freeEnt > zs.maxcode) :
    zs.resize.nBits = zs.nBits + 1 ∧ zs.resize.maxcode =
      if zs.nBits + 1 = zs.maxbits then zs.maxmaxcode else maxCode (zs.nBits + 1) := by
  have grown : zs.resize = zs.widen := by
    rw [Zstate.resize, Zstate.narrow, Zstate.widen, if_pos large]
    simp only [clear, Bool.false_eq_true, if_false]
  rw [grown, Zstate.widen, if_pos large]
  exact ⟨rfl, rfl⟩

theorem resize_cleared {zs : Zstate} (cleared : zs.clearFlg = true) :
    zs.resize.nBits = initBits ∧ zs.resize.maxcode = maxCode initBits := by
  have still : zs.widen.clearFlg = true := by
    by_cases large : zs.freeEnt > zs.maxcode
    · rw [Zstate.widen, if_pos large]
      exact cleared
    · rw [Zstate.widen, if_neg large]
      exact cleared
  rw [Zstate.resize, Zstate.narrow, if_pos still]
  exact ⟨rfl, rfl⟩

/-- The code behind another one of the same size is in the group, or the first one of the next
group. -/
theorem Within.reader {zs : Zstate} {maxcode n k : Nat} {bits : List Bool} {group stale : Bytes}
    (here : Within zs n (k + 1) bits group stale) (inside : k < 8) (least : 9 ≤ n)
    (clear : zs.clearFlg = false) (fits : ¬ zs.freeEnt > zs.maxcode) (nBits : zs.nBits = n)
    (same : zs.maxcode = maxcode) : Reader zs maxcode n ((k + 1) % 8) bits := by
  rcases Nat.lt_or_ge (k + 1) 8 with more | last
  · rw [Nat.mod_eq_of_lt more]
    exact .within more clear fits nBits same here
  · have eight : k + 1 = 8 := by omega
    rw [eight] at here ⊢
    have within := here.inside
    have full : group.length = n := by
      rcases here.full with full | ⟨short, -⟩
      · exact full
      · omega
    have unchanged := resize_unchanged clear fits
    have bits := here.bits
    rw [List.drop_eq_nil_of_le (by rw [lsbBits_length]; omega), List.nil_append] at bits
    refine .due (.inr (.inl ?_)) ?_ ?_ bits
    · rw [here.roffset, here.size]
      omega
    · rw [unchanged, nBits]
    · rw [unchanged, same]

/-- What fills up a group is skipped. -/
theorem Within.skip {zs : Zstate} {n k : Nat} {pad bits : List Bool} {group stale : Bytes}
    (here : Within zs n (k + 1) (pad ++ bits) group stale) (inside : k < 8)
    (filled : pad.length = (7 - k) * n) : lsbBits zs.rest = bits := by
  have length := congrArg List.length here.bits
  rw [List.length_append, List.length_append, List.length_drop, lsbBits_length, lsbBits_length,
    filled] at length
  have within := here.inside
  have eight : (7 - k) * n + (k + 1) * n = 8 * n := by
    rw [← Nat.add_mul]
    congr 1
    omega
  have full : group.length = n := by
    rcases here.full with full | ⟨short, none⟩
    · exact full
    · rw [none, List.length_nil] at length
      omega
  have front : ((lsbBits group).drop ((k + 1) * n)).length = pad.length := by
    rw [List.length_drop, lsbBits_length, filled]
    omega
  exact (List.append_inj here.bits front).2

end CheriGzip.Zread
