import CheriGzip.Gzip.UnpackCorrect
import Mathlib.Algebra.Order.BigOperators.Group.List
import Mathlib.Algebra.Order.Ring.Nat
import Mathlib.Order.Lattice.Nat

/-!
# What unpack looks up, and what it counts

The tables that `unpack_parse_header` leaves behind for any file that it accepts, complete tree or
not. From them follow the places of `symbol` that `unpack_decode` goes to, and the number of bytes
that both of them count.
-/
namespace CheriGzip.Unpack

/-! ## The tables -/

/-- The descriptor of an accepted header with these counts, and how the file goes on behind the
first seven bytes: the counts, the symbols, and what is left to decode. -/
structure Accepted (unpackd : Descriptor) (counts body data : Bytes) : Prop where
  levels : counts.length = unpackd.treelevels + 1
  few : unpackd.treelevels + 1 ≤ htreeMaxlevel
  symbolsin : unpackd.symbolsin = bumpLast (bumpLast (counts.map UInt8.toNat))
  inodesin : unpackd.inodesin = fillInodesin unpackd.symbolsin
  tree : unpackd.tree = starts 0 (bumpLast (counts.map UInt8.toNat))
  symbol : unpackd.symbol.length = (bumpLast (counts.map UInt8.toNat)).sum
  symbolEob : unpackd.symbolEob = unpackd.symbol.length
  symbolSize : unpackd.symbolSize = unpackd.symbol.length
  body : body = counts ++ (unpackd.symbol ++ data)

theorem readCounts_ok {n : Nat} {file rest : Bytes} {counts : List Nat}
    (read : readCounts n file = .ok (counts, rest)) :
    ∃ stored : Bytes, stored.length = n ∧ counts = stored.map UInt8.toNat ∧
      file = stored ++ rest := by
  induction n generalizing file counts with
  | zero =>
    cases read
    exact ⟨[], rfl, rfl, rfl⟩
  | succ n ih =>
    cases file with
    | nil => cases read
    | cons b file =>
      rw [readCounts] at read
      cases tail : readCounts n file with
      | error stop =>
        rw [tail] at read
        cases read
      | ok answer =>
        rw [tail] at read
        cases read
        obtain ⟨stored, length, values, split⟩ := ih tail
        exact ⟨b :: stored, by rw [List.length_cons, length], by rw [List.map_cons, ← values],
          by rw [split, List.cons_append]⟩

theorem readSymbols_ok {n : Nat} {file rest symbols : Bytes}
    (read : readSymbols n file = .ok (symbols, rest)) :
    symbols.length = n ∧ file = symbols ++ rest := by
  induction n generalizing file symbols with
  | zero =>
    cases read
    exact ⟨rfl, rfl⟩
  | succ n ih =>
    cases file with
    | nil => cases read
    | cons b file =>
      rw [readSymbols] at read
      cases tail : readSymbols n file with
      | error stop =>
        rw [tail] at read
        cases read
      | ok answer =>
        rw [tail] at read
        cases read
        obtain ⟨length, split⟩ := ih tail
        exact ⟨by rw [List.length_cons, length], by rw [split, List.cons_append]⟩

theorem readTable_ok {counts tree : List Nat} {start : Nat} {file rest symbols : Bytes}
    (read : readTable counts start file = .ok (tree, symbols, rest)) :
    tree = starts start counts ∧ symbols.length = counts.sum ∧ file = symbols ++ rest := by
  induction counts generalizing start file tree symbols with
  | nil =>
    cases read
    exact ⟨rfl, rfl, rfl⟩
  | cons count counts ih =>
    rw [readTable] at read
    cases level : readSymbols count file with
    | error stop =>
      rw [level] at read
      cases read
    | ok answer =>
      obtain ⟨first, file'⟩ := answer
      rw [level] at read
      simp only [bind, Except.bind] at read
      cases tail : readTable counts (start + count) file' with
      | error stop =>
        rw [tail] at read
        cases read
      | ok answer =>
        rw [tail] at read
        cases read
        obtain ⟨begins, length, split⟩ := ih tail
        obtain ⟨length', split'⟩ := readSymbols_ok level
        exact ⟨by rw [begins]; rfl, by rw [List.length_append, length, length', List.sum_cons],
          by rw [split', split, List.append_assoc]⟩

theorem bumpLast_length (counts : List Nat) : (bumpLast counts).length = counts.length := by
  induction counts with
  | nil => rfl
  | cons count rest ih =>
    cases rest with
    | nil => rfl
    | cons next rest =>
      rw [bumpLast, List.length_cons, ih]
      rfl

theorem bumpLast_sum {counts : List Nat} (nonempty : counts ≠ []) :
    (bumpLast counts).sum = counts.sum + 1 := by
  induction counts with
  | nil => exact absurd rfl nonempty
  | cons count rest ih =>
    cases rest with
    | nil => simp [bumpLast]
    | cons next rest =>
      rw [bumpLast, List.sum_cons, ih (List.cons_ne_nil _ _), ← Nat.add_assoc, ← List.sum_cons]

/-- What `unpack_parse_header` accepts, and what it has counted until then. -/
theorem parseHeader_ok {pre fresh data : Bytes} {input : Input} {unpackd : Descriptor}
    {bytesIn : Nat} (accepted : parseHeader pre fresh input = .ok (unpackd, data, bytesIn)) :
    ∃ count counts, input.count = some count ∧
      Accepted unpackd counts (input.file.drop count) data ∧
      bytesIn = packHeaderLength + unpackd.treelevels + unpackd.symbol.length := by
  unfold parseHeader at accepted
  cases answer : input.count with
  | none =>
    rw [answer] at accepted
    cases accepted
  | some count =>
    rw [answer] at accepted
    simp only [bind, Except.bind] at accepted
    split at accepted
    · cases accepted
    next sane =>
    split at accepted
    · cases accepted
    next levels read =>
    split at accepted
    · cases accepted
    next few =>
    split at accepted
    · cases accepted
    next table readTable =>
    cases accepted
    obtain ⟨stored, length, counts, split⟩ := readCounts_ok read
    obtain ⟨tree, symbols, split'⟩ := readTable_ok readTable
    -- There is a level, because the sanity check wants at least one.
    have nonempty : levels.1 ≠ [] := by
      rintro empty
      rw [empty] at counts
      have zero := congrArg List.length counts
      rw [List.length_map, length, List.length_nil] at zero
      omega
    have sum : table.2.1.length = levels.1.sum + 1 := by rw [symbols, bumpLast_sum nonempty]
    -- `bumpLast` puts back one of the two leaves that the last level does not count; EOB, the
    -- other one, has no symbol.
    refine ⟨count, stored, rfl, ⟨?_, ?_, ?_, rfl, ?_, ?_, rfl, ?_, ?_⟩, ?_⟩
    · show stored.length = _ - 1 + 1
      omega
    · show _ - 1 + 1 ≤ htreeMaxlevel
      omega
    · rw [counts]
    · rw [tree, counts]
    · rw [symbols, counts]
    · show 1 + levels.1.sum = table.2.1.length
      omega
    · rw [split, split']
    · rw [symbols]

/-! ## The bytes that are counted -/

/-- How many bytes are read for the codes: up to the one with the end of EOB, and all of them when
there is none. -/
noncomputable def dataBytes (unpackd : Descriptor) (d : Decoder) (data : Bytes) : Nat :=
  sInf { n | n = data.length ∨ ∃ d', feedBits unpackd d (msbBits (data.take n)) = .ok (d', true) }

/-- The compressed bytes that an accepted input comes to: the header, one for each level, the
symbols, and those of the codes. -/
noncomputable def consumed (pre fresh : Bytes) (input : Input) : Nat :=
  match parseHeader pre fresh input with
  | .ok (unpackd, data, _) =>
    packHeaderLength + (unpackd.treelevels + 1) + unpackd.symbol.length +
      dataBytes unpackd ⟨0, 0, []⟩ data
  | .error _ => 0

/-- `*bytes_in` after the call. `accepted_bytes` adds to what the caller's variable held. -/
def bytesInAfter (held : Int) (unpacked : Unpacked) : Int := held + unpacked.bytesIn

theorem dataBytes_nil (unpackd : Descriptor) (d : Decoder) : dataBytes unpackd d [] = 0 :=
  Nat.sInf_eq_zero.mpr (.inl (.inl rfl))

section

variable {unpackd : Descriptor} {d d' : Decoder} {b : UInt8} {data : Bytes}

theorem dataBytes_spec (unpackd : Descriptor) (d : Decoder) (data : Bytes) :
    dataBytes unpackd d data = data.length ∨
      ∃ d', feedBits unpackd d (msbBits (data.take (dataBytes unpackd d data))) = .ok (d', true) :=
  Nat.sInf_mem (s := { n | n = data.length ∨
    ∃ d', feedBits unpackd d (msbBits (data.take n)) = .ok (d', true) }) ⟨_, .inl rfl⟩

/-- Nothing ends before a byte is read. -/
theorem dataBytes_pos : 0 < dataBytes unpackd d (b :: data) := by
  have spec := dataBytes_spec unpackd d (b :: data)
  rcases Nat.eq_zero_or_pos (dataBytes unpackd d (b :: data)) with zero | pos
  · rw [zero] at spec
    obtain whole | ⟨d', ended⟩ := spec
    · cases whole
    · cases ended
  · exact pos

theorem dataBytes_finished (ended : feedBits unpackd d (msb 8 b.toNat) = .ok (d', true)) :
    dataBytes unpackd d (b :: data) = 1 := by
  have first : feedBits unpackd d (msbBits ((b :: data).take 1)) = .ok (d', true) := by
    rw [List.take_succ_cons, List.take_zero, msbBits_cons, feedBits_append, ended]
  have least : dataBytes unpackd d (b :: data) ≤ 1 := Nat.sInf_le (.inr ⟨d', first⟩)
  have pos := @dataBytes_pos unpackd d b data
  omega

theorem dataBytes_more (goes : feedBits unpackd d (msb 8 b.toNat) = .ok (d', false)) :
    dataBytes unpackd d (b :: data) = dataBytes unpackd d' data + 1 := by
  have shift : ∀ n, feedBits unpackd d (msbBits ((b :: data).take (n + 1))) =
      feedBits unpackd d' (msbBits (data.take n)) := by
    intro n
    rw [List.take_succ_cons, msbBits_cons, feedBits_append, goes]
  apply le_antisymm
  · apply Nat.sInf_le
    obtain whole | ⟨last, ended⟩ := dataBytes_spec unpackd d' data
    · exact .inl (congrArg (· + 1) whole)
    · exact .inr ⟨last, (shift _).trans ended⟩
  · obtain ⟨n, count⟩ := Nat.exists_eq_succ_of_ne_zero
      (Nat.pos_iff_ne_zero.mp (@dataBytes_pos unpackd d b data))
    have spec := dataBytes_spec unpackd d (b :: data)
    rw [count] at spec ⊢
    apply Nat.succ_le_succ
    apply Nat.sInf_le
    obtain whole | ⟨last, ended⟩ := spec
    · exact .inl (Nat.succ.inj whole)
    · exact .inr ⟨last, (shift n).symm.trans ended⟩

end

/-- The loop counts the bytes that it reads. -/
theorem decodeBytes_count {unpackd : Descriptor} {d d' : Decoder} {data : Bytes} {start n : Nat}
    (decoded : decodeBytes unpackd d start data = .ok (d', n)) :
    n = start + dataBytes unpackd d data := by
  induction data generalizing d start with
  | nil =>
    cases decoded
    rw [dataBytes_nil, Nat.add_zero]
  | cons b data ih =>
    rw [decodeBytes] at decoded
    cases first : feedBits unpackd d (msb 8 b.toNat) with
    | error stop =>
      rw [first] at decoded
      cases decoded
    | ok answer =>
      obtain ⟨mid, done⟩ := answer
      rw [first] at decoded
      cases done with
      | true =>
        cases decoded
        rw [dataBytes_finished first]
      | false =>
        rw [ih decoded, dataBytes_more first]
        omega

/-- The counted bytes are one too few, since `treelevels` is one less by the time it is counted. -/
theorem consumed_eq {pre fresh : Bytes} {input : Input} {unpacked : Unpacked}
    (unpacks : unpack pre fresh input = .ok unpacked) :
    consumed pre fresh input = unpacked.bytesIn + 1 := by
  unfold unpack at unpacks
  cases parsed : parseHeader pre fresh input with
  | error stop =>
    rw [parsed] at unpacks
    cases unpacks
  | ok answer =>
    obtain ⟨unpackd, data, start⟩ := answer
    obtain ⟨_, _, _, _, count⟩ := parseHeader_ok parsed
    rw [parsed] at unpacks
    simp only [bind, Except.bind, unpackDecode] at unpacks
    cases decoded : decodeBytes unpackd ⟨0, 0, []⟩ start data with
    | error stop =>
      rw [decoded] at unpacks
      cases unpacks
    | ok answer =>
      obtain ⟨d, n⟩ := answer
      have total := decodeBytes_count decoded
      rw [decoded] at unpacks
      by_cases complete : d.out.length ≠ unpackd.uncompressedSize
      · simp only [if_pos complete] at unpacks
        cases unpacks
      · simp only [if_neg complete] at unpacks
        cases unpacks
        rw [consumed, parsed]
        show packHeaderLength + (unpackd.treelevels + 1) + unpackd.symbol.length + _ = n + 1
        omega

/-- `*bytes_in` comes out right when the caller's variable held 1, and only then. -/
theorem unpack_bytes_in_iff (pre fresh : Bytes) (input : Input) (held : Int) {unpacked : Unpacked}
    (unpacks : unpack pre fresh input = .ok unpacked) :
    bytesInAfter held unpacked = consumed pre fresh input ↔ held = 1 := by
  rw [bytesInAfter, consumed_eq unpacks]
  push_cast
  omega

/-- The packed file of `Tree.two`, with four bytes of it read before. -/
def Tree.twoInput : Input := ⟨(pack Tree.two [97, 98, 97]).drop 4, some 3⟩

theorem unpack_two : unpack [0x1f, 0x1e, 0, 0] [] Tree.twoInput = .ok ⟨[97, 98, 97], 3, 11⟩ := by
  decide +kernel

theorem unpack_bytes_in_two :
    bytesInAfter 1 ⟨[97, 98, 97], 3, 11⟩ = consumed [0x1f, 0x1e, 0, 0] [] Tree.twoInput :=
  (unpack_bytes_in_iff _ _ _ 1 unpack_two).mpr rfl

/-- From 0 on, 11 of 12 bytes are counted. -/
theorem unpack_bytes_in_short :
    ¬ ∀ (pre fresh : Bytes) (input : Input) (held : Int) (unpacked : Unpacked),
      unpack pre fresh input = .ok unpacked →
        bytesInAfter held unpacked = consumed pre fresh input := by
  intro all
  have same := all _ _ _ 0 _ unpack_two
  rw [consumed_eq unpack_two] at same
  exact absurd same (by decide)

/-! ## The symbols that are looked up -/

/-- The place on the level that the code with the next bit stands for, when the symbol there is
written. -/
def dereferenced (unpackd : Descriptor) (d : Decoder) (bit : Bool) : Option Nat :=
  let code := 2 * d.code + bit.toNat
  let inodes := unpackd.inodesin.getD d.level 0
  if code ≥ inodes then
    let inlevelindex := code - inodes
    if inlevelindex > unpackd.symbolsin.getD d.level 0 then none
    else if unpackd.tree.getD d.level 0 + inlevelindex = unpackd.symbolEob ∧
        d.out.length = unpackd.uncompressedSize then none
    else some inlevelindex
  else none

theorem dereferenced_some {unpackd : Descriptor} {d : Decoder} {bit : Bool} {inlevelindex : Nat}
    (found : dereferenced unpackd d bit = some inlevelindex) :
    unpackd.inodesin.getD d.level 0 ≤ 2 * d.code + bit.toNat ∧
      inlevelindex ≤ unpackd.symbolsin.getD d.level 0 ∧
      ¬ (unpackd.tree.getD d.level 0 + inlevelindex = unpackd.symbolEob ∧
        d.out.length = unpackd.uncompressedSize) ∧
      inlevelindex = 2 * d.code + bit.toNat - unpackd.inodesin.getD d.level 0 := by
  unfold dereferenced at found
  simp only at found
  split at found
  next leaf =>
    split at found
    · cases found
    next level =>
      split at found
      · cases found
      next symbol =>
        cases found
        exact ⟨leaf, Nat.not_lt.mp level, symbol, rfl⟩
  next => cases found

/-- What comes of a bit: the code is that of no symbol, or of EOB, or the symbol of that place is
written if there is one, or the code goes on. -/
inductive Fed (unpackd : Descriptor) (d : Decoder) (bit : Bool) :
    Except Stop (Decoder × Bool) → Prop where
  | corrupt : Fed unpackd d bit (.error (.maybeErrx "File corrupt"))
  | ended : Fed unpackd d bit (.ok ({ d with code := 2 * d.code + bit.toNat }, true))
  | missing {inlevelindex : Nat} (found : dereferenced unpackd d bit = some inlevelindex)
      (none : unpackd.symbol[unpackd.tree.getD d.level 0 + inlevelindex]? = none) :
      Fed unpackd d bit (.error .outside)
  | written {inlevelindex : Nat} {b : UInt8}
      (found : dereferenced unpackd d bit = some inlevelindex)
      (symbol : unpackd.symbol[unpackd.tree.getD d.level 0 + inlevelindex]? = some b) :
      Fed unpackd d bit (.ok (⟨0, 0, d.out ++ [b]⟩, false))
  | inner (node : 2 * d.code + bit.toNat < unpackd.inodesin.getD d.level 0)
      (deep : d.level + 1 ≤ unpackd.treelevels) :
      Fed unpackd d bit
        (.ok ({ d with level := d.level + 1, code := 2 * d.code + bit.toNat }, false))

theorem feed_fed (unpackd : Descriptor) (d : Decoder) (bit : Bool) :
    Fed unpackd d bit (feed unpackd d bit) := by
  unfold feed
  simp only
  split
  next leaf =>
    split
    · exact .corrupt
    next level =>
      split
      · exact .ended
      next symbol =>
        have found : dereferenced unpackd d bit =
            some (2 * d.code + bit.toNat - unpackd.inodesin.getD d.level 0) :=
          (if_pos leaf).trans ((if_neg level).trans (if_neg symbol))
        split
        next none => exact .missing found none
        next b some => exact .written found some
  next node =>
    split
    · exact .corrupt
    next deep => exact .inner (Nat.not_le.mp node) (Nat.not_lt.mp deep)

/-- A place in the table, on its level, and not the one of EOB. -/
structure InBounds (unpackd : Descriptor) (level inlevelindex : Nat) : Prop where
  table : unpackd.tree.getD level 0 + inlevelindex < unpackd.symbolSize
  leaves : inlevelindex < unpackd.symbolsin.getD level 0
  notEob : unpackd.tree.getD level 0 + inlevelindex ≠ unpackd.symbolEob

/-- `unpack_decode` comes to this bit of the data with this decoder. -/
def Comes (unpackd : Descriptor) (data : Bytes) (d : Decoder) (bit : Bool) : Prop :=
  ∃ bits, bits ++ [bit] <+: msbBits data ∧ feedBits unpackd ⟨0, 0, []⟩ bits = .ok (d, false)

/-- The first bit of a code is the number of nodes on the top level, where a complete tree has two;
or it is the last bit of the code of EOB, and more or less is written than the header says. -/
def Astray (unpackd : Descriptor) (d : Decoder) (bit : Bool) : Prop :=
  (d.level = 0 ∧ bit.toNat = unpackd.inodesin.getD 0 0 + unpackd.symbolsin.getD 0 0) ∨
    (d.level = unpackd.treelevels ∧
      2 * d.code + bit.toNat + 1 = unpackd.symbolsin.getD unpackd.treelevels 0 ∧
      d.out.length ≠ unpackd.uncompressedSize)

/-! ### Counts and starts -/

theorem bumpLast_getD {counts : List Nat} {level : Nat} (inside : level < counts.length) :
    (bumpLast counts).getD level 0 =
      counts.getD level 0 + if level + 1 = counts.length then 1 else 0 := by
  induction counts generalizing level with
  | nil => exact absurd inside (Nat.not_lt_zero _)
  | cons count rest ih =>
    cases rest with
    | nil =>
      obtain rfl : level = 0 := by simpa using inside
      rfl
    | cons next rest =>
      cases level with
      | zero => simp [bumpLast]
      | succ level =>
        have later := ih (Nat.lt_of_succ_lt_succ inside)
        simpa [bumpLast] using later

/-- The inner nodes of a level are half of the nodes on the next, rounded down. -/
theorem fillInodesin_half {counts : List Nat} {level : Nat} (inside : level + 1 < counts.length) :
    (fillInodesin counts).getD level 0 =
      ((fillInodesin counts).getD (level + 1) 0 + counts.getD (level + 1) 0) / 2 := by
  induction counts generalizing level with
  | nil => exact absurd inside (Nat.not_lt_zero _)
  | cons count rest ih =>
    cases rest with
    | nil => simp at inside
    | cons next rest =>
      cases level with
      | zero =>
        rw [fillInodesin, List.getD_cons_zero, List.getD_cons_succ, List.getD_cons_succ,
          List.getD_cons_zero]
        cases fillInodesin (next :: rest) <;> rfl
      | succ level =>
        have later := ih (Nat.lt_of_succ_lt_succ inside)
        rw [fillInodesin, List.getD_cons_succ, List.getD_cons_succ, List.getD_cons_succ]
        exact later

theorem fillInodesin_last (counts : List Nat) :
    (fillInodesin counts).getD (counts.length - 1) 0 = 0 := by
  induction counts with
  | nil => rfl
  | cons count rest ih =>
    cases rest with
    | nil => rfl
    | cons next rest =>
      rw [fillInodesin, List.length_cons, List.length_cons, Nat.add_sub_cancel,
        List.getD_cons_succ]
      exact ih

/-- The last level is behind the others. -/
theorem starts_level {counts : List Nat} {level : Nat} (inside : level + 1 < counts.length)
    (start : Nat) :
    (starts start counts).getD level 0 + counts.getD level 0 + counts.getD (counts.length - 1) 0 ≤
      start + counts.sum := by
  induction counts generalizing level start with
  | nil => exact absurd inside (Nat.not_lt_zero _)
  | cons count rest ih =>
    cases rest with
    | nil => simp at inside
    | cons next rest =>
      rw [List.sum_cons, List.length_cons, List.length_cons, Nat.add_sub_cancel,
        List.getD_cons_succ]
      cases level with
      | zero =>
        have member : (next :: rest).getD rest.length 0 ≤ (next :: rest).sum := by
          rw [List.getD_eq_getElem?_getD, List.getElem?_eq_getElem (by simp), Option.getD_some]
          exact List.single_le_sum (by simp) _ (List.getElem_mem _)
        rw [starts, List.getD_cons_zero, List.getD_cons_zero]
        omega
      | succ level =>
        have later := ih (Nat.lt_of_succ_lt_succ inside) (start + count)
        rw [List.length_cons, Nat.add_sub_cancel] at later
        rw [starts, List.getD_cons_succ, List.getD_cons_succ]
        omega

/-! ### The tables together -/

section

variable {unpackd : Descriptor} {counts body data : Bytes}

/-- How many symbols of a level are transmitted. -/
def transmitted (counts : Bytes) (level : Nat) : Nat :=
  (bumpLast (counts.map UInt8.toNat)).getD level 0

theorem Accepted.symbols (accepted : Accepted unpackd counts body data) {level : Nat}
    (inside : level ≤ unpackd.treelevels) :
    unpackd.symbolsin.getD level 0 =
      transmitted counts level + if level = unpackd.treelevels then 1 else 0 := by
  have levels := accepted.levels
  rw [accepted.symbolsin, bumpLast_getD (by rw [bumpLast_length, List.length_map]; omega),
    bumpLast_length, List.length_map, levels, transmitted]
  simp only [Nat.add_right_cancel_iff]

theorem Accepted.last_pos (accepted : Accepted unpackd counts body data) :
    1 ≤ transmitted counts unpackd.treelevels := by
  have levels := accepted.levels
  rw [transmitted, bumpLast_getD (by rw [List.length_map]; omega), List.length_map, levels,
    if_pos rfl]
  exact Nat.le_add_left _ _

/-- Above the last level the table goes on behind the level. -/
theorem Accepted.starts_upper (accepted : Accepted unpackd counts body data) {level : Nat}
    (upper : level < unpackd.treelevels) :
    unpackd.tree.getD level 0 + transmitted counts level < unpackd.symbol.length := by
  have levels := accepted.levels
  have last := accepted.last_pos
  have begins := @starts_level (bumpLast (counts.map UInt8.toNat)) level
    (by rw [bumpLast_length, List.length_map]; omega) 0
  rw [bumpLast_length, List.length_map, levels, Nat.add_sub_cancel] at begins
  rw [accepted.tree, accepted.symbol]
  unfold transmitted at last ⊢
  omega

/-- EOB is behind the last level. -/
theorem Accepted.starts_eob (accepted : Accepted unpackd counts body data) :
    unpackd.tree.getD unpackd.treelevels 0 + transmitted counts unpackd.treelevels =
      unpackd.symbol.length := by
  have levels := accepted.levels
  have nonempty : bumpLast (counts.map UInt8.toNat) ≠ [] := by
    intro empty
    have none := congrArg List.length empty
    rw [bumpLast_length, List.length_map, List.length_nil] at none
    omega
  have last := starts_last nonempty 0
  rw [bumpLast_length, List.length_map, levels, Nat.add_sub_cancel, Nat.zero_add] at last
  rw [accepted.tree, accepted.symbol]
  exact last

theorem Accepted.inodes_half (accepted : Accepted unpackd counts body data) {level : Nat}
    (upper : level < unpackd.treelevels) :
    unpackd.inodesin.getD level 0 =
      (unpackd.inodesin.getD (level + 1) 0 + unpackd.symbolsin.getD (level + 1) 0) / 2 := by
  have levels := accepted.levels
  rw [accepted.inodesin]
  apply fillInodesin_half
  rw [accepted.symbolsin, bumpLast_length, bumpLast_length, List.length_map]
  omega

theorem Accepted.inodes_last (accepted : Accepted unpackd counts body data) :
    unpackd.inodesin.getD unpackd.treelevels 0 = 0 := by
  have length : unpackd.symbolsin.length - 1 = unpackd.treelevels := by
    rw [accepted.symbolsin, bumpLast_length, bumpLast_length, List.length_map, accepted.levels,
      Nat.add_sub_cancel]
  rw [accepted.inodesin, ← length]
  exact fillInodesin_last _

/-! ### The decoder -/

/-- Between two bits the code so far is none, or the one of an inner node. -/
inductive Placed (unpackd : Descriptor) (d : Decoder) : Prop where
  | root (level : d.level = 0) (code : d.code = 0)
  | inner (k : Nat) (level : d.level = k + 1) (deep : k + 1 ≤ unpackd.treelevels)
      (code : d.code < unpackd.inodesin.getD k 0)

theorem Placed.of_feed {d d' : Decoder} {bit : Bool}
    (fed : feed unpackd d bit = .ok (d', false)) : Placed unpackd d' := by
  have after := feed_fed unpackd d bit
  rw [fed] at after
  cases after with
  | written _ _ => exact .root rfl rfl
  | inner node deep => exact .inner d.level rfl deep node

theorem Placed.feedBits {d d' : Decoder} {bits : List Bool} (placed : Placed unpackd d)
    (fed : feedBits unpackd d bits = .ok (d', false)) : Placed unpackd d' := by
  induction bits generalizing d with
  | nil =>
    cases fed
    exact placed
  | cons bit bits ih =>
    rw [Unpack.feedBits] at fed
    cases first : Unpack.feed unpackd d bit with
    | error stop =>
      rw [first] at fed
      cases fed
    | ok answer =>
      obtain ⟨mid, done⟩ := answer
      rw [first] at fed
      cases done with
      | true => cases fed
      | false => exact ih (.of_feed first) fed

theorem Comes.placed {d : Decoder} {bit : Bool} (comes : Comes unpackd data d bit) :
    Placed unpackd d := by
  obtain ⟨bits, _, fed⟩ := comes
  exact Placed.feedBits (.root rfl rfl) fed

theorem Placed.deep {d : Decoder} (placed : Placed unpackd d) : d.level ≤ unpackd.treelevels := by
  cases placed with
  | root level _ => omega
  | inner k level deep _ => omega

/-- A place that is looked up is among the leaves, but for the root. -/
theorem Placed.leaves {d : Decoder} {bit : Bool} {inlevelindex : Nat} (placed : Placed unpackd d)
    (accepted : Accepted unpackd counts body data)
    (found : dereferenced unpackd d bit = some inlevelindex) (fits : ¬ Astray unpackd d bit) :
    inlevelindex < unpackd.symbolsin.getD d.level 0 := by
  obtain ⟨leaf, level, symbol, index⟩ := dereferenced_some found
  have one : bit.toNat ≤ 1 := Bool.toNat_le bit
  cases placed with
  | root isRoot code =>
    have other : bit.toNat ≠ unpackd.inodesin.getD 0 0 + unpackd.symbolsin.getD 0 0 :=
      fun same => fits (.inl ⟨isRoot, same⟩)
    rw [isRoot] at leaf level index ⊢
    omega
  | inner k isInner deep code =>
    have half := accepted.inodes_half (Nat.lt_of_succ_le deep)
    rw [isInner] at leaf level index ⊢
    omega

/-- What does not go astray is in bounds. -/
theorem Placed.inBounds {d : Decoder} {bit : Bool} {inlevelindex : Nat} (placed : Placed unpackd d)
    (accepted : Accepted unpackd counts body data)
    (found : dereferenced unpackd d bit = some inlevelindex) (fits : ¬ Astray unpackd d bit) :
    InBounds unpackd d.level inlevelindex := by
  have leaves := placed.leaves accepted found fits
  have symbols := accepted.symbols placed.deep
  have size := accepted.symbolSize
  have eob := accepted.symbolEob
  rcases Nat.lt_or_eq_of_le placed.deep with upper | last
  · have begins := accepted.starts_upper upper
    rw [if_neg (by omega)] at symbols
    exact ⟨by omega, leaves, by omega⟩
  · obtain ⟨leaf, level, symbol, index⟩ := dereferenced_some found
    have ends := accepted.starts_eob
    have inodes := accepted.inodes_last
    rw [← last] at ends inodes symbols
    rw [if_pos rfl] at symbols
    -- The place of EOB is looked up only when the output has another length.
    have notEob : inlevelindex ≠ transmitted counts d.level := by
      intro isEob
      have place : unpackd.tree.getD d.level 0 + inlevelindex = unpackd.symbolEob := by omega
      refine fits (.inr ⟨last, ?_, fun same => symbol ⟨place, same⟩⟩)
      rw [← last]
      omega
    exact ⟨by omega, leaves, by omega⟩

/-- What goes astray is looked up, and is not in bounds. -/
theorem Placed.astray {d : Decoder} {bit : Bool} (placed : Placed unpackd d)
    (accepted : Accepted unpackd counts body data) (astray : Astray unpackd d bit) :
    ∃ inlevelindex, dereferenced unpackd d bit = some inlevelindex ∧
      ¬ InBounds unpackd d.level inlevelindex := by
  have one : bit.toNat ≤ 1 := Bool.toNat_le bit
  have last := accepted.last_pos
  have eob := accepted.symbolEob
  obtain ⟨isRoot, nodes⟩ | ⟨isLast, code, length⟩ := astray
  · have root : d.code = 0 := by
      cases placed with
      | root _ code => exact code
      | inner k level _ _ => omega
    have symbols := accepted.symbols (Nat.zero_le unpackd.treelevels)
    have upper : 0 < unpackd.treelevels := by
      rcases Nat.eq_zero_or_pos unpackd.treelevels with none | some
      · rw [none] at last
        rw [none, if_pos rfl] at symbols
        omega
      · exact some
    have begins := accepted.starts_upper upper
    rw [if_neg (by omega)] at symbols
    refine ⟨unpackd.symbolsin.getD 0 0, ?_, fun within => ?_⟩
    · have index : 2 * d.code + bit.toNat - unpackd.inodesin.getD 0 0 =
          unpackd.symbolsin.getD 0 0 := by omega
      have leaf : 2 * d.code + bit.toNat ≥ unpackd.inodesin.getD 0 0 := by omega
      unfold dereferenced
      simp only [isRoot, if_pos leaf, index, if_neg (Nat.lt_irrefl _)]
      exact if_neg fun both => by omega
    · have leaves := within.leaves
      rw [isRoot] at leaves
      exact Nat.lt_irrefl _ leaves
  · have inodes := accepted.inodes_last
    have symbols := accepted.symbols (Nat.le_refl unpackd.treelevels)
    have ends := accepted.starts_eob
    rw [if_pos rfl] at symbols
    refine ⟨2 * d.code + bit.toNat, ?_, fun within => ?_⟩
    · unfold dereferenced
      simp only [isLast, inodes, Nat.sub_zero, ge_iff_le, Nat.zero_le, if_true]
      rw [if_neg (by omega), if_neg fun both => length both.2]
    · have notEob := within.notEob
      rw [isLast] at notEob
      omega

end

/-! ### The run -/

/-- The bits of the bytes stop where the bytes do. -/
theorem decodeBytes_error {unpackd : Descriptor} {d : Decoder} {data : Bytes} {bytesIn : Nat}
    {stop : Stop} (stopped : decodeBytes unpackd d bytesIn data = .error stop) :
    feedBits unpackd d (msbBits data) = .error stop := by
  induction data generalizing d bytesIn with
  | nil => cases stopped
  | cons b data ih =>
    rw [decodeBytes] at stopped
    rw [msbBits_cons, feedBits_append]
    cases first : feedBits unpackd d (msb 8 b.toNat) with
    | error stop' =>
      rw [first] at stopped
      cases stopped
      rfl
    | ok answer =>
      obtain ⟨mid, done⟩ := answer
      rw [first] at stopped
      cases done with
      | true => cases stopped
      | false => exact ih stopped

/-- A bit at which the decoder stops. -/
theorem feedBits_error {unpackd : Descriptor} {d : Decoder} {bits : List Bool} {stop : Stop}
    (stopped : feedBits unpackd d bits = .error stop) :
    ∃ front bit d', front ++ [bit] <+: bits ∧ feedBits unpackd d front = .ok (d', false) ∧
      feed unpackd d' bit = .error stop := by
  induction bits generalizing d with
  | nil => cases stopped
  | cons bit bits ih =>
    rw [feedBits] at stopped
    cases first : feed unpackd d bit with
    | error stop' =>
      rw [first] at stopped
      cases stopped
      exact ⟨[], bit, d, ⟨bits, rfl⟩, rfl, first⟩
    | ok answer =>
      obtain ⟨mid, done⟩ := answer
      rw [first] at stopped
      cases done with
      | true => cases stopped
      | false =>
        obtain ⟨front, last, d', within, fed, stops⟩ := ih stopped
        exact ⟨bit :: front, last, d', List.cons_prefix_cons.mpr ⟨rfl, within⟩,
          by rw [feedBits, first]; exact fed, stops⟩

/-- An access outside is the lookup of a symbol. -/
theorem feed_outside {unpackd : Descriptor} {d : Decoder} {bit : Bool}
    (outside : feed unpackd d bit = .error .outside) :
    ∃ inlevelindex, dereferenced unpackd d bit = some inlevelindex ∧
      unpackd.symbol[unpackd.tree.getD d.level 0 + inlevelindex]? = none := by
  have after := feed_fed unpackd d bit
  rw [outside] at after
  cases after with
  | missing found none => exact ⟨_, found, none⟩

/-- A run without such bits leaves no access outside of the table. -/
theorem Accepted.inside {unpackd : Descriptor} {counts body data : Bytes}
    (accepted : Accepted unpackd counts body data)
    (none : ∀ d bit, Comes unpackd data d bit → ¬ Astray unpackd d bit) (bytesIn : Nat) :
    unpackDecode unpackd bytesIn data ≠ .error .outside := by
  intro outside
  unfold unpackDecode at outside
  cases decoded : decodeBytes unpackd ⟨0, 0, []⟩ bytesIn data with
  | ok answer =>
    rw [decoded] at outside
    simp only [bind, Except.bind] at outside
    split at outside <;> cases outside
  | error stop =>
    rw [decoded] at outside
    cases outside
    obtain ⟨front, bit, d, within, fed, stops⟩ := feedBits_error (decodeBytes_error decoded)
    have comes : Comes unpackd data d bit := ⟨front, within, fed⟩
    obtain ⟨inlevelindex, found, missing⟩ := feed_outside stops
    have bounds := comes.placed.inBounds accepted found (none d bit comes)
    have table := bounds.table
    rw [accepted.symbolSize] at table
    rw [List.getElem?_eq_getElem table] at missing
    cases missing

/-- The lookups of a run are in bounds when none of its bits goes astray, and only then. Such a run
leaves no access outside of the table. -/
theorem unpack_lookups_iff {pre fresh data : Bytes} {input : Input} {unpackd : Descriptor}
    {bytesIn : Nat} (accepted : parseHeader pre fresh input = .ok (unpackd, data, bytesIn)) :
    ((∀ d bit, Comes unpackd data d bit → ∀ inlevelindex,
        dereferenced unpackd d bit = some inlevelindex → InBounds unpackd d.level inlevelindex) ↔
      ∀ d bit, Comes unpackd data d bit → ¬ Astray unpackd d bit) ∧
    ((∀ d bit, Comes unpackd data d bit → ¬ Astray unpackd d bit) →
      unpackDecode unpackd bytesIn data ≠ .error .outside) := by
  obtain ⟨count, counts, _, tables, _⟩ := parseHeader_ok accepted
  refine ⟨⟨?_, ?_⟩, fun none => tables.inside none bytesIn⟩
  · intro all d bit comes astray
    obtain ⟨inlevelindex, found, outside⟩ := comes.placed.astray tables astray
    exact outside (all d bit comes inlevelindex found)
  · intro none d bit comes inlevelindex found
    exact comes.placed.inBounds tables found (none d bit comes)

/-- What is read of the header of `pack Tree.two`, for a length of 3 or of 4. -/
def Tree.twoDescriptor (size : Nat) : Descriptor :=
  ⟨2, 1, [1, 2], [1, 0], [97, 98], 2, [0, 1], size⟩

theorem unpack_lookups_two :
    ((∀ d bit, Comes (Tree.twoDescriptor 3) [0x94] d bit → ∀ inlevelindex,
        dereferenced (Tree.twoDescriptor 3) d bit = some inlevelindex →
          InBounds (Tree.twoDescriptor 3) d.level inlevelindex) ↔
      ∀ d bit, Comes (Tree.twoDescriptor 3) [0x94] d bit →
        ¬ Astray (Tree.twoDescriptor 3) d bit) ∧
    ((∀ d bit, Comes (Tree.twoDescriptor 3) [0x94] d bit → ¬ Astray (Tree.twoDescriptor 3) d bit) →
      unpackDecode (Tree.twoDescriptor 3) 10 [0x94] ≠ .error .outside) :=
  @unpack_lookups_iff [0x1f, 0x1e, 0, 0] [] [0x94] Tree.twoInput (Tree.twoDescriptor 3) 10
    (by decide +kernel)

/-- The same codes under a length of 4: EOB comes after 3 bytes, and is written as a symbol. -/
theorem unpack_lookups_eob :
    ¬ ∀ (pre fresh data : Bytes) (input : Input) (unpackd : Descriptor) (bytesIn : Nat),
      parseHeader pre fresh input = .ok (unpackd, data, bytesIn) →
        ∀ d bit, Comes unpackd data d bit → ∀ inlevelindex,
          dereferenced unpackd d bit = some inlevelindex →
            InBounds unpackd d.level inlevelindex := by
  intro all
  have accepted : parseHeader [0x1f, 0x1e, 0, 0] [] ⟨[0, 4, 2, 1, 0, 97, 98, 0x94], some 3⟩ =
      .ok (Tree.twoDescriptor 4, [0x94], 10) := by decide +kernel
  have comes : Comes (Tree.twoDescriptor 4) [0x94] ⟨1, 0, [97, 98, 97]⟩ true :=
    ⟨[true, false, false, true, false], by decide, by decide +kernel⟩
  have bounds := all _ _ _ _ _ _ accepted _ _ comes 1 (by decide +kernel)
  exact bounds.notEob (by decide)

end CheriGzip.Unpack
