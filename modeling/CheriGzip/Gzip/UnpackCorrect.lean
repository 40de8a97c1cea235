import CheriGzip.Gzip.Unpack
import Mathlib.Data.Fintype.Card
import Mathlib.Data.List.Nodup

/-!
# unpack and pack(1)

The files of pack(1), from the tree alone: on every level the inner nodes have the smaller
codes and the leaves the larger ones. `unpack` never has the tree, only the counts.
-/
namespace CheriGzip.Unpack

/-! ## Trees -/

/-- How many leaves each level has; the last level has the EOB leaf besides. -/
def leafCounts : List Bytes → List Nat
  | [] => []
  | [level] => [level.length + 1]
  | level :: next :: rest => level.length :: leafCounts (next :: rest)

/-- Under `above` inner nodes, the nodes of each level are its leaves and the inner nodes above
the next level, and no node is left open at the end. -/
def Complete : Nat → List Nat → Prop
  | above, [] => above = 0
  | above, leaves :: rest => leaves ≤ 2 * above ∧ Complete (2 * above - leaves) rest

instance : (above : Nat) → (counts : List Nat) → Decidable (Complete above counts)
  | above, [] => inferInstanceAs (Decidable (above = 0))
  | above, leaves :: rest =>
    have := instDecidableComplete (2 * above - leaves) rest
    inferInstanceAs (Decidable (_ ∧ _))

/-- The inner nodes of each level. -/
def inners : Nat → List Nat → List Nat
  | _, [] => []
  | above, leaves :: rest => (2 * above - leaves) :: inners (2 * above - leaves) rest

/-- A complete prefix tree; `levels` has the bytes at the leaves in the order of the codes. -/
structure Tree where
  levels : List Bytes
  nonempty : levels ≠ []
  few : levels.length ≤ htreeMaxlevel
  distinct : levels.flatten.Nodup
  complete : Complete 1 (leafCounts levels)

/-! ## pack(1) -/

/-- The level of a byte, and its place among the leaves there. -/
def position (b : UInt8) : List Bytes → Nat × Nat
  | [] => (0, 0)
  | level :: rest =>
    if b ∈ level then (0, level.idxOf b)
    else ((position b rest).1 + 1, (position b rest).2)

/-- The code of a leaf: behind the inner nodes of its level. -/
def Tree.leafCode (tree : Tree) (level place : Nat) : List Bool :=
  msb (level + 1) ((inners 1 (leafCounts tree.levels)).getD level 0 + place)

def Tree.code (tree : Tree) (b : UInt8) : List Bool :=
  tree.leafCode (position b tree.levels).1 (position b tree.levels).2

/-- EOB is the last leaf of the last level. -/
def Tree.eob (tree : Tree) : List Bool :=
  tree.leafCode (tree.levels.length - 1) (tree.levels.getLast tree.nonempty).length

/-- The counts as they are stored. -/
def storedCounts : List Bytes → Bytes
  | [] => []
  | [level] => [UInt8.ofNat (level.length + 1 - 2)]
  | level :: next :: rest => UInt8.ofNat level.length :: storedCounts (next :: rest)

/-- The first seven bytes. -/
def Tree.header (tree : Tree) (size : Nat) : Bytes :=
  [0x1f, 0x1e, UInt8.ofNat (size / 2 ^ 24), UInt8.ofNat (size / 2 ^ 16), UInt8.ofNat (size / 2 ^ 8),
    UInt8.ofNat size, UInt8.ofNat tree.levels.length]

def Tree.codes (tree : Tree) (data : Bytes) : List Bool := data.flatMap tree.code ++ tree.eob

/-- The packed file. -/
def pack (tree : Tree) (data : Bytes) : Bytes :=
  tree.header data.length ++ storedCounts tree.levels ++ tree.levels.flatten ++
    packMsb (tree.codes data)

/-! ## What the header says -/

/-- The table of counts behind both corrections. -/
theorem bumpLast_stored (levels : List Bytes) :
    bumpLast (levels.map List.length) = leafCounts levels := by
  induction levels with
  | nil => rfl
  | cons level rest ih =>
    cases rest with
    | nil => rfl
    | cons next rest => rw [List.map_cons, List.map_cons, bumpLast, ← List.map_cons, ih, leafCounts]

/-- From the top down and from the bottom up the inner nodes are counted the same. -/
theorem fillInodesin_eq {above : Nat} {counts : List Nat} (complete : Complete above counts) :
    fillInodesin counts = inners above counts := by
  induction counts generalizing above with
  | nil => rfl
  | cons leaves rest ih =>
    obtain ⟨fits, below⟩ := complete
    cases rest with
    | nil =>
      have none : 2 * above - leaves = 0 := below
      rw [fillInodesin, inners, none]
      rfl
    | cons leaves' rest =>
      have nodes : leaves' ≤ 2 * (2 * above - leaves) := below.1
      have half : (2 * (2 * above - leaves) - leaves' + leaves') / 2 = 2 * above - leaves := by
        omega
      simp only [fillInodesin, ih below, inners, List.headD_cons, half]

/-- The inner nodes of a level have their children on the next. -/
theorem inners_step {above : Nat} {counts : List Nat} (complete : Complete above counts)
    {level : Nat} (inside : level < counts.length) :
    (inners above counts).getD level 0 + counts.getD level 0 =
      2 * (above :: inners above counts).getD level 0 := by
  induction counts generalizing above level with
  | nil => exact absurd inside (Nat.not_lt_zero _)
  | cons leaves rest ih =>
    obtain ⟨fits, below⟩ := complete
    cases level with
    | zero =>
      simp only [inners, List.getD_cons_zero]
      omega
    | succ level =>
      have next := ih below (Nat.lt_of_succ_lt_succ inside)
      simp only [inners, List.getD_cons_succ] at next ⊢
      exact next

/-- The last level has a leaf besides EOB. -/
theorem last_pos {above : Nat} {levels : List Bytes} (nonempty : levels ≠ [])
    (complete : Complete above (leafCounts levels)) :
    1 ≤ (levels.getLast nonempty).length := by
  induction levels generalizing above with
  | nil => exact absurd rfl nonempty
  | cons level rest ih =>
    cases rest with
    | nil =>
      obtain ⟨even, none⟩ : level.length + 1 ≤ 2 * above ∧ 2 * above - (level.length + 1) = 0 :=
        complete
      simp only [List.getLast_singleton]
      omega
    | cons next rest =>
      rw [List.getLast_cons (List.cons_ne_nil _ _)]
      exact ih (List.cons_ne_nil _ _) complete.2

/-- There are at most 256 symbols. -/
theorem Tree.symbols_le (tree : Tree) : tree.levels.flatten.length ≤ 256 := by
  have distinct : (tree.levels.flatten.map UInt8.toFin).Nodup :=
    tree.distinct.map fun a b same => UInt8.toFin_inj.mp same
  have most := distinct.length_le_card
  rwa [List.length_map, Fintype.card_fin] at most

/-- The stored counts, once corrected, are the numbers of symbols. -/
theorem storedCounts_eq {levels : List Bytes} (nonempty : levels ≠ [])
    (last : 1 ≤ (levels.getLast nonempty).length) (few : levels.flatten.length ≤ 256) :
    bumpLast ((storedCounts levels).map UInt8.toNat) = levels.map List.length ∧
      ((storedCounts levels).map UInt8.toNat).sum + 1 = levels.flatten.length ∧
      (storedCounts levels).length = levels.length := by
  induction levels with
  | nil => exact absurd rfl nonempty
  | cons level rest ih =>
    rw [List.flatten_cons, List.length_append] at few
    cases rest with
    -- The last level stores one less than its symbols; EOB is the other leaf that it leaves out.
    | nil =>
      rw [List.getLast_singleton] at last
      simp only [List.flatten_nil, List.length_nil] at few
      have count : (UInt8.ofNat (level.length + 1 - 2)).toNat = level.length - 1 := by
        rw [UInt8.toNat_ofNat']
        omega
      simp only [storedCounts, List.map_cons, List.map_nil, count, bumpLast, List.flatten_cons,
        List.flatten_nil, List.append_nil, List.length_cons, List.length_nil, List.sum_cons,
        List.sum_nil, and_true]
      constructor
      · congr 1
        omega
      · omega
    | cons next rest =>
      have lastRest : 1 ≤ ((next :: rest).getLast (List.cons_ne_nil _ _)).length := by
        rw [List.getLast_cons (List.cons_ne_nil _ _)] at last
        exact last
      obtain ⟨counts, sum, length⟩ := ih (List.cons_ne_nil _ _) lastRest (by omega)
      have count : (UInt8.ofNat level.length).toNat = level.length := by
        rw [UInt8.toNat_ofNat']
        omega
      obtain ⟨first, others, shape⟩ :
          ∃ first others, (storedCounts (next :: rest)).map UInt8.toNat = first :: others := by
        cases mapped : (storedCounts (next :: rest)).map UInt8.toNat with
        | nil =>
          have empty := congrArg List.length mapped
          rw [List.length_map, length] at empty
          cases empty
        | cons first others => exact ⟨first, others, rfl⟩
      refine ⟨?_, ?_, ?_⟩
      · rw [storedCounts, List.map_cons, shape, bumpLast, ← shape, counts, count]
        rfl
      · rw [storedCounts, List.map_cons, List.sum_cons, count, List.flatten_cons,
          List.length_append, Nat.add_assoc, sum]
      · rw [storedCounts, List.length_cons, length]
        rfl

/-- Where each level begins in the symbol table, when `counts` symbols are transmitted. -/
def starts : Nat → List Nat → List Nat
  | _, [] => []
  | start, count :: counts => start :: starts (start + count) counts

theorem readCounts_append (counts rest : Bytes) :
    readCounts counts.length (counts ++ rest) = .ok (counts.map UInt8.toNat, rest) := by
  induction counts with
  | nil => rfl
  | cons b counts ih =>
    rw [List.length_cons, List.cons_append, readCounts, ih]
    rfl

theorem readSymbols_append (level rest : Bytes) :
    readSymbols level.length (level ++ rest) = .ok (level, rest) := by
  induction level with
  | nil => rfl
  | cons b level ih =>
    rw [List.length_cons, List.cons_append, readSymbols, ih]
    rfl

theorem readTable_append (levels : List Bytes) (start : Nat) (rest : Bytes) :
    readTable (levels.map List.length) start (levels.flatten ++ rest) =
      .ok (starts start (levels.map List.length), levels.flatten, rest) := by
  induction levels generalizing start with
  | nil => rfl
  | cons level levels ih =>
    rw [List.map_cons, List.flatten_cons, List.append_assoc, readTable, readSymbols_append]
    simp only [bind, Except.bind, ih]
    rfl

/-- What `unpack_parse_header` finds in a packed file. -/
def Tree.descriptor (tree : Tree) (size : Nat) : Descriptor where
  symbolSize := tree.levels.flatten.length
  treelevels := tree.levels.length - 1
  symbolsin := leafCounts tree.levels
  inodesin := inners 1 (leafCounts tree.levels)
  symbol := tree.levels.flatten
  symbolEob := tree.levels.flatten.length
  tree := starts 0 (tree.levels.map List.length)
  uncompressedSize := size

theorem parseHeader_pack (tree : Tree) (data : Bytes) (size : data.length < 2 ^ 32) {prelen : Nat}
    (short : prelen ≤ packHeaderLength) (fresh : Bytes) :
    ∃ bytesIn, parseHeader ((pack tree data).take prelen) fresh
        ⟨(pack tree data).drop prelen, some (packHeaderLength - prelen)⟩ =
      .ok (tree.descriptor data.length, packMsb (tree.codes data), bytesIn) := by
  obtain ⟨body, isBody⟩ : ∃ body, body = storedCounts tree.levels ++ (tree.levels.flatten ++
      packMsb (tree.codes data)) := ⟨_, rfl⟩
  have file : pack tree data = tree.header data.length ++ body := by
    rw [isBody, pack, List.append_assoc, List.append_assoc]
  have seven : (tree.header data.length).length = packHeaderLength := rfl
  -- However many bytes of the header were read before, the two parts make all of it.
  have got : (pack tree data).take prelen ++
      ((pack tree data).drop prelen).take (packHeaderLength - prelen) = tree.header data.length := by
    rw [← List.take_add, Nat.add_sub_cancel' short, file, ← seven, List.take_left]
  have rest : ((pack tree data).drop prelen).drop (packHeaderLength - prelen) = body := by
    rw [List.drop_drop, Nat.add_sub_cancel' short, file, ← seven, List.drop_left]
  have positive : 1 ≤ tree.levels.length := List.length_pos_iff.mpr tree.nonempty
  have few := tree.few
  have levels : (UInt8.ofNat tree.levels.length).toNat = tree.levels.length := by
    rw [UInt8.toNat_ofNat']
    unfold htreeMaxlevel at few
    omega
  -- The four bytes of the size, from the highest on.
  have sum : ((((UInt8.ofNat (data.length / 2 ^ 24)).toNat * 256 +
      (UInt8.ofNat (data.length / 2 ^ 16)).toNat) * 256 +
      (UInt8.ofNat (data.length / 2 ^ 8)).toNat) * 256 + (UInt8.ofNat data.length).toNat) =
      data.length := by
    simp only [UInt8.toNat_ofNat']
    omega
  obtain ⟨counts, total, stored⟩ :=
    storedCounts_eq tree.nonempty (last_pos tree.nonempty tree.complete) tree.symbols_le
  have symbols := tree.symbols_le
  have read : readCounts tree.levels.length body = .ok ((storedCounts tree.levels).map UInt8.toNat,
      tree.levels.flatten ++ packMsb (tree.codes data)) := by
    rw [isBody, ← stored]
    exact readCounts_append _ _
  have table := readTable_append tree.levels 0 (packMsb (tree.codes data))
  have sane : ¬ (tree.levels.length > htreeMaxlevel ∨ tree.levels.length < 1) := by omega
  have size256 : ¬ tree.levels.flatten.length > 256 := Nat.not_lt.mpr symbols
  have symbolSize : 1 + ((storedCounts tree.levels).map UInt8.toNat).sum =
      tree.levels.flatten.length := by omega
  unfold parseHeader
  simp only [got, rest, Tree.header, List.cons_append, List.nil_append, List.getD_cons_succ,
    List.getD_cons_zero, List.foldl_cons, List.foldl_nil, levels, if_neg sane, read, counts, table,
    bind, Except.bind, if_neg size256, bumpLast_stored, fillInodesin_eq tree.complete, symbolSize,
    Nat.zero_mul, Nat.zero_add, sum]
  exact ⟨_, rfl⟩

/-! ## The walk down the tree -/

variable {tree : Tree} {size : Nat}

/-- A leaf: a place on a level, where EOB has one too. -/
structure Tree.Leaf (tree : Tree) (level place : Nat) : Prop where
  deep : level < tree.levels.length
  wide : place < (leafCounts tree.levels).getD level 0

/-- The code of a leaf as a number. -/
def Tree.value (tree : Tree) (level place : Nat) : Nat :=
  (inners 1 (leafCounts tree.levels)).getD level 0 + place

theorem leafCounts_length (levels : List Bytes) : (leafCounts levels).length = levels.length := by
  induction levels with
  | nil => rfl
  | cons level rest ih =>
    cases rest with
    | nil => rfl
    | cons next rest =>
      rw [leafCounts, List.length_cons, ih]
      rfl

/-- On the way to a leaf the codes are those of inner nodes. -/
theorem Tree.Leaf.above {level place : Nat} (leaf : tree.Leaf level place) {m : Nat}
    (up : 1 ≤ m) (most : m ≤ level + 1) :
    tree.value level place / 2 ^ m <
      (1 :: inners 1 (leafCounts tree.levels)).getD (level + 1 - m) 0 := by
  induction m, up using Nat.le_induction with
  | base =>
    have inside : level < (leafCounts tree.levels).length := by
      rw [leafCounts_length]
      exact leaf.deep
    have nodes := inners_step tree.complete inside
    have wide := leaf.wide
    unfold Tree.value
    rw [Nat.pow_one, Nat.add_sub_cancel]
    omega
  | succ m up ih =>
    have one := ih (by omega)
    obtain ⟨k, isK⟩ : ∃ k, level + 1 - m = k + 1 := ⟨level - m, by omega⟩
    have inside : k < (leafCounts tree.levels).length := by
      rw [leafCounts_length]
      have deep := leaf.deep
      omega
    have nodes := inners_step tree.complete inside
    have next : level + 1 - (m + 1) = k := by omega
    rw [isK, List.getD_cons_succ] at one
    rw [next, Nat.pow_succ, ← Nat.div_div_eq_div_mul]
    omega

/-- A leaf's code as bits, one level after the other. -/
theorem Tree.Leaf.walk {level place : Nat} (leaf : tree.Leaf level place) {d k : Nat}
    (depth : k + d = level) (out : Bytes) (rest : List Bool) :
    feedBits (tree.descriptor size) ⟨k, tree.value level place / 2 ^ (d + 1), out⟩
        (msb (d + 1) (tree.value level place) ++ rest) =
      feedBits (tree.descriptor size) ⟨level, tree.value level place / 2, out⟩
        ((tree.value level place).testBit 0 :: rest) := by
  induction d generalizing k with
  | zero =>
    have here : k = level := depth
    rw [here]
    rfl
  | succ d ih =>
    have inner := leaf.above (m := d + 1) (by omega) (by omega)
    have up : level + 1 - (d + 1) = k + 1 := by omega
    rw [up, List.getD_cons_succ] at inner
    have deep := leaf.deep
    have stays : feed (tree.descriptor size) ⟨k, tree.value level place / 2 ^ (d + 1 + 1), out⟩
        ((tree.value level place).testBit (d + 1)) =
        .ok (⟨k + 1, tree.value level place / 2 ^ (d + 1), out⟩, false) := by
      have notLeaf : ¬ tree.value level place / 2 ^ (d + 1) ≥
          (inners 1 (leafCounts tree.levels)).getD k 0 := Nat.not_le.mpr inner
      have notLast : ¬ k + 1 > tree.levels.length - 1 := by omega
      simp only [feed, div_pow_step, Tree.descriptor, if_neg notLeaf, if_neg notLast]
    rw [msb, List.cons_append, feedBits, stays]
    exact ih (by omega)

/-- The whole code, from the root on. -/
theorem Tree.Leaf.code {level place : Nat} (leaf : tree.Leaf level place) (out : Bytes)
    (rest : List Bool) :
    feedBits (tree.descriptor size) ⟨0, 0, out⟩ (tree.leafCode level place ++ rest) =
      feedBits (tree.descriptor size) ⟨level, tree.value level place / 2, out⟩
        ((tree.value level place).testBit 0 :: rest) := by
  have root := leaf.above (m := level + 1) (by omega) (Nat.le_refl _)
  rw [Nat.sub_self, List.getD_cons_zero, Nat.lt_one_iff] at root
  have walked := @Tree.Leaf.walk tree size level place leaf level 0 (Nat.zero_add _) out rest
  rw [root] at walked
  exact walked

/-! ## The symbols at the leaves -/

/-- Where a level lies in the symbol table. -/
theorem starts_symbols {levels : List Bytes} {level : Nat} (inside : level < levels.length)
    (start : Nat) :
    ∃ o, (starts start (levels.map List.length)).getD level 0 = start + o ∧
      o + (levels.getD level []).length ≤ levels.flatten.length ∧
      ∀ place < (levels.getD level []).length,
        levels.flatten[o + place]? = (levels.getD level [])[place]? := by
  induction levels generalizing level start with
  | nil => exact absurd inside (Nat.not_lt_zero _)
  | cons first rest ih =>
    rw [List.flatten_cons, List.length_append]
    cases level with
    | zero =>
      refine ⟨0, rfl, ?_, ?_⟩
      · rw [List.getD_cons_zero]
        omega
      · intro place within
        rw [List.getD_cons_zero] at within ⊢
        rw [Nat.zero_add, List.getElem?_append_left within]
    | succ level =>
      obtain ⟨o, offset, fits, symbols⟩ :=
        ih (Nat.lt_of_succ_lt_succ inside) (start + first.length)
      refine ⟨first.length + o, ?_, ?_, ?_⟩
      · rw [List.map_cons, starts, List.getD_cons_succ, offset, Nat.add_assoc]
      · rw [List.getD_cons_succ]
        omega
      · intro place within
        rw [List.getD_cons_succ] at within ⊢
        rw [List.getElem?_append_right (by omega), ← symbols place within]
        congr 1
        omega

/-- The last level ends where the table does. -/
theorem starts_last {counts : List Nat} (nonempty : counts ≠ []) (start : Nat) :
    (starts start counts).getD (counts.length - 1) 0 + counts.getD (counts.length - 1) 0 =
      start + counts.sum := by
  induction counts generalizing start with
  | nil => exact absurd rfl nonempty
  | cons count rest ih =>
    cases rest with
    | nil => simp [starts]
    | cons next rest =>
      have later := ih (List.cons_ne_nil _ _) (start + count)
      rw [List.length_cons, Nat.add_sub_cancel] at later
      rw [starts, List.length_cons, List.length_cons, Nat.add_sub_cancel, List.getD_cons_succ,
        List.getD_cons_succ, later, List.sum_cons (a := count), Nat.add_assoc]

/-- EOB is behind the table. -/
theorem starts_eob {levels : List Bytes} (nonempty : levels ≠ []) :
    (starts 0 (levels.map List.length)).getD (levels.length - 1) 0 +
      (levels.getLast nonempty).length = levels.flatten.length := by
  have counts : levels.map List.length ≠ [] := fun none => nonempty (List.map_eq_nil_iff.mp none)
  have last := starts_last counts 0
  have count : (levels.map List.length).getD (levels.length - 1) 0 =
      (levels.getLast nonempty).length := by
    have inside : levels.length - 1 < (levels.map List.length).length := by
      rw [List.length_map]
      exact Nat.sub_lt (List.length_pos_iff.mpr nonempty) Nat.one_pos
    rw [List.getD_eq_getElem?_getD, List.getElem?_eq_getElem inside, Option.getD_some,
      List.getElem_map, ← List.getLast_eq_getElem nonempty]
  rw [List.length_map, count, Nat.zero_add, ← List.length_flatten] at last
  exact last

theorem leafCounts_le (levels : List Bytes) (level : Nat) :
    (levels.getD level []).length ≤ (leafCounts levels).getD level 0 := by
  induction levels generalizing level with
  | nil => simp
  | cons first rest ih =>
    cases rest with
    | nil =>
      cases level with
      | zero => simp [leafCounts]
      | succ level => simp [leafCounts]
    | cons next rest =>
      cases level with
      | zero => simp [leafCounts]
      | succ level =>
        rw [leafCounts, List.getD_cons_succ, List.getD_cons_succ]
        exact ih level

theorem leafCounts_last {levels : List Bytes} (nonempty : levels ≠ []) :
    (leafCounts levels).getD (levels.length - 1) 0 = (levels.getLast nonempty).length + 1 := by
  induction levels with
  | nil => exact absurd rfl nonempty
  | cons first rest ih =>
    cases rest with
    | nil => rfl
    | cons next rest =>
      have later := ih (List.cons_ne_nil _ _)
      rw [List.length_cons, Nat.add_sub_cancel] at later
      rw [List.getLast_cons (List.cons_ne_nil _ _), List.length_cons, Nat.add_sub_cancel, leafCounts,
        List.length_cons, List.getD_cons_succ, later]

/-- A byte of the tree is at its position. -/
theorem position_spec {b : UInt8} {levels : List Bytes} (known : b ∈ levels.flatten) :
    (position b levels).1 < levels.length ∧
      (levels.getD (position b levels).1 [])[(position b levels).2]? = some b := by
  induction levels with
  | nil => cases known
  | cons first rest ih =>
    by_cases here : b ∈ first
    · rw [position, if_pos here]
      refine ⟨Nat.succ_pos _, ?_⟩
      rw [List.getD_cons_zero]
      exact List.getElem?_idxOf here
    · have later : b ∈ rest.flatten := by
        rw [List.flatten_cons, List.mem_append] at known
        exact known.resolve_left here
      obtain ⟨inside, symbol⟩ := ih later
      rw [position, if_neg here]
      refine ⟨Nat.succ_lt_succ inside, ?_⟩
      rw [List.getD_cons_succ]
      exact symbol

/-- At a leaf, the last bit of a code gets to the leaf's place. -/
theorem Tree.Leaf.code_feed {level place : Nat} (leaf : tree.Leaf level place) :
    2 * (tree.value level place / 2) + ((tree.value level place).testBit 0).toNat =
        tree.value level place ∧
      tree.value level place ≥ (inners 1 (leafCounts tree.levels)).getD level 0 ∧
      tree.value level place - (inners 1 (leafCounts tree.levels)).getD level 0 = place ∧
      ¬ place > (leafCounts tree.levels).getD level 0 := by
  have step := div_pow_step (tree.value level place) 0
  rw [Nat.zero_add, Nat.pow_one, Nat.pow_zero, Nat.div_one] at step
  exact ⟨step, Nat.le_add_right _ _, Nat.add_sub_cancel_left _ _,
    Nat.not_lt.mpr (Nat.le_of_lt leaf.wide)⟩

/-- The last bit of the code of a byte. -/
theorem Tree.Leaf.feed {level place : Nat} (leaf : tree.Leaf level place) (out : Bytes) {b : UInt8}
    (symbol : tree.levels.flatten[(starts 0 (tree.levels.map List.length)).getD level 0 + place]? =
      some b) :
    Unpack.feed (tree.descriptor size) ⟨level, tree.value level place / 2, out⟩
      ((tree.value level place).testBit 0) = .ok (⟨0, 0, out ++ [b]⟩, false) := by
  obtain ⟨code, isLeaf, index, inside⟩ := leaf.code_feed
  obtain ⟨within, -⟩ := List.getElem?_eq_some_iff.mp symbol
  have notEob : ¬ ((starts 0 (tree.levels.map List.length)).getD level 0 + place =
      tree.levels.flatten.length ∧ out.length = size) := by
    rintro ⟨eob, -⟩
    omega
  simp only [Unpack.feed, Tree.descriptor, code, if_pos isLeaf, index, if_neg inside, if_neg notEob,
    symbol]

/-- The last bit of EOB. -/
theorem Tree.Leaf.feed_eob {level place : Nat} (leaf : tree.Leaf level place) {out : Bytes}
    (complete : out.length = size)
    (eob : (starts 0 (tree.levels.map List.length)).getD level 0 + place =
      tree.levels.flatten.length) :
    Unpack.feed (tree.descriptor size) ⟨level, tree.value level place / 2, out⟩
      ((tree.value level place).testBit 0) = .ok (⟨level, tree.value level place, out⟩, true) := by
  obtain ⟨code, isLeaf, index, inside⟩ := leaf.code_feed
  simp only [Unpack.feed, Tree.descriptor, code, if_pos isLeaf, index, if_neg inside,
    if_pos (⟨eob, complete⟩ : _ ∧ _)]

/-- A byte's code makes the byte. -/
theorem feedBits_code {b : UInt8} (known : b ∈ tree.levels.flatten) (out : Bytes)
    (rest : List Bool) :
    feedBits (tree.descriptor size) ⟨0, 0, out⟩ (tree.code b ++ rest) =
      feedBits (tree.descriptor size) ⟨0, 0, out ++ [b]⟩ rest := by
  obtain ⟨deep, symbol⟩ := position_spec known
  obtain ⟨within, -⟩ := List.getElem?_eq_some_iff.mp symbol
  have leaf : tree.Leaf (position b tree.levels).1 (position b tree.levels).2 :=
    ⟨deep, Nat.lt_of_lt_of_le within (leafCounts_le _ _)⟩
  obtain ⟨o, offset, -, symbols⟩ := starts_symbols deep 0
  rw [Nat.zero_add] at offset
  have found : tree.levels.flatten[(starts 0 (tree.levels.map List.length)).getD
      (position b tree.levels).1 0 + (position b tree.levels).2]? = some b := by
    rw [offset, symbols _ within, symbol]
  rw [Tree.code, leaf.code, feedBits, leaf.feed out found]

/-- The EOB code ends the output when it is complete. -/
theorem feedBits_eob {out : Bytes} (complete : out.length = size) (rest : List Bool) :
    ∃ d, feedBits (tree.descriptor size) ⟨0, 0, out⟩ (tree.eob ++ rest) = .ok (d, true) ∧
      d.out = out := by
  have positive : 1 ≤ tree.levels.length := List.length_pos_iff.mpr tree.nonempty
  have leaf : tree.Leaf (tree.levels.length - 1) (tree.levels.getLast tree.nonempty).length := by
    constructor
    · omega
    · rw [leafCounts_last tree.nonempty]
      exact Nat.lt_succ_self _
  have eob := starts_eob tree.nonempty
  rw [Tree.eob, leaf.code, feedBits, leaf.feed_eob complete eob]
  exact ⟨_, rfl, rfl⟩

theorem grown {data out : Bytes} (b : UInt8) (complete : out.length + (b :: data).length = size) :
    (out ++ [b]).length + data.length = size := by
  rw [List.length_append, List.length_singleton, ← complete, List.length_cons]
  omega

/-- The codes of a file, from any output on. -/
theorem feedBits_codes {data : Bytes} (known : ∀ b ∈ data, b ∈ tree.levels.flatten) {out : Bytes}
    (complete : out.length + data.length = size) (rest : List Bool) :
    ∃ d, feedBits (tree.descriptor size) ⟨0, 0, out⟩ (tree.codes data ++ rest) = .ok (d, true) ∧
      d.out = out ++ data := by
  induction data generalizing out with
  | nil =>
    obtain ⟨d, ended, same⟩ := @feedBits_eob tree size out complete rest
    exact ⟨d, ended, by rw [same, List.append_nil]⟩
  | cons b data ih =>
    obtain ⟨d, ended, written⟩ := ih (fun c later => known c (List.mem_cons_of_mem b later))
      (grown b complete)
    have first := @feedBits_code tree size b (known b List.mem_cons_self) out
      (tree.codes data ++ rest)
    refine ⟨d, ?_, ?_⟩
    · rw [← ended, ← first, Tree.codes, Tree.codes, List.flatMap_cons]
      simp only [List.append_assoc]
    · rw [written, List.append_assoc]
      rfl

/-! ## The bytes of the file -/

theorem feedBits_append (unpackd : Descriptor) (d : Decoder) (bits more : List Bool) :
    feedBits unpackd d (bits ++ more) =
      match feedBits unpackd d bits with
      | .error stop => .error stop
      | .ok (d, true) => .ok (d, true)
      | .ok (d, false) => feedBits unpackd d more := by
  induction bits generalizing d with
  | nil => rfl
  | cons bit bits ih =>
    rw [List.cons_append, feedBits, feedBits]
    cases feed unpackd d bit with
    | error stop => rfl
    | ok answer =>
      obtain ⟨d', done⟩ := answer
      cases done with
      | true => rfl
      | false => exact ih d'

/-- The bytes do what all their bits do. -/
theorem decodeBytes_of_bits {unpackd : Descriptor} {d d' : Decoder} {file : Bytes}
    (ended : feedBits unpackd d (msbBits file) = .ok (d', true)) (bytesIn : Nat) :
    ∃ n, decodeBytes unpackd d bytesIn file = .ok (d', n) := by
  induction file generalizing d bytesIn with
  | nil => cases ended
  | cons b file ih =>
    rw [msbBits_cons, feedBits_append] at ended
    unfold decodeBytes
    cases first : feedBits unpackd d (msb 8 b.toNat) with
    | error stop =>
      rw [first] at ended
      cases ended
    | ok answer =>
      obtain ⟨mid, done⟩ := answer
      rw [first] at ended
      cases done with
      | true =>
        cases ended
        exact ⟨_, rfl⟩
      | false => exact ih ended (bytesIn + 1)

/-- `unpack` gives back what was packed, and its length, however much of the header was read
before. -/
theorem unpack_pack (tree : Tree) (data : Bytes) (known : ∀ b ∈ data, b ∈ tree.levels.flatten)
    (size : data.length < 2 ^ 32) (prelen : Nat) (short : prelen ≤ packHeaderLength)
    (fresh : Bytes) :
    ∃ bytesIn, unpack ((pack tree data).take prelen) fresh
        ⟨(pack tree data).drop prelen, some (packHeaderLength - prelen)⟩ =
      .ok ⟨data, data.length, bytesIn⟩ := by
  obtain ⟨bytesIn, parsed⟩ := parseHeader_pack tree data size short fresh
  obtain ⟨k, bits⟩ := msbBits_packMsb (tree.codes data)
  obtain ⟨d, ended, written⟩ := @feedBits_codes tree data.length data known [] (by simp)
    (List.replicate k false)
  rw [← bits] at ended
  obtain ⟨n, decoded⟩ := decodeBytes_of_bits ended bytesIn
  have same : d.out = data := written
  refine ⟨n, ?_⟩
  have whole : ¬ data.length ≠ (tree.descriptor data.length).uncompressedSize :=
    fun differs => differs rfl
  simp only [unpack, parsed, bind, Except.bind, unpackDecode, decoded, same, if_neg whole]
  rfl

/-- The bytes 97 and 98 on a level each. -/
def Tree.two : Tree where
  levels := [[97], [98]]
  nonempty := by decide
  few := by decide
  distinct := by decide
  complete := by decide

example : pack Tree.two [97, 98, 97] = [0x1f, 0x1e, 0, 0, 0, 3, 2, 1, 0, 97, 98, 0x94] := by
  decide

theorem unpack_pack_two :
    ∃ bytesIn, unpack ((pack Tree.two [97, 98, 97]).take 4) []
        ⟨(pack Tree.two [97, 98, 97]).drop 4, some 3⟩ = .ok ⟨[97, 98, 97], 3, bytesIn⟩ :=
  unpack_pack Tree.two [97, 98, 97] (by simp [Tree.two]) (by decide) 4 (by decide) []

end CheriGzip.Unpack
