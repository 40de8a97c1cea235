import CheriGzip.Libz.InflateTable
import Mathlib.Data.Nat.Bitwise

/-!
# The steps of inflate_table

What each loop of `inflate_table` computes: the counts of the lengths, the symbols in the order of
their codes, the next code with its bits the other way round, and the entries of one code.
-/
namespace CheriGzip.Inflate

/-! ## Arrays -/

section

variable {α : Type} {array : List α} {i j : Nat} {a : α}

theorem store_some (inside : i < array.length) (a : α) :
    store array i a = some (array.set i a) := if_pos inside

theorem set_getElem? (inside : i < array.length) (j : Nat) :
    (array.set i a)[j]? = if j = i then some a else array[j]? := by
  rw [List.getElem?_set]
  by_cases same : i = j
  · subst same
    rw [if_pos rfl, if_pos inside, if_pos rfl]
  · rw [if_neg same, if_neg (Ne.symm same)]

end

/-! ## Counting -/

theorem countLengths_eq (lens : List Nat) (l : Nat) : countLengths lens l = lens.count l := by
  have general : ∀ count : Nat → Nat, lens.foldl (fun count len => fun l =>
      if l = len then count l + 1 else count l) count l = count l + lens.count l := by
    induction lens with
    | nil => intro count; rfl
    | cons len lens ih =>
      intro count
      rw [List.foldl_cons, ih, List.count_cons]
      by_cases same : l = len
      · rw [if_pos same, if_pos (beq_iff_eq.mpr same.symm)]
        omega
      · rw [if_neg same, if_neg (fun eq => same (beq_iff_eq.mp eq).symm)]
        omega
  exact (general _).trans (Nat.zero_add _)

section

variable {count : Nat → Nat}

theorem findMax_spec (m : Nat) :
    findMax count m ≤ m ∧ (findMax count m ≠ 0 → count (findMax count m) ≠ 0) ∧
      ∀ l, findMax count m < l → l ≤ m → count l = 0 := by
  induction m with
  | zero => exact ⟨Nat.le_refl 0, fun some => absurd rfl some, fun l more less => by
      simp only [findMax] at more
      omega⟩
  | succ m ih =>
    unfold findMax
    by_cases some : count (m + 1) ≠ 0
    · rw [if_pos some]
      exact ⟨Nat.le_refl _, fun _ => some, fun l more less => by omega⟩
    · rw [if_neg some]
      obtain ⟨le, found, none⟩ := ih
      refine ⟨Nat.le_succ_of_le le, found, fun l more less => ?_⟩
      rcases Nat.eq_or_lt_of_le less with same | less
      · rw [same]
        exact Classical.not_not.mp some
      · exact none l more (Nat.le_of_lt_succ less)

theorem findMin_spec (rounds min : Nat) (some : count (min + rounds) ≠ 0) :
    min ≤ findMin count rounds min ∧ findMin count rounds min ≤ min + rounds ∧
      count (findMin count rounds min) ≠ 0 ∧
      ∀ l, min ≤ l → l < findMin count rounds min → count l = 0 := by
  induction rounds generalizing min with
  | zero => exact ⟨Nat.le_refl _, Nat.le_refl _, some, fun l least less => by
      simp only [findMin] at less
      omega⟩
  | succ rounds ih =>
    unfold findMin
    by_cases here : count min ≠ 0
    · rw [if_pos here]
      exact ⟨Nat.le_refl _, Nat.le_add_right _ _, here, fun l least less => by omega⟩
    · rw [if_neg here]
      have further : min + 1 + rounds = min + (rounds + 1) := by omega
      rw [← further] at some ⊢
      obtain ⟨least, most, found, none⟩ := ih (min + 1) some
      refine ⟨by omega, most, found, fun l le less => ?_⟩
      rcases Nat.eq_or_lt_of_le le with same | more
      · rw [← same]
        exact Classical.not_not.mp here
      · exact none l more less

end

/-- The check for an over-subscribed set, and what it finds to be left. -/
theorem checkLeft_eq (lens : List Nat) (rounds l : Nat) (fits : taken lens l ≤ 2 ^ l) :
    checkLeft (countLengths lens) rounds (l + 1) ((2 ^ l - taken lens l : Nat) : Int) =
      if taken lens (l + rounds) ≤ 2 ^ (l + rounds) then
        some ((2 ^ (l + rounds) - taken lens (l + rounds) : Nat) : Int) else none := by
  induction rounds generalizing l with
  | zero => rw [checkLeft, Nat.add_zero, if_pos fits]
  | succ rounds ih =>
    have further : l + 1 + rounds = l + (rounds + 1) := by omega
    have codes := taken_succ lens l
    have power : 2 ^ (l + 1) = 2 ^ l * 2 := Nat.pow_succ 2 l
    unfold checkLeft
    rw [countLengths_eq]
    by_cases more : taken lens (l + 1) ≤ 2 ^ (l + 1)
    · have next : 2 * ((2 ^ l - taken lens l : Nat) : Int) - (lens.count (l + 1) : Nat) =
          (2 ^ (l + 1) - taken lens (l + 1) : Nat) := by omega
      simp only [next]
      rw [if_neg (by omega), ih (l + 1) more, further]
    · -- Once there are too many codewords, there are too many of any greater length.
      have after : ∀ d, 2 ^ (l + 1 + d) < taken lens (l + 1 + d) := by
        intro d
        induction d with
        | zero => exact Nat.lt_of_not_le more
        | succ d ihd =>
          have codes' := taken_succ lens (l + 1 + d)
          have power' : 2 ^ (l + 1 + d + 1) = 2 ^ (l + 1 + d) * 2 := Nat.pow_succ 2 _
          rw [← Nat.add_assoc]
          omega
      have last := after rounds
      rw [further] at last
      rw [if_pos (by omega), if_neg (Nat.not_le.mpr last)]

/-! ## Sorting -/

section

variable {lens : List Nat} {l m sym : Nat}

theorem length_inOrder (lens : List Nat) (m : Nat) :
    (inOrder lens m).length = offsets (countLengths lens) (m + 1) := by
  induction m with
  | zero => rfl
  | succ m ih =>
    rw [inOrder, List.length_append, ih, length_ofLength, offsets, countLengths_eq]

theorem inOrder_mono {m' : Nat} (within : m ≤ m') : inOrder lens m <+: inOrder lens m' := by
  induction m' with
  | zero =>
    obtain rfl := Nat.le_zero.mp within
    exact List.prefix_refl _
  | succ m' ih =>
    rcases Nat.eq_or_lt_of_le within with same | less
    · exact same ▸ List.prefix_refl _
    · exact (ih (Nat.le_of_lt_succ less)).trans (List.prefix_append _ _)

/-- Where a symbol comes in the order. -/
theorem inOrder_offset (inside : sym < lens.length) (some : 1 ≤ lens.getD sym 0)
    (few : lens.getD sym 0 ≤ m) :
    (inOrder lens m)[offsets (countLengths lens) (lens.getD sym 0) +
      (lens.take sym).count (lens.getD sym 0)]? = .some sym := by
  obtain ⟨l, isLen⟩ : ∃ l, lens.getD sym 0 = l + 1 := ⟨lens.getD sym 0 - 1, by omega⟩
  rw [isLen] at few ⊢
  obtain ⟨i, there⟩ := List.getElem?_of_mem (mem_ofLength.mpr ⟨inside, isLen⟩)
  obtain ⟨-, -, is⟩ := ofLength_index there
  have here : (inOrder lens (l + 1))[offsets (countLengths lens) (l + 1) +
      (lens.take sym).count (l + 1)]? = .some sym := by
    rw [inOrder, List.getElem?_append_right (by rw [length_inOrder]; omega), length_inOrder,
      Nat.add_sub_cancel_left, ← is]
    exact there
  obtain ⟨rest, whole⟩ : inOrder lens (l + 1) <+: inOrder lens m := inOrder_mono few
  obtain ⟨less, -⟩ := List.getElem?_eq_some_iff.mp here
  rw [← whole, List.getElem?_append_left less]
  exact here

end

/-- Where the sorting loop puts a symbol. -/
def sortedAt (lens : List Nat) (sym : Nat) : Nat :=
  offsets (countLengths lens) (lens.getD sym 0) + (lens.take sym).count (lens.getD sym 0)

/-- The rest of the sorting loop, behind the symbols that are in place. -/
theorem sortSymbols_places (lens : List Nat) {m : Nat} (most : ∀ l ∈ lens, l ≤ m) :
    ∀ (rest done : List Nat) (offs : Nat → Nat) (work : List Nat), lens = done ++ rest →
      (inOrder lens m).length ≤ work.length →
      (∀ l ≠ 0, offs l = offsets (countLengths lens) l + done.count l) →
      (∀ sym < done.length, 1 ≤ lens.getD sym 0 → work[sortedAt lens sym]? = some sym) →
      ∃ work', sortSymbols rest done.length offs work = some work' ∧
        ∀ sym < lens.length, 1 ≤ lens.getD sym 0 → work'[sortedAt lens sym]? = some sym := by
  intro rest
  have few : ∀ {sym}, sym < lens.length → lens.getD sym 0 ≤ m := by
    intro sym inside
    rw [List.getD_eq_getElem?_getD, List.getElem?_eq_getElem inside]
    exact most _ (List.getElem_mem inside)
  induction rest with
  | nil =>
    intro done offs work whole _ _ placed
    rw [List.append_nil] at whole
    exact ⟨work, rfl, by rw [whole] at placed ⊢; exact placed⟩
  | cons len rest ih =>
    intro done offs work whole room isOffs placed
    have whole' : lens = (done ++ [len]) ++ rest := by rw [whole, List.append_assoc]; rfl
    have inside : done.length < lens.length := by rw [whole]; simp
    have isLen : lens.getD done.length 0 = len := by
      rw [whole, List.getD_eq_getElem?_getD, List.getElem?_append_right (Nat.le_refl _),
        Nat.sub_self]
      rfl
    have before : lens.take done.length = done := by rw [whole, List.take_left]
    have longer : (done ++ [len]).length = done.length + 1 := by simp
    unfold sortSymbols
    by_cases none : len = 0
    · -- A symbol without a code has no place.
      rw [if_neg (Classical.not_not.mpr none), ← longer]
      apply ih (done ++ [len]) offs work whole' room
      · intro l some
        rw [isOffs l some, List.count_append, none, List.count_singleton,
          if_neg fun eq => some (beq_iff_eq.mp eq).symm, Nat.add_zero]
      · intro sym less some
        have old : sym ≠ done.length := by
          intro same
          rw [same, isLen, none] at some
          exact absurd some (Nat.not_succ_le_zero 0)
        exact placed sym (by omega) some
    · have isAt : offs len = sortedAt lens done.length := by
        rw [isOffs len none, sortedAt, isLen, before]
      have here := inOrder_offset inside (by omega) (few inside)
      have room' : offs len < work.length := by
        obtain ⟨less, -⟩ := List.getElem?_eq_some_iff.mp here
        rw [isAt]
        exact Nat.lt_of_lt_of_le less room
      rw [if_pos none, store_some room', ← longer]
      apply ih (done ++ [len]) _ _ whole'
      · rw [List.length_set]
        exact room
      · intro l some
        rw [isOffs l some, List.count_append, List.count_singleton]
        by_cases same : l = len
        · rw [if_pos same, if_pos (beq_iff_eq.mpr same.symm)]
          rfl
        · rw [if_neg same, if_neg fun eq => same (beq_iff_eq.mp eq).symm]
          rfl
      · intro sym less some
        rw [set_getElem? room']
        by_cases last : sym = done.length
        · rw [last, if_pos isAt.symm]
        · have old : sym < done.length := by omega
          -- Two symbols have two places, because the order has one symbol at each.
          have other : sortedAt lens sym ≠ offs len := by
            intro same
            have there :=
              inOrder_offset (Nat.lt_trans old inside) some (few (Nat.lt_trans old inside))
            have one : sortedAt lens sym = sortedAt lens done.length := same.trans isAt
            unfold sortedAt at one
            rw [one, here] at there
            exact last (Option.some.inj there).symm
          rw [if_neg other]
          exact placed sym old some

/-- The loop that sorts the symbols. -/
theorem sortSymbols_sorts (lens : List Nat) {m : Nat} (most : ∀ l ∈ lens, l ≤ m) {work : List Nat}
    (room : (inOrder lens m).length ≤ work.length) :
    ∃ work', sortSymbols lens 0 (offsets (countLengths lens)) work = some work' ∧
      ∀ (k sym : Nat), (inOrder lens m)[k]? = some sym → work'[k]? = some sym := by
  obtain ⟨work', sorts, placed⟩ := sortSymbols_places lens most lens [] _ work rfl room
    (fun l _ => rfl) (fun sym less => absurd less (Nat.not_lt_zero sym))
  refine ⟨work', sorts, fun k sym there => ?_⟩
  obtain ⟨inside, some, few⟩ := mem_inOrder.mp (List.mem_of_getElem? there)
  have here := inOrder_offset inside some few
  have same : k = sortedAt lens sym :=
    (List.getElem?_inj (List.getElem?_eq_some_iff.mp there).1 (nodup_inOrder lens m)).mp
      (there.trans here.symm)
  rw [same]
  exact placed sym inside some

/-! ## Codes -/

section

variable {huff len c : Nat}

/-- The increment does not look at the bits behind the code. -/
theorem backIncrement_mod (huff len : Nat) :
    backIncrement huff len = backIncrement (huff % 2 ^ len) len := by
  induction len generalizing huff with
  | zero => rfl
  | succ len ih =>
    have low : huff % 2 ^ (len + 1) % 2 ^ len = huff % 2 ^ len :=
      Nat.mod_mod_of_dvd _ (Nat.pow_dvd_pow 2 (Nat.le_succ len))
    have bit : huff % 2 ^ (len + 1) &&& 1 <<< len = huff &&& 1 <<< len := by
      apply Nat.eq_of_testBit_eq
      intro i
      rw [Nat.testBit_and, Nat.testBit_and, Nat.testBit_mod_two_pow, Nat.one_shiftLeft,
        Nat.testBit_two_pow]
      by_cases same : len = i
      · simp [← same]
      · simp [same]
    simp only [backIncrement, bit]
    split
    · rw [ih huff, ih (huff % 2 ^ (len + 1)), low]
    · rw [Nat.one_shiftLeft, Nat.and_two_pow_sub_one_eq_mod, Nat.and_two_pow_sub_one_eq_mod, low]

/-- The increment of the code, with its bits the other way round. -/
theorem backIncrement_reverseBits (small : c < 2 ^ len) :
    backIncrement (reverseBits len c) len = reverseBits len ((c + 1) % 2 ^ len) := by
  induction len generalizing c with
  | zero => rfl
  | succ len ih =>
    have half : c / 2 < 2 ^ len := by
      rw [Nat.pow_succ] at small
      omega
    have rest := reverseBits_lt len (c / 2)
    have top : reverseBits (len + 1) c &&& 1 <<< len ≠ 0 ↔ c % 2 = 1 := by
      rw [Nat.one_shiftLeft, Nat.and_two_pow, reverseBits_testBit]
      have positive := Nat.two_pow_pos len
      have first : len + 1 - 1 - len = 0 := by omega
      rw [first, Nat.testBit_zero]
      rcases Nat.mod_two_eq_zero_or_one c with even | odd
      · simp [even]
      · simp [odd]
    have low : reverseBits (len + 1) c % 2 ^ len = reverseBits len (c / 2) := by
      rw [reverseBits, Nat.add_comm, Nat.add_mul_mod_self_right, Nat.mod_eq_of_lt rest]
    unfold backIncrement
    by_cases odd : c % 2 = 1
    · -- The last bit of the code is set: it is cleared, and the bit before it is next.
      have carried : (c + 1) % 2 ^ (len + 1) = (c / 2 + 1) % 2 ^ len * 2 := by
        rw [Nat.pow_succ, ← Nat.mul_mod_mul_right]
        congr 1
        omega
      rw [if_pos (top.mpr odd), backIncrement_mod, low, ih half, reverseBits, carried,
        Nat.mul_mod_left, Nat.zero_mul, Nat.zero_add, Nat.mul_div_cancel _ (by decide)]
    · have bit : (c + 1) % 2 ^ (len + 1) = c + 1 := by
        apply Nat.mod_eq_of_lt
        rw [Nat.pow_succ] at small ⊢
        omega
      have same : (c + 1) / 2 = c / 2 := by omega
      have set : (c + 1) % 2 = 1 := by omega
      rw [if_neg (mt top.mp odd), Nat.one_shiftLeft, Nat.and_two_pow_sub_one_eq_mod, low, bit,
        reverseBits, same, set, Nat.one_mul, Nat.add_comm]

end

/-- The loop that replicates an entry. -/
theorem fillEntries_spec {base v d c : Nat} (here : Code) (small : v < 2 ^ d) (le : d ≤ c)
    {table : List Code} (room : base + 2 ^ c ≤ table.length) :
    ∃ table', fillEntries (base + v) (2 ^ d) here (2 ^ c / 2 ^ d) table = some table' ∧
      table'.length = table.length ∧ ∀ i, table'[i]? =
        if base ≤ i ∧ i < base + 2 ^ c ∧ (i - base) % 2 ^ d = v then some here else table[i]? := by
  have general : ∀ rounds, rounds ≤ 2 ^ (c - d) → ∀ table : List Code,
      base + 2 ^ c ≤ table.length → ∃ table',
      fillEntries (base + v) (2 ^ d) here rounds table = some table' ∧
      table'.length = table.length ∧ ∀ i, table'[i]? =
        if base ≤ i ∧ i < base + rounds * 2 ^ d ∧ (i - base) % 2 ^ d = v then some here
        else table[i]? := by
    intro rounds
    induction rounds with
    | zero =>
      intro _ table _
      refine ⟨table, rfl, rfl, fun i => (if_neg ?_).symm⟩
      omega
    | succ rounds ih =>
      intro few table room
      have size : 2 ^ c = 2 ^ (c - d) * 2 ^ d := by rw [← Nat.pow_add, Nat.sub_add_cancel le]
      have less : (rounds + 1) * 2 ^ d ≤ 2 ^ (c - d) * 2 ^ d := Nat.mul_le_mul_right _ few
      rw [Nat.add_mul, Nat.one_mul] at less
      have inside : base + v + rounds * 2 ^ d < table.length := by omega
      obtain ⟨table', fills, length, entries⟩ := ih (by omega)
        (table.set (base + v + rounds * 2 ^ d) here) (by rw [List.length_set]; exact room)
      refine ⟨table', ?_, by rw [length, List.length_set], fun i => ?_⟩
      · rw [fillEntries, store_some inside]
        exact fills
      · rw [entries i, set_getElem? inside, Nat.add_mul, Nat.one_mul]
        by_cases last : i = base + v + rounds * 2 ^ d
        · have rest : (i - base) % 2 ^ d = v := by
            rw [last, Nat.add_assoc, Nat.add_sub_cancel_left, Nat.add_mul_mod_self_right,
              Nat.mod_eq_of_lt small]
          rw [if_pos last, ite_self, if_pos ⟨by omega, by omega, rest⟩]
        · rw [if_neg last]
          congr 1
          rw [eq_iff_iff]
          constructor
          · rintro ⟨least, most, rest⟩
            exact ⟨least, by omega, rest⟩
          · rintro ⟨least, most, rest⟩
            refine ⟨least, ?_, rest⟩
            -- Of the indices of this round only the one written has the remainder `v`.
            apply Nat.lt_of_not_le
            intro behind
            have split : i - base = (i - base - rounds * 2 ^ d) + rounds * 2 ^ d := by omega
            rw [split, Nat.add_mul_mod_self_right, Nat.mod_eq_of_lt (by omega)] at rest
            omega
  have quotient : 2 ^ c / 2 ^ d = 2 ^ (c - d) := Nat.pow_div le (by decide)
  obtain ⟨table', fills, length, entries⟩ := general _ (Nat.le_refl _) table room
  rw [← Nat.pow_add, Nat.sub_add_cancel le] at entries
  rw [quotient]
  exact ⟨table', fills, length, entries⟩

/-! ## Sub-tables -/

/-- How much of the space the codewords of at most `t` bits take. -/
def massTo (m : Nat) (ls : List Nat) (t : Nat) : Nat :=
  (ls.map fun l => if l ≤ t then 2 ^ (m - l) else 0).sum

theorem massTo_succ (m : Nat) (ls : List Nat) (t : Nat) :
    massTo m ls (t + 1) = massTo m ls t + ls.count (t + 1) * 2 ^ (m - (t + 1)) := by
  induction ls with
  | nil => simp [massTo]
  | cons l ls ih =>
    have step : massTo m (l :: ls) t = (if l ≤ t then 2 ^ (m - l) else 0) + massTo m ls t := rfl
    have step' : massTo m (l :: ls) (t + 1) =
        (if l ≤ t + 1 then 2 ^ (m - l) else 0) + massTo m ls (t + 1) := rfl
    rw [step, step', ih, List.count_cons]
    rcases Nat.lt_trichotomy l (t + 1) with less | same | more
    · have other : ¬ (l == t + 1) = true := by simp [Nat.ne_of_lt less]
      simp only [if_pos (show l ≤ t by omega), if_pos (show l ≤ t + 1 by omega), if_neg other,
        Nat.add_zero]
      omega
    · subst same
      rw [if_pos (Nat.le_refl _), if_neg (by omega), if_pos (beq_self_eq_true _), Nat.add_mul]
      omega
    · have other : ¬ (l == t + 1) = true := by simp [Nat.ne_of_gt more]
      simp only [if_neg (show ¬ l ≤ t by omega), if_neg (show ¬ l ≤ t + 1 by omega), if_neg other,
        Nat.add_zero]
      omega

theorem massTo_append (m : Nat) (ls ls' : List Nat) (t : Nat) :
    massTo m (ls ++ ls') t = massTo m ls t + massTo m ls' t := by
  rw [massTo, List.map_append, List.sum_append]
  rfl

theorem massTo_longer {m t : Nat} {ls : List Nat} (longer : ∀ l ∈ ls, t < l) :
    massTo m ls t = 0 := by
  induction ls with
  | nil => rfl
  | cons l ls ih =>
    have first := longer l List.mem_cons_self
    rw [massTo, List.map_cons, List.sum_cons, if_neg (by omega), Nat.zero_add]
    exact ih fun l' mem => longer l' (List.mem_cons_of_mem l mem)

theorem massTo_le (m : Nat) (ls : List Nat) (t : Nat) :
    massTo m ls t ≤ (ls.map fun l => 2 ^ (m - l)).sum := by
  induction ls with
  | nil => exact Nat.le_refl 0
  | cons l ls ih =>
    have step : massTo m (l :: ls) t = (if l ≤ t then 2 ^ (m - l) else 0) + massTo m ls t := rfl
    have first : (if l ≤ t then 2 ^ (m - l) else 0) ≤ 2 ^ (m - l) := by
      split
      · exact Nat.le_refl _
      · exact Nat.zero_le _
    rw [step, List.map_cons, List.sum_cons]
    exact Nat.add_le_add first ih

/-- A code of more than `t` bits comes behind all those from the `k`th on that have fewer. -/
theorem massTo_place {m : Nat} {ls : List Nat} (ordered : Ordered m ls) {j k l t : Nat}
    (inside : ls[j]? = some l) (longer : t < l) (behind : k ≤ j) :
    place m ls k + massTo m (ls.drop k) t ≤ place m ls j := by
  obtain ⟨d, rfl⟩ := Nat.exists_eq_add_of_le behind
  have rest : massTo m ((ls.drop k).drop d) t = 0 := by
    apply massTo_longer
    intro l' mem
    obtain ⟨i, there⟩ := List.getElem?_of_mem mem
    rw [List.drop_drop, List.getElem?_drop] at there
    exact Nat.lt_of_lt_of_le longer (ordered.le (Nat.le_add_right _ _) inside there)
  have parts := massTo_append m ((ls.drop k).take d) ((ls.drop k).drop d) t
  have few := massTo_le m ((ls.drop k).take d) t
  rw [List.take_append_drop, rest, Nat.add_zero] at parts
  rw [place, place, List.take_add, List.map_append, List.sum_append, parts]
  omega

/-- The size of a sub-table: it is large enough for the longest code, or for as many of the next
codes as fill the space behind `drop` bits. -/
theorem subBits_spec {m drop : Nat} {count : Nat → Nat} {ls : List Nat}
    (counts : ∀ l, 1 ≤ l → count l = ls.count l) (rounds curr : Nat) {left : Int}
    (some : 1 ≤ curr + drop) (within : curr + drop + rounds ≤ m)
    (remains : left * 2 ^ (m - (curr + drop)) + massTo m ls (curr + drop - 1) =
      (2 ^ (m - drop) : Nat)) :
    let size := subBits count drop rounds curr left
    curr ≤ size ∧ size ≤ curr + rounds ∧
      (size = curr + rounds ∨ 2 ^ (m - drop) ≤ massTo m ls (size + drop)) := by
  induction rounds generalizing curr left with
  | zero => exact ⟨Nat.le_refl _, Nat.le_refl _, .inl rfl⟩
  | succ rounds ih =>
    have mass := massTo_succ m ls (curr + drop - 1)
    rw [Nat.sub_add_cancel some, ← counts _ some] at mass
    simp only [subBits]
    by_cases full : left - count (curr + drop) ≤ 0
    · rw [if_pos full]
      refine ⟨Nat.le_refl _, Nat.le_add_right _ _, .inr ?_⟩
      have scaled : (left - count (curr + drop)) * 2 ^ (m - (curr + drop)) ≤ 0 :=
        Int.mul_nonpos_of_nonpos_of_nonneg full (Int.le_of_lt (Int.pow_pos (by decide)))
      rw [Int.sub_mul] at scaled
      rw [mass]
      have cast : ((count (curr + drop) * 2 ^ (m - (curr + drop)) : Nat) : Int) =
          count (curr + drop) * 2 ^ (m - (curr + drop)) := by push_cast; rfl
      omega
    · rw [if_neg full]
      have power : (2 : Int) ^ (m - (curr + drop)) = 2 * 2 ^ (m - (curr + 1 + drop)) := by
        rw [← Int.pow_succ', show m - (curr + drop) = m - (curr + 1 + drop) + 1 by omega]
      have remains' : 2 * (left - count (curr + drop)) * 2 ^ (m - (curr + 1 + drop)) +
          massTo m ls (curr + 1 + drop - 1) = (2 ^ (m - drop) : Nat) := by
        have further : curr + 1 + drop - 1 = curr + drop := by omega
        rw [further, mass, ← remains, Int.mul_comm 2, Int.mul_assoc, ← power, Int.sub_mul]
        push_cast
        omega
      obtain ⟨least, most, enough⟩ := ih (curr + 1) (by omega) (by omega) remains'
      refine ⟨by omega, by omega, ?_⟩
      rcases enough with all | enough
      · exact .inl (by omega)
      · exact .inr enough

end CheriGzip.Inflate
