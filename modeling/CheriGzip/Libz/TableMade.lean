import CheriGzip.Libz.TableLookup
import Mathlib.Data.List.Perm.Subperm

/-!
# inflate_table is correct

The function as a whole: it rejects exactly the sets of lengths that it is to reject, and the tables
that it makes decode the code of all others.
-/
namespace CheriGzip.Inflate

open Loop

/-- There is space for the tables. The lengths of the lengths have 3 bits, and `bits` is 7 for
them. -/
def CodeType.Room (type : CodeType) (lens : List Nat) (bits first size : Nat) : Prop :=
  match type with
  | .codes => (∀ l ∈ lens, l ≤ bits) ∧ first + 2 ^ bits ≤ size
  | .lens => first + enoughLens ≤ size
  | .dists => first + enoughDists ≤ size

/-- What `inflate_table` is called with. -/
structure Usable (type : CodeType) (lens : List Nat) (table : List Code) (first bits : Nat)
    (work : List Nat) : Prop where
  few : ∀ l ∈ lens, l ≤ 15
  known : lens.length ≤ type.symbols
  space : lens.length ≤ work.length
  some : 1 ≤ bits
  room : type.Room lens bits first table.length

/-- The sets of lengths that are not rejected: those whose codes take all bits, no code at all, and
a single code of one bit, but not for the lengths of the lengths. -/
def Accepted (type : CodeType) (lens : List Nat) : Prop :=
  taken lens 15 = 2 ^ 15 ∨ (∀ l ∈ lens, l = 0) ∨ type ≠ .codes ∧ lengths lens 15 = [1]

section

variable {type : CodeType} {lens : List Nat} {table : List Code} {first bits max root : Nat}
  {work : List Nat}

theorem length_inOrder_le (lens : List Nat) (m : Nat) : (inOrder lens m).length ≤ lens.length := by
  have subset : inOrder lens m ⊆ List.range lens.length := fun _ mem =>
    List.mem_range.mpr (mem_inOrder.mp mem).1
  have le := ((nodup_inOrder lens m).subperm subset).length_le
  rwa [List.length_range] at le

/-- The longest code and the size of the root table. -/
structure Sized (type : CodeType) (lens : List Nat) (bits max root : Nat) : Prop where
  longest : ∀ l ∈ lengths lens 15, l ≤ max
  last : max ∈ lengths lens 15
  least : 1 ≤ root
  within : root ≤ max
  whole : max ≤ bits → root = max

theorem Usable.ready (usable : Usable type lens table first bits work)
    (sized : Sized type lens bits max root) (fits : taken lens 15 ≤ 2 ^ 15) {work' : List Nat}
    (sorted : ∀ (k sym : Nat), (inOrder lens 15)[k]? = .some sym → work'[k]? = .some sym) :
    (Request.mk type lens work' max root first).Ready table.length := by
  constructor
  case fits => exact fits
  case sorted => exact sorted
  case longest => exact sized.longest
  case last => exact sized.last
  case least => exact sized.least
  case within => exact sized.within
  case here =>
    intro sym inside
    obtain ⟨op, val, -, -, is⟩ := type.here_some (Nat.lt_of_lt_of_le inside usable.known)
    exact ⟨op, val, is _ rfl⟩
  case flat =>
    intro is
    have room := usable.room
    rw [show type = .codes from is] at room
    have most := room.1 max ((mem_lengths lens 15 max).mp sized.last).1
    exact Nat.le_of_eq (sized.whole most).symm
  case room =>
    intro used within flat
    have room := usable.room
    show first + used ≤ table.length
    have within' : ¬ type.Exceeded used := within
    cases type with
    | codes =>
      have most := room.1 max ((mem_lengths lens 15 max).mp sized.last).1
      have power : 2 ^ root ≤ 2 ^ bits :=
        Nat.pow_le_pow_right (by decide) (Nat.le_trans sized.within most)
      rw [show used = 2 ^ root from flat rfl]
      exact Nat.le_trans (Nat.add_le_add_left power first) room.2
    | lens =>
      have le : ¬ used > enoughLens := fun more => within' (.inl ⟨rfl, more⟩)
      exact Nat.le_trans (Nat.add_le_add_left (Nat.le_of_not_lt le) first) room
    | dists =>
      have le : ¬ used > enoughDists := fun more => within' (.inr ⟨rfl, more⟩)
      exact Nat.le_trans (Nat.add_le_add_left (Nat.le_of_not_lt le) first) room

/-- What the tables are left as. -/
structure Made (type : CodeType) (lens : List Nat) (table : List Code) (first : Nat)
    (built : Built) : Prop where
  length : built.table.length = table.length
  before : ∀ i < first, built.table[i]? = table[i]?
  failed : built.ret = 1 → type ≠ .codes
  made : built.ret ≠ 1 → built.ret = 0 ∧ first ≤ built.next ∧ built.next ≤ table.length ∧
    ¬ type.Exceeded (built.next - first) ∧ (∀ i, built.next ≤ i → built.table[i]? = table[i]?) ∧
    ∀ table' : List Code, (∀ i < built.next, table'[i]? = built.table[i]?) →
      Decodes type lens (table'.drop first) built.bits

/-- The tables do not depend on what is behind them. -/
theorem Entire.covered {r : Request} {b : Builder} (entire : Entire r table b) {table' : List Code}
    (same : ∀ i < r.first + b.used, table'[i]? = b.table[i]?) :
    ∀ j < r.lengths.length, Covers r table' (b.lim r) j := by
  intro j below sym there w start stop
  have index := Nat.mod_lt w (Nat.two_pow_pos r.root)
  have filled := entire.filled
  have few := entire.few
  refine (entire.covers j below sym there w start stop).keep (Nat.le_refl _) (same _ (by omega)) ?_
  intro curr off _ _ _ _ inside
  have place := Nat.mod_lt (w / 2 ^ r.root) (Nat.two_pow_pos curr)
  have most : b.lim r (w % 2 ^ r.root) ≤ b.used := by
    rw [Builder.lim]
    split
    · exact Nat.le_refl _
    · exact few
  exact same _ (by omega)

/-- Codes that take all bits leave no entry to be filled. -/
theorem Entire.complete {r : Request} {b : Builder} (entire : Entire r table b)
    (ready : r.Ready table.length) (known : r.lens.length ≤ r.type.symbols)
    (few : ∀ l ∈ r.lens, l ≤ 15) (whole : taken r.lens 15 = 2 ^ 15) :
    lastEntry b = some b.table ∧ ∀ table' : List Code,
      (∀ i < r.first + b.used, table'[i]? = b.table[i]?) →
      Decodes r.type r.lens (table'.drop r.first) r.root := by
  constructor
  · have none : reverseBits 15 (2 ^ 15) = 0 := by decide
    rw [lastEntry, entire.huff, whole, none]
    rfl
  · intro table' same
    refine ready.decodes known few (entire.covered same) ?_
    intro w behind
    rw [whole] at behind
    exact absurd (CheriGzip.reverseBits_lt 15 w) (Nat.not_lt_of_le behind)

/-- Where there is only one code, of one bit, the other bit gets the entry of an invalid code. -/
theorem Entire.sole {r : Request} {b : Builder} (entire : Entire r table b)
    (ready : r.Ready table.length) (known : r.lens.length ≤ r.type.symbols)
    (few : ∀ l ∈ r.lens, l ≤ 15) (sole : r.lengths = [1]) :
    ∃ last, lastEntry b = some last ∧ last.length = b.table.length ∧
      (∀ i, i < r.first ∨ r.first + b.used ≤ i → last[i]? = b.table[i]?) ∧
      ∀ table' : List Code, (∀ i < r.first + b.used, table'[i]? = last[i]?) →
        Decodes r.type r.lens (table'.drop r.first) r.root := by
  have most : r.max = 1 := by
    have mem := ready.last
    rw [sole] at mem
    exact List.mem_singleton.mp mem
  have root : r.root = 1 := Nat.le_antisymm (most ▸ ready.within) ready.least
  obtain ⟨drop, next, used⟩ := entire.single (Nat.le_of_eq (most.trans root.symm))
  have half : taken r.lens 15 = 2 ^ 14 := by
    rw [← r.place_end, Request.place, sole]
    rfl
  rw [root, Nat.pow_one] at used
  have room : r.first + 1 < b.table.length := by
    have within := ready.room _ entire.roomy entire.flat
    rw [entire.length]
    omega
  have entries := set_getElem? room (a := Code.mk 64 1 0)
  have length : (b.table.set (r.first + 1) ⟨64, 1, 0⟩).length = b.table.length := List.length_set
  refine ⟨b.table.set (r.first + 1) ⟨64, 1, 0⟩, ?_, length, ?_, ?_⟩
  · have one : reverseBits 15 (2 ^ 14) = 1 := by decide
    rw [lastEntry, entire.huff, half, one, next, entire.len, most, drop]
    exact store_some room _
  · intro i outside
    rw [entries, if_neg (by omega)]
  · intro table' same
    have covered : ∀ j < r.lengths.length, Covers r table' (b.lim r) j := by
      intro j below sym there w start stop
      have first : j = 0 := by
        rw [sole] at below
        exact Nat.lt_one_iff.mp below
      subst first
      have inside : r.lengths[0]? = some 1 := by
        rw [sole]
        rfl
      have even := (ready.ordered.mod_iff ready.place_le inside).mpr ⟨start, stop⟩
      have zero : reverseBits 15 (place 15 r.lengths 0) = 0 := by
        rw [place_zero]
        decide
      rw [zero] at even
      refine (entire.covers 0 below sym there w start stop).keep (Nat.le_refl _) ?_ ?_
      · rw [root, even, same _ (by omega), entries, if_neg (by omega)]
      · intro curr off _ long
        obtain ⟨sym', there', -, len⟩ := Request.lengths_sym inside
        rw [there] at there'
        cases there'
        omega
    refine ready.decodes known few covered ?_
    intro w behind w' alike
    rw [half] at behind
    have odd : w % 2 ^ 1 = reverseBits 1 1 := by
      have below := CheriGzip.reverseBits_lt 15 w
      rw [mod_reverseBits_iff (show 1 ≤ 15 by decide) (by decide)]
      constructor <;> omega
    have one : reverseBits 1 1 = 1 := by decide
    rw [one] at odd
    refine .root ready.least ?_
    rw [root, alike, odd, same _ (by omega), entries, if_pos rfl]

theorem CodeType.Exceeded.codes {type : CodeType} {used : Nat} (exceeded : type.Exceeded used) :
    type ≠ .codes := by
  rintro rfl
  rcases exceeded with ⟨is, -⟩ | ⟨is, -⟩ <;> cases is

/-- The state that the loop starts in. -/
def Builder.start (r : Request) (min : Nat) (table : List Code) : Builder :=
  { huff := 0, sym := 0, len := min, next := r.first, curr := r.root, drop := 0,
    low := 2 ^ 32 - 1, used := 2 ^ r.root, count := countLengths r.lens, table := table }

theorem Reached.start {r : Request} (few : ∀ l ∈ r.lens, l ≤ 15) {min : Nat}
    (least : r.lengths[0]? = some min) (roomy : ¬ r.type.Exceeded (2 ^ r.root)) :
    Reached r table (Builder.start r min table) 0 := by
  constructor
  case sym => rfl
  case inside => exact least
  case huff =>
    show 0 = reverseBits 15 (place 15 r.lengths 0)
    rw [place_zero]
    decide
  case count =>
    intro l some
    show countLengths r.lens l = _
    rw [countLengths_eq, List.drop_zero, Request.lengths, count_lengths]
    by_cases within : 1 ≤ l ∧ l ≤ 15
    · rw [if_pos within]
    · rw [if_neg within]
      apply List.count_eq_zero.mpr
      intro mem
      exact within ⟨some, few l mem⟩
  case length => rfl
  case frame => exact fun _ _ => rfl
  case roomy => exact roomy
  case flat => exact fun _ => rfl
  case covers => exact fun _ before => absurd before (Nat.not_lt_zero _)

/-- The loop from its start on, for codes that take all bits and for a single code of one. -/
theorem buildTables_made {r : Request} (ready : r.Ready table.length)
    (known : r.lens.length ≤ r.type.symbols) (few : ∀ l ∈ r.lens, l ≤ 15)
    (bits : Nat) {min : Nat} (least : r.lengths[0]? = some min) (fits : min ≤ r.root)
    (whole : taken r.lens 15 = 2 ^ 15 ∨ r.lengths = [1]) :
    ∃ built, buildTables r bits min (countLengths r.lens) table = some built ∧
      Made r.type r.lens table r.first built := by
  rw [buildTables, Nat.one_shiftLeft]
  by_cases exceeded : r.type.Exceeded (2 ^ r.root)
  · refine ⟨_, if_pos exceeded, rfl, fun _ _ => rfl, fun _ => exceeded.codes, ?_⟩
    exact fun other => absurd rfl other
  · have reached : Reached r table (Builder.start r min table) 0 :=
      .start few least exceeded
    have here : Here r (Builder.start r min table) 0 :=
      .fresh ⟨rfl, rfl, rfl, rfl, rfl, fun _ before => absurd before (Nat.not_lt_zero _)⟩ fits
    have enough : r.lengths.length < r.lens.length + 0 + 1 := by
      have le := length_inOrder_le r.lens 15
      rw [Request.lengths, lengths, List.length_map]
      omega
    obtain ⟨ret, b, ran, ends⟩ := build_run ready reached here enough
    rw [if_neg exceeded]
    have ran' : run (buildRound r) (r.lens.length + 1) (Builder.start r min table) =
      some (some (ret, b)) := ran
    simp only [Builder.start] at ran'
    simp only [ran', Option.bind_eq_bind, Option.bind_some]
    rcases ends with ⟨rfl, gave⟩ | ⟨rfl, entire⟩
    · refine ⟨_, if_pos (by decide), gave.length, gave.before, fun _ => gave.codes, ?_⟩
      exact fun other => absurd rfl other
    · have within := ready.room _ entire.roomy entire.flat
      rw [if_neg (by decide)]
      have made : ∃ last, lastEntry b = some last ∧ last.length = b.table.length ∧
          (∀ i, i < r.first ∨ r.first + b.used ≤ i → last[i]? = b.table[i]?) ∧
          ∀ table' : List Code, (∀ i < r.first + b.used, table'[i]? = last[i]?) →
            Decodes r.type r.lens (table'.drop r.first) r.root := by
        rcases whole with whole | sole
        · obtain ⟨is, decodes⟩ := entire.complete ready known few whole
          exact ⟨_, is, rfl, fun _ _ => rfl, decodes⟩
        · exact entire.sole ready known few sole
      obtain ⟨last, is, length, frame, decodes⟩ := made
      rw [is, Option.bind_some]
      refine ⟨_, rfl, length.trans entire.length, ?_, ?_, ?_⟩
      · intro i before
        exact (frame i (.inl before)).trans (entire.frame i (.inl before))
      · exact fun failed => absurd (show (0 : Int) = 1 from failed) (by decide)
      · refine fun _ => ⟨rfl, Nat.le_add_right _ _, within, ?_, ?_, decodes⟩
        · rw [Nat.add_sub_cancel_left]
          exact entire.roomy
        intro i behind
        exact (frame i (.inr behind)).trans (entire.frame i (.inr behind))

/-- No code at all: the tables for it have entries for invalid codes only. -/
theorem Decodes.none (none : ∀ l ∈ lens, l = 0) {table : List Code}
    (zero : table[first]? = some ⟨64, 1, 0⟩) (one : table[first + 1]? = some ⟨64, 1, 0⟩) :
    Decodes type lens (table.drop first) 1 := by
  have leads : ∀ w, Leads table first 1 64 0 1 w := by
    intro w
    refine .root (Nat.le_refl 1) ?_
    rcases Nat.mod_two_eq_zero_or_one w with even | odd
    · rw [Nat.pow_one, even]
      exact zero
    · rw [Nat.pow_one, odd]
      exact one
  have link : 1 < 1 → ∀ curr off, 1 ≤ curr → curr < 16 → type.kind.link ⟨curr, 1, off⟩ :=
    fun long => absurd long (Nat.lt_irrefl 1)
  constructor
  case formed =>
    refine Filled.wellFormed ?_ (by decide) type.either
    exact fun w => ⟨64, 0, 1, type.isInvalid, link, fun w' _ => leads w'⟩
  case symbol =>
    intro x c sym n codeAt
    obtain ⟨inside, rfl, some, -⟩ := codeAt
    have zero : lens.getD sym 0 = 0 := by
      rw [List.getD_eq_getElem?_getD, List.getElem?_eq_getElem inside]
      exact none _ (List.getElem_mem inside)
    omega
  case invalid =>
    intro x c _
    obtain ⟨bits, entryAt⟩ := (leads (bitField x c 15)).entryAt (by decide) link type.isInvalid
    exact ⟨_, rfl, rfl, entryAt⟩

/-- The longest code. -/
theorem findMax_lengths (few : ∀ l ∈ lens, l ≤ 15) :
    (findMax (countLengths lens) maxbits = 0 → ∀ l ∈ lens, l = 0) ∧
      (findMax (countLengths lens) maxbits ≠ 0 →
        findMax (countLengths lens) maxbits ∈ lengths lens 15 ∧
        ∀ l ∈ lengths lens 15, l ≤ findMax (countLengths lens) maxbits) := by
  obtain ⟨most, some, beyond⟩ : findMax (countLengths lens) maxbits ≤ maxbits ∧ _ ∧ _ :=
    findMax_spec maxbits
  have within : ∀ l ∈ lens, l ≤ findMax (countLengths lens) maxbits := by
    intro l mem
    apply Nat.le_of_not_lt
    intro more
    have none := beyond l more (few l mem)
    rw [countLengths_eq] at none
    exact List.count_eq_zero.mp none mem
  refine ⟨?_, ?_⟩
  · intro zero l mem
    have le := within l mem
    omega
  · intro positive
    have counted := some positive
    rw [countLengths_eq] at counted
    have mem := List.count_pos_iff.mp (Nat.pos_of_ne_zero counted)
    exact ⟨(mem_lengths lens 15 _).mpr ⟨mem, Nat.pos_of_ne_zero positive, few _ mem⟩,
      fun l there => within l ((mem_lengths lens 15 l).mp there).1⟩

/-- The shortest code is the first one. -/
theorem findMin_lengths (last : max ∈ lengths lens 15) :
    1 ≤ findMin (countLengths lens) (max - 1) 1 ∧ findMin (countLengths lens) (max - 1) 1 ≤ max ∧
      (lengths lens 15)[0]? = some (findMin (countLengths lens) (max - 1) 1) := by
  obtain ⟨mem, positive, few⟩ := (mem_lengths lens 15 max).mp last
  have counted : countLengths lens (1 + (max - 1)) ≠ 0 := by
    rw [countLengths_eq, Nat.add_sub_cancel' positive]
    exact Nat.ne_of_gt (List.count_pos_iff.mpr mem)
  obtain ⟨least, most, there, before⟩ := findMin_spec (max - 1) 1 counted
  generalize findMin (countLengths lens) (max - 1) 1 = min at least most there before
  have most' : min ≤ max := by omega
  refine ⟨least, most', ?_⟩
  rw [countLengths_eq] at there
  have inside : min ∈ lengths lens 15 := (mem_lengths lens 15 min).mpr
    ⟨List.count_pos_iff.mp (Nat.pos_of_ne_zero there), least, Nat.le_trans most' few⟩
  obtain ⟨j, index⟩ := List.getElem?_of_mem inside
  obtain ⟨below, -⟩ := List.getElem?_eq_some_iff.mp index
  obtain ⟨shortest, first⟩ : ∃ l, (lengths lens 15)[0]? = some l :=
    ⟨_, List.getElem?_eq_getElem (Nat.lt_of_le_of_lt (Nat.zero_le j) below)⟩
  have le := (ordered_lengths lens 15).le (Nat.zero_le j) first index
  -- No shorter length is counted.
  have ge : min ≤ shortest := by
    apply Nat.le_of_not_lt
    intro less
    obtain ⟨mem', some', -⟩ := (mem_lengths lens 15 _).mp (List.mem_of_getElem? first)
    have none := before _ some' less
    rw [countLengths_eq] at none
    exact List.count_eq_zero.mp none mem'
  rw [first, Nat.le_antisymm le ge]

/-- The check of the lengths. -/
theorem checkLeft_lens (lens : List Nat) : checkLeft (countLengths lens) maxbits 1 1 =
    if taken lens 15 ≤ 2 ^ 15 then some ((2 ^ 15 - taken lens 15 : Nat) : Int) else none := by
  have fits : taken lens 0 ≤ 2 ^ 0 := by
    show 0 + 0 ≤ 1
    decide
  have general := checkLeft_eq lens maxbits 0 fits
  exact general

/-- A set of lengths without codes of two bits and more that leaves bits over. -/
theorem sole_iff (incomplete : taken lens 15 < 2 ^ 15) (last : max ∈ lengths lens 15)
    (longest : ∀ l ∈ lengths lens 15, l ≤ max) : lengths lens 15 = [1] ↔ max = 1 := by
  constructor
  · intro sole
    rw [sole] at last
    exact List.mem_singleton.mp last
  · rintro rfl
    have all : ∀ l ∈ lengths lens 15, l = 1 := fun l mem =>
      Nat.le_antisymm (longest l mem) ((mem_lengths lens 15 l).mp mem).2.1
    have same := List.eq_replicate_of_mem all
    have mass := place_lengths lens 15
    rw [same] at mass last ⊢
    -- Two codes of one bit would take all bits.
    have few : (lengths lens 15).length < 2 := by
      apply Nat.lt_of_not_le
      intro two
      have most : place 15 (List.replicate (lengths lens 15).length 1) 2 ≤ _ :=
        place_mono (m := 15) two
      have both : place 15 (List.replicate (lengths lens 15).length 1) 2 = 2 ^ 15 := by
        rw [place, List.take_replicate, Nat.min_eq_left two]
        rfl
      rw [List.length_replicate] at mass
      omega
    have some := List.length_pos_of_mem last
    rw [List.length_replicate] at some
    rw [show (lengths lens 15).length = 1 by omega]
    rfl

theorem sole_taken (sole : lengths lens 15 = [1]) : taken lens 15 = 2 ^ 14 := by
  rw [← place_lengths, sole]
  rfl

/-- The size that the root table gets. -/
def rootOf (bits max min : Nat) : Nat :=
  let root := if bits > max then max else bits
  if root < min then min else root

theorem Sized.rootOf (some : 1 ≤ bits) (last : max ∈ lengths lens 15)
    (longest : ∀ l ∈ lengths lens 15, l ≤ max) {min : Nat} (least : min ≤ max) :
    Sized type lens bits max (rootOf bits max min) ∧ min ≤ Inflate.rootOf bits max min := by
  obtain ⟨-, positive, -⟩ := (mem_lengths lens 15 max).mp last
  refine ⟨⟨longest, last, ?_, ?_, ?_⟩, ?_⟩ <;> unfold Inflate.rootOf <;> grind

/-- Lengths of which one is not 0 at least. -/
theorem accepted_iff (last : max ∈ lengths lens 15) :
    Accepted type lens ↔ taken lens 15 = 2 ^ 15 ∨ type ≠ .codes ∧ lengths lens 15 = [1] := by
  have some : ¬ ∀ l ∈ lens, l = 0 := by
    intro none
    obtain ⟨mem, positive, -⟩ := (mem_lengths lens 15 max).mp last
    exact absurd (none max mem) (Nat.ne_of_gt positive)
  rw [Accepted]
  exact ⟨fun accepted => accepted.imp_right fun rest => rest.resolve_left some,
    fun accepted => accepted.imp_right .inr⟩

/-- What the function does: lengths that are not accepted are rejected, and from all others it
makes tables, unless there is not enough space for them. -/
theorem inflateTable_made (usable : Usable type lens table first bits work) :
    ∃ built, inflateTable type lens table first bits work = some built ∧
      (¬ Accepted type lens → built.ret = -1 ∧ built.table = table) ∧
      (Accepted type lens → Made type lens table first built) := by
  obtain ⟨empty, most⟩ := findMax_lengths usable.few
  rw [inflateTable]
  generalize findMax (countLengths lens) maxbits = max at empty most
  by_cases zero : max = 0
  · have none := empty zero
    have room : first + 2 ≤ table.length := by
      have room := usable.room
      cases type with
      | codes =>
        have power : 2 ^ 1 ≤ 2 ^ bits := Nat.pow_le_pow_right (by decide) usable.some
        exact Nat.le_trans (Nat.add_le_add_left power first) room.2
      | lens => exact Nat.le_trans (Nat.add_le_add_left (by decide) first) room
      | dists => exact Nat.le_trans (Nat.add_le_add_left (by decide) first) room
    have room' : first < table.length := by omega
    have one := set_getElem? room' (a := Code.mk 64 1 0)
    have behind : first + 1 < (table.set first ⟨64, 1, 0⟩).length := by
      rw [List.length_set]
      omega
    have two := set_getElem? behind (a := Code.mk 64 1 0)
    simp only [if_pos zero, store_some room', Option.bind_eq_bind, Option.bind_some]
    rw [store_some behind]
    refine ⟨_, rfl, fun rejected => absurd (.inr (.inl none)) rejected, fun _ => ?_⟩
    constructor
    case length => rw [List.length_set, List.length_set]
    case before =>
      intro i before
      rw [two, if_neg (by omega), one, if_neg (by omega)]
    case failed => exact fun failed => absurd (show (0 : Int) = 1 from failed) (by decide)
    case made =>
      refine fun _ => ⟨rfl, Nat.le_add_right _ _, room, ?_, ?_, ?_⟩
      · rw [Nat.add_sub_cancel_left]
        rintro (⟨-, more⟩ | ⟨-, more⟩) <;> exact absurd more (by decide)
      · intro i behind
        have behind' : first + 2 ≤ i := behind
        rw [two, if_neg (by omega), one, if_neg (by omega)]
      · intro table' same
        have zero := same first (Nat.lt_add_of_pos_right (by decide))
        have next := same (first + 1) (Nat.lt_succ_self _)
        rw [two, if_neg (by omega), one, if_pos rfl] at zero
        rw [two, if_pos rfl] at next
        exact .none none zero next
  · obtain ⟨last, longest⟩ := most zero
    obtain ⟨least, fewer, shortest⟩ := findMin_lengths last
    simp only [if_neg zero, checkLeft_lens]
    generalize findMin (countLengths lens) (max - 1) 1 = min at least fewer shortest
    rw [accepted_iff last]
    rcases Nat.lt_or_ge (2 ^ 15) (taken lens 15) with excess | fits
    · refine ⟨⟨-1, table, first, bits⟩, ?_, fun _ => ⟨rfl, rfl⟩, ?_⟩
      · rw [if_neg (Nat.not_le_of_lt excess)]
      · rintro (whole | ⟨-, sole⟩)
        · omega
        · have half := sole_taken sole
          omega
    · rw [if_pos fits]
      by_cases incomplete : ((2 ^ 15 - taken lens 15 : Nat) : Int) > 0 ∧ (type = .codes ∨ max ≠ 1)
      · refine ⟨⟨-1, table, first, bits⟩, if_pos incomplete, fun _ => ⟨rfl, rfl⟩, ?_⟩
        obtain ⟨left, unfit⟩ := incomplete
        rintro (whole | ⟨type', sole⟩)
        · omega
        · have one := (sole_iff (by omega) last longest).mp sole
          exact absurd unfit (by simp [type', one])
      · have whole : taken lens 15 = 2 ^ 15 ∨ type ≠ .codes ∧ lengths lens 15 = [1] := by
          rcases Nat.lt_or_eq_of_le fits with less | same
          · have fit : ¬ (type = .codes ∨ max ≠ 1) := fun unfit => incomplete ⟨by omega, unfit⟩
            obtain ⟨type', one⟩ := not_or.mp fit
            exact .inr ⟨type', (sole_iff less last longest).mpr (Classical.not_not.mp one)⟩
          · exact .inl same
        obtain ⟨work', sorts, sorted⟩ := sortSymbols_sorts lens usable.few
          (Nat.le_trans (length_inOrder_le lens 15) usable.space)
        obtain ⟨sized, reach⟩ : Sized type lens bits max (rootOf bits max min) ∧ _ :=
          Sized.rootOf usable.some last longest fewer
        have ready := usable.ready sized fits sorted
        obtain ⟨built, builds, made⟩ := buildTables_made ready usable.known usable.few bits
          shortest reach (whole.imp_right And.right)
        refine ⟨built, ?_, fun rejected => absurd whole rejected, fun _ => made⟩
        simp only [if_neg incomplete, sorts, Option.bind_eq_bind, Option.bind_some]
        exact builds

/-- `inflate_table` stays inside of its arrays. It rejects exactly the sets of lengths that are not
accepted, and of all others it makes tables that decode their canonical code, unless their tables do
not fit. What was in the array before is kept, and later writes behind the tables do no harm. -/
theorem inflateTable_correct (usable : Usable type lens table first bits work) :
    ∃ built, inflateTable type lens table first bits work = some built ∧
      (built.ret = -1 ↔ ¬ Accepted type lens) ∧
      (built.ret = 0 ∨ built.ret = -1 ∨ built.ret = 1 ∧ type ≠ .codes) ∧
      built.table.length = table.length ∧ (∀ i < first, built.table[i]? = table[i]?) ∧
      (built.ret = 0 → ∀ table' : List Code, (∀ i < built.next, table'[i]? = built.table[i]?) →
        Decodes type lens (table'.drop first) built.bits) := by
  obtain ⟨built, makes, rejects, accepts⟩ := inflateTable_made usable
  refine ⟨built, makes, ?_⟩
  by_cases accepted : Accepted type lens
  · have made := accepts accepted
    by_cases failed : built.ret = 1
    · refine ⟨?_, .inr (.inr ⟨failed, made.failed failed⟩), made.length, made.before, ?_⟩
      · simp [failed, accepted]
      · simp [failed]
    · obtain ⟨ret, -, -, -, -, decodes⟩ := made.made failed
      refine ⟨?_, .inl ret, made.length, made.before, fun _ => decodes⟩
      simp [ret, accepted]
  · obtain ⟨ret, same⟩ := rejects accepted
    refine ⟨?_, .inr (.inl ret), ?_, ?_, ?_⟩
    · simp [ret, accepted]
    · rw [same]
    · simp [same]
    · simp [ret]

theorem inflateTable_correct_pair :
    ∃ built, inflateTable .dists [1, 1] (List.replicate 592 ⟨0, 0, 0⟩) 0 6 [0, 0] = some built ∧
      (built.ret = -1 ↔ ¬ Accepted .dists [1, 1]) ∧
      (built.ret = 0 ∨ built.ret = -1 ∨ built.ret = 1 ∧ CodeType.dists ≠ .codes) ∧
      built.table.length = (List.replicate 592 (Code.mk 0 0 0)).length ∧
      (∀ i < 0, built.table[i]? = (List.replicate 592 (Code.mk 0 0 0))[i]?) ∧
      (built.ret = 0 → ∀ table' : List Code, (∀ i < built.next, table'[i]? = built.table[i]?) →
        Decodes .dists [1, 1] (table'.drop 0) built.bits) := by
  refine inflateTable_correct ⟨by decide, by decide, by decide, by decide, ?_⟩
  show 0 + enoughDists ≤ (List.replicate 592 (Code.mk 0 0 0)).length
  rw [List.length_replicate]
  decide

end

end CheriGzip.Inflate
