import CheriGzip.Libz.SlowSymbol
import CheriGzip.Libz.TableSteps

/-!
# What inflate_table makes

The loop enters the codes in the order of their intervals. Each code is then found by all bits that
begin with it: in the root table, or in the one table that the first `root` bits link to. A table
that a link leads to is large enough for every code that begins with these bits.
-/
namespace CheriGzip.Inflate

open Loop

/-! ## Entries for codes -/

/-- The lengths of the codes in the order in which the loop comes to them. -/
def Request.lengths (r : Request) : List Nat := CheriGzip.lengths r.lens 15

/-- Where the interval of the `k`th code begins. -/
def Request.place (r : Request) (k : Nat) : Nat := CheriGzip.place 15 r.lengths k

/-- What the loop relies on. -/
structure Request.Ready (r : Request) (size : Nat) : Prop where
  fits : taken r.lens 15 ≤ 2 ^ 15
  sorted : ∀ (k sym : Nat), (inOrder r.lens 15)[k]? = some sym → r.work[k]? = some sym
  longest : ∀ l ∈ r.lengths, l ≤ r.max
  last : r.max ∈ r.lengths
  least : 1 ≤ r.root
  within : r.root ≤ r.max
  here : ∀ sym < r.lens.length, ∃ op val, ∀ bits, r.here sym bits = some ⟨op, bits, val⟩
  flat : r.type = .codes → r.max ≤ r.root
  room : ∀ used, ¬ r.type.Exceeded used → (r.type = .codes → used = 2 ^ r.root) →
    r.first + used ≤ size

/-- The bits of `w` lead to the entry of the symbol `sym`, which has a code of `l` bits. What a link
leads to ends at `lim` of its index. -/
inductive Entered (r : Request) (table : List Code) (lim : Nat → Nat) (sym l w : Nat) : Prop where
  | root (short : l ≤ r.root) (entry : table[r.first + w % 2 ^ r.root]? = r.here sym l)
  | linked {curr off : Nat} (long : r.root < l)
      (link : table[r.first + w % 2 ^ r.root]? = some ⟨curr, r.root, off⟩)
      (reach : l ≤ r.root + curr) (few : r.root + curr ≤ 15) (behind : 2 ^ r.root ≤ off)
      (inside : off + 2 ^ curr ≤ lim (w % 2 ^ r.root))
      (entry : table[r.first + off + w / 2 ^ r.root % 2 ^ curr]? = r.here sym (l - r.root))

/-- All bits that begin with the `k`th code lead to its symbol. -/
def Covers (r : Request) (table : List Code) (lim : Nat → Nat) (k : Nat) : Prop :=
  ∀ sym, (inOrder r.lens 15)[k]? = some sym → ∀ w, r.place k ≤ reverseBits 15 w →
    reverseBits 15 w < r.place (k + 1) → Entered r table lim sym (r.lens.getD sym 0) w

section

variable {r : Request} {size k l : Nat}

theorem Request.Ready.ordered (_ : r.Ready size) : Ordered 15 r.lengths :=
  ordered_lengths r.lens 15

theorem Request.Ready.place_le (ready : r.Ready size) :
    CheriGzip.place 15 r.lengths r.lengths.length ≤ 2 ^ 15 := by
  rw [Request.lengths, place_lengths]
  exact ready.fits

theorem Request.Ready.root_le (ready : r.Ready size) : r.root ≤ 15 :=
  Nat.le_trans ready.within (ready.ordered.most _ ready.last)

/-- The symbol of a code. -/
theorem Request.lengths_sym (inside : r.lengths[k]? = some l) :
    ∃ sym, (inOrder r.lens 15)[k]? = some sym ∧ r.lens[sym]? = some l ∧ r.lens.getD sym 0 = l := by
  rw [Request.lengths, CheriGzip.lengths, List.getElem?_map] at inside
  cases there : (inOrder r.lens 15)[k]? with
  | none =>
    rw [there] at inside
    cases inside
  | some sym =>
    rw [there] at inside
    have is : r.lens.getD sym 0 = l := Option.some.inj inside
    obtain ⟨below, -⟩ := mem_inOrder.mp (List.mem_of_getElem? there)
    refine ⟨sym, rfl, ?_, is⟩
    rw [← is, List.getD_eq_getElem?_getD, List.getElem?_eq_getElem below]
    rfl

/-- What comes behind a code: the end, a longer code, or one of the same length. -/
theorem Request.Ready.behind (ready : r.Ready size) (inside : r.lengths[k]? = some l) :
    (l = r.max ∧ (r.lengths.drop (k + 1)).count l = 0 → k + 1 = r.lengths.length) ∧
      (l ≠ r.max → k + 1 < r.lengths.length) ∧
      ((r.lengths.drop (k + 1)).count l ≠ 0 → r.lengths[k + 1]? = some l) := by
  obtain ⟨below, -⟩ := List.getElem?_eq_some_iff.mp inside
  refine ⟨?_, ?_, ?_⟩
  · rintro ⟨rfl, none⟩
    apply Nat.le_antisymm below
    apply Nat.le_of_not_lt
    intro more
    have next := List.getElem?_eq_getElem more
    -- A further code would be of the greatest length too.
    have least := ready.ordered.le (Nat.le_succ k) inside next
    have most := ready.longest _ (List.getElem_mem more)
    apply List.count_eq_zero.mp none
    rw [Nat.le_antisymm least most]
    apply List.mem_of_getElem? (i := 0)
    rw [List.getElem?_drop]
    exact next
  · intro other
    obtain ⟨j, last⟩ := List.getElem?_of_mem ready.last
    have most := ready.longest l (List.mem_of_getElem? inside)
    apply Nat.lt_of_not_le
    intro none
    obtain ⟨below', -⟩ := List.getElem?_eq_some_iff.mp last
    have least := ready.ordered.le (show j ≤ k by omega) last inside
    exact other (Nat.le_antisymm most least)
  · intro some
    have mem : l ∈ r.lengths.drop (k + 1) := List.count_pos_iff.mp (Nat.pos_of_ne_zero some)
    obtain ⟨j, there⟩ := List.getElem?_of_mem mem
    rw [List.getElem?_drop] at there
    obtain ⟨below', -⟩ := List.getElem?_eq_some_iff.mp there
    have next := List.getElem?_eq_getElem (show k + 1 < r.lengths.length by omega)
    have least := ready.ordered.le (Nat.le_succ k) inside next
    have most := ready.ordered.le (Nat.le_add_right (k + 1) j) next there
    rw [next, ← Nat.le_antisymm least most]

/-- Where a code is entered another one was not. -/
theorem Entered.keep {table table' : List Code} {lim lim' : Nat → Nat} {sym w : Nat}
    (entered : Entered r table lim sym l w) (more : lim (w % 2 ^ r.root) ≤ lim' (w % 2 ^ r.root))
    (root : table'[r.first + w % 2 ^ r.root]? = table[r.first + w % 2 ^ r.root]?)
    (linked : ∀ curr off, table[r.first + w % 2 ^ r.root]? = some ⟨curr, r.root, off⟩ →
      r.root < l → l ≤ r.root + curr → 2 ^ r.root ≤ off → off + 2 ^ curr ≤ lim (w % 2 ^ r.root) →
      table'[r.first + off + w / 2 ^ r.root % 2 ^ curr]? =
        table[r.first + off + w / 2 ^ r.root % 2 ^ curr]?) :
    Entered r table' lim' sym l w := by
  cases entered with
  | root short entry => exact .root short (root.trans entry)
  | @linked curr off long link reach few behind inside entry =>
    have same := linked curr off link long reach behind inside
    exact .linked long (root.trans link) reach few behind (Nat.le_trans inside more)
      (same.trans entry)

end

/-! ## The state of the loop -/

/-- Where what a link leads to ends: the current table is the last one. -/
def Builder.lim (r : Request) (b : Builder) (i : Nat) : Nat :=
  if i = b.low then b.used else b.next - r.first

/-- Only the root table has been filled yet. -/
structure Fresh (r : Request) (b : Builder) (k : Nat) : Prop where
  drop : b.drop = 0
  curr : b.curr = r.root
  next : b.next = r.first
  used : b.used = 2 ^ r.root
  low : b.low = 2 ^ 32 - 1
  short : ∀ j < k, ∀ l, r.lengths[j]? = some l → l ≤ r.root

/-- The current table is at `off`, for the codes that begin with the bits of `blk`. -/
structure Sub (r : Request) (b : Builder) (k off blk : Nat) : Prop where
  drop : b.drop = r.root
  next : b.next = r.first + off
  used : b.used = off + 2 ^ b.curr
  behind : 2 ^ r.root ≤ off
  some : 1 ≤ b.curr
  few : r.root + b.curr ≤ 15
  low : b.low = reverseBits r.root blk
  small : blk < 2 ^ r.root
  link : b.table[r.first + b.low]? = .some ⟨b.curr, r.root, off⟩
  long : r.root < b.len
  start : blk * 2 ^ (15 - r.root) ≤ r.place k
  stop : r.place k ≤ (blk + 1) * 2 ^ (15 - r.root)
  reach : ∀ (j l : Nat), r.lengths[j]? = .some l → r.place j / 2 ^ (15 - r.root) = blk →
    l ≤ r.root + b.curr

/-- The `k`th code comes next, and those before it are in the tables. -/
structure Reached (r : Request) (table : List Code) (b : Builder) (k : Nat) : Prop where
  sym : b.sym = k
  inside : r.lengths[k]? = some b.len
  huff : b.huff = reverseBits 15 (r.place k)
  count : ∀ l, 1 ≤ l → b.count l = (r.lengths.drop k).count l
  length : b.table.length = table.length
  frame : ∀ i, i < r.first ∨ r.first + b.used ≤ i → b.table[i]? = table[i]?
  roomy : ¬ r.type.Exceeded b.used
  flat : r.type = .codes → b.used = 2 ^ r.root
  covers : ∀ j < k, Covers r b.table (b.lim r) j

/-- The current table is the one that the `k`th code goes to. -/
inductive Here (r : Request) (b : Builder) (k : Nat) : Prop where
  | fresh (fresh : Fresh r b k) (short : b.len ≤ r.root)
  | sub {off blk : Nat} (sub : Sub r b k off blk) (block : r.place k / 2 ^ (15 - r.root) = blk)

section

variable {r : Request} {size k l : Nat} {b : Builder} {table : List Code}

/-- What one code writes. -/
theorem enter_spec {sym : Nat} {here : Code} (work : r.work[b.sym]? = some sym)
    (is : r.here sym (b.len - b.drop) = some here) (within : b.len - b.drop ≤ b.curr)
    (small : b.huff / 2 ^ b.drop < 2 ^ (b.len - b.drop))
    (room : b.next + 2 ^ b.curr ≤ b.table.length) :
    ∃ table', enter r b = some table' ∧ table'.length = b.table.length ∧ ∀ i, table'[i]? =
      if b.next ≤ i ∧ i < b.next + 2 ^ b.curr ∧
        (i - b.next) % 2 ^ (b.len - b.drop) = b.huff / 2 ^ b.drop then some here
      else b.table[i]? := by
  obtain ⟨table', fills, length, entries⟩ := fillEntries_spec here small within room
  refine ⟨table', ?_, length, entries⟩
  have enough : ¬ 2 ^ b.curr < 2 ^ (b.len - b.drop) :=
    Nat.not_lt_of_le (Nat.pow_le_pow_right (by decide) within)
  simp only [enter, work, is, Option.bind_eq_bind, Option.bind_some, Nat.one_shiftLeft,
    Nat.shiftRight_eq_div_pow, if_neg enough]
  exact fills

theorem Reached.within (reached : Reached r table b k) (ready : r.Ready table.length) :
    r.first + b.used ≤ b.table.length := by
  rw [reached.length]
  exact ready.room _ reached.roomy reached.flat

/-- The bits of a code before the `k`th one do not begin with the `k`th one. -/
theorem Request.Ready.other (ready : r.Ready size) (inside : r.lengths[k]? = some l) {j w : Nat}
    (before : j < k) (below : reverseBits 15 w < r.place (j + 1)) :
    w % 2 ^ l ≠ reverseBits 15 (r.place k) := by
  intro same
  obtain ⟨least, -⟩ := (ready.ordered.mod_iff ready.place_le inside).mp same
  have mono : r.place (j + 1) ≤ r.place k := place_mono before
  exact absurd (Nat.lt_of_lt_of_le below mono) (Nat.not_lt_of_le least)

theorem Request.Ready.huff_lt (ready : r.Ready size) (inside : r.lengths[k]? = some l) :
    reverseBits 15 (r.place k) < 2 ^ l :=
  ready.ordered.reverseBits_lt ready.place_le inside

theorem Request.Ready.place_lt (ready : r.Ready size) (inside : r.lengths[k]? = some l) :
    r.place k < 2 ^ 15 := by
  obtain ⟨below, -⟩ := List.getElem?_eq_some_iff.mp inside
  have next : CheriGzip.place 15 r.lengths (k + 1) = _ := place_succ inside
  have last : CheriGzip.place 15 r.lengths (k + 1) ≤ _ := place_mono below
  have size := Nat.two_pow_pos (15 - l)
  have most := Nat.le_trans last ready.place_le
  rw [Request.place]
  omega

/-- The first `root` bits of a code name its block. -/
theorem Request.Ready.huff_mod (ready : r.Ready size) (inside : r.lengths[k]? = some l) {blk : Nat}
    (small : blk < 2 ^ r.root) :
    reverseBits 15 (r.place k) % 2 ^ r.root = reverseBits r.root blk ↔
      r.place k / 2 ^ (15 - r.root) = blk := by
  rw [mod_eq_reverseBits_iff ready.root_le small, reverseBits_reverseBits (ready.place_lt inside)]

/-- Entering a code in the root table. -/
theorem enter_fresh (reached : Reached r table b k) (ready : r.Ready table.length)
    (fresh : Fresh r b k) (short : b.len ≤ r.root) :
    ∃ table', enter r b = some table' ∧ table'.length = b.table.length ∧
      (∀ i, i < r.first ∨ r.first + b.used ≤ i → table'[i]? = b.table[i]?) ∧
      ∀ j ≤ k, Covers r table' (b.lim r) j := by
  obtain ⟨sym, there, inLens, len⟩ := Request.lengths_sym reached.inside
  obtain ⟨below, -⟩ := List.getElem?_eq_some_iff.mp inLens
  obtain ⟨op, val, is⟩ := ready.here sym below
  have small := ready.huff_lt reached.inside
  have within := reached.within ready
  have size := Nat.pow_le_pow_right (n := 2) (by decide) short
  obtain ⟨table', enters, length, entries⟩ := enter_spec (r := r) (b := b)
    (by rw [reached.sym]; exact ready.sorted _ _ there) (is _)
    (by rw [fresh.drop, fresh.curr]; exact short)
    (by rw [fresh.drop, reached.huff, Nat.pow_zero, Nat.div_one]; exact small)
    (by rw [fresh.next, fresh.curr, ← fresh.used]; exact within)
  rw [fresh.next, fresh.curr, fresh.drop, reached.huff, Nat.sub_zero, Nat.pow_zero,
    Nat.div_one] at entries
  have power := fresh.used
  refine ⟨table', enters, length, ?_, ?_⟩
  · intro i outside
    rw [entries, if_neg (by omega)]
  · intro j before sym' there' w least below'
    have index := Nat.mod_lt w (Nat.two_pow_pos r.root)
    have low : w % 2 ^ r.root % 2 ^ b.len = w % 2 ^ b.len :=
      Nat.mod_mod_of_dvd w (Nat.pow_dvd_pow 2 short)
    have entry := entries (r.first + w % 2 ^ r.root)
    rw [Nat.add_sub_cancel_left, low] at entry
    rcases Nat.lt_or_eq_of_le before with before | rfl
    -- An earlier code is not one of those written to.
    · rw [if_neg fun written => ready.other reached.inside before below' written.2.2] at entry
      refine (reached.covers j before sym' there' w least below').keep (Nat.le_refl _) entry ?_
      intro curr off _ long
      have inside' : r.lengths[j]? = some (r.lens.getD sym' 0) := by
        rw [Request.lengths, CheriGzip.lengths, List.getElem?_map, there']
        rfl
      exact absurd (fresh.short j before _ inside') (Nat.not_le_of_lt long)
    · rw [there] at there'
      cases there'
      have here := (ready.ordered.mod_iff ready.place_le reached.inside).mpr ⟨least, below'⟩
      rw [if_pos ⟨by omega, by omega, here⟩] at entry
      rw [len]
      exact .root short (entry.trans (is _).symm)

/-- Entering a code in the current table behind a link. -/
theorem enter_sub (reached : Reached r table b k) (ready : r.Ready table.length) {off blk : Nat}
    (sub : Sub r b k off blk) (block : r.place k / 2 ^ (15 - r.root) = blk) :
    ∃ table', enter r b = some table' ∧ table'.length = b.table.length ∧
      (∀ i, i < r.first ∨ r.first + b.used ≤ i → table'[i]? = b.table[i]?) ∧
      table'[r.first + b.low]? = some ⟨b.curr, r.root, off⟩ ∧
      ∀ j ≤ k, Covers r table' (b.lim r) j := by
  obtain ⟨sym, there, inLens, len⟩ := Request.lengths_sym reached.inside
  obtain ⟨below, -⟩ := List.getElem?_eq_some_iff.mp inLens
  obtain ⟨op, val, is⟩ := ready.here sym below
  have small := ready.huff_lt reached.inside
  have within := reached.within ready
  have long := sub.long
  have reach := sub.reach k _ reached.inside block
  have power : 2 ^ b.len = 2 ^ r.root * 2 ^ (b.len - r.root) := by
    rw [← Nat.pow_add, Nat.add_sub_cancel' (Nat.le_of_lt long)]
  have first := (ready.huff_mod reached.inside sub.small).mpr block
  rw [← sub.low] at first
  obtain ⟨table', enters, length, entries⟩ := enter_spec (r := r) (b := b)
    (by rw [reached.sym]; exact ready.sorted _ _ there) (is _)
    (by rw [sub.drop]; omega)
    (by rw [sub.drop, reached.huff]; exact Nat.div_lt_of_lt_mul (power ▸ small))
    (by rw [sub.next, Nat.add_assoc, ← sub.used]; exact within)
  rw [sub.next, sub.drop, reached.huff] at entries
  have used := sub.used
  have behind := sub.behind
  -- The root table is left as it is.
  have root : ∀ i < 2 ^ r.root, table'[r.first + i]? = b.table[r.first + i]? := by
    intro i inside
    rw [entries, if_neg (by omega)]
  have low : b.low < 2 ^ r.root := by
    rw [sub.low]
    exact CheriGzip.reverseBits_lt _ _
  refine ⟨table', enters, length, ?_, (root _ low).trans sub.link, ?_⟩
  · intro i outside
    rw [entries, if_neg (by omega)]
  · intro j before sym' there' w least below'
    have index := Nat.mod_lt w (Nat.two_pow_pos r.root)
    have same := root _ index
    have parts := mod_two_pow_iff (x := w) (y := reverseBits 15 (r.place k)) (Nat.le_of_lt long)
    rcases Nat.lt_or_eq_of_le before with before | rfl
    · refine (reached.covers j before sym' there' w least below').keep (Nat.le_refl _) same ?_
      intro curr off' link _ _ _ inside
      have place := Nat.mod_lt (w / 2 ^ r.root) (Nat.two_pow_pos curr)
      rw [entries]
      by_cases current : w % 2 ^ r.root = b.low
      -- In the current table an earlier code is not one of those written to.
      · have both := (current ▸ link).symm.trans sub.link
        cases both
        apply if_neg
        rintro ⟨-, -, written⟩
        rw [Nat.add_sub_cancel_left, Nat.mod_mod_of_dvd _ (Nat.pow_dvd_pow 2 (by omega))] at written
        exact ready.other reached.inside before below'
          (parts.mpr ⟨current.trans first.symm, written⟩)
      · rw [Builder.lim, if_neg current, sub.next] at inside
        exact if_neg (by omega)
    · rw [there] at there'
      cases there'
      have here := (ready.ordered.mod_iff ready.place_le reached.inside).mpr ⟨least, below'⟩
      obtain ⟨current, rest⟩ := parts.mp here
      rw [first] at current
      have place := Nat.mod_lt (w / 2 ^ r.root) (Nat.two_pow_pos b.curr)
      have link := (root _ low).trans sub.link
      rw [← current] at link
      rw [len]
      refine .linked long link reach sub.few behind ?_ ?_
      · rw [Builder.lim, if_pos current]
        exact Nat.le_of_eq used.symm
      · have entry := entries (r.first + off + w / 2 ^ r.root % 2 ^ b.curr)
        rw [Nat.add_sub_cancel_left, Nat.mod_mod_of_dvd _ (Nat.pow_dvd_pow 2 (by omega)),
          if_pos ⟨by omega, by omega, rest⟩] at entry
        exact entry.trans (is _).symm

/-! ## A new table -/

/-- A block begins with a code that the current table is not for. -/
theorem Sub.starts {off blk : Nat} (sub : Sub r b k off blk)
    (other : r.place k / 2 ^ (15 - r.root) ≠ blk) : 2 ^ (15 - r.root) ∣ r.place k := by
  have size := Nat.two_pow_pos (15 - r.root)
  have least := (Nat.le_div_iff_mul_le size).mpr sub.start
  have more : (blk + 1) * 2 ^ (15 - r.root) ≤ r.place k :=
    (Nat.le_div_iff_mul_le size).mp (by omega)
  rw [Nat.le_antisymm sub.stop more]
  exact Nat.dvd_mul_left _ _

theorem Fresh.starts (fresh : Fresh r b k) (within : k ≤ r.lengths.length) :
    2 ^ (15 - r.root) ∣ r.place k :=
  dvd_place fresh.short within

/-- The new table is large enough for all codes that begin as the current one does. -/
theorem subBits_reach (ready : r.Ready size) {count : Nat → Nat}
    (inside : r.lengths[k]? = some l) (long : r.root < l)
    (counts : ∀ i, 1 ≤ i → count i = (r.lengths.drop k).count i)
    (starts : 2 ^ (15 - r.root) ∣ r.place k) :
    let curr := subBits count r.root (r.max - l) (l - r.root) ((2 ^ (l - r.root) : Nat) : Int)
    l ≤ r.root + curr ∧ r.root + curr ≤ 15 ∧ ∀ (j l' : Nat), r.lengths[j]? = some l' →
      r.place j / 2 ^ (15 - r.root) = r.place k / 2 ^ (15 - r.root) → l' ≤ r.root + curr := by
  have most := ready.longest l (List.mem_of_getElem? inside)
  have max := ready.ordered.most _ ready.last
  have back : l - r.root + r.root = l := by omega
  have none : massTo 15 (r.lengths.drop k) (l - 1) = 0 := by
    apply massTo_longer
    intro l' mem
    obtain ⟨i, there⟩ := List.getElem?_of_mem mem
    rw [List.getElem?_drop] at there
    have least := ready.ordered.le (Nat.le_add_right k i) inside there
    have some := ready.ordered.least l (List.mem_of_getElem? inside)
    omega
  have power : 2 ^ (l - r.root) * 2 ^ (15 - l) = 2 ^ (15 - r.root) := by
    rw [← Nat.pow_add, show l - r.root + (15 - l) = 15 - r.root by omega]
  have remains : ((2 ^ (l - r.root) : Nat) : Int) * 2 ^ (15 - (l - r.root + r.root)) +
      massTo 15 (r.lengths.drop k) (l - r.root + r.root - 1) = (2 ^ (15 - r.root) : Nat) := by
    rw [back, none, Int.natCast_zero, Int.add_zero]
    exact_mod_cast power
  obtain ⟨least, few, enough⟩ :=
    subBits_spec counts (r.max - l) (l - r.root) (by omega) (by omega) remains
  refine ⟨by omega, by omega, ?_⟩
  intro j l' there block
  have within := ready.longest l' (List.mem_of_getElem? there)
  rcases Nat.le_total j k with before | behind
  · have le := ready.ordered.le before there inside
    omega
  · rcases enough with all | full
    · omega
    · -- The codes that are short enough fill the block, so a longer one begins behind it.
      rw [Nat.add_comm _ r.root] at full
      apply Nat.le_of_not_lt
      intro longer
      have place := massTo_place ready.ordered there (by omega) behind
      have next := Nat.le_trans (Nat.add_le_add_left full _) place
      obtain ⟨c, is⟩ := starts
      have size := Nat.two_pow_pos (15 - r.root)
      rw [is, Nat.mul_div_cancel_left _ size] at block
      have further : (c + 1) * 2 ^ (15 - r.root) ≤ r.place j := by
        rw [Nat.add_mul, Nat.one_mul, Nat.mul_comm, ← is]
        exact next
      have := (Nat.le_div_iff_mul_le size).mpr further
      omega

/-- How many bits the new table is for. -/
def Builder.tableBits (r : Request) (b : Builder) : Nat :=
  subBits b.count r.root (r.max - b.len) (b.len - r.root) ((2 ^ (b.len - r.root) : Nat) : Int)

/-- The state when a table has been added. -/
def Builder.added (r : Request) (b : Builder) : Builder :=
  let low := b.huff % 2 ^ r.root
  { b with
    drop := r.root
    next := r.first + b.used
    curr := b.tableBits r
    used := b.used + 2 ^ b.tableBits r
    low := low
    table := b.table.set (r.first + low) ⟨b.tableBits r, r.root, b.used⟩ }

/-- `newTable` where a table is needed. -/
theorem newTable_adds (long : b.len > r.root) (new : b.huff % 2 ^ r.root ≠ b.low)
    (drop : (if b.drop = 0 then r.root else b.drop) = r.root)
    (next : b.next + 2 ^ b.curr = r.first + b.used)
    (room : r.first + b.huff % 2 ^ r.root < b.table.length) :
    newTable r b =
      if r.type.Exceeded (b.added r).used then
        .leave (some (1, { b.added r with low := b.low, table := b.table }))
      else .again (b.added r) := by
  rw [newTable]
  simp only [Nat.one_shiftLeft, Nat.and_two_pow_sub_one_eq_mod]
  rw [if_pos ⟨long, new⟩, drop, next, Nat.add_sub_cancel_left, store_some room]
  rfl

/-- What has been entered stays in its place when a table is added behind it, and a link to it is
put where no code leads yet. -/
theorem Reached.link (reached : Reached r table b k) (ready : r.Ready table.length)
    (few : b.next - r.first ≤ b.used) (starts : 2 ^ (15 - r.root) ∣ r.place k)
    {b' : Builder} (low : b'.low = b.huff % 2 ^ r.root) (next : b'.next = r.first + b.used)
    {here : Code} (table' : ∀ i, b'.table[i]? =
      if i = r.first + b'.low then some here else b.table[i]?) :
    ∀ j < k, Covers r b'.table (b'.lim r) j := by
  intro j before sym there w start stop
  have inside := reached.inside
  have index := Nat.mod_lt w (Nat.two_pow_pos r.root)
  have slot := Nat.mod_lt b.huff (Nat.two_pow_pos r.root)
  rw [← low] at slot
  -- The code is in a block before the one that begins here.
  have other : w % 2 ^ r.root ≠ b'.low := by
    have block := mod_eq_iff (x := w) (y := b.huff) ready.root_le
    rw [low, Ne, block, reached.huff, reverseBits_reverseBits (ready.place_lt inside)]
    obtain ⟨c, is⟩ := starts
    have mono : r.place (j + 1) ≤ r.place k := place_mono before
    have size := Nat.two_pow_pos (15 - r.root)
    rw [is] at mono ⊢
    rw [Nat.mul_div_cancel_left _ size]
    apply Nat.ne_of_lt
    apply Nat.div_lt_of_lt_mul
    omega
  refine (reached.covers j before sym there w start stop).keep ?_ ?_ ?_
  · rw [Builder.lim, Builder.lim, if_neg other, next, Nat.add_sub_cancel_left]
    split
    · exact Nat.le_refl _
    · exact few
  · rw [table', if_neg (by omega)]
  · intro curr off _ _ _ behind _
    rw [table', if_neg (by omega)]

/-- The state with the new table: the code goes there. -/
theorem Reached.added (reached : Reached r table b k) (ready : r.Ready table.length)
    (long : r.root < b.len) (codes : r.type ≠ .codes)
    (roomy : ¬ r.type.Exceeded (b.added r).used) (starts : 2 ^ (15 - r.root) ∣ r.place k)
    (filled : 2 ^ r.root ≤ b.used) (few : b.next - r.first ≤ b.used) :
    Reached r table (b.added r) k ∧
      Sub r (b.added r) k b.used (r.place k / 2 ^ (15 - r.root)) := by
  have inside := reached.inside
  have within := reached.within ready
  have index : b.huff % 2 ^ r.root < 2 ^ r.root := Nat.mod_lt _ (Nat.two_pow_pos _)
  have room : r.first + b.huff % 2 ^ r.root < b.table.length := by omega
  have link : ∀ i, (b.added r).table[i]? = if i = r.first + b.huff % 2 ^ r.root then
      some ⟨b.tableBits r, r.root, b.used⟩ else b.table[i]? := set_getElem? room
  obtain ⟨reach, bits, all⟩ := subBits_reach ready inside long reached.count starts
  have size := Nat.two_pow_pos (15 - r.root)
  have first := reverseBits_div ready.root_le b.huff
  rw [reached.huff, reverseBits_reverseBits (ready.place_lt inside)] at first
  refine ⟨?_, ?_⟩
  · constructor
    case sym => exact reached.sym
    case inside => exact inside
    case huff => exact reached.huff
    case count => exact reached.count
    case length => exact List.length_set.trans reached.length
    case roomy => exact roomy
    case flat => exact fun is => absurd is codes
    case frame =>
      intro i outside
      have more : (b.added r).used = b.used + 2 ^ b.tableBits r := rfl
      have pos := Nat.two_pow_pos (b.tableBits r)
      have outside' : i < r.first ∨ r.first + b.used ≤ i := by omega
      rw [link, if_neg (by omega)]
      exact reached.frame i outside'
    case covers => exact reached.link ready few starts rfl rfl link
  · constructor
    case drop => rfl
    case next => rfl
    case used => rfl
    case behind => exact filled
    case some =>
      have reach' : b.len ≤ r.root + b.tableBits r := reach
      show 1 ≤ b.tableBits r
      omega
    case few => exact bits
    case low =>
      show b.huff % 2 ^ r.root = _
      rw [mod_eq_reverseBits ready.root_le, reached.huff,
        reverseBits_reverseBits (ready.place_lt inside)]
    case small =>
      rw [first]
      exact CheriGzip.reverseBits_lt _ _
    case link =>
      rw [link]
      exact if_pos rfl
    case long => exact long
    case start => exact Nat.div_mul_le_self _ _
    case stop => exact Nat.le_of_lt (Nat.lt_mul_of_div_lt (Nat.lt_succ_self _) size)
    case reach => exact all

/-- The current table is replaced where the code needs another one. -/
theorem newTable_spec (reached : Reached r table b k) (ready : r.Ready table.length)
    (phase : Fresh r b k ∨ ∃ off blk, Sub r b k off blk) :
    (∃ b', newTable r b = .leave (some (1, b')) ∧ b'.table = b.table ∧ r.type ≠ .codes) ∨
      ∃ b', newTable r b = .again b' ∧ Reached r table b' k ∧ Here r b' k := by
  have inside := reached.inside
  obtain ⟨below, -⟩ := List.getElem?_eq_some_iff.mp inside
  have within := reached.within ready
  have least := ready.least
  have max := ready.root_le
  have power : 2 ^ r.root ≤ 2 ^ 15 := Nat.pow_le_pow_right (by decide) max
  have huff := reached.huff
  have index : b.huff % 2 ^ r.root < 2 ^ r.root := Nat.mod_lt _ (Nat.two_pow_pos _)
  by_cases new : b.len > r.root ∧ b.huff % 2 ^ r.root ≠ b.low
  · obtain ⟨long, other⟩ := new
    have most := ready.longest _ (List.mem_of_getElem? inside)
    -- What both kinds of state have in common.
    have common : (if b.drop = 0 then r.root else b.drop) = r.root ∧
        2 ^ (15 - r.root) ∣ r.place k ∧ 2 ^ r.root ≤ b.used ∧
        b.next + 2 ^ b.curr = r.first + b.used := by
      rcases phase with fresh | ⟨off, blk, sub⟩
      · rw [if_pos fresh.drop, fresh.next, fresh.curr, fresh.used]
        exact ⟨rfl, fresh.starts (Nat.le_of_lt below), Nat.le_refl _, rfl⟩
      · rw [sub.drop, sub.next, sub.used]
        refine ⟨ite_self _, sub.starts fun block => other ?_, ?_, by omega⟩
        · rw [huff, sub.low]
          exact (ready.huff_mod inside sub.small).mpr block
        · exact Nat.le_trans sub.behind (Nat.le_add_right _ _)
    obtain ⟨drop, starts, filled, next⟩ := common
    have codes : r.type ≠ .codes := fun is => absurd (ready.flat is) (by omega)
    have room : r.first + b.huff % 2 ^ r.root < b.table.length := by omega
    have pos := Nat.two_pow_pos b.curr
    have few : b.next - r.first ≤ b.used := by omega
    rw [newTable_adds long other drop next room]
    by_cases exceeded : r.type.Exceeded (b.added r).used
    · exact .inl ⟨_, if_pos exceeded, rfl, codes⟩
    · obtain ⟨reached', sub⟩ := reached.added ready long codes exceeded starts filled few
      exact .inr ⟨b.added r, if_neg exceeded, reached', .sub sub rfl⟩
  · right
    refine ⟨b, ?_, reached, ?_⟩
    · rw [newTable, Nat.one_shiftLeft, Nat.and_two_pow_sub_one_eq_mod]
      exact if_neg new
    · rcases phase with fresh | ⟨off, blk, sub⟩
      -- No index of the root table is the mark for "no table yet".
      · refine .fresh fresh (Nat.le_of_not_lt fun long => new ⟨long, ?_⟩)
        rw [fresh.low]
        omega
      · have same : b.huff % 2 ^ r.root = b.low := by
          apply Classical.byContradiction
          exact fun other => new ⟨sub.long, other⟩
        rw [huff, sub.low] at same
        exact .sub sub ((ready.huff_mod inside sub.small).mp same)

/-! ## A round -/

/-- Entering a code, wherever it goes. -/
theorem enter_here (reached : Reached r table b k) (ready : r.Ready table.length)
    (here : Here r b k) :
    ∃ table', enter r b = some table' ∧ table'.length = b.table.length ∧
      (∀ i, i < r.first ∨ r.first + b.used ≤ i → table'[i]? = b.table[i]?) ∧
      (∀ off blk, Sub r b k off blk → table'[r.first + b.low]? = some ⟨b.curr, r.root, off⟩) ∧
      ∀ j ≤ k, Covers r table' (b.lim r) j := by
  cases here with
  | fresh fresh short =>
    obtain ⟨table', enters, length, frame, covers⟩ := enter_fresh reached ready fresh short
    exact ⟨table', enters, length, frame, fun _ _ sub => absurd short (Nat.not_le_of_lt sub.long),
      covers⟩
  | @sub off blk sub block =>
    obtain ⟨table', enters, length, frame, link, covers⟩ := enter_sub reached ready sub block
    refine ⟨table', enters, length, frame, ?_, covers⟩
    intro off' blk' sub'
    have same := sub'.link.symm.trans sub.link
    cases same
    exact link

/-- The code that `huff` has after a codeword. -/
theorem backIncrement_place (ready : r.Ready size) (inside : r.lengths[k]? = some l) :
    backIncrement (reverseBits 15 (r.place k)) l = reverseBits 15 (r.place (k + 1)) := by
  obtain ⟨c, small, is, next⟩ := ready.ordered.code ready.place_le inside
  have few : l ≤ 15 := ready.ordered.most l (List.mem_of_getElem? inside)
  rw [Request.place, Request.place, is, next, reverseBits_mul few, reverseBits_mul few,
    backIncrement_reverseBits small, reverseBits_mod (Nat.le_refl l)]

/-- A code does not reach beyond its block. -/
theorem Request.Ready.block_le (ready : r.Ready size) (inside : r.lengths[k]? = some l)
    (long : r.root < l) {blk : Nat} (block : r.place k / 2 ^ (15 - r.root) = blk) :
    r.place (k + 1) ≤ (blk + 1) * 2 ^ (15 - r.root) := by
  obtain ⟨c, small, is, next⟩ := ready.ordered.code ready.place_le inside
  have few : l ≤ 15 := ready.ordered.most l (List.mem_of_getElem? inside)
  have power : 2 ^ (15 - r.root) = 2 ^ (l - r.root) * 2 ^ (15 - l) := by
    rw [← Nat.pow_add, show l - r.root + (15 - l) = 15 - r.root by omega]
  have below : r.place k < (blk + 1) * 2 ^ (15 - r.root) :=
    Nat.lt_mul_of_div_lt (block ▸ Nat.lt_succ_self _) (Nat.two_pow_pos _)
  rw [Request.place] at below ⊢
  rw [is, power, ← Nat.mul_assoc] at below
  rw [next, power, ← Nat.mul_assoc]
  exact Nat.mul_le_mul_right _ (Nat.lt_of_mul_lt_mul_right below)

/-- The state behind a code. -/
def Builder.past (b : Builder) (table : List Code) : Builder :=
  { b with
    table := table
    huff := backIncrement b.huff b.len
    sym := b.sym + 1
    count := fun l => if l = b.len then b.count l - 1 else b.count l }

theorem buildRound_enters {table' : List Code} (enters : enter r b = some table') :
    buildRound r b =
      let b' := b.past table'
      if b'.count b.len = 0 then
        if b.len = r.max then .leave (some (0, b'))
        else
          match (r.work[b'.sym]?).bind fun sym => r.lens[sym]? with
          | none => .leave none
          | some len => newTable r { b' with len := len }
      else newTable r b' := by
  rw [buildRound, enters]
  rfl

/-- The codes that are left. -/
theorem Reached.past_count (reached : Reached r table b k) (table' : List Code) :
    ∀ l, 1 ≤ l → (b.past table').count l = (r.lengths.drop (k + 1)).count l := by
  intro l least
  obtain ⟨below, value⟩ := List.getElem?_eq_some_iff.mp reached.inside
  have count := reached.count l least
  rw [List.drop_eq_getElem_cons below, value, List.count_cons] at count
  show (if l = b.len then b.count l - 1 else b.count l) = _
  by_cases same : l = b.len
  · subst same
    rw [if_pos (beq_self_eq_true _)] at count
    rw [if_pos rfl, count, Nat.add_sub_cancel]
  · rw [if_neg (by simpa using Ne.symm same), Nat.add_zero] at count
    rw [if_neg same, count]

/-- Behind a code that is not the last one. -/
theorem Reached.past (reached : Reached r table b k) (ready : r.Ready table.length)
    (here : Here r b k) {table' : List Code} (length : table'.length = b.table.length)
    (frame : ∀ i, i < r.first ∨ r.first + b.used ≤ i → table'[i]? = b.table[i]?)
    (link : ∀ off blk, Sub r b k off blk → table'[r.first + b.low]? = some ⟨b.curr, r.root, off⟩)
    (covers : ∀ j ≤ k, Covers r table' (b.lim r) j) {len : Nat}
    (inside : r.lengths[k + 1]? = some len) :
    let b' := { b.past table' with len := len }
    Reached r table b' (k + 1) ∧ (Fresh r b' (k + 1) ∨ ∃ off blk, Sub r b' (k + 1) off blk) := by
  refine ⟨?_, ?_⟩
  · constructor
    case sym => exact congrArg (· + 1) reached.sym
    case inside => exact inside
    case huff =>
      show backIncrement b.huff b.len = _
      rw [reached.huff, backIncrement_place ready reached.inside]
    case count => exact reached.past_count table'
    case length => exact length.trans reached.length
    case frame => exact fun i outside => (frame i outside).trans (reached.frame i outside)
    case roomy => exact reached.roomy
    case flat => exact reached.flat
    case covers => exact fun j before => covers j (Nat.le_of_lt_succ before)
  · cases here with
    | fresh fresh short =>
      refine .inl ⟨fresh.drop, fresh.curr, fresh.next, fresh.used, fresh.low, ?_⟩
      intro j before l there
      rcases Nat.lt_succ_iff_lt_or_eq.mp before with before | rfl
      · exact fresh.short j before l there
      · rw [reached.inside] at there
        cases there
        exact short
    | @sub off blk sub block =>
      refine .inr ⟨off, blk, ?_⟩
      constructor
      case drop => exact sub.drop
      case next => exact sub.next
      case used => exact sub.used
      case behind => exact sub.behind
      case some => exact sub.some
      case few => exact sub.few
      case low => exact sub.low
      case small => exact sub.small
      case link => exact link off blk sub
      case long =>
        exact Nat.lt_of_lt_of_le sub.long (ready.ordered.le (Nat.le_succ k) reached.inside inside)
      case start => exact Nat.le_trans sub.start (place_mono (Nat.le_succ k))
      case stop => exact ready.block_le reached.inside sub.long block
      case reach => exact sub.reach

/-- All codes are in the tables. -/
structure Entire (r : Request) (table : List Code) (b : Builder) : Prop where
  len : b.len = r.max
  huff : b.huff = reverseBits 15 (taken r.lens 15)
  length : b.table.length = table.length
  frame : ∀ i, i < r.first ∨ r.first + b.used ≤ i → b.table[i]? = table[i]?
  roomy : ¬ r.type.Exceeded b.used
  flat : r.type = .codes → b.used = 2 ^ r.root
  covers : ∀ j < r.lengths.length, Covers r b.table (b.lim r) j
  single : r.max ≤ r.root → b.drop = 0 ∧ b.next = r.first ∧ b.used = 2 ^ r.root
  filled : 2 ^ r.root ≤ b.used
  few : b.next - r.first ≤ b.used

/-- The loop was left for want of space. -/
structure Gave (r : Request) (table : List Code) (b : Builder) : Prop where
  length : b.table.length = table.length
  before : ∀ i < r.first, b.table[i]? = table[i]?
  codes : r.type ≠ .codes

theorem Request.place_end (r : Request) : r.place r.lengths.length = taken r.lens 15 :=
  place_lengths r.lens 15

theorem Reached.gave (reached : Reached r table b k) {b' : Builder} (same : b'.table = b.table)
    (codes : r.type ≠ .codes) : Gave r table b' := by
  refine ⟨?_, ?_, codes⟩
  · rw [same]
    exact reached.length
  · intro i before
    rw [same]
    exact reached.frame i (.inl before)

/-- Behind the last code. -/
theorem Reached.entire (reached : Reached r table b k) (ready : r.Ready table.length)
    (here : Here r b k) {table' : List Code} (length : table'.length = b.table.length)
    (frame : ∀ i, i < r.first ∨ r.first + b.used ≤ i → table'[i]? = b.table[i]?)
    (covers : ∀ j ≤ k, Covers r table' (b.lim r) j)
    (last : b.len = r.max) (all : k + 1 = r.lengths.length) : Entire r table (b.past table') := by
  constructor
  case len => exact last
  case huff =>
    show backIncrement b.huff b.len = _
    rw [reached.huff, backIncrement_place ready reached.inside, all, r.place_end]
  case length => exact length.trans reached.length
  case frame => exact fun i outside => (frame i outside).trans (reached.frame i outside)
  case roomy => exact reached.roomy
  case flat => exact reached.flat
  case covers => exact fun j before => covers j (by omega)
  case single =>
    intro short
    cases here with
    | fresh fresh => exact ⟨fresh.drop, fresh.next, fresh.used⟩
    | sub sub =>
      have long := sub.long
      omega
  case filled =>
    show 2 ^ r.root ≤ b.used
    cases here with
    | fresh fresh => exact Nat.le_of_eq fresh.used.symm
    | sub sub => exact sub.used ▸ Nat.le_trans sub.behind (Nat.le_add_right _ _)
  case few =>
    show b.next - r.first ≤ b.used
    cases here with
    | fresh fresh =>
      rw [fresh.next, Nat.sub_self]
      exact Nat.zero_le _
    | sub sub =>
      rw [sub.next, Nat.add_sub_cancel_left, sub.used]
      exact Nat.le_add_right _ _

/-- What a round does: it goes on to the next code, or all codes are entered, or there is no space
for another table. -/
theorem buildRound_spec (reached : Reached r table b k) (ready : r.Ready table.length)
    (here : Here r b k) :
    (∃ b', buildRound r b = .leave (some (1, b')) ∧ Gave r table b') ∨
      (∃ b', buildRound r b = .leave (some (0, b')) ∧ Entire r table b') ∨
      ∃ b', buildRound r b = .again b' ∧ Reached r table b' (k + 1) ∧ Here r b' (k + 1) := by
  obtain ⟨table', enters, length, frame, link, covers⟩ := enter_here reached ready here
  have least := ready.ordered.least _ (List.mem_of_getElem? reached.inside)
  obtain ⟨final, longer, same⟩ := ready.behind reached.inside
  have round := buildRound_enters enters
  simp only [reached.past_count table' _ least] at round
  rw [round]
  -- `newTable` for the next code, whatever its length is.
  have next : ∀ len, r.lengths[k + 1]? = some len →
      (∃ b', newTable r { b.past table' with len := len } = .leave (some (1, b')) ∧
        Gave r table b') ∨
      ∃ b', newTable r { b.past table' with len := len } = .again b' ∧
        Reached r table b' (k + 1) ∧ Here r b' (k + 1) := by
    intro len inside
    obtain ⟨reached', phase⟩ := reached.past ready here length frame link covers inside
    rcases newTable_spec reached' ready phase with ⟨b', left, same, codes⟩ | again
    · exact .inl ⟨b', left, reached'.gave same codes⟩
    · exact .inr again
  by_cases none : (r.lengths.drop (k + 1)).count b.len = 0
  · simp only [if_pos none]
    by_cases last : b.len = r.max
    · rw [if_pos last]
      exact .inr (.inl ⟨_, rfl, reached.entire ready here length frame covers last
        (final ⟨last, none⟩)⟩)
    · have inside := List.getElem?_eq_getElem (longer last)
      obtain ⟨sym, there, inLens, -⟩ := Request.lengths_sym inside
      have work : r.work[(b.past table').sym]? = some sym := by
        show r.work[b.sym + 1]? = some sym
        rw [reached.sym]
        exact ready.sorted _ _ there
      rw [work, Option.bind_some, inLens]
      simp only [if_neg last]
      exact (next _ inside).imp_right .inr
  · simp only [if_neg none]
    exact (next b.len (same none)).imp_right .inr

/-- What the loop is left with. -/
theorem build_run (ready : r.Ready table.length) {fuel : Nat} (reached : Reached r table b k)
    (here : Here r b k) (enough : r.lengths.length < fuel + k + 1) :
    ∃ ret b', run (buildRound r) (fuel + 1) b = some (some (ret, b')) ∧
      (ret = 1 ∧ Gave r table b' ∨ ret = 0 ∧ Entire r table b') := by
  induction fuel generalizing b k with
  | zero =>
    obtain ⟨below, -⟩ := List.getElem?_eq_some_iff.mp reached.inside
    rcases buildRound_spec reached ready here with
      ⟨b', left, gave⟩ | ⟨b', left, entire⟩ | ⟨b', again, reached', -⟩
    · exact ⟨1, b', by simp only [run, left], .inl ⟨rfl, gave⟩⟩
    · exact ⟨0, b', by simp only [run, left], .inr ⟨rfl, entire⟩⟩
    · obtain ⟨below', -⟩ := List.getElem?_eq_some_iff.mp reached'.inside
      omega
  | succ fuel ih =>
    rcases buildRound_spec reached ready here with
      ⟨b', left, gave⟩ | ⟨b', left, entire⟩ | ⟨b', again, reached', here'⟩
    · exact ⟨1, b', by simp only [run, left], .inl ⟨rfl, gave⟩⟩
    · exact ⟨0, b', by simp only [run, left], .inr ⟨rfl, entire⟩⟩
    · rw [run, again]
      exact ih reached' here' (by omega)

end

end CheriGzip.Inflate
