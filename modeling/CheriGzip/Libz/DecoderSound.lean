import CheriGzip.Libz.Decoder

/-!
# The decoder stays inside of its arrays

Whatever the bits are: the lengths that are read are in the arrays and small enough for
`inflate_table`, the tables that symbols are decoded with are those of a code, and lengths and
distances are in their bounds. So no state reads or writes outside of an array.
-/
namespace CheriGzip.Inflate

open Loop

/-! ## The arrays -/

/-- The sizes of `lens` and `codes` in `struct inflate_state`. -/
structure Registers.Sized (r : Registers) : Prop where
  lens : r.lens.length = 320
  codes : r.codes.length = enoughLens + enoughDists

/-- The numbers of code lengths. -/
structure Registers.Counts (r : Registers) : Prop where
  ncode : r.ncode ≤ 19
  least : 257 ≤ r.nlen
  nlen : r.nlen ≤ 286
  some : 1 ≤ r.ndist
  ndist : r.ndist ≤ 30

/-- The lengths before `n` are `most` at most. -/
def Within (lens : List Nat) (n most : Nat) : Prop := ∀ k < n, ∀ l, lens[k]? = some l → l ≤ most

/-- The lengths of the lengths that are there already. -/
def Registers.Placed (r : Registers) : Prop :=
  ∀ k < r.got, ∀ place, order[k]? = some place → ∀ l, r.lens[place]? = some l → l ≤ 7

/-- The tables for symbols are those of some codes. -/
def Registers.Tables (r : Registers) : Prop :=
  ∃ lens dists, Finds .lens lens r.lencode r.lenbits ∧ Finds .dists dists r.distcode r.distbits

/-- What the states rely on. -/
def Registers.Phase (r : Registers) : Prop :=
  match r.block with
  | some .lenlens => r.Counts ∧ r.got ≤ r.ncode ∧ r.Placed
  | some .codelens => r.Counts ∧ r.got ≤ r.nlen + r.ndist ∧ Within r.lens r.got 15 ∧
      ∃ lens, Finds .codes lens r.lencode r.lenbits
  | some .len_ => r.Tables
  | none => r.mode = .type ∨ r.mode = .bad ∨ r.Tables
  | _ => True

section

variable {r : Registers} {n len : Nat}

theorem Within.set {lens : List Nat} {n most : Nat} (within : Within lens n most) {i : Nat}
    (small : len ≤ most) : Within (lens.set i len) n most := by
  intro k before l there
  rw [List.getElem?_set] at there
  by_cases same : i = k
  · rw [if_pos same] at there
    split at there <;> cases there
    exact small
  · rw [if_neg same] at there
    exact within k before l there

theorem Within.take {lens : List Nat} {n most : Nat} (within : Within lens n most) :
    ∀ l ∈ lens.take n, l ≤ most := by
  intro l there
  obtain ⟨k, there⟩ := List.getElem?_of_mem there
  rw [List.getElem?_take] at there
  split at there
  · rename_i before
    exact within k before l there
  · cases there

theorem Within.drop {lens : List Nat} {m n most : Nat} (within : Within lens (m + n) most) :
    ∀ l ∈ (lens.drop m).take n, l ≤ most := by
  refine Within.take (n := n) ?_
  intro k before l there
  rw [List.getElem?_drop] at there
  exact within _ (Nat.add_lt_add_left before m) l there

theorem order_inside : ∀ k < 19, ∃ place, order[k]? = some place ∧ place < 19 := by
  decide

theorem order_all : ∀ place < 19, ∃ k < 19, order[k]? = some place := by
  decide

/-- `state->lens[order[state->have++]] = len` -/
theorem Registers.putOrder_spec (inside : r.got < 19) (room : 19 ≤ r.lens.length) (len : Nat) :
    ∃ place, order[r.got]? = some place ∧
      r.putOrder len = some { r with lens := r.lens.set place len, got := r.got + 1 } := by
  obtain ⟨place, there, few⟩ := order_inside r.got inside
  refine ⟨place, there, ?_⟩
  simp only [Registers.putOrder, there, store_some (Nat.lt_of_lt_of_le few room),
    Option.bind_eq_bind, Option.bind_some]

theorem Registers.Placed.put (placed : r.Placed) {place : Nat}
    (there : order[r.got]? = some place) (small : len ≤ 7) :
    Registers.Placed { r with lens := r.lens.set place len, got := r.got + 1 } := by
  intro k before place' there' l found
  have found' : (r.lens.set place len)[place']? = some l := found
  rw [List.getElem?_set] at found'
  by_cases same : place = place'
  · rw [if_pos same] at found'
    split at found' <;> cases found'
    exact small
  · rw [if_neg same] at found'
    rcases Nat.lt_succ_iff_lt_or_eq.mp before with earlier | last
    · exact placed k earlier place' there' l found'
    · rw [last, there] at there'
      exact absurd (Option.some.inj there') same

/-- `while (state->have < 19) state->lens[order[state->have++]] = 0;` -/
theorem Registers.fillOrder_spec (room : r.got + n ≤ 19) (sized : r.Sized) (placed : r.Placed) :
    ∃ lens, r.fillOrder n = some { r with lens := lens, got := r.got + n } ∧ lens.length = 320 ∧
      Registers.Placed { r with lens := lens, got := r.got + n } := by
  induction n generalizing r with
  | zero => exact ⟨r.lens, rfl, sized.lens, placed⟩
  | succ n ih =>
    obtain ⟨place, there, puts⟩ := Registers.putOrder_spec (by omega : r.got < 19)
      (by rw [sized.lens]; decide) 0
    obtain ⟨lens, fills, length, placed'⟩ :=
      ih (r := { r with lens := r.lens.set place 0, got := r.got + 1 }) (by simp only; omega)
        ⟨(List.length_set ..).trans sized.lens, sized.codes⟩
        (placed.put there (Nat.zero_le 7))
    have more : r.got + 1 + n = r.got + (n + 1) := by omega
    simp only [more] at fills placed'
    refine ⟨lens, ?_, length, placed'⟩
    simp only [Registers.fillOrder, puts, Option.bind_eq_bind, Option.bind_some, fills]

/-- `state->lens[state->have++] = len`, as often as it fits -/
theorem Registers.putLens_spec (len : Nat) (room : r.got + n ≤ r.lens.length) :
    ∃ lens, r.putLens len n = some { r with lens := lens, got := r.got + n } ∧
      lens.length = r.lens.length ∧
      ∀ k, lens[k]? = if r.got ≤ k ∧ k < r.got + n then some len else r.lens[k]? := by
  induction n generalizing r with
  | zero =>
    refine ⟨r.lens, rfl, rfl, ?_⟩
    intro k
    rw [if_neg (by omega)]
  | succ n ih =>
    have inside : r.got < r.lens.length := by omega
    obtain ⟨lens, puts, length, values⟩ :=
      ih (r := { r with lens := r.lens.set r.got len, got := r.got + 1 })
        (by simp only [List.length_set]; omega)
    have more : r.got + 1 + n = r.got + (n + 1) := by omega
    simp only [more, List.length_set] at puts length values
    refine ⟨lens, ?_, length, ?_⟩
    · simp only [Registers.putLens, store_some inside, Option.bind_eq_bind, Option.bind_some, puts]
    · intro k
      rw [values k, List.getElem?_set]
      grind

theorem Within.puts {lens lens' : List Nat} {got n most : Nat} (within : Within lens got most)
    (values : ∀ k, lens'[k]? = if got ≤ k ∧ k < got + n then some len else lens[k]?)
    (small : len ≤ most) : Within lens' (got + n) most := by
  intro k before l there
  rw [values k] at there
  by_cases new : got ≤ k ∧ k < got + n
  · rw [if_pos new] at there
    cases there
    exact small
  · rw [if_neg new] at there
    exact within k (by omega) l there

/-! ## The tables -/

/-- How the states that read code lengths go on: with a message, or to the mode given. -/
inductive Registers.Reaches (r : Registers) (block : Block) : Prop where
  | bad (block : r.block = none) (mode : r.mode = .bad)
  | next (is : r.block = some block)

/-- `work` is large enough, and `codes` for the table of the lengths of the lengths. -/
theorem usable_codes {lens : List Nat} {codes : List Code} (few : ∀ l ∈ lens, l ≤ 7)
    (short : lens.length ≤ 19) (room : codes.length = enoughLens + enoughDists) :
    Usable .codes lens codes 0 7 work where
  few l there := Nat.le_trans (few l there) (by decide)
  known := short
  space := by
    rw [work, List.length_replicate]
    omega
  some := by decide
  room := by
    refine ⟨few, ?_⟩
    rw [room]
    decide

theorem usable_lens {lens : List Nat} {codes : List Code} (few : ∀ l ∈ lens, l ≤ 15)
    (short : lens.length ≤ 286) (room : codes.length = enoughLens + enoughDists) :
    Usable .lens lens codes 0 9 work where
  few := few
  known := Nat.le_trans short (by decide)
  space := by
    rw [work, List.length_replicate]
    omega
  some := by decide
  room := by
    show 0 + enoughLens ≤ codes.length
    omega

theorem usable_dists {lens : List Nat} {codes : List Code} {first : Nat}
    (few : ∀ l ∈ lens, l ≤ 15) (short : lens.length ≤ 30) (below : first ≤ enoughLens)
    (room : codes.length = enoughLens + enoughDists) : Usable .dists lens codes first 6 work where
  few := few
  known := Nat.le_trans short (by decide)
  space := by
    rw [work, List.length_replicate]
    omega
  some := by decide
  room := by
    show first + enoughDists ≤ codes.length
    omega

/-- What `inflate_table` leaves, as far as the states need it. -/
theorem inflateTable_usable {type : CodeType} {lens : List Nat} {codes : List Code}
    {first bits : Nat} (usable : Usable type lens codes first bits work) :
    ∃ built, inflateTable type lens codes first bits work = some built ∧
      built.table.length = codes.length ∧ (∀ i < first, built.table[i]? = codes[i]?) ∧
      (built.ret = 0 → ¬ type.Exceeded (built.next - first) ∧
        ∀ table' : List Code, (∀ i < built.next, table'[i]? = built.table[i]?) →
          Finds type lens (table'.drop first) built.bits) := by
  obtain ⟨built, makes, rejects, accepts⟩ := inflateTable_made usable
  refine ⟨built, makes, ?_⟩
  by_cases accepted : Accepted type lens
  · have made := accepts accepted
    refine ⟨made.length, made.before, ?_⟩
    intro ret
    obtain ⟨-, -, -, roomy, -, decodes⟩ := made.made (by rw [ret]; decide)
    exact ⟨roomy, fun table' same => (decodes table' same).finds usable.few⟩
  · obtain ⟨ret, same⟩ := rejects accepted
    rw [same]
    refine ⟨rfl, fun _ _ => rfl, ?_⟩
    intro zero
    rw [ret] at zero
    cases zero

/-- The end of `case LENLENS` -/
theorem Registers.buildCodes_spec (sized : r.Sized) (counts : r.Counts) (few : r.got ≤ 19)
    (placed : r.Placed) : ∃ r', r.buildCodes = some r' ∧ r'.Sized ∧ r'.Phase ∧
      r'.Reaches .codelens := by
  obtain ⟨lens, fills, length, placed'⟩ :=
    Registers.fillOrder_spec (n := 19 - r.got) (by omega) sized placed
  have all : r.got + (19 - r.got) = 19 := by omega
  rw [all] at fills placed'
  have small : ∀ l ∈ lens.take 19, l ≤ 7 := by
    refine Within.take ?_
    intro place inside l there
    obtain ⟨k, before, is⟩ := order_all place inside
    exact placed' k before place is l there
  obtain ⟨built, makes, size, -, finds⟩ :=
    inflateTable_usable (usable_codes small (by rw [List.length_take]; omega) sized.codes)
  simp only [Registers.buildCodes, fills, Option.bind_eq_bind, Option.bind_some, makes]
  by_cases failed : built.ret ≠ 0
  · rw [if_pos failed]
    exact ⟨_, rfl, ⟨length, size.trans sized.codes⟩, .inr (.inl rfl), .bad rfl rfl⟩
  · rw [if_neg failed]
    have found := (finds (Classical.not_not.mp failed)).2 _ (fun _ _ => rfl)
    rw [List.drop_zero] at found
    refine ⟨_, rfl, ⟨length, size.trans sized.codes⟩, ⟨?_, Nat.zero_le _, ?_, _, found⟩,
      .next rfl⟩
    · exact ⟨counts.ncode, counts.least, counts.nlen, counts.some, counts.ndist⟩
    · exact fun k before => absurd before (Nat.not_lt_zero k)

/-- The end of `case CODELENS` -/
theorem Registers.buildTables_spec (sized : r.Sized) (counts : r.Counts)
    (within : Within r.lens (r.nlen + r.ndist) 15) : ∃ r', r.buildTables = some r' ∧ r'.Sized ∧
      r'.Phase ∧ r'.Reaches .len_ := by
  obtain ⟨e, there⟩ : ∃ e, r.lens[256]? = some e :=
    ⟨_, List.getElem?_eq_getElem (by rw [sized.lens]; decide)⟩
  have least : Within r.lens r.nlen 15 := fun k before => within k (by omega)
  obtain ⟨built, makes, size, -, finds⟩ := inflateTable_usable
    (usable_lens least.take (by rw [List.length_take]; have := counts.nlen; omega) sized.codes)
  simp only [Registers.buildTables, there, Option.bind_eq_bind, Option.bind_some, makes]
  by_cases missing : e = 0
  · rw [if_pos missing]
    exact ⟨_, rfl, ⟨sized.lens, sized.codes⟩, .inr (.inl rfl), .bad rfl rfl⟩
  rw [if_neg missing]
  by_cases failed : built.ret ≠ 0
  · rw [if_pos failed]
    exact ⟨_, rfl, ⟨sized.lens, size.trans sized.codes⟩, .inr (.inl rfl), .bad rfl rfl⟩
  rw [if_neg failed]
  obtain ⟨roomy, found⟩ := finds (Classical.not_not.mp failed)
  -- The table for distances goes behind the one for lengths, and leaves it as it is.
  have below : built.next ≤ enoughLens :=
    Nat.le_of_not_lt fun more => roomy (.inl ⟨rfl, more⟩)
  obtain ⟨built', makes', size', before, finds'⟩ := inflateTable_usable
    (usable_dists within.drop (by rw [List.length_take]; have := counts.ndist; omega) below
      (size.trans sized.codes))
  simp only [makes', Option.bind_some]
  by_cases failed' : built'.ret ≠ 0
  · rw [if_pos failed']
    exact ⟨_, rfl, ⟨sized.lens, size'.trans (size.trans sized.codes)⟩, .inr (.inl rfl),
      .bad rfl rfl⟩
  rw [if_neg failed']
  have lens := found built'.table before
  have dists := (finds' (Classical.not_not.mp failed')).2 _ (fun _ _ => rfl)
  rw [List.drop_zero] at lens
  exact ⟨_, rfl, ⟨sized.lens, size'.trans (size.trans sized.codes)⟩, ⟨_, _, lens, dists⟩,
    .next rfl⟩

/-- One round of `case CODELENS` -/
theorem Registers.putLength_spec (sized : r.Sized) (counts : r.Counts)
    (more : r.got < r.nlen + r.ndist) (within : Within r.lens r.got 15) {lens : List Nat}
    (finds : Finds .codes lens r.lencode r.lenbits) (block : r.block = some .codelens)
    (val bits : Nat) : ∃ r', r.putLength val bits = some r' ∧ r'.Sized ∧ r'.Phase ∧
      r'.Reaches .codelens := by
  have nlen := counts.nlen
  have ndist := counts.ndist
  have puts : ∀ {len n}, len ≤ 15 → r.got + n ≤ r.nlen + r.ndist → ∃ r', r.putLens len n = some r' ∧
      r'.Sized ∧ r'.Phase ∧ r'.Reaches .codelens := by
    intro len n small fits
    obtain ⟨lens', puts, length, values⟩ :=
      Registers.putLens_spec len (by rw [sized.lens]; omega : r.got + n ≤ r.lens.length)
    refine ⟨_, puts, ⟨length.trans sized.lens, sized.codes⟩, ?_, .next block⟩
    simp only [Registers.Phase, block]
    exact ⟨⟨counts.ncode, counts.least, nlen, counts.some, ndist⟩, fits, within.puts values small,
      lens, finds⟩
  have bad : ∀ message, (r.bad message).Sized ∧ (r.bad message).Phase ∧
      (r.bad message).Reaches .codelens := fun _ =>
    ⟨⟨sized.lens, sized.codes⟩, .inr (.inl rfl), .bad rfl rfl⟩
  simp only [Registers.putLength]
  by_cases literal : val < 16
  · rw [if_pos literal]
    exact puts (by omega) (by omega)
  rw [if_neg literal]
  by_cases nothing : val = 16 ∧ r.got = 0
  · rw [if_pos nothing]
    exact ⟨_, rfl, bad _⟩
  rw [if_neg nothing]
  -- The length that is repeated is one that is there, or 0.
  have repeats : ∀ len ≤ 15, ∀ copy, ∃ r',
      (if r.got + copy > r.nlen + r.ndist then some (r.bad "invalid bit length repeat")
        else r.putLens len copy) = some r' ∧ r'.Sized ∧ r'.Phase ∧ r'.Reaches .codelens := by
    intro len small copy
    by_cases long : r.got + copy > r.nlen + r.ndist
    · rw [if_pos long]
      exact ⟨_, rfl, bad _⟩
    · rw [if_neg long]
      exact puts small (by omega)
  by_cases last : val = 16
  · have some : r.got - 1 < r.got := Nat.sub_lt (by omega) (by decide)
    have inside : r.got - 1 < r.lens.length := by
      rw [sized.lens]
      omega
    have there := List.getElem?_eq_getElem inside
    simp only [if_pos last, there, Option.bind_eq_bind, Option.bind_some]
    exact repeats _ (within _ some _ there) _
  · simp only [if_neg last, Option.bind_eq_bind, Option.bind_some]
    exact repeats 0 (Nat.zero_le _) _

end

/-! ## Entries -/

section

variable {table : List Code} {root x c n : Nat} {e : Code}

theorem EntryAt.lookup {kind : CodeKind} {link : Code → Bool} (tests : kind.Tests link)
    (entryAt : EntryAt kind table root x c e n) : lookup table root link x c = some (e, n) := by
  cases entryAt with
  | root entry code =>
    simp only [Inflate.lookup, entry, tests.code code, Option.bind_eq_bind, Option.bind_some]
    rfl
  | linked entry link entry' code =>
    simp only [Inflate.lookup, entry, tests.link link, entry', Option.bind_eq_bind,
      Option.bind_some]
    rfl

theorem dbase_dext_le : ∀ i < 32, dext.getD i 0 = 64 ∨ ∃ extra ≤ 13, dext.getD i 0 = 16 + extra ∧
    1 ≤ dbase.getD i 0 ∧ dbase.getD i 0 + 2 ^ extra ≤ 32769 := by
  intro i inside
  have all : ∀ i < 32, dext.getD i 0 = 64 ∨ 16 ≤ dext.getD i 0 ∧ dext.getD i 0 ≤ 29 ∧
      1 ≤ dbase.getD i 0 ∧ dbase.getD i 0 + 2 ^ (dext.getD i 0 - 16) ≤ 32769 := by
    decide
  rcases all i inside with invalid | ⟨least, most, some, reach⟩
  · exact .inl invalid
  · exact .inr ⟨dext.getD i 0 - 16, by omega, by omega, some, reach⟩

/-- Distances are at most 32768. -/
theorem Finds.distance {lens : List Nat} (finds : Finds .dists lens table root)
    (entryAt : EntryAt distKind table root x c e n) :
    e.op = 64 ∨ ∃ extra ≤ 13, e.op = 16 + extra ∧ 1 ≤ e.val ∧ e.val + 2 ^ extra ≤ 32769 := by
  rcases finds.only entryAt with ⟨sym, -, means⟩ | ⟨-, op, -⟩
  · rcases means with here | ⟨is, -⟩
    · by_cases inside : sym < 32
      · have entry : CodeType.dists.here sym e.bits =
            .some ⟨dext.getD sym 0, e.bits, dbase.getD sym 0⟩ :=
          (CodeType.here_all inside (here_distfix sym inside)).2 e.bits
        have same := Option.some.inj (entry.symm.trans here)
        rw [← congrArg Code.op same, ← congrArg Code.val same]
        exact dbase_dext_le sym inside
      · have above : (sym : Int) > -1 := by omega
        have behind : ¬ (sym : Int) < -1 := by omega
        have outside : dext[sym]? = .none := List.getElem?_eq_none (by show 32 ≤ sym; omega)
        have none : CodeType.dists.here sym e.bits = .none := by
          simp only [CodeType.here, Request.here, CodeType.last, if_neg behind, if_pos above,
            CodeType.extra, outside, Option.bind_eq_bind, Option.bind_none]
        rw [none] at here
        cases here
    · cases is
  · exact .inl op

end

/-! ## What a state does -/

/-- The bounds of the symbol or the stored bytes that are under way. -/
def Decoder.Pends (d : Decoder) : Prop :=
  let p := d.pending
  match d.regs.block, d.regs.mode with
  | some .copy_, _ => d.pos % 8 = 0
  | some .copy, _ => d.pos % 8 = 0
  | some .check, _ => d.pos % 8 = 0
  | some .length, _ => d.pos % 8 = 0
  | some .done, _ => d.pos % 8 = 0
  | none, .lenext => 3 ≤ p.length ∧ p.length + 2 ^ p.extra ≤ 259
  | none, .dist => 3 ≤ p.length ∧ p.length ≤ 258
  | none, .distext => 3 ≤ p.length ∧ p.length ≤ 258 ∧ 1 ≤ p.offset ∧ p.offset + 2 ^ p.extra ≤ 32769
  | none, .matching => 1 ≤ p.length ∧ p.length ≤ 258 ∧ 1 ≤ p.offset ∧ p.offset ≤ 32768
  | _, _ => True

structure Decoder.Sound (d : Decoder) : Prop where
  sized : d.regs.Sized
  phase : d.regs.Phase
  mem : d.regs.block ≠ some .mem
  pends : d.Pends

/-- How many states at most come before one that reads a bit or puts a byte. -/
def Block.rank : Block → Nat
  | .head => 4
  | .typedo => 3
  | .stored => 1
  | .copy_ => 6
  | .copy => 5
  | .table => 1
  | .lenlens => 7
  | .codelens => 6
  | .len_ => 5
  | .check => 2
  | .length => 1
  | .done => 0
  | .mem => 0

def Mode.rank : Mode → Nat
  | .type => 4
  | .len => 4
  | .lenext => 2
  | .dist => 1
  | .distext => 2
  | .matching => 1
  | .lit => 1
  | .bad => 0

def Registers.rank (r : Registers) : Nat :=
  match r.block with
  | some block => block.rank
  | none => r.mode.rank

theorem Block.rank_le (block : Block) : block.rank ≤ 7 := by
  cases block <;> decide

theorem Mode.rank_le (mode : Mode) : mode.rank ≤ 7 := by
  cases mode <;> decide

theorem Registers.rank_le (r : Registers) : r.rank ≤ 7 := by
  unfold Registers.rank
  split
  · exact Block.rank_le _
  · exact Mode.rank_le _

/-- What every state adds to. -/
def Decoder.reach (d : Decoder) : Nat := 8 * (d.pos + d.out.length) + (7 - d.regs.rank)

/-- What one state does. -/
structure Decoder.Next (d d' : Decoder) : Prop where
  sound : d'.Sound
  pos : d.pos ≤ d'.pos
  out : d.out <+: d'.out
  reach : d.reach < d'.reach

inductive Decoder.Stepped (d : Decoder) : DRound → Prop where
  | again {d' : Decoder} (next : d.Next d') : Stepped d (.again d')
  | ended (block : d.regs.block = some .done) : Stepped d (.leave (some zStreamEnd))
  | failed (block : d.regs.block = none) (mode : d.regs.mode = .bad) :
      Stepped d (.leave (some zDataError))

section

variable {d d' : Decoder} {x : Nat}

/-- A state that reads at least one bit. -/
theorem Decoder.Next.reads (sound : d'.Sound) (pos : d.pos < d'.pos) (out : d'.out = d.out) :
    d.Next d' := by
  refine ⟨sound, Nat.le_of_lt pos, out ▸ List.prefix_refl _, ?_⟩
  simp only [Decoder.reach, out]
  omega

/-- A state that comes before the next one. -/
theorem Decoder.Next.before (sound : d'.Sound) (pos : d.pos ≤ d'.pos) (out : d'.out = d.out)
    (less : d'.regs.rank < d.regs.rank) : d.Next d' := by
  refine ⟨sound, pos, out ▸ List.prefix_refl _, ?_⟩
  have most := d.regs.rank_le
  simp only [Decoder.reach, out]
  omega

/-- A state that puts bytes. -/
theorem Decoder.Next.puts (sound : d'.Sound) (pos : d.pos ≤ d'.pos) {b : UInt8}
    (out : d'.out = d.out ++ [b]) : d.Next d' := by
  refine ⟨sound, pos, ⟨[b], out.symm⟩, ?_⟩
  simp only [Decoder.reach, out, List.length_append, List.length_singleton]
  omega

/-- A state that finds something wrong. -/
theorem Decoder.Next.bad (sized : d'.regs.Sized) (block : d'.regs.block = none)
    (mode : d'.regs.mode = .bad) (pos : d.pos ≤ d'.pos) (out : d'.out = d.out)
    (some : 1 ≤ d.regs.rank) : d.Next d' := by
  refine .before ⟨sized, ?_, ?_, ?_⟩ pos out ?_
  · simp only [Registers.Phase, block]
    exact .inr (.inl mode)
  · rw [block]
    exact nofun
  · simp only [Decoder.Pends, block, mode]
  · simp only [Registers.rank, block, mode]
    exact some

theorem Registers.blockType_sound (sized : d.regs.Sized) (bits : Nat) :
    Decoder.Sound { d with regs := d.regs.blockType bits, pos := d.pos + 3 } := by
  simp only [Registers.blockType]
  split
  · exact ⟨⟨sized.lens, sized.codes⟩, trivial, nofun, trivial⟩
  split
  · exact ⟨⟨sized.lens, sized.codes⟩, ⟨_, _, lenfix_finds, distfix_finds⟩, nofun, trivial⟩
  split
  · exact ⟨⟨sized.lens, sized.codes⟩, trivial, nofun, trivial⟩
  · exact ⟨⟨sized.lens, sized.codes⟩, .inr (.inl rfl), nofun, trivial⟩

theorem Decoder.typedo_spec (sized : d.regs.Sized) (block : d.regs.block = some .typedo) (x : Nat) :
    d.Stepped (d.typedo x) := by
  have three : 3 ≤ d.regs.rank := by simp [Registers.rank, block, Block.rank]
  simp only [Decoder.typedo, Decoder.read]
  split
  · refine .again (.before ⟨⟨sized.lens, sized.codes⟩, trivial, nofun, ?_⟩ ?_ rfl three)
    · exact Nat.mul_mod_left _ 8
    · show d.pos ≤ (d.pos + 7) / 8 * 8
      omega
  · exact .again (.reads (Registers.blockType_sound sized _) (by simp only; omega) rfl)

theorem Decoder.stored_spec (sized : d.regs.Sized) (block : d.regs.block = some .stored) (x : Nat) :
    d.Stepped (d.stored x) := by
  have pends : ∀ d' : Decoder, d'.regs.block = some .stored → d'.Pends := by
    intro d' is
    simp only [Decoder.Pends, is]
  simp only [Decoder.stored]
  by_cases between : d.pos % 8 ≠ 0
  · rw [if_pos between]
    refine .again (.reads ⟨sized, ?_, ?_, pends _ block⟩ ?_ rfl)
    · simp only [Registers.Phase, block]
    · simp only [block]
      exact nofun
    · show d.pos < (d.pos + 7) / 8 * 8
      omega
  · rw [if_neg between]
    refine .again (.reads ?_ (by simp only; omega) rfl)
    simp only [Registers.storedLength]
    split
    · exact ⟨⟨sized.lens, sized.codes⟩, .inr (.inl rfl), nofun, trivial⟩
    · refine ⟨⟨sized.lens, sized.codes⟩, trivial, nofun, ?_⟩
      show (d.pos + 32) % 8 = 0
      omega

theorem Decoder.copy_spec (sized : d.regs.Sized) (block : d.regs.block = some .copy)
    (pos : d.pos % 8 = 0) (x : Nat) : d.Stepped (d.copy x) := by
  simp only [Decoder.copy]
  split
  · refine .again (.puts ⟨sized, ?_, ?_, ?_⟩ (by simp only; omega) rfl)
    · simp only [Registers.Phase, block]
    · simp only [block]
      exact nofun
    · simp only [Decoder.Pends, block]
      omega
  · refine .again (.before ⟨⟨sized.lens, sized.codes⟩, .inl rfl, nofun, trivial⟩ (Nat.le_refl _)
      rfl ?_)
    simp only [Registers.rank, block]
    exact (by decide : Mode.rank .type < Block.rank .copy)

theorem Decoder.table_spec (sized : d.regs.Sized) (x : Nat) :
    d.Stepped (d.read x 14 fun bits => some (d.regs.tableSizes bits)) := by
  simp only [Decoder.read]
  refine .again (.reads ?_ (by simp only; omega) rfl)
  simp only [Registers.tableSizes]
  generalize bitField x d.pos 14 = bits
  split
  · exact ⟨⟨sized.lens, sized.codes⟩, .inr (.inl rfl), nofun, trivial⟩
  · rename_i within
    obtain ⟨nlen, ndist⟩ := not_or.mp within
    refine ⟨⟨sized.lens, sized.codes⟩, ⟨⟨?_, ?_, ?_, ?_, ?_⟩, Nat.zero_le _, ?_⟩, nofun, trivial⟩
    · show bits / 1024 % 16 + 4 ≤ 19
      omega
    · exact Nat.le_add_left _ _
    · exact Nat.le_of_not_lt nlen
    · exact Nat.le_add_left _ _
    · exact Nat.le_of_not_lt ndist
    · exact fun k before => absurd before (Nat.not_lt_zero k)

/-- The end of a state that reads code lengths. -/
theorem Decoder.reaches {block : Block} {r : Registers} (sized : r.Sized) (phase : r.Phase)
    (reaches : r.Reaches block) (is : block = .lenlens ∨ block = .codelens ∨ block = .len_)
    (p : Pending) (pos : Nat) (out : Bytes) : Decoder.Sound ⟨r, p, pos, out⟩ := by
  cases reaches with
  | bad none mode => exact ⟨sized, phase, by simp [none], by simp [Decoder.Pends, none, mode]⟩
  | next next =>
    rcases is with rfl | rfl | rfl <;>
      exact ⟨sized, phase, by simp [next], by simp [Decoder.Pends, next]⟩

theorem Decoder.lenlens_spec (sized : d.regs.Sized) (block : d.regs.block = some .lenlens)
    (counts : d.regs.Counts) (few : d.regs.got ≤ d.regs.ncode) (placed : d.regs.Placed) (x : Nat) :
    d.Stepped (if d.regs.got < d.regs.ncode then d.read x 3 d.regs.putOrder
      else d.goes d.regs.buildCodes) := by
  have ncode := counts.ncode
  by_cases more : d.regs.got < d.regs.ncode
  · obtain ⟨place, there, puts⟩ := Registers.putOrder_spec (by omega : d.regs.got < 19)
      (by rw [sized.lens]; decide) (bitField x d.pos 3)
    have small : bitField x d.pos 3 < 8 := bitField_lt x d.pos 3
    rw [if_pos more, Decoder.read, puts]
    have sized' : Registers.Sized { d.regs with
        lens := d.regs.lens.set place (bitField x d.pos 3), got := d.regs.got + 1 } :=
      ⟨(List.length_set ..).trans sized.lens, sized.codes⟩
    refine .again (.reads (Decoder.reaches sized' ?_ (.next block) (by decide) _ _ _)
      (by simp only; omega) rfl)
    simp only [Registers.Phase, block]
    exact ⟨⟨ncode, counts.least, counts.nlen, counts.some, counts.ndist⟩, more,
      placed.put there (by omega)⟩
  · obtain ⟨r, builds, sized', phase, reaches⟩ :=
      Registers.buildCodes_spec sized counts (by omega) placed
    simp only [if_neg more, Decoder.goes, builds]
    refine .again (.before (Decoder.reaches sized' phase reaches (by decide) _ _ _) (Nat.le_refl _)
      rfl ?_)
    cases reaches with
    | bad is mode => simp [Registers.rank, is, mode, block, Mode.rank, Block.rank]
    | next is => simp [Registers.rank, is, block, Block.rank]

theorem Decoder.codelens_spec (sized : d.regs.Sized) (block : d.regs.block = some .codelens)
    (counts : d.regs.Counts) (few : d.regs.got ≤ d.regs.nlen + d.regs.ndist)
    (within : Within d.regs.lens d.regs.got 15) {lens : List Nat}
    (finds : Finds .codes lens d.regs.lencode d.regs.lenbits) (x : Nat) :
    d.Stepped (d.codelens x) := by
  simp only [Decoder.codelens]
  by_cases more : d.regs.got < d.regs.nlen + d.regs.ndist
  · rw [if_pos more]
    obtain ⟨e, n, entryAt, -⟩ := finds.formed.entryAt x d.pos
    have some := finds.some entryAt
    cases entryAt with
    | linked _ link => exact absurd link not_false
    | root entry =>
      obtain ⟨r, puts, sized', phase, reaches⟩ := Registers.putLength_spec sized counts more within
        finds block e.val (bitField x (d.pos + e.bits) (repeatBits e.val))
      simp only [entry, puts]
      refine .again (.reads (Decoder.reaches sized' phase reaches (by decide) _ _ _) ?_ rfl)
      show d.pos < d.pos + e.bits + repeatBits e.val
      omega
  · obtain ⟨r, builds, sized', phase, reaches⟩ := Registers.buildTables_spec sized counts
      (by rwa [Nat.le_antisymm few (Nat.le_of_not_lt more)] at within)
    simp only [if_neg more, Decoder.goes, builds]
    refine .again (.before (Decoder.reaches sized' phase reaches (by decide) _ _ _) (Nat.le_refl _)
      rfl ?_)
    cases reaches with
    | bad is mode => simp [Registers.rank, is, mode, block, Mode.rank, Block.rank]
    | next is => simp [Registers.rank, is, block, Block.rank]

/-- A state of symbols that goes on with the same tables. -/
theorem Decoder.Sound.symbol (sized : d.regs.Sized) (tables : d.regs.Tables)
    (block : d.regs.block = none) {mode : Mode} {p : Pending} {pos : Nat} {out : Bytes}
    (pends : Decoder.Pends ⟨{ d.regs with mode := mode }, p, pos, out⟩) :
    Decoder.Sound ⟨{ d.regs with mode := mode }, p, pos, out⟩ := by
  refine ⟨⟨sized.lens, sized.codes⟩, ?_, ?_, pends⟩
  · simp only [Registers.Phase, block]
    exact .inr (.inr tables)
  · simp [block]

/-- A symbol that is not valid. -/
theorem Decoder.bad_spec (sized : d.regs.Sized) (block : d.regs.block = none)
    (some : 1 ≤ d.regs.rank) (p : Pending) {pos : Nat} (le : d.pos ≤ pos) (message : String) :
    d.Stepped (.again ⟨{ d.regs with mode := .bad, msg := message }, p, pos, d.out⟩) :=
  .again (.bad ⟨sized.lens, sized.codes⟩ block rfl le rfl some)

theorem Decoder.len_spec (sized : d.regs.Sized) (tables : d.regs.Tables)
    (block : d.regs.block = none) (mode : d.regs.mode = .len) (x : Nat) : d.Stepped (d.len x) := by
  obtain ⟨lens, dists, finds, -⟩ := id tables
  obtain ⟨e, n, entryAt, -⟩ := finds.formed.entryAt x d.pos
  have some := finds.some entryAt
  have rank : 1 ≤ d.regs.rank := by simp [Registers.rank, block, mode, Mode.rank]
  have symbol : ∀ mode' p, Decoder.Pends ⟨{ d.regs with mode := mode' }, p, d.pos + n, d.out⟩ →
      d.Stepped (.again ⟨{ d.regs with mode := mode' }, p, d.pos + n, d.out⟩) :=
    fun _ _ pends => .again (.reads (.symbol sized tables block pends) (by simp only; omega) rfl)
  simp only [Decoder.len, EntryAt.lookup lenTest entryAt, Decoder.mode]
  have code : LenCode e := entryAt.isCode
  cases code with
  | literal op =>
    rw [if_pos op]
    exact symbol _ _ (by simp [Decoder.Pends, block])
  | endOfBlock op =>
    simp only [op]
    exact symbol _ _ (by simp [Decoder.Pends, block])
  | @invalid low few op =>
    obtain ⟨-, notEnd, isBad, -⟩ := op_invalid low few
    have notLiteral : ¬ 64 + low = 0 := by omega
    simp only [op, notEnd, isBad, notLiteral, if_true, if_false, ne_eq, not_true_eq_false,
      not_false_eq_true]
    exact Decoder.bad_spec sized block rank _ (Nat.le_add_right _ _) _
  | @base extra few op long short =>
    obtain ⟨-, low, notEnd, valid, -⟩ := op_base extra (by omega)
    have notLiteral : ¬ 16 + extra = 0 := by omega
    simp only [op, low, notEnd, valid, notLiteral, if_false, ne_eq, not_true_eq_false]
    refine symbol _ _ ?_
    simp only [Decoder.Pends, block]
    exact ⟨long, short⟩

theorem Decoder.lenext_spec (sized : d.regs.Sized) (tables : d.regs.Tables)
    (block : d.regs.block = none) (mode : d.regs.mode = .lenext) (pends : d.Pends) (x : Nat) :
    d.Stepped (d.lenext x) := by
  simp only [Decoder.Pends, block, mode] at pends
  have small := bitField_lt x d.pos d.pending.extra
  refine .again (.before (.symbol sized tables block ?_) (Nat.le_add_right _ _) rfl ?_)
  · simp only [Decoder.Pends, block]
    omega
  · simp [Decoder.mode, Registers.rank, block, mode, Mode.rank]

theorem Decoder.dist_spec (sized : d.regs.Sized) (tables : d.regs.Tables)
    (block : d.regs.block = none) (mode : d.regs.mode = .dist) (pends : d.Pends) (x : Nat) :
    d.Stepped (d.dist x) := by
  simp only [Decoder.Pends, block, mode] at pends
  obtain ⟨lens, dists, -, finds⟩ := id tables
  obtain ⟨e, n, entryAt, -⟩ := finds.formed.entryAt x d.pos
  have some := finds.some entryAt
  have rank : 1 ≤ d.regs.rank := by simp [Registers.rank, block, mode, Mode.rank]
  simp only [Decoder.dist, EntryAt.lookup distTest entryAt]
  rcases finds.distance entryAt with op | ⟨extra, few, op, least, most⟩
  · simp only [op]
    exact Decoder.bad_spec sized block rank _ (Nat.le_add_right _ _) _
  · obtain ⟨-, low, -, valid, -⟩ := op_base extra (by omega)
    simp only [op, low, valid, ne_eq, not_true_eq_false, if_false]
    refine .again (.reads (.symbol sized tables block ?_) ?_ rfl)
    · simp only [Decoder.Pends, block]
      exact ⟨pends.1, pends.2, least, most⟩
    · simp only [Decoder.mode]
      omega

theorem Decoder.distext_spec (sized : d.regs.Sized) (tables : d.regs.Tables)
    (block : d.regs.block = none) (mode : d.regs.mode = .distext) (pends : d.Pends) (x : Nat) :
    d.Stepped (d.distext x) := by
  simp only [Decoder.Pends, block, mode] at pends
  have small := bitField_lt x d.pos d.pending.extra
  refine .again (.before (.symbol sized tables block ?_) (Nat.le_add_right _ _) rfl ?_)
  · simp only [Decoder.Pends, block]
    omega
  · simp [Decoder.mode, Registers.rank, block, mode, Mode.rank]

theorem Decoder.matching_spec (sized : d.regs.Sized) (tables : d.regs.Tables)
    (block : d.regs.block = none) (mode : d.regs.mode = .matching) (pends : d.Pends) :
    d.Stepped d.matching := by
  simp only [Decoder.Pends, block, mode] at pends
  have rank : 1 ≤ d.regs.rank := by simp [Registers.rank, block, mode, Mode.rank]
  simp only [Decoder.matching]
  by_cases far : d.pending.offset > d.out.length
  · rw [if_pos far]
    exact Decoder.bad_spec sized block rank _ (Nat.le_refl _) _
  · have inside : d.out.length - d.pending.offset < d.out.length := by omega
    have there := List.getElem?_eq_getElem inside
    simp only [if_neg far, there]
    refine .again (.puts (.symbol sized tables block ?_) (Nat.le_refl _) rfl)
    simp only [Decoder.Pends, block]
    by_cases last : d.pending.length - 1 = 0
    · simp [last]
    · simp only [last, if_false]
      omega

theorem Decoder.lit_spec (sized : d.regs.Sized) (tables : d.regs.Tables)
    (block : d.regs.block = none) : d.Stepped d.lit := by
  refine .again (.puts (.symbol sized tables block ?_) (Nat.le_refl _) rfl)
  simp only [Decoder.Pends, block]

/-- A mode that follows another one at once. -/
theorem Decoder.enter_spec (sized : d.regs.Sized) {block block' : Block}
    (is : d.regs.block = some block) (less : block'.rank < block.rank) (other : block' ≠ .mem)
    (phase : (d.regs.enter block').Phase)
    (pends : Decoder.Pends { d with regs := d.regs.enter block' }) :
    d.Stepped (.again { d with regs := d.regs.enter block' }) := by
  refine .again (.before ⟨⟨sized.lens, sized.codes⟩, phase, ?_, pends⟩ (Nat.le_refl _) rfl ?_)
  · simp [Registers.enter, other]
  · simpa [Registers.enter, Registers.rank, is] using less

/-- Every state stays inside of its arrays and goes on, unless the data is at its end or wrong. -/
theorem Decoder.step_spec (sound : d.Sound) (x : Nat) : d.Stepped (d.step x) := by
  obtain ⟨sized, phase, mem, pends⟩ := sound
  simp only [Registers.Phase] at phase
  cases block : d.regs.block with
  | some b =>
    simp only [block, Decoder.Pends] at phase pends mem
    simp only [Decoder.step, block]
    cases b with
    | head => exact Decoder.enter_spec sized block (by decide) nofun trivial trivial
    | typedo => exact Decoder.typedo_spec sized block x
    | stored => exact Decoder.stored_spec sized block x
    | copy_ => exact Decoder.enter_spec sized block (by decide) nofun trivial pends
    | copy => exact Decoder.copy_spec sized block pends x
    | table => exact Decoder.table_spec sized x
    | lenlens =>
      obtain ⟨counts, few, placed⟩ := phase
      exact Decoder.lenlens_spec sized block counts few placed x
    | codelens =>
      obtain ⟨counts, few, within, lens, finds⟩ := phase
      exact Decoder.codelens_spec sized block counts few within finds x
    | len_ =>
      refine .again (.before ⟨⟨sized.lens, sized.codes⟩, .inr (.inr phase), nofun, trivial⟩
        (Nat.le_refl _) rfl ?_)
      simp only [Registers.symbol, Registers.rank, block]
      decide
    | check => exact Decoder.enter_spec sized block (by decide) nofun trivial pends
    | length => exact Decoder.enter_spec sized block (by decide) nofun trivial pends
    | done => exact .ended block
    | mem => exact absurd rfl mem
  | none =>
    simp only [block] at phase
    simp only [Decoder.step, block]
    have tables : d.regs.mode ≠ .type → d.regs.mode ≠ .bad → d.regs.Tables :=
      fun type bad => (phase.resolve_left type).resolve_left bad
    cases mode : d.regs.mode with
    | type =>
      refine .again (.before ⟨⟨sized.lens, sized.codes⟩, trivial, nofun, trivial⟩ (Nat.le_refl _)
        rfl ?_)
      simp only [Registers.enter, Registers.rank, block, mode]
      decide
    | bad => exact .failed block mode
    | len => exact Decoder.len_spec sized (tables (by simp [mode]) (by simp [mode])) block mode x
    | lenext =>
      exact Decoder.lenext_spec sized (tables (by simp [mode]) (by simp [mode])) block mode pends x
    | dist =>
      exact Decoder.dist_spec sized (tables (by simp [mode]) (by simp [mode])) block mode pends x
    | distext =>
      exact Decoder.distext_spec sized (tables (by simp [mode]) (by simp [mode])) block mode pends x
    | matching =>
      exact Decoder.matching_spec sized (tables (by simp [mode]) (by simp [mode])) block mode pends
    | lit => exact Decoder.lit_spec sized (tables (by simp [mode]) (by simp [mode])) block

end

end CheriGzip.Inflate
