import CheriGzip.Libz.TableCorrect

/-!
# Looking codes up in what inflate_table makes

Tables in which every code is entered decode the canonical code of their lengths, through the same
look-ups as `inflate_c` makes.
-/
namespace CheriGzip.Inflate

open Loop

/-! ## Bits that lead to an entry -/

/-- The bits of `w` lead to an entry for a code of `l` bits. -/
inductive Leads (table : List Code) (first root op val l w : Nat) : Prop where
  | root (short : l ≤ root) (entry : table[first + w % 2 ^ root]? = some ⟨op, l, val⟩)
  | linked {curr off : Nat} (long : root < l)
      (link : table[first + w % 2 ^ root]? = some ⟨curr, root, off⟩)
      (reach : l ≤ root + curr) (few : root + curr ≤ 15)
      (entry : table[first + off + w / 2 ^ root % 2 ^ curr]? = some ⟨op, l - root, val⟩)

/-- All bits lead to an entry, and those do that begin with the same code. -/
def Filled (kind : CodeKind) (table : List Code) (first root : Nat) : Prop :=
  ∀ w, ∃ op val l, (∀ bits, kind.code ⟨op, bits, val⟩) ∧
    (root < l → ∀ curr off, 1 ≤ curr → curr < 16 → kind.link ⟨curr, root, off⟩) ∧
    ∀ w', w' % 2 ^ l = w % 2 ^ l → Leads table first root op val l w'

section

variable {kind : CodeKind} {table : List Code} {first root op val l w x c : Nat}

theorem Entered.leads {r : Request} {lim : Nat → Nat} {sym : Nat}
    (entered : Entered r table lim sym l w)
    (is : ∀ bits, r.here sym bits = some ⟨op, bits, val⟩) :
    Leads table r.first r.root op val l w := by
  cases entered with
  | root short entry => exact .root short (entry.trans (is _))
  | linked long link reach few _ _ entry => exact .linked long link reach few (entry.trans (is _))

/-- What `inflate_c` finds at bits that lead to an entry. -/
theorem Leads.entryAt (leads : Leads table first root op val l (bitField x c 15))
    (root_le : root ≤ 15)
    (link : root < l → ∀ curr off, 1 ≤ curr → curr < 16 → kind.link ⟨curr, root, off⟩)
    (code : ∀ bits, kind.code ⟨op, bits, val⟩) :
    ∃ bits, EntryAt kind (table.drop first) root x c ⟨op, bits, val⟩ l := by
  cases leads with
  | root short entry =>
    rw [bitField_mod root_le, ← List.getElem?_drop] at entry
    exact ⟨l, .root entry (code l)⟩
  | @linked curr off long link' reach few entry =>
    have index : bitField x c 15 / 2 ^ root % 2 ^ curr = bitField x (c + root) curr := by
      rw [← Nat.shiftRight_eq_div_pow, bitField_shift root_le, bitField_mod (by omega)]
    rw [bitField_mod root_le, ← List.getElem?_drop] at link'
    rw [index, Nat.add_assoc, ← List.getElem?_drop] at entry
    have found : EntryAt kind (table.drop first) root x c ⟨op, l - root, val⟩ (root + (l - root)) :=
      .linked link' (link long curr off (by omega) (by omega)) entry (code _)
    rw [Nat.add_sub_cancel' (Nat.le_of_lt long)] at found
    exact ⟨l - root, found⟩

/-- Filled tables are as `inflate_c` and `inflate_fast` rely on them. -/
theorem Filled.wellFormed (filled : Filled kind table first root) (root_le : root ≤ 15)
    (either : ∀ e, kind.link e → ¬ kind.code e) :
    WellFormed kind (table.drop first) root := by
  refine ⟨root_le, ?_, ?_⟩
  · intro j inside
    obtain ⟨op, val, l, code, -, all⟩ := filled j
    have low : ∀ {k}, k < 2 ^ root → k % 2 ^ root = k := Nat.mod_eq_of_lt
    rw [Nat.zero_add, List.getElem?_drop]
    cases all j rfl with
    | root short entry =>
      rw [low inside] at entry
      refine ⟨_, entry, short, ?_⟩
      intro k inside' same
      rw [Nat.zero_add, List.getElem?_drop]
      cases all k same with
      | root _ entry' => rwa [low inside'] at entry'
      | linked long => exact absurd short (Nat.not_le_of_lt long)
    | linked long link =>
      rw [low inside] at link
      refine ⟨_, link, Nat.le_refl root, ?_⟩
      intro k inside' same
      rw [low inside, low inside'] at same
      rwa [same, Nat.zero_add, List.getElem?_drop]
  · intro j inside e entry
    rw [List.getElem?_drop] at entry
    obtain ⟨op, val, l, code, link, all⟩ := filled j
    have low : j % 2 ^ root = j := Nat.mod_eq_of_lt inside
    cases all j rfl with
    | root _ entry' =>
      rw [low, entry] at entry'
      cases entry'
      exact .inl (code l)
    | @linked curr off long link' reach few _ =>
      rw [low, entry] at link'
      cases link'
      have isLink := link long curr off (by omega) (by omega)
      -- The bits that go through this link to the index `i`.
      have through : ∀ i < 2 ^ curr, ∃ op val l, (∀ bits, kind.code ⟨op, bits, val⟩) ∧ root < l ∧
          l ≤ root + curr ∧ ∀ k < 2 ^ curr, k % 2 ^ (l - root) = i % 2 ^ (l - root) →
            (table.drop first)[off + k]? = some ⟨op, l - root, val⟩ := by
        intro i inside'
        have index : ∀ k, (j + 2 ^ root * k) % 2 ^ root = j ∧
            (j + 2 ^ root * k) / 2 ^ root = k := by
          intro k
          rw [Nat.add_mul_mod_self_left, low, Nat.add_mul_div_left _ _ (Nat.two_pow_pos root),
            Nat.div_eq_of_lt inside, Nat.zero_add]
          exact ⟨rfl, rfl⟩
        obtain ⟨op, val, l, code, -, all⟩ := filled (j + 2 ^ root * i)
        have long : root < l := by
          cases all _ rfl with
          | root _ entry' =>
            rw [(index i).1, entry] at entry'
            cases entry'
            exact absurd (code _) (either _ isLink)
          | linked long => exact long
        have reach : l ≤ root + curr := by
          cases all _ rfl with
          | root short => exact absurd short (Nat.not_le_of_lt long)
          | linked _ link' reach =>
            rw [(index i).1, entry] at link'
            cases link'
            exact reach
        refine ⟨op, val, l, code, long, reach, ?_⟩
        intro k inside' same
        have bits : (j + 2 ^ root * k) % 2 ^ l = (j + 2 ^ root * i) % 2 ^ l := by
          have parts := mod_two_pow_iff (x := j + 2 ^ root * k)
            (y := (j + 2 ^ root * i) % 2 ^ l) (Nat.le_of_lt long)
          have power : 2 ^ l = 2 ^ root * 2 ^ (l - root) := by
            rw [← Nat.pow_add, Nat.add_sub_cancel' (Nat.le_of_lt long)]
          rw [parts, Nat.mod_mod_of_dvd _ (Nat.pow_dvd_pow 2 (Nat.le_of_lt long)), (index k).1,
            (index i).1, (index k).2, power, Nat.mod_mul_right_div_self, (index i).2]
          exact ⟨rfl, same⟩
        cases all _ bits with
        | root short => exact absurd short (Nat.not_le_of_lt long)
        | linked _ link' _ _ entry' =>
          rw [(index k).1, entry] at link'
          cases link'
          rw [(index k).2, Nat.mod_eq_of_lt inside', Nat.add_assoc] at entry'
          rw [List.getElem?_drop]
          exact entry'
      refine .inr ⟨isLink, rfl, few, ?_, ?_⟩
      · intro i inside'
        obtain ⟨op, val, l, -, long, reach, all⟩ := through i inside'
        exact ⟨_, all i inside' rfl, Nat.sub_le_of_le_add (Nat.add_comm _ _ ▸ reach), all⟩
      · intro i inside' e' entry'
        obtain ⟨op, val, l, code, -, -, all⟩ := through i inside'
        rw [all i inside' rfl] at entry'
        cases entry'
        exact code _

end

/-! ## Symbols -/

/-- The table entry for a symbol that the code has a meaning for. -/
def CodeType.here (type : CodeType) : (sym bits : Nat) → Option Code :=
  Request.here ⟨type, [], [], 0, 0, 0⟩

/-- How many symbols the code has a meaning for. -/
def CodeType.symbols : CodeType → Nat
  | .codes => 19
  | .lens => 288
  | .dists => 32

/-- The entries of the tables. -/
def CodeType.kind : CodeType → CodeKind
  | .codes => ⟨fun _ => False, fun e => e.op = 0 ∨ e.op = 64⟩
  | .lens => lenKind
  | .dists => distKind

/-- Lengths and distances have at most 5 and 13 extra bits, and lengths are at most 258. -/
theorem lbase_lext : ∀ i < 31, ∃ op val, lext[i]? = some op ∧ lbase[i]? = some val ∧
    (16 ≤ op ∧ op ≤ 21 ∧ 3 ≤ val ∧ val + 2 ^ (op - 16) ≤ 259 ∨ 64 ≤ op ∧ op < 80) := by
  intro i inside
  have all : ∀ i < 31,
      16 ≤ lext.getD i 0 ∧ lext.getD i 0 ≤ 21 ∧ 3 ≤ lbase.getD i 0 ∧
        lbase.getD i 0 + 2 ^ (lext.getD i 0 - 16) ≤ 259 ∨
      64 ≤ lext.getD i 0 ∧ lext.getD i 0 < 80 := by decide
  have one := List.getElem?_eq_getElem (show i < lext.length from inside)
  have other := List.getElem?_eq_getElem (show i < lbase.length from inside)
  have both := all i inside
  rw [List.getD_eq_getElem?_getD, List.getD_eq_getElem?_getD, one, other] at both
  exact ⟨_, _, one, other, both⟩

theorem dbase_dext : ∀ i < 32, ∃ op val, dext[i]? = some op ∧ dbase[i]? = some val ∧
    (16 ≤ op ∧ op ≤ 29 ∧ 1 ≤ val ∨ op = 64) := by
  intro i inside
  have all : ∀ i < 32, 16 ≤ dext.getD i 0 ∧ dext.getD i 0 ≤ 29 ∧ 1 ≤ dbase.getD i 0 ∨
      dext.getD i 0 = 64 := by decide
  have one := List.getElem?_eq_getElem (show i < dext.length from inside)
  have other := List.getElem?_eq_getElem (show i < dbase.length from inside)
  have both := all i inside
  rw [List.getD_eq_getElem?_getD, List.getD_eq_getElem?_getD, one, other] at both
  exact ⟨_, _, one, other, both⟩

/-- Every symbol has an entry, of a kind that the decoding loops know. -/
theorem CodeType.here_some (type : CodeType) {sym : Nat} (known : sym < type.symbols) :
    ∃ op val, (∀ bits, type.kind.code ⟨op, bits, val⟩) ∧
      (∀ bits, type.here sym bits = some ⟨op, bits, val⟩) ∧
      ∀ r : Request, r.type = type → ∀ bits, r.here sym bits = some ⟨op, bits, val⟩ := by
  cases type with
  | codes =>
    have below : (sym : Int) < 19 := by exact_mod_cast known
    exact ⟨0, sym, fun _ => .inl rfl, fun _ => if_pos below, fun r is bits => by
      rw [Request.here, is]
      exact if_pos below⟩
  | lens =>
    have known' : sym < 288 := known
    rcases Nat.lt_trichotomy sym 256 with literal | rfl | length
    · have below : (sym : Int) < CodeType.lens.last := by
        show (sym : Int) < 256
        exact_mod_cast literal
      have entry : ∀ r : Request, r.type = .lens → ∀ bits,
          r.here sym bits = some ⟨0, bits, sym⟩ := by
        intro r is bits
        rw [Request.here, is, if_pos below]
      exact ⟨0, sym, fun _ => .literal rfl, fun bits => entry _ rfl bits, entry⟩
    · exact ⟨96, 0, fun _ => .endOfBlock rfl, fun _ => rfl, fun r is bits => by
        rw [Request.here, is]
        rfl⟩
    · obtain ⟨op, val, extra, base, bounds⟩ := lbase_lext (sym - 257) (by omega)
      have behind : ¬ (sym : Int) < 256 := by omega
      have above : (sym : Int) > 256 := by omega
      have index : ¬ sym < 257 := by omega
      have entry : ∀ r : Request, r.type = .lens → ∀ bits,
          r.here sym bits = some ⟨op, bits, val⟩ := by
        intro r is bits
        simp only [Request.here, is, CodeType.last, if_neg behind, if_pos above, CodeType.extra,
          CodeType.base, if_neg index, extra, base]
        rfl
      refine ⟨op, val, ?_, fun bits => entry _ rfl bits, entry⟩
      intro bits
      rcases bounds with ⟨least, most, long, short⟩ | ⟨least, most⟩
      · exact .base (by omega) (show op = 16 + (op - 16) by omega) long short
      · exact .invalid (by omega) (show op = 64 + (op - 64) by omega)
  | dists =>
    obtain ⟨op, val, extra, base, bounds⟩ := dbase_dext sym known
    have behind : ¬ (sym : Int) < -1 := by omega
    have above : (sym : Int) > -1 := by omega
    have entry : ∀ r : Request, r.type = .dists → ∀ bits,
        r.here sym bits = some ⟨op, bits, val⟩ := by
      intro r is bits
      simp only [Request.here, is, CodeType.last, if_neg behind, if_pos above, CodeType.extra,
        CodeType.base, extra, base]
      rfl
    refine ⟨op, val, ?_, fun bits => entry _ rfl bits, entry⟩
    intro bits
    rcases bounds with ⟨least, most, some⟩ | invalid
    · exact .base (by omega) (show op = 16 + (op - 16) by omega) some
    · exact .invalid (by decide) (show op = 64 + 0 from invalid)

/-! ## Codes in the stream -/

/-- At bit `c` there is the codeword of a symbol, of `n` bits. -/
structure CodeAt (lens : List Nat) (x c sym n : Nat) : Prop where
  inside : sym < lens.length
  length : lens.getD sym 0 = n
  some : 1 ≤ n
  code : reverseBits n (bitField x c n) = codeOf lens sym

/-- The tables find the symbols of the code, and no bits are without an entry. -/
structure Decodes (type : CodeType) (lens : List Nat) (table : List Code) (root : Nat) : Prop where
  formed : WellFormed type.kind table root
  symbol : ∀ {x c sym n}, CodeAt lens x c sym n →
    ∃ e, type.here sym e.bits = some e ∧ EntryAt type.kind table root x c e n
  invalid : ∀ {x c}, (∀ sym n, ¬ CodeAt lens x c sym n) →
    ∃ e, e.op = 64 ∧ e.val = 0 ∧ EntryAt type.kind table root x c e 1

section

variable {type : CodeType} {lens : List Nat} {table : List Code} {first root size x c : Nat}

/-- A codeword stands where the bits are in its interval. -/
theorem codeAt_iff {k sym : Nat} (there : (inOrder lens 15)[k]? = some sym) :
    CodeAt lens x c sym (lens.getD sym 0) ↔
      place 15 (lengths lens 15) k ≤ reverseBits 15 (bitField x c 15) ∧
        reverseBits 15 (bitField x c 15) < place 15 (lengths lens 15) (k + 1) := by
  obtain ⟨inside, least, most⟩ := mem_inOrder.mp (List.mem_of_getElem? there)
  have entry : (lengths lens 15)[k]? = .some (lens.getD sym 0) := by
    rw [lengths, List.getElem?_map, there]
    rfl
  have size := Nat.two_pow_pos (15 - lens.getD sym 0)
  have succ := Nat.succ_mul (codeOf lens sym) (2 ^ (15 - lens.getD sym 0))
  have short : reverseBits (lens.getD sym 0) (bitField x c 15) =
      reverseBits (lens.getD sym 0) (bitField x c (lens.getD sym 0)) := by
    rw [← reverseBits_mod (Nat.le_refl _), bitField_mod most]
  rw [place_succ entry, place_codeOf there, ← succ, ← Nat.le_div_iff_mul_le size,
    ← Nat.div_lt_iff_lt_mul size, reverseBits_div most, short]
  constructor
  · intro there
    rw [there.code]
    exact ⟨Nat.le_refl _, Nat.lt_succ_self _⟩
  · rintro ⟨lower, upper⟩
    exact ⟨inside, rfl, least, Nat.le_antisymm (Nat.le_of_lt_succ upper) lower⟩

theorem CodeType.either (type : CodeType) (e : Code) (link : type.kind.link e) :
    ¬ type.kind.code e := by
  have isLink : 1 ≤ e.op ∧ e.op < 16 := by
    cases type with
    | codes => exact link.elim
    | lens => exact link
    | dists => exact link
  intro code
  cases type with
  | codes =>
    have ops : e.op = 0 ∨ e.op = 64 := code
    omega
  | lens => rcases (code : LenCode e) with op | ⟨few, op, _, _⟩ | op | ⟨few, op⟩ <;> omega
  | dists => rcases (code : DistCode e) with ⟨few, op, _⟩ | ⟨few, op⟩ <;> omega

theorem CodeType.isLink {type : CodeType} (codes : type ≠ .codes) {curr root off : Nat}
    (some : 1 ≤ curr) (few : curr < 16) : type.kind.link ⟨curr, root, off⟩ := by
  cases type with
  | codes => exact absurd rfl codes
  | lens => exact ⟨some, few⟩
  | dists => exact ⟨some, few⟩

theorem CodeType.isInvalid (type : CodeType) (bits : Nat) : type.kind.code ⟨64, bits, 0⟩ := by
  cases type with
  | codes => exact .inr rfl
  | lens => exact .invalid (by decide) (show 64 = 64 + 0 from rfl)
  | dists => exact .invalid (by decide) (show 64 = 64 + 0 from rfl)

/-- Tables in which every code is entered, and entries for invalid codes everywhere else. -/
theorem Request.Ready.decodes {r : Request} (ready : r.Ready size)
    (known : r.lens.length ≤ r.type.symbols) (few : ∀ l ∈ r.lens, l ≤ 15) {lim : Nat → Nat}
    (covers : ∀ j < r.lengths.length, Covers r table lim j)
    (rest : ∀ w, taken r.lens 15 ≤ reverseBits 15 w →
      ∀ w', w' % 2 ^ 1 = w % 2 ^ 1 → Leads table r.first r.root 64 0 1 w') :
    Decodes r.type r.lens (table.drop r.first) r.root := by
  have below : ∀ {k l}, r.lengths[k]? = some l → k < r.lengths.length := fun inside =>
    (List.getElem?_eq_some_iff.mp inside).1
  -- Bits that do not come behind all codes begin with one of them.
  have code : ∀ w, reverseBits 15 w < taken r.lens 15 → ∃ k l sym, r.lengths[k]? = some l ∧
      (inOrder r.lens 15)[k]? = some sym ∧ sym < r.lens.length ∧ r.lens.getD sym 0 = l ∧
      r.place k ≤ reverseBits 15 w ∧ reverseBits 15 w < r.place (k + 1) := by
    intro w before
    rw [← r.place_end] at before
    obtain ⟨k, l, -, inside, least, most⟩ := exists_place (Nat.le_refl _) before
    obtain ⟨sym, there, inLens, len⟩ := Request.lengths_sym inside
    exact ⟨k, l, sym, inside, there, (List.getElem?_eq_some_iff.mp inLens).1, len, least, most⟩
  have leads : ∀ {k l sym op val : Nat}, r.lengths[k]? = some l →
      (inOrder r.lens 15)[k]? = some sym → r.lens.getD sym 0 = l →
      (∀ bits, r.here sym bits = some ⟨op, bits, val⟩) → ∀ w, r.place k ≤ reverseBits 15 w →
      reverseBits 15 w < r.place (k + 1) → Leads table r.first r.root op val l w := by
    intro k l sym op val inside there len is w least most
    have entered := covers k (below inside) sym there w least most
    rw [len] at entered
    exact entered.leads is
  have link : ∀ l, (r.type = .codes → l ≤ r.root) → r.root < l →
      ∀ curr off, 1 ≤ curr → curr < 16 → r.type.kind.link ⟨curr, r.root, off⟩ := by
    intro l short long curr off
    exact CodeType.isLink fun codes => absurd long (Nat.not_lt_of_le (short codes))
  have short : ∀ {k l}, r.lengths[k]? = some l → r.type = .codes → l ≤ r.root :=
    fun inside codes => Nat.le_trans (ready.longest _ (List.mem_of_getElem? inside))
      (ready.flat codes)
  constructor
  case formed =>
    refine Filled.wellFormed ?_ ready.root_le r.type.either
    intro w
    rcases Nat.lt_or_ge (reverseBits 15 w) (taken r.lens 15) with before | behind
    · obtain ⟨k, l, sym, inside, there, inLens, len, least, most⟩ := code w before
      obtain ⟨op, val, isCode, -, is⟩ := r.type.here_some (Nat.lt_of_lt_of_le inLens known)
      refine ⟨op, val, l, isCode, link l (short inside), ?_⟩
      intro w' same
      have begins := (ready.ordered.mod_iff ready.place_le inside).mpr ⟨least, most⟩
      obtain ⟨least', most'⟩ :=
        (ready.ordered.mod_iff ready.place_le inside).mp (same.trans begins)
      exact leads inside there len (is r rfl) w' least' most'
    · exact ⟨64, 0, 1, r.type.isInvalid, link 1 fun _ => ready.least, rest w behind⟩
  case symbol =>
    intro x c sym n codeAt
    obtain ⟨inside, rfl, some, -⟩ := id codeAt
    have mem : r.lens.getD sym 0 ∈ r.lens := by
      rw [List.getD_eq_getElem?_getD, List.getElem?_eq_getElem inside]
      exact List.getElem_mem inside
    obtain ⟨k, there⟩ := List.getElem?_of_mem (mem_inOrder.mpr ⟨inside, some, few _ mem⟩)
    have entry : r.lengths[k]? = .some (r.lens.getD sym 0) := by
      rw [Request.lengths, CheriGzip.lengths, List.getElem?_map, there]
      rfl
    obtain ⟨op, val, isCode, here, is⟩ := r.type.here_some (Nat.lt_of_lt_of_le inside known)
    obtain ⟨least, most⟩ := (codeAt_iff there).mp codeAt
    have found := leads entry there rfl (is r rfl) _ least most
    obtain ⟨bits, entryAt⟩ := found.entryAt ready.root_le (link _ (short entry)) isCode
    exact ⟨_, here bits, entryAt⟩
  case invalid =>
    intro x c none
    have behind : taken r.lens 15 ≤ reverseBits 15 (bitField x c 15) := by
      apply Nat.le_of_not_lt
      intro before
      obtain ⟨k, l, sym, inside, there, -, -, least, most⟩ := code _ before
      exact none _ _ ((codeAt_iff there).mpr ⟨least, most⟩)
    obtain ⟨bits, entryAt⟩ :=
      (rest _ behind _ rfl).entryAt ready.root_le (link 1 fun _ => ready.least) r.type.isInvalid
    exact ⟨_, rfl, rfl, entryAt⟩

/-- No two codewords are at the same bit: none begins with another one. -/
theorem CodeAt.unique (few : ∀ l ∈ lens, l ≤ 15) {x c sym n sym' n' : Nat}
    (one : CodeAt lens x c sym n) (other : CodeAt lens x c sym' n') : sym = sym' ∧ n = n' := by
  have there : ∀ {sym n}, CodeAt lens x c sym n → ∃ k, (inOrder lens 15)[k]? = .some sym ∧
      place 15 (lengths lens 15) k ≤ reverseBits 15 (bitField x c 15) ∧
      reverseBits 15 (bitField x c 15) < place 15 (lengths lens 15) (k + 1) := by
    intro sym n codeAt
    obtain ⟨inside, rfl, positive, -⟩ := id codeAt
    have mem : lens.getD sym 0 ∈ lens := by
      rw [List.getD_eq_getElem?_getD, List.getElem?_eq_getElem inside]
      exact List.getElem_mem inside
    obtain ⟨k, index⟩ := List.getElem?_of_mem (mem_inOrder.mpr ⟨inside, positive, few _ mem⟩)
    exact ⟨k, index, (codeAt_iff index).mp codeAt⟩
  obtain ⟨k, index, least, most⟩ := there one
  obtain ⟨k', index', least', most'⟩ := there other
  have same := place_unique least most least' most'
  subst same
  rw [index] at index'
  cases index'
  exact ⟨rfl, one.length.symm.trans other.length⟩

theorem EntryAt.unique {kind : CodeKind} (either : ∀ e, kind.link e → ¬ kind.code e)
    {x c n n' : Nat} {e e' : Code} (one : EntryAt kind table root x c e n)
    (other : EntryAt kind table root x c e' n') :
    e = e' ∧ n = n' := by
  cases one with
  | root entry code =>
    cases other with
    | root entry' code' =>
      rw [entry] at entry'
      cases entry'
      exact ⟨rfl, rfl⟩
    | linked entry' link' =>
      rw [entry] at entry'
      cases entry'
      exact absurd code (either _ link')
  | linked entry link inner code =>
    cases other with
    | root entry' code' =>
      rw [entry] at entry'
      cases entry'
      exact absurd code' (either _ link)
    | linked entry' link' inner' code' =>
      rw [entry] at entry'
      cases entry'
      rw [inner] at inner'
      cases inner'
      exact ⟨rfl, rfl⟩

/-- What is found is the symbol whose codeword is there, or the entry for invalid codes. -/
theorem Decodes.only (decodes : Decodes type lens table root) {x c n : Nat} {e : Code}
    (found : EntryAt type.kind table root x c e n) :
    (∃ sym, CodeAt lens x c sym n ∧ type.here sym e.bits = some e) ∨
      (∀ sym n, ¬ CodeAt lens x c sym n) ∧ e.op = 64 ∧ e.val = 0 ∧ n = 1 := by
  by_cases some : ∃ sym n, CodeAt lens x c sym n
  · obtain ⟨sym, m, codeAt⟩ := some
    obtain ⟨e', here, found'⟩ := decodes.symbol codeAt
    obtain ⟨rfl, rfl⟩ := found.unique type.either found'
    exact .inl ⟨sym, codeAt, here⟩
  · have none : ∀ sym n, ¬ CodeAt lens x c sym n := fun sym n codeAt => some ⟨sym, n, codeAt⟩
    obtain ⟨e', op, val, found'⟩ := decodes.invalid none
    obtain ⟨rfl, rfl⟩ := found.unique type.either found'
    exact .inr ⟨none, op, val, rfl⟩

/-! ## What entries mean -/

/-- The entry for a symbol. Which one the invalid symbols of the fixed code have does not matter. -/
def CodeType.Means (type : CodeType) (sym : Nat) (e : Code) : Prop :=
  type.here sym e.bits = some e ∨ type = .lens ∧ 285 < sym ∧ ∃ low < 16, e.op = 64 + low

/-- The tables find the symbols of the code, as far as they mean something. -/
structure Finds (type : CodeType) (lens : List Nat) (table : List Code) (root : Nat) : Prop where
  few : ∀ l ∈ lens, l ≤ 15
  formed : WellFormed type.kind table root
  symbol : ∀ {x c sym n}, CodeAt lens x c sym n →
    ∃ e, type.Means sym e ∧ EntryAt type.kind table root x c e n
  invalid : ∀ {x c}, (∀ sym n, ¬ CodeAt lens x c sym n) →
    ∃ e, e.op = 64 ∧ e.val = 0 ∧ EntryAt type.kind table root x c e 1

theorem Decodes.finds (decodes : Decodes type lens table root) (few : ∀ l ∈ lens, l ≤ 15) :
    Finds type lens table root := by
  refine ⟨few, decodes.formed, ?_, decodes.invalid⟩
  intro x c sym n codeAt
  obtain ⟨e, here, found⟩ := decodes.symbol codeAt
  exact ⟨e, .inl here, found⟩

/-- What is found is the symbol whose codeword is there, or the entry for invalid codes. -/
theorem Finds.only (finds : Finds type lens table root) {x c n : Nat} {e : Code}
    (found : EntryAt type.kind table root x c e n) :
    (∃ sym, CodeAt lens x c sym n ∧ type.Means sym e) ∨
      (∀ sym n, ¬ CodeAt lens x c sym n) ∧ e.op = 64 ∧ e.val = 0 ∧ n = 1 := by
  by_cases there : ∃ sym n, CodeAt lens x c sym n
  · obtain ⟨sym, m, codeAt⟩ := there
    obtain ⟨e', means, found'⟩ := finds.symbol codeAt
    obtain ⟨rfl, rfl⟩ := found.unique type.either found'
    exact .inl ⟨sym, codeAt, means⟩
  · have none : ∀ sym n, ¬ CodeAt lens x c sym n := fun sym n codeAt => there ⟨sym, n, codeAt⟩
    obtain ⟨e', op, val, found'⟩ := finds.invalid none
    obtain ⟨rfl, rfl⟩ := found.unique type.either found'
    exact .inr ⟨none, op, val, rfl⟩

/-- Something is read at every position. -/
theorem Finds.some (finds : Finds type lens table root) {x c n : Nat} {e : Code}
    (found : EntryAt type.kind table root x c e n) : 1 ≤ n := by
  rcases finds.only found with ⟨sym, codeAt, -⟩ | ⟨-, -, -, one⟩
  · exact codeAt.some
  · exact Nat.le_of_eq one.symm

/-- A complete code has a codeword at every position. -/
theorem complete_codeAt (whole : taken lens 15 = 2 ^ 15) (x c : Nat) :
    ∃ k sym : Nat, (inOrder lens 15)[k]? = .some sym ∧ CodeAt lens x c sym (lens.getD sym 0) := by
  have below := CheriGzip.reverseBits_lt 15 (bitField x c 15)
  rw [← whole, ← place_lengths] at below
  obtain ⟨k, l, -, inside, least, most⟩ := exists_place (Nat.le_refl _) below
  rw [lengths, List.getElem?_map] at inside
  cases there : (inOrder lens 15)[k]? with
  | none =>
    rw [there] at inside
    cases inside
  | some sym => exact ⟨k, sym, there, (codeAt_iff there).mpr ⟨least, most⟩⟩

/-- A root table alone, that has an entry at all indices that end in a code. -/
theorem Finds.flat (few : ∀ l ∈ lens, l ≤ 15) (whole : taken lens 15 = 2 ^ 15)
    (root_le : root ≤ 15) (entries : ∀ sym < lens.length, 1 ≤ lens.getD sym 0 →
      lens.getD sym 0 ≤ root ∧ ∃ op val, (∀ bits, type.kind.code ⟨op, bits, val⟩) ∧
        type.Means sym ⟨op, lens.getD sym 0, val⟩ ∧ ∀ i < 2 ^ (root - lens.getD sym 0),
          table[reverseBits (lens.getD sym 0) (codeOf lens sym) + i * 2 ^ lens.getD sym 0]? =
            .some ⟨op, lens.getD sym 0, val⟩) : Finds type lens table root := by
  have low : ∀ {w n}, n ≤ root → w % 2 ^ root % 2 ^ n = w % 2 ^ n := fun short =>
    Nat.mod_mod_of_dvd _ (Nat.pow_dvd_pow 2 short)
  -- The entry at an index that ends in a code.
  have entry : ∀ {sym n j : Nat} {e : Code}, n ≤ root → j < 2 ^ root →
      (∀ i < 2 ^ (root - n), table[reverseBits n (codeOf lens sym) + i * 2 ^ n]? = .some e) →
      j % 2 ^ n = reverseBits n (codeOf lens sym) → table[j]? = .some e := by
    intro sym n j e short inside all ends
    have parts := Nat.mod_add_div j (2 ^ n)
    have high : j / 2 ^ n < 2 ^ (root - n) := by
      apply Nat.div_lt_of_lt_mul
      rwa [← Nat.pow_add, Nat.add_sub_cancel' short]
    rw [ends, Nat.mul_comm] at parts
    rw [← parts]
    exact all _ high
  have begins : ∀ {x c sym n}, n ≤ 15 → CodeAt lens x c sym n →
      bitField x c 15 % 2 ^ n = reverseBits n (codeOf lens sym) := by
    intro x c sym n most codeAt
    rw [bitField_mod most, ← codeAt.code, reverseBits_reverseBits (bitField_lt x c n)]
  refine ⟨few, ?_, ?_, ?_⟩
  · have filled : Filled type.kind table 0 root := by
      intro w
      obtain ⟨k, sym, there, codeAt⟩ := complete_codeAt whole w 0
      obtain ⟨inside, least, most⟩ := mem_inOrder.mp (List.mem_of_getElem? there)
      obtain ⟨short, op, val, isCode, -, all⟩ := entries sym inside least
      have same := begins most codeAt
      rw [bitField_mod most, bitField, Nat.pow_zero, Nat.div_one] at same
      refine ⟨op, val, _, isCode, fun long => absurd long (Nat.not_lt_of_le short), ?_⟩
      intro w' alike
      refine .root short ?_
      rw [Nat.zero_add]
      exact entry short (Nat.mod_lt _ (Nat.two_pow_pos root)) all
        ((low short).trans (alike.trans same))
    have formed := filled.wellFormed root_le type.either
    rwa [List.drop_zero] at formed
  · intro x c sym n codeAt
    obtain ⟨inside, rfl, least, -⟩ := id codeAt
    obtain ⟨short, op, val, isCode, means, all⟩ := entries sym inside least
    have most := Nat.le_trans short root_le
    have index := begins most codeAt
    rw [bitField_mod most, ← bitField_mod short] at index
    have found := entry short (bitField_lt x c root) all index
    exact ⟨_, means, .root found (isCode _)⟩
  · intro x c none
    obtain ⟨k, sym, there, codeAt⟩ := complete_codeAt whole x c
    exact absurd codeAt (none _ _)

end

end CheriGzip.Inflate
