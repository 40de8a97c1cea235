import CheriGzip.Libz.Symbols

/-!
# Reading codes from a stream of bits

The input of a call as a stream of bits, whatever part of it is in the bit buffer, and what a
decoding table of `inflate_table` says about the bits at a position. The states of `inflate_c` look
a code up with the bits they have, and take a byte only when these do not settle it.
-/
namespace CheriGzip.Inflate

/-! ## The input as bits -/

/-- Input in memory as bits of a number: the last `count` bytes before `stop` are the last bits
before the bit `total`. -/
structure BitStream where
  bits : Nat
  total : Nat
  stop : Ptr
  count : Nat

/-- The bytes are in memory. -/
def BitStream.In (x : BitStream) (mem : Memory) : Prop :=
  ∀ m, m < x.count → ∃ b, mem (x.stop.add (-(m + 1 : Nat))) = some b ∧
    b.toNat = bitField x.bits (x.total - 8 * (m + 1)) 8

/-- The next bit to be read is `c`: the accumulator holds the bits from there on, and the bytes
behind them are at `next`. -/
structure Input.At (i : Input) (x : BitStream) (c : Nat) : Prop where
  next : i.next = x.stop.add (-i.avail)
  avail : i.avail ≤ x.count
  hold : i.hold = bitField x.bits c i.bits
  total : c + i.bits + 8 * i.avail = x.total

section

variable {mem : Memory} {x : BitStream} {i : Input} {c n : Nat}

theorem Ptr.add_add (p : Ptr) (n m : Int) : (p.add n).add m = p.add (n + m) := by
  simp only [Ptr.add, Int.add_assoc]

theorem Ptr.add_zero (p : Ptr) : p.add 0 = p := by
  simp only [Ptr.add, Int.add_zero]

/-- A byte goes into the accumulator. -/
theorem Input.At.pull (there : x.In mem) (pos : i.At x c) (some : 0 < i.avail) :
    ∃ b, mem i.next = .some b ∧
      Input.At ⟨i.next.add 1, i.avail - 1, i.hold + b.toNat <<< i.bits, i.bits + 8⟩ x c := by
  obtain ⟨next, avail, hold, total⟩ := pos
  obtain ⟨b, read, value⟩ := there (i.avail - 1) (by omega)
  have last : (-((i.avail - 1 + 1 : Nat)) : Int) = -i.avail := by omega
  rw [last, ← next] at read
  have place : x.total - 8 * (i.avail - 1 + 1) = c + i.bits := by omega
  rw [place] at value
  have further : -(i.avail : Int) + 1 = -((i.avail - 1 : Nat) : Int) := by omega
  refine ⟨b, read, ?_, ?_, ?_, ?_⟩
  · show i.next.add 1 = x.stop.add (-((i.avail - 1 : Nat) : Int))
    rw [next, Ptr.add_add, further]
  · show i.avail - 1 ≤ x.count
    omega
  · show i.hold + b.toNat <<< i.bits = bitField x.bits c (i.bits + 8)
    rw [bitField_add, hold, value]
  · show c + (i.bits + 8) + 8 * (i.avail - 1) = x.total
    omega

theorem Input.At.drop (pos : i.At x c) (held : n ≤ i.bits) : (i.drop n).At x (c + n) := by
  obtain ⟨next, avail, hold, total⟩ := pos
  refine ⟨next, avail, ?_, ?_⟩
  · show i.hold >>> n = bitField x.bits (c + n) (i.bits - n)
    rw [hold, bitField_shift held]
  · show c + n + (i.bits - n) + 8 * i.avail = x.total
    omega

theorem Input.At.low (pos : i.At x c) (held : n ≤ i.bits) :
    lowBits i.hold n = bitField x.bits c n := by
  rw [pos.hold, lowBits_eq, bitField_mod held]

end

/-! ## Taking bytes until the bits settle it -/

/-- `e` is what `look` finds with enough of the bits from `c` on. What it finds with fewer needs
more than there are, unless it is `e`. -/
structure Settles {α : Type} (look : Nat → Option α) (need : α → Nat) (x c : Nat) (e : α) :
    Prop where
  found : ∀ b, ∃ here, look (bitField x c b) = some here
  early : ∀ {b here}, look (bitField x c b) = some here → need here ≤ b → here = e
  late : ∀ {b}, need e ≤ b → look (bitField x c b) = some e

/-- What a loop of `PULLBYTE()` comes to: `e` with the bits it needs, and no byte more than that,
or the end of the input. -/
inductive Pulls {α : Type} (x : BitStream) (c bits need : Nat) (e : α) : Pulled α → Prop where
  | got {i : Input} (pos : i.At x c) (enough : need ≤ i.bits)
      (few : i.bits = bits ∨ i.bits < need + 8) : Pulls x c bits need e (.got e i)
  | short {i : Input} (pos : i.At x c) (none : i.avail = 0) (lacks : i.bits < need) :
      Pulls x c bits need e (.short i)

section

variable {mem : Memory} {x : BitStream} {i : Input} {c n : Nat} {α : Type}

theorem pullFrom_pulls (there : x.In mem) {look : Nat → Option α} {need : α → Nat} {e : α}
    (settles : Settles look need x.bits c e) {avail : Nat} {next : Ptr} {hold bits : Nat}
    (pos : Input.At ⟨next, avail, hold, bits⟩ x c) :
    Pulls x c bits (need e) e (pullFrom mem look need avail next hold bits) := by
  induction avail generalizing next hold bits with
  -- No byte is left: the bits that are held settle the entry, or the input is at its end.
  | zero =>
    obtain ⟨here, looked⟩ := settles.found bits
    have same : hold = bitField x.bits c bits := pos.hold
    rw [pullFrom, same, looked]
    simp only
    by_cases enough : need here ≤ bits
    · rw [if_pos enough, ← same]
      have is := settles.early looked enough
      subst is
      exact .got pos enough (.inl rfl)
    · rw [if_neg enough, ← same]
      refine .short pos rfl ?_
      apply Nat.lt_of_not_le
      intro settled
      rw [settles.late settled] at looked
      cases looked
      exact enough settled
  | succ avail ih =>
    obtain ⟨here, looked⟩ := settles.found bits
    have same : hold = bitField x.bits c bits := pos.hold
    rw [pullFrom, same, looked]
    simp only
    by_cases enough : need here ≤ bits
    · rw [if_pos enough, ← same]
      have is := settles.early looked enough
      subst is
      exact .got pos enough (.inl rfl)
    · -- The bits do not settle it yet, so `e` needs one of the next eight at least.
      have lacks : bits < need e := by
        apply Nat.lt_of_not_le
        intro settled
        rw [settles.late settled] at looked
        cases looked
        exact enough settled
      obtain ⟨b, read, pos'⟩ := pos.pull there (Nat.succ_pos avail)
      rw [if_neg enough, read, ← same]
      have after := ih pos'
      revert after
      simp only
      generalize pullFrom mem look need avail (next.add 1) (hold + b.toNat <<< bits) (bits + 8) = r
      intro after
      cases after with
      | got pos enough few => exact .got pos enough (.inr (by omega))
      | short pos none lacks => exact .short pos none lacks

theorem pullUntil_pulls (there : x.In mem) {look : Nat → Option α} {need : α → Nat} {e : α}
    (settles : Settles look need x.bits c e) (pos : i.At x c) :
    Pulls x c i.bits (need e) e (pullUntil mem look need i) :=
  pullFrom_pulls there settles pos

/-- `NEEDBITS(n)` and `BITS(n)` -/
theorem needBits_pulls (there : x.In mem) (pos : i.At x c) (n : Nat) :
    Pulls x c i.bits n (bitField x.bits c n) (needBits mem n i) := by
  have settles : Settles (fun hold => some (lowBits hold n)) (fun _ => n) x.bits c
      (bitField x.bits c n) := by
    constructor
    · exact fun b => ⟨_, rfl⟩
    · intro b here looked enough
      cases looked
      rw [lowBits_eq, bitField_mod enough]
    · intro b enough
      rw [lowBits_eq, bitField_mod enough]
  exact pullUntil_pulls there settles pos

end

/-! ## Tables -/

/-- A table of `2 ^ n` entries at `base`, each at all indices that end in its code. -/
def Replicated (table : List Code) (base n : Nat) : Prop :=
  ∀ j, j < 2 ^ n → ∃ e, table[base + j]? = some e ∧ e.bits ≤ n ∧
    ∀ k, k < 2 ^ n → k % 2 ^ e.bits = j % 2 ^ e.bits → table[base + k]? = some e

/-- The kinds of entries of the tables for lengths and literals, and for distances. -/
structure CodeKind where
  link : Code → Prop
  code : Code → Prop

/-- A table that `inflate_table` makes for a valid set of code lengths: a root table, and tables
that it links to, for codes of 15 bits at most. -/
structure WellFormed (kind : CodeKind) (table : List Code) (root : Nat) : Prop where
  root_le : root ≤ 15
  root_filled : Replicated table 0 root
  entry : ∀ j, j < 2 ^ root → ∀ e, table[j]? = some e → kind.code e ∨
    kind.link e ∧ e.bits = root ∧ root + e.op ≤ 15 ∧ Replicated table e.val e.op ∧
      ∀ k, k < 2 ^ e.op → ∀ e', table[e.val + k]? = some e' → kind.code e'

/-- The entry for the bits from `c` on, and how many of them are its code. -/
inductive EntryAt (kind : CodeKind) (table : List Code) (root x c : Nat) : Code → Nat → Prop where
  | root {e : Code} (entry : table[bitField x c root]? = some e) (code : kind.code e) :
      EntryAt kind table root x c e e.bits
  | linked {last e : Code} (entry : table[bitField x c root]? = some last) (link : kind.link last)
      (entry' : table[last.val + bitField x (c + last.bits) last.op]? = some e)
      (code : kind.code e) : EntryAt kind table root x c e (last.bits + e.bits)

section

variable {kind : CodeKind} {table : List Code} {root base x c n : Nat}

/-- Looking a code up behind `skip` bits settles on the entry at its index. -/
theorem Replicated.settles (filled : Replicated table base n) {skip : Nat} {e : Code}
    (entry : table[base + bitField x (c + skip) n]? = some e) :
    Settles (fun hold => table[base + lowBits hold (skip + n) >>> skip]?)
      (fun here => skip + here.bits) x c e := by
  -- With `b` bits the index has all the bits of a code that is not longer.
  have index : ∀ b, lowBits (bitField x c b) (skip + n) >>> skip < 2 ^ n := by
    intro b
    rw [lowBits_eq, Nat.shiftRight_eq_div_pow]
    apply Nat.div_lt_of_lt_mul
    rw [← Nat.pow_add]
    exact Nat.mod_lt _ (Nat.two_pow_pos _)
  have agree : ∀ b m, skip + m ≤ b → m ≤ n →
      (lowBits (bitField x c b) (skip + n) >>> skip) % 2 ^ m =
        bitField x (c + skip) n % 2 ^ m := by
    intro b m enough within
    have both : bitField x c b % 2 ^ (skip + n) = bitField x c (min b (skip + n)) := by
      rcases Nat.le_total b (skip + n) with less | more
      · rw [Nat.min_eq_left less]
        apply Nat.mod_eq_of_lt
        exact Nat.lt_of_lt_of_le (bitField_lt x c b) (Nat.pow_le_pow_right (by decide) less)
      · rw [Nat.min_eq_right more, bitField_mod more]
    rw [lowBits_eq, both, bitField_shift (by omega), bitField_mod (by omega), bitField_mod within]
  constructor
  · intro b
    obtain ⟨e, found, -⟩ := filled _ (index b)
    exact ⟨e, found⟩
  · intro b here looked enough
    obtain ⟨here', found, short, all⟩ := filled _ (index b)
    rw [looked] at found
    cases found
    have same := all _ (bitField_lt x (c + skip) n) (agree b here.bits enough short).symm
    rw [entry] at same
    exact (Option.some.inj same).symm
  · intro b enough
    obtain ⟨e', found, short, all⟩ := filled _ (bitField_lt x (c + skip) n)
    rw [entry] at found
    cases found
    exact all _ (index b) (agree b e.bits enough short)

theorem EntryAt.isCode {e : Code} (entryAt : EntryAt kind table root x c e n) : kind.code e := by
  cases entryAt with
  | root _ code => exact code
  | linked _ _ _ code => exact code

/-- Every position has an entry. -/
theorem WellFormed.entryAt (formed : WellFormed kind table root) (x c : Nat) :
    ∃ e n, EntryAt kind table root x c e n ∧ n ≤ 15 := by
  obtain ⟨root_le, filled, entry⟩ := formed
  obtain ⟨e, found, short, -⟩ := filled _ (bitField_lt x c root)
  rw [Nat.zero_add] at found
  rcases entry _ (bitField_lt x c root) e found with code | ⟨link, bits, deep, filled', codes⟩
  · exact ⟨e, e.bits, .root found code, by omega⟩
  · obtain ⟨e', found', short', -⟩ := filled' _ (bitField_lt x (c + e.bits) e.op)
    refine ⟨e', e.bits + e'.bits, .linked found link found' ?_, by omega⟩
    exact codes _ (bitField_lt x (c + e.bits) e.op) e' found'

end

/-- A test that tells the links of a table from its codes. -/
structure CodeKind.Tests (kind : CodeKind) (isLink : Code → Bool) : Prop where
  link : ∀ {e}, kind.link e → isLink e = true
  code : ∀ {e}, kind.code e → isLink e = false

/-- What reading `need` bits comes to: `a`, and still less than a byte left over if it was so
before, or the end of the input. -/
inductive Reads {α : Type} (x : BitStream) (c bits need : Nat) (a : α) : Pulled α → Prop where
  | got {i : Input} (pos : i.At x (c + need)) (few : bits < 8 → i.bits < 8) :
      Reads x c bits need a (.got a i)
  | short {i : Input} (pos : i.At x c) (none : i.avail = 0) (lacks : i.bits < need) :
      Reads x c bits need a (.short i)

/-- Reading a code, with the bits that it takes. -/
theorem fetchCode_reads {mem : Memory} {x : BitStream} {i : Input} {c n root : Nat}
    {kind : CodeKind} {table : List Code} {link : Code → Bool} {e : Code} (there : x.In mem)
    (formed : WellFormed kind table root) (tests : kind.Tests link)
    (entryAt : EntryAt kind table root x.bits c e n) (pos : i.At x c) :
    Reads x c i.bits n (e, n) (fetchCode mem table root link i) := by
  have first : ∀ {e : Code}, table[bitField x.bits c root]? = some e →
      Pulls x c i.bits e.bits e
        (pullUntil mem (fun hold => table[lowBits hold root]?) Code.bits i) := by
    intro e entry
    have settles : Settles (fun hold => table[0 + lowBits hold (0 + root) >>> 0]?)
        (fun here => 0 + here.bits) x.bits c e :=
      formed.root_filled.settles (by rwa [Nat.zero_add, Nat.add_zero])
    simp only [Nat.zero_add] at settles
    exact pullUntil_pulls there settles pos
  unfold fetchCode
  cases entryAt with
  | root entry code =>
    have after := first entry
    generalize pullUntil mem (fun hold => table[lowBits hold root]?) Code.bits i = r at after ⊢
    cases after with
    | got pos enough few =>
      simp only [tests.code code]
      exact .got (pos.drop enough) (by simp only [Input.drop]; omega)
    | short pos none lacks => exact .short pos none lacks
  | @linked last e entry link entry' code =>
    -- The entry of the root table is a link, so the table behind it is filled.
    have second : ∀ {i' : Input}, i'.At x c → Pulls x c i'.bits (last.bits + e.bits) e
        (pullUntil mem
          (fun hold => table[last.val + lowBits hold (last.bits + last.op) >>> last.bits]?)
          (fun here => last.bits + here.bits) i') := by
      intro i' pos'
      rcases formed.entry _ (bitField_lt x.bits c root) last entry with code' | ⟨_, _, _, filled, _⟩
      · have one := tests.link link
        rw [tests.code code'] at one
        cases one
      · exact pullUntil_pulls there (filled.settles entry') pos'
    -- The second lookup drops the bits of both entries at once.
    have after := first entry
    generalize pullUntil mem (fun hold => table[lowBits hold root]?) Code.bits i = r at after ⊢
    cases after with
    | short pos none lacks => exact .short pos none (by omega)
    | @got i' pos enough few =>
      simp only [tests.link link]
      have after := second pos
      generalize pullUntil mem (fun hold =>
        table[last.val + lowBits hold (last.bits + last.op) >>> last.bits]?)
        (fun here => last.bits + here.bits) i' = r at after ⊢
      cases after with
      | got pos' enough' few' =>
        refine .got ?_ ?_
        · rw [← Nat.add_assoc]
          refine (pos'.drop (by omega)).drop ?_
          simp only [Input.drop]
          omega
        · simp only [Input.drop]
          omega
      | short pos' none lacks => exact .short pos' none lacks

end CheriGzip.Inflate
