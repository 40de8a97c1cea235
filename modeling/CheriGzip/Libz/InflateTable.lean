import CheriGzip.Lib.Canonical
import CheriGzip.Libz.Symbols

/-!
# Building decoding tables

`inflate_table`: from the lengths of the codewords of a canonical code to the tables that
`inflate_c` and `inflate_fast` look codes up in.
-/
namespace CheriGzip.Inflate

open Loop

/-- `codetype` -/
inductive CodeType where
  | codes
  | lens
  | dists
  deriving DecidableEq, Repr

/-- `MAXBITS` -/
def maxbits : Nat := 15

/-- `ENOUGH_LENS` -/
def enoughLens : Nat := 852

/-- `ENOUGH_DISTS` -/
def enoughDists : Nat := 592

/-- Length codes 257..285 base -/
def lbase : List Nat :=
  [3, 4, 5, 6, 7, 8, 9, 10, 11, 13, 15, 17, 19, 23, 27, 31,
   35, 43, 51, 59, 67, 83, 99, 115, 131, 163, 195, 227, 258, 0, 0]

/-- Length codes 257..285 extra -/
def lext : List Nat :=
  [16, 16, 16, 16, 16, 16, 16, 16, 17, 17, 17, 17, 18, 18, 18, 18,
   19, 19, 19, 19, 20, 20, 20, 20, 21, 21, 21, 21, 16, 72, 78]

/-- Distance codes 0..29 base -/
def dbase : List Nat :=
  [1, 2, 3, 4, 5, 7, 9, 13, 17, 25, 33, 49, 65, 97, 129, 193,
   257, 385, 513, 769, 1025, 1537, 2049, 3073, 4097, 6145,
   8193, 12289, 16385, 24577, 0, 0]

/-- Distance codes 0..29 extra -/
def dext : List Nat :=
  [16, 16, 16, 16, 17, 17, 18, 18, 19, 19, 20, 20, 21, 21, 22, 22,
   23, 23, 24, 24, 25, 25, 26, 26, 27, 27,
   28, 28, 29, 29, 64, 64]

/-- `base[sym]`; `none` outside of the array. -/
def CodeType.base (type : CodeType) (work : List Nat) (sym : Nat) : Option Nat :=
  match type with
  | .codes => work[sym]?
  | .lens => if sym < 257 then none else lbase[sym - 257]?
  | .dists => dbase[sym]?

/-- `extra[sym]` -/
def CodeType.extra (type : CodeType) (work : List Nat) (sym : Nat) : Option Nat :=
  match type with
  | .codes => work[sym]?
  | .lens => if sym < 257 then none else lext[sym - 257]?
  | .dists => dext[sym]?

/-- `end`: use base and extra for symbol > end -/
def CodeType.last : CodeType → Int
  | .codes => 19
  | .lens => 256
  | .dists => -1

/-- The check of the available table space. -/
def CodeType.Exceeded (type : CodeType) (used : Nat) : Prop :=
  type = .lens ∧ used > enoughLens ∨ type = .dists ∧ used > enoughDists

instance (type : CodeType) (used : Nat) : Decidable (type.Exceeded used) := by
  unfold CodeType.Exceeded
  infer_instance

/-! ## Lengths -/

/-- `count[lens[sym]]++` for every symbol -/
def countLengths (lens : List Nat) : Nat → Nat :=
  lens.foldl (fun count len => fun l => if l = len then count l + 1 else count l) fun _ => 0

/-- `for (max = MAXBITS; max >= 1; max--) if (count[max] != 0) break;` -/
def findMax (count : Nat → Nat) : (max : Nat) → Nat
  | 0 => 0
  | max + 1 => if count (max + 1) ≠ 0 then max + 1 else findMax count max

/-- `for (; min < max; min++) if (count[min] != 0) break;`, with `rounds` from `min` to `max` -/
def findMin (count : Nat → Nat) : (rounds min : Nat) → Nat
  | 0, min => min
  | rounds + 1, min => if count min ≠ 0 then min else findMin count rounds (min + 1)

/-- `left <<= 1; left -= count[len]; if (left < 0) return -1;`, for `rounds` lengths from `len` -/
def checkLeft (count : Nat → Nat) : (rounds len : Nat) → (left : Int) → Option Int
  | 0, _, left => some left
  | rounds + 1, len, left =>
    let left := 2 * left - count len
    if left < 0 then none else checkLeft count rounds (len + 1) left

/-- `offs[len]` -/
def offsets (count : Nat → Nat) : (len : Nat) → Nat
  | 0 => 0
  | 1 => 0
  | len + 2 => offsets count (len + 1) + count (len + 1)

/-- `array[i] = a`; `none` outside of the array. -/
def store {α : Type} (array : List α) (i : Nat) (a : α) : Option (List α) :=
  if i < array.length then some (array.set i a) else none

/-- `if (lens[sym] != 0) work[offs[lens[sym]]++] = sym;`, for the symbols from `sym` on -/
def sortSymbols : (lens : List Nat) → (sym : Nat) → (offs : Nat → Nat) → (work : List Nat) →
    Option (List Nat)
  | [], _, _, work => some work
  | len :: lens, sym, offs, work =>
    if len ≠ 0 then do
      let work ← store work (offs len) sym
      sortSymbols lens (sym + 1) (fun l => if l = len then offs l + 1 else offs l) work
    else sortSymbols lens (sym + 1) offs work

/-! ## The loop -/

/-- The variables of the loop, and the array that `*table` points into. -/
structure Builder where
  huff : Nat
  sym : Nat
  len : Nat
  next : Nat
  curr : Nat
  drop : Nat
  low : Nat
  used : Nat
  count : Nat → Nat
  table : List Code

/-- What the loop is given. -/
structure Request where
  type : CodeType
  lens : List Nat
  work : List Nat
  max : Nat
  root : Nat
  /-- Where `*table` points to. -/
  first : Nat

/-- The table entry for a symbol. -/
def Request.here (r : Request) (sym bits : Nat) : Option Code :=
  if (sym : Int) < r.type.last then some ⟨0, bits, sym⟩
  else if (sym : Int) > r.type.last then do
    let op ← r.type.extra r.work sym
    let val ← r.type.base r.work sym
    some ⟨op, bits, val⟩
  else some ⟨32 + 64, bits, 0⟩

/-- `do { fill -= incr; next[offset + fill] = here; } while (fill != 0);`, with `rounds` rounds -/
def fillEntries (offset incr : Nat) (here : Code) : (rounds : Nat) → List Code → Option (List Code)
  | 0, table => some table
  | rounds + 1, table => do
    let table ← store table (offset + rounds * incr) here
    fillEntries offset incr here rounds table

/-- backwards increment the code huff of `len` bits -/
def backIncrement (huff : Nat) : (len : Nat) → Nat
  | 0 => 0
  | len + 1 =>
    let incr := 1 <<< len
    if huff &&& incr ≠ 0 then backIncrement huff len else (huff &&& (incr - 1)) + incr

/-- determine length of next table: at most `rounds` lengths are looked at -/
def subBits (count : Nat → Nat) (drop : Nat) : (rounds curr : Nat) → (left : Int) → Nat
  | 0, curr, _ => curr
  | rounds + 1, curr, left =>
    let left := left - count (curr + drop)
    if left ≤ 0 then curr else subBits count drop rounds (curr + 1) (2 * left)

/-- create table entry, and replicate it for those indices with low len bits equal to huff -/
def enter (r : Request) (b : Builder) : Option (List Code) := do
  let here ← r.here (← r.work[b.sym]?) (b.len - b.drop)
  let incr := 1 <<< (b.len - b.drop)
  let fill := 1 <<< b.curr
  if fill < incr then none
  else fillEntries (b.next + b.huff >>> b.drop) incr here (fill / incr) b.table

/-- create new sub-table if needed -/
def newTable (r : Request) (b : Builder) : Turn Builder (Option (Int × Builder)) :=
  let mask := 1 <<< r.root - 1
  if b.len > r.root ∧ b.huff &&& mask ≠ b.low then
    let drop := if b.drop = 0 then r.root else b.drop
    let next := b.next + 1 <<< b.curr
    let curr := subBits b.count drop (r.max - b.len) (b.len - drop) (1 <<< (b.len - drop) : Nat)
    let used := b.used + 1 <<< curr
    let b := { b with drop := drop, next := next, curr := curr, used := used }
    if r.type.Exceeded used then .leave (some (1, b))
    else
      let low := b.huff &&& mask
      match store b.table (r.first + low) ⟨curr, r.root, next - r.first⟩ with
      | none => .leave none
      | some table => .again { b with low := low, table := table }
  else .again b

/-- One round of the loop: the entry for a code, and what comes next. -/
def buildRound (r : Request) (b : Builder) : Turn Builder (Option (Int × Builder)) :=
  match enter r b with
  | none => .leave none
  | some table =>
    let b := { b with
      table := table
      huff := backIncrement b.huff b.len
      sym := b.sym + 1
      count := fun l => if l = b.len then b.count l - 1 else b.count l }
    if b.count b.len = 0 then
      if b.len = r.max then .leave (some (0, b))
      else
        match (r.work[b.sym]?).bind fun sym => r.lens[sym]? with
        | none => .leave none
        | some len => newTable r { b with len := len }
    else newTable r b

/-! ## The function -/

/-- What `inflate_table` leaves: the return value, the array, and where `*table` and `*bits` are. -/
structure Built where
  ret : Int
  table : List Code
  next : Nat
  bits : Nat
  deriving DecidableEq, Repr

/-- fill in remaining table entry if code is incomplete -/
def lastEntry (b : Builder) : Option (List Code) :=
  if b.huff ≠ 0 then store b.table (b.next + b.huff) ⟨64, b.len - b.drop, 0⟩ else some b.table

/-- The loop, from its first code on. -/
def buildTables (r : Request) (bits min : Nat) (count : Nat → Nat) (table : List Code) :
    Option Built := do
  let used := 1 <<< r.root
  if r.type.Exceeded used then some ⟨1, table, r.first, bits⟩
  else
    let start : Builder :=
      { huff := 0, sym := 0, len := min, next := r.first, curr := r.root, drop := 0,
        low := 2 ^ 32 - 1, used := used, count := count, table := table }
    let (ret, b) ← (← run (buildRound r) (r.lens.length + 1) start)
    if ret ≠ 0 then some ⟨ret, b.table, r.first, bits⟩
    else do
      let table ← lastEntry b
      some ⟨0, table, r.first + b.used, r.root⟩

/-- `inflate_table(type, lens, codes, &table, &bits, work)`: the entries from `first` on in an array
are free. `none` where something outside of an array is read or written. -/
def inflateTable (type : CodeType) (lens : List Nat) (table : List Code) (first bits : Nat)
    (work : List Nat) : Option Built := do
  let count := countLengths lens
  let max := findMax count maxbits
  if max = 0 then
    let here : Code := ⟨64, 1, 0⟩
    let table ← store table first here
    let table ← store table (first + 1) here
    some ⟨0, table, first + 2, 1⟩
  else
    let root := if bits > max then max else bits
    let min := findMin count (max - 1) 1
    let root := if root < min then min else root
    match checkLeft count maxbits 1 1 with
    | none => some ⟨-1, table, first, bits⟩
    | some left =>
      if left > 0 ∧ (type = .codes ∨ max ≠ 1) then some ⟨-1, table, first, bits⟩
      else do
        let work ← sortSymbols lens 0 (offsets count) work
        buildTables ⟨type, lens, work, max, root, first⟩ bits min count table

end CheriGzip.Inflate
