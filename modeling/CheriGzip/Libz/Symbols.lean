import CheriGzip.Lib.BitField
import CheriGzip.Lib.Loop
import CheriGzip.Libz.Window

/-!
# The states LEN to LIT of inflate_c

One round of the `switch` of `inflate_c` at a time: the states that decode a literal, the end of a
block, or a length and a distance, and copy the match.
-/
namespace CheriGzip.Inflate

open Loop

/-! ## Memory -/

/-- A pointer: the object that its capability is for, and an address, which may lie outside. -/
structure Ptr where
  object : Nat
  addr : Int
  deriving DecidableEq, Repr

/-- `p + n` -/
def Ptr.add (p : Ptr) (n : Int) : Ptr := { p with addr := p.addr + n }

/-- `p - q` -/
def Ptr.sub (p q : Ptr) : Int := p.addr - q.addr

/-- What can be read through a pointer. -/
abbrev Memory := Ptr → Option UInt8

/-- Where a match is copied from: a place in the window, or in the output of this call. -/
inductive Origin where
  | window (index : Int)
  | output (index : Int)
  deriving DecidableEq, Repr

/-- `*from` -/
def Origin.load (w : Window) (out : Bytes) : Origin → Option UInt8
  | .window index => if index < 0 then none else w.window.bind fun bytes => bytes[index.toNat]?
  | .output index => if index < 0 then none else out[index.toNat]?

/-- `from++` -/
def Origin.next : Origin → Origin
  | .window index => .window (index + 1)
  | .output index => .output (index + 1)

/-- `*put++ = b`, with room for `limit` bytes since the start of the call. -/
def put (limit : Nat) (out : Bytes) (b : UInt8) : Option Bytes :=
  if out.length < limit then some (out ++ [b]) else none

/-- `*put++ = *from++`, `n` times. -/
def copyBytes (w : Window) (limit : Nat) : Nat → Origin → Bytes → Option (Origin × Bytes)
  | 0, src, out => some (src, out)
  | n + 1, src, out => do
    let b ← src.load w out
    let out ← put limit out b
    copyBytes w limit n src.next out

/-! ## Input bits -/

/-- The variables `next`, `have`, `hold` and `bits`. -/
structure Input where
  next : Ptr
  avail : Nat
  hold : Nat
  bits : Nat
  deriving DecidableEq, Repr

/-- `DROPBITS(n)` -/
def Input.drop (i : Input) (n : Nat) : Input :=
  { i with hold := i.hold >>> n, bits := i.bits - n }

/-- How a loop of `PULLBYTE()` ends: with what it looked for, or at the end of the input, which is
`goto inf_leave`, or with a read outside of the input. -/
inductive Pulled (α : Type) where
  | got (a : α) (i : Input)
  | short (i : Input)
  | fault
  deriving DecidableEq, Repr

variable {α : Type}

/-- `for (;;) { here = look(hold); if (need(here) <= bits) break; PULLBYTE(); }` -/
def pullFrom (mem : Memory) (look : Nat → Option α) (need : α → Nat) :
    (avail : Nat) → (next : Ptr) → (hold bits : Nat) → Pulled α
  | avail, next, hold, bits =>
    match look hold with
    | none => .fault
    | some here =>
      if need here ≤ bits then .got here ⟨next, avail, hold, bits⟩
      else
        match avail with
        | 0 => .short ⟨next, 0, hold, bits⟩
        | avail + 1 =>
          match mem next with
          | none => .fault
          | some b =>
            pullFrom mem look need avail (next.add 1) (hold + b.toNat <<< bits) (bits + 8)

def pullUntil (mem : Memory) (look : Nat → Option α) (need : α → Nat) (i : Input) : Pulled α :=
  pullFrom mem look need i.avail i.next i.hold i.bits

/-- `NEEDBITS(n)` and `BITS(n)` -/
def needBits (mem : Memory) (n : Nat) (i : Input) : Pulled Nat :=
  pullUntil mem (fun hold => some (lowBits hold n)) (fun _ => n) i

/-! ## Decoding tables -/

/-- An entry of a decoding table. -/
structure Code where
  op : Nat
  bits : Nat
  val : Nat
  deriving DecidableEq, Repr

/-- The next code, by a root table with `root` index bits and the tables that it links to, and how
many bits it has. -/
def fetchCode (mem : Memory) (table : List Code) (root : Nat) (link : Code → Bool) (i : Input) :
    Pulled (Code × Nat) :=
  match pullUntil mem (fun hold => table[lowBits hold root]?) Code.bits i with
  | .fault => .fault
  | .short i => .short i
  | .got here i =>
    if link here then
      let last := here
      match pullUntil mem
          (fun hold => table[last.val + lowBits hold (last.bits + last.op) >>> last.bits]?)
          (fun here => last.bits + here.bits) i with
      | .fault => .fault
      | .short i => .short i
      | .got here i => .got (here, last.bits + here.bits) ((i.drop last.bits).drop here.bits)
    else .got (here, here.bits) (i.drop here.bits)

/-! ## The states -/

/-- The modes of `inflate_mode` that belong to symbols, and where symbols end. -/
inductive Mode where
  | type
  | len
  | lenext
  | dist
  | distext
  | matching
  | lit
  | bad
  deriving DecidableEq, Repr

/-- The fields of `z_stream` and `struct inflate_state` that the states use. The output is what
this call has put so far. -/
structure State where
  mode : Mode
  input : Input
  out : Bytes
  left : Nat
  msg : Option String
  window : Window
  lencode : List Code
  lenbits : Nat
  distcode : List Code
  distbits : Nat
  length : Nat
  offset : Nat
  extra : Nat
  sane : Bool
  back : Int
  was : Nat
  deriving DecidableEq, Repr

abbrev SRound := Turn State (Option State)

/-- `strm->msg = message; state->mode = BAD;` -/
def State.bad (s : State) (message : String) : State := { s with msg := some message, mode := .bad }

/-- `case LEN`, after the test for `inflate_fast` -/
def lenState (mem : Memory) (s : State) : SRound :=
  let s := { s with back := 0 }
  match fetchCode mem s.lencode s.lenbits (fun here => here.op ≠ 0 ∧ here.op &&& 0xf0 = 0)
    s.input with
  | .fault => .leave none
  | .short i => .leave (some { s with input := i })
  | .got (here, bits) i =>
    let s := { s with input := i, back := s.back + bits, length := here.val }
    if here.op = 0 then .again { s with mode := .lit }
    else if here.op &&& 32 ≠ 0 then .again { s with back := -1, mode := .type }
    else if here.op &&& 64 ≠ 0 then .again (s.bad "invalid literal/length code")
    else .again { s with extra := here.op &&& 15, mode := .lenext }

/-- `case LENEXT` -/
def lenextState (mem : Memory) (s : State) : SRound :=
  if s.extra ≠ 0 then
    match needBits mem s.extra s.input with
    | .fault => .leave none
    | .short i => .leave (some { s with input := i })
    | .got more i =>
      .again { s with
        input := i.drop s.extra
        length := s.length + more
        back := s.back + s.extra
        was := s.length + more
        mode := .dist }
  else .again { s with was := s.length, mode := .dist }

/-- `case DIST` -/
def distState (mem : Memory) (s : State) : SRound :=
  match fetchCode mem s.distcode s.distbits (fun here => here.op &&& 0xf0 = 0) s.input with
  | .fault => .leave none
  | .short i => .leave (some { s with input := i })
  | .got (here, bits) i =>
    let s := { s with input := i, back := s.back + bits }
    if here.op &&& 64 ≠ 0 then .again (s.bad "invalid distance code")
    else .again { s with offset := here.val, extra := here.op &&& 15, mode := .distext }

/-- `case DISTEXT` -/
def distextState (mem : Memory) (s : State) : SRound :=
  if s.extra ≠ 0 then
    match needBits mem s.extra s.input with
    | .fault => .leave none
    | .short i => .leave (some { s with input := i })
    | .got more i =>
      .again { s with
        input := i.drop s.extra
        offset := s.offset + more
        back := s.back + s.extra
        mode := .matching }
  else .again { s with mode := .matching }

/-- The end of `case MATCH`: as much of the match as there is room for. -/
def matchCopy (s : State) (src : Origin) (copy : Nat) : SRound :=
  let copy := min copy s.left
  match copyBytes s.window (s.out.length + s.left) copy src s.out with
  | none => .leave none
  | some (_, out) =>
    .again { s with
      out := out
      left := s.left - copy
      length := s.length - copy
      mode := if s.length - copy = 0 then .len else s.mode }

/-- `case MATCH` -/
def matchState (s : State) : SRound :=
  if s.left = 0 then .leave (some s)
  else
    let w := s.window
    -- `out - left`
    let copy := s.out.length
    if s.offset > copy then
      let copy := s.offset - copy
      if copy > w.whave ∧ s.sane then .again (s.bad "invalid distance too far back")
      else if copy > w.wnext then
        let copy := copy - w.wnext
        matchCopy s (.window ((w.wsize : Int) - copy)) (min copy s.length)
      else matchCopy s (.window ((w.wnext : Int) - copy)) (min copy s.length)
    else matchCopy s (.output ((s.out.length : Int) - s.offset)) s.length

/-- `case LIT` -/
def litState (s : State) : SRound :=
  if s.left = 0 then .leave (some s)
  else
    match put (s.out.length + s.left) s.out (UInt8.ofNat s.length) with
    | none => .leave none
    | some out => .again { s with out := out, left := s.left - 1, mode := .len }

/-- The states `LEN` to `LIT`. -/
def symbolStep (mem : Memory) (s : State) : SRound :=
  match s.mode with
  | .len => lenState mem s
  | .lenext => lenextState mem s
  | .dist => distState mem s
  | .distext => distextState mem s
  | .matching => matchState s
  | .lit => litState s
  | .type | .bad => .leave (some s)

/-- Whether no symbol is under way. -/
def Mode.Between (mode : Mode) : Prop := mode = .len ∨ mode = .type ∨ mode = .bad

instance (mode : Mode) : Decidable mode.Between := by
  unfold Mode.Between
  infer_instance

/-- A round on the way through one symbol. -/
def symbolRound (mem : Memory) (s : State) : Turn State (Option State) :=
  match symbolStep mem s with
  | .again s' => if s'.mode.Between then .leave (some s') else .again s'
  | .leave _ => .leave none

/-- The states decode `n` symbols. -/
inductive Symbols (mem : Memory) : Nat → State → State → Prop where
  | none (s : State) : Symbols mem 0 s s
  | next {n : Nat} {s mid s' : State} (start : s.mode = .len)
      (one : Leaves (symbolRound mem) s (some mid)) (others : Symbols mem n mid s') :
      Symbols mem (n + 1) s s'

end CheriGzip.Inflate
