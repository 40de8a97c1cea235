import CheriGzip.Libz.FixedTables
import CheriGzip.Libz.InflateFast

/-!
# inflate

The state machine of `inflate.c` for raw data (`windowBits` below 0): blocks, the tables for their
codes, stored bytes, and what is done on the way out of a call. The states `LEN` to `LIT` are those
of the other modules.
-/
namespace CheriGzip.Inflate

open Loop

/-! ## Constants -/

def zOk : Int := 0
def zStreamEnd : Int := 1
def zDataError : Int := -3
def zMemError : Int := -4
def zBufError : Int := -5

def zFinish : Nat := 4
def zBlock : Nat := 5
def zTrees : Nat := 6

/-- permutation of code lengths -/
def order : List Nat := [16, 17, 18, 0, 8, 7, 9, 6, 10, 5, 11, 4, 12, 3, 13, 2, 14, 1, 15]

/-! ## The state -/

/-- The modes of `inflate_mode` for raw data that do not belong to symbols. -/
inductive Block where
  | head
  | typedo
  | stored
  | copy_
  | copy
  | table
  | lenlens
  | codelens
  | len_
  | check
  | length
  | done
  | mem
  deriving DecidableEq, Repr

/-- The fields of `struct inflate_state` that the input is decoded into. The mode is `block`, or
`mode` where that is none. `got` is `have`, and `next` an index into `codes`. -/
structure Registers where
  block : Option Block
  mode : Mode
  msg : Option String
  last : Bool
  ncode : Nat
  nlen : Nat
  ndist : Nat
  got : Nat
  lens : List Nat
  codes : List Code
  next : Nat
  lencode : List Code
  lenbits : Nat
  distcode : List Code
  distbits : Nat
  deriving DecidableEq, Repr

/-- The fields for the symbol or the stored bytes that are under way. -/
structure Pending where
  length : Nat
  offset : Nat
  extra : Nat
  deriving DecidableEq, Repr

/-- `struct inflate_state` and the fields of `z_stream`. -/
structure Inflater where
  regs : Registers
  pending : Pending
  input : Input
  out : Bytes
  left : Nat
  window : Window
  sane : Bool
  back : Int
  was : Nat
  totalIn : Nat
  totalOut : Nat
  dataType : Nat
  deriving DecidableEq, Repr

/-- What the states of symbols see. -/
def Inflater.state (s : Inflater) : State where
  mode := s.regs.mode
  input := s.input
  out := s.out
  left := s.left
  msg := s.regs.msg
  window := s.window
  lencode := s.regs.lencode
  lenbits := s.regs.lenbits
  distcode := s.regs.distcode
  distbits := s.regs.distbits
  length := s.pending.length
  offset := s.pending.offset
  extra := s.pending.extra
  sane := s.sane
  back := s.back
  was := s.was

/-- What the states of symbols change. -/
def Inflater.after (s : Inflater) (t : State) : Inflater :=
  { s with
    regs := { s.regs with mode := t.mode, msg := t.msg }
    pending := ⟨t.length, t.offset, t.extra⟩
    input := t.input
    out := t.out
    left := t.left
    back := t.back
    was := t.was }

/-- `state->mode = block` -/
def Registers.enter (r : Registers) (block : Block) : Registers := { r with block := some block }

/-- The same for a mode that belongs to symbols. -/
def Registers.symbol (r : Registers) (mode : Mode) : Registers :=
  { r with block := none, mode := mode }

/-- `strm->msg = message; state->mode = BAD;` -/
def Registers.bad (r : Registers) (message : String) : Registers :=
  { r with block := none, mode := .bad, msg := some message }

/-- `inflateReset` and `inflateInit2` for raw data, with what the arrays in the allocated state
hold. -/
def Inflater.start (wbits : Nat) (lens : List Nat) (codes : List Code) : Inflater where
  regs :=
    { block := some .head
      mode := .type
      msg := none
      last := false
      ncode := 0
      nlen := 0
      ndist := 0
      got := 0
      lens := lens
      codes := codes
      next := 0
      lencode := codes
      lenbits := 0
      distcode := codes
      distbits := 0 }
  pending := ⟨0, 0, 0⟩
  input := ⟨⟨0, 0⟩, 0, 0, 0⟩
  out := []
  left := 0
  window := .start wbits
  sane := true
  back := -1
  was := 0
  totalIn := 0
  totalOut := 0
  dataType := 0

/-! ## What the states make of their bits -/

/-- `case TYPEDO` with the three bits of a block's header -/
def Registers.blockType (r : Registers) (bits : Nat) : Registers :=
  let r := { r with last := bits % 2 = 1 }
  if bits / 2 = 0 then r.enter .stored
  else if bits / 2 = 1 then
    Registers.enter
      { r with lencode := lenfix, lenbits := 9, distcode := distfix, distbits := 5 } .len_
  else if bits / 2 = 2 then r.enter .table
  else r.bad "invalid block type"

/-- `case STORED` with 32 bits -/
def Registers.storedLength (r : Registers) (hold : Nat) : Registers :=
  if hold &&& 0xffff ≠ (hold >>> 16) ^^^ 0xffff then r.bad "invalid stored block lengths"
  else r.enter .copy_

/-- `case TABLE` with 14 bits -/
def Registers.tableSizes (r : Registers) (bits : Nat) : Registers :=
  let r := { r with
    nlen := bits % 32 + 257
    ndist := bits / 32 % 32 + 1
    ncode := bits / 1024 % 16 + 4 }
  if r.nlen > 286 ∨ r.ndist > 30 then r.bad "too many length or distance symbols"
  else Registers.enter { r with got := 0 } .lenlens

/-- `state->lens[order[state->have++]] = len` -/
def Registers.putOrder (r : Registers) (len : Nat) : Option Registers := do
  let place ← order[r.got]?
  let lens ← store r.lens place len
  some { r with lens := lens, got := r.got + 1 }

/-- `state->lens[state->have++] = len`, `n` times -/
def Registers.putLens (r : Registers) (len : Nat) : Nat → Option Registers
  | 0 => some r
  | n + 1 => do
    let lens ← store r.lens r.got len
    Registers.putLens { r with lens := lens, got := r.got + 1 } len n

/-- `while (state->have < 19)`, with so many rounds left -/
def Registers.fillOrder (r : Registers) : Nat → Option Registers
  | 0 => some r
  | n + 1 => do Registers.fillOrder (← r.putOrder 0) n

/-- `unsigned short work[288]`, which `inflate_table` writes to before it reads from it -/
def work : List Nat := List.replicate 288 0

/-- The table for the lengths of codes, at the end of `case LENLENS` -/
def Registers.buildCodes (r : Registers) : Option Registers := do
  let r ← r.fillOrder (19 - r.got)
  let built ← inflateTable .codes (r.lens.take 19) r.codes 0 7 work
  let r := { r with
    codes := built.table
    next := built.next
    lencode := built.table
    lenbits := built.bits }
  if built.ret ≠ 0 then some (r.bad "invalid code lengths set")
  else some (Registers.enter { r with got := 0 } .codelens)

/-- How many bits stand behind the code of a repetition. -/
def repeatBits (val : Nat) : Nat :=
  if val < 16 then 0 else if val = 16 then 2 else if val = 17 then 3 else 7

/-- One round of `case CODELENS` for the value of a code and the bits behind it -/
def Registers.putLength (r : Registers) (val bits : Nat) : Option Registers :=
  if val < 16 then r.putLens val 1
  else if val = 16 ∧ r.got = 0 then some (r.bad "invalid bit length repeat")
  else do
    let len ← if val = 16 then r.lens[r.got - 1]? else some 0
    let copy := if val = 16 ∨ val = 17 then 3 + bits else 11 + bits
    if r.got + copy > r.nlen + r.ndist then some (r.bad "invalid bit length repeat")
    else r.putLens len copy

/-- The tables for literals, lengths and distances, at the end of `case CODELENS` -/
def Registers.buildTables (r : Registers) : Option Registers := do
  if (← r.lens[256]?) = 0 then some (r.bad "invalid code -- missing end-of-block")
  else
    let built ← inflateTable .lens (r.lens.take r.nlen) r.codes 0 9 work
    let r := { r with
      codes := built.table
      next := built.next
      lencode := built.table
      lenbits := built.bits }
    if built.ret ≠ 0 then some (r.bad "invalid literal/lengths set")
    else
      let first := r.next
      let built ← inflateTable .dists ((r.lens.drop r.nlen).take r.ndist) r.codes first 6 work
      let r := { r with
        codes := built.table
        next := built.next
        lencode := built.table
        distcode := built.table.drop first
        distbits := built.bits }
      if built.ret ≠ 0 then some (r.bad "invalid distances set") else some (r.enter .len_)

/-! ## The states -/

/-- How a round leaves the loop: with `ret` at `inf_leave`, or at an access outside of memory. -/
abbrev IRound := Turn Inflater (Option (Int × Inflater))

/-- `NEEDBITS(n)`, and `DROPBITS(n)` when something was made of the bits -/
def Inflater.read (mem : Memory) (n : Nat) (make : Nat → Option Registers) (s : Inflater) :
    IRound :=
  match needBits mem n s.input with
  | .fault => .leave none
  | .short i => .leave (some (zOk, { s with input := i }))
  | .got bits i =>
    match make bits with
    | none => .leave none
    | some regs => .again { s with regs := regs, input := i.drop n }

/-- The next mode without any bits -/
def Inflater.goes (s : Inflater) (make : Option Registers) : IRound :=
  match make with
  | none => .leave none
  | some regs => .again { s with regs := regs }

/-- `BYTEBITS()` -/
def Input.byteBits (i : Input) : Input := i.drop (i.bits &&& 7)

/-- `case TYPEDO`, also below `case TYPE` -/
def Inflater.typedo (flush : Nat) (mem : Memory) (s : Inflater) : IRound :=
  if s.regs.last then
    .again { s with regs := s.regs.enter .check, input := s.input.byteBits }
  else
    match s.read mem 3 fun bits => some (s.regs.blockType bits) with
    | .again s' => if s'.regs.block = some .len_ ∧ flush = zTrees then .leave (some (zOk, s'))
        else .again s'
    | .leave r => .leave r

/-- `case STORED` -/
def Inflater.stored (flush : Nat) (mem : Memory) (s : Inflater) : IRound :=
  match needBits mem 32 s.input.byteBits with
  | .fault => .leave none
  | .short i => .leave (some (zOk, { s with input := i }))
  | .got _ i =>
    let regs := s.regs.storedLength i.hold
    if regs.block = some .copy_ then
      -- `INITBITS()`
      let s := { s with
        regs := regs
        pending := { s.pending with length := i.hold &&& 0xffff }
        input := { i with hold := 0, bits := 0 } }
      if flush = zTrees then .leave (some (zOk, s)) else .again s
    else .again { s with regs := regs, input := i }

/-- `n` bytes from a pointer on -/
def loadBytes (mem : Memory) : (n : Nat) → Ptr → Option Bytes
  | 0, _ => some []
  | n + 1, p => do
    let b ← mem p
    let bs ← loadBytes mem n (p.add 1)
    some (b :: bs)

/-- `case COPY` -/
def Inflater.copy (mem : Memory) (s : Inflater) : IRound :=
  if s.pending.length ≠ 0 then
    let copy := min (min s.pending.length s.input.avail) s.left
    if copy = 0 then .leave (some (zOk, s))
    else
      match loadBytes mem copy s.input.next with
      | none => .leave none
      | some bytes =>
        .again { s with
          pending := { s.pending with length := s.pending.length - copy }
          input := { s.input with next := s.input.next.add copy, avail := s.input.avail - copy }
          out := s.out ++ bytes
          left := s.left - copy }
  else .again { s with regs := s.regs.symbol .type }

/-- `case CODELENS` -/
def Inflater.codelens (flush : Nat) (mem : Memory) (s : Inflater) : IRound :=
  let r := s.regs
  if r.got < r.nlen + r.ndist then
    match pullUntil mem (fun hold => r.lencode[lowBits hold r.lenbits]?) Code.bits s.input with
    | .fault => .leave none
    | .short i => .leave (some (zOk, { s with input := i }))
    | .got here i =>
      match needBits mem (here.bits + repeatBits here.val) i with
      | .fault => .leave none
      | .short i => .leave (some (zOk, { s with input := i }))
      | .got _ i =>
        let i := i.drop here.bits
        match r.putLength here.val (lowBits i.hold (repeatBits here.val)) with
        | none => .leave none
        | some regs =>
          -- A repetition of nothing leaves its two bits where they are.
          if here.val = 16 ∧ r.got = 0 then .again { s with regs := regs, input := i }
          else .again { s with regs := regs, input := i.drop (repeatBits here.val) }
  else
    match s.goes r.buildTables with
    | .again s' => if s'.regs.block = some .len_ ∧ flush = zTrees then .leave (some (zOk, s'))
        else .again s'
    | .leave r => .leave r

/-- What the copies of inflate differ in: where `updatewindow` reads, and what `sin` is in
`inflate_fast`, which has `next_in`. -/
structure Variant where
  sources : Sources
  sin : Ptr → Ptr

/-- The one of libz_u, where `inflate_fast` has no `sin`. -/
def libzU : Variant := ⟨fromEnd, id⟩

/-- The states `LEN` to `LIT` -/
def Inflater.slow (mem : Memory) (s : Inflater) : IRound :=
  match symbolStep mem s.state with
  | .again t => .again (s.after t)
  | .leave none => .leave none
  | .leave (some t) => .leave (some (zOk, s.after t))

/-- `inflate_fast`, from `case LEN` -/
def Inflater.fast (v : Variant) (fuel : Nat) (mem : Memory) (s : Inflater) : IRound :=
  match inflateFast mem (v.sin s.input.next) fuel s.state with
  | none => .leave none
  | some t =>
    let s := s.after t
    .again (if t.mode = .type then { s with back := -1 } else s)

/-- One round of `for (;;) switch (state->mode)` -/
def inflateRound (v : Variant) (flush fuel : Nat) (mem : Memory) (s : Inflater) : IRound :=
  match s.regs.block with
  | some .head => .again { s with regs := s.regs.enter .typedo }
  | some .typedo => s.typedo flush mem
  | some .stored => s.stored flush mem
  | some .copy_ => .again { s with regs := s.regs.enter .copy }
  | some .copy => s.copy mem
  | some .table => s.read mem 14 fun bits => some (s.regs.tableSizes bits)
  | some .lenlens =>
    if s.regs.got < s.regs.ncode then s.read mem 3 s.regs.putOrder else s.goes s.regs.buildCodes
  | some .codelens => s.codelens flush mem
  | some .len_ => .again { s with regs := s.regs.symbol .len }
  | some .check => .again { s with regs := s.regs.enter .length }
  | some .length => .again { s with regs := s.regs.enter .done }
  | some .done => .leave (some (zStreamEnd, s))
  | some .mem => .leave (some (zMemError, s))
  | none =>
    match s.regs.mode with
    | .type =>
      if flush = zBlock ∨ flush = zTrees then .leave (some (zOk, s)) else s.typedo flush mem
    | .bad => .leave (some (zDataError, s))
    | .len => if 6 ≤ s.input.avail ∧ 258 ≤ s.left then s.fast v fuel mem else s.slow mem
    | _ => s.slow mem

/-! ## A call -/

/-- `state->mode < CHECK`, and `state->mode < BAD` -/
def Registers.beforeCheck (r : Registers) : Bool :=
  match r.block with
  | some .check | some .length | some .done | some .mem => false
  | none => r.mode ≠ .bad
  | _ => true

def Registers.beforeBad (r : Registers) : Bool :=
  match r.block with
  | some .mem => false
  | none => r.mode ≠ .bad
  | _ => true

/-- What a call is given: the input in memory, and the room for the output between what is before
and behind it. `alloc` is what `ZALLOC` gives. -/
structure Slice where
  mem : Memory
  next : Ptr
  avail : Nat
  base : Int
  before : Bytes
  room : Bytes
  alloc : Option (Nat → UInt8)

/-- The output in its memory, when the call has put it. -/
def Slice.piece (io : Slice) (out : Bytes) : Piece :=
  ⟨io.base, io.before, out, io.room.drop out.length⟩

/-- The start of a call: `LOAD()`, and `TYPE` becomes `TYPEDO`. -/
def Inflater.load (io : Slice) (s : Inflater) : Inflater :=
  { s with
    regs := if s.regs.block = none ∧ s.regs.mode = .type then s.regs.enter .typedo else s.regs
    input := { s.input with next := io.next, avail := io.avail }
    out := []
    left := io.room.length }

/-- `strm->data_type` -/
def Inflater.nextDataType (s : Inflater) : Nat :=
  s.input.bits + (if s.regs.last then 64 else 0) +
    (if s.regs.block = none ∧ s.regs.mode = .type then 128 else 0) +
    (if s.regs.block = some .len_ ∨ s.regs.block = some .copy_ then 256 else 0)

/-- The end of a call, where the window is right. -/
def Inflater.leave (flush : Nat) (io : Slice) (ret : Int) (s : Inflater) : Int × Inflater :=
  let taken := io.avail - s.input.avail
  let s := { s with
    totalIn := (s.totalIn + taken) % 2 ^ 64
    totalOut := (s.totalOut + s.out.length) % 2 ^ 64
    dataType := s.nextDataType }
  (if ((taken = 0 ∧ s.out = []) ∨ flush = zFinish) ∧ ret = zOk then zBufError else ret, s)

/-- `inf_leave` -/
def infLeave (v : Variant) (flush : Nat) (io : Slice) (ret : Int) (s : Inflater) :
    Option (Int × Inflater) :=
  if s.window.wsize ≠ 0 ∨
      s.out ≠ [] ∧ s.regs.beforeBad ∧ (s.regs.beforeCheck ∨ flush ≠ zFinish) then
    match (Call.mk (io.piece s.out) io.alloc).run (Window.update v.sources) s.window with
    | none => none
    | some (failed, window) =>
      let s := { s with window := window }
      if failed ≠ 0 then some (zMemError, { s with regs := s.regs.enter .mem })
      else some (s.leave flush io ret)
  else some (s.leave flush io ret)

/-- `inflate(strm, flush)` with a stream that passes its checks, and with at most `fuel` rounds of
each loop. `none` is an access outside of memory, or too little fuel. -/
def inflate (v : Variant) (fuel flush : Nat) (io : Slice) (s : Inflater) :
    Option (Int × Inflater) := do
  let s := s.load io
  -- `MEM` returns without `inf_leave`.
  if s.regs.block = some .mem then some (zMemError, s)
  else
    let (ret, s) ← (← run (inflateRound v flush fuel io.mem) fuel s)
    infLeave v flush io ret s

end CheriGzip.Inflate
