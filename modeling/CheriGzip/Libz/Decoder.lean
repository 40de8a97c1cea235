import CheriGzip.Libz.Inflate
import CheriGzip.Libz.SlowSymbol

/-!
# What inflate decodes

The states of `inflate` with all the data there and with room for all bytes: at a bit of the data,
without a bit buffer, and putting one byte at a time behind all those before it. A call of `inflate`
is a piece of a run of this decoder, whatever pieces the data comes in.
-/
namespace CheriGzip.Inflate

open Loop

structure Decoder where
  regs : Registers
  pending : Pending
  pos : Nat
  out : Bytes
  deriving DecidableEq, Repr

abbrev DRound := Turn Decoder (Option Int)

/-- The code at a bit, and how many bits it has. -/
def lookup (table : List Code) (root : Nat) (link : Code → Bool) (x c : Nat) :
    Option (Code × Nat) := do
  let here ← table[bitField x c root]?
  if link here then
    let last := here
    let here ← table[last.val + bitField x (c + last.bits) last.op]?
    some (here, last.bits + here.bits)
  else some (here, here.bits)

/-- The next bit that begins a byte. -/
def align (c : Nat) : Nat := (c + 7) / 8 * 8

/-- The next `n` bits, and what is made of them. -/
def Decoder.read (x n : Nat) (make : Nat → Option Registers) (d : Decoder) : DRound :=
  match make (bitField x d.pos n) with
  | none => .leave none
  | some regs => .again { d with regs := regs, pos := d.pos + n }

def Decoder.goes (d : Decoder) (make : Option Registers) : DRound :=
  match make with
  | none => .leave none
  | some regs => .again { d with regs := regs }

def Decoder.typedo (x : Nat) (d : Decoder) : DRound :=
  if d.regs.last then .again { d with regs := d.regs.enter .check, pos := align d.pos }
  else d.read x 3 fun bits => some (d.regs.blockType bits)

def Decoder.stored (x : Nat) (d : Decoder) : DRound :=
  if d.pos % 8 ≠ 0 then .again { d with pos := align d.pos }
  else
    let hold := bitField x d.pos 32
    .again { d with
      regs := d.regs.storedLength hold
      pending := { d.pending with length := hold &&& 0xffff }
      pos := d.pos + 32 }

def Decoder.copy (x : Nat) (d : Decoder) : DRound :=
  if d.pending.length ≠ 0 then
    .again { d with
      pending := { d.pending with length := d.pending.length - 1 }
      pos := d.pos + 8
      out := d.out ++ [UInt8.ofNat (bitField x d.pos 8)] }
  else .again { d with regs := d.regs.symbol .type }

def Decoder.codelens (x : Nat) (d : Decoder) : DRound :=
  if d.regs.got < d.regs.nlen + d.regs.ndist then
    match d.regs.lencode[bitField x d.pos d.regs.lenbits]? with
    | none => .leave none
    | some here =>
      let bits := bitField x (d.pos + here.bits) (repeatBits here.val)
      match d.regs.putLength here.val bits with
      | none => .leave none
      | some regs => .again { d with regs := regs, pos := d.pos + here.bits + repeatBits here.val }
  else d.goes d.regs.buildTables

/-- The next mode of a symbol. -/
def Decoder.mode (d : Decoder) (mode : Mode) : Decoder :=
  { d with regs := { d.regs with mode := mode } }

def Decoder.bad (d : Decoder) (message : String) : Decoder :=
  { d with regs := { d.regs with mode := .bad, msg := some message } }

def Decoder.len (x : Nat) (d : Decoder) : DRound :=
  match lookup d.regs.lencode d.regs.lenbits (fun here => here.op ≠ 0 ∧ here.op &&& 0xf0 = 0) x
    d.pos with
  | none => .leave none
  | some (here, n) =>
    let d := { d with pos := d.pos + n, pending := { d.pending with length := here.val } }
    if here.op = 0 then .again (d.mode .lit)
    else if here.op &&& 32 ≠ 0 then .again (d.mode .type)
    else if here.op &&& 64 ≠ 0 then .again (d.bad "invalid literal/length code")
    else .again
      (Decoder.mode { d with pending := { d.pending with extra := here.op &&& 15 } } .lenext)

def Decoder.lenext (x : Nat) (d : Decoder) : DRound :=
  let more := bitField x d.pos d.pending.extra
  .again (Decoder.mode { d with
    pos := d.pos + d.pending.extra
    pending := { d.pending with length := d.pending.length + more } } .dist)

def Decoder.dist (x : Nat) (d : Decoder) : DRound :=
  match lookup d.regs.distcode d.regs.distbits (fun here => here.op &&& 0xf0 = 0) x d.pos with
  | none => .leave none
  | some (here, n) =>
    let d := { d with pos := d.pos + n }
    if here.op &&& 64 ≠ 0 then .again (d.bad "invalid distance code")
    else .again (Decoder.mode
      { d with pending := { d.pending with offset := here.val, extra := here.op &&& 15 } } .distext)

def Decoder.distext (x : Nat) (d : Decoder) : DRound :=
  let more := bitField x d.pos d.pending.extra
  .again (Decoder.mode { d with
    pos := d.pos + d.pending.extra
    pending := { d.pending with offset := d.pending.offset + more } } .matching)

def Decoder.matching (d : Decoder) : DRound :=
  if d.pending.offset > d.out.length then .again (d.bad "invalid distance too far back")
  else
    match d.out[d.out.length - d.pending.offset]? with
    | none => .leave none
    | some b =>
      let length := d.pending.length - 1
      .again (Decoder.mode { d with
        pending := { d.pending with length := length }
        out := d.out ++ [b] } (if length = 0 then .len else .matching))

def Decoder.lit (d : Decoder) : DRound :=
  .again (Decoder.mode { d with out := d.out ++ [UInt8.ofNat d.pending.length] } .len)

/-- One state. It leaves with what `inflate` returns then. -/
def Decoder.step (x : Nat) (d : Decoder) : DRound :=
  match d.regs.block with
  | some .head => .again { d with regs := d.regs.enter .typedo }
  | some .typedo => d.typedo x
  | some .stored => d.stored x
  | some .copy_ => .again { d with regs := d.regs.enter .copy }
  | some .copy => d.copy x
  | some .table => d.read x 14 fun bits => some (d.regs.tableSizes bits)
  | some .lenlens =>
    if d.regs.got < d.regs.ncode then d.read x 3 d.regs.putOrder else d.goes d.regs.buildCodes
  | some .codelens => d.codelens x
  | some .len_ => .again { d with regs := d.regs.symbol .len }
  | some .check => .again { d with regs := d.regs.enter .length }
  | some .length => .again { d with regs := d.regs.enter .done }
  | some .done => .leave (some zStreamEnd)
  | some .mem => .leave (some zMemError)
  | none =>
    match d.regs.mode with
    | .type => .again { d with regs := d.regs.enter .typedo }
    | .len => d.len x
    | .lenext => d.lenext x
    | .dist => d.dist x
    | .distext => d.distext x
    | .matching => d.matching
    | .lit => d.lit
    | .bad => .leave (some zDataError)

end CheriGzip.Inflate
