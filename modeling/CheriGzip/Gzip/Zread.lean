import CheriGzip.Lib.Bits
import CheriGzip.Lib.Loop

/-!
# zuncompress.c

`zread`, which stops in the middle of a code's output when the caller's buffer is full and goes
on there at the next call.
-/
namespace CheriGzip.Zread

open Loop

def initBits : Nat := 9
def maxBits : Nat := 16
def clearCode : Nat := 256
def blockMask : Nat := 0x80
def bitMask : Nat := 0x1f

/-- `MAXCODE` -/
def maxCode (bits : Nat) : Nat := 2 ^ bits - 1

inductive State where
  | start
  | middle
  | eof
  deriving DecidableEq, Repr

/-- `struct s_zstate`, with the globals `compressed_pre` and `total_compressed_bytes`. The stack
is listed from its top; `oldcode` is `none` for -1. -/
structure Zstate where
  state : State
  pre : Bytes
  file : Bytes
  total : Nat
  nBits : Nat
  maxbits : Nat
  maxcode : Nat
  maxmaxcode : Nat
  prefixof : Nat → Nat
  suffixof : Nat → UInt8
  freeEnt : Nat
  blockCompress : Bool
  clearFlg : Bool
  stack : Bytes
  finchar : UInt8
  oldcode : Option Nat
  incode : Nat
  roffset : Nat
  size : Int
  gbuf : Bytes

/-- `zdopen`, with the bytes of the file that were read before in `compressed_pre`. -/
def zdopen (pre file : Bytes) : Zstate where
  state := .start
  pre := pre
  file := file
  total := 0
  nBits := 0
  maxbits := 0
  maxcode := 0
  maxmaxcode := 0
  prefixof _ := 0
  suffixof _ := 0
  freeEnt := 0
  blockCompress := true
  clearFlg := false
  stack := []
  finchar := 0
  oldcode := none
  incode := 0
  roffset := 0
  size := 0
  gbuf := List.replicate maxBits 0

/-- The next bytes, from `compressed_pre` as long as it has any. -/
def Zstate.fetch (zs : Zstate) (n : Nat) : Bytes × Zstate :=
  (zs.pre.take n ++ zs.file.take (n - zs.pre.length),
    { zs with pre := zs.pre.drop n, file := zs.file.drop (n - zs.pre.length) })

/-! ## getcode -/

/-- The next entry is too big for the codes. -/
def Zstate.widen (zs : Zstate) : Zstate :=
  if zs.freeEnt > zs.maxcode then
    { zs with
      nBits := zs.nBits + 1
      maxcode := if zs.nBits + 1 = zs.maxbits then zs.maxmaxcode else maxCode (zs.nBits + 1) }
  else zs

/-- The table was cleared. -/
def Zstate.narrow (zs : Zstate) : Zstate :=
  if zs.clearFlg then
    { zs with nBits := initBits, maxcode := maxCode initBits, clearFlg := false }
  else zs

/-- The change of the code size. -/
def Zstate.resize (zs : Zstate) : Zstate := zs.widen.narrow

/-- The bytes of a group, and how many of their bits make whole codes. -/
def Zstate.load (zs : Zstate) (got : Bytes) : Zstate :=
  { zs with
    gbuf := got ++ zs.gbuf.drop got.length
    roffset := 0
    total := zs.total + got.length
    size := 8 * got.length - (zs.nBits - 1) }

/-- The next group of codes; `false` at the end of the file. -/
def Zstate.refill (zs : Zstate) : Bool × Zstate :=
  let zs := zs.resize
  let (got, zs) := zs.fetch zs.nBits
  if got.length = 0 then (false, { zs with size := 0 }) else (true, zs.load got)

/-- `rmask` -/
def rmask (bits : Nat) : Nat := 2 ^ bits - 1

/-- The code of `nBits` bits at bit `roffset` of the group. A byte behind the buffer is read
under an empty mask only. -/
def gcode (gbuf : Bytes) (roffset nBits : Nat) : Nat :=
  let byte (i : Nat) : Nat := (gbuf.getD (roffset / 8 + i) 0).toNat
  let r := roffset % 8
  let bits := nBits - (8 - r)
  if bits ≥ 8 then
    byte 0 >>> r ||| byte 1 <<< (8 - r) ||| (byte 2 &&& rmask (bits - 8)) <<< (16 - r)
  else byte 0 >>> r ||| (byte 1 &&& rmask bits) <<< (8 - r)

/-- The code at `roffset`. -/
def Zstate.next (zs : Zstate) : Option Nat × Zstate :=
  (some (gcode zs.gbuf zs.roffset zs.nBits), { zs with roffset := zs.roffset + zs.nBits })

/-- A new group has to be read. -/
def Zstate.Due (zs : Zstate) : Prop :=
  zs.clearFlg = true ∨ (zs.roffset : Int) ≥ zs.size ∨ zs.freeEnt > zs.maxcode

instance (zs : Zstate) : Decidable zs.Due := by
  unfold Zstate.Due
  infer_instance

/-- `getcode`; `none` is -1. -/
def getcode (zs : Zstate) : Option Nat × Zstate :=
  if zs.Due then
    match zs.refill with
    | (false, zs) => (none, zs)
    | (true, zs) => zs.next
  else zs.next

/-! ## zread -/

/-- What `zread` returns: a number of bytes with the bytes, or -1. -/
inductive Ret where
  | bytes (out : Bytes)
  | eftype
  | einval
  | outside
  deriving DecidableEq, Repr

/-- The characters of a code on the stack, and the first of them. The fuel is more than the
table has entries; the loop ends because each prefix is smaller than its code. -/
def expand (prefixof : Nat → Nat) (suffixof : Nat → UInt8) :
    Nat → Nat → Bytes → Option (Bytes × UInt8)
  | 0, _, _ => none
  | fuel + 1, code, stack =>
    if code ≥ 256 then expand prefixof suffixof fuel (prefixof code) (suffixof code :: stack)
    else some (suffixof code :: stack, suffixof code)

/-- Where the loop stands: at `getcode`, or at the label `middle`. -/
inductive Place where
  | top
  | middle
  deriving DecidableEq, Repr

/-- The loop of a call, with `count` and what was put at `bp`. -/
structure Zloop where
  place : Place
  zs : Zstate
  count : Nat
  out : Bytes

/-- The new entry, and the code to remember. -/
def Zstate.enter (zs : Zstate) : Zstate :=
  let zs :=
    match zs.oldcode with
    | some oldcode =>
      if zs.freeEnt < zs.maxmaxcode then
        { zs with
          prefixof := fun i => if i = zs.freeEnt then oldcode else zs.prefixof i
          suffixof := fun i => if i = zs.freeEnt then zs.finchar else zs.suffixof i
          freeEnt := zs.freeEnt + 1 }
      else zs
    | none => zs
  { zs with oldcode := some zs.incode }

/-- A code that is not `CLEAR`: its characters go on the stack. -/
def Zstate.push (zs : Zstate) (code : Nat) : Except Ret Zstate :=
  let zs := { zs with incode := code }
  let spelled (code : Nat) (stack : Bytes) : Except Ret Zstate :=
    match expand zs.prefixof zs.suffixof (2 ^ maxBits) code stack with
    | none => .error .outside
    | some (stack, finchar) => .ok { zs with stack := stack, finchar := finchar }
  if code ≥ zs.freeEnt then
    match zs.oldcode with
    | none => .error .einval
    | some oldcode =>
      if code > zs.freeEnt then .error .einval
      -- The KwKwK string ends with the character it begins with.
      else spelled oldcode (zs.finchar :: zs.stack)
  else spelled code zs.stack

/-- The table after `CLEAR`. -/
def Zstate.clear (zs : Zstate) : Zstate :=
  { zs with
    prefixof := fun i => if i < 256 then 0 else zs.prefixof i
    clearFlg := true
    freeEnt := 257
    oldcode := none }

/-- One round of the two nested loops. -/
def zreadBody (s : Zloop) : Turn Zloop (Ret × Zstate) :=
  match s.place with
  | .top =>
    match getcode s.zs with
    | (none, zs) => .leave (.bytes s.out, { zs with state := .eof })
    | (some code, zs) =>
      if code = clearCode ∧ zs.blockCompress then .again { s with zs := zs.clear }
      else
        match zs.push code with
        | .error ret => .leave (ret, { zs with incode := code })
        | .ok zs => .again { s with place := .middle, zs := zs }
  | .middle =>
    match s.count with
    | 0 => .leave (.bytes s.out, s.zs)
    | count + 1 =>
      match s.zs.stack with
      | [] => .leave (.outside, s.zs)
      | c :: stack =>
        let s := { s with zs := { s.zs with stack := stack }, count := count, out := s.out ++ [c] }
        if stack = [] then .again { s with place := .top, zs := s.zs.enter }
        else .again s

/-- The header, and the state for the first code. -/
def Zstate.open (zs : Zstate) : Option Ret × Zstate :=
  let (header, zs) := zs.fetch 3
  if header.length ≠ 3 ∨ header.take 2 ≠ [0x1f, 0x9d] then (some .eftype, zs)
  else
    let byte := (header.getD 2 0).toNat
    let zs := { zs with
      total := 0
      maxbits := byte &&& bitMask
      blockCompress := byte &&& blockMask ≠ 0
      maxmaxcode := 2 ^ (byte &&& bitMask) }
    if zs.maxbits > maxBits ∨ zs.maxbits < 12 then (some .eftype, zs)
    else
      (none, { zs with
        nBits := initBits
        maxcode := maxCode initBits
        prefixof := fun i => if i < 256 then 0 else zs.prefixof i
        suffixof := fun i => if i < 256 then UInt8.ofNat i else zs.suffixof i
        freeEnt := if zs.blockCompress then 257 else 256
        oldcode := none
        stack := [] })

/-- `zread` with a request of `num` bytes leaves with `r`. -/
def ZreadCall (zs : Zstate) (num : Nat) (r : Ret × Zstate) : Prop :=
  if num = 0 then r = (.bytes [], zs)
  else
    match zs.state with
    | .start =>
      match { zs with state := .middle }.open with
      | (some ret, zs) => r = (ret, zs)
      | (none, zs) => Leaves zreadBody ⟨.top, zs, num, []⟩ r
    | .middle => Leaves zreadBody ⟨.middle, zs, num, []⟩ r
    | .eof => r = (.bytes [], zs)

/-- A sequence of calls. -/
inductive Zreads : Zstate → List Nat → List Ret → Prop where
  | nil (zs : Zstate) : Zreads zs [] []
  | cons {zs zs' : Zstate} {num : Nat} {nums : List Nat} {ret : Ret} {rets : List Ret}
      (first : ZreadCall zs num (ret, zs')) (rest : Zreads zs' nums rets) :
      Zreads zs (num :: nums) (ret :: rets)

end CheriGzip.Zread
