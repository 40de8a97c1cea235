import CheriGzip.Libz.Symbols

/-!
# inflate_fast

The loop of `inffast.c`, which decodes symbols while there are six bytes of input and room for 258
bytes of output, with its own copy of the bit buffer.
-/
namespace CheriGzip.Inflate

open Loop

/-- The local variables that the loop changes. `in` points at the byte before the next one, and
the output from `beg` on stands for `out`. -/
structure FastVars where
  inp : Ptr
  hold : Nat
  bits : Nat
  out : Bytes
  deriving DecidableEq, Repr

/-- `hold += (unsigned long)(PUP(in)) << bits; bits += 8;` -/
def FastVars.pull (mem : Memory) (v : FastVars) : Option FastVars :=
  (mem (v.inp.add 1)).map fun b =>
    { v with inp := v.inp.add 1, hold := v.hold + b.toNat <<< v.bits, bits := v.bits + 8 }

/-- `hold >>= n; bits -= n;` -/
def FastVars.drop (v : FastVars) (n : Nat) : FastVars :=
  { v with hold := v.hold >>> n, bits := v.bits - n }

/-- `if (bits < 15)` two bytes are taken. -/
def FastVars.refill (mem : Memory) (v : FastVars) : Option FastVars :=
  if v.bits < 15 then (v.pull mem).bind (·.pull mem) else some v

/-- `if (bits < n)` one byte is taken. -/
def FastVars.need (mem : Memory) (n : Nat) (v : FastVars) : Option FastVars :=
  if v.bits < n then v.pull mem else some v

/-- `if (bits < n)` one byte is taken, and perhaps another one. -/
def FastVars.needTwice (mem : Memory) (n : Nat) (v : FastVars) : Option FastVars :=
  if v.bits < n then (v.pull mem).bind (·.need mem n) else some v

/-- From `dolen` or `dodist`, through the links of the table, with at most `gotos` entries. -/
def follow (table : List Code) (link : Code → Bool) :
    (gotos : Nat) → Code → FastVars → Option (Code × FastVars)
  | 0, _, _ => none
  | gotos + 1, here, v =>
    let v := v.drop here.bits
    if link here then
      match table[here.val + lowBits v.hold here.op]? with
      | none => none
      | some here => follow table link gotos here v
    else some (here, v)

/-- `while (len > 2)` three bytes are copied, and then those that are left. -/
def copyThrees (w : Window) (limit : Nat) : (len : Nat) → Origin → Bytes → Option Bytes
  | len + 3, src, out => do
    let (src, out) ← copyBytes w limit 1 src out
    let (src, out) ← copyBytes w limit 1 src out
    let (src, out) ← copyBytes w limit 1 src out
    copyThrees w limit len src out
  | 2, src, out => do
    let (src, out) ← copyBytes w limit 1 src out
    let (_, out) ← copyBytes w limit 1 src out
    some out
  | 1, src, out => do
    let (_, out) ← copyBytes w limit 1 src out
    some out
  | 0, _, out => some out

/-- The same with the first three bytes in any case; `len` is an `unsigned`. -/
def copyDirect (w : Window) (limit len : Nat) (src : Origin) (out : Bytes) : Option Bytes := do
  let (src, out) ← copyBytes w limit 1 src out
  let (src, out) ← copyBytes w limit 1 src out
  let (src, out) ← copyBytes w limit 1 src out
  copyThrees w limit ((len + (2 ^ 32 - 3)) % 2 ^ 32) src out

/-- `beg + ((out - beg) - dist)` -/
def fromOutput (dist : Nat) (out : Bytes) : Origin := .output ((out.length : Int) - dist)

/-- `op` bytes of the window from `src` on, and then the rest from the output; the place and the
length for the loop behind it. -/
def fromPiece (w : Window) (limit dist op len : Nat) (src : Origin) (out : Bytes) :
    Option (Origin × Nat × Bytes) :=
  if op < len then do
    let (_, out) ← copyBytes w limit op src out
    some (fromOutput dist out, len - op, out)
  else some (src, len, out)

/-- The three cases of a match that begins in the window, `op` bytes back. -/
def fromWindow (w : Window) (limit dist op len : Nat) (out : Bytes) :
    Option (Origin × Nat × Bytes) :=
  if w.wnext = 0 then
    -- very common case
    fromPiece w limit dist op len (.window ((w.wsize : Int) - op)) out
  else if w.wnext < op then
    -- wrap around window
    let src := .window ((w.wsize : Int) + w.wnext - op)
    let op := op - w.wnext
    if op < len then do
      -- some from end of window
      let (_, out) ← copyBytes w limit op src out
      fromPiece w limit dist w.wnext (len - op) (.window 0) out
    else some (src, len, out)
  else
    -- contiguous in window
    fromPiece w limit dist op len (.window ((w.wnext : Int) - op)) out

/-- How a round leaves the loop by `break`: with a mode and perhaps a message. -/
structure Break where
  mode : Mode
  msg : Option String
  deriving DecidableEq, Repr

/-- The match of `len` bytes `dist` back. -/
def fastMatch (s : State) (limit dist len : Nat) (v : FastVars) :
    Option (FastVars × Option Break) :=
  let w := s.window
  -- `out - beg`
  let op := v.out.length
  if dist > op then
    let op := dist - op
    if op > w.whave ∧ s.sane then some (v, some ⟨.bad, "invalid distance too far back"⟩)
    else do
      let (src, len, out) ← fromWindow w limit dist op len v.out
      let out ← copyThrees w limit len src out
      some ({ v with out := out }, none)
  else do
    let out ← copyDirect w limit len (fromOutput dist v.out) v.out
    some ({ v with out := out }, none)

/-- The distance code behind a length of `len`. -/
def fastDist (mem : Memory) (s : State) (gotos limit len : Nat) (v : FastVars) :
    Option (FastVars × Option Break) := do
  let v ← v.refill mem
  let here ← s.distcode[lowBits v.hold s.distbits]?
  let (here, v) ← follow s.distcode (fun here => here.op &&& 16 = 0 ∧ here.op &&& 64 = 0) gotos
    here v
  if here.op &&& 16 ≠ 0 then
    let op := here.op &&& 15
    let v ← v.needTwice mem op
    let dist := here.val + lowBits v.hold op
    fastMatch s limit dist len (v.drop op)
  else some (v, some ⟨.bad, "invalid distance code"⟩)

/-- The body of the loop: one symbol. -/
def fastSymbol (mem : Memory) (s : State) (gotos limit : Nat) (v : FastVars) :
    Option (FastVars × Option Break) := do
  let v ← v.refill mem
  let here ← s.lencode[lowBits v.hold s.lenbits]?
  let (here, v) ← follow s.lencode
    (fun here => here.op ≠ 0 ∧ here.op &&& 16 = 0 ∧ here.op &&& 64 = 0) gotos here v
  if here.op = 0 then
    let out ← put limit v.out (UInt8.ofNat here.val)
    some ({ v with out := out }, none)
  else if here.op &&& 16 ≠ 0 then
    let op := here.op &&& 15
    if op ≠ 0 then
      let v ← v.need mem op
      fastDist mem s gotos limit (here.val + lowBits v.hold op) (v.drop op)
    else fastDist mem s gotos limit here.val v
  else if here.op &&& 32 ≠ 0 then some (v, some ⟨.type, s.msg⟩)
  else some (v, some ⟨.bad, "invalid literal/length code"⟩)

/-- `last`: there is enough input while `in < last`. -/
def State.fastLast (s : State) : Ptr := (s.input.next.add (-1)).add ((s.input.avail : Int) - 5)

/-- `end - beg`: there is enough room while `out < end`. -/
def State.fastEnd (s : State) : Int := (s.out.length : Int) + ((s.left : Int) - 257)

/-- One round of `do ... while (in < last && out < end)`. -/
def fastRound (mem : Memory) (s : State) (gotos : Nat) (v : FastVars) :
    Turn FastVars (Option (FastVars × Break)) :=
  match fastSymbol mem s gotos (s.out.length + s.left) v with
  | none => .leave none
  | some (v, some how) => .leave (some (v, how))
  | some (v, none) =>
    if v.inp.addr < s.fastLast.addr ∧ v.out.length < s.fastEnd then .again v
    else .leave (some (v, ⟨.len, s.msg⟩))

/-- The variables before the loop. -/
def State.fastStart (s : State) : FastVars :=
  ⟨s.input.next.add (-1), s.input.hold, s.input.bits, s.out⟩

/-- What is done after the loop: unused bytes are given back, and the state is updated. The
variable `sin` was never set. -/
def fastReturn (s : State) (sin : Ptr) (v : FastVars) (how : Break) : State :=
  let len := v.bits >>> 3
  let inp := sin.add (v.inp.sub sin - len)
  let bits := v.bits - len <<< 3
  let last := s.fastLast
  let out : Int := v.out.length
  { s with
    input :=
      { next := inp.add 1
        avail := (if inp.addr < last.addr then 5 + last.sub inp else 5 - inp.sub last).toNat
        hold := lowBits v.hold bits
        bits := bits }
    out := v.out
    left := (if out < s.fastEnd then 257 + (s.fastEnd - out) else 257 - (out - s.fastEnd)).toNat
    mode := how.mode
    msg := how.msg }

/-- `inflate_fast`, with at most `fuel` rounds and as many gotos in each. -/
def inflateFast (mem : Memory) (sin : Ptr) (fuel : Nat) (s : State) : Option State := do
  let (v, how) ← (← run (fastRound mem s fuel) fuel s.fastStart)
  some (fastReturn s sin v how)

end CheriGzip.Inflate
