import CheriGzip.Gzip.Crc32
import CheriGzip.Gzip.World
import CheriGzip.Gzip.Zlib
import CheriGzip.Lib.Loop

/-!
# gz_uncompress

The sixteen-state automaton of `gz_uncompress`, one round of its `for (;;)` at a time.
-/
namespace CheriGzip.Gzip

open Loop

/-- `GZSTATE_MAGIC0` to `GZSTATE_LEN`. -/
inductive GzState where
  | magic0
  | magic1
  | method
  | flags
  | skipping
  | extra
  | extra2
  | extra3
  | origname
  | comment
  | headCrc1
  | headCrc2
  | init
  | read
  | crc
  | len
  deriving DecidableEq, Repr

/-- The value of the enumerator. -/
def GzState.toNat : GzState → Nat
  | .magic0 => 0
  | .magic1 => 1
  | .method => 2
  | .flags => 3
  | .skipping => 4
  | .extra => 5
  | .extra2 => 6
  | .extra3 => 7
  | .origname => 8
  | .comment => 9
  | .headCrc1 => 10
  | .headCrc2 => 11
  | .init => 12
  | .read => 13
  | .crc => 14
  | .len => 15

def gzipMagic0 : UInt8 := 0x1f
def gzipMagic1 : UInt8 := 0x8b
def gzipOmagic1 : UInt8 := 0x9e
def zDeflated : UInt8 := 8
def headCrcFlag : UInt8 := 0x02
def extraFieldFlag : UInt8 := 0x04
def orignameFlag : UInt8 := 0x08
def commentFlag : UInt8 := 0x10

/-- `enum filetype`, in a build without bzip2 and xz. -/
inductive Filetype where
  | gzip
  | z
  | pack
  | unknown
  deriving DecidableEq, Repr

/-- `file_gettype` -/
def fileGettype (buf : Bytes) : Filetype :=
  if buf[0]? = some gzipMagic0 ∧ (buf[1]? = some gzipMagic1 ∨ buf[1]? = some gzipOmagic1) then
    .gzip
  else if buf.take 2 = [0x1f, 0x9d] then .z
  else if buf.take 2 = [0x1f, 0x1e] then .pack
  else .unknown

theorem fileGettype_gzip {buf : Bytes} (gzip : fileGettype buf = .gzip) :
    buf.head? = some gzipMagic0 := by
  unfold fileGettype at gzip
  split at gzip
  next magic => rw [List.head?_eq_getElem?, magic.1]
  · split at gzip
    · cases gzip
    · split at gzip <;> cases gzip

/-- What a call of `gz_uncompress` works with: zlib, the system, `BUFLEN`, `tflag` and the
name for its messages. -/
structure UConfig (σ : Type) where
  engine : InflateEngine σ
  env : Env
  buflen : Buflen
  tflag : Bool
  filename : String

/-- The variables of the loop. `nextIn` is the `avail_in` bytes at `next_in`, and `outbuf`
what lies between `outbufp` and `next_out`. -/
structure UState (σ : Type) where
  strm : σ
  nextIn : Bytes
  outbuf : Bytes
  state : GzState
  flags : UInt8
  skipCount : Nat
  error : ZCode
  doneReading : Bool
  needmore : Bool
  crc : UInt32
  outTot : Int
  inTot : Int
  outSubTot : UInt32
  world : World

variable {σ : Type}

/-- `maybe_warnx(message); goto stop_and_fail;` -/
def UState.fail (s : UState σ) (message : String) : UState σ :=
  { s with world := s.world.maybeWarn message, outTot := -1 }

abbrev URound (σ : Type) := Turn (UState σ) (UState σ)

/-- The refill at the head of the loop; the error is `goto stop_and_fail`. -/
def refill (cfg : UConfig σ) (s : UState σ) : Except (UState σ) (UState σ) :=
  if (s.nextIn = [] ∨ s.needmore) ∧ s.doneReading = false then
    match s.world.read cfg.env (cfg.buflen.size - s.nextIn.length) with
    | (none, w) => .error ({ s with world := w }.fail "failed to read stdin")
    | (some bytes, w) =>
      .ok { s with
        world := w
        nextIn := s.nextIn ++ bytes
        doneReading := bytes.isEmpty
        needmore := false
        inTot := s.inTot + bytes.length }
  else
    .ok s

/-- The end of `case GZSTATE_READ`: close the stream if it has ended, and reset the output
buffer. -/
def settle (cfg : UConfig σ) (s : UState σ) : UState σ :=
  { s with
    strm := if s.error = .streamEnd then cfg.engine.inflateEnd s.strm else s.strm
    state := if s.error = .streamEnd then .crc else s.state
    outbuf := [] }

/-- `case GZSTATE_READ` after the inner switch: check, write out and count what is in the
output buffer. -/
def drain (cfg : UConfig σ) (s : UState σ) : URound σ :=
  let wr := s.outbuf.length
  if wr ≠ 0 then
    let s := { s with crc := crc32 s.crc s.outbuf }
    let written := if cfg.tflag then (some wr, s.world) else s.world.write cfg.env s.outbuf
    let s := { s with world := written.2 }
    if written.1 ≠ some wr then
      .leave (s.fail "error writing to output")
    else
      .again (settle cfg
        { s with outTot := s.outTot + wr, outSubTot := s.outSubTot + UInt32.ofNat wr })
  else
    .again (settle cfg s)

/-- The variables after a call of `inflate`. -/
def UState.inflated (s : UState σ) (step : ZStep σ) : UState σ :=
  { s with
    strm := step.strm
    nextIn := s.nextIn.drop step.consumed
    outbuf := s.outbuf ++ step.out
    error := step.code }

/-- `case GZSTATE_READ` -/
def readState (cfg : UConfig σ) (s : UState σ) : URound σ :=
  let s := s.inflated
    (cfg.engine.inflate s.strm .finish s.nextIn (cfg.buflen.size - s.outbuf.length))
  match s.error with
  | .bufError =>
    if s.outbuf.length < cfg.buflen.size ∧ s.doneReading = false then .again s else drain cfg s
  | .streamEnd => drain cfg s
  | .ok => drain cfg s
  | .needDict => .leave (s.fail "Z_NEED_DICT error")
  | .dataError => .leave (s.fail "data stream error")
  | .streamError => .leave (s.fail "internal stream error")
  | .memError => .leave (s.fail "memory allocation error")
  | error =>
    drain cfg { s with
      world := s.world.maybeWarn ("unknown error from inflate(): " ++ toString error.toInt) }

/-- The 32-bit little-endian word at `next_in`. -/
def UState.word (s : UState σ) : Nat := ofLe (s.nextIn.take 4)

/-- The switch, for a nonempty input with first byte `b`. -/
def dispatch (cfg : UConfig σ) (s : UState σ) (b : UInt8) (rest : Bytes) : URound σ :=
  -- `ADVANCE()`
  let adv := { s with nextIn := rest }
  match s.state with
  | .magic0 =>
    if b ≠ gzipMagic0 then
      if s.inTot > 0 then
        .leave { s with
          world := s.world.maybeWarn (cfg.filename ++ ": trailing garbage ignored") }
      else
        .leave (s.fail "input not gziped (MAGIC0)")
    else
      .again { adv with state := .magic1, outSubTot := 0, crc := crc32Null }
  | .magic1 =>
    if b ≠ gzipMagic1 ∧ b ≠ gzipOmagic1 then
      .leave (s.fail "input not gziped (MAGIC1)")
    else
      .again { adv with state := .method }
  | .method =>
    if b ≠ zDeflated then
      .leave (s.fail "unknown compression method")
    else
      .again { adv with state := .flags }
  | .flags => .again { adv with flags := b, skipCount := 6, state := .skipping }
  | .skipping =>
    if s.skipCount > 0 then .again { adv with skipCount := s.skipCount - 1 }
    else .again { s with state := .extra }
  | .extra =>
    if s.flags &&& extraFieldFlag = 0 then .again { s with state := .origname }
    else .again { adv with skipCount := b.toNat, state := .extra2 }
  | .extra2 => .again { adv with skipCount := s.skipCount ||| b.toNat <<< 8, state := .extra3 }
  | .extra3 =>
    if s.skipCount > 0 then .again { adv with skipCount := s.skipCount - 1 }
    else .again { s with state := .origname }
  | .origname =>
    if s.flags &&& orignameFlag = 0 then .again { s with state := .comment }
    else .again { adv with state := if b = 0 then .comment else .origname }
  | .comment =>
    if s.flags &&& commentFlag = 0 then .again { s with state := .headCrc1 }
    else .again { adv with state := if b = 0 then .headCrc1 else .comment }
  | .headCrc1 =>
    .again { s with
      skipCount := if s.flags &&& headCrcFlag ≠ 0 then 2 else 0
      state := .headCrc2 }
  | .headCrc2 =>
    if s.skipCount > 0 then .again { adv with skipCount := s.skipCount - 1 }
    else .again { s with state := .init }
  | .init =>
    match cfg.engine.inflateInit2 s.strm with
    | (.ok, strm) => .again { s with strm := strm, state := .read }
    | (_, strm) => .leave ({ s with strm := strm }.fail "failed to inflateInit")
  | .read => readState cfg s
  | .crc =>
    if s.nextIn.length < 4 then
      if s.doneReading = false then .again { s with needmore := true }
      else .leave (s.fail "truncated input")
    else if s.word ≠ s.crc.toNat then
      .leave (s.fail "invalid compressed data--crc error")
    else
      let s := { s with nextIn := s.nextIn.drop 4 }
      if s.nextIn = [] ∧ s.doneReading = true then .leave s
      else .again { s with state := .len }
  | .len =>
    if s.nextIn.length < 4 then
      if s.doneReading = false then .again { s with needmore := true }
      else .leave (s.fail "truncated input")
    else if s.word ≠ s.outSubTot.toNat then
      .leave (s.fail "invalid compressed data--length error")
    else
      let s := { s with nextIn := s.nextIn.drop 4 }
      if s.error.toInt < (0 : Int) then .leave (s.fail "decompression error")
      else .again { s with state := .magic0 }

/-- One round of `for (;;)`; it is left at `stop`. -/
def uncompressRound (cfg : UConfig σ) (s : UState σ) : URound σ :=
  match refill cfg s with
  | .error s => .leave s
  | .ok s =>
    match s.nextIn with
    | [] =>
      if s.doneReading = true ∧ s.state ≠ .magic0 then
        .leave (s.fail (cfg.filename ++ ": unexpected end of file"))
      else
        .leave s
    | b :: rest => dispatch cfg s b rest

/-- The variables before the loop. `avail_in` is 32 bits wide. -/
def uncompressStart (cfg : UConfig σ) (pre : Bytes) (w : World) : UState σ where
  strm := cfg.engine.zero
  nextIn := pre.take (pre.length % 2 ^ 32)
  outbuf := []
  state := .magic0
  flags := 0
  skipCount := 0
  error := .streamError
  doneReading := false
  needmore := false
  crc := 0
  outTot := 0
  inTot := pre.length
  outSubTot := 0
  world := w

/-- What `gz_uncompress` returns, the value for `*gsizep`, and the stream it leaves. -/
structure UResult (σ : Type) where
  outTot : Int
  gsize : Int
  strm : σ

/-- `gz_uncompress(in, out, pre, prelen, gsizep, filename)`, with `fuel` rounds of the loop. -/
def gzUncompress (cfg : UConfig σ) (pre : Bytes) (w : World) (fuel : Nat) :
    Option (Ran (UResult σ)) :=
  if cfg.env.mallocs = false then
    some (w.maybeErr "malloc failed")
  else do
    let s ← run (uncompressRound cfg) fuel (uncompressStart cfg pre w)
    let strm := if s.state.toNat > GzState.init.toNat then cfg.engine.inflateEnd s.strm else s.strm
    some (.returns ⟨s.outTot, s.inTot, strm⟩ s.world)

end CheriGzip.Gzip
