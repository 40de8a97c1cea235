import CheriGzip.Gzip.Crc32
import CheriGzip.Gzip.World
import CheriGzip.Gzip.Zlib
import CheriGzip.Lib.Loop

/-!
# gz_compress

The two loops of `gz_compress`, a round at a time, and the header and trailer around them.
-/
namespace CheriGzip.Gzip

open Loop

/-- What a call of `gz_compress` works with: zlib, the system, `BUFLEN`, `numflag` and
`nflag`. -/
structure CConfig (σ : Type) where
  engine : DeflateEngine σ
  env : Env
  buflen : Buflen
  numflag : Nat
  nflag : Bool

/-- The variables. `nextIn` is the `avail_in` bytes at `next_in`, and `outbuf` what lies
between `outbufp` and `next_out`. -/
structure CState (σ : Type) where
  strm : σ
  nextIn : Bytes
  outbuf : Bytes
  crc : UInt32
  inTot : Int
  outTot : Int
  world : World

/-- The places that leave `gz_compress` through `out`. The trailer's `write` comes with the
number of bytes that it stored. -/
inductive Site where
  | deflateInit2
  | write
  | read
  | deflate
  | finish
  | finishWrite
  | deflateEnd
  | trailerWrite (stored : Nat)
  | done
  deriving DecidableEq, Repr

/-- How `gz_compress` ends: through `out`, or by `maybe_err`. -/
inductive CEnd (σ : Type) where
  | out (site : Site) (s : CState σ)
  | exits (status : Nat) (w : World)

variable {σ : Type}

/-- `maybe_warn(message); in_tot = -1; goto out;` -/
def CState.failIn (s : CState σ) (message : String) : CState σ :=
  { s with world := s.world.maybeWarn message, inTot := -1 }

/-- `maybe_warn(message); out_tot = -1; goto out;` -/
def CState.failOut (s : CState σ) (message : String) : CState σ :=
  { s with world := s.world.maybeWarn message, outTot := -1 }

/-- A loop is left to `out`, or to what follows it. -/
abbrev CLeft (σ : Type) := Except (Site × CState σ) (CState σ)

abbrev CRound (σ : Type) := Turn (CState σ) (CLeft σ)

/-- `if (z.avail_out == 0)` -/
def flushFull (cfg : CConfig σ) (s : CState σ) : CLeft σ :=
  if s.outbuf.length = cfg.buflen.size then
    let (w, world) := s.world.write cfg.env s.outbuf
    let s := { s with world := world }
    if w ≠ some cfg.buflen.size then
      .error (.write, s.failOut "write")
    else
      .ok { s with outTot := s.outTot + cfg.buflen.size, outbuf := [] }
  else
    .ok s

/-- `deflate(&z, Z_NO_FLUSH)` -/
def feed (cfg : CConfig σ) (s : CState σ) : CRound σ :=
  let step := cfg.engine.deflate s.strm .noFlush s.nextIn (cfg.buflen.size - s.outbuf.length)
  let s := { s with
    strm := step.strm
    nextIn := s.nextIn.drop step.consumed
    outbuf := s.outbuf ++ step.out }
  if step.code ≠ .ok ∧ step.code ≠ .streamEnd then
    .leave (.error (.deflate, s.failIn "deflate failed"))
  else
    .again s

/-- One round of the first `for (;;)`. -/
def feedRound (cfg : CConfig σ) (s : CState σ) : CRound σ :=
  match flushFull cfg s with
  | .error left => .leave (.error left)
  | .ok s =>
    if s.nextIn = [] then
      match s.world.read cfg.env cfg.buflen.size with
      | (none, w) => .leave (.error (.read, { s with world := w }.failIn "read"))
      | (some bytes, w) =>
        let s := { s with world := w }
        if bytes = [] then
          .leave (.ok s)
        else
          feed cfg { s with
            crc := crc32 s.crc bytes
            inTot := s.inTot + bytes.length
            nextIn := bytes }
    else
      feed cfg s

/-- One round of the second `for (;;)`. -/
def finishRound (cfg : CConfig σ) (s : CState σ) : CRound σ :=
  let step := cfg.engine.deflate s.strm .finish s.nextIn (cfg.buflen.size - s.outbuf.length)
  let s := { s with
    strm := step.strm
    nextIn := s.nextIn.drop step.consumed
    outbuf := s.outbuf ++ step.out }
  if step.code ≠ .ok ∧ step.code ≠ .streamEnd then
    .leave (.error (.finish, s.failIn "deflate failed"))
  else
    let (w, world) := s.world.write cfg.env s.outbuf
    let s := { s with world := world }
    if w ≠ some s.outbuf.length then
      .leave (.error (.finishWrite, s.failOut "write"))
    else
      let s := { s with outTot := s.outTot + s.outbuf.length, outbuf := [] }
      if step.code = .streamEnd then .leave (.ok s) else .again s

def osCode : UInt8 := 3

/-- The ten bytes of the header, and the name. -/
def headerBytes (numflag : Nat) (origname : Bytes) (mtime : UInt32) : Bytes :=
  [0x1f, 0x8b, 8, if origname ≠ [] then 0x08 else 0] ++ le 4 mtime.toNat ++
    [if numflag = 1 then 4 else if numflag = 9 then 2 else 0, osCode] ++ origname

/-- What lies before `next_out` at the start; `none` when the header does not fit. With less
than ten bytes no header is written, but a name still moves `next_out`. -/
def outbufStart (cfg : CConfig σ) (origname : Bytes) (mtime : UInt32) : Option Bytes :=
  if 10 ≤ cfg.buflen.size then
    if cfg.buflen.size ≤ 10 + origname.length then none
    else some (headerBytes cfg.numflag origname mtime ++ if origname ≠ [] then [0] else [])
  else if cfg.buflen.size = 0 then none
  else some (if origname ≠ [] then [cfg.env.junk] else [])

/-- The trailer and its `write`. -/
def writeTrailer (cfg : CConfig σ) (s : CState σ) : CEnd σ :=
  if cfg.buflen.size < 8 then
    .exits 2 { s.world with warnings := s.world.warnings ++ ["snprintf"] }
  else
    let bytes := le 4 s.crc.toNat ++ le 4 (s.inTot % 2 ^ 32).toNat
    let (w, world) := s.world.write cfg.env bytes
    let s := { s with world := world }
    if w ≠ some 8 then .out (.trailerWrite (w.getD 0)) (s.failIn "write")
    else .out .done { s with outTot := s.outTot + 8 }

/-- `gz_compress` from `deflateInit2` on, with `fuel` rounds for each loop. -/
def deflateFile (cfg : CConfig σ) (outbuf : Bytes) (w : World) (fuel : Nat) :
    Option (CEnd σ) :=
  let (error, strm) := cfg.engine.deflateInit2 cfg.engine.zero cfg.numflag
  let s : CState σ :=
    { strm := strm, nextIn := [], outbuf := outbuf, crc := 0, inTot := 0, outTot := 0, world := w }
  if error ≠ .ok then
    some (.out .deflateInit2 (s.failIn "deflateInit2 failed"))
  else do
    match ← run (feedRound cfg) fuel { s with crc := crc32Null } with
    | .error (site, s) => some (.out site s)
    | .ok s =>
      match ← run (finishRound cfg) fuel s with
      | .error (site, s) => some (.out site s)
      | .ok s =>
        let (error, strm) := cfg.engine.deflateEnd s.strm
        let s := { s with strm := strm }
        if error ≠ .ok then some (.out .deflateEnd (s.failIn "deflateEnd failed"))
        else some (writeTrailer cfg s)

/-- The name and the time that go into the header: none with `-n`. -/
def CConfig.name (cfg : CConfig σ) (origname : Bytes) : Bytes :=
  if cfg.nflag then [] else origname

def CConfig.time (cfg : CConfig σ) (mtime : UInt32) : UInt32 :=
  if cfg.nflag then 0 else mtime

/-- `gz_compress(in, out, gsizep, origname, mtime)` -/
def compressEnd (cfg : CConfig σ) (origname : Bytes) (mtime : UInt32) (w : World) (fuel : Nat) :
    Option (CEnd σ) :=
  if cfg.env.mallocs = false then
    some (.exits 2 { w with warnings := w.warnings ++ ["malloc failed"] })
  else
    match outbufStart cfg (cfg.name origname) (cfg.time mtime) with
    | none => some (.exits 2 { w with warnings := w.warnings ++ ["snprintf"] })
    | some outbuf => deflateFile cfg outbuf w fuel

/-- What `gz_compress` returns, and the value for `*gsizep`. -/
structure CResult where
  inTot : Int
  outTot : Int
  deriving DecidableEq, Repr

/-- What the caller sees of an end. -/
def CEnd.ran : CEnd σ → Ran CResult
  | .out _ s => .returns ⟨s.inTot, s.outTot⟩ s.world
  | .exits status w => .exits status w

def gzCompress (cfg : CConfig σ) (origname : Bytes) (mtime : UInt32) (w : World) (fuel : Nat) :
    Option (Ran CResult) :=
  (compressEnd cfg origname mtime w fuel).map CEnd.ran

end CheriGzip.Gzip
