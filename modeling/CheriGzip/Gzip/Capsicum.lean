import CheriGzip.Gzip.ExitValue
import CheriGzip.Gzip.File
import CheriGzip.Gzip.Libcheri

/-!
# gzsandbox_a.c

The Capsicum build: the host's wrappers, which put the arguments into a request, and the sandbox,
a fork of the process that takes them out, calls the codec and sends its results back.
-/
namespace CheriGzip.Gzip.Capsicum

open Libcheri (Globals System)

variable {σ τ : Type}

/-! ## Requests and replies -/

/-- A C string shorter than `PATH_MAX`. -/
structure CName where
  bytes : Path
  short : bytes.length < pathMax
  text : 0 ∉ bytes

/-- A name in a message. -/
def shown (path : Path) : String := String.ofList (path.map fun b => Char.ofNat b.toNat)

/-- `strlcpy` into an array of `PATH_MAX` zeros. -/
def strlcpy (name : Path) : Bytes :=
  name.take (pathMax - 1) ++ List.replicate (pathMax - min (pathMax - 1) name.length) 0

/-- The C string in an array. -/
def cstring (field : Bytes) : Path := field.takeWhile (· ≠ 0)

/-- The value of an `off_t`. -/
def offT (x : Int) : Int := x.bmod (2 ^ 64)

/-- An `off_t` in memory. -/
def offTBytes (x : Int) : Bytes := le 8 (x % 2 ^ 64).toNat

def ofOffTBytes (bs : Bytes) : Int := offT (ofLe bs)

/-- `struct host_gz_compress_req` -/
structure CompressReq where
  origname : Path
  numflag : Nat
  mtime : UInt32

def CompressReq.encode (req : CompressReq) : Bytes :=
  strlcpy req.origname ++ le 4 req.numflag ++ le 4 req.mtime.toNat

def CompressReq.decode (bs : Bytes) : CompressReq where
  origname := cstring (slice bs 0 pathMax)
  numflag := ofLe (slice bs pathMax 4)
  mtime := UInt32.ofNat (ofLe (slice bs (pathMax + 4) 4))

def CompressReq.size : Nat := pathMax + 8

/-- `struct host_gz_uncompress_req` -/
structure UncompressReq where
  prelen : Nat
  filename : Path

def UncompressReq.encode (req : UncompressReq) : Bytes := le 8 req.prelen ++ strlcpy req.filename

def UncompressReq.decode (bs : Bytes) : UncompressReq where
  prelen := ofLe (slice bs 0 8)
  filename := cstring (slice bs 8 pathMax)

def UncompressReq.size : Nat := 8 + pathMax

/-- `struct host_gz_compress_rep` and `struct host_gz_uncompress_rep` -/
structure Rep where
  gsize : Int
  retval : Int
  deriving DecidableEq, Repr

def Rep.encode (rep : Rep) : Bytes := offTBytes rep.gsize ++ offTBytes rep.retval

def Rep.decode (bs : Bytes) : Rep where
  gsize := ofOffTBytes (slice bs 0 8)
  retval := ofOffTBytes (slice bs 8 8)

def Rep.size : Nat := 16

inductive Op where
  | gzCompress
  | gzUncompress
  deriving DecidableEq, Repr

/-! ## The sandbox -/

/-- The sandbox of a process that forked with these globals. The level comes with each request,
and the other globals stay as they were. -/
structure Sandbox (forked : Globals) where
  numflag : Nat
  exitValue : Nat

variable {forked : Globals}

def Sandbox.globals (sandbox : Sandbox forked) : Globals :=
  { forked with numflag := sandbox.numflag }

/-- What becomes of a request. -/
inductive Answer (forked : Globals) where
  | sends (rep : Bytes) (sandbox : Sandbox forked) (w : World)
  | exits (status : Nat) (w : World)
  /-- Bytes are read that are not the request's. -/
  | outside

/-- The sandbox shares the descriptors with the host, but not `exit_value`. -/
def Sandbox.world (sandbox : Sandbox forked) (w : World) : World := w.exitWith sandbox.exitValue

def Sandbox.answer (sandbox : Sandbox forked) (w : World) : Ran Rep → Answer forked
  | .returns rep w' =>
    .sends rep.encode { sandbox with exitValue := w'.exitValue } (w'.exitWith w.exitValue)
  | .exits status w' => .exits status (w'.exitWith w.exitValue)

/-- `sandbox_gz_compress_buffer` -/
def sandboxGzCompressBuffer (sys : System σ τ) (sandbox : Sandbox forked) (buffer : Bytes)
    (w : World) (fuel : Nat) : Option (Answer forked) :=
  if buffer.length ≠ CompressReq.size then some (.exits 255 w)
  else
    let req := CompressReq.decode buffer
    let sandbox := { sandbox with numflag := req.numflag }
    let ran :=
      gzCompress (sys.compress sandbox.globals) req.origname req.mtime (sandbox.world w) fuel
    ran.map fun ran => sandbox.answer w (ran.map fun r => ⟨r.outTot, r.inTot⟩)

/-- `sandbox_gz_uncompress_buffer` -/
def sandboxGzUncompressBuffer (sys : System σ τ) (sandbox : Sandbox forked) (buffer : Bytes)
    (w : World) (fuel : Nat) : Option (Answer forked) :=
  if buffer.length ≠ UncompressReq.size then some (.exits 255 w)
  else
    let req := UncompressReq.decode buffer
    -- `pre` points behind the request, where the buffer ends. `gz_uncompress` looks at the first
    -- of the `avail_in` bytes at once, unless there are none or `malloc` fails before.
    if sys.env.mallocs = true ∧ req.prelen % 2 ^ 32 ≠ 0 then some .outside
    else
      let ran := gzUncompress (sys.uncompress sandbox.globals (shown req.filename))
        (List.replicate req.prelen 0) (sandbox.world w) fuel
      ran.map fun ran => sandbox.answer w (ran.map fun r => ⟨r.gsize, r.outTot⟩)

/-- A round of `gzsandbox`. -/
def gzsandbox (sys : System σ τ) (sandbox : Sandbox forked) (op : Op) (buffer : Bytes) (w : World)
    (fuel : Nat) : Option (Answer forked) :=
  match op with
  | .gzCompress => sandboxGzCompressBuffer sys sandbox buffer w fuel
  | .gzUncompress => sandboxGzUncompressBuffer sys sandbox buffer w fuel

/-! ## The host -/

/-- The descriptors that `cap_new` is called on. -/
inductive Fd where
  | infd
  | outfd
  deriving DecidableEq, Repr

/-- The answers of libcapsicum and of the system. -/
structure Calls where
  lchStartfn : Int
  capNew : Fd → Int

/-- The calls succeed. -/
structure Calls.Succeed (calls : Calls) : Prop where
  lchStartfn : 0 ≤ calls.lchStartfn
  capNew : ∀ fd, calls.capNew fd ≠ -1

/-- The globals of gzip, which main sets before the first file, and the sandbox, once
`gzsandbox_initialized`. -/
structure Host where
  globals : Globals
  sandbox : Option (Sandbox globals)

/-- Before the first file. -/
def Host.start (globals : Globals) : Host := ⟨globals, none⟩

/-- `gzsandbox_initialize`, which leaves the sandbox; `none` for `err(-1, …)`. -/
def gzsandboxInitialize (calls : Calls) (host : Host) (w : World) : Option (Sandbox host.globals) :=
  match host.sandbox with
  | some sandbox => some sandbox
  | none => if calls.lchStartfn < 0 then none else some ⟨host.globals.numflag, w.exitValue⟩

/-- What a codec's caller gets: the value and `*gsizep`. -/
structure Result where
  retval : Int
  gsize : Int
  deriving DecidableEq, Repr

/-- How a wrapper ends. -/
inductive End where
  | returns (r : Result) (w : World)
  | exits (status : Nat) (w : World)
  | outside

/-- `lch_rpc_rights_fix`, which delivers the first `reqcount` buffers, and what the callers do
with its answer. -/
def rpc (sys : System σ τ) (sandbox : Sandbox forked) (op : Op) (req : List Bytes) (reqcount : Nat)
    (w : World) (fuel : Nat) : Option End × Sandbox forked :=
  match gzsandbox sys sandbox op (req.take reqcount).flatten w fuel with
  | none => (none, sandbox)
  | some (.sends rep sandbox w) =>
    if rep.length ≠ Rep.size then (some (.exits 255 w), sandbox)
    else (some (.returns ⟨(Rep.decode rep).retval, (Rep.decode rep).gsize⟩ w), sandbox)
  | some (.exits _ w) => (some (.exits 255 w), sandbox)
  | some .outside => (some .outside, sandbox)

/-- `gz_compress_insandbox` -/
def gzCompressInsandbox (sys : System σ τ) (calls : Calls) (sandbox : Sandbox forked)
    (origname : Path) (mtime : UInt32) (w : World) (fuel : Nat) : Option End × Sandbox forked :=
  -- The host's `numflag` is what it was at the fork.
  let req : CompressReq := ⟨origname, forked.numflag, mtime⟩
  if calls.capNew .infd = -1 ∨ calls.capNew .outfd = -1 then (some (.exits 255 w), sandbox)
  else rpc sys sandbox .gzCompress [req.encode] 1 w fuel

/-- `gz_uncompress_insandbox`. There are two buffers, and one is sent. -/
def gzUncompressInsandbox (sys : System σ τ) (calls : Calls) (sandbox : Sandbox forked)
    (pre : Bytes) (filename : Path) (w : World) (fuel : Nat) : Option End × Sandbox forked :=
  let req : UncompressReq := ⟨pre.length, filename⟩
  if calls.capNew .infd = -1 ∨ calls.capNew .outfd = -1 then (some (.exits 255 w), sandbox)
  else rpc sys sandbox .gzUncompress [req.encode, pre] 1 w fuel

/-- `gz_compress_wrapper` -/
def gzCompressWrapper (sys : System σ τ) (calls : Calls) (host : Host) (origname : Path)
    (mtime : UInt32) (w : World) (fuel : Nat) : Option End × Host :=
  match gzsandboxInitialize calls host w with
  | none => (some (.exits 255 w), host)
  | some sandbox =>
    let (ended, sandbox) := gzCompressInsandbox sys calls sandbox origname mtime w fuel
    (ended, ⟨host.globals, some sandbox⟩)

/-- `gz_uncompress_wrapper` -/
def gzUncompressWrapper (sys : System σ τ) (calls : Calls) (host : Host) (pre : Bytes)
    (filename : Path) (w : World) (fuel : Nat) : Option End × Host :=
  match gzsandboxInitialize calls host w with
  | none => (some (.exits 255 w), host)
  | some sandbox =>
    let (ended, sandbox) := gzUncompressInsandbox sys calls sandbox pre filename w fuel
    (ended, ⟨host.globals, some sandbox⟩)

end CheriGzip.Gzip.Capsicum
