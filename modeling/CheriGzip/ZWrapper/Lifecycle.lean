import CheriGzip.ZWrapper.Zlib

/-!
# The life of a stream in the wrapper

The calls of an application on one stream, run on zlib itself and through `zwrapper.c` with a
sandbox that runs the same functions.
-/
namespace CheriGzip.ZWrapper

variable {δ ι : Type}

/-! ## The wrapper's functions -/

/-- `memset(&strm_cap, 0, sizeof(strm_cap))` -/
def cleared : ZStream Cap where
  nextIn := .null
  availIn := 0
  totalIn := 0
  nextOut := .null
  availOut := 0
  totalOut := 0
  state := 0
  zalloc := 0
  zfree := 0
  opaqueArg := 0
  dataType := 0
  adler := 0
  reserved := 0

/-- The shadow stream of the calls that end or reset a stream. -/
def closing (strm : ZStream UInt64) : ZStream Cap :=
  { shadow strm with nextIn := .null, nextOut := .null }

/-- What `deflateInit2_` and `inflateInit2_` copy back. -/
def copyInit (strm : ZStream UInt64) (cap : ZStream Cap) : ZStream UInt64 :=
  { strm with
    state := cap.state
    dataType := cap.dataType
    adler := cap.adler
    reserved := cap.reserved
    zalloc := cap.zalloc
    zfree := cap.zfree
    opaqueArg := cap.opaqueArg }

/-- `deflateInit2_` and `inflateInit2_`, by what the sandbox runs on the cleared stream. -/
def wrapInit (strm : ZStream UInt64) (run : ZStream Cap → Option (Result δ ι Cap)) :
    Option (Result δ ι UInt64) := do
  let (rc, cap, heap) ← run cleared
  some (rc, copyInit strm cap, heap)

/-- The wrappers that copy nothing back. -/
def wrapClose (strm : ZStream UInt64) (run : ZStream Cap → Option (Result δ ι Cap)) :
    Option (Result δ ι UInt64) := do
  let (rc, _, heap) ← run (closing strm)
  some (rc, strm, heap)

/-- `deflate` and `inflate`. -/
def wrapStream (op : LzOp) (strm : ZStream UInt64) (flush : Int)
    (run : ZStream Cap → Option (Result δ ι Cap)) : Option (Result δ ι UInt64) := do
  let (rc, cap, heap) ← run (shadow strm)
  let (strm, rc) ← streamCall op (fun _ _ _ => (cap, rc)) strm flush
  some (rc, strm, heap)

/-! ## The calls of an application -/

inductive Op where
  | deflateInit2 (params : DeflateParams)
  | inflateInit2 (windowBits : Int)
  | deflate (flush : Int)
  | inflate (flush : Int)
  | deflateReset
  | inflateReset
  | deflateEnd
  | inflateEnd
  deriving DecidableEq, Repr

/-- A call, with the buffers that the application lets the stream point to. -/
structure AppCall where
  op : Op
  nextIn : UInt64
  availIn : UInt32
  nextOut : UInt64
  availOut : UInt32
  around : Around
  alloc : Alloc
  placedIn : nextIn.toNat + availIn.toNat < 2 ^ 64
  placedOut : nextOut.toNat + availOut.toNat < 2 ^ 64

/-- The stream that the application passes. -/
def AppCall.passed (call : AppCall) (strm : ZStream UInt64) : ZStream UInt64 :=
  { strm with
    nextIn := call.nextIn
    availIn := call.availIn
    nextOut := call.nextOut
    availOut := call.availOut }

/-- The call on zlib. -/
def AppCall.plain (call : AppCall) (Z : Zlib δ ι) (heap : Heap δ ι) (strm : ZStream UInt64) :
    Option (Result δ ι UInt64) :=
  match call.op with
  | .deflateInit2 params => deflateInit2C Z heap strm params call.alloc.plain call.alloc.tables
  | .inflateInit2 windowBits => inflateInit2C Z heap strm windowBits call.alloc.plain
  | .deflate flush => deflateC Z heap strm flush call.around
  | .inflate flush => (inflateC Z heap strm flush call.around).map Prod.fst
  | .deflateReset => deflateResetC Z heap strm
  | .inflateReset => inflateResetC Z heap strm
  | .deflateEnd => deflateEndC heap strm
  | .inflateEnd => inflateEndC heap strm

/-- The call through the wrapper. -/
def AppCall.boxed (call : AppCall) (Z : Zlib δ ι) (heap : Heap δ ι) (strm : ZStream UInt64) :
    Option (Result δ ι UInt64) :=
  match call.op with
  | .deflateInit2 params =>
    wrapInit strm fun cap => deflateInit2C Z heap cap params call.alloc.boxed call.alloc.tables
  | .inflateInit2 windowBits =>
    wrapInit strm fun cap => inflateInit2C Z heap cap windowBits call.alloc.boxed
  | .deflate flush =>
    wrapStream .deflate strm flush fun cap => deflateC Z heap cap flush call.around
  | .inflate flush =>
    wrapStream .inflate strm flush fun cap => do
      -- The capability for `next_out` has `CHERI_PERM_STORE` without `CHERI_PERM_LOAD`.
      let (result, loads) ← inflateC Z heap cap flush call.around
      if loads then none else some result
  | .deflateReset => wrapClose strm fun cap => deflateResetC Z heap cap
  | .inflateReset => wrapClose strm fun cap => inflateResetC Z heap cap
  | .deflateEnd => wrapClose strm fun cap => deflateEndC heap cap
  | .inflateEnd => wrapClose strm fun cap => inflateEndC heap cap

/-- What the application sees of a stream. -/
structure View where
  nextIn : UInt64
  availIn : UInt32
  nextOut : UInt64
  availOut : UInt32
  totalIn : UInt64
  totalOut : UInt64
  adler : UInt64
  dataType : Int
  noState : Bool
  deriving DecidableEq, Repr

def ZStream.view (strm : ZStream UInt64) : View where
  nextIn := strm.nextIn
  availIn := strm.availIn
  nextOut := strm.nextOut
  availOut := strm.availOut
  totalIn := strm.totalIn
  totalOut := strm.totalOut
  adler := strm.adler
  dataType := strm.dataType
  noState := strm.state == 0

/-- Call by call, what is returned and what is seen; the run ends with a call that has no
result. -/
def observe (step : AppCall → Heap δ ι → ZStream UInt64 → Option (Result δ ι UInt64)) :
    Heap δ ι → ZStream UInt64 → List AppCall → List (Int × View)
  | _, _, [] => []
  | heap, strm, call :: calls =>
    match step call heap (call.passed strm) with
    | none => []
    | some (rc, strm, heap) => (rc, strm.view) :: observe step heap strm calls

/-- The run on zlib. -/
def plainRun (Z : Zlib δ ι) : Heap δ ι → ZStream UInt64 → List AppCall → List (Int × View) :=
  observe fun call => call.plain Z

/-- The run through the wrapper. -/
def boxedRun (Z : Zlib δ ι) : Heap δ ι → ZStream UInt64 → List AppCall → List (Int × View) :=
  observe fun call => call.boxed Z

end CheriGzip.ZWrapper
