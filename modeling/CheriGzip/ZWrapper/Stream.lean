import Mathlib.Algebra.Group.Int.Defs
import Mathlib.Algebra.GroupWithZero.Nat

/-!
# The stream calls of the CHERI wrapper

`zwrapper.c` keeps zlib in a sandbox. The application's `z_stream` holds plain pointers;
each call builds a shadow `z_stream_cap` whose pointers are capabilities, shares it with
the sandbox, copies back whatever the sandbox left there, and checks the two buffers.
-/
namespace CheriGzip.ZWrapper

/-- A capability as `subcap` sees it. The null capability has base 0 and length 0. -/
structure Cap where
  base : UInt64
  len : UInt64
  deriving DecidableEq, Repr

def Cap.null : Cap := ⟨0, 0⟩

/-- `(void *)c`: the default data capability starts at address 0. -/
def Cap.toPtr (c : Cap) : UInt64 := c.base

/-- `cheri_ptr` and `cheri_ptrperm`; permissions play no part in the check. -/
def cheriPtr (ptr : UInt64) (len : UInt32) : Cap := ⟨ptr, len.toUInt64⟩

/-- The fields of `z_stream_nocap` and `z_stream_cap` that the wrapper copies; `ptr` is the
type of the two buffer pointers. Handles and function pointers are words, 0 for `Z_NULL`. -/
structure ZStream (ptr : Type) where
  nextIn : ptr
  availIn : UInt32
  totalIn : UInt64
  nextOut : ptr
  availOut : UInt32
  totalOut : UInt64
  state : UInt64
  zalloc : UInt64
  zfree : UInt64
  opaqueArg : UInt64
  dataType : Int
  adler : UInt64
  reserved : UInt64
  deriving DecidableEq, Repr

/-- The operations of `lzsandbox-helper.h`. -/
inductive LzOp where
  | deflateInit2
  | deflate
  | deflateEnd
  | crc32
  | inflateInit2
  | inflate
  | inflateEnd
  | deflateReset
  | inflateReset
  deriving DecidableEq, Repr

/-- What a sandbox does with an invocation on a shared stream: the stream it leaves there
and the value it returns. -/
abbrev Sandbox := LzOp → Int → ZStream Cap → ZStream Cap × Int

/-- `s` is a subcapability of `b`, by the wrapper's own comparison. -/
def subcap (s b : Cap) : Bool :=
  (s.toPtr == 0 && b.toPtr == 0) ||
    (decide (s.base ≥ b.base) && decide (s.base ≤ b.base + b.len) &&
      decide (s.len ≤ b.len - (s.base - b.base)))

/-- The capability made of a buffer field: `ptr ? cheri_ptr(ptr, avail) : ptr`. -/
def bufCap (ptr : UInt64) (avail : UInt32) : Cap :=
  if ptr ≠ 0 then cheriPtr ptr avail else .null

/-- The shadow stream as `deflate` and `inflate` fill it in before the invocation. -/
def shadow (strm : ZStream UInt64) : ZStream Cap where
  nextIn := bufCap strm.nextIn strm.availIn
  nextOut := bufCap strm.nextOut strm.availOut
  availIn := strm.availIn
  availOut := strm.availOut
  totalIn := strm.totalIn
  totalOut := strm.totalOut
  state := strm.state
  dataType := strm.dataType
  adler := strm.adler
  reserved := strm.reserved
  zalloc := strm.zalloc
  zfree := strm.zfree
  opaqueArg := strm.opaqueArg

/-- The application's stream after the copy back from the shadow stream. -/
def copyBack (cap : ZStream Cap) : ZStream UInt64 where
  nextIn := cap.nextIn.toPtr
  nextOut := cap.nextOut.toPtr
  availIn := cap.availIn
  availOut := cap.availOut
  totalIn := cap.totalIn
  totalOut := cap.totalOut
  state := cap.state
  dataType := cap.dataType
  adler := cap.adler
  reserved := cap.reserved
  zalloc := cap.zalloc
  zfree := cap.zfree
  opaqueArg := cap.opaqueArg

/-- `deflate` and `inflate` differ in the operation they invoke only. `none` is the
`exit(1)` after "invalid pointer or length returned by sandbox". -/
def streamCall (op : LzOp) (sandbox : Sandbox) (strm : ZStream UInt64) (flush : Int) :
    Option (ZStream UInt64 × Int) :=
  let before := shadow strm
  let (cap, rc) := sandbox op flush before
  let after := copyBack cap
  if !subcap (bufCap after.nextIn after.availIn) before.nextIn ||
      !subcap (bufCap after.nextOut after.availOut) before.nextOut then
    none
  else
    some (after, rc)

def deflate (sandbox : Sandbox) (strm : ZStream UInt64) (flush : Int) :
    Option (ZStream UInt64 × Int) :=
  streamCall .deflate sandbox strm flush

def inflate (sandbox : Sandbox) (strm : ZStream UInt64) (flush : Int) :
    Option (ZStream UInt64 × Int) :=
  streamCall .inflate sandbox strm flush

/-- One call the application makes: which of the two, with which flush value, and the
sandbox as it behaves during this call. -/
inductive StreamCall where
  | deflate (sandbox : Sandbox) (flush : Int)
  | inflate (sandbox : Sandbox) (flush : Int)

def StreamCall.perform (strm : ZStream UInt64) : StreamCall → Option (ZStream UInt64 × Int)
  | .deflate sandbox flush => ZWrapper.deflate sandbox strm flush
  | .inflate sandbox flush => ZWrapper.inflate sandbox strm flush

/-- A sequence of calls, each on the stream the one before returned. -/
def runCalls : List StreamCall → ZStream UInt64 → Option (ZStream UInt64)
  | [], strm => some strm
  | call :: calls, strm => (call.perform strm).bind fun (strm', _) => runCalls calls strm'

end CheriGzip.ZWrapper
