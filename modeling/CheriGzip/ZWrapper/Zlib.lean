import CheriGzip.Lib.Bytes
import CheriGzip.ZWrapper.Stream
import Mathlib.Logic.Function.Basic

/-!
# The stream functions of zlib

`deflate.c` and `inflate.c` up to where the compressed data begins. The same functions run on
the application's plain pointers and, in the sandbox, on capabilities.
-/
namespace CheriGzip.ZWrapper

/-- What zlib does with a buffer pointer. -/
class Pointer (ptr : Type) where
  isNull : ptr → Bool
  advance : ptr → UInt32 → ptr

instance : Pointer UInt64 where
  isNull p := p == 0
  advance p n := p + n.toUInt64

instance : Pointer Cap where
  isNull c := c.toPtr == 0
  advance c n := ⟨c.base + n.toUInt64, c.len - n.toUInt64⟩

/-- `s->status` of a deflate state. -/
inductive Status where
  | init
  | extra
  | name
  | comment
  | hcrc
  | busy
  | finish
  deriving DecidableEq, Repr

/-- A `deflate_state`; `rest` is what only the compressor looks at. -/
structure DeflateState (δ : Type) where
  wrap : Int
  status : Status
  rest : δ

/-- An `inflate_state`. -/
structure InflateState (ι : Type) where
  wrap : Int
  rest : ι

/-- What `strm->state` points to. -/
inductive Obj (δ ι : Type) where
  | deflate (s : DeflateState δ)
  | inflate (s : InflateState ι)

/-- The states that an address space holds, by address. -/
abbrev Heap (δ ι : Type) := UInt64 → Option (Obj δ ι)

/-- The fields that the compressor and the decompressor read and write. -/
structure Counters where
  availIn : UInt32
  availOut : UInt32
  totalIn : UInt64
  totalOut : UInt64
  adler : UInt64
  dataType : Int

/-- What lies at `next_in` and `next_out` when a call begins, and whether `ZALLOC` of a window
comes out. -/
structure Around where
  input : Bytes
  output : Bytes
  window : Bool

/-- What a call does to a stream that passed the checks on entry. -/
structure Outcome (σ : Type) where
  ret : Int
  state : σ
  consumed : UInt32
  produced : UInt32
  totalIn : UInt64
  totalOut : UInt64
  adler : UInt64
  dataType : Int

/-- The parameters of `deflateInit2`. -/
structure DeflateParams where
  level : Int
  method : Int
  windowBits : Int
  memLevel : Int
  strategy : Int
  deriving DecidableEq, Repr

/-- The rest of zlib. A body is `none` where the call touches memory outside its two buffers;
that of inflate says also whether the call loads from what lies at `next_out`. -/
structure Zlib (δ ι : Type) where
  zcalloc : UInt64
  zcfree : UInt64
  deflateNew : DeflateParams → δ
  deflateClear : δ → δ
  deflateBody : DeflateState δ → Int → Counters → Around → Option (Outcome (DeflateState δ))
  inflateNew : Int → ι
  inflateClear : ι → ι
  inflateBody : InflateState ι → Int → Counters → Around → Option (Outcome (InflateState ι) × Bool)
  zcalloc_ne : zcalloc ≠ 0
  zcfree_ne : zcfree ≠ 0
  deflate_bounds : ∀ {s flush counters around out},
    deflateBody s flush counters around = some out →
      out.consumed ≤ counters.availIn ∧ out.produced ≤ counters.availOut
  inflate_bounds : ∀ {s flush counters around out loads},
    inflateBody s flush counters around = some (out, loads) →
      out.consumed ≤ counters.availIn ∧ out.produced ≤ counters.availOut

def zOk : Int := 0
def zStreamError : Int := -2
def zDataError : Int := -3
def zMemError : Int := -4
def zBufError : Int := -5
def zFinish : Int := 4
def zBlock : Int := 5
def zUnknown : Int := 2

/-- What `ZALLOC` returns for the state during a call in the application's address space and in
the sandbox, `Z_NULL` in both or in neither, and whether deflate gets its other tables. -/
structure Alloc where
  plain : UInt64
  boxed : UInt64
  tables : Bool
  both : plain = 0 ↔ boxed = 0

section

variable {δ ι ptr : Type}

/-- What a function returns and leaves. In place of a result, `none` is undefined behaviour: a
state that is not there or of the other kind, or an access outside of the buffers. -/
abbrev Result (δ ι ptr : Type) := Int × ZStream ptr × Heap δ ι

def ZStream.counters (strm : ZStream ptr) : Counters :=
  ⟨strm.availIn, strm.availOut, strm.totalIn, strm.totalOut, strm.adler, strm.dataType⟩

/-- The default allocation functions. -/
def ZStream.withAlloc (Z : Zlib δ ι) (strm : ZStream ptr) : ZStream ptr :=
  { strm with
    zalloc := if strm.zalloc = 0 then Z.zcalloc else strm.zalloc
    opaqueArg := if strm.zalloc = 0 then 0 else strm.opaqueArg
    zfree := if strm.zfree = 0 then Z.zcfree else strm.zfree }

/-- The stream behind an outcome. -/
def Outcome.strm {σ : Type} [Pointer ptr] (out : Outcome σ) (strm : ZStream ptr) : ZStream ptr :=
  { strm with
    nextIn := Pointer.advance strm.nextIn out.consumed
    availIn := strm.availIn - out.consumed
    totalIn := out.totalIn
    nextOut := Pointer.advance strm.nextOut out.produced
    availOut := strm.availOut - out.produced
    totalOut := out.totalOut
    adler := out.adler
    dataType := out.dataType }

/-! ## deflate -/

/-- The value of `adler` behind `deflateResetKeep`. -/
def deflateAdler (wrap : Int) : UInt64 := if wrap = 2 then 0 else 1

/-- `deflateReset_c` with `deflateResetKeep`. -/
def deflateResetC (Z : Zlib δ ι) (heap : Heap δ ι) (strm : ZStream ptr) :
    Option (Result δ ι ptr) :=
  if strm.state = 0 ∨ strm.zalloc = 0 ∨ strm.zfree = 0 then some (zStreamError, strm, heap)
  else
    match heap strm.state with
    | some (.deflate s) =>
      -- `wrap` was made negative by a trailer.
      let wrap := if s.wrap < 0 then -s.wrap else s.wrap
      let status := if wrap ≠ 0 then .init else .busy
      some (zOk,
        { strm with totalIn := 0, totalOut := 0, dataType := zUnknown, adler := deflateAdler wrap },
        Function.update heap strm.state (some (.deflate ⟨wrap, status, Z.deflateClear s.rest⟩)))
    | _ => none

/-- `deflateEnd_c` -/
def deflateEndC (heap : Heap δ ι) (strm : ZStream ptr) : Option (Result δ ι ptr) :=
  if strm.state = 0 then some (zStreamError, strm, heap)
  else
    match heap strm.state with
    | some (.deflate s) =>
      some (if s.status = .busy then zDataError else zOk, { strm with state := 0 },
        Function.update heap strm.state none)
    | _ => none

/-- `wrap` and the window size that `windowBits` asks for. -/
def DeflateParams.wrapBits (p : DeflateParams) : Int × Int :=
  if p.windowBits < 0 then (0, -p.windowBits)
  else if p.windowBits > 15 then (2, p.windowBits - 16)
  else (1, p.windowBits)

/-- The level with `Z_DEFAULT_COMPRESSION` replaced. -/
def DeflateParams.realLevel (p : DeflateParams) : Int :=
  if p.level = -1 then 6 else p.level

/-- The parameters that `deflateInit2_c` refuses. -/
def DeflateParams.Refused (p : DeflateParams) : Prop :=
  p.memLevel < 1 ∨ p.memLevel > 9 ∨ p.method ≠ 8 ∨ p.wrapBits.2 < 8 ∨ p.wrapBits.2 > 15 ∨
    p.realLevel < 0 ∨ p.realLevel > 9 ∨ p.strategy < 0 ∨ p.strategy > 4

instance (p : DeflateParams) : Decidable p.Refused := by
  unfold DeflateParams.Refused
  infer_instance

/-- `deflateInit2_c`; `addr` is what `ZALLOC` returns for the state. -/
def deflateInit2C (Z : Zlib δ ι) (heap : Heap δ ι) (strm : ZStream ptr) (p : DeflateParams)
    (addr : UInt64) (tables : Bool) : Option (Result δ ι ptr) :=
  let strm := strm.withAlloc Z
  if p.Refused then some (zStreamError, strm, heap)
  else if addr = 0 then some (zMemError, strm, heap)
  else
    let made (status : Status) : Heap δ ι :=
      Function.update heap addr (some (.deflate ⟨p.wrapBits.1, status, Z.deflateNew p⟩))
    if tables then deflateResetC Z (made .init) { strm with state := addr }
    else do
      let (_, strm, heap) ← deflateEndC (made .finish) { strm with state := addr }
      some (zMemError, strm, heap)

/-- `deflate_c` -/
def deflateC [Pointer ptr] (Z : Zlib δ ι) (heap : Heap δ ι) (strm : ZStream ptr) (flush : Int)
    (around : Around) : Option (Result δ ι ptr) :=
  if strm.state = 0 ∨ flush > zBlock ∨ flush < 0 then some (zStreamError, strm, heap)
  else
    match heap strm.state with
    | some (.deflate s) =>
      if Pointer.isNull strm.nextOut ∨ (Pointer.isNull strm.nextIn ∧ strm.availIn ≠ 0) ∨
          (s.status = .finish ∧ flush ≠ zFinish) then
        some (zStreamError, strm, heap)
      else if strm.availOut = 0 then some (zBufError, strm, heap)
      else do
        let out ← Z.deflateBody s flush strm.counters around
        some (out.ret, out.strm strm,
          Function.update heap strm.state (some (.deflate out.state)))
    | _ => none

/-! ## inflate -/

/-- The value of `adler` behind `inflateResetKeep`. -/
def inflateAdler (wrap : Int) (adler : UInt64) : UInt64 :=
  if wrap = 0 then adler else if wrap % 2 = 1 then 1 else 0

/-- `inflateReset_c` with `inflateResetKeep`. -/
def inflateResetC (Z : Zlib δ ι) (heap : Heap δ ι) (strm : ZStream ptr) :
    Option (Result δ ι ptr) :=
  if strm.state = 0 then some (zStreamError, strm, heap)
  else
    match heap strm.state with
    | some (.inflate s) =>
      some (zOk,
        { strm with totalIn := 0, totalOut := 0, adler := inflateAdler s.wrap strm.adler },
        Function.update heap strm.state (some (.inflate ⟨s.wrap, Z.inflateClear s.rest⟩)))
    | _ => none

/-- `inflateEnd_c` -/
def inflateEndC (heap : Heap δ ι) (strm : ZStream ptr) : Option (Result δ ι ptr) :=
  if strm.state = 0 ∨ strm.zfree = 0 then some (zStreamError, strm, heap)
  else
    match heap strm.state with
    | some (.inflate _) =>
      some (zOk, { strm with state := 0 }, Function.update heap strm.state none)
    | _ => none

/-- `wrap` and the window size of `inflateReset2`. -/
def inflateWrapBits (windowBits : Int) : Int × Int :=
  if windowBits < 0 then (0, -windowBits)
  else (windowBits / 16 + 1, if windowBits < 48 then windowBits % 16 else windowBits)

/-- The window sizes that `inflateReset2` refuses. -/
def RefusedBits (windowBits : Int) : Prop :=
  (inflateWrapBits windowBits).2 ≠ 0 ∧
    ((inflateWrapBits windowBits).2 < 8 ∨ (inflateWrapBits windowBits).2 > 15)

instance (windowBits : Int) : Decidable (RefusedBits windowBits) := by
  unfold RefusedBits
  infer_instance

/-- `inflateInit2_c` with `inflateReset2`. -/
def inflateInit2C (Z : Zlib δ ι) (heap : Heap δ ι) (strm : ZStream ptr) (windowBits : Int)
    (addr : UInt64) : Option (Result δ ι ptr) :=
  let strm := strm.withAlloc Z
  if addr = 0 then some (zMemError, strm, heap)
  else if RefusedBits windowBits then
    -- The state is freed again.
    some (zStreamError, { strm with state := 0 }, Function.update heap addr none)
  else
    let (wrap, bits) := inflateWrapBits windowBits
    inflateResetC Z (Function.update heap addr (some (.inflate ⟨wrap, Z.inflateNew bits⟩)))
      { strm with state := addr }

/-- `inflate_c`, and whether it loads from what lies at `next_out`. -/
def inflateC [Pointer ptr] (Z : Zlib δ ι) (heap : Heap δ ι) (strm : ZStream ptr) (flush : Int)
    (around : Around) : Option (Result δ ι ptr × Bool) :=
  if strm.state = 0 ∨ Pointer.isNull strm.nextOut ∨
      (Pointer.isNull strm.nextIn ∧ strm.availIn ≠ 0) then
    some ((zStreamError, strm, heap), false)
  else
    match heap strm.state with
    | some (.inflate s) => do
      let (out, loads) ← Z.inflateBody s flush strm.counters around
      some ((out.ret, out.strm strm,
        Function.update heap strm.state (some (.inflate out.state))), loads)
    | _ => none

end

end CheriGzip.ZWrapper
