import CheriGzip.Libz.Deflate

/-!
# lzsandbox_a.c

`deflate_wrapper` and `crc32_wrapper` with the copying path, and with the shared memory of
`GZ_SHMEM`. A request and its reply reach the other side as they were sent.
-/
namespace CheriGzip.Libz

variable {σ : Type}

/-- How a call fails to come back: by `err` or `errx` of one of the two processes, or by an
access outside of the memory that the sandbox has for the call. -/
inductive Stop where
  | err
  | outside
  deriving DecidableEq, Repr

/-- What a call leaves: the return value, the caller's stream and the caller's buffers. -/
abbrev Answer (σ : Type) := Except Stop (Int × ZStream σ × Mem)

/-- The sizes of `struct host_lz_deflate_req` and `struct host_lz_deflate_rep`. -/
structure Abi where
  sizeofReq : Nat
  sizeofRep : Nat

/-- What decides a call besides its arguments: what `repsz` holds on entry, where the sandbox
has the request and the output buffer, and what that buffer holds fresh from `malloc`. -/
structure Place where
  repsz : UInt64
  buffer : Int
  malloc : Int
  fresh : Nat → Bytes
  buffer_pos : 0 < buffer
  malloc_ne : malloc ≠ 0
  fresh_length : ∀ n, (fresh n).length = n

/-! ## The copying path -/

/-- `sandbox_lz_deflate_buffer`: the reply's value and stream, and the output buffer. -/
def sandboxLzDeflateBuffer (E : Deflate σ) (abi : Abi) (place : Place) (req : ZStream σ)
    (flush : Int) (data : Bytes) : Except Stop (Int × ZStream σ × Bytes) :=
  if abi.sizeofReq + data.length ≠ abi.sizeofReq + req.availIn then .error .err
  else
    let nextIn := place.buffer + abi.sizeofReq
    let nextOut := place.malloc
    match zlibDeflate E { req with nextIn := nextIn, nextOut := nextOut } flush
      ⟨⟨nextIn, data⟩, ⟨nextOut, place.fresh req.availOut⟩⟩ with
    | none => .error .outside
    | some (ret, strm, mem) =>
      let rep := { strm with
        nextIn := req.nextIn + (strm.nextIn - nextIn)
        nextOut := req.nextOut + (strm.nextOut - nextOut) }
      .ok (ret, rep, mem.output.bytes)

/-- `lz_deflate_insandbox` -/
def lzDeflateInsandbox (E : Deflate σ) (abi : Abi) (place : Place) (strm : ZStream σ)
    (flush : Int) (mem : Mem) : Answer σ :=
  let repsz := place.repsz + UInt64.ofNat abi.sizeofRep + UInt64.ofNat strm.availOut
  match mem.input.load strm.nextIn strm.availIn with
  | none => .error .err
  | some data =>
    match sandboxLzDeflateBuffer E abi place strm flush data with
    | .error stop => .error stop
    | .ok (ret, rep, bytes) =>
      -- The reply goes to `rep`, and all of the output buffer to `next_out`.
      match mem.output.store strm.nextOut bytes with
      | none => .error .err
      | some output =>
        if UInt64.ofNat (abi.sizeofRep + bytes.length) ≠ repsz then .error .err
        else .ok (ret, rep, { mem with output := output })

/-- `deflate_wrapper` -/
def deflateWrapper (E : Deflate σ) (abi : Abi) (place : Place) (strm : ZStream σ) (flush : Int)
    (mem : Mem) : Answer σ :=
  lzDeflateInsandbox E abi place strm flush mem

/-! ## Shared memory -/

def buflen : Nat := 65536

/-- The two regions of `sandbox_create`. -/
structure Shm where
  inbuf : Region
  outbuf : Region
  inbuf_length : inbuf.bytes.length = buflen
  outbuf_length : outbuf.bytes.length = buflen
  inbuf_ne : inbuf.base ≠ 0
  outbuf_ne : outbuf.base ≠ 0

/-- `memcpy(local_lcsp->inbuf, data, sz)` -/
def Shm.fill (shm : Shm) (data : Bytes) : Region :=
  ⟨shm.inbuf.base, written shm.inbuf.bytes 0 data⟩

/-- `lz_deflate_insandbox` and `sandbox_lz_deflate_buffer` with `GZ_SHMEM`. -/
def lzDeflateShmem (E : Deflate σ) (abi : Abi) (place : Place) (shm : Shm) (strm : ZStream σ)
    (flush : Int) (mem : Mem) : Answer σ :=
  let repsz := place.repsz + UInt64.ofNat abi.sizeofRep
  match mem.input.load strm.nextIn (min strm.availIn buflen) with
  | none => .error .err
  | some data =>
    let req := { strm with nextIn := shm.inbuf.base, nextOut := shm.outbuf.base }
    match zlibDeflate E req flush ⟨shm.fill data, shm.outbuf⟩ with
    | none => .error .outside
    | some (ret, rep, ⟨_, outbuf⟩) =>
      if UInt64.ofNat abi.sizeofRep ≠ repsz then .error .err
      else
        match mem.output.store strm.nextOut (outbuf.bytes.take (min strm.availOut buflen)) with
        | none => .error .err
        | some output =>
          .ok (ret, { rep with
            nextIn := rep.nextIn - shm.inbuf.base + strm.nextIn
            nextOut := rep.nextOut - shm.outbuf.base + strm.nextOut },
            { mem with output := output })

/-! ## crc32 -/

/-- `crc32_wrapper`, with `zlib_crc32` as a function of the `len` bytes at `buf`. -/
def crc32Wrapper (crc32 : UInt64 → Bytes → UInt64) (caller : Region) (crc : UInt64) (buf : Int)
    (len : Nat) : Except Stop UInt64 :=
  match caller.load buf len with
  | none => .error .err
  | some data => .ok (crc32 crc data)

/-- `crc32_wrapper` with `GZ_SHMEM`: `len` bytes at `inbuf`. -/
def crc32Shmem (crc32 : UInt64 → Bytes → UInt64) (shm : Shm) (caller : Region) (crc : UInt64)
    (buf : Int) (len : Nat) : Except Stop UInt64 :=
  match caller.load buf (min len buflen) with
  | none => .error .err
  | some data =>
    match (shm.fill data).load shm.inbuf.base len with
    | none => .error .outside
    | some data => .ok (crc32 crc data)

/-! ## The caller's memory -/

/-- The memory at the stream's pointers: nothing at `Z_NULL`, else as much as the counters
say. -/
structure Owns (mem : Mem) (strm : ZStream σ) : Prop where
  inBase : mem.input.base = strm.nextIn
  outBase : mem.output.base = strm.nextOut
  input : mem.input.bytes.length = if strm.nextIn = 0 then 0 else strm.availIn
  output : mem.output.bytes.length = if strm.nextOut = 0 then 0 else strm.availOut

end CheriGzip.Libz
