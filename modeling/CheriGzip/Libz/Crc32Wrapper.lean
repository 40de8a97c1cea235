import CheriGzip.Libz.Crc32
import CheriGzip.Libz.Shmem

/-!
# crc32_wrapper and zlib_crc32

The sandbox gets the bytes and computes with a pointer to its own copy of them, which is never
`Z_NULL`. `zlib_crc32` returns 0 for `Z_NULL`, whatever the check value is.
-/
namespace CheriGzip.Libz

variable (endian : Crc32.Endian) (place : Place) (sizeofReq : Nat)

/-- `zlib_crc32` as `sandbox_lz_crc32_buffer` calls it: the bytes are behind the request. -/
def sandboxCrc32 (crc : UInt64) (data : Bytes) : UInt64 :=
  Crc32.zlibCrc32 endian crc (place.buffer + sizeofReq) data

/-- `zlib_crc32` in the process that calls. -/
def Crc32Call.direct (call : Crc32Call) : UInt64 :=
  Crc32.zlibCrc32 endian call.crc call.buf call.caller.bytes

/-- `crc32_wrapper` -/
def Crc32Call.wrapped (call : Crc32Call) : Except Stop UInt64 :=
  crc32Wrapper (sandboxCrc32 endian place sizeofReq) call.caller call.crc call.buf call.len

/-- `crc = crc32_wrapper(crc, buf, len)` for one piece after the other. -/
def crc32Chain (crc : UInt64) : List Region → Except Stop UInt64
  | [] => .ok crc
  | piece :: pieces =>
    match crc32Wrapper (sandboxCrc32 endian place sizeofReq) piece crc piece.base
        piece.bytes.length with
    | .error stop => .error stop
    | .ok crc => crc32Chain crc pieces

/-- `crc32_wrapper(0, Z_NULL, 0)` first. -/
def crc32Pieces (pieces : List Region) : Except Stop UInt64 :=
  match crc32Wrapper (sandboxCrc32 endian place sizeofReq) ⟨0, []⟩ 0 0 0 with
  | .error stop => .error stop
  | .ok crc => crc32Chain endian place sizeofReq crc pieces

theorem sandboxCrc32_eq (crc : UInt64) (data : Bytes) :
    sandboxCrc32 endian place sizeofReq crc data = (Gzip.crc32 crc.toUInt32 data).toUInt64 := by
  have some : place.buffer + sizeofReq ≠ 0 := by
    have pos := place.buffer_pos
    omega
  exact Crc32.zlibCrc32_eq endian crc some data

theorem wrapped_direct_iff (call : Crc32Call) :
    call.wrapped endian place sizeofReq = .ok (call.direct endian) ↔
      call.buf ≠ 0 ∨ call.len = 0 ∧ call.crc.toUInt32 = 0 := by
  rw [Crc32Call.wrapped, Crc32Call.direct]
  by_cases null : call.buf = 0
  · have zero (bs : Bytes) : Crc32.zlibCrc32 endian call.crc call.buf bs = 0 := if_pos null
    rw [zero]
    by_cases none : call.len = 0
    · -- The sandbox computes the check value of no bytes.
      have empty : call.caller.bytes = [] := by
        apply List.eq_nil_of_length_eq_zero
        rw [call.length, if_pos null]
      obtain ⟨copying, -⟩ := @crc32_readable Shm.zeros (sandboxCrc32 endian place sizeofReq) call
        fun _ => none
      rw [copying, empty, sandboxCrc32_eq, Gzip.crc32_nil, Except.ok.injEq]
      constructor
      · intro same
        exact .inr ⟨none, UInt32.toUInt64_inj.mp same⟩
      · rintro (some | ⟨-, same⟩)
        · exact absurd null some
        · exact congrArg UInt32.toUInt64 same
    · obtain ⟨copying, -⟩ :=
        @crc32_unreadable Shm.zeros (sandboxCrc32 endian place sizeofReq) call null none
      rw [copying]
      refine iff_of_false (fun same => nomatch same) ?_
      rintro (some | ⟨none', -⟩)
      · exact some null
      · exact none none'
  · obtain ⟨copying, -⟩ := @crc32_readable Shm.zeros (sandboxCrc32 endian place sizeofReq) call
      fun isNull => absurd isNull null
    rw [copying, sandboxCrc32_eq, Crc32.zlibCrc32_eq endian call.crc null]
    exact iff_of_true rfl (.inl null)

theorem crc32Chain_eq (crc : UInt32) (pieces : List Region) :
    crc32Chain endian place sizeofReq crc.toUInt64 pieces
      = .ok (Gzip.crc32 crc (pieces.flatMap Region.bytes)).toUInt64 := by
  induction pieces generalizing crc with
  | nil => rw [crc32Chain, List.flatMap_nil, Gzip.crc32_nil]
  | cons piece pieces ih =>
    have step : crc32Wrapper (sandboxCrc32 endian place sizeofReq) piece crc.toUInt64 piece.base
        piece.bytes.length = .ok (Gzip.crc32 crc piece.bytes).toUInt64 := by
      simp only [crc32Wrapper, piece.load_whole, sandboxCrc32_eq, UInt32.toUInt32_toUInt64]
    simp only [crc32Chain, step, ih, List.flatMap_cons, Gzip.crc32_append]

/-- A call of `crc32_wrapper` returns what `zlib_crc32` does if and only if it has a buffer, or
asks with `Z_NULL` for the initial value; piece by piece it gives the check value of the whole. -/
theorem crc32Wrapper_zlib (call : Crc32Call) (pieces : List Region) (buf : Int) (some : buf ≠ 0) :
    (call.wrapped endian place sizeofReq = .ok (call.direct endian) ↔
      call.buf ≠ 0 ∨ call.len = 0 ∧ call.crc.toUInt32 = 0) ∧
    crc32Pieces endian place sizeofReq pieces
      = .ok (Crc32.zlibCrc32 endian 0 buf (pieces.flatMap Region.bytes)) := by
  refine ⟨wrapped_direct_iff endian place sizeofReq call, ?_⟩
  have start : crc32Wrapper (sandboxCrc32 endian place sizeofReq) ⟨0, []⟩ 0 0 0
      = .ok (0 : UInt32).toUInt64 := by
    have loads : Region.load ⟨0, []⟩ 0 0 = Option.some [] := rfl
    simp only [crc32Wrapper, loads, sandboxCrc32_eq, Gzip.crc32_nil]
    rfl
  simp only [crc32Pieces, start, crc32Chain_eq, Crc32.zlibCrc32_eq endian 0 some]
  rfl

/-- A sandbox with its buffer at 4096. -/
def Place.example : Place where
  repsz := 0
  buffer := 4096
  malloc := 8192
  fresh n := List.replicate n 0
  buffer_pos := by decide
  malloc_ne := by decide
  fresh_length _ := List.length_replicate

/-- `crc32(crc, Z_NULL, 0)` -/
def Crc32Call.null (crc : UInt64) : Crc32Call := ⟨crc, 0, 0, ⟨0, []⟩, rfl, rfl⟩

/-- The initial value, and two pieces. -/
theorem crc32Wrapper_zlib_two :
    ((Crc32Call.null 0).wrapped .little .example 20 = .ok ((Crc32Call.null 0).direct .little) ↔
      (Crc32Call.null 0).buf ≠ 0 ∨
        (Crc32Call.null 0).len = 0 ∧ (Crc32Call.null 0).crc.toUInt32 = 0) ∧
    crc32Pieces .little .example 20 [⟨1001, [1, 2]⟩, ⟨2002, [3]⟩]
      = .ok (Crc32.zlibCrc32 .little 0 500 [1, 2, 3]) :=
  crc32Wrapper_zlib .little .example 20 (.null 0) [⟨1001, [1, 2]⟩, ⟨2002, [3]⟩] 500 (by decide)

/-- `crc32_wrapper(1, Z_NULL, 0)` returns 1. -/
theorem crc32Null_differs : ¬ ∀ (endian : Crc32.Endian) (place : Place) (sizeofReq : Nat)
    (call : Crc32Call), call.wrapped endian place sizeofReq = .ok (call.direct endian) := by
  intro agrees
  have same := (wrapped_direct_iff .little .example 20 (.null 1)).mp
    (agrees .little .example 20 (.null 1))
  rcases same with some | ⟨-, zero⟩
  · exact some rfl
  · exact absurd zero (by decide)

end CheriGzip.Libz
