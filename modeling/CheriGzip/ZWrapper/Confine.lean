import CheriGzip.ZWrapper.Stream
import Mathlib.Data.Set.Basic

/-!
# Confinement of the sandboxed zlib

Which streams keep the buffers they start with, whatever the sandbox writes into the
shared stream. The comparison in `subcap` is exact for a buffer with a non-null pointer;
its shortcut for null pointers does not look at the length.
-/
namespace CheriGzip.ZWrapper

/-- The byte addresses of `[ptr, ptr + avail)`. -/
def bytesOf (ptr : UInt64) (avail : UInt32) : Set Nat :=
  {a | ptr.toNat ≤ a ∧ a < ptr.toNat + avail.toNat}

/-- A buffer of the address space: it does not wrap at 2^64. -/
def NoWrap (ptr : UInt64) (avail : UInt32) : Prop := ptr.toNat + avail.toNat < 2 ^ 64

instance (ptr : UInt64) (avail : UInt32) : Decidable (NoWrap ptr avail) :=
  inferInstanceAs (Decidable (_ < _))

def ZStream.NoWrap (strm : ZStream UInt64) : Prop :=
  ZWrapper.NoWrap strm.nextIn strm.availIn ∧ ZWrapper.NoWrap strm.nextOut strm.availOut

/-- Both buffers of `later` lie inside those of `strm`. -/
def Confined (strm later : ZStream UInt64) : Prop :=
  bytesOf later.nextIn later.availIn ⊆ bytesOf strm.nextIn strm.availIn ∧
  bytesOf later.nextOut later.availOut ⊆ bytesOf strm.nextOut strm.availOut ∧
  later.availIn ≤ strm.availIn ∧ later.availOut ≤ strm.availOut

/-- Every run of calls from `strm` that returns leaves buffers inside those of `strm`, and
so does each further call with the buffers it was passed. -/
def KeepsInside (strm : ZStream UInt64) : Prop :=
  ∀ calls now, runCalls calls strm = some now →
    Confined strm now ∧
      ∀ (call : StreamCall) later rc, call.perform now = some (later, rc) → Confined now later

@[simp] theorem bufCap_base (ptr : UInt64) (avail : UInt32) : (bufCap ptr avail).base = ptr := by
  unfold bufCap
  split
  · rfl
  next null => simpa [Cap.null] using (Decidable.not_not.mp null).symm

theorem bufCap_len (ptr : UInt64) (avail : UInt32) (live : ptr ≠ 0) :
    (bufCap ptr avail).len.toNat = avail.toNat := by
  simp [bufCap, live, cheriPtr]

/-- The comparison accepts a buffer against itself. -/
theorem subcap_refl (ptr : UInt64) (avail : UInt32) (fits : NoWrap ptr avail) :
    subcap (bufCap ptr avail) (bufCap ptr avail) = true := by
  by_cases null : ptr = 0
  · simp [subcap, Cap.toPtr, null]
  · have len := bufCap_len ptr avail null
    unfold NoWrap at fits
    simp only [subcap, Cap.toPtr, bufCap_base, Bool.or_eq_true, Bool.and_eq_true,
      decide_eq_true_eq, ge_iff_le, UInt64.le_iff_toNat_le]
    right
    refine ⟨⟨Nat.le_refl _, ?_⟩, ?_⟩
    · rw [UInt64.toNat_add, len, Nat.mod_eq_of_lt fits]
      omega
    · simp

/-- What the comparison says about an accepted buffer when the original pointer is live. -/
theorem subcap_bounds {ptr ptr' : UInt64} {avail avail' : UInt32} (live : ptr ≠ 0)
    (fits : NoWrap ptr avail)
    (accepted : subcap (bufCap ptr' avail') (bufCap ptr avail) = true) :
    ptr.toNat ≤ ptr'.toNat ∧ ptr'.toNat + avail'.toNat ≤ ptr.toNat + avail.toNat := by
  have len := bufCap_len ptr avail live
  unfold NoWrap at fits
  simp only [subcap, Cap.toPtr, bufCap_base, Bool.or_eq_true, Bool.and_eq_true, beq_iff_eq,
    live, and_false, false_or, decide_eq_true_eq, ge_iff_le] at accepted
  obtain ⟨⟨above, below⟩, short⟩ := accepted
  have low : ptr.toNat ≤ ptr'.toNat := UInt64.le_iff_toNat_le.mp above
  have high : ptr'.toNat ≤ ptr.toNat + avail.toNat := by
    have bound := UInt64.le_iff_toNat_le.mp below
    rwa [UInt64.toNat_add, len, Nat.mod_eq_of_lt fits] at bound
  have live' : ptr' ≠ 0 := by
    intro null
    have : ptr.toNat ≠ 0 := fun zero => live (UInt64.toNat_inj.mp zero)
    simp [null] at low
    omega
  -- the offset into the buffer is at most its length, so the unsigned subtraction is exact
  have offset : (ptr' - ptr).toNat = ptr'.toNat - ptr.toNat := UInt64.toNat_sub_of_le _ _ above
  have fitsOffset : ptr' - ptr ≤ (bufCap ptr avail).len := by
    rw [UInt64.le_iff_toNat_le, offset, len]
    omega
  have room := UInt64.le_iff_toNat_le.mp short
  rw [UInt64.toNat_sub_of_le _ _ fitsOffset, offset, len, bufCap_len ptr' avail' live'] at room
  exact ⟨low, by omega⟩

/-- The buffers the application gets back are the ones the wrapper's check accepted. -/
theorem streamCall_some {op : LzOp} {sandbox : Sandbox} {strm later : ZStream UInt64}
    {flush rc : Int} (returned : streamCall op sandbox strm flush = some (later, rc)) :
    subcap (bufCap later.nextIn later.availIn) (bufCap strm.nextIn strm.availIn) = true ∧
    subcap (bufCap later.nextOut later.availOut) (bufCap strm.nextOut strm.availOut) = true := by
  simp only [streamCall] at returned
  generalize sandbox op flush (shadow strm) = answer at returned
  obtain ⟨cap, rc'⟩ := answer
  split at returned
  · cases returned
  next checked =>
    simp only [Option.some.injEq, Prod.mk.injEq] at returned
    obtain ⟨rfl, rfl⟩ := returned
    simpa [shadow] using checked

theorem perform_some {call : StreamCall} {strm later : ZStream UInt64} {rc : Int}
    (returned : call.perform strm = some (later, rc)) :
    subcap (bufCap later.nextIn later.availIn) (bufCap strm.nextIn strm.availIn) = true ∧
    subcap (bufCap later.nextOut later.availOut) (bufCap strm.nextOut strm.availOut) = true := by
  cases call with
  | deflate sandbox flush => exact streamCall_some returned
  | inflate sandbox flush => exact streamCall_some returned

/-- One live buffer across one accepted call: it shrinks, and stays live and placed. -/
theorem live_step {ptr ptr' : UInt64} {avail avail' : UInt32} (live : ptr ≠ 0)
    (fits : NoWrap ptr avail)
    (accepted : subcap (bufCap ptr' avail') (bufCap ptr avail) = true) :
    bytesOf ptr' avail' ⊆ bytesOf ptr avail ∧ avail' ≤ avail ∧ NoWrap ptr' avail' ∧ ptr' ≠ 0 := by
  obtain ⟨low, high⟩ := subcap_bounds live fits accepted
  refine ⟨?_, ?_, ?_, ?_⟩
  · rintro a ⟨above, below⟩
    exact ⟨by omega, by omega⟩
  · rw [UInt32.le_iff_toNat_le]
    omega
  · unfold NoWrap at fits ⊢
    omega
  · rintro rfl
    have : ptr.toNat ≠ 0 := fun zero => live (UInt64.toNat_inj.mp zero)
    simp at low
    omega

/-- A stream with two live buffers in the address space. -/
structure ZStream.Live (strm : ZStream UInt64) : Prop where
  nextIn : strm.nextIn ≠ 0
  nextOut : strm.nextOut ≠ 0
  noWrap : strm.NoWrap

theorem Confined.refl (strm : ZStream UInt64) : Confined strm strm :=
  ⟨subset_rfl, subset_rfl, UInt32.le_refl _, UInt32.le_refl _⟩

theorem Confined.trans {a b c : ZStream UInt64} (ab : Confined a b) (bc : Confined b c) :
    Confined a c :=
  ⟨bc.1.trans ab.1, bc.2.1.trans ab.2.1, UInt32.le_trans bc.2.2.1 ab.2.2.1,
    UInt32.le_trans bc.2.2.2 ab.2.2.2⟩

theorem live_call {call : StreamCall} {strm later : ZStream UInt64} {rc : Int}
    (live : strm.Live) (returned : call.perform strm = some (later, rc)) :
    Confined strm later ∧ later.Live := by
  obtain ⟨inOk, outOk⟩ := perform_some returned
  obtain ⟨inside, short, placed, alive⟩ := live_step live.nextIn live.noWrap.1 inOk
  obtain ⟨inside', short', placed', alive'⟩ := live_step live.nextOut live.noWrap.2 outOk
  exact ⟨⟨inside, inside', short, short'⟩, ⟨alive, alive', placed, placed'⟩⟩

theorem live_run (calls : List StreamCall) {strm now : ZStream UInt64} (live : strm.Live)
    (ran : runCalls calls strm = some now) : Confined strm now ∧ now.Live := by
  induction calls generalizing strm with
  | nil =>
    simp only [runCalls, Option.some.injEq] at ran
    subst ran
    exact ⟨.refl _, live⟩
  | cons call calls ih =>
    simp only [runCalls, Option.bind_eq_some_iff] at ran
    obtain ⟨⟨mid, rc⟩, first, rest⟩ := ran
    obtain ⟨step, alive⟩ := live_call live first
    obtain ⟨tail, last⟩ := ih alive rest
    exact ⟨step.trans tail, last⟩

/-- A sandbox that leaves a null input pointer with a length of its choice. -/
def forgeIn (strm : ZStream UInt64) (avail : UInt32) : Sandbox := fun _ _ _ =>
  ({ shadow strm with nextIn := .null, availIn := avail }, 0)

/-- A sandbox that leaves a null output pointer with a length of its choice. -/
def forgeOut (strm : ZStream UInt64) (avail : UInt32) : Sandbox := fun _ _ _ =>
  ({ shadow strm with nextOut := .null, availOut := avail }, 0)

@[simp] theorem bufCap_toPtr (ptr : UInt64) (avail : UInt32) : (bufCap ptr avail).toPtr = ptr :=
  bufCap_base ptr avail

theorem perform_forgeIn {strm : ZStream UInt64} (null : strm.nextIn = 0) (placed : strm.NoWrap)
    (avail : UInt32) :
    (StreamCall.inflate (forgeIn strm avail) 0).perform strm =
      some ({ strm with availIn := avail }, 0) := by
  have same := subcap_refl strm.nextOut strm.availOut placed.2
  have shortcut : subcap (bufCap 0 avail) (bufCap 0 strm.availIn) = true := by simp [subcap]
  have ptr : strm.nextIn = 0 := null
  simp only [StreamCall.perform, inflate, streamCall, forgeIn, copyBack, shadow, bufCap_toPtr, same]
  simp [Cap.null, Cap.toPtr, null, shortcut]

theorem perform_forgeOut {strm : ZStream UInt64} (null : strm.nextOut = 0) (placed : strm.NoWrap)
    (avail : UInt32) :
    (StreamCall.inflate (forgeOut strm avail) 0).perform strm =
      some ({ strm with availOut := avail }, 0) := by
  have same := subcap_refl strm.nextIn strm.availIn placed.1
  have shortcut : subcap (bufCap 0 avail) (bufCap 0 strm.availOut) = true := by simp [subcap]
  simp only [StreamCall.perform, inflate, streamCall, forgeOut, copyBack, shadow, bufCap_toPtr, same]
  simp [Cap.null, Cap.toPtr, null, shortcut]

/-- Behind a null pointer the length grows from 0 to 1 in a call the wrapper accepts. -/
theorem not_keepsInside_in {strm : ZStream UInt64} (null : strm.nextIn = 0)
    (placed : strm.NoWrap) : ¬ KeepsInside strm := by
  intro keeps
  have first := perform_forgeIn null placed 0
  have placed' : ({ strm with availIn := 0 } : ZStream UInt64).NoWrap := by
    refine ⟨?_, placed.2⟩
    have := placed.1
    simp only [NoWrap] at this ⊢
    simp
    omega
  have second := @perform_forgeIn { strm with availIn := 0 } null placed' 1
  have ran : runCalls [.inflate (forgeIn strm 0) 0] strm = some { strm with availIn := 0 } := by
    simp [runCalls, first]
  have grown := ((keeps _ _ ran).2 _ _ _ second).2.2.1
  simp at grown

theorem not_keepsInside_out {strm : ZStream UInt64} (null : strm.nextOut = 0)
    (placed : strm.NoWrap) : ¬ KeepsInside strm := by
  intro keeps
  have first := perform_forgeOut null placed 0
  have placed' : ({ strm with availOut := 0 } : ZStream UInt64).NoWrap := by
    refine ⟨placed.1, ?_⟩
    have := placed.2
    simp only [NoWrap] at this ⊢
    simp
    omega
  have second := @perform_forgeOut { strm with availOut := 0 } null placed' 1
  have ran : runCalls [.inflate (forgeOut strm 0) 0] strm = some { strm with availOut := 0 } := by
    simp [runCalls, first]
  have grown := ((keeps _ _ ran).2 _ _ _ second).2.2.2
  simp at grown

/-- The wrapper confines the sandbox on exactly the streams whose two buffer pointers are
not null. -/
theorem keepsInside_iff (strm : ZStream UInt64) (placed : strm.NoWrap) :
    KeepsInside strm ↔ strm.nextIn ≠ 0 ∧ strm.nextOut ≠ 0 := by
  constructor
  · intro keeps
    exact ⟨fun null => not_keepsInside_in null placed keeps,
      fun null => not_keepsInside_out null placed keeps⟩
  · rintro ⟨nextIn, nextOut⟩ calls now ran
    obtain ⟨inside, alive⟩ := live_run calls ⟨nextIn, nextOut, placed⟩ ran
    exact ⟨inside, fun call later rc returned => (live_call alive returned).1⟩

/-- The stream `gz_compress` starts an empty file with: no input buffer yet, and an output
buffer of 64 KiB with the 10 header bytes in it. -/
def freshStream : ZStream UInt64 where
  nextIn := 0
  availIn := 0
  totalIn := 0
  nextOut := 0x1000a
  availOut := 65526
  totalOut := 0
  state := 0x2000
  zalloc := 0
  zfree := 0
  opaqueArg := 0
  dataType := 0
  adler := 0
  reserved := 0

/-- One accepted call after which `avail_in` is 2^32 - 1 behind a null `next_in`. -/
theorem freshStream_forged :
    ∃ (sandbox : Sandbox) (later : ZStream UInt64) (rc : Int),
      deflate sandbox freshStream 4 = some (later, rc) ∧ ¬ Confined freshStream later := by
  refine ⟨forgeIn freshStream 0xffffffff, { freshStream with availIn := 0xffffffff }, 0, ?_, ?_⟩
  · decide
  · rintro ⟨_, _, short, _⟩
    exact absurd short (by decide)

theorem keepsInside_buffered :
    KeepsInside { freshStream with nextIn := 0x30000, availIn := 512 } :=
  (keepsInside_iff { freshStream with nextIn := 0x30000, availIn := 512 }
    ⟨by decide, by decide⟩).mpr ⟨by decide, by decide⟩

end CheriGzip.ZWrapper
