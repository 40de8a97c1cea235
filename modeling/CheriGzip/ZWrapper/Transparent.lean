import CheriGzip.ZWrapper.Confine
import CheriGzip.ZWrapper.Lifecycle

/-!
# Transparency of the wrapper

Each call copies some fields into a shadow stream and some fields back. What a call loses is
exactly what decides whether the application can tell the wrapper from zlib.
-/
namespace CheriGzip.ZWrapper

section

variable {δ ι ptr : Type} {Z : Zlib δ ι} {heap : Heap δ ι} {strm : ZStream ptr}

/-! ## What the initialisations come to -/

theorem ZStream.withAlloc_zalloc : (strm.withAlloc Z).zalloc ≠ 0 := by
  unfold withAlloc
  simp only
  split
  · exact Z.zcalloc_ne
  · assumption

theorem ZStream.withAlloc_zfree : (strm.withAlloc Z).zfree ≠ 0 := by
  unfold withAlloc
  simp only
  split
  · exact Z.zcfree_ne
  · assumption

variable {p : DeflateParams} {addr : UInt64} {windowBits : Int}

/-- The state behind `deflateInit2`. -/
def DeflateParams.fresh (Z : Zlib δ ι) (p : DeflateParams) : DeflateState δ :=
  ⟨p.wrapBits.1, if p.wrapBits.1 ≠ 0 then .init else .busy, Z.deflateClear (Z.deflateNew p)⟩

theorem DeflateParams.wrap_nonneg (p : DeflateParams) : ¬ p.wrapBits.1 < 0 := by
  unfold wrapBits
  split
  · exact Int.lt_irrefl 0
  · split
    · exact of_decide_eq_false rfl
    · exact of_decide_eq_false rfl

theorem deflateInit2C_refused (tables : Bool) (refused : p.Refused) :
    deflateInit2C Z heap strm p addr tables = some (zStreamError, strm.withAlloc Z, heap) := by
  unfold deflateInit2C
  simp only [if_pos refused]

theorem deflateInit2C_memory (tables : Bool) (accepted : ¬ p.Refused) :
    deflateInit2C Z heap strm p 0 tables = some (zMemError, strm.withAlloc Z, heap) := by
  unfold deflateInit2C
  simp only [if_neg accepted, if_true]

theorem deflateInit2C_tables (accepted : ¬ p.Refused) (got : addr ≠ 0) :
    ∃ heap', deflateInit2C Z heap strm p addr false =
      some (zMemError, { strm.withAlloc Z with state := 0 }, heap') := by
  unfold deflateInit2C
  simp only [if_neg accepted, if_neg got, Bool.false_eq_true, if_false, deflateEndC,
    Function.update_self, Option.bind_eq_bind, Option.bind_some]
  exact ⟨_, rfl⟩

theorem deflateInit2C_ok (accepted : ¬ p.Refused) (got : addr ≠ 0) :
    ∃ heap', deflateInit2C Z heap strm p addr true =
        some (zOk, { strm.withAlloc Z with
          state := addr
          totalIn := 0
          totalOut := 0
          dataType := zUnknown
          adler := deflateAdler p.wrapBits.1 }, heap') ∧
      heap' addr = some (.deflate (p.fresh Z)) := by
  have live : ¬ (addr = 0 ∨ (strm.withAlloc Z).zalloc = 0 ∨ (strm.withAlloc Z).zfree = 0) := by
    rintro (null | null | null)
    · exact got null
    · exact ZStream.withAlloc_zalloc null
    · exact ZStream.withAlloc_zfree null
  unfold deflateInit2C
  simp only [if_neg accepted, if_neg got, if_true, deflateResetC, if_neg live,
    Function.update_self, if_neg p.wrap_nonneg]
  refine ⟨_, rfl, ?_⟩
  rw [Function.update_self]
  rfl

theorem inflateInit2C_memory :
    inflateInit2C Z heap strm windowBits 0 = some (zMemError, strm.withAlloc Z, heap) := by
  unfold inflateInit2C
  simp only [if_true]

theorem inflateInit2C_refused (refused : RefusedBits windowBits) (got : addr ≠ 0) :
    ∃ heap', inflateInit2C Z heap strm windowBits addr =
      some (zStreamError, { strm.withAlloc Z with state := 0 }, heap') := by
  unfold inflateInit2C
  simp only [if_neg got, if_pos refused]
  exact ⟨_, rfl⟩

theorem inflateInit2C_ok (accepted : ¬ RefusedBits windowBits) (got : addr ≠ 0) :
    ∃ heap', inflateInit2C Z heap strm windowBits addr =
        some (zOk, { strm.withAlloc Z with
          state := addr
          totalIn := 0
          totalOut := 0
          adler := inflateAdler (inflateWrapBits windowBits).1 strm.adler }, heap') ∧
      heap' addr = some (.inflate ⟨(inflateWrapBits windowBits).1,
        Z.inflateClear (Z.inflateNew (inflateWrapBits windowBits).2)⟩) := by
  unfold inflateInit2C
  simp only [if_neg got, if_neg accepted, inflateResetC, Function.update_self]
  refine ⟨_, rfl, ?_⟩
  rw [Function.update_self]

end

/-- Without a zlib or gzip header `adler` is not set. -/
theorem inflateAdler_eq {windowBits : Int} {adler : UInt64} :
    inflateAdler (inflateWrapBits windowBits).1 adler =
        inflateAdler (inflateWrapBits windowBits).1 0 ↔
      (windowBits < 0 → adler = 0) := by
  unfold inflateAdler
  by_cases raw : windowBits < 0
  · have wrap : (inflateWrapBits windowBits).1 = 0 := by
      unfold inflateWrapBits
      rw [if_pos raw]
    rw [if_pos wrap, if_pos wrap]
    exact ⟨fun same _ => same, fun same => same raw⟩
  · have wrap : (inflateWrapBits windowBits).1 ≠ 0 := by
      unfold inflateWrapBits
      rw [if_neg raw]
      show windowBits / 16 + 1 ≠ 0
      omega
    rw [if_neg wrap, if_neg wrap]
    exact ⟨fun _ negative => absurd negative raw, fun _ => rfl⟩

variable {δ ι : Type} {Z : Zlib δ ι}

/-! ## Two runs side by side -/

/-- The application sees the same stream, and the two states hold the same. -/
structure Sim (heap : Heap δ ι) (strm : ZStream UInt64) (heap' : Heap δ ι)
    (strm' : ZStream UInt64) : Prop where
  view : strm.view = strm'.view
  state : strm.state ≠ 0 → heap strm.state = heap' strm'.state
  zalloc : strm.zalloc = 0 ↔ strm'.zalloc = 0
  zfree : strm.zfree = 0 ↔ strm'.zfree = 0

theorem Sim.refl (heap : Heap δ ι) (strm : ZStream UInt64) : Sim heap strm heap strm :=
  ⟨rfl, fun _ => rfl, Iff.rfl, Iff.rfl⟩

/-- The condition on a call: the fields that the wrapper does not copy back hold already what
zlib leaves in them, and inflate does not load from the memory at `next_out`. -/
def AppCall.Meets (call : AppCall) (Z : Zlib δ ι) (heap : Heap δ ι) (strm : ZStream UInt64) :
    Prop :=
  match call.op with
  | .deflateInit2 p =>
    if p.Refused ∨ call.alloc.plain = 0 then
      strm.state = 0 ∧ strm.adler = 0 ∧ strm.dataType = 0
    else if call.alloc.tables then strm.totalIn = 0 ∧ strm.totalOut = 0
    else strm.adler = 0 ∧ strm.dataType = 0
  | .inflateInit2 windowBits =>
    if call.alloc.plain = 0 then strm.state = 0 ∧ strm.adler = 0 ∧ strm.dataType = 0
    else if RefusedBits windowBits then strm.adler = 0 ∧ strm.dataType = 0
    else
      strm.totalIn = 0 ∧ strm.totalOut = 0 ∧ strm.dataType = 0 ∧
        (windowBits < 0 → strm.adler = 0)
  | .deflate _ => True
  | .inflate flush => ∀ result, inflateC Z heap strm flush call.around ≠ some (result, true)
  | .deflateReset =>
    (strm.state = 0 ∨ strm.zalloc = 0 ∨ strm.zfree = 0) ∨
      ∀ s, heap strm.state = some (.deflate s) →
        strm.totalIn = 0 ∧ strm.totalOut = 0 ∧ strm.dataType = zUnknown ∧
          strm.adler = deflateAdler (if s.wrap < 0 then -s.wrap else s.wrap)
  | .inflateReset =>
    strm.state = 0 ∨
      ∀ s, heap strm.state = some (.inflate s) →
        strm.totalIn = 0 ∧ strm.totalOut = 0 ∧ strm.adler = inflateAdler s.wrap strm.adler
  | .deflateEnd => strm.state = 0
  | .inflateEnd => strm.state = 0 ∨ strm.zfree = 0

/-- How the wrapper's answer follows zlib's: the application sees the same if and only if the
condition holds, and then the two runs are side by side again. -/
def Follows (meets : Prop) : Option (Result δ ι UInt64) → Option (Result δ ι UInt64) → Prop
  | none, boxed => boxed = none
  | some (rc, strm, heap), boxed =>
    (meets → ∃ strm' heap', boxed = some (rc, strm', heap') ∧ Sim heap strm heap' strm') ∧
      ∀ strm' heap', boxed = some (rc, strm', heap') → strm.view = strm'.view → meets

theorem view_iff {strm strm' : ZStream UInt64} :
    strm.view = strm'.view ↔
      strm.nextIn = strm'.nextIn ∧ strm.availIn = strm'.availIn ∧ strm.nextOut = strm'.nextOut ∧
      strm.availOut = strm'.availOut ∧ strm.totalIn = strm'.totalIn ∧
      strm.totalOut = strm'.totalOut ∧ strm.adler = strm'.adler ∧ strm.dataType = strm'.dataType ∧
      (strm.state = 0 ↔ strm'.state = 0) := by
  have null : (strm.state == 0) = (strm'.state == 0) ↔ (strm.state = 0 ↔ strm'.state = 0) := by
    rw [Bool.eq_iff_iff, beq_iff_eq, beq_iff_eq]
  simp only [ZStream.view, View.mk.injEq, null]

theorem Sim.passed {heap heap' : Heap δ ι} {strm strm' : ZStream UInt64}
    (sim : Sim heap strm heap' strm') (call : AppCall) :
    Sim heap (call.passed strm) heap' (call.passed strm') := by
  obtain ⟨-, -, -, -, totalIn, totalOut, adler, dataType, state⟩ := view_iff.mp sim.view
  constructor
  · exact view_iff.mpr ⟨rfl, rfl, rfl, rfl, totalIn, totalOut, adler, dataType, state⟩
  · exact sim.state
  · exact sim.zalloc
  · exact sim.zfree

section

variable {heap heap' : Heap δ ι} {strm strm' : ZStream UInt64} {alloc : Alloc}

/-- Two answers with the same value. -/
theorem follows_some {meets : Prop} {rc : Int}
    (state : meets → strm.state ≠ 0 → heap strm.state = heap' strm'.state)
    (view : strm.view = strm'.view ↔ meets) (zalloc : strm.zalloc = 0 ↔ strm'.zalloc = 0)
    (zfree : strm.zfree = 0 ↔ strm'.zfree = 0) :
    Follows meets (some (rc, strm, heap)) (some (rc, strm', heap')) := by
  constructor
  · intro met
    exact ⟨strm', heap', rfl, view.mpr met, state met, zalloc, zfree⟩
  · intro later heap'' same seen
    cases same
    exact view.mp seen

/-- The wrapper's initialisation, by what it copies back. -/
theorem follows_init {meets : Prop} {rc : Int} {cap : ZStream Cap}
    {run : ZStream Cap → Option (Result δ ι Cap)} (ran : run cleared = some (rc, cap, heap'))
    (state : meets → strm.state ≠ 0 → heap strm.state = heap' cap.state)
    (view : strm.view = (copyInit strm' cap).view ↔ meets)
    (alloc : strm.zalloc ≠ 0 ∧ strm.zfree ≠ 0) (alloc' : cap.zalloc ≠ 0 ∧ cap.zfree ≠ 0) :
    Follows meets (some (rc, strm, heap)) (wrapInit strm' run) := by
  have answer : wrapInit strm' run = some (rc, copyInit strm' cap, heap') := by
    simp only [wrapInit, ran, Option.bind_eq_bind, Option.bind_some]
  rw [answer]
  apply follows_some
  · exact state
  · exact view
  · exact iff_of_false alloc.1 alloc'.1
  · exact iff_of_false alloc.2 alloc'.2

theorem withAlloc_live {ptr : Type} (strm : ZStream ptr) :
    (strm.withAlloc Z).zalloc ≠ 0 ∧ (strm.withAlloc Z).zfree ≠ 0 :=
  ⟨ZStream.withAlloc_zalloc, ZStream.withAlloc_zfree⟩

variable (sim : Sim heap strm heap' strm')
include sim

/-- An initialisation that fails before it has a state. -/
theorem follows_early (rc : Int) {run : ZStream Cap → Option (Result δ ι Cap)}
    (ran : run cleared = some (rc, cleared.withAlloc Z, heap')) :
    Follows (strm.state = 0 ∧ strm.adler = 0 ∧ strm.dataType = 0)
      (some (rc, strm.withAlloc Z, heap)) (wrapInit strm' run) := by
  obtain ⟨nextIn, availIn, nextOut, availOut, totalIn, totalOut, -⟩ := view_iff.mp sim.view
  apply follows_init ran
  · rintro ⟨null, -⟩ live
    exact absurd null live
  · rw [view_iff]
    simp only [ZStream.withAlloc, copyInit, cleared, nextIn, availIn, nextOut, availOut, totalIn,
      totalOut, true_and]
    constructor
    · rintro ⟨adler, dataType, null⟩
      exact ⟨null.mpr trivial, adler, dataType⟩
    · rintro ⟨null, adler, dataType⟩
      exact ⟨adler, dataType, iff_of_true null trivial⟩
  · exact withAlloc_live strm
  · exact withAlloc_live cleared

/-- An initialisation that frees its state again. -/
theorem follows_freed (rc : Int) {after after' : Heap δ ι}
    {run : ZStream Cap → Option (Result δ ι Cap)}
    (ran : run cleared = some (rc, { cleared.withAlloc Z with state := 0 }, after')) :
    Follows (strm.adler = 0 ∧ strm.dataType = 0)
      (some (rc, { strm.withAlloc Z with state := 0 }, after)) (wrapInit strm' run) := by
  obtain ⟨nextIn, availIn, nextOut, availOut, totalIn, totalOut, -⟩ := view_iff.mp sim.view
  apply follows_init ran
  · intro met live
    exact absurd rfl live
  · rw [view_iff]
    simp only [ZStream.withAlloc, copyInit, cleared, nextIn, availIn, nextOut, availOut, totalIn,
      totalOut, true_and, and_true]
  · exact withAlloc_live strm
  · exact withAlloc_live cleared

theorem deflateInit2_follows (alloc : Alloc) (p : DeflateParams) :
    Follows (if p.Refused ∨ alloc.plain = 0 then
          strm.state = 0 ∧ strm.adler = 0 ∧ strm.dataType = 0
        else if alloc.tables then strm.totalIn = 0 ∧ strm.totalOut = 0
        else strm.adler = 0 ∧ strm.dataType = 0)
      (deflateInit2C Z heap strm p alloc.plain alloc.tables)
      (wrapInit strm' fun cap => deflateInit2C Z heap' cap p alloc.boxed alloc.tables) := by
  by_cases refused : p.Refused
  · rw [deflateInit2C_refused _ refused, if_pos (.inl refused)]
    exact follows_early sim _ (deflateInit2C_refused _ refused)
  · by_cases memory : alloc.plain = 0
    · have memory' : alloc.boxed = 0 := alloc.both.mp memory
      rw [if_pos (.inr memory), memory, memory', deflateInit2C_memory _ refused]
      exact follows_early sim _ (deflateInit2C_memory _ refused)
    · have memory' : alloc.boxed ≠ 0 := fun null => memory (alloc.both.mpr null)
      rw [if_neg (not_or.mpr ⟨refused, memory⟩)]
      cases alloc.tables with
      | false =>
        obtain ⟨after, ran⟩ := @deflateInit2C_tables δ ι UInt64 Z heap strm p _ refused memory
        obtain ⟨after', ran'⟩ := @deflateInit2C_tables δ ι Cap Z heap' cleared p _ refused memory'
        rw [ran]
        exact follows_freed sim _ ran'
      | true =>
        obtain ⟨after, ran, made⟩ := @deflateInit2C_ok δ ι UInt64 Z heap strm p _ refused memory
        obtain ⟨after', ran', made'⟩ :=
          @deflateInit2C_ok δ ι Cap Z heap' cleared p _ refused memory'
        obtain ⟨nextIn, availIn, nextOut, availOut, totalIn, totalOut, -⟩ := view_iff.mp sim.view
        rw [ran]
        apply follows_init ran'
        · intro met live
          exact made.trans made'.symm
        · rw [view_iff]
          simp only [ZStream.withAlloc, copyInit, nextIn, availIn, nextOut, availOut, totalIn,
            totalOut, memory, memory', true_and, and_true, if_true]
          exact and_congr eq_comm eq_comm
        · exact withAlloc_live strm
        · exact withAlloc_live cleared

theorem inflateInit2_follows (alloc : Alloc) (windowBits : Int) :
    Follows (if alloc.plain = 0 then strm.state = 0 ∧ strm.adler = 0 ∧ strm.dataType = 0
        else if RefusedBits windowBits then strm.adler = 0 ∧ strm.dataType = 0
        else
          strm.totalIn = 0 ∧ strm.totalOut = 0 ∧ strm.dataType = 0 ∧
            (windowBits < 0 → strm.adler = 0))
      (inflateInit2C Z heap strm windowBits alloc.plain)
      (wrapInit strm' fun cap => inflateInit2C Z heap' cap windowBits alloc.boxed) := by
  by_cases memory : alloc.plain = 0
  · have memory' : alloc.boxed = 0 := alloc.both.mp memory
    rw [if_pos memory, memory, memory', inflateInit2C_memory]
    exact follows_early sim _ inflateInit2C_memory
  · have memory' : alloc.boxed ≠ 0 := fun null => memory (alloc.both.mpr null)
    rw [if_neg memory]
    by_cases refused : RefusedBits windowBits
    · obtain ⟨after, ran⟩ := @inflateInit2C_refused δ ι UInt64 Z heap strm _ _ refused memory
      obtain ⟨after', ran'⟩ := @inflateInit2C_refused δ ι Cap Z heap' cleared _ _ refused memory'
      rw [ran, if_pos refused]
      exact follows_freed sim _ ran'
    · obtain ⟨after, ran, made⟩ := @inflateInit2C_ok δ ι UInt64 Z heap strm _ _ refused memory
      obtain ⟨after', ran', made'⟩ :=
        @inflateInit2C_ok δ ι Cap Z heap' cleared _ _ refused memory'
      obtain ⟨nextIn, availIn, nextOut, availOut, totalIn, totalOut, -⟩ := view_iff.mp sim.view
      rw [ran, if_neg refused]
      apply follows_init ran'
      · intro met live
        exact made.trans made'.symm
      · rw [view_iff]
        simp only [ZStream.withAlloc, copyInit, cleared, nextIn, availIn, nextOut, availOut,
          totalIn, totalOut, memory, memory', true_and, and_true, inflateAdler_eq]
        constructor
        · rintro ⟨noneIn, noneOut, adler, dataType⟩
          exact ⟨noneIn.symm, noneOut.symm, dataType, adler⟩
        · rintro ⟨noneIn, noneOut, dataType, adler⟩
          exact ⟨noneIn.symm, noneOut.symm, adler, dataType⟩
      · exact withAlloc_live strm
      · exact withAlloc_live cleared

end

/-! ## The calls that copy nothing back -/

section

variable {heap heap' : Heap δ ι} {strm strm' : ZStream UInt64}

theorem wrapClose_some {rc : Int} {cap : ZStream Cap} {run : ZStream Cap → Option (Result δ ι Cap)}
    (ran : run (closing strm') = some (rc, cap, heap')) :
    wrapClose strm' run = some (rc, strm', heap') := by
  simp only [wrapClose, ran, Option.bind_eq_bind, Option.bind_some]

theorem wrapClose_none {run : ZStream Cap → Option (Result δ ι Cap)}
    (ran : run (closing strm') = none) : wrapClose strm' run = none := by
  simp only [wrapClose, ran, Option.bind_eq_bind, Option.bind_none]

variable (sim : Sim heap strm heap' strm')
include sim

theorem Sim.null : strm.state = 0 ↔ strm'.state = 0 := by
  obtain ⟨-, -, -, -, -, -, -, -, state⟩ := view_iff.mp sim.view
  exact state

/-- A call that leaves both sides as they are. -/
theorem follows_same {meets : Prop} {rc : Int} (met : meets) :
    Follows meets (some (rc, strm, heap)) (some (rc, strm', heap')) := by
  apply follows_some
  · exact fun _ => sim.state
  · exact iff_of_true sim.view met
  · exact sim.zalloc
  · exact sim.zfree

/-- A reset shows unless its values were there before. -/
theorem Sim.view_reset (dataType : Int) (adler : UInt64) :
    ZStream.view { strm with
        totalIn := 0
        totalOut := 0
        dataType := dataType
        adler := adler } = strm'.view ↔
      strm.totalIn = 0 ∧ strm.totalOut = 0 ∧ strm.dataType = dataType ∧ strm.adler = adler := by
  obtain ⟨nextIn, availIn, nextOut, availOut, totalIn, totalOut, adler', dataType', null⟩ :=
    view_iff.mp sim.view
  rw [view_iff, totalIn, totalOut, adler', dataType']
  constructor
  · rintro ⟨-, -, -, -, noneIn, noneOut, check, type, -⟩
    exact ⟨noneIn.symm, noneOut.symm, type.symm, check.symm⟩
  · rintro ⟨noneIn, noneOut, type, check⟩
    exact ⟨nextIn, availIn, nextOut, availOut, noneIn.symm, noneOut.symm, check.symm, type.symm,
      null⟩

theorem deflateReset_follows :
    Follows ((strm.state = 0 ∨ strm.zalloc = 0 ∨ strm.zfree = 0) ∨
        ∀ s, heap strm.state = some (.deflate s) →
          strm.totalIn = 0 ∧ strm.totalOut = 0 ∧ strm.dataType = zUnknown ∧
            strm.adler = deflateAdler (if s.wrap < 0 then -s.wrap else s.wrap))
      (deflateResetC Z heap strm) (wrapClose strm' fun cap => deflateResetC Z heap' cap) := by
  have guards : (strm.state = 0 ∨ strm.zalloc = 0 ∨ strm.zfree = 0) ↔
      (strm'.state = 0 ∨ strm'.zalloc = 0 ∨ strm'.zfree = 0) :=
    or_congr sim.null (or_congr sim.zalloc sim.zfree)
  by_cases early : strm.state = 0 ∨ strm.zalloc = 0 ∨ strm.zfree = 0
  · have ran : deflateResetC Z heap' (closing strm') = some (zStreamError, closing strm', heap') :=
      if_pos (guards.mp early)
    have plain : deflateResetC Z heap strm = some (zStreamError, strm, heap) := if_pos early
    rw [plain, wrapClose_some ran]
    exact follows_same sim (.inl early)
  · have early' : ¬ ((closing strm').state = 0 ∨ (closing strm').zalloc = 0 ∨
        (closing strm').zfree = 0) := mt guards.mpr early
    have same : heap strm.state = heap' (closing strm').state :=
      sim.state fun null => early (.inl null)
    unfold deflateResetC
    rw [if_neg early]
    cases object : heap strm.state with
    | none =>
      apply wrapClose_none
      rw [if_neg early', ← same, object]
    | some object' =>
      cases object' with
      | inflate s =>
        apply wrapClose_none
        rw [if_neg early', ← same, object]
      | deflate s =>
        rw [object] at same
        rw [wrapClose_some (by rw [if_neg early', ← same])]
        apply follows_some
        · intro met live
          simp only [Function.update_self, closing, shadow]
        · rw [sim.view_reset]
          constructor
          · intro seen
            refine .inr fun s' same' => ?_
            cases same'
            exact seen
          · rintro (early' | seen)
            · exact absurd early' early
            · exact seen s rfl
        · exact sim.zalloc
        · exact sim.zfree

theorem inflateReset_follows :
    Follows (strm.state = 0 ∨
        ∀ s, heap strm.state = some (.inflate s) →
          strm.totalIn = 0 ∧ strm.totalOut = 0 ∧ strm.adler = inflateAdler s.wrap strm.adler)
      (inflateResetC Z heap strm) (wrapClose strm' fun cap => inflateResetC Z heap' cap) := by
  by_cases early : strm.state = 0
  · have ran : inflateResetC Z heap' (closing strm') = some (zStreamError, closing strm', heap') :=
      if_pos (sim.null.mp early)
    have plain : inflateResetC Z heap strm = some (zStreamError, strm, heap) := if_pos early
    rw [plain, wrapClose_some ran]
    exact follows_same sim (.inl early)
  · have early' : ¬ (closing strm').state = 0 := mt sim.null.mpr early
    have same : heap strm.state = heap' (closing strm').state := sim.state early
    unfold inflateResetC
    rw [if_neg early]
    cases object : heap strm.state with
    | none =>
      apply wrapClose_none
      rw [if_neg early', ← same, object]
    | some object' =>
      cases object' with
      | deflate s =>
        apply wrapClose_none
        rw [if_neg early', ← same, object]
      | inflate s =>
        rw [object] at same
        rw [wrapClose_some (by rw [if_neg early', ← same])]
        apply follows_some
        · intro met live
          simp only [Function.update_self, closing, shadow]
        · have view := sim.view_reset strm.dataType (inflateAdler s.wrap strm.adler)
          rw [view]
          constructor
          · rintro ⟨noneIn, noneOut, -, check⟩
            refine .inr fun s' same' => ?_
            cases same'
            exact ⟨noneIn, noneOut, check⟩
          · rintro (early' | seen)
            · exact absurd early' early
            · obtain ⟨noneIn, noneOut, check⟩ := seen s rfl
              exact ⟨noneIn, noneOut, rfl, check⟩
        · exact sim.zalloc
        · exact sim.zfree

/-- The wrapper leaves the application the pointer to a state that is gone. -/
theorem Sim.view_ended (live : strm.state ≠ 0) :
    ZStream.view { strm with state := 0 } ≠ strm'.view := by
  intro seen
  obtain ⟨-, -, -, -, -, -, -, -, null⟩ := view_iff.mp seen
  exact live (sim.null.mpr (null.mp rfl))

theorem deflateEnd_follows :
    Follows (strm.state = 0) (deflateEndC heap strm)
      (wrapClose strm' fun cap => deflateEndC heap' cap) := by
  by_cases early : strm.state = 0
  · have ran : deflateEndC heap' (closing strm') = some (zStreamError, closing strm', heap') :=
      if_pos (sim.null.mp early)
    have plain : deflateEndC heap strm = some (zStreamError, strm, heap) := if_pos early
    rw [plain, wrapClose_some ran]
    exact follows_same sim early
  · have early' : ¬ (closing strm').state = 0 := mt sim.null.mpr early
    have same : heap strm.state = heap' (closing strm').state := sim.state early
    unfold deflateEndC
    rw [if_neg early]
    cases object : heap strm.state with
    | none =>
      apply wrapClose_none
      rw [if_neg early', ← same, object]
    | some object' =>
      cases object' with
      | inflate s =>
        apply wrapClose_none
        rw [if_neg early', ← same, object]
      | deflate s =>
        rw [object] at same
        rw [wrapClose_some (by rw [if_neg early', ← same])]
        apply follows_some
        · exact fun null => absurd null early
        · exact iff_of_false (sim.view_ended early) early
        · exact sim.zalloc
        · exact sim.zfree

theorem inflateEnd_follows :
    Follows (strm.state = 0 ∨ strm.zfree = 0) (inflateEndC heap strm)
      (wrapClose strm' fun cap => inflateEndC heap' cap) := by
  have guards : (strm.state = 0 ∨ strm.zfree = 0) ↔ (strm'.state = 0 ∨ strm'.zfree = 0) :=
    or_congr sim.null sim.zfree
  by_cases early : strm.state = 0 ∨ strm.zfree = 0
  · have ran : inflateEndC heap' (closing strm') = some (zStreamError, closing strm', heap') :=
      if_pos (guards.mp early)
    have plain : inflateEndC heap strm = some (zStreamError, strm, heap) := if_pos early
    rw [plain, wrapClose_some ran]
    exact follows_same sim early
  · have early' : ¬ ((closing strm').state = 0 ∨ (closing strm').zfree = 0) := mt guards.mpr early
    have live : strm.state ≠ 0 := fun null => early (.inl null)
    have same : heap strm.state = heap' (closing strm').state := sim.state live
    unfold inflateEndC
    rw [if_neg early]
    cases object : heap strm.state with
    | none =>
      apply wrapClose_none
      rw [if_neg early', ← same, object]
    | some object' =>
      cases object' with
      | deflate s =>
        apply wrapClose_none
        rw [if_neg early', ← same, object]
      | inflate s =>
        rw [object] at same
        rw [wrapClose_some (by rw [if_neg early', ← same])]
        apply follows_some
        · exact fun null => absurd null early
        · exact iff_of_false (sim.view_ended live) early
        · exact sim.zalloc
        · exact sim.zfree

end

/-! ## The calls that move the buffers -/

/-- What is left of a buffer passes the comparison. -/
theorem subcap_rest {ptr : UInt64} {avail n : UInt32} (fits : NoWrap ptr avail) (most : n ≤ avail)
    (null : ptr = 0 → n = 0) :
    subcap (bufCap (ptr + n.toUInt64) (avail - n)) (bufCap ptr avail) = true := by
  have bound := UInt32.le_iff_toNat_le.mp most
  unfold NoWrap at fits
  by_cases dead : ptr = 0
  · have zero := null dead
    simp [subcap, Cap.toPtr, dead, zero]
  · have moved : (ptr + n.toUInt64).toNat = ptr.toNat + n.toNat := by
      rw [UInt64.toNat_add, UInt32.toNat_toUInt64, Nat.mod_eq_of_lt (by omega)]
    have alive : ptr + n.toUInt64 ≠ 0 := by
      intro zero
      have nonzero : ptr.toNat ≠ 0 := fun nothing => dead (UInt64.toNat_inj.mp nothing)
      have sum := congrArg UInt64.toNat zero
      rw [moved] at sum
      simp at sum
      omega
    have len := bufCap_len ptr avail dead
    have rest := bufCap_len (ptr + n.toUInt64) (avail - n) alive
    rw [UInt32.toNat_sub_of_le _ _ most] at rest
    have offset : (ptr + n.toUInt64 - ptr).toNat = n.toNat := by
      rw [UInt64.toNat_sub_of_le]
      · omega
      · rw [UInt64.le_iff_toNat_le]
        omega
    have ends : (ptr + (bufCap ptr avail).len).toNat = ptr.toNat + avail.toNat := by
      rw [UInt64.toNat_add, len, Nat.mod_eq_of_lt fits]
    have room : ((bufCap ptr avail).len - (ptr + n.toUInt64 - ptr)).toNat =
        avail.toNat - n.toNat := by
      rw [UInt64.toNat_sub_of_le]
      · rw [len, offset]
      · rw [UInt64.le_iff_toNat_le, len, offset]
        exact bound
    simp only [subcap, Cap.toPtr, bufCap_base, Bool.or_eq_true, Bool.and_eq_true,
      decide_eq_true_eq, ge_iff_le, UInt64.le_iff_toNat_le, moved, ends, room, rest]
    omega

/-- An honest answer is taken over. -/
theorem streamCall_honest {σ : Type} {op : LzOp} {strm : ZStream UInt64} {rc flush : Int}
    {out : Outcome σ} (placed : strm.NoWrap)
    (fits : out.consumed ≤ strm.availIn ∧ out.produced ≤ strm.availOut)
    (nullIn : strm.nextIn = 0 → out.consumed = 0) (nullOut : strm.nextOut = 0 → out.produced = 0) :
    streamCall op (fun _ _ _ => (out.strm (shadow strm), rc)) strm flush =
      some (out.strm strm, rc) := by
  have back : copyBack (out.strm (shadow strm)) = out.strm strm := by
    simp only [copyBack, Outcome.strm, shadow, Pointer.advance, Cap.toPtr, bufCap_base]
  have input : subcap (bufCap (out.strm strm).nextIn (out.strm strm).availIn)
      (bufCap strm.nextIn strm.availIn) = true := subcap_rest placed.1 fits.1 nullIn
  have output : subcap (bufCap (out.strm strm).nextOut (out.strm strm).availOut)
      (bufCap strm.nextOut strm.availOut) = true := subcap_rest placed.2 fits.2 nullOut
  simp only [streamCall, back]
  simp only [shadow, input, output, Bool.not_true, Bool.or_self, Bool.false_eq_true, if_false]

theorem streamCall_same {op : LzOp} {strm : ZStream UInt64} {rc flush : Int}
    (placed : strm.NoWrap) :
    streamCall op (fun _ _ _ => (shadow strm, rc)) strm flush = some (strm, rc) := by
  have back : copyBack (shadow strm) = strm := by
    simp only [copyBack, shadow, Cap.toPtr, bufCap_base]
  have input := subcap_refl strm.nextIn strm.availIn placed.1
  have output := subcap_refl strm.nextOut strm.availOut placed.2
  simp only [streamCall, back]
  simp only [shadow, input, output, Bool.not_true, Bool.or_self, Bool.false_eq_true, if_false]

section

variable {heap heap' : Heap δ ι} {strm strm' : ZStream UInt64} {op : LzOp} {flush rc : Int}

theorem wrapStream_same {run : ZStream Cap → Option (Result δ ι Cap)} (placed : strm'.NoWrap)
    (ran : run (shadow strm') = some (rc, shadow strm', heap')) :
    wrapStream op strm' flush run = some (rc, strm', heap') := by
  simp only [wrapStream, ran, Option.bind_eq_bind, Option.bind_some, streamCall_same placed]

theorem wrapStream_none {run : ZStream Cap → Option (Result δ ι Cap)}
    (ran : run (shadow strm') = none) : wrapStream op strm' flush run = none := by
  simp only [wrapStream, ran, Option.bind_eq_bind, Option.bind_none]

theorem wrapStream_honest {σ : Type} {out : Outcome σ}
    {run : ZStream Cap → Option (Result δ ι Cap)} (placed : strm'.NoWrap)
    (fits : out.consumed ≤ strm'.availIn ∧ out.produced ≤ strm'.availOut)
    (nullIn : strm'.nextIn = 0 → out.consumed = 0) (nullOut : strm'.nextOut = 0 → out.produced = 0)
    (ran : run (shadow strm') = some (rc, out.strm (shadow strm'), heap')) :
    wrapStream op strm' flush run = some (rc, out.strm strm', heap') := by
  simp only [wrapStream, ran, Option.bind_eq_bind, Option.bind_some,
    streamCall_honest placed fits nullIn nullOut]

variable (sim : Sim heap strm heap' strm') (placed : strm'.NoWrap)
include sim

/-- The same outcome on both sides. -/
theorem follows_outcome {σ : Type} {meets : Prop} (met : meets) (out : Outcome σ)
    {object : Option (Obj δ ι)} :
    Follows meets (some (rc, out.strm strm, Function.update heap strm.state object))
      (some (rc, out.strm strm', Function.update heap' strm'.state object)) := by
  obtain ⟨nextIn, availIn, nextOut, availOut, totalIn, totalOut, adler, dataType, null⟩ :=
    view_iff.mp sim.view
  apply follows_some
  · intro met live
    simp only [Outcome.strm, Function.update_self]
  · refine iff_of_true ?_ met
    rw [view_iff]
    simp only [Outcome.strm, nextIn, availIn, nextOut, availOut, true_and, null]
  · exact sim.zalloc
  · exact sim.zfree

/-- The sandbox sees the counters of the application. -/
theorem Sim.counters : (shadow strm').counters = strm.counters := by
  obtain ⟨nextIn, availIn, nextOut, availOut, totalIn, totalOut, adler, dataType, null⟩ :=
    view_iff.mp sim.view
  simp only [ZStream.counters, shadow, availIn, availOut, totalIn, totalOut, adler, dataType]

theorem Sim.isNull :
    Pointer.isNull (shadow strm').nextIn = Pointer.isNull strm.nextIn ∧
      Pointer.isNull (shadow strm').nextOut = Pointer.isNull strm.nextOut := by
  obtain ⟨nextIn, -, nextOut, -⟩ := view_iff.mp sim.view
  simp only [Pointer.isNull, shadow, bufCap_toPtr, nextIn, nextOut, and_self]

/-- The bounds of an outcome, on the side of the wrapper. -/
theorem Sim.honest {σ : Type} {out : Outcome σ}
    (fits : out.consumed ≤ strm.counters.availIn ∧ out.produced ≤ strm.counters.availOut)
    (input : Pointer.isNull strm.nextIn → strm.availIn = 0)
    (output : ¬ Pointer.isNull strm.nextOut) :
    (out.consumed ≤ strm'.availIn ∧ out.produced ≤ strm'.availOut) ∧
      (strm'.nextIn = 0 → out.consumed = 0) ∧ (strm'.nextOut = 0 → out.produced = 0) := by
  obtain ⟨nextIn, availIn, nextOut, availOut, -⟩ := view_iff.mp sim.view
  obtain ⟨fitsIn, fitsOut⟩ := fits
  refine ⟨⟨?_, ?_⟩, ?_, ?_⟩
  · rw [← availIn]
    exact fitsIn
  · rw [← availOut]
    exact fitsOut
  · intro dead
    have none : strm.availIn = 0 := by
      apply input
      simp only [Pointer.isNull, nextIn, dead, beq_self_eq_true]
    have most : out.consumed ≤ 0 := none ▸ fitsIn
    exact UInt32.le_zero_iff.mp most
  · intro dead
    exfalso
    apply output
    simp only [Pointer.isNull, nextOut, dead, beq_self_eq_true]

include placed

theorem deflate_follows (flush : Int) (around : Around) :
    Follows True (deflateC Z heap strm flush around)
      (wrapStream .deflate strm' flush fun cap => deflateC Z heap' cap flush around) := by
  obtain ⟨nextIn, availIn, nextOut, availOut, -⟩ := view_iff.mp sim.view
  obtain ⟨nullIn, nullOut⟩ := sim.isNull
  have guards : (strm.state = 0 ∨ flush > zBlock ∨ flush < 0) ↔
      ((shadow strm').state = 0 ∨ flush > zBlock ∨ flush < 0) := or_congr sim.null Iff.rfl
  have room : (shadow strm').availIn = strm.availIn ∧ (shadow strm').availOut = strm.availOut :=
    ⟨availIn.symm, availOut.symm⟩
  unfold deflateC
  by_cases early : strm.state = 0 ∨ flush > zBlock ∨ flush < 0
  · rw [if_pos early, wrapStream_same placed (if_pos (guards.mp early))]
    exact follows_same sim trivial
  · have early' := mt guards.mpr early
    have live : strm.state ≠ 0 := fun null => early (.inl null)
    have same : heap strm.state = heap' (shadow strm').state := sim.state live
    simp only [if_neg early]
    cases object : heap strm.state with
    | none =>
      apply wrapStream_none
      simp only [if_neg early', ← same, object]
    | some object' =>
      cases object' with
      | inflate s =>
        apply wrapStream_none
        simp only [if_neg early', ← same, object]
      | deflate s =>
        rw [object] at same
        simp only
        -- The checks of the guard read the pointers, which are null on both sides or on neither.
        by_cases bad : Pointer.isNull strm.nextOut ∨
            (Pointer.isNull strm.nextIn ∧ strm.availIn ≠ 0) ∨ (s.status = .finish ∧ flush ≠ zFinish)
        · rw [if_pos bad, wrapStream_same placed]
          · exact follows_same sim trivial
          · simp only [if_neg early', ← same, nullIn, nullOut, room.1, if_pos bad]
        · rw [if_neg bad]
          by_cases full : strm.availOut = 0
          · rw [if_pos full, wrapStream_same placed]
            · exact follows_same sim trivial
            · simp only [if_neg early', ← same, nullIn, nullOut, room.1, room.2, if_neg bad,
                if_pos full]
          · rw [if_neg full]
            have input : Pointer.isNull strm.nextIn → strm.availIn = 0 := by
              intro dead
              apply Classical.byContradiction
              intro some
              exact bad (.inr (.inl ⟨dead, some⟩))
            have output : ¬ Pointer.isNull strm.nextOut := fun dead => bad (.inl dead)
            cases body : Z.deflateBody s flush strm.counters around with
            | none =>
              apply wrapStream_none
              simp only [if_neg early', ← same, nullIn, nullOut, room.1, room.2, if_neg bad,
                if_neg full, sim.counters, body]
              rfl
            | some out =>
              -- What the body took and made is within the bounds, so copying it back changes
              -- nothing else.
              obtain ⟨fits, stillIn, stillOut⟩ := sim.honest (Z.deflate_bounds body) input output
              rw [wrapStream_honest placed fits stillIn stillOut]
              · exact follows_outcome sim trivial out
              · simp only [if_neg early', ← same, nullIn, nullOut, room.1, room.2, if_neg bad,
                  if_neg full, sim.counters, body]
                rfl

/-- The sandbox's inflate, which faults on a load through the capability for `next_out`. -/
theorem inflate_follows (flush : Int) (around : Around) :
    Follows (∀ result, inflateC Z heap strm flush around ≠ some (result, true))
      ((inflateC Z heap strm flush around).map Prod.fst)
      (wrapStream .inflate strm' flush fun cap => do
        let (result, loads) ← inflateC Z heap' cap flush around
        if loads then none else some result) := by
  obtain ⟨nextIn, availIn, nextOut, availOut, -⟩ := view_iff.mp sim.view
  obtain ⟨nullIn, nullOut⟩ := sim.isNull
  have room : (shadow strm').availIn = strm.availIn := availIn.symm
  have guards : (strm.state = 0 ∨ Pointer.isNull strm.nextOut ∨
      (Pointer.isNull strm.nextIn ∧ strm.availIn ≠ 0)) ↔
      ((shadow strm').state = 0 ∨ Pointer.isNull (shadow strm').nextOut ∨
        (Pointer.isNull (shadow strm').nextIn ∧ (shadow strm').availIn ≠ 0)) := by
    rw [nullIn, nullOut, room]
    exact or_congr sim.null Iff.rfl
  by_cases early : strm.state = 0 ∨ Pointer.isNull strm.nextOut ∨
      (Pointer.isNull strm.nextIn ∧ strm.availIn ≠ 0)
  · have plain : inflateC Z heap strm flush around = some ((zStreamError, strm, heap), false) :=
      if_pos early
    have ran : inflateC Z heap' (shadow strm') flush around =
        some ((zStreamError, shadow strm', heap'), false) := if_pos (guards.mp early)
    rw [plain, wrapStream_same placed]
    · apply follows_same sim
      intro result same
      cases same
    · simp only [ran]
      rfl
  · have early' := mt guards.mpr early
    have live : strm.state ≠ 0 := fun null => early (.inl null)
    have same : heap strm.state = heap' (shadow strm').state := sim.state live
    have input : Pointer.isNull strm.nextIn → strm.availIn = 0 := by
      intro dead
      apply Classical.byContradiction
      intro some
      exact early (.inr (.inr ⟨dead, some⟩))
    have output : ¬ Pointer.isNull strm.nextOut := fun dead => early (.inr (.inl dead))
    cases object : heap strm.state with
    | none =>
      have plain : inflateC Z heap strm flush around = none := by
        simp only [inflateC, if_neg early, object]
      have ran : inflateC Z heap' (shadow strm') flush around = none := by
        simp only [inflateC, if_neg early', ← same, object]
      rw [plain]
      apply wrapStream_none
      simp only [ran]
      rfl
    | some object' =>
      cases object' with
      | deflate s =>
        have plain : inflateC Z heap strm flush around = none := by
          simp only [inflateC, if_neg early, object]
        have ran : inflateC Z heap' (shadow strm') flush around = none := by
          simp only [inflateC, if_neg early', ← same, object]
        rw [plain]
        apply wrapStream_none
        simp only [ran]
        rfl
      | inflate s =>
        cases body : Z.inflateBody s flush strm.counters around with
        | none =>
          have plain : inflateC Z heap strm flush around = none := by
            simp only [inflateC, if_neg early, object, body]
            rfl
          have ran : inflateC Z heap' (shadow strm') flush around = none := by
            simp only [inflateC, if_neg early', ← same, object, sim.counters, body]
            rfl
          rw [plain]
          apply wrapStream_none
          simp only [ran]
          rfl
        | some answer =>
          obtain ⟨out, loads⟩ := answer
          obtain ⟨fits, stillIn, stillOut⟩ := sim.honest (Z.inflate_bounds body) input output
          have plain : inflateC Z heap strm flush around = some ((out.ret, out.strm strm,
              Function.update heap strm.state (some (.inflate out.state))), loads) := by
            simp only [inflateC, if_neg early, object, body]
            rfl
          have ran : inflateC Z heap' (shadow strm') flush around =
              some ((out.ret, out.strm (shadow strm'),
                Function.update heap' strm'.state (some (.inflate out.state))), loads) := by
            simp only [inflateC, if_neg early', ← same, object, sim.counters, body]
            rfl
          rw [plain]
          cases loads with
          | false =>
            rw [wrapStream_honest placed fits stillIn stillOut]
            · apply follows_outcome sim
              intro result same
              cases same
            · simp only [ran]
              rfl
          | true =>
            -- The load faults, and the wrapper has no answer.
            rw [wrapStream_none]
            · constructor
              · intro met
                exact absurd rfl (met _)
              · intro later heap'' same
                cases same
            · simp only [ran]
              rfl

end

/-! ## Runs -/

/-- One call of the application, on both sides. -/
theorem call_follows {heap heap' : Heap δ ι} {strm strm' : ZStream UInt64}
    (sim : Sim heap strm heap' strm') (call : AppCall) :
    Follows (call.Meets Z heap (call.passed strm)) (call.plain Z heap (call.passed strm))
      (call.boxed Z heap' (call.passed strm')) := by
  have passed := sim.passed call
  have placed : (call.passed strm').NoWrap := ⟨call.placedIn, call.placedOut⟩
  unfold AppCall.Meets AppCall.plain AppCall.boxed
  cases call.op with
  | deflateInit2 params => exact deflateInit2_follows passed call.alloc params
  | inflateInit2 windowBits => exact inflateInit2_follows passed call.alloc windowBits
  | deflate flush => exact deflate_follows passed placed flush call.around
  | inflate flush => exact inflate_follows passed placed flush call.around
  | deflateReset => exact deflateReset_follows passed
  | inflateReset => exact inflateReset_follows passed
  | deflateEnd => exact deflateEnd_follows passed
  | inflateEnd => exact inflateEnd_follows passed

/-- Every call of the run on zlib meets its condition. -/
def MeetsRun (Z : Zlib δ ι) : Heap δ ι → ZStream UInt64 → List AppCall → Prop
  | _, _, [] => True
  | heap, strm, call :: calls =>
    match call.plain Z heap (call.passed strm) with
    | none => True
    | some (_, strm', heap') =>
      call.Meets Z heap (call.passed strm) ∧ MeetsRun Z heap' strm' calls

theorem run_follows {heap heap' : Heap δ ι} {strm strm' : ZStream UInt64}
    (sim : Sim heap strm heap' strm') (calls : List AppCall) :
    boxedRun Z heap' strm' calls = plainRun Z heap strm calls ↔ MeetsRun Z heap strm calls := by
  induction calls generalizing heap heap' strm strm' with
  | nil => simp [boxedRun, plainRun, observe, MeetsRun]
  | cons call calls ih =>
    have follows := @call_follows δ ι Z heap heap' strm strm' sim call
    have plainStep : plainRun Z heap strm (call :: calls) =
        match call.plain Z heap (call.passed strm) with
        | none => []
        | some (rc, now, after) => (rc, now.view) :: plainRun Z after now calls := rfl
    have boxedStep : boxedRun Z heap' strm' (call :: calls) =
        match call.boxed Z heap' (call.passed strm') with
        | none => []
        | some (rc, now, after) => (rc, now.view) :: boxedRun Z after now calls := rfl
    rw [plainStep, boxedStep, MeetsRun]
    cases plain : call.plain Z heap (call.passed strm) with
    | none =>
      rw [plain] at follows
      have boxed : call.boxed Z heap' (call.passed strm') = none := follows
      simp only [boxed]
    | some result =>
      obtain ⟨rc, now, after⟩ := result
      rw [plain] at follows
      obtain ⟨agrees, seen⟩ := follows
      -- The states correspond again behind a call that meets the condition, and only behind one.
      constructor
      · intro same
        cases boxed : call.boxed Z heap' (call.passed strm') with
        | none =>
          simp only [boxed] at same
          cases same
        | some result' =>
          obtain ⟨rc', now', after'⟩ := result'
          simp only [boxed, List.cons.injEq, Prod.mk.injEq] at same
          obtain ⟨⟨code, view⟩, rest⟩ := same
          rw [code] at boxed
          have met := seen now' after' boxed view.symm
          obtain ⟨now'', after'', answer, sim'⟩ := agrees met
          rw [boxed] at answer
          cases answer
          exact ⟨met, (ih sim').mp rest⟩
      · rintro ⟨met, rest⟩
        obtain ⟨now', after', answer, sim'⟩ := agrees met
        simp only [answer, sim'.view, (ih sim').mpr rest]

/-- The application sees through the wrapper what it sees of zlib, call by call, if and only if
every call of the run meets its condition. -/
theorem wrapper_transparent_iff (Z : Zlib δ ι) (heap : Heap δ ι) (strm : ZStream UInt64)
    (calls : List AppCall) :
    boxedRun Z heap strm calls = plainRun Z heap strm calls ↔ MeetsRun Z heap strm calls :=
  run_follows (.refl heap strm) calls

/-! ## A stream that is opened and closed -/

/-- zlib as far as no data is compressed. -/
def idle : Zlib Unit Unit where
  zcalloc := 0x1000
  zcfree := 0x1010
  deflateNew _ := ()
  deflateClear _ := ()
  deflateBody _ _ _ _ := none
  inflateNew _ := ()
  inflateClear _ := ()
  inflateBody _ _ _ _ := none
  zcalloc_ne := by decide
  zcfree_ne := by decide
  deflate_bounds := nofun
  inflate_bounds := nofun

/-- A call without buffers, and with memory for a state. -/
def AppCall.bare (op : Op) : AppCall where
  op := op
  nextIn := 0
  availIn := 0
  nextOut := 0
  availOut := 0
  around := ⟨[], [], true⟩
  alloc := ⟨0x2000, 0x3000, true, by decide⟩
  placedIn := by decide
  placedOut := by decide

/-- A zeroed stream. -/
def zeroed : ZStream UInt64 := copyBack cleared

/-- Behind `deflateEnd` the application's `state` is not `Z_NULL`. -/
theorem ended_differs :
    plainRun idle (fun _ => none) zeroed
        [.bare (.deflateInit2 ⟨6, 8, 15, 8, 0⟩), .bare .deflateEnd] =
      [(zOk, ⟨0, 0, 0, 0, 0, 0, 1, zUnknown, false⟩), (zOk, ⟨0, 0, 0, 0, 0, 0, 1, zUnknown, true⟩)] ∧
    boxedRun idle (fun _ => none) zeroed
        [.bare (.deflateInit2 ⟨6, 8, 15, 8, 0⟩), .bare .deflateEnd] =
      [(zOk, ⟨0, 0, 0, 0, 0, 0, 1, zUnknown, false⟩),
        (zOk, ⟨0, 0, 0, 0, 0, 0, 1, zUnknown, false⟩)] := by
  decide

end CheriGzip.ZWrapper
