import CheriGzip.Libz.Sandbox

/-!
# Sandboxed deflate and plain deflate

What a call through the copying path has in common with `zlib_deflate` on the same buffers,
and when the two are the same, over any sequence of calls.
-/
namespace CheriGzip.Libz

variable {σ : Type} {E : Deflate σ} {abi : Abi} {place : Place} {strm : ZStream σ} {flush : Int}
  {mem : Mem}

/-! ## The plain call -/

/-- The effect of `zlib_deflate` on the caller's buffers. -/
def plainEffect (E : Deflate σ) (strm : ZStream σ) (flush : Int) (mem : Mem) : Effect σ :=
  deflateEffect E strm flush mem.input.bytes

theorem accepted_pointers (accepted : refusal E strm flush = none) :
    strm.nextOut ≠ 0 ∧ (strm.nextIn = 0 → strm.availIn = 0) := by
  unfold refusal at accepted
  split at accepted
  · cases accepted
  · split at accepted
    · cases accepted
    · split at accepted
      · cases accepted
      next pointers =>
        rw [not_or, not_or, not_and, Classical.not_not] at pointers
        exact ⟨pointers.1, pointers.2.1⟩

theorem Owns.at (owns : Owns mem strm) (readable : strm.nextIn = 0 → strm.availIn = 0) :
    At strm mem 0 0 mem.input.bytes := by
  constructor
  · rw [owns.input]
    split
    next null => exact (readable null).symm
    · rfl
  · rw [owns.inBase]
    exact (Int.add_zero _).symm
  · rw [owns.outBase]
    exact (Int.add_zero _).symm
  · exact Nat.zero_le _
  · exact Nat.zero_le _
  · simp [Shows]

/-- The plain call stays inside the caller's buffers. -/
theorem plain_eq (owns : Owns mem strm) :
    zlibDeflate E strm flush mem = some ((plainEffect E strm flush mem).ret,
      (plainEffect E strm flush mem).strm strm,
      mem.put 0 (plainEffect E strm flush mem).produced) := by
  cases refused : refusal E strm flush with
  | some code =>
    rw [zlibDeflate_eq, refused, plainEffect, deflateEffect_refused refused]
    simp [Effect.strm, Mem.put, written]
  | none =>
    obtain ⟨nextOut, readable⟩ := accepted_pointers refused
    have bounds := deflateEffect_bounds E strm flush mem.input.bytes
    apply zlibDeflate_fits (owns.at readable)
    have length := (owns.at readable).length
    have room := owns.output
    rw [if_neg nextOut] at room
    constructor
    · omega
    · omega

/-! ## The sandboxed call -/

/-- The stream in the sandbox, with the pointers there. -/
def Place.moved (place : Place) (abi : Abi) (strm : ZStream σ) : ZStream σ :=
  { strm with nextIn := place.buffer + abi.sizeofReq, nextOut := place.malloc }

/-- The effect of `zlib_deflate` in the sandbox. -/
def sandboxEffect (E : Deflate σ) (abi : Abi) (place : Place) (strm : ZStream σ) (flush : Int)
    (mem : Mem) : Effect σ :=
  deflateEffect E (place.moved abi strm) flush mem.input.bytes

/-- A pointer taken back to where the caller has it. -/
theorem rebase (p q : Int) (n : Nat) : p + (q + n - q) = p + n := by
  omega

/-- What the sandbox sends back: the stream as the effect leaves it at the caller's pointers,
and a whole buffer. -/
theorem sandboxed_eq {data : Bytes} (length : data.length = strm.availIn) :
    sandboxLzDeflateBuffer E abi place strm flush data =
      .ok ((deflateEffect E (place.moved abi strm) flush data).ret,
        (deflateEffect E (place.moved abi strm) flush data).strm strm,
        written (place.fresh strm.availOut) 0
          (deflateEffect E (place.moved abi strm) flush data).produced) := by
  have bounds := deflateEffect_bounds E (place.moved abi strm) flush data
  have fresh := place.fresh_length strm.availOut
  have here : At (place.moved abi strm)
      ⟨⟨place.buffer + abi.sizeofReq, data⟩, ⟨place.malloc, place.fresh strm.availOut⟩⟩ 0 0
      data := by
    constructor
    · exact length
    · exact (Int.add_zero _).symm
    · exact (Int.add_zero _).symm
    · exact Nat.zero_le _
    · exact Nat.zero_le _
    · simp [Shows]
  obtain ⟨e, isE⟩ : ∃ e, e = deflateEffect E (place.moved abi strm) flush data := ⟨_, rfl⟩
  rw [← isE] at bounds ⊢
  have fits : e.Fits ⟨⟨place.buffer + abi.sizeofReq, data⟩,
      ⟨place.malloc, place.fresh strm.availOut⟩⟩ 0 0 := by
    simp only [Effect.Fits, length, fresh, Nat.zero_add]
    exact bounds
  have ran : zlibDeflate E
      { strm with nextIn := place.buffer + abi.sizeofReq, nextOut := place.malloc } flush
      ⟨⟨place.buffer + abi.sizeofReq, data⟩, ⟨place.malloc, place.fresh strm.availOut⟩⟩ =
      some (e.ret, e.strm (place.moved abi strm),
        Mem.put ⟨⟨place.buffer + abi.sizeofReq, data⟩,
          ⟨place.malloc, place.fresh strm.availOut⟩⟩ 0 e.produced) := by
    rw [isE] at fits ⊢
    exact zlibDeflate_fits here fits
  unfold sandboxLzDeflateBuffer
  rw [if_neg (by omega)]
  simp only [ran, Effect.strm, Place.moved, Mem.put, rebase]

/-- The buffer that the sandbox sends back. -/
def sentBack (E : Deflate σ) (abi : Abi) (place : Place) (strm : ZStream σ) (flush : Int)
    (mem : Mem) : Bytes :=
  written (place.fresh strm.availOut) 0 (sandboxEffect E abi place strm flush mem).produced

theorem sentBack_length : (sentBack E abi place strm flush mem).length = strm.availOut := by
  have bounds := deflateEffect_bounds E (place.moved abi strm) flush mem.input.bytes
  have fresh := place.fresh_length strm.availOut
  have fits : 0 + (sandboxEffect E abi place strm flush mem).produced.length ≤
      (place.fresh strm.availOut).length := by
    rw [fresh, Nat.zero_add]
    exact bounds.2
  rw [sentBack, written_length fits, fresh]

/-- When a reply is taken in: there are buffers, and `repsz` started from 0. -/
def TakesReply (place : Place) (strm : ZStream σ) : Prop :=
  place.repsz = 0 ∧ (strm.nextIn = 0 → strm.availIn = 0) ∧ (strm.nextOut = 0 → strm.availOut = 0)

theorem sandboxed_sentBack (owns : Owns mem strm)
    (readable : strm.nextIn = 0 → strm.availIn = 0) :
    mem.input.load strm.nextIn strm.availIn = some mem.input.bytes ∧
      sandboxLzDeflateBuffer E abi place strm flush mem.input.bytes =
        .ok ((sandboxEffect E abi place strm flush mem).ret,
          (sandboxEffect E abi place strm flush mem).strm strm,
          sentBack E abi place strm flush mem) := by
  have length := (owns.at readable).length
  constructor
  · rw [← owns.inBase, ← length]
    exact mem.input.load_whole
  · exact sandboxed_eq length

theorem lzDeflateInsandbox_ok (owns : Owns mem strm) (takes : TakesReply place strm) :
    lzDeflateInsandbox E abi place strm flush mem =
      .ok ((sandboxEffect E abi place strm flush mem).ret,
        (sandboxEffect E abi place strm flush mem).strm strm,
        { mem with output := ⟨mem.output.base, sentBack E abi place strm flush mem⟩ }) := by
  obtain ⟨repsz, readable, writable⟩ := takes
  obtain ⟨loaded, sent⟩ := @sandboxed_sentBack σ E abi place strm flush mem owns readable
  have room : (sentBack E abi place strm flush mem).length = mem.output.bytes.length := by
    rw [sentBack_length, owns.output]
    split
    next null => exact writable null
    · rfl
  have stored : mem.output.store strm.nextOut (sentBack E abi place strm flush mem) =
      some ⟨mem.output.base, sentBack E abi place strm flush mem⟩ := by
    rw [← owns.outBase]
    exact mem.output.store_whole room
  have count : UInt64.ofNat (abi.sizeofRep + (sentBack E abi place strm flush mem).length) =
      place.repsz + UInt64.ofNat abi.sizeofRep + UInt64.ofNat strm.availOut := by
    rw [sentBack_length, repsz, UInt64.zero_add, UInt64.ofNat_add]
  unfold lzDeflateInsandbox
  simp only [loaded, sent, stored, count, ne_eq, not_true, if_false]

theorem lzDeflateInsandbox_error (owns : Owns mem strm) (lost : ¬ TakesReply place strm) :
    lzDeflateInsandbox E abi place strm flush mem = .error .err := by
  unfold lzDeflateInsandbox
  by_cases readable : strm.nextIn = 0 → strm.availIn = 0
  · obtain ⟨loaded, sent⟩ := @sandboxed_sentBack σ E abi place strm flush mem owns readable
    simp only [loaded, sent]
    by_cases writable : strm.nextOut = 0 → strm.availOut = 0
    · have repsz : place.repsz ≠ 0 := fun zero => lost ⟨zero, readable, writable⟩
      have count : UInt64.ofNat (abi.sizeofRep + (sentBack E abi place strm flush mem).length) ≠
          place.repsz + UInt64.ofNat abi.sizeofRep + UInt64.ofNat strm.availOut := by
        rw [sentBack_length, UInt64.ofNat_add, UInt64.add_assoc]
        intro same
        apply repsz
        exact UInt64.right_eq_add.mp same
      split
      · rfl
      · rw [if_pos count]
    · -- There is no buffer at `Z_NULL` for what is sent back.
      obtain ⟨null, some⟩ := Classical.not_imp.mp writable
      have size := @sentBack_length σ E abi place strm flush mem
      have empty := owns.output
      rw [if_pos null] at empty
      have stored : mem.output.store strm.nextOut (sentBack E abi place strm flush mem) = none := by
        have outside := mem.output.store_base (k := 0) (Nat.zero_le _)
          (sentBack E abi place strm flush mem)
        rw [if_neg (by omega)] at outside
        rw [← owns.outBase]
        simpa using outside
      simp only [stored]
  · obtain ⟨null, some⟩ := Classical.not_imp.mp readable
    have empty := owns.input
    rw [if_pos null] at empty
    have loaded : mem.input.load strm.nextIn strm.availIn = none := by
      have outside := mem.input.load_base (k := 0) (Nat.zero_le _) strm.availIn
      rw [if_neg (by omega)] at outside
      rw [← owns.inBase]
      simpa using outside
    simp only [loaded]

/-! ## Where the two differ -/

/-- The checks that refuse a call with `Z_STREAM_ERROR` whatever its pointers are. -/
def RefusedAnyway (E : Deflate σ) (strm : ZStream σ) (flush : Int) : Prop :=
  strm.state = none ∨ flush > zBlock ∨ flush < 0 ∨
    ∃ s, strm.state = some s ∧ E.finished s = true ∧ flush ≠ zFinish

theorem refusal_anyway (refused : RefusedAnyway E strm flush) :
    refusal E strm flush = some zStreamError := by
  unfold refusal
  rcases refused with none | large | negative | ⟨s, some, finished, other⟩
  · rw [none]
  · cases strm.state with
    | none => rfl
    | some s => exact if_pos (.inl large)
  · cases strm.state with
    | none => rfl
    | some s => exact if_pos (.inr negative)
  · simp only [some, finished, other, ne_eq, not_false_eq_true, and_self, or_true, if_true,
      ite_self]

/-- Past those checks, the pointers and `avail_out` decide. -/
theorem refusal_pointers (passed : ¬ RefusedAnyway E strm flush) :
    refusal E strm flush =
      if strm.nextOut = 0 ∨ (strm.nextIn = 0 ∧ strm.availIn ≠ 0) then some zStreamError
      else if strm.availOut = 0 then some zBufError
      else none := by
  unfold RefusedAnyway at passed
  simp only [not_or, not_exists, not_and, Classical.not_not] at passed
  obtain ⟨state, small, positive, finished⟩ := passed
  unfold refusal
  cases some : strm.state with
  | none => exact absurd some state
  | some s =>
    have unfinished : ¬ (E.finished s = true ∧ flush ≠ zFinish) := by
      rintro ⟨ended, other⟩
      exact other (finished s some ended)
    simp only [small, positive, unfinished, or_false, if_false]

/-- The sandbox refuses what the plain call refuses, unless `next_out` is `Z_NULL`. -/
theorem refusal_moved (readable : strm.nextIn = 0 → strm.availIn = 0)
    (nextOut : strm.nextOut = 0 → RefusedAnyway E strm flush) :
    refusal E (place.moved abi strm) flush = refusal E strm flush := by
  have buffer : (place.moved abi strm).nextIn ≠ 0 := by
    have positive := place.buffer_pos
    simp only [Place.moved]
    omega
  by_cases refused : RefusedAnyway E strm flush
  · have refused' : RefusedAnyway E (place.moved abi strm) flush := refused
    rw [refusal_anyway refused, refusal_anyway refused']
  · have passed : ¬ RefusedAnyway E (place.moved abi strm) flush := refused
    have here : ¬ (strm.nextOut = 0 ∨ (strm.nextIn = 0 ∧ strm.availIn ≠ 0)) := by
      rintro (null | ⟨null, some⟩)
      · exact refused (nextOut null)
      · exact some (readable null)
    have there : ¬ ((place.moved abi strm).nextOut = 0 ∨
        ((place.moved abi strm).nextIn = 0 ∧ (place.moved abi strm).availIn ≠ 0)) := by
      rintro (null | ⟨null, -⟩)
      · exact place.malloc_ne null
      · exact buffer null
    rw [refusal_pointers refused, refusal_pointers passed, if_neg here, if_neg there]
    rfl

theorem sandboxEffect_eq (readable : strm.nextIn = 0 → strm.availIn = 0)
    (nextOut : strm.nextOut = 0 → RefusedAnyway E strm flush) :
    sandboxEffect E abi place strm flush mem = plainEffect E strm flush mem := by
  unfold sandboxEffect plainEffect deflateEffect
  rw [refusal_moved readable nextOut]
  rfl

/-- With `Z_NULL` as `next_out` and no room the sandbox says `Z_BUF_ERROR`. -/
theorem sandboxEffect_ne (null : strm.nextOut = 0) (empty : strm.availOut = 0)
    (passed : ¬ RefusedAnyway E strm flush) :
    (sandboxEffect E abi place strm flush mem).ret ≠ (plainEffect E strm flush mem).ret := by
  have there : refusal E (place.moved abi strm) flush = some zBufError := by
    have passed' : ¬ RefusedAnyway E (place.moved abi strm) flush := passed
    have positive := place.buffer_pos
    have pointers : ¬ ((place.moved abi strm).nextOut = 0 ∨
        ((place.moved abi strm).nextIn = 0 ∧ (place.moved abi strm).availIn ≠ 0)) := by
      rintro (null | ⟨null, -⟩)
      · exact place.malloc_ne null
      · simp only [Place.moved] at null
        omega
    rw [refusal_pointers passed', if_neg pointers]
    exact if_pos empty
  have here : refusal E strm flush = some zStreamError := by
    rw [refusal_pointers passed, if_pos (.inl null)]
  rw [sandboxEffect, plainEffect, deflateEffect_refused there, deflateEffect_refused here]
  intro same
  have codes : zBufError = zStreamError := same
  exact absurd codes (by decide)

/-! ## One call -/

/-- When a sandboxed call is the plain one: `repsz` held 0, there is something at the pointers
or nothing to be found there, and behind what the call produces the sandbox's fresh buffer
holds what the caller's holds. -/
structure Clean (E : Deflate σ) (place : Place) (strm : ZStream σ) (flush : Int) (mem : Mem) :
    Prop where
  repsz : place.repsz = 0
  readable : strm.nextIn = 0 → strm.availIn = 0
  writable : strm.nextOut = 0 → strm.availOut = 0 ∧ RefusedAnyway E strm flush
  tail : (place.fresh strm.availOut).drop (plainEffect E strm flush mem).produced.length =
    mem.output.bytes.drop (plainEffect E strm flush mem).produced.length

/-- The wrapper comes back with what `zlib_deflate` returns and leaves. -/
def Same (E : Deflate σ) (abi : Abi) (place : Place) (strm : ZStream σ) (flush : Int)
    (mem : Mem) : Prop :=
  ∃ r, zlibDeflate E strm flush mem = some r ∧ deflateWrapper E abi place strm flush mem = .ok r

theorem written_tail {bytes fresh p : Bytes} :
    written fresh 0 p = written bytes 0 p ↔ fresh.drop p.length = bytes.drop p.length := by
  simp [written]

theorem same_iff (owns : Owns mem strm) :
    Same E abi place strm flush mem ↔ Clean E place strm flush mem := by
  unfold Same deflateWrapper
  rw [plain_eq owns]
  constructor
  · rintro ⟨r, plain, sandboxed⟩
    cases plain
    have takes : TakesReply place strm := by
      apply Classical.byContradiction
      intro lost
      rw [lzDeflateInsandbox_error owns lost] at sandboxed
      cases sandboxed
    rw [lzDeflateInsandbox_ok owns takes, Except.ok.injEq, Prod.mk.injEq, Prod.mk.injEq] at sandboxed
    obtain ⟨ret, -, buffers⟩ := sandboxed
    obtain ⟨repsz, readable, writable⟩ := takes
    have nextOut : strm.nextOut = 0 → RefusedAnyway E strm flush := by
      intro null
      apply Classical.byContradiction
      intro passed
      exact sandboxEffect_ne null (writable null) passed ret
    refine ⟨repsz, readable, fun null => ⟨writable null, nextOut null⟩, ?_⟩
    have bytes := congrArg (fun m : Mem => m.output.bytes) buffers
    simp only [sentBack, sandboxEffect_eq readable nextOut, Mem.put] at bytes
    exact written_tail.mp bytes
  · intro clean
    have takes : TakesReply place strm :=
      ⟨clean.repsz, clean.readable, fun null => (clean.writable null).1⟩
    refine ⟨_, rfl, ?_⟩
    rw [lzDeflateInsandbox_ok owns takes]
    simp only [sentBack, sandboxEffect_eq clean.readable fun null => (clean.writable null).2,
      Mem.put, written_tail.mpr clean.tail]

/-! ## Sequences of calls -/

/-- A call of the application: where it lets the pointers point, how much it says is there, and
what lies there. -/
structure Call where
  nextIn : Int
  availIn : Nat
  nextOut : Int
  availOut : Nat
  flush : Int
  mem : Mem
  place : Place
  inBase : mem.input.base = nextIn
  outBase : mem.output.base = nextOut
  input : mem.input.bytes.length = if nextIn = 0 then 0 else availIn
  output : mem.output.bytes.length = if nextOut = 0 then 0 else availOut

/-- The stream that the application passes. -/
def Call.passed (call : Call) (strm : ZStream σ) : ZStream σ :=
  { strm with
    nextIn := call.nextIn
    availIn := call.availIn
    nextOut := call.nextOut
    availOut := call.availOut }

theorem Call.owns (call : Call) (strm : ZStream σ) : Owns call.mem (call.passed strm) where
  inBase := call.inBase
  outBase := call.outBase
  input := call.input
  output := call.output

/-- The calls on plain deflate, and what each returns and leaves. -/
def plainRun (E : Deflate σ) : ZStream σ → List Call → Option (List (Int × ZStream σ × Mem))
  | _, [] => some []
  | strm, call :: calls => do
    let r ← zlibDeflate E (call.passed strm) call.flush call.mem
    let rs ← plainRun E r.2.1 calls
    some (r :: rs)

/-- The calls on the wrapper. -/
def wrapperRun (E : Deflate σ) (abi : Abi) :
    ZStream σ → List Call → Except Stop (List (Int × ZStream σ × Mem))
  | _, [] => .ok []
  | strm, call :: calls =>
    match deflateWrapper E abi call.place (call.passed strm) call.flush call.mem with
    | .error stop => .error stop
    | .ok r => (wrapperRun E abi r.2.1 calls).map (r :: ·)

/-- Every call of the plain run is clean. -/
def CleanRun (E : Deflate σ) : ZStream σ → List Call → Prop
  | _, [] => True
  | strm, call :: calls =>
    Clean E call.place (call.passed strm) call.flush call.mem ∧
      ∀ r, zlibDeflate E (call.passed strm) call.flush call.mem = some r → CleanRun E r.2.1 calls

/-- The sandboxed calls return and leave what the plain ones do, call by call, if and only if
each of them is clean. -/
theorem transparent_iff (E : Deflate σ) (abi : Abi) (strm : ZStream σ) (calls : List Call) :
    (∃ rs, plainRun E strm calls = some rs ∧ wrapperRun E abi strm calls = .ok rs) ↔
      CleanRun E strm calls := by
  induction calls generalizing strm with
  | nil => simp [plainRun, wrapperRun, CleanRun]
  | cons call calls ih =>
    have one := @same_iff σ E abi call.place (call.passed strm) call.flush call.mem (call.owns strm)
    unfold CleanRun
    rw [← one]
    constructor
    · rintro ⟨rs, plain, sandboxed⟩
      obtain ⟨r, first, plain⟩ := Option.bind_eq_some_iff.mp plain
      obtain ⟨rs', rest, plain⟩ := Option.bind_eq_some_iff.mp plain
      cases plain
      unfold wrapperRun at sandboxed
      cases answer : deflateWrapper E abi call.place (call.passed strm) call.flush call.mem with
      | error stop =>
        rw [answer] at sandboxed
        cases sandboxed
      | ok r' =>
        rw [answer] at sandboxed
        cases others : wrapperRun E abi r'.2.1 calls with
        | error stop =>
          simp only [others] at sandboxed
          cases sandboxed
        | ok rs'' =>
          simp only [others] at sandboxed
          cases sandboxed
          refine ⟨⟨r, first, answer⟩, ?_⟩
          intro r'' first''
          rw [first] at first''
          cases first''
          exact (ih r.2.1).mp ⟨rs', rest, others⟩
    · rintro ⟨⟨r, first, first'⟩, rest⟩
      obtain ⟨rs, plain, sandboxed⟩ := (ih r.2.1).mpr (rest r first)
      refine ⟨r :: rs, ?_, ?_⟩
      · simp only [plainRun, first, plain, Option.bind_eq_bind, Option.bind_some]
      · simp only [wrapperRun, first', sandboxed]
        rfl

/-! ## A call that is not the same -/

/-- deflate in a state from which a call without input only says `Z_BUF_ERROR`. -/
def stuck : Deflate Unit where
  finished _ := false
  body _ _ := .done zBufError ()

/-- A call without input and with room for one byte, of what the sandbox's fresh buffer holds
a 7, and with this in `repsz`. -/
def Call.empty (repsz : UInt64) : Call where
  nextIn := 1000
  availIn := 0
  nextOut := 2000
  availOut := 1
  flush := 0
  mem := ⟨⟨1000, []⟩, ⟨2000, [0]⟩⟩
  place :=
    { repsz := repsz
      buffer := 3000
      malloc := 4000
      fresh := fun n => List.replicate n 7
      buffer_pos := by decide
      malloc_ne := by decide
      fresh_length := fun n => List.length_replicate }
  inBase := rfl
  outBase := rfl
  input := rfl
  output := rfl

/-- A stream that is open. -/
def opened : ZStream Unit where
  availIn := 0
  availOut := 0
  totalIn := 0
  totalOut := 0
  adler := 1
  dataType := 2
  nextIn := 0
  nextOut := 0
  state := some ()

/-- With a 16 left in `repsz` the wrapper aborts; with a 0 it spoils the caller's buffer. -/
theorem empty_differs :
    plainRun stuck opened [.empty 16] =
        some [(zBufError, (Call.empty 16).passed opened, ⟨⟨1000, []⟩, ⟨2000, [0]⟩⟩)] ∧
      wrapperRun stuck ⟨116, 116⟩ opened [.empty 16] = .error .err ∧
      plainRun stuck opened [.empty 0] =
        some [(zBufError, (Call.empty 0).passed opened, ⟨⟨1000, []⟩, ⟨2000, [0]⟩⟩)] ∧
      wrapperRun stuck ⟨116, 116⟩ opened [.empty 0] =
        .ok [(zBufError, (Call.empty 0).passed opened, ⟨⟨1000, []⟩, ⟨2000, [7]⟩⟩)] :=
  ⟨rfl, rfl, rfl, rfl⟩

end CheriGzip.Libz
