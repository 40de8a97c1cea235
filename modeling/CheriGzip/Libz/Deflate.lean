import CheriGzip.Lib.Region

/-!
# deflate.c

`zlib_deflate` with the checks at its head. Behind them deflate touches the caller's buffers
in `read_buf` and `flush_pending` only; the rest of it is a program that calls these two.
-/
namespace CheriGzip.Libz

/-- The counters of a `z_stream`. -/
structure Shown where
  availIn : Nat
  availOut : Nat
  totalIn : UInt64
  totalOut : UInt64
  adler : UInt64
  dataType : Int
  deriving DecidableEq, Repr

/-- A `z_stream`; address 0 is `Z_NULL`, and `state` what the pointer `state` refers to. -/
structure ZStream (σ : Type) extends Shown where
  nextIn : Int
  nextOut : Int
  state : Option σ
  deriving DecidableEq, Repr

/-- The memory at `next_in` and at `next_out`. -/
structure Mem where
  input : Region
  output : Region
  deriving DecidableEq, Repr

/-- deflate behind its checks, as far as it touches the stream. -/
inductive Body (σ : Type) where
  /-- `return ret` -/
  | done (ret : Int) (s : σ)
  /-- A look at the counters. -/
  | look (next : Shown → Body σ)
  /-- An assignment to `strm->adler` and `strm->data_type`. -/
  | mark (adler : UInt64) (dataType : Int) (next : Body σ)
  /-- `read_buf(strm, buf, size)`, with what it copies to `buf`. -/
  | readBuf (size : Nat) (next : Bytes → Body σ)
  /-- `flush_pending(strm)`, with how much of `pending` it copies. -/
  | flushPending (pending : Bytes) (next : Nat → Body σ)

/-- The compressor: whether `status` is `FINISH_STATE`, and what follows the checks. -/
structure Deflate (σ : Type) where
  finished : σ → Bool
  body : σ → Int → Body σ

def zOk : Int := 0
def zStreamError : Int := -2
def zBufError : Int := -5
def zFinish : Int := 4
def zBlock : Int := 5

variable {σ : Type}

/-- `read_buf` -/
def ZStream.readBuf (strm : ZStream σ) (mem : Mem) (size : Nat) : Option (Bytes × ZStream σ) := do
  let len := min size strm.availIn
  let bytes ← mem.input.load strm.nextIn len
  some (bytes, { strm with
    availIn := strm.availIn - len
    nextIn := strm.nextIn + len
    totalIn := strm.totalIn + UInt64.ofNat len })

/-- `flush_pending` -/
def ZStream.flushPending (strm : ZStream σ) (mem : Mem) (pending : Bytes) :
    Option (Nat × ZStream σ × Mem) := do
  let len := min pending.length strm.availOut
  let output ← mem.output.store strm.nextOut (pending.take len)
  some (len, { strm with
    nextOut := strm.nextOut + len
    totalOut := strm.totalOut + UInt64.ofNat len
    availOut := strm.availOut - len }, { mem with output := output })

/-- The body on a stream; `none` is an access outside the memory at the two pointers. -/
def Body.run : Body σ → ZStream σ → Mem → Option (Int × ZStream σ × Mem)
  | .done ret s, strm, mem => some (ret, { strm with state := some s }, mem)
  | .look next, strm, mem => (next strm.toShown).run strm mem
  | .mark adler dataType next, strm, mem =>
    next.run { strm with adler := adler, dataType := dataType } mem
  | .readBuf size next, strm, mem => do
    let (bytes, strm) ← strm.readBuf mem size
    (next bytes).run strm mem
  | .flushPending pending next, strm, mem => do
    let (len, strm, mem) ← strm.flushPending mem pending
    (next len).run strm mem

/-- `zlib_deflate` -/
def zlibDeflate (E : Deflate σ) (strm : ZStream σ) (flush : Int) (mem : Mem) :
    Option (Int × ZStream σ × Mem) :=
  match strm.state with
  | none => some (zStreamError, strm, mem)
  | some s =>
    if flush > zBlock ∨ flush < 0 then some (zStreamError, strm, mem)
    else if strm.nextOut = 0 ∨ (strm.nextIn = 0 ∧ strm.availIn ≠ 0) ∨
        (E.finished s ∧ flush ≠ zFinish) then
      some (zStreamError, strm, mem)
    else if strm.availOut = 0 then some (zBufError, strm, mem)
    else (E.body s flush).run strm mem

/-! ## What a call does, without addresses -/

/-- The outcome of a call: how many bytes it takes, and the bytes it makes. -/
structure Effect (σ : Type) where
  ret : Int
  state : Option σ
  shown : Shown
  consumed : Nat
  produced : Bytes

/-- The counters behind `read_buf` of `len` bytes. -/
def Shown.took (shown : Shown) (len : Nat) : Shown :=
  { shown with
    availIn := shown.availIn - len
    totalIn := shown.totalIn + UInt64.ofNat len }

/-- The counters behind `flush_pending` of `len` bytes. -/
def Shown.made (shown : Shown) (len : Nat) : Shown :=
  { shown with
    availOut := shown.availOut - len
    totalOut := shown.totalOut + UInt64.ofNat len }

/-- The body on the `avail_in` bytes `input`. -/
def Body.effect : Body σ → Shown → Bytes → Effect σ
  | .done ret s, shown, _ => ⟨ret, some s, shown, 0, []⟩
  | .look next, shown, input => (next shown).effect shown input
  | .mark adler dataType next, shown, input =>
    next.effect { shown with adler := adler, dataType := dataType } input
  | .readBuf size next, shown, input =>
    let len := min size shown.availIn
    let rest := (next (input.take len)).effect (shown.took len) (input.drop len)
    { rest with consumed := len + rest.consumed }
  | .flushPending pending next, shown, input =>
    let len := min pending.length shown.availOut
    let rest := (next len).effect (shown.made len) input
    { rest with produced := pending.take len ++ rest.produced }

/-- The stream after a call. -/
def Effect.strm (e : Effect σ) (strm : ZStream σ) : ZStream σ where
  toShown := e.shown
  nextIn := strm.nextIn + e.consumed
  nextOut := strm.nextOut + e.produced.length
  state := e.state

/-- The bytes of a buffer after a call that wrote `produced` at offset `k`. -/
def written (bytes : Bytes) (k : Nat) (produced : Bytes) : Bytes :=
  bytes.take k ++ produced ++ bytes.drop (k + produced.length)

/-- `input` and what the region holds from offset `k` on are the same as far as both go. -/
def Shows (r : Region) (k : Nat) (input : Bytes) : Prop :=
  (r.bytes.drop k).take input.length = input.take (r.bytes.length - k)

theorem Shows.take {r : Region} {k len : Nat} {input : Bytes} (shows : Shows r k input)
    (most : len ≤ input.length) (inside : k + len ≤ r.bytes.length) :
    (r.bytes.drop k).take len = input.take len := by
  have same := congrArg (List.take len) (show _ = _ from shows)
  rw [List.take_take, List.take_take, Nat.min_eq_left most, Nat.min_eq_left (by omega)] at same
  exact same

theorem Shows.drop {r : Region} {k : Nat} {input : Bytes} (shows : Shows r k input) (len : Nat) :
    Shows r (k + len) (input.drop len) := by
  have same := congrArg (List.drop len) (show _ = _ from shows)
  rw [List.drop_take, List.drop_take, List.drop_drop] at same
  unfold Shows
  rw [List.length_drop, same]
  congr 1
  omega

/-- Writing on behind what was written. -/
theorem written_written {bytes p q : Bytes} {k : Nat} (inside : k + p.length ≤ bytes.length) :
    written (written bytes k p) (k + p.length) q = written bytes k (p ++ q) := by
  have first : (bytes.take k ++ p).length = k + p.length := by
    rw [List.length_append, List.length_take, Nat.min_eq_left (by omega)]
  have before : (written bytes k p).take (k + p.length) = bytes.take k ++ p := by
    rw [written, ← first, List.take_left]
  have behind : (written bytes k p).drop (k + p.length + q.length) =
      bytes.drop (k + (p ++ q).length) := by
    have rest : (written bytes k p).drop (k + p.length) = bytes.drop (k + p.length) := by
      rw [written, ← first, List.drop_left]
    rw [← List.drop_drop, rest, List.drop_drop, List.length_append, Nat.add_assoc]
  rw [written, before, behind, written]
  simp only [List.append_assoc]

theorem written_length {bytes p : Bytes} {k : Nat} (inside : k + p.length ≤ bytes.length) :
    (written bytes k p).length = bytes.length := by
  simp only [written, List.length_append, List.length_take, List.length_drop]
  omega

/-- The memory has room for the effect at these offsets. -/
def Effect.Fits (e : Effect σ) (mem : Mem) (k j : Nat) : Prop :=
  k + e.consumed ≤ mem.input.bytes.length ∧ j + e.produced.length ≤ mem.output.bytes.length

/-- The stream's pointers stand at these offsets in the memory, with `input` to be read. -/
structure At (strm : ZStream σ) (mem : Mem) (k j : Nat) (input : Bytes) : Prop where
  length : input.length = strm.availIn
  nextIn : strm.nextIn = mem.input.base + k
  nextOut : strm.nextOut = mem.output.base + j
  insideIn : k ≤ mem.input.bytes.length
  insideOut : j ≤ mem.output.bytes.length
  shows : Shows mem.input k input

/-- The stream behind `read_buf` of `len` bytes. -/
def ZStream.took (strm : ZStream σ) (len : Nat) : ZStream σ :=
  { strm with toShown := strm.toShown.took len, nextIn := strm.nextIn + len }

/-- The stream behind `flush_pending` of `len` bytes. -/
def ZStream.made (strm : ZStream σ) (len : Nat) : ZStream σ :=
  { strm with toShown := strm.toShown.made len, nextOut := strm.nextOut + len }

section

variable {strm : ZStream σ} {mem : Mem} {k j : Nat} {input : Bytes}

theorem At.readBuf_eq (place : At strm mem k j input) (size : Nat) :
    strm.readBuf mem size =
      if k + min size strm.availIn ≤ mem.input.bytes.length then
        some (input.take (min size strm.availIn), strm.took (min size strm.availIn))
      else none := by
  have most : min size strm.availIn ≤ input.length := by
    rw [place.length]
    omega
  have loaded := mem.input.load_base place.insideIn (min size strm.availIn)
  rw [← place.nextIn] at loaded
  simp only [ZStream.readBuf, loaded]
  split
  next fits =>
    rw [place.shows.take most fits]
    rfl
  · rfl

theorem At.took (place : At strm mem k j input) {len : Nat}
    (fits : k + len ≤ mem.input.bytes.length) :
    At (strm.took len) mem (k + len) j (input.drop len) := by
  constructor
  · simp only [ZStream.took, Shown.took, List.length_drop, place.length]
  · simp only [ZStream.took, place.nextIn, Int.natCast_add, Int.add_assoc]
  · exact place.nextOut
  · exact fits
  · exact place.insideOut
  · exact place.shows.drop len

/-- The memory with `data` written at offset `j` of the output. -/
def Mem.put (mem : Mem) (j : Nat) (data : Bytes) : Mem :=
  { mem with output := ⟨mem.output.base, written mem.output.bytes j data⟩ }

theorem Mem.put_size (mem : Mem) {data : Bytes} (fits : j + data.length ≤ mem.output.bytes.length) :
    (mem.put j data).output.bytes.length = mem.output.bytes.length :=
  written_length fits

theorem Mem.put_put (mem : Mem) {p q : Bytes} (fits : j + p.length ≤ mem.output.bytes.length) :
    (mem.put j p).put (j + p.length) q = mem.put j (p ++ q) := by
  simp only [Mem.put, written_written fits]

theorem flushed_length (pending : Bytes) (room : Nat) :
    (pending.take (min pending.length room)).length = min pending.length room := by
  rw [List.length_take]
  exact Nat.min_eq_left (Nat.min_le_left _ _)

theorem At.flushPending_eq (place : At strm mem k j input) (pending : Bytes) :
    strm.flushPending mem pending =
      if j + min pending.length strm.availOut ≤ mem.output.bytes.length then
        some (min pending.length strm.availOut, strm.made (min pending.length strm.availOut),
          mem.put j (pending.take (min pending.length strm.availOut)))
      else none := by
  have count := flushed_length pending strm.availOut
  have stored := mem.output.store_base place.insideOut
    (pending.take (min pending.length strm.availOut))
  rw [← place.nextOut, count] at stored
  simp only [ZStream.flushPending, stored]
  split
  · simp only [Mem.put, written, count]
    rfl
  · rfl

theorem At.made (place : At strm mem k j input) {data : Bytes}
    (fits : j + data.length ≤ mem.output.bytes.length) :
    At (strm.made data.length) (mem.put j data) k (j + data.length) input := by
  constructor
  · exact place.length
  · exact place.nextIn
  · simp only [ZStream.made, Mem.put, place.nextOut, Int.natCast_add, Int.add_assoc]
  · exact place.insideIn
  · rw [mem.put_size fits]
    exact fits
  · exact place.shows

/-- Where the memory has room, a run is the effect, wherever the memory lies. -/
theorem Body.run_fits (body : Body σ) (place : At strm mem k j input)
    (fits : (body.effect strm.toShown input).Fits mem k j) :
    body.run strm mem = some ((body.effect strm.toShown input).ret,
      (body.effect strm.toShown input).strm strm,
      mem.put j (body.effect strm.toShown input).produced) := by
  -- By the body of the call: each step that loads or stores fits, and so does the rest.
  induction body generalizing strm mem k j input with
  | done ret s => simp [run, effect, Effect.strm, Mem.put, written]
  | look next ih => exact ih strm.toShown place fits
  | mark adler dataType next ih =>
    have place' : At { strm with adler := adler, dataType := dataType } mem k j input :=
      { place with }
    exact ih place' fits
  | readBuf size next ih =>
    obtain ⟨fitsIn, fitsOut⟩ := fits
    simp only [effect] at fitsIn fitsOut
    have room : k + min size strm.availIn ≤ mem.input.bytes.length := by omega
    have rest := ih _ (place.took room) ⟨by rw [Nat.add_assoc]; exact fitsIn, fitsOut⟩
    simp only [run, place.readBuf_eq, if_pos room]
    refine rest.trans ?_
    simp only [effect, Effect.strm, ZStream.took, Int.natCast_add, Int.add_assoc]
  | flushPending pending next ih =>
    obtain ⟨data, isData⟩ : ∃ data, data = pending.take (min pending.length strm.availOut) :=
      ⟨_, rfl⟩
    have count : data.length = min pending.length strm.availOut := by
      rw [isData, flushed_length]
    have self : pending.take data.length = data := by rw [count, ← isData]
    obtain ⟨e, isE⟩ : ∃ e, e = (next data.length).effect (strm.made data.length).toShown input :=
      ⟨_, rfl⟩
    have whole : (Body.flushPending pending next).effect strm.toShown input =
        { e with produced := data ++ e.produced } := by
      rw [isE, count, isData]
      rfl
    rw [whole] at fits ⊢
    obtain ⟨fitsIn, fitsOut⟩ := fits
    simp only [List.length_append] at fitsIn fitsOut
    have room : j + data.length ≤ mem.output.bytes.length := by omega
    have rest := ih data.length (place.made room)
      ⟨by rw [← isE]; exact fitsIn, by rw [← isE, mem.put_size room]; omega⟩
    simp only [run, place.flushPending_eq, ← count, self, if_pos room]
    refine rest.trans ?_
    rw [← isE, mem.put_put room]
    simp only [Effect.strm, ZStream.made, Int.natCast_add, Int.add_assoc, List.length_append]

/-- Where the memory has no room, a run goes outside of it. -/
theorem Body.run_outside (body : Body σ) (place : At strm mem k j input)
    (outside : ¬ (body.effect strm.toShown input).Fits mem k j) :
    body.run strm mem = none := by
  -- The first step that does not fit ends the run; if this one fits, a later one does not.
  induction body generalizing strm mem k j input with
  | done ret s => exact absurd ⟨place.insideIn, place.insideOut⟩ outside
  | look next ih => exact ih strm.toShown place outside
  | mark adler dataType next ih =>
    have place' : At { strm with adler := adler, dataType := dataType } mem k j input :=
      { place with }
    exact ih place' outside
  | readBuf size next ih =>
    simp only [run, place.readBuf_eq]
    split
    next room =>
      apply ih _ (place.took room)
      intro fits
      apply outside
      obtain ⟨fitsIn, fitsOut⟩ := fits
      refine ⟨?_, fitsOut⟩
      simp only [effect]
      rw [← Nat.add_assoc]
      exact fitsIn
    · rfl
  | flushPending pending next ih =>
    obtain ⟨data, isData⟩ : ∃ data, data = pending.take (min pending.length strm.availOut) :=
      ⟨_, rfl⟩
    have count : data.length = min pending.length strm.availOut := by
      rw [isData, flushed_length]
    have self : pending.take data.length = data := by rw [count, ← isData]
    simp only [run, place.flushPending_eq, ← count, self]
    split
    next room =>
      apply ih data.length (place.made room)
      intro fits
      apply outside
      obtain ⟨fitsIn, fitsOut⟩ := fits
      rw [mem.put_size room] at fitsOut
      refine ⟨?_, ?_⟩
      · simp only [effect, ← count]
        exact fitsIn
      · simp only [effect, ← count, self, List.length_append]
        rw [← Nat.add_assoc]
        exact fitsOut
    · rfl

end

/-- A call takes at most `avail_in` bytes and makes at most `avail_out`. -/
theorem Body.effect_bounds (body : Body σ) (shown : Shown) (input : Bytes) :
    (body.effect shown input).consumed ≤ shown.availIn ∧
      (body.effect shown input).produced.length ≤ shown.availOut := by
  induction body generalizing shown input with
  | done => exact ⟨Nat.zero_le _, Nat.zero_le _⟩
  | look next ih => exact ih shown shown input
  | mark adler dataType next ih => exact ih _ input
  | readBuf size next ih =>
    obtain ⟨taken, made⟩ := ih (input.take (min size shown.availIn))
      (shown.took (min size shown.availIn)) (input.drop (min size shown.availIn))
    simp only [Shown.took] at taken made
    constructor
    · simp only [effect, Shown.took]
      omega
    · exact made
  | flushPending pending next ih =>
    obtain ⟨taken, made⟩ := ih (min pending.length shown.availOut)
      (shown.made (min pending.length shown.availOut)) input
    simp only [Shown.made] at taken made
    constructor
    · exact taken
    · simp only [effect, Shown.made, List.length_append, flushed_length]
      omega

/-! ## A call of deflate -/

variable {E : Deflate σ} {flush : Int}

/-- The code with which the checks refuse a call. -/
def refusal (E : Deflate σ) (strm : ZStream σ) (flush : Int) : Option Int :=
  match strm.state with
  | none => some zStreamError
  | some s =>
    if flush > zBlock ∨ flush < 0 then some zStreamError
    else if strm.nextOut = 0 ∨ (strm.nextIn = 0 ∧ strm.availIn ≠ 0) ∨
        (E.finished s ∧ flush ≠ zFinish) then
      some zStreamError
    else if strm.availOut = 0 then some zBufError
    else none

/-- The effect of a call; a call that is refused has none. -/
def deflateEffect (E : Deflate σ) (strm : ZStream σ) (flush : Int) (input : Bytes) : Effect σ :=
  match refusal E strm flush, strm.state with
  | none, some s => (E.body s flush).effect strm.toShown input
  | code, state => ⟨code.getD zStreamError, state, strm.toShown, 0, []⟩

theorem deflateEffect_refused {strm : ZStream σ} {code : Int}
    (refused : refusal E strm flush = some code) (input : Bytes) :
    deflateEffect E strm flush input = ⟨code, strm.state, strm.toShown, 0, []⟩ := by
  simp only [deflateEffect, refused, Option.getD_some]

theorem deflateEffect_accepted {strm : ZStream σ} {s : σ} (state : strm.state = some s)
    (accepted : refusal E strm flush = none) (input : Bytes) :
    deflateEffect E strm flush input = (E.body s flush).effect strm.toShown input := by
  simp only [deflateEffect, accepted, state]

theorem zlibDeflate_eq (E : Deflate σ) (strm : ZStream σ) (flush : Int) (mem : Mem) :
    zlibDeflate E strm flush mem =
      match refusal E strm flush, strm.state with
      | none, some s => (E.body s flush).run strm mem
      | code, _ => some (code.getD zStreamError, strm, mem) := by
  unfold zlibDeflate refusal
  cases strm.state with
  | none => rfl
  | some s =>
    simp only
    split
    · rfl
    · split
      · rfl
      · split <;> rfl

section

variable {strm : ZStream σ} {mem : Mem} {input : Bytes}

theorem deflateEffect_bounds (E : Deflate σ) (strm : ZStream σ) (flush : Int) (input : Bytes) :
    (deflateEffect E strm flush input).consumed ≤ strm.availIn ∧
      (deflateEffect E strm flush input).produced.length ≤ strm.availOut := by
  unfold deflateEffect
  split
  · exact Body.effect_bounds _ _ _
  · exact ⟨Nat.zero_le _, Nat.zero_le _⟩

/-- The whole call at the beginning of its buffers, where they have room. -/
theorem zlibDeflate_fits (place : At strm mem 0 0 input)
    (fits : (deflateEffect E strm flush input).Fits mem 0 0) :
    zlibDeflate E strm flush mem = some ((deflateEffect E strm flush input).ret,
      (deflateEffect E strm flush input).strm strm,
      mem.put 0 (deflateEffect E strm flush input).produced) := by
  rw [zlibDeflate_eq]
  cases refused : refusal E strm flush with
  | some code => simp [deflateEffect_refused refused, Effect.strm, Mem.put, written]
  | none =>
    cases state : strm.state with
    | none => simp [refusal, state] at refused
    | some s =>
      rw [deflateEffect_accepted state refused] at fits ⊢
      exact (E.body s flush).run_fits place fits

/-- The call goes outside of its buffers where they have no room. -/
theorem zlibDeflate_outside (place : At strm mem 0 0 input)
    (outside : ¬ (deflateEffect E strm flush input).Fits mem 0 0) :
    zlibDeflate E strm flush mem = none := by
  rw [zlibDeflate_eq]
  cases refused : refusal E strm flush with
  | some code =>
    rw [deflateEffect_refused refused] at outside
    exact absurd ⟨Nat.zero_le _, Nat.zero_le _⟩ outside
  | none =>
    cases state : strm.state with
    | none => simp [refusal, state] at refused
    | some s =>
      rw [deflateEffect_accepted state refused] at outside
      exact (E.body s flush).run_outside place outside

end

end CheriGzip.Libz
