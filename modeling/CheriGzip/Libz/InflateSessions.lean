import CheriGzip.Libz.InflateRuns

/-!
# Sessions with inflate

Any number of calls of `inflate` after `inflateInit2`, with the data in any pieces, any room and any
`flush`. What a call returns is a matter of the decoder and the data alone, and not of how the data
came to the call.
-/
namespace CheriGzip.Inflate

open Loop

/-- The decoder at the first bit, when the arrays of the allocated state hold these. -/
def Decoder.start (lens : List Nat) (codes : List Code) : Decoder where
  regs := (Inflater.start 15 lens codes).regs
  pending := ⟨0, 0, 0⟩
  pos := 0
  out := []

/-- The input of a call is a beginning of what is `rest` of the data. -/
def Slice.Feeds (io : Slice) (rest : Bytes) : Prop :=
  ∀ k < io.avail, ∃ b, rest[k]? = some b ∧ io.mem (io.next.add k) = some b

/-- So many rounds of each loop are enough for a call. -/
def Inflater.rounds (io : Slice) (s : Inflater) : Nat :=
  8 * (s.input.bits + 8 * io.avail + io.room.length) + 8

/-- Calls one after another on `data`: they took `consumed` bytes of it, and they put `out`. -/
inductive Session (lens : List Nat) (codes : List Code) (data : Bytes) :
    (consumed : Nat) → (out : Bytes) → Inflater → Prop where
  | start : Session lens codes data 0 [] (.start 15 lens codes)
  | call {consumed fuel flush : Nat} {out : Bytes} {s s' : Inflater} {io : Slice} {ret : Int}
      (session : Session lens codes data consumed out s) (feeds : io.Feeds (data.drop consumed))
      (fuelled : s.rounds io ≤ fuel) (returns : inflate libzU fuel flush io s = some (ret, s')) :
      Session lens codes data (consumed + (io.avail - s'.input.avail)) (out ++ s'.out) s'

section

variable {lens : List Nat} {codes : List Code} {data out : Bytes} {consumed fuel flush : Nat}
  {s s' : Inflater} {d d' : Decoder} {io : Slice}

theorem Slice.Feeds.carries (feeds : io.Feeds (data.drop consumed)) :
    io.Carries (ofLe data) consumed := by
  intro k inside
  obtain ⟨b, there, read⟩ := feeds k inside
  rw [List.getElem?_drop] at there
  obtain ⟨within, same⟩ := List.getElem?_eq_some_iff.mp there
  refine ⟨b, read, ?_⟩
  rw [ofLe_byte within, same]

theorem Slice.Feeds.within (feeds : io.Feeds (data.drop consumed)) (le : consumed ≤ data.length) :
    consumed + io.avail ≤ data.length := by
  by_cases none : io.avail = 0
  · omega
  · obtain ⟨b, there, -⟩ := feeds (io.avail - 1) (by omega)
    obtain ⟨inside, -⟩ := List.getElem?_eq_some_iff.mp there
    rw [List.length_drop] at inside
    omega

theorem Decoder.start_sound (sized : (Inflater.start 15 lens codes).regs.Sized) :
    (Decoder.start lens codes).Sound :=
  ⟨sized, trivial, nofun, trivial⟩

theorem Resumes.start (sized : (Inflater.start 15 lens codes).regs.Sized) (x : Nat) :
    Resumes x 0 [] (.start 15 lens codes) (.start lens codes) where
  regs := rfl
  sound := Decoder.start_sound sized
  sane := rfl
  wbits := rfl
  window := .inl (.start rfl)
  out := rfl
  pending := trivial
  pos := ⟨0, (bitField_zero x 0).symm, rfl, .inr rfl⟩
  few := .inr (.inl (Nat.zero_lt_succ 7))

/-! ## What a call returns -/

/-- What `ret` says about the decoder `d` that a call has come to, when `consumed` bytes of the data
were taken then. -/
inductive Means (data : Bytes) (consumed flush : Nat) (io : Slice) (s' : Inflater) (d : Decoder) :
    (ret : Int) → Prop where
  /-- All the input was taken, and the decoder comes to read what was not there. -/
  | starved {d₁ d₂ : Decoder} (none : s'.input.avail = 0)
      (goes : Goes (Decoder.step (ofLe data)) d d₁)
      (step : d₁.step (ofLe data) = .again d₂) (lacks : 8 * consumed < d₂.pos) :
      Means data consumed flush io s' d zOk
  /-- All the room was used, and the decoder is about to put a byte. -/
  | full (none : s'.out.length = io.room.length) (puts : d.Puts) :
      Means data consumed flush io s' d zOk
  | boundary (is : flush = zBlock ∨ flush = zTrees) (boundary : d.regs.Boundary) :
      Means data consumed flush io s' d zOk
  /-- Nothing came of the call, or it was to be the last one. -/
  | buffer (nothing : s'.input.avail = io.avail ∧ s'.out = [] ∨ flush = zFinish)
      (ok : Means data consumed flush io s' d zOk) : Means data consumed flush io s' d zBufError
  /-- The data is at its end, and nothing behind it was taken. -/
  | ended (block : d.regs.block = some .done) (all : d.pos = 8 * consumed) :
      Means data consumed flush io s' d zStreamEnd
  | failed (failed : d.regs.Failed) : Means data consumed flush io s' d zDataError

/-- The decoder has read no more than what was taken. -/
theorem Resumes.behind {x : Nat} (resumes : Resumes x consumed out s d) : d.pos ≤ 8 * consumed := by
  obtain ⟨c, -, total, ⟨-, -, le⟩ | rfl⟩ := resumes.pos
  · omega
  · omega

/-- At the end of the data there are no bits left. -/
theorem Resumes.ended {x : Nat} (resumes : Resumes x consumed out s d)
    (block : d.regs.block = some .done) : d.pos = 8 * consumed := by
  have whole := resumes.sound.pends
  simp only [Decoder.Pends, block] at whole
  have stays : ∀ d', d.step x ≠ .again d' := by
    intro d' step
    simp only [Decoder.step, block] at step
    cases step
  have fine : ¬ d.regs.Failed := by simp [Registers.Failed, block]
  obtain ⟨c, -, total, place⟩ := resumes.pos
  have place' : c = d.pos := place.resolve_left fun failed => fine failed.1
  rcases resumes.few with failed | few | ⟨d', step, -⟩
  · exact absurd failed fine
  · omega
  · exact absurd step (stays d')

/-- How a call comes from `d` to `d'`, with `out` put before it: it keeps to its input and its room,
what it puts is what the decoder puts, and it returns for a reason, or there was no memory. -/
structure Came (data : Bytes) (consumed flush : Nat) (out : Bytes) (io : Slice) (s : Inflater)
    (d : Decoder) (ret : Int) (s' : Inflater) (d' : Decoder) : Prop where
  avail : s'.input.avail ≤ io.avail
  room : s'.out.length ≤ io.room.length
  goes : Goes (Decoder.step (ofLe data)) d d'
  sound : d'.Sound
  put : d'.out = out ++ s'.out
  why : Means data (consumed + (io.avail - s'.input.avail)) flush io s' d' ret ∨
    ret = zMemError ∧ (io.alloc = none ∨ s.regs.block = some .mem)

variable (flush) in
theorem Resumes.comes (resumes : Resumes (ofLe data) consumed out s d)
    (feeds : io.Feeds (data.drop consumed)) (fuelled : s.rounds io ≤ fuel) :
    ∃ ret s' d', inflate libzU fuel flush io s = some (ret, s') ∧
      Came data consumed flush out io s d ret s' d' ∧
      d'.pos ≤ 8 * (consumed + (io.avail - s'.input.avail)) ∧
      (Resumes (ofLe data) (consumed + (io.avail - s'.input.avail)) (out ++ s'.out) s' d' ∨
        ret = zMemError ∧ s'.regs.block = some .mem) := by
  have calls := resumes.calls flush feeds.carries fuelled
  generalize inflate libzU fuel flush io s = r at calls
  cases calls with
  | memory none goes sound put avail room block pos =>
    exact ⟨_, _, _, rfl, ⟨avail, room, goes, sound, put, .inr ⟨rfl, .inl none⟩⟩, pos,
      .inr ⟨rfl, block⟩⟩
  | @resumes ret s₁ s' d' goes resumes' avail room stops input put =>
    have total : (io.stream (ofLe data) consumed).total =
        8 * (consumed + io.avail) := rfl
    have means : Means data (consumed + (io.avail - s'.input.avail)) flush io s' d' ret := by
      cases stops with
      | starved none goes step lacks =>
        rw [total] at lacks
        exact .starved none goes step (by omega)
      | full none puts => exact .full none puts
      | boundary is boundary => exact .boundary is boundary
      | ended block => exact .ended block (resumes'.ended block)
      | failed failed => exact .failed failed
    refine ⟨_, _, _, rfl, ⟨avail, room, goes, resumes'.sound, resumes'.out, .inl ?_⟩,
      resumes'.behind, .inl resumes'⟩
    simp only [Inflater.leave, ← input, ← put]
    split
    · rename_i buffer
      obtain ⟨nothing, ok⟩ := buffer
      rw [ok] at means
      exact .buffer (nothing.imp_left fun still => ⟨by omega, still.2⟩) means
    · exact means

/-- Whatever the calls were, the decoder has come to what they have put. -/
theorem Session.comes (session : Session lens codes data consumed out s)
    (sized : (Inflater.start 15 lens codes).regs.Sized) :
    consumed ≤ data.length ∧ ∃ d, Goes (Decoder.step (ofLe data)) (.start lens codes) d ∧
      d.Sound ∧ d.out = out ∧ d.pos ≤ 8 * consumed ∧
      (Resumes (ofLe data) consumed out s d ∨ s.regs.block = some .mem) := by
  induction session with
  | start =>
    exact ⟨Nat.zero_le _, _, .refl _, Decoder.start_sound sized, rfl, Nat.zero_le _,
      .inl (.start sized _)⟩
  | @call consumed fuel flush out s s' io ret session feeds fuelled returns ih =>
    obtain ⟨le, d, goes, sound, put, behind, state⟩ := ih
    have within := feeds.within le
    refine ⟨by omega, ?_⟩
    rcases state with resumes | block
    · obtain ⟨ret', s'', d', returns', came, behind', left⟩ :=
        resumes.comes flush feeds fuelled
      rw [returns] at returns'
      cases returns'
      exact ⟨d', goes.trans came.goes, came.sound, came.put, behind', left.imp_right And.right⟩
    · obtain ⟨same, block'⟩ := inflate_mem fuel flush block io
      rw [returns] at same
      cases same
      exact ⟨d, goes, sound, by rw [put]; exact (List.append_nil out).symm, by omega, .inr block'⟩

/-- After any calls, the next one returns. It reads and writes only inside of its memory, it takes
the decoder further by what it puts, and what it returns says why it stops. -/
theorem session_returns (session : Session lens codes data consumed out s)
    (sized : (Inflater.start 15 lens codes).regs.Sized) (feeds : io.Feeds (data.drop consumed))
    (fuelled : s.rounds io ≤ fuel) :
    ∃ ret s' d', inflate libzU fuel flush io s = some (ret, s') ∧
      Came data consumed flush out io s (.start lens codes) ret s' d' := by
  obtain ⟨-, d, goes, sound, put, -, resumes | block⟩ := session.comes sized
  · obtain ⟨ret, s', d', returns, came, -, -⟩ := resumes.comes flush feeds fuelled
    exact ⟨ret, s', d', returns, { came with goes := goes.trans came.goes }⟩
  · obtain ⟨returns, -⟩ := inflate_mem fuel flush block io
    refine ⟨_, _, d, returns, Nat.le_refl _, Nat.zero_le _, goes, sound, ?_, .inr ⟨rfl, .inr block⟩⟩
    rw [put]
    exact (List.append_nil out).symm

end

/-- A call with these bytes in memory. -/
def Slice.of (input room : Bytes) (alloc : Option (Nat → UInt8)) : Slice where
  mem p := if p.object = 1 ∧ 0 ≤ p.addr then input[p.addr.toNat]? else none
  next := ⟨1, 0⟩
  avail := input.length
  base := 0
  before := []
  room := room
  alloc := alloc

theorem Slice.of_feeds (input room : Bytes) (alloc : Option (Nat → UInt8)) (rest : Bytes) :
    (Slice.of input room alloc).Feeds (input ++ rest) := by
  intro k inside
  have inside' : k < input.length := inside
  refine ⟨input[k], ?_, ?_⟩
  · rw [List.getElem?_append_left inside', List.getElem?_eq_getElem inside']
  · have there : (1 : Nat) = 1 ∧ (0 : Int) ≤ 0 + k := ⟨rfl, by omega⟩
    have index : ((0 : Int) + k).toNat = k := by omega
    simp only [Slice.of, Ptr.add, index]
    exact List.getElem?_eq_getElem inside'

/-- The arrays of `struct inflate_state` when they are all zero. -/
def Inflater.zeros : Inflater :=
  .start 15 (List.replicate 320 0) (List.replicate (enoughLens + enoughDists) ⟨0, 0, 0⟩)

theorem Inflater.zeros_sized : Inflater.zeros.regs.Sized :=
  ⟨List.length_replicate, List.length_replicate⟩

/-- A fixed block with an `a`. -/
def aStream : Bytes := [0x4b, 4, 0]

/-- A session on it with two calls: the first has the first byte only. -/
theorem aStream_twice : ∃ s s' : Inflater,
    Session (List.replicate 320 0) (List.replicate (enoughLens + enoughDists) ⟨0, 0, 0⟩) aStream 1 []
        s ∧ s.regs.block ≠ some .mem ∧ s.input.bits ≤ 8 ∧
      Session (List.replicate 320 0) (List.replicate (enoughLens + enoughDists) ⟨0, 0, 0⟩) aStream 3
        [97] s' ∧ s'.regs.block = some .done := by
  have ran : ((inflate libzU 400 0 (.of [0x4b] [0] none) .zeros).bind fun r =>
      (inflate libzU 400 zFinish (.of [4, 0] [0] none) r.2).map fun r' =>
        ((r.2.input.avail, r.2.out, decide (r.2.regs.block = some .mem), r.2.input.bits),
          (r'.2.input.avail, r'.2.out, r'.2.regs.block))) =
      some ((0, [], false, 5), (0, [97], some .done)) := by
    decide +kernel
  obtain ⟨⟨ret, s⟩, returns, ran'⟩ := Option.bind_eq_some_iff.mp ran
  obtain ⟨⟨ret', s'⟩, returns', same⟩ := Option.map_eq_some_iff.mp ran'
  simp only [Prod.mk.injEq, decide_eq_false_iff_not] at same
  obtain ⟨⟨avail, put, block, bits⟩, avail', put', block'⟩ := same
  have begun := Session.call .start (Slice.of_feeds [0x4b] [0] none [4, 0]) (by decide) returns
  rw [avail, put] at begun
  have fuelled : s.rounds (.of [4, 0] [0] none) ≤ 400 := by
    simp only [Inflater.rounds, Slice.of, List.length_cons, List.length_nil]
    omega
  have ended := Session.call begun (Slice.of_feeds [4, 0] [0] none []) fuelled returns'
  rw [avail', put'] at ended
  exact ⟨s, s', begun, block, by omega, ended, block'⟩

theorem session_returns_second : ∃ s ret s' d',
    inflate libzU 400 zFinish (.of [4, 0] [0] none) s = some (ret, s') ∧
      Came aStream 1 zFinish [] (.of [4, 0] [0] none) s (.start (List.replicate 320 0)
        (List.replicate (enoughLens + enoughDists) ⟨0, 0, 0⟩)) ret s' d' := by
  obtain ⟨s, -, begun, -, few, -⟩ := aStream_twice
  have fuelled : s.rounds (.of [4, 0] [0] none) ≤ 400 := by
    simp only [Inflater.rounds, Slice.of, List.length_cons, List.length_nil]
    omega
  exact ⟨s, session_returns begun Inflater.zeros_sized (Slice.of_feeds [4, 0] [0] none []) fuelled⟩

/-! ## Two ways to call -/

section

variable {lens : List Nat} {codes : List Code} {data out out' : Bytes}
  {consumed consumed' fuel flush x : Nat} {s s' : Inflater} {d d' e : Decoder} {io : Slice}

/-- At the end of the data, or at what is wrong in it. -/
def Registers.Settled (r : Registers) : Prop := r.block = some .done ∨ r.Failed

theorem Decoder.settled_leaves (settled : d.regs.Settled) : d.step x ≠ .again d' := by
  intro step
  rcases settled with block | failed
  · rw [Decoder.step, block] at step
    cases step
  · exact Decoder.fine step failed

theorem Decoder.settled_stays (settled : d.regs.Settled) (goes : Goes (Decoder.step x) d d') :
    d' = d := by
  cases goes with
  | refl => rfl
  | head turn _ => exact absurd turn (Decoder.settled_leaves settled)

/-- Whatever the decoder comes to is on the way to where it settles. -/
theorem Decoder.before_settled (settled : e.regs.Settled) (ends : Goes (Decoder.step x) d e)
    (goes : Goes (Decoder.step x) d d') : Goes (Decoder.step x) d' e := by
  rcases goes.comparable ends with before | behind
  · exact before
  · rw [Decoder.settled_stays settled behind]
    exact .refl e

/-- A state that is about to put a byte puts it, unless the data is wrong. -/
theorem Decoder.Puts.step (puts : d.Puts) (step : d.step x = .again d') :
    d'.out.length = d.out.length + 1 ∨ d'.regs.Failed := by
  rcases puts with ⟨block, mode | mode⟩ | ⟨block, more⟩
  · simp only [Decoder.step, block, mode, Decoder.lit] at step
    cases step
    exact .inl (List.length_append ..)
  · simp only [Decoder.step, block, mode, Decoder.matching] at step
    split at step
    · cases step
      exact .inr ⟨block, rfl⟩
    · split at step
      · cases step
      · cases step
        exact .inl (List.length_append ..)
  · simp only [Decoder.step, block, Decoder.copy, if_pos more] at step
    cases step
    exact .inl (List.length_append ..)

/-- With all the data and with room for all the output a call can only stop at the end. -/
theorem Means.complete {ret : Int} (means : Means data consumed flush io s' d ret) (sound : d.Sound)
    (plain : flush ≠ zBlock ∧ flush ≠ zTrees) (ends : Goes (Decoder.step (ofLe data)) d e)
    (block : e.regs.block = some .done) (within : e.pos ≤ 8 * data.length)
    (all : s'.input.avail = 0 → consumed = data.length)
    (room : s'.out.length = io.room.length → e.out.length ≤ d.out.length) :
    ret = zStreamEnd ∧ d = e ∧ d.pos = 8 * consumed := by
  induction means with
  | @starved d₁ d₂ none goes step lacks =>
    -- The decoder has to read beyond the data before it comes to the end.
    have reads := goes.trans (.one step)
    have behind := ((sound.goes reads).1.goes (Decoder.before_settled (.inl block) ends reads)).2.1
    rw [all none] at lacks
    omega
  | full none puts =>
    cases ends with
    | refl =>
      rcases puts with ⟨other, -⟩ | ⟨other, -⟩
      · rw [block] at other
        cases other
      · rw [block] at other
        cases other
    | head turn rest =>
      have next := sound.next turn
      have longer := (next.sound.goes rest).2.2.1.length_le
      rcases puts.step turn with put | failed
      · have enough := room none
        omega
      · have same := Decoder.settled_stays (.inr failed) rest
        subst same
        rw [failed.1] at block
        cases block
  | boundary is _ =>
    rcases is with is | is
    · exact absurd is plain.1
    · exact absurd is plain.2
  | buffer _ _ ih => exact absurd ih.1 (by decide)
  | ended block' whole => exact ⟨rfl, (Decoder.settled_stays (.inl block') ends).symm, whole⟩
  | failed failed =>
    have same := Decoder.settled_stays (.inr failed) ends
    subst same
    rw [failed.1] at block
    cases block

/-- A session that has settled, where the decoder has. -/
theorem Session.settles (session : Session lens codes data consumed out s)
    (sized : (Inflater.start 15 lens codes).regs.Sized) (settled : s.regs.Settled) :
    ∃ d, Goes (Decoder.step (ofLe data)) (.start lens codes) d ∧
      Resumes (ofLe data) consumed out s d := by
  obtain ⟨-, d, goes, -, -, -, resumes | mem⟩ := session.comes sized
  · exact ⟨d, goes, resumes⟩
  · rcases settled with block | ⟨block, -⟩
    · rw [mem] at block
      cases block
    · rw [mem] at block
      cases block

theorem Session.ended (session : Session lens codes data consumed out s)
    (sized : (Inflater.start 15 lens codes).regs.Sized) (block : s.regs.block = some .done) :
    ∃ e, Goes (Decoder.step (ofLe data)) (.start lens codes) e ∧ e.regs.block = some .done ∧
      e.out = out ∧ e.pos = 8 * consumed := by
  obtain ⟨e, goes, resumes⟩ := session.settles sized (.inl block)
  have block' : e.regs.block = some .done := by rw [← resumes.regs, block]
  exact ⟨e, goes, block', resumes.out, resumes.ended block'⟩

/-- What two sessions on the same data have put agrees as far as both go, whatever their calls were,
and when both are at the end of the data they have taken and put the same. -/
theorem sessions_agree (sized : (Inflater.start 15 lens codes).regs.Sized)
    (one : Session lens codes data consumed out s)
    (other : Session lens codes data consumed' out' s') :
    (out <+: out' ∨ out' <+: out) ∧
      (s.regs.block = some .done → s'.regs.block = some .done →
        consumed = consumed' ∧ out = out') := by
  constructor
  · obtain ⟨-, d, goes, sound, rfl, -⟩ := one.comes sized
    obtain ⟨-, d', goes', sound', rfl, -⟩ := other.comes sized
    rcases goes.comparable goes' with before | behind
    · exact .inl (sound.goes before).2.2.1
    · exact .inr (sound'.goes behind).2.2.1
  · intro block block'
    obtain ⟨e, goes, done, rfl, pos⟩ := one.ended sized block
    obtain ⟨e', goes', done', rfl, pos'⟩ := other.ended sized block'
    have same := Decoder.settled_stays (.inl done) (Decoder.before_settled (.inl done') goes' goes)
    subst same
    exact ⟨by omega, rfl⟩

/-- When some session on the data comes to its end, every other one does, with the same output and
the same rest: one more call is enough, with the rest of the data, room for what is still to be put
and memory for the window. -/
theorem session_completes (sized : (Inflater.start 15 lens codes).regs.Sized)
    (whole : Session lens codes data consumed' out' s') (done : s'.regs.block = some .done)
    (session : Session lens codes data consumed out s) (there : s.regs.block ≠ some .mem)
    (feeds : io.Feeds (data.drop consumed)) (all : consumed + io.avail = data.length)
    (room : out'.length ≤ out.length + io.room.length) (alloc : io.alloc ≠ none)
    (plain : flush ≠ zBlock ∧ flush ≠ zTrees) (fuelled : s.rounds io ≤ fuel) :
    ∃ t, inflate libzU fuel flush io s = some (zStreamEnd, t) ∧
      consumed + (io.avail - t.input.avail) = consumed' ∧ out ++ t.out = out' := by
  obtain ⟨le, -⟩ := whole.comes sized
  obtain ⟨e, ends, block, rfl, pos⟩ := whole.ended sized done
  obtain ⟨-, d, goes, -, -, -, resumes | other⟩ := session.comes sized
  · obtain ⟨ret, t, d', returns, came, -, -⟩ := resumes.comes flush feeds fuelled
    have on := Decoder.before_settled (.inl block) ends (goes.trans came.goes)
    rcases came.why with means | ⟨-, none | other⟩
    · have put := came.put
      obtain ⟨rfl, rfl, pos'⟩ := means.complete came.sound plain on block (by omega)
        (fun none => by omega)
        (fun none => by rw [put, List.length_append]; omega)
      exact ⟨t, returns, by omega, put.symm⟩
    · exact absurd none alloc
    · exact absurd other there
  · exact absurd other there

/-! ## The verdict -/

/-- What `inflate` says of the data then. -/
def Registers.verdict (r : Registers) : Int :=
  if r.block = some .done then zStreamEnd else zDataError

theorem Registers.verdict_is (r : Registers) : r.verdict = zStreamEnd ∨ r.verdict = zDataError := by
  unfold Registers.verdict
  split
  · exact .inl rfl
  · exact .inr rfl

theorem Decoder.Puts.unsettled (puts : d.Puts) : ¬ d.regs.Settled := by
  rintro (is | ⟨is, bad⟩)
  · rcases puts with ⟨block, -⟩ | ⟨block, -⟩
    · simp [is] at block
    · simp [is] at block
  · rcases puts with ⟨-, mode⟩ | ⟨block, -⟩
    · simp [bad] at mode
    · simp [is] at block

theorem Registers.Boundary.unsettled {r : Registers} (boundary : r.Boundary) : ¬ r.Settled := by
  rintro (is | ⟨is, bad⟩)
  · rcases boundary with ⟨block, -⟩ | block | block
    · simp [is] at block
    · simp [is] at block
    · simp [is] at block
  · rcases boundary with ⟨-, mode⟩ | block | block
    · simp [bad] at mode
    · simp [is] at block
    · simp [is] at block

/-- Where the decoder has settled, only its verdict is a reason to return. -/
theorem Means.settled {ret : Int} (means : Means data consumed flush io s' d ret)
    (settled : d.regs.Settled) : ret = d.regs.verdict := by
  induction means with
  | starved _ goes step _ =>
    rw [Decoder.settled_stays settled goes] at step
    exact absurd step (Decoder.settled_leaves settled)
  | full _ puts => exact absurd settled puts.unsettled
  | boundary _ boundary => exact absurd settled boundary.unsettled
  | buffer _ _ ih =>
    rcases d.regs.verdict_is with is | is
    · rw [is] at ih
      cases ih
    · rw [is] at ih
      cases ih
  | ended block _ => exact (if_pos block).symm
  | failed failed => exact (if_neg (by simp [failed.1])).symm

/-- The verdict is one on the data and not on the calls: when a session has settled, no other one
puts more, every other one that has settled is where this one is, and each further call says the
same and puts nothing. -/
theorem session_settled (sized : (Inflater.start 15 lens codes).regs.Sized)
    (session : Session lens codes data consumed out s) (settled : s.regs.Settled)
    (other : Session lens codes data consumed' out' s') :
    out' <+: out ∧ (s'.regs.Settled → s'.regs = s.regs ∧ out' = out) ∧
      ∀ {io : Slice} {fuel flush : Nat}, io.Feeds (data.drop consumed) → s.rounds io ≤ fuel →
        io.alloc ≠ none → ∃ t, inflate libzU fuel flush io s = some (s.regs.verdict, t) ∧
          t.regs = s.regs ∧ t.out = [] := by
  obtain ⟨d, goes, resumes⟩ := session.settles sized settled
  have stands : d.regs.Settled := resumes.regs ▸ settled
  refine ⟨?_, ?_, ?_⟩
  · -- The other session is on the way to where this one settled.
    obtain ⟨-, d', goes', sound', rfl, -⟩ := other.comes sized
    rw [← resumes.out]
    exact (sound'.goes (Decoder.before_settled stands goes goes')).2.2.1
  · intro settled'
    obtain ⟨d', goes', resumes'⟩ := other.settles sized settled'
    have stands' : d'.regs.Settled := resumes'.regs ▸ settled'
    have same := Decoder.settled_stays stands' (Decoder.before_settled stands goes goes')
    subst same
    exact ⟨resumes'.regs.trans resumes.regs.symm, resumes'.out.symm.trans resumes.out⟩
  · intro io fuel flush feeds fuelled alloc
    obtain ⟨ret, t, d', returns, came, -, left⟩ := resumes.comes flush feeds fuelled
    have same := Decoder.settled_stays stands came.goes
    subst same
    have put := came.put
    rw [resumes.out, List.self_eq_append_right] at put
    have verdict : ret = s.regs.verdict := by
      rw [resumes.regs]
      rcases came.why with means | ⟨-, none | mem⟩
      · exact means.settled stands
      · exact absurd none alloc
      · rw [resumes.regs] at mem
        exact absurd mem resumes.sound.mem
    -- No verdict says that there was no memory.
    refine ⟨t, verdict ▸ returns, ?_, put⟩
    rcases left with on | ⟨memory, -⟩
    · exact on.regs.trans resumes.regs.symm
    · rcases s.regs.verdict_is with is | is
      · rw [memory, is] at verdict
        cases verdict
      · rw [memory, is] at verdict
        cases verdict

end

/-- A session on it with one call. -/
theorem aStream_whole : ∃ s : Inflater, Session (List.replicate 320 0)
    (List.replicate (enoughLens + enoughDists) ⟨0, 0, 0⟩) aStream 3 [97] s ∧
      s.regs.block = some .done := by
  have ran : (inflate libzU 400 zFinish (.of [0x4b, 4, 0] [0] none) .zeros).map (fun r =>
      (r.2.input.avail, r.2.out, r.2.regs.block)) = some (0, [97], some .done) := by
    decide +kernel
  obtain ⟨⟨ret, s⟩, returns, same⟩ := Option.map_eq_some_iff.mp ran
  simp only [Prod.mk.injEq] at same
  obtain ⟨avail, put, block⟩ := same
  have session := Session.call .start (Slice.of_feeds [0x4b, 4, 0] [0] none []) (by decide) returns
  rw [avail, put] at session
  exact ⟨s, session, block⟩

/-- Both sessions are at the end of the data. -/
theorem sessions_agree_a : ∃ s s' : Inflater,
    s.regs.block = some .done ∧ s'.regs.block = some .done ∧
      (([97] : Bytes) <+: [97] ∨ ([97] : Bytes) <+: [97]) ∧
      (s.regs.block = some .done → s'.regs.block = some .done → 3 = 3 ∧ ([97] : Bytes) = [97]) := by
  obtain ⟨s, whole, done⟩ := aStream_whole
  obtain ⟨-, s', -, -, -, twice, done'⟩ := aStream_twice
  exact ⟨s, s', done, done', sessions_agree Inflater.zeros_sized whole twice⟩

theorem session_completes_a : ∃ s t : Inflater,
    inflate libzU 400 zFinish (.of [4, 0] [0] (some fun _ => 0)) s = some (zStreamEnd, t) ∧
      1 + (2 - t.input.avail) = 3 ∧ [] ++ t.out = [97] := by
  obtain ⟨s', whole, done⟩ := aStream_whole
  obtain ⟨s, -, begun, there, few, -⟩ := aStream_twice
  have fuelled : s.rounds (.of [4, 0] [0] (some fun _ => 0)) ≤ 400 := by
    simp only [Inflater.rounds, Slice.of, List.length_cons, List.length_nil]
    omega
  obtain ⟨t, completes⟩ := session_completes Inflater.zeros_sized whole done begun there
    (Slice.of_feeds [4, 0] [0] _ []) rfl (by decide) (by simp [Slice.of])
    (by decide : zFinish ≠ zBlock ∧ zFinish ≠ zTrees) fuelled
  exact ⟨s, t, completes⟩

theorem session_settled_a : ∃ s : Inflater,
    s.regs.block = some .done ∧ ([] : Bytes) <+: [97] ∧ ∃ fuel t,
      inflate libzU fuel zFinish (.of [] [0] (some fun _ => 0)) s = some (s.regs.verdict, t) ∧
        t.regs = s.regs ∧ t.out = [] := by
  obtain ⟨s, whole, done⟩ := aStream_whole
  obtain ⟨s', -, begun, -⟩ := aStream_twice
  obtain ⟨before, -, calls⟩ := session_settled Inflater.zeros_sized whole (.inl done) begun
  have feeds := Slice.of_feeds [] [0] (some fun _ => 0) []
  exact ⟨s, done, before, _, calls feeds (Nat.le_refl _) (by simp [Slice.of])⟩

end CheriGzip.Inflate
