import CheriGzip.Gzip.Position
import CheriGzip.Gzip.Stored

/-!
# gz_uncompress computes the gzip grammar

The states of a member outside its header, the rounds, and the whole run.
-/
namespace CheriGzip.Gzip

open Loop

variable {σ : Type} {F : Format}

section

variable {cfg : UConfig σ} {C : Inflates F cfg.engine} {i : Ghost} {s : UState σ}
variable {b : UInt8} {bs : Bytes}

/-! ## The ends of a member -/

theorem dispatch_magic0 (inv : Inv C i s) (nextIn : s.nextIn = b :: bs) (here : i.view = .magic0) :
    Steps C i s (dispatch cfg s b bs) := by
  have rest := inv.rest_cons nextIn
  have regs := inv.regs
  rw [here] at regs
  obtain ⟨state, empty⟩ := regs
  unfold dispatch
  simp only [state, View.state]
  split
  next other =>
    have held : s.inTot > 0 := by
      have held := inv.held
      rw [nextIn, List.length_cons] at held
      omega
    rw [if_pos held]
    refine ⟨by rw [here, View.state], .inl ⟨here, ?_, inv.outTot, inv.output, inv.total, ?_⟩⟩
    · rw [rest]
      simpa [Garbage] using other
    · rw [inv.rest]
      exact List.suffix_append _ _
  next isMagic =>
    rw [Classical.not_not] at isMagic
    apply steps_on inv [b] nextIn (by constructor <;> rfl) .magic1
    · exact ⟨rfl, empty, rfl, rfl⟩
    · simp
    · rw [here]
      exact .magic (by rw [rest, isMagic])

theorem dispatch_init (inv : Inv C i s) (large : 4 ≤ cfg.buflen.size) (here : i.view = .init) :
    Steps C i s (dispatch cfg s b bs) := by
  have regs := inv.regs
  rw [here] at regs
  obtain ⟨state, empty, counted⟩ := regs
  obtain ⟨succeeds, live⟩ := C.init s.strm
  unfold dispatch
  simp only [state, View.state]
  split
  next strm started =>
    rw [started] at live
    apply steps_on inv [] rfl (by constructor <;> rfl) (.read [] [] [])
    · refine ⟨rfl, empty, ?_, live, [], rfl, counted⟩
      simp only [List.length_nil]
      omega
    · simp [here, View.state, GzState.toNat]
    · rw [here]
      exact .init inv.rest.symm
  next code strm failed started =>
    rw [started] at succeeds
    subst succeeds
    exact (failed rfl).elim

/-- A trailer field that is not all there: there is more to come, or the input is cut off. -/
theorem wait_or_fail (inv : Inv C i s) {state : GzState} (same : s.state = state)
    (short : s.nextIn.length < 4) (cut : i.rest.length < 4 → Unfit F i.rest i.view) :
    Steps C i s (if s.doneReading = false then .again { s with state := state, needmore := true }
      else .leave (s.fail "truncated input")) := by
  subst same
  split
  next reading =>
    refine .inr ⟨?_, rfl, rfl, reading⟩
    exact { inv with regs := inv.regs, more := fun _ => short }
  next done =>
    refine steps_fail _ (cut ?_) inv.regs.1
    have nothing := (inv.done (by simpa using done)).1
    rw [inv.rest, nothing, List.append_nil]
    exact short

/-- What the four bytes at hand say about the rest of the input. -/
theorem word_iff (inv : Inv C i s) (enough : ¬ s.nextIn.length < 4) {n : Nat} {t : Bytes} :
    i.rest = le 4 n ++ t ↔ s.word = n % 2 ^ 32 ∧ t = s.nextIn.drop 4 ++ s.world.input := by
  have four : (s.nextIn.take 4).length = 4 := by
    rw [List.length_take]
    omega
  have split : i.rest = s.nextIn.take 4 ++ (s.nextIn.drop 4 ++ s.world.input) := by
    rw [inv.rest, ← List.append_assoc, List.take_append_drop]
  rw [split]
  constructor
  · intro same
    obtain ⟨field, left⟩ := List.append_inj same (by rw [four, le_length])
    exact ⟨(congrArg ofLe field).trans (ofLe_le 4 n), left.symm⟩
  · rintro ⟨word, rfl⟩
    congr 1
    apply ofLe_inj
    · rw [four, le_length]
    · rw [ofLe_le]
      exact word

/-- A field of four bytes does not begin fewer. -/
theorem le_not_within {n : Nat} {rest : Bytes} (short : rest.length < 4) : ¬ le 4 n <+: rest := by
  intro within
  have most := within.length_le
  rw [le_length] at most
  omega

theorem dispatch_crc (inv : Inv C i s) {payload : Bytes} (here : i.view = .crc payload) :
    Steps C i s (dispatch cfg s b bs) := by
  have regs := inv.regs
  rw [here] at regs
  obtain ⟨state, empty, ⟨crc, counted⟩, ended⟩ := regs
  unfold dispatch
  simp only [state, View.state]
  split
  next short =>
    apply wait_or_fail inv state short
    intro cut
    rw [here]
    exact .crc (le_not_within cut)
  next enough =>
    have field : ∀ {t}, i.rest = le 4 (crc32 crc32Null payload).toNat ++ t ↔
        s.word = s.crc.toNat ∧ t = s.nextIn.drop 4 ++ s.world.input := by
      intro t
      rw [word_iff inv enough, crc, Nat.mod_eq_of_lt (UInt32.toNat_lt _)]
    split
    next mismatch =>
      refine steps_fail _ ?_ inv.regs.1
      rw [here]
      refine .crc ?_
      rintro ⟨t, same⟩
      exact mismatch (field.mp same.symm).1
    next agrees =>
      rw [Classical.not_not] at agrees
      -- After the end of the input there are fewer than four bytes, so `stop` is not taken.
      have reading : ¬ (s.nextIn.drop 4 = [] ∧ s.doneReading = true) :=
        fun atEnd => enough (inv.done atEnd.2).2
      simp only [reading, if_false]
      apply steps_on inv (s.nextIn.take 4) (List.take_append_drop 4 _).symm
        (by constructor <;> rfl) (.len payload)
      · exact ⟨rfl, empty, ⟨crc, counted⟩, ended⟩
      · simp [here, View.state, GzState.toNat]
      · rw [here]
        exact .crc (field.mpr ⟨agrees, rfl⟩)

theorem dispatch_len (inv : Inv C i s) {payload : Bytes} (here : i.view = .len payload) :
    Steps C i s (dispatch cfg s b bs) := by
  have regs := inv.regs
  rw [here] at regs
  obtain ⟨state, empty, ⟨crc, counted⟩, ended⟩ := regs
  unfold dispatch
  simp only [state, View.state]
  split
  next short =>
    apply wait_or_fail inv state short
    intro cut
    rw [here]
    exact .len (le_not_within cut)
  next enough =>
    have field : ∀ {t}, i.rest = le 4 payload.length ++ t ↔
        s.word = s.outSubTot.toNat ∧ t = s.nextIn.drop 4 ++ s.world.input := by
      intro t
      rw [word_iff inv enough, counted, UInt32.toNat_ofNat']
    split
    next mismatch =>
      refine steps_fail _ ?_ inv.regs.1
      rw [here]
      refine .len ?_
      rintro ⟨t, same⟩
      exact mismatch (field.mp same.symm).1
    next agrees =>
      rw [Classical.not_not] at agrees
      simp only [ended, ZCode.toInt]
      rw [if_neg (by omega)]
      apply steps_on inv (s.nextIn.take 4) (List.take_append_drop 4 _).symm
        (by constructor <;> rfl) .magic0
      · exact ⟨rfl, empty⟩
      · left
        intro none
        have length := congrArg List.length none
        simp only [List.length_take, List.length_nil] at length
        omega
      · rw [here]
        exact .len (field.mpr ⟨agrees, rfl⟩)

/-! ## The stream -/

/-- What writing out the buffer does. -/
structure Drained (cfg : UConfig σ) (s s' : UState σ) : Prop where
  strm : s.error ≠ .streamEnd → s'.strm = s.strm
  nextIn : s'.nextIn = s.nextIn
  outbuf : s'.outbuf = []
  state : s'.state = if s.error = .streamEnd then .crc else s.state
  error : s'.error = s.error
  doneReading : s'.doneReading = s.doneReading
  needmore : s'.needmore = s.needmore
  crc : s'.crc = crc32 s.crc s.outbuf
  outTot : s'.outTot = s.outTot + s.outbuf.length
  inTot : s'.inTot = s.inTot
  outSubTot : s'.outSubTot = s.outSubTot + UInt32.ofNat s.outbuf.length
  input : s'.world.input = s.world.input
  output : s'.world.output = s.world.output ++ cfg.emitted s.outbuf

theorem drain_again (reliable : cfg.env.Reliable cfg.buflen)
    (short : s.outbuf.length ≤ cfg.buflen.size) :
    ∃ s', drain cfg s = .again s' ∧ Drained cfg s s' := by
  have emits : ∃ w, (if cfg.tflag then (some s.outbuf.length, s.world)
      else s.world.write cfg.env s.outbuf) = (some s.outbuf.length, w) ∧
      w.input = s.world.input ∧ w.output = s.world.output ++ cfg.emitted s.outbuf := by
    rw [s.world.write_some reliable short]
    unfold UConfig.emitted
    split
    · exact ⟨_, rfl, rfl, (List.append_nil _).symm⟩
    · exact ⟨_, rfl, rfl, rfl⟩
  obtain ⟨w, emits, input, output⟩ := emits
  unfold drain
  by_cases some : s.outbuf.length ≠ 0
  · simp only [if_pos some, emits, ne_eq, not_true, if_false]
    refine ⟨_, rfl, ?_⟩
    constructor <;> try rfl
    · exact fun live => if_neg live
    · exact input
    · exact output
  · -- Nothing to write, which is what writing nothing does.
    have nil : s.outbuf = [] := List.length_eq_zero_iff.mp (Classical.not_not.mp some)
    simp only [if_neg some]
    refine ⟨_, rfl, ?_⟩
    constructor <;> try rfl
    · exact fun live => if_neg live
    · simp [settle, nil]
    · simp [settle, nil]
    · simp [settle, nil]
    · simp [settle, nil, UConfig.emitted]

theorem emitted_append (v w : Bytes) : cfg.emitted (v ++ w) = cfg.emitted v ++ cfg.emitted w := by
  unfold UConfig.emitted
  split <;> simp

/-- A round that has written out the buffer. -/
theorem steps_drain (inv : Inv C i s) (taken : Bytes) {left : Bytes}
    (cut : s.nextIn = taken ++ left) {mid s' : UState σ} (keeps : Keeps s left mid)
    (drained : Drained cfg mid s') (view : View) (regs : Regs C view s')
    (smaller : ∀ output outTot, After F
      ⟨view, left ++ s.world.input, output, outTot, i.total⟩ i)
    (advance : Advance C i.rest (left ++ s.world.input) i.view view mid.outbuf) :
    Steps C i s (.again s') := by
  obtain ⟨nextIn, world, outTot, inTot, doneReading, needmore⟩ := keeps
  have lengths := congrArg List.length cut
  rw [List.length_append] at lengths
  refine .inl ⟨view, left ++ s.world.input, mid.outbuf, advance, smaller _ _, ?_⟩
  exact {
    regs := regs
    rest := by simp only [Ghost.to, drained.nextIn, drained.input, nextIn, world]
    done := fun done => by
      rw [drained.doneReading, doneReading] at done
      obtain ⟨empty, short⟩ := inv.done done
      rw [drained.input, drained.nextIn, world, nextIn]
      exact ⟨empty, by omega⟩
    more := fun more => by
      rw [drained.needmore, needmore] at more
      have short := inv.more more
      rw [drained.nextIn, nextIn]
      omega
    total := by rw [drained.inTot, drained.input, inTot, world]; exact inv.total
    held := by
      have held := inv.held
      rw [drained.inTot, drained.nextIn, inTot, nextIn]
      omega
    output := by simp only [Ghost.to, drained.output, world, inv.output]
    outTot := by simp only [Ghost.to, drained.outTot, outTot, inv.outTot] }

/-- A call of `inflate` from a position in the stream. -/
structure Call (cfg : UConfig σ) (i : Ghost) (s : UState σ) (step : ZStep σ)
    (taken produced written : Bytes) : Prop where
  here : i.view = .read taken produced s.outbuf
  some : s.nextIn ≠ []
  state : s.state = .read
  spare : s.outbuf.length < cfg.buflen.size
  within : step.Within s.nextIn (cfg.buflen.size - s.outbuf.length)
  split : produced = written ++ s.outbuf
  counted : Counted s written

section

variable {step : ZStep σ} {taken produced written : Bytes}

theorem Call.cut (_ : Call cfg i s step taken produced written) :
    s.nextIn = s.nextIn.take step.consumed ++ s.nextIn.drop step.consumed :=
  (List.take_append_drop _ _).symm

theorem Call.rest (_ : Call cfg i s step taken produced written) (inv : Inv C i s) :
    i.rest = s.nextIn.take step.consumed ++ (s.nextIn.drop step.consumed ++ s.world.input) := by
  rw [inv.rest, ← List.append_assoc, List.take_append_drop]

theorem Call.short (call : Call cfg i s step taken produced written) :
    (s.inflated step).outbuf.length ≤ cfg.buflen.size := by
  have spare := call.spare
  have fits := call.within.2
  simp only [UState.inflated, List.length_append]
  omega

theorem Call.append (call : Call cfg i s step taken produced written) {s' : UState σ}
    (drained : Drained cfg (s.inflated step) s') :
    Counted s' (written ++ (s.outbuf ++ step.out)) := by
  constructor
  · rw [drained.crc, crc32_append, ← call.counted.1]
    rfl
  · rw [drained.outSubTot, List.length_append, UInt32.ofNat_add, ← call.counted.2]
    rfl

/-- `inflate` wants more input and the buffer is not full: the loop goes on to read. -/
theorem read_again (inv : Inv C i s) (call : Call cfg i s step taken produced written)
    (live : C.Live step.strm (taken ++ s.nextIn.take step.consumed) (produced ++ step.out))
    (used : step.consumed = s.nextIn.length ∨
      step.out.length = cfg.buflen.size - s.outbuf.length)
    (spare : (s.inflated step).outbuf.length < cfg.buflen.size) :
    Steps C i s (.again (s.inflated step)) := by
  have all : step.consumed = s.nextIn.length := by
    rcases used with all | full
    · exact all
    · simp only [UState.inflated, List.length_append] at spare
      omega
  apply steps_on inv _ call.cut (by constructor <;> rfl)
    (.read (taken ++ s.nextIn.take step.consumed) (produced ++ step.out) (s.outbuf ++ step.out))
  · refine ⟨call.state, rfl, spare, live, written, ?_, call.counted⟩
    rw [call.split, List.append_assoc]
  · left
    rw [all, List.take_length]
    exact call.some
  · rw [call.here]
    exact .inflated (call.rest inv) live

/-- The stream has not ended, and the output buffer is written out. -/
theorem read_goes (inv : Inv C i s) (reliable : cfg.env.Reliable cfg.buflen)
    (call : Call cfg i s step taken produced written)
    (live : C.Live step.strm (taken ++ s.nextIn.take step.consumed) (produced ++ step.out))
    (used : step.consumed = s.nextIn.length ∨
      step.out.length = cfg.buflen.size - s.outbuf.length)
    (code : step.code ≠ .streamEnd) : Steps C i s (drain cfg (s.inflated step)) := by
  obtain ⟨s', drains, drained⟩ := drain_again reliable call.short
  rw [drains]
  -- The output is the part of the payload that was there, and what this call made.
  apply steps_drain inv _ call.cut (by constructor <;> rfl) drained
    (.read (taken ++ s.nextIn.take step.consumed) (produced ++ step.out) [])
  · refine ⟨?_, drained.outbuf, Nat.lt_of_le_of_lt (Nat.zero_le _) call.spare, ?_,
      written ++ (s.outbuf ++ step.out), ?_, call.append drained⟩
    · rw [drained.state]
      exact (if_neg code).trans call.state
    · rwa [drained.strm code]
    · rw [call.split, List.append_nil, List.append_assoc]
  · intro output outTot
    have spare := call.spare
    have rest := congrArg List.length (call.rest inv)
    rw [List.length_append] at rest
    by_cases none : step.consumed = 0
    · -- No input was taken, so the room was used: the output came closer to the payload.
      have nonempty := List.length_pos_iff.mpr call.some
      have some : 0 < step.out.length := by omega
      have most := (C.produced live).length_le
      rw [List.length_append] at most
      unfold After Ghost.measure
      simp only [call.here, none, List.take_zero, List.append_nil] at most ⊢
      have same : (s.nextIn.drop 0 ++ s.world.input).length = i.rest.length := by
        rw [none] at rest
        simp only [List.take_zero, List.length_nil] at rest
        omega
      rw [same]
      apply Prod.Lex.right
      apply Prod.Lex.right
      rw [List.length_append]
      omega
    · apply After.of_rest
      have taken : 0 < (s.nextIn.take step.consumed).length := by
        rw [List.length_take]
        have nonempty := List.length_pos_iff.mpr call.some
        omega
      simp only
      omega
  · rw [call.here]
    exact .drained (call.rest inv) live

/-- The stream has ended: its last output is written out, and the trailer is next. -/
theorem read_ends (inv : Inv C i s) (reliable : cfg.env.Reliable cfg.buflen)
    (call : Call cfg i s step taken produced written)
    (ends : F.Ends (taken ++ s.nextIn.take step.consumed))
    (payload : F.payload (taken ++ s.nextIn.take step.consumed) = produced ++ step.out)
    (code : step.code = .streamEnd) : Steps C i s (drain cfg (s.inflated step)) := by
  obtain ⟨s', drains, drained⟩ := drain_again reliable call.short
  rw [drains]
  apply steps_drain inv _ call.cut (by constructor <;> rfl) drained (.crc (produced ++ step.out))
  · refine ⟨?_, drained.outbuf, ?_, drained.error.trans code⟩
    · rw [drained.state]
      exact if_pos code
    · rw [call.split, List.append_assoc]
      exact call.append drained
  · intro output outTot
    apply After.of_state
    · have rest := congrArg List.length (call.rest inv)
      rw [List.length_append] at rest
      simp only
      omega
    · simp [call.here, View.state, GzState.toNat]
  · rw [call.here]
    exact .ended (call.rest inv) ends payload

end

theorem dispatch_read (inv : Inv C i s) (reliable : cfg.env.Reliable cfg.buflen)
    (some : s.nextIn ≠ []) {taken produced pending : Bytes}
    (here : i.view = .read taken produced pending) : Steps C i s (dispatch cfg s b bs) := by
  have regs := inv.regs
  rw [here] at regs
  obtain ⟨state, rfl, spare, live, written, split, counted⟩ := regs
  have room : 0 < cfg.buflen.size - s.outbuf.length := by omega
  have within := @C.within _ _ _ s.nextIn (cfg.buflen.size - s.outbuf.length) live
  have goes := C.goes live some room
  have ends := C.ends live some room
  have fails := C.fails live some room
  have call : Call cfg i s _ taken produced written :=
    ⟨here, some, state, spare, within, split, counted⟩
  have dispatched : dispatch cfg s b bs = readState cfg s := by
    simp only [dispatch, state, View.state]
  rw [dispatched]
  unfold readState
  generalize cfg.engine.inflate s.strm .finish s.nextIn (cfg.buflen.size - s.outbuf.length) = step
    at *
  have failing : ∀ message : String, step.code ≠ .ok → step.code ≠ .bufError →
      step.code ≠ .streamEnd → Steps C i s (.leave ((s.inflated step).fail message)) := by
    intro message notOk notBuf notEnd
    refine steps_fail _ ?_ inv.regs.1
    rw [here]
    refine .read fun z t same ends' => ?_
    apply (fails notOk notBuf notEnd).2 (taken ++ z) s.world.input ends'
    exact ⟨t, by rw [List.append_assoc, List.append_assoc, ← same, inv.rest]⟩
  have error : (s.inflated step).error = step.code := rfl
  cases code : step.code with
  | bufError =>
    simp only [error, code]
    obtain ⟨live', used⟩ := goes (.inr code)
    split
    next wants => exact read_again inv call live' used wants.1
    · exact read_goes inv reliable call live' used (by simp [code])
  | ok =>
    simp only [error, code]
    obtain ⟨live', used⟩ := goes (.inl code)
    exact read_goes inv reliable call live' used (by simp [code])
  | streamEnd =>
    simp only [error, code]
    obtain ⟨ended, payload⟩ := ends code
    exact read_ends inv reliable call ended payload code
  | needDict | dataError | streamError | memError =>
    simp only [error, code]
    exact failing _ (by simp [code]) (by simp [code]) (by simp [code])
  | errno | versionError =>
    -- The contract leaves no other code, so `unknown error from inflate()` is not reached.
    have known := (fails (by simp [code]) (by simp [code]) (by simp [code])).1
    simp [code] at known

/-! ## A round -/

/-- The end of the input: a success between members, and a failure inside one. -/
theorem steps_eof (inv : Inv C i s) (nil : s.nextIn = []) (done : s.doneReading = true) :
    Steps C i s (if s.doneReading = true ∧ s.state ≠ .magic0 then
      .leave (s.fail (cfg.filename ++ ": unexpected end of file")) else .leave s) := by
  have rest : i.rest = [] := by
    rw [inv.rest, nil, (inv.done done).1, List.append_nil]
  split
  next inside =>
    refine steps_fail _ (.eof ?_ rest) inv.regs.1
    intro here
    apply inside.2
    rw [inv.regs.1, here, View.state]
  next outside =>
    have state : s.state = .magic0 := by simpa [done] using outside
    have here : i.view = .magic0 := by
      have same := inv.regs.1
      rw [state] at same
      revert same
      cases i.view <;> simp [View.state]
    refine ⟨inv.regs.1, .inl ⟨here, ?_, inv.outTot, inv.output, inv.total, ?_⟩⟩
    · rw [rest]
      simp [Garbage]
    · rw [(inv.done done).1]
      exact List.nil_suffix

theorem dispatch_steps (inv : Inv C i s) (reliable : cfg.env.Reliable cfg.buflen)
    (large : 4 ≤ cfg.buflen.size) (nextIn : s.nextIn = b :: bs) :
    Steps C i s (dispatch cfg s b bs) := by
  cases here : i.view with
  | magic0 => exact dispatch_magic0 inv nextIn here
  | init => exact dispatch_init inv large here
  | read => exact dispatch_read inv reliable (by simp [nextIn]) here
  | crc => exact dispatch_crc inv here
  | len => exact dispatch_len inv here
  | _ =>
    apply dispatch_header inv nextIn
    · rw [here]
      trivial
    · rw [here]
      exact View.noConfusion

/-- A round refills the buffer and takes a step. -/
theorem round_steps (inv : Inv C i s) (reliable : cfg.env.Reliable cfg.buflen)
    (large : 4 ≤ cfg.buflen.size) :
    ∃ s', Refilled C i s s' ∧ Steps C i s' (uncompressRound cfg s) := by
  obtain ⟨s', refills, refilled⟩ := refill_inv reliable large inv
  refine ⟨s', refilled, ?_⟩
  unfold uncompressRound
  rw [refills]
  simp only
  cases nextIn : s'.nextIn with
  | nil => exact steps_eof refilled.inv nextIn (refilled.empty nextIn)
  | cons b bs => exact dispatch_steps refilled.inv reliable large nextIn

end

/-! ## The steps in the grammar -/

section

variable {cfg : UConfig σ} {C : Inflates F cfg.engine} {i : Ghost} {s : UState σ}

theorem tail_header {view : View} (header : view.InHeader) {rest v g : Bytes} :
    Tail F view rest v g ↔ ∃ body, view.scan rest = some body ∧ Body F body v g := by
  cases view <;> first | exact Iff.rfl | exact header.elim

/-- A complete stream at the beginning of the bytes to come begins with what a live stream has
taken of them. -/
theorem live_within {strm : σ} {taken produced c z t rest : Bytes}
    (live : C.Live strm (taken ++ c) produced) (ends : F.Ends (taken ++ z))
    (same : c ++ rest = z ++ t) : ∃ z', z = c ++ z' ∧ rest = z' ++ t := by
  have inside : taken ++ c <+: taken ++ z := by
    have left : taken ++ c <+: taken ++ (c ++ rest) := ⟨rest, by simp⟩
    have right : taken ++ z <+: taken ++ (c ++ rest) := ⟨t, by simp [same]⟩
    rcases Format.comparable left right with less | less
    · exact less
    · exact C.inside live ends less ▸ List.prefix_refl _
  obtain ⟨z', rfl⟩ := (List.prefix_append_right_inj taken).mp inside
  rw [List.append_assoc, List.append_cancel_left_eq] at same
  exact ⟨z', rfl, same⟩

/-- A live stream that has taken `taken ++ c` is still inside whatever complete stream the
input starts with. -/
theorem tail_goes {strm : σ} {taken produced pending c out rest v g : Bytes}
    (live : C.Live strm (taken ++ c) (produced ++ out)) :
    Tail F (.read taken produced pending) (c ++ rest) v g ↔
      Tail F (.read (taken ++ c) (produced ++ out) (pending ++ out)) rest v g := by
  constructor
  · rintro ⟨z, t, more, vs, ends, same, payload, rfl, others⟩
    obtain ⟨z, rfl, same⟩ := live_within live ends same
    rw [← List.append_assoc taken c z] at ends same payload
    have grown : produced ++ out <+: produced ++ more := by
      rw [← payload]
      exact (C.produced live).trans (F.payload_mono ⟨z, rfl⟩)
    obtain ⟨more, rfl⟩ := (List.prefix_append_right_inj produced).mp grown
    refine ⟨z, t, more, vs, ends, same, ?_, by simp, others⟩
    rw [payload, List.append_assoc]
  · rintro ⟨z, t, more, vs, ends, same, payload, rfl, others⟩
    rw [List.append_assoc] at ends payload same
    refine ⟨c ++ z, t, out ++ more, vs, ends, ?_, ?_, ?_, others⟩
    · rw [same, List.append_assoc]
    · rw [payload, List.append_assoc]
    · simp

/-- What is in the output buffer comes first. -/
theorem tail_drain {taken produced pending rest v g : Bytes} :
    Tail F (.read taken produced pending) rest v g ↔
      ∃ v', v = pending ++ v' ∧ Tail F (.read taken produced []) rest v' g := by
  constructor
  · rintro ⟨z, t, more, vs, ends, same, payload, rfl, others⟩
    exact ⟨more ++ vs, rfl, z, t, more, vs, ends, same, payload, rfl, others⟩
  · rintro ⟨_, rfl, z, t, more, vs, ends, same, payload, rfl, others⟩
    exact ⟨z, t, more, vs, ends, same, payload, rfl, others⟩

/-- At the end of the stream the trailer is next. -/
theorem tail_ends {taken produced pending c out rest v g : Bytes} (ends : F.Ends (taken ++ c))
    (payload : F.payload (taken ++ c) = produced ++ out) :
    Tail F (.read taken produced pending) (c ++ rest) v g ↔
      ∃ v', v = (pending ++ out) ++ v' ∧ Tail F (.crc (produced ++ out)) rest v' g := by
  constructor
  · rintro ⟨z, t, more, vs, ends', same, payload', rfl, others⟩
    have whole : taken ++ c ++ rest =
        taken ++ z ++ (trailer (F.payload (taken ++ z)) ++ t) := by
      rw [List.append_assoc, same, List.append_assoc]
    obtain ⟨eq, after⟩ := F.ends_append ends ends' whole
    rw [← eq, payload] at after payload'
    have more' : out = more := List.append_cancel_left payload'
    subst more'
    exact ⟨vs, by simp, t, after, others⟩
  · rintro ⟨vs, rfl, t, rfl, others⟩
    refine ⟨c, t, out, vs, ends, ?_, payload, ?_, others⟩
    · rw [payload]
    · simp

theorem scanHeadCrc_nil {flags : UInt8} {body : Bytes} (scan : scanHeadCrc flags [] = some body) :
    body = [] := by
  obtain ⟨field, -, same⟩ := skipBytes_some.mp scan
  exact (List.append_eq_nil_iff.mp same.symm).2

/-- A field that may be absent, at the end of the input. -/
theorem scanString_nil {set : Prop} [Decidable set] {next : Bytes → Option Bytes} {body : Bytes}
    (after : next [] = some body → body = [])
    (scan : (if set then some [] else skipString []).bind next = some body) : body = [] := by
  split at scan
  · exact after scan
  · cases scan

theorem scanComment_nil {flags : UInt8} {body : Bytes} :
    scanComment flags [] = some body → body = [] :=
  scanString_nil scanHeadCrc_nil

theorem scanOrigname_nil {flags : UInt8} {body : Bytes} :
    scanOrigname flags [] = some body → body = [] :=
  scanString_nil scanComment_nil

theorem scanExtra_nil {flags : UInt8} {body : Bytes} (scan : scanExtra flags [] = some body) :
    body = [] := by
  unfold scanExtra at scan
  split at scan
  · exact scanOrigname_nil scan
  · cases scan

theorem skipBytes_bind_nil {n : Nat} {next : Bytes → Option Bytes} {body : Bytes}
    (after : next [] = some body → body = [])
    (scan : (skipBytes n []).bind next = some body) : body = [] := by
  obtain ⟨rest, skipped, scanned⟩ := Option.bind_eq_some_iff.mp scan
  obtain ⟨field, -, same⟩ := skipBytes_some.mp skipped
  rw [(List.append_eq_nil_iff.mp same.symm).2] at scanned
  exact after scanned

/-- At the end of the input a header can only be complete. -/
theorem scan_nil {view : View} (header : view.InHeader) {body : Bytes}
    (scan : view.scan [] = some body) : body = [] := by
  cases view with
  | magic0 | read | crc | len => exact header.elim
  | magic1 | method | flags | extra2 => cases scan
  | skipping => exact skipBytes_bind_nil scanExtra_nil scan
  | extra => exact scanExtra_nil scan
  | extra3 => exact skipBytes_bind_nil scanOrigname_nil scan
  | origname => exact scanOrigname_nil scan
  | comment => exact scanComment_nil scan
  | headCrc1 => exact scanHeadCrc_nil scan
  | headCrc2 =>
    obtain ⟨field, -, same⟩ := skipBytes_some.mp scan
    exact (List.append_eq_nil_iff.mp same.symm).2
  | init =>
    cases scan
    rfl

theorem trailer_append_ne (payload t : Bytes) : trailer payload ++ t ≠ [] := by
  intro nil
  have length := congrArg List.length nil
  simp only [trailer, List.length_append, le_length, List.length_nil] at length
  omega

/-- Inside a member the input cannot end. -/
theorem tail_nil {view : View} (inside : view ≠ .magic0) {v g : Bytes} :
    ¬ Tail F view [] v g := by
  intro tail
  by_cases header : view.InHeader
  · obtain ⟨body, scan, z, t, vs, -, same, -⟩ := (tail_header header).mp tail
    rw [scan_nil header scan] at same
    exact trailer_append_ne _ _ (List.append_eq_nil_iff.mp same.symm).2
  cases view with
  | magic0 => exact inside rfl
  | read =>
    obtain ⟨z, t, more, vs, -, same, -⟩ := tail
    exact trailer_append_ne _ _ (List.append_eq_nil_iff.mp same.symm).2
  | crc =>
    obtain ⟨t, same, -⟩ := tail
    exact trailer_append_ne _ _ same.symm
  | len =>
    obtain ⟨t, same, -⟩ := tail
    have length := congrArg List.length same
    simp only [List.length_append, le_length, List.length_nil] at length
    omega
  | _ => exact header trivial

/-- A step changes nothing about what the rest of the input has to be, but for what it
writes. -/
theorem Advance.tail {rest rest' w v g : Bytes} {view view' : View}
    (advance : Advance C rest rest' view view' w) :
    Tail F view rest v g ↔ ∃ v', v = w ++ v' ∧ Tail F view' rest' v' g := by
  -- Most steps add nothing to the output.
  have silent : ∀ {P : Bytes → Prop}, P v ↔ ∃ v', v = [] ++ v' ∧ P v' := by simp
  cases advance with
  | magic cut =>
    rw [← silent, cut]
    exact chain_header rfl
  | header header header' scan =>
    rw [← silent, tail_header header, tail_header header', scan]
  | init same =>
    rw [← silent, same]
    constructor
    · rintro ⟨_, ⟨⟩, z, t, vs, ends, same, rfl, others⟩
      exact ⟨z, t, F.payload z, vs, ends, same, rfl, rfl, others⟩
    · rintro ⟨z, t, more, vs, ends, same, payload, rfl, others⟩
      refine ⟨_, rfl, z, t, vs, ends, same, ?_, others⟩
      simpa using payload.symm
  | inflated cut live =>
    rw [← silent, cut]
    exact tail_goes live
  | drained cut live =>
    rw [cut, tail_goes live]
    exact tail_drain
  | ended cut ends payload =>
    rw [cut]
    exact tail_ends ends payload
  | @crc payload cut =>
    rw [← silent, cut]
    constructor
    · rintro ⟨t, same, others⟩
      rw [trailer, List.append_assoc] at same
      exact ⟨t, List.append_cancel_left same, others⟩
    · rintro ⟨t, rfl, others⟩
      exact ⟨t, by rw [trailer, List.append_assoc], others⟩
  | len cut =>
    rw [← silent, cut]
    constructor
    · rintro ⟨t, same, others⟩
      rw [List.append_cancel_left same]
      exact others
    · intro others
      exact ⟨_, rfl, others⟩

/-- Bytes that do not fit a position are no rest of the input there. -/
theorem Unfit.tail {rest v g : Bytes} {view : View} (unfit : Unfit F rest view) :
    ¬ Tail F view rest v g := by
  intro tail
  cases unfit with
  | header header scan =>
    obtain ⟨body, scanned, -⟩ := (tail_header header).mp tail
    rw [scan] at scanned
    cases scanned
  | read endless =>
    obtain ⟨z, t, more, vs, ends, same, -⟩ := tail
    exact endless z _ same ends
  | crc other =>
    obtain ⟨t, rfl, -⟩ := tail
    exact other ⟨_, by rw [trailer, List.append_assoc]⟩
  | len other =>
    obtain ⟨t, rfl, -⟩ := tail
    exact other ⟨_, rfl⟩
  | eof inside nil =>
    rw [nil] at tail
    exact tail_nil inside tail

/-- What the end of the loop has to be is the same before a step and behind it. -/
theorem Advance.post {rest w : Bytes} {view : View} {r : UState σ}
    (advance : Advance C i.rest rest i.view view w) (post : Post F cfg (i.to cfg view rest w) r) :
    Post F cfg i r := by
  constructor
  · intro v g tail
    obtain ⟨v', rfl, tail'⟩ := advance.tail.mp tail
    obtain ⟨count, output, total, suffix⟩ := post.1 v' g tail'
    refine ⟨?_, ?_, total, suffix⟩
    · rw [count, List.length_append, Ghost.to]
      simp only
      omega
    · rw [output, emitted_append, Ghost.to, List.append_assoc]
  · intro none
    exact post.2 fun v' g tail => none _ g (advance.tail.mpr ⟨v', rfl, tail⟩)

/-- The loop ends as it has to. -/
theorem Left.post {r : UState σ} (left : Left F i r) : Post F cfg i r := by
  rcases left.2 with stops | ⟨unfit, failed⟩
  · obtain ⟨here, garbage, outTot, output, total, suffix⟩ := stops
    constructor
    · intro v g tail
      rw [here] at tail
      obtain ⟨rfl, rfl⟩ := (chain_garbage garbage).mp tail
      exact ⟨by simpa using outTot, by simpa using output, total, suffix⟩
    · intro none
      rw [here] at none
      exact absurd ((chain_garbage garbage).mpr ⟨rfl, rfl⟩) (none [] i.rest)
  · exact ⟨fun v g tail => absurd tail unfit.tail, fun _ => failed⟩

end

/-! ## The whole run -/

/-- What a wait uses up: the room for more bytes of the field, and the wait itself. -/
def UState.fetch (s : UState σ) : Nat :=
  2 * (4 - s.nextIn.length) + if s.needmore then 0 else 1

/-- The order in which the rounds descend. -/
def Descends (F : Format) (j i : Ghost × Nat) : Prop := Prod.Lex (After F) (· < ·) j i

theorem descends_wf : WellFounded (Descends F) := by
  have after : WellFounded (After F) :=
    InvImage.wf (Ghost.measure F)
      (Prod.lex Nat.lt_wfRel (Prod.lex Nat.lt_wfRel Nat.lt_wfRel)).wf
  exact (Prod.lex ⟨_, after⟩ Nat.lt_wfRel).wf

section

variable {cfg : UConfig σ}

/-- From any state that a ghost describes the loop is left, with a postcondition that each step
carries back. -/
theorem leaves_steps (C : Inflates F cfg.engine) (reliable : cfg.env.Reliable cfg.buflen)
    (large : 4 ≤ cfg.buflen.size) (post : Ghost → UState σ → Prop)
    (back : ∀ {i : Ghost} {view : View} {rest w : Bytes} {r : UState σ},
      Advance C i.rest rest i.view view w → post (i.to cfg view rest w) r → post i r)
    (gives : ∀ {i : Ghost} {r : UState σ}, Left F i r → post i r)
    {i : Ghost} {s : UState σ} (inv : Inv C i s) :
    ∃ r, Leaves (uncompressRound cfg) s r ∧ post i r := by
  apply Leaves.exists_of_ghost (descends_wf (F := F))
    (fun (j : Ghost × Nat) s => Inv C j.1 s ∧ s.fetch = j.2) (fun j r => post j.1 r) _ _
    (i, s.fetch) s ⟨inv, rfl⟩
  · rintro ⟨i, _⟩ s s' ⟨inv, rfl⟩ turn
    obtain ⟨mid, refilled, steps⟩ := round_steps inv reliable large
    rw [turn] at steps
    rcases steps with ⟨view, rest, w, advance, after, inv'⟩ | ⟨inv', same, wants, reading⟩
    · exact ⟨(i.to cfg view rest w, s'.fetch), .left _ _ after, ⟨inv', rfl⟩,
        fun _ holds => back advance holds⟩
    · -- A wait: the refill took something in, or the wait is the first one.
      refine ⟨(i, s'.fetch), .right _ ?_, ⟨inv', rfl⟩, fun _ post => post⟩
      have short := inv'.more wants
      unfold UState.fetch
      rw [wants]
      rcases refilled.grown reading with grown | ⟨still, first⟩
      · rw [same] at short ⊢
        simp only [if_true]
        omega
      · rw [same, still, first]
        simp
  · rintro ⟨i, _⟩ s r ⟨inv, -⟩ turn
    obtain ⟨mid, refilled, steps⟩ := round_steps inv reliable large
    rw [turn] at steps
    exact gives steps

/-- The loop is left, and as the grammar says, from any state that the ghost describes. -/
theorem leaves_post (C : Inflates F cfg.engine) (reliable : cfg.env.Reliable cfg.buflen)
    (large : 4 ≤ cfg.buflen.size) {i : Ghost} {s : UState σ} (inv : Inv C i s) :
    ∃ r, Leaves (uncompressRound cfg) s r ∧ Post F cfg i r :=
  leaves_steps C reliable large (Post F cfg) Advance.post Left.post inv

/-- The ghost state at the start. -/
def Ghost.start (pre : Bytes) (w : World) : Ghost where
  view := .magic0
  rest := pre ++ w.input
  output := w.output
  outTot := 0
  total := pre.length + w.input.length

theorem inv_start (C : Inflates F cfg.engine) {pre : Bytes} (short : pre.length < 2 ^ 32)
    (w : World) : Inv C (.start pre w) (uncompressStart cfg pre w) := by
  have nextIn : (uncompressStart cfg pre w).nextIn = pre := by
    simp only [uncompressStart]
    rw [Nat.mod_eq_of_lt short, List.take_length]
  constructor
  · exact ⟨rfl, rfl⟩
  · rw [nextIn]
    rfl
  · intro done
    cases done
  · intro more
    cases more
  · rfl
  · rw [nextIn]
    exact Int.le_refl _
  · rfl
  · rfl

/-- `gz_uncompress` returns, and what it returns and writes is what the grammar says. -/
theorem gzUncompress_returns (C : Inflates F cfg.engine) (reliable : cfg.env.Reliable cfg.buflen)
    (large : 4 ≤ cfg.buflen.size) {pre : Bytes} (short : pre.length < 2 ^ 32) (w : World) :
    ∃ fuel result w', gzUncompress cfg pre w fuel = some (.returns result w') ∧
      (∀ v g, Chain F (pre ++ w.input) v g →
        result.outTot = v.length ∧ w'.output = w.output ++ cfg.emitted v ∧
          result.gsize + w'.input.length = pre.length + w.input.length ∧ w'.input <:+ g) ∧
      ((∀ v g, ¬ Chain F (pre ++ w.input) v g) → result.outTot = -1) := by
  obtain ⟨s, ⟨fuel, ran⟩, accepts, rejects⟩ := leaves_post C reliable large (inv_start C short w)
  have returned : gzUncompress cfg pre w fuel = some (.returns ⟨s.outTot, s.inTot,
      if s.state.toNat > GzState.init.toNat then cfg.engine.inflateEnd s.strm else s.strm⟩
      s.world) := by
    unfold gzUncompress
    rw [if_neg (by simp [reliable.mallocs]), ran]
    rfl
  refine ⟨fuel, _, s.world, returned, ?_, rejects⟩
  intro v g chain
  obtain ⟨count, output, total, suffix⟩ := accepts v g chain
  refine ⟨?_, output, total, suffix⟩
  rw [count]
  exact Int.zero_add _

/-- `gz_uncompress` accepts exactly the gzip inputs, wherever they are cut, and then writes
and counts their decoding. -/
theorem gzUncompress_accepts (C : Inflates F cfg.engine) (reliable : cfg.env.Reliable cfg.buflen)
    (large : 4 ≤ cfg.buflen.size) {pre : Bytes} (short : pre.length < 2 ^ 32) {w : World}
    (magic : fileGettype (pre ++ w.input) = .gzip) :
    ∃ fuel result w', gzUncompress cfg pre w fuel = some (.returns result w') ∧
      (result.outTot ≠ -1 ↔ ∃ payload, Accepts F (pre ++ w.input) payload) ∧
      ∀ payload, Accepts F (pre ++ w.input) payload →
        result.outTot = payload.length ∧
          (cfg.tflag = false → w'.output = w.output ++ payload) := by
  have starts := fileGettype_gzip magic
  obtain ⟨fuel, result, w', ran, accepts, rejects⟩ := gzUncompress_returns C reliable large short w
  refine ⟨fuel, result, w', ran, ?_, ?_⟩
  · constructor
    · intro succeeded
      apply Classical.byContradiction
      intro none
      apply succeeded
      apply rejects
      intro v g chain
      exact none ⟨v, g, (acceptsWith_iff_chain starts).mpr chain⟩
    · rintro ⟨payload, g, accepted⟩ failed
      have count := (accepts payload g ((acceptsWith_iff_chain starts).mp accepted)).1
      omega
  · rintro payload ⟨g, accepted⟩
    obtain ⟨count, output, -⟩ := accepts payload g ((acceptsWith_iff_chain starts).mp accepted)
    refine ⟨count, ?_⟩
    intro writes
    rw [output, UConfig.emitted, writes]
    rfl

end

/-- A member with a stored payload of two bytes. -/
def storedHi : Bytes :=
  [0x1f, 0x8b, 8, 0, 0, 0, 0, 0, 0, 3, 1, 2, 0, 0xfd, 0xff, 0x68, 0x69] ++ trailer [0x68, 0x69]

/-- The smallest buffer, the magic number read ahead, and reads of one byte. -/
theorem gzUncompress_accepts_small :
    ∃ fuel result w',
      gzUncompress ⟨storedInflate, .steady 1, ⟨4, by decide⟩, false, "hi.gz"⟩ [0x1f, 0x8b]
        ⟨storedHi.drop 2, [], 0, 0, 0, []⟩ fuel = some (.returns result w') ∧
      (result.outTot ≠ -1 ↔ ∃ payload, Accepts storedFormat storedHi payload) ∧
      ∀ payload, Accepts storedFormat storedHi payload →
        result.outTot = payload.length ∧ (false = false → w'.output = [] ++ payload) :=
  gzUncompress_accepts storedInflates (Env.steady_reliable _ _) (by decide)
    (by decide : ([0x1f, 0x8b] : Bytes).length < 2 ^ 32) (by decide)

end CheriGzip.Gzip
