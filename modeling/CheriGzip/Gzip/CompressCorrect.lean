import CheriGzip.Gzip.Compress
import CheriGzip.Gzip.Grammar

/-!
# What gz_compress leaves behind

For every exit of `gz_compress`, what has been written and what the two byte counts say, as
long as the calls of `deflate` that succeed keep the contract; and that without failures the
exit is the last one.
-/
namespace CheriGzip.Gzip

open Loop

variable {σ : Type} {F : Format} {cfg : CConfig σ}

/-- What stands behind the variables: `x'` of the input `x` has gone into the stream, and `z`
has come out. Before the call the output was `out0`, and the buffer started with `start`. -/
structure CInv (D : Deflates F cfg.engine) (out0 start x : Bytes) (last : ZFlush)
    (x' z : Bytes) (s : CState σ) : Prop where
  fed : D.Fed s.strm last x' z
  input : x = x' ++ (s.nextIn ++ s.world.input)
  crc : s.crc = crc32 crc32Null (x' ++ s.nextIn)
  inTot : s.inTot = (x' ++ s.nextIn).length
  written : s.world.output ++ s.outbuf = out0 ++ (start ++ z)
  outTot : out0.length + s.outTot = s.world.output.length
  room : s.outbuf.length ≤ cfg.buflen.size

/-- What holds at the exits. Where the stream is not complete, the output is a beginning of
what it would be, and only a failed `write` before the trailer spoils the count of it. -/
def Sited (F : Format) (out0 start x : Bytes) : Site → CState σ → Prop
  | .deflateInit2, s => s.outTot = 0 ∧ s.world.output = out0
  | .write, s | .finishWrite, s => s.outTot = -1
  | .trailerWrite n, s => n < 8 ∧ out0.length + s.outTot + n = s.world.output.length ∧
      ∃ z, F.Ends z ∧ F.payload z = x ∧
        s.world.output = out0 ++ (start ++ (z ++ (trailer x).take n))
  | .done, s => out0.length + s.outTot = s.world.output.length ∧ s.inTot = x.length ∧
      s.world.input = [] ∧ ∃ z, F.Ends z ∧ F.payload z = x ∧
        s.world.output = out0 ++ (start ++ (z ++ trailer x))
  | _, s => out0.length + s.outTot = s.world.output.length ∧
      ∃ z w, F.Ends w ∧ z <+: w ∧ s.world.output <+: out0 ++ (start ++ z)

/-- A postcondition for a round, with `Sited` for the exits. -/
def CRound.Spec (F : Format) (out0 start x : Bytes) (again ok : CState σ → Prop) :
    CRound σ → Prop
  | .again s => again s
  | .leave (.ok s) => ok s
  | .leave (.error (site, s)) => Sited F out0 start x site s

theorem CRound.Spec.mono {out0 start x : Bytes} {again ok ok' : CState σ → Prop}
    {round : CRound σ} (spec : round.Spec F out0 start x again ok)
    (weaker : ∀ s, ok s → ok' s) : round.Spec F out0 start x again ok' := by
  cases round with
  | again => exact spec
  | leave left =>
    cases left with
    | error => exact spec
    | ok s => exact weaker s spec

section

variable {D : Deflates F cfg.engine} {out0 start x x' z : Bytes} {last : ZFlush} {s : CState σ}

/-- Between the rounds of the first loop. -/
def Feeding (D : Deflates F cfg.engine) (out0 start x : Bytes) (s : CState σ) : Prop :=
  ∃ x' z, CInv D out0 start x .noFlush x' z s

/-- From the end of the input on. -/
def Closing (D : Deflates F cfg.engine) (out0 start x : Bytes) (s : CState σ) : Prop :=
  s.nextIn = [] ∧ s.world.input = [] ∧ s.outbuf.length < cfg.buflen.size ∧
    ∃ last z, CInv D out0 start x last x z s

/-- A failure of the stream or of a `read` leaves a counted beginning of the output. -/
theorem CInv.partial_output (inv : CInv D out0 start x last x' z s) {t : CState σ}
    (outTot : t.outTot = s.outTot) (output : t.world.output = s.world.output) :
    out0.length + t.outTot = t.world.output.length ∧
      ∃ z w, F.Ends w ∧ z <+: w ∧ t.world.output <+: out0 ++ (start ++ z) := by
  obtain ⟨w, ends, less⟩ := D.begins inv.fed
  refine ⟨?_, z, w, ends, less, ?_⟩
  · rw [outTot, output]
    exact inv.outTot
  · rw [output, ← inv.written]
    exact List.prefix_append _ _

/-! ## Taking input -/

theorem flushFull_spec (inv : CInv D out0 start x last x' z s) (pos : 0 < cfg.buflen.size) :
    match flushFull cfg s with
    | .ok s' => CInv D out0 start x last x' z s' ∧ s'.outbuf.length < cfg.buflen.size ∧
        s'.nextIn = s.nextIn ∧ s'.world.input = s.world.input
    | .error (site, s') => Sited F out0 start x site s' := by
  unfold flushFull
  by_cases full : s.outbuf.length = cfg.buflen.size
  · rw [if_pos full]
    rcases answer : s.world.write cfg.env s.outbuf with ⟨count, w⟩
    obtain ⟨input, -, output⟩ := World.write_spec answer
    by_cases wrote : count = some cfg.buflen.size
    · simp only [wrote, ne_eq, not_true, if_false]
      have all : w.output = s.world.output ++ s.outbuf := by
        rw [output, wrote]
        simp [← full]
      refine ⟨?_, pos, trivial, input⟩
      exact {
        fed := inv.fed
        input := by simp only [input]; exact inv.input
        crc := inv.crc
        inTot := inv.inTot
        written := by simp only [all, List.append_nil]; exact inv.written
        outTot := by
          have outTot := inv.outTot
          simp only [all, List.length_append]
          omega
        room := Nat.zero_le _ }
    · simp only [wrote, ne_eq, not_false_eq_true, if_true]
      rfl
  · rw [if_neg full]
    have room := inv.room
    exact ⟨inv, by omega, rfl, rfl⟩

theorem feed_spec (inv : CInv D out0 start x .noFlush x' z s)
    (spare : s.outbuf.length < cfg.buflen.size) :
    (feed cfg s).Spec F out0 start x (Feeding D out0 start x) fun _ => False := by
  unfold feed
  obtain ⟨notEnd, goes⟩ := @D.feeds _ _ _ s.nextIn (cfg.buflen.size - s.outbuf.length) inv.fed
  obtain ⟨most, fits⟩ := @D.within _ _ _ _ .noFlush s.nextIn
    (cfg.buflen.size - s.outbuf.length) inv.fed
  generalize cfg.engine.deflate s.strm .noFlush s.nextIn (cfg.buflen.size - s.outbuf.length) = step
    at *
  by_cases ok : step.code = .ok
  · simp only [ok, ne_eq, not_true, false_and, if_false]
    refine ⟨x' ++ s.nextIn.take step.consumed, z ++ step.out, ?_⟩
    have whole : x' ++ s.nextIn.take step.consumed ++ s.nextIn.drop step.consumed =
        x' ++ s.nextIn := by
      rw [List.append_assoc, List.take_append_drop]
    exact {
      fed := goes ok
      input := by
        simp only
        rw [← List.append_assoc, whole, List.append_assoc]
        exact inv.input
      crc := by
        simp only
        rw [whole]
        exact inv.crc
      inTot := by
        simp only
        rw [whole]
        exact inv.inTot
      written := by
        simp only
        rw [← List.append_assoc, inv.written, List.append_assoc, List.append_assoc]
      outTot := inv.outTot
      room := by
        simp only [List.length_append]
        omega }
  · rw [if_pos ⟨ok, notEnd⟩]
    exact inv.partial_output rfl rfl

/-- The variables after a `read` of `bytes`. -/
def CState.filled (s : CState σ) (bytes : Bytes) (w : World) : CState σ :=
  { s with
    crc := crc32 s.crc bytes
    inTot := s.inTot + bytes.length
    nextIn := bytes
    world := w }

theorem CInv.filled (inv : CInv D out0 start x .noFlush x' z s) (nil : s.nextIn = [])
    {len : Nat} {bytes : Bytes} {w : World}
    (answer : s.world.read cfg.env len = (some bytes, w)) :
    CInv D out0 start x .noFlush x' z (s.filled bytes w) := by
  obtain ⟨input, output, -⟩ := World.read_spec answer
  have input' := inv.input
  have sums := inv.crc
  have counts := inv.inTot
  rw [nil, List.nil_append] at input'
  rw [nil, List.append_nil] at sums counts
  exact {
    fed := inv.fed
    input := by rw [input', input]; rfl
    crc := by simp only [CState.filled, crc32_append, sums]
    inTot := by simp only [CState.filled, counts, List.length_append]; omega
    written := by simp only [CState.filled, output]; exact inv.written
    outTot := by simp only [CState.filled, output]; exact inv.outTot
    room := inv.room }

theorem feedRound_spec (feeding : Feeding D out0 start x s) (pos : 0 < cfg.buflen.size) :
    (feedRound cfg s).Spec F out0 start x (Feeding D out0 start x) (Closing D out0 start x) := by
  obtain ⟨x', z, inv⟩ := feeding
  have flushed := flushFull_spec inv pos
  unfold feedRound
  cases flush : flushFull cfg s with
  | error left =>
    rw [flush] at flushed
    exact flushed
  | ok s =>
    rw [flush] at flushed
    obtain ⟨inv, spare, -, -⟩ := flushed
    simp only
    split
    next nil =>
      rcases answer : s.world.read cfg.env cfg.buflen.size with ⟨_ | bytes, w⟩
      · have same : w.output = s.world.output := World.read_none answer
        exact inv.partial_output rfl same
      · obtain ⟨input, output, atEnd⟩ := World.read_spec answer
        have input' := inv.input
        rw [nil, List.nil_append] at input'
        simp only
        split
        next none =>
          -- End of file.
          have nothing := atEnd pos none
          rw [none, List.nil_append, nothing] at input
          rw [nothing, List.append_nil] at input'
          subst input'
          refine ⟨nil, input.symm, spare, .noFlush, z, ?_⟩
          exact {
            fed := inv.fed
            input := by simp only [nil, ← input, List.append_nil]
            crc := inv.crc
            inTot := inv.inTot
            written := by simp only [output]; exact inv.written
            outTot := by simp only [output]; exact inv.outTot
            room := inv.room }
        next some =>
          exact (feed_spec (inv.filled nil answer) spare).mono fun _ => False.elim
    · exact (feed_spec inv spare).mono fun _ => False.elim

/-! ## Finishing -/

/-- When the stream is complete and written. -/
def Finished (F : Format) (out0 start x : Bytes) (s : CState σ) : Prop :=
  out0.length + s.outTot = s.world.output.length ∧ s.inTot = x.length ∧
    s.crc = crc32 crc32Null x ∧ s.world.input = [] ∧
    ∃ z, F.Ends z ∧ F.payload z = x ∧ s.world.output = out0 ++ (start ++ z)

/-- The stream comes from the call that ended it. -/
def Ended (D : Deflates F cfg.engine) (x : Bytes) (strm : σ) : Prop :=
  ∃ s last z room, D.Fed s last x z ∧ (cfg.engine.deflate s .finish [] room).code = .streamEnd ∧
    strm = (cfg.engine.deflate s .finish [] room).strm

theorem finishRound_spec (closing : Closing D out0 start x s) (pos : 0 < cfg.buflen.size) :
    (finishRound cfg s).Spec F out0 start x (Closing D out0 start x)
      fun s => Finished F out0 start x s ∧ Ended D x s.strm := by
  obtain ⟨nil, ended, -, last, z, inv⟩ := closing
  unfold finishRound
  rw [nil]
  have closes := @D.closes _ _ _ _ (cfg.buflen.size - s.outbuf.length) inv.fed
  have ends := @D.ends _ _ _ _ (cfg.buflen.size - s.outbuf.length) inv.fed
  obtain ⟨most, fits⟩ := @D.within _ _ _ _ .finish []
    (cfg.buflen.size - s.outbuf.length) inv.fed
  -- Forget which step it was, but not that this one was the call that ended the stream.
  have last : ∀ step, cfg.engine.deflate s.strm .finish [] (cfg.buflen.size - s.outbuf.length) =
      step → step.code = .streamEnd → Ended D x step.strm := by
    rintro _ rfl code
    exact ⟨_, _, _, _, inv.fed, code, rfl⟩
  generalize cfg.engine.deflate s.strm .finish [] (cfg.buflen.size - s.outbuf.length) = step at *
  simp only
  split
  · exact inv.partial_output rfl rfl
  next good =>
    rcases answer : s.world.write cfg.env (s.outbuf ++ step.out) with ⟨count, w⟩
    obtain ⟨input, -, output⟩ := World.write_spec answer
    simp only
    split
    · rfl
    next wrote =>
      rw [Classical.not_not] at wrote
      -- All of the step is written, so the output is still the stream so far.
      have all : w.output = out0 ++ (start ++ (z ++ step.out)) := by
        rw [output, wrote, Option.getD_some, List.take_length, ← List.append_assoc, inv.written]
        simp
      have outTot := inv.outTot
      have lengths := congrArg List.length inv.written
      have lengths' := congrArg List.length all
      simp only [List.length_append] at lengths lengths'
      have sums := inv.crc
      have counts := inv.inTot
      rw [nil, List.append_nil] at sums counts
      split
      next ended' =>
        obtain ⟨complete, payload⟩ := ends ended'
        refine ⟨⟨?_, counts, sums, input.trans ended, _, complete, payload, all⟩,
          last step rfl ended'⟩
        simp only [List.length_append]
        omega
      -- The stream has not ended: the buffer is empty again, and nothing is left to feed.
      next going =>
        have ok : step.code = .ok := by
          apply Classical.byContradiction
          intro bad
          exact good ⟨bad, going⟩
        refine ⟨List.drop_nil, input.trans ended, pos, .finish, z ++ step.out, ?_⟩
        exact {
          fed := closes ok
          input := by simp only [input, ended, List.drop_nil, List.append_nil]
          crc := by simp only [List.drop_nil, List.append_nil]; exact sums
          inTot := by simp only [List.drop_nil, List.append_nil]; exact counts
          written := by rw [List.append_nil, all]
          outTot := by
            simp only [List.length_append]
            omega
          room := Nat.zero_le _ }

theorem writeTrailer_sited (finished : Finished F out0 start x s) {site : Site} {s' : CState σ}
    (wrote : writeTrailer cfg s = .out site s') : Sited F out0 start x site s' := by
  obtain ⟨outTot, inTot, sums, ended, z, complete, payload, written⟩ := finished
  unfold writeTrailer at wrote
  split at wrote
  · cases wrote
  · have bytes : le 4 s.crc.toNat ++ le 4 (s.inTot % 2 ^ 32).toNat = trailer x := by
      have low : (s.inTot % 2 ^ 32).toNat = x.length % 256 ^ 4 := by
        rw [inTot]
        omega
      rw [trailer, sums, low, le_mod]
    rw [bytes] at wrote
    have length : (trailer x).length = 8 := by simp [trailer]
    rcases answer : s.world.write cfg.env (trailer x) with ⟨count, w⟩
    obtain ⟨input, most, output⟩ := World.write_spec answer
    have output' : w.output = out0 ++ (start ++ (z ++ (trailer x).take (count.getD 0))) := by
      rw [output, written]
      simp
    have lengths := congrArg List.length output
    rw [List.length_append, List.length_take_of_le most] at lengths
    simp only [answer] at wrote
    split at wrote
    -- What was written of the trailer is in the file and is not counted.
    next failed =>
      cases wrote
      refine ⟨?_, ?_, z, complete, payload, output'⟩
      · rw [length] at most
        apply Nat.lt_of_le_of_ne most
        intro eight
        cases count with
        | none => cases eight
        | some n => exact failed (congrArg some eight)
      · simp only [CState.failIn, World.maybeWarn]
        omega
    next stored =>
      rw [Classical.not_not] at stored
      subst stored
      rw [Option.getD_some] at output' lengths
      rw [List.take_of_length_le (by omega)] at output'
      cases wrote
      refine ⟨?_, inTot, input.trans ended, z, complete, payload, output'⟩
      simp only
      omega

/-! ## The whole run -/

/-- A loop whose rounds keep a condition is left with what the rounds promise. -/
theorem loop_spec {round : CState σ → CRound σ} {again ok : CState σ → Prop}
    (keeps : ∀ s, again s → (round s).Spec F out0 start x again ok) (begun : again s)
    {fuel : Nat} {left : CLeft σ} (ran : run round fuel s = some left) :
    CRound.Spec F out0 start x again ok (.leave left) := by
  apply Leaves.invariant again (fun left => CRound.Spec F out0 start x again ok (.leave left))
    _ _ ⟨fuel, ran⟩ begun
  · intro s s' holds turn
    have spec := keeps s holds
    rwa [turn] at spec
  · intro s left holds turn
    have spec := keeps s holds
    rwa [turn] at spec

theorem deflateFile_sited (D : Deflates F cfg.engine) (pos : 0 < cfg.buflen.size)
    (fits : start.length ≤ cfg.buflen.size) {w : World} {fuel : Nat} {site : Site}
    (ran : deflateFile cfg start w fuel = some (.out site s)) :
    Sited F w.output start w.input site s := by
  unfold deflateFile at ran
  rcases init : cfg.engine.deflateInit2 cfg.engine.zero cfg.numflag with ⟨error, strm⟩
  simp only [init] at ran
  split at ran
  · cases ran
    exact ⟨rfl, rfl⟩
  next ok =>
    rw [Classical.not_not] at ok
    subst ok
    have begun : Feeding D w.output start w.input
        ⟨strm, [], start, crc32Null, 0, 0, w⟩ := by
      have fed := @D.init cfg.engine.zero cfg.numflag (by rw [init])
      rw [init] at fed
      exact ⟨[], [], ⟨fed, rfl, (crc32_nil _).symm, rfl, by simp, by simp, fits⟩⟩
    obtain ⟨left, fed, ran⟩ := Option.bind_eq_some_iff.mp ran
    have feeding := loop_spec (fun s => (feedRound_spec · pos)) begun fed
    rcases left with ⟨site', s'⟩ | s'
    · cases ran
      exact feeding
    · obtain ⟨left, finished, ran⟩ := Option.bind_eq_some_iff.mp ran
      have closing := loop_spec (fun s => (finishRound_spec · pos)) feeding finished
      rcases left with ⟨site', s''⟩ | s''
      · cases ran
        exact closing
      · rcases ends : cfg.engine.deflateEnd s''.strm with ⟨error, strm⟩
        simp only [ends] at ran
        have counted : Finished F w.output start w.input { s'' with strm := strm } := closing.1
        split at ran
        · cases ran
          obtain ⟨⟨outTot, -, -, -, z, complete, -, written⟩, -⟩ := closing
          exact ⟨outTot, z, z, complete, List.prefix_refl _, written ▸ List.prefix_refl _⟩
        · exact writeTrailer_sited counted (Option.some.inj ran)

end

/-! ## Without failures -/

section

variable (D : DeflatesAll F cfg.engine) {out0 start x x' z : Bytes} {last : ZFlush} {s : CState σ}

/-- The input that has not gone into the stream, and the output still to come at most. -/
def CState.todo (out0 start x : Bytes) (s : CState σ) : Nat × Nat :=
  let rest := s.nextIn.length + s.world.input.length
  (rest, out0.length + start.length + D.bound (x.length - rest) -
    (s.world.output.length + s.outbuf.length))

/-- A round that goes on has less to do, and no round fails. -/
def CRound.Progress (out0 start x : Bytes) (s : CState σ) : CRound σ → Prop
  | .again s' => Prod.Lex (· < ·) (· < ·) (s'.todo D out0 start x) (s.todo D out0 start x)
  | .leave (.ok _) => True
  | .leave (.error _) => False

variable {D}

theorem CInv.bounded (inv : CInv D.toDeflates out0 start x last x' z s) :
    s.world.output.length + s.outbuf.length ≤ out0.length + start.length +
      D.bound (x.length - (s.nextIn.length + s.world.input.length)) := by
  have lengths := congrArg List.length inv.written
  have input := congrArg List.length inv.input
  have most := D.bounded inv.fed
  simp only [List.length_append] at lengths input
  rw [input, Nat.add_sub_cancel]
  omega

theorem flushFull_progress (reliable : cfg.env.Reliable cfg.buflen)
    (room : s.outbuf.length ≤ cfg.buflen.size) :
    ∃ s', flushFull cfg s = .ok s' ∧ s'.todo D out0 start x = s.todo D out0 start x := by
  unfold flushFull
  split
  next full =>
    rw [s.world.write_some reliable room]
    simp only [full, ne_eq, not_true, if_false]
    refine ⟨_, rfl, ?_⟩
    simp [CState.todo, full]
  · exact ⟨s, rfl, rfl⟩

theorem feed_progress (inv : CInv D.toDeflates out0 start x .noFlush x' z s)
    (spare : s.outbuf.length < cfg.buflen.size) (some : s.nextIn ≠ []) :
    (feed cfg s).Progress D out0 start x s := by
  have room : 0 < cfg.buflen.size - s.outbuf.length := by omega
  obtain ⟨ok, used⟩ := D.feedsAll inv.fed some room
  have spec := feed_spec inv spare
  unfold feed at spec ⊢
  generalize cfg.engine.deflate s.strm .noFlush s.nextIn (cfg.buflen.size - s.outbuf.length) = step
    at *
  simp only [ok, ne_eq, not_true, false_and, if_false] at spec ⊢
  obtain ⟨x'', z'', inv'⟩ := spec
  have bounded := inv'.bounded
  have pos := List.length_pos_iff.mpr some
  unfold CRound.Progress CState.todo
  simp only [List.length_drop, List.length_append] at bounded ⊢
  by_cases none : step.consumed = 0
  · -- The room was used, so the output grew.
    rw [none] at used bounded ⊢
    apply Prod.Lex.right
    simp only [Nat.sub_zero] at bounded ⊢
    omega
  · apply Prod.Lex.left
    omega

theorem CRound.Progress.congr {t : CState σ} {round : CRound σ}
    (progress : round.Progress D out0 start x t)
    (same : t.todo D out0 start x = s.todo D out0 start x) : round.Progress D out0 start x s := by
  cases round with
  | again s' =>
    unfold CRound.Progress at progress ⊢
    rwa [← same]
  | leave left => cases left <;> exact progress

theorem feedRound_progress (reliable : cfg.env.Reliable cfg.buflen)
    (feeding : Feeding D.toDeflates out0 start x s) (pos : 0 < cfg.buflen.size) :
    (feedRound cfg s).Progress D out0 start x s := by
  obtain ⟨x', z, inv⟩ := feeding
  obtain ⟨t, flush, same⟩ : ∃ t, flushFull cfg s = .ok t ∧
      t.todo D out0 start x = s.todo D out0 start x := flushFull_progress reliable inv.room
  have flushed := flushFull_spec inv pos
  rw [flush] at flushed
  obtain ⟨inv', spare, -, -⟩ := flushed
  unfold feedRound
  rw [flush]
  refine CRound.Progress.congr ?_ same
  simp only
  split
  next nil =>
    obtain ⟨got, answer, -, live⟩ := t.world.read_some reliable cfg.buflen.size
    obtain ⟨input, output, -⟩ := World.read_spec answer
    rw [answer]
    simp only
    split
    · trivial
    next some =>
      have progress := feed_progress (inv'.filled nil answer) spare some
      apply progress.congr
      have lengths := congrArg List.length input
      rw [List.length_append] at lengths
      simp only [CState.todo, CState.filled, nil, List.length_nil, Nat.zero_add, lengths]
  next some => exact feed_progress inv' spare some

/-- A last call either ends the stream or uses its room. -/
theorem finishRound_progress (reliable : cfg.env.Reliable cfg.buflen)
    (closing : Closing D.toDeflates out0 start x s) (pos : 0 < cfg.buflen.size) :
    (finishRound cfg s).Progress D out0 start x s := by
  have spec := finishRound_spec closing pos
  obtain ⟨nil, ended, spare, last, z, inv⟩ := closing
  have room : 0 < cfg.buflen.size - s.outbuf.length := by omega
  have closes := D.closesAll inv.fed room
  obtain ⟨-, fits⟩ := @D.within _ _ _ _ .finish [] (cfg.buflen.size - s.outbuf.length) inv.fed
  unfold finishRound at spec ⊢
  rw [nil] at spec ⊢
  generalize cfg.engine.deflate s.strm .finish [] (cfg.buflen.size - s.outbuf.length) = step at *
  have good : ¬ (step.code ≠ .ok ∧ step.code ≠ .streamEnd) := by
    rintro ⟨notOk, notEnd⟩
    rcases closes with ended | ⟨ok, -⟩
    · exact notEnd ended
    · exact notOk ok
  have short : (s.outbuf ++ step.out).length ≤ cfg.buflen.size := by
    rw [List.length_append]
    omega
  simp only [if_neg good, s.world.write_some reliable short, ne_eq, not_true, if_false] at spec ⊢
  split at spec
  next ended =>
    rw [if_pos ended]
    trivial
  next going =>
    rw [if_neg going]
    have used : step.out.length = cfg.buflen.size - s.outbuf.length := by
      rcases closes with ended | ⟨-, used⟩
      · exact absurd ended going
      · exact used
    obtain ⟨-, -, -, last', z', inv'⟩ := spec
    have bounded := inv'.bounded
    unfold CRound.Progress CState.todo
    simp only [nil, List.drop_nil, List.length_append, List.length_nil] at bounded ⊢
    apply Prod.Lex.right
    omega

/-- A loop that makes progress in every round and keeps a condition is left without a failure. -/
theorem loop_finishes {round : CState σ → CRound σ} {again ok : CState σ → Prop}
    (keeps : ∀ s, again s → (round s).Spec F out0 start x again ok)
    (progress : ∀ s, again s → (round s).Progress D out0 start x s) (begun : again s) :
    ∃ fuel s', run round fuel s = some (.ok s') ∧ ok s' := by
  have descends : ∀ s s', again s → round s = .again s' → again s' ∧
      Prod.Lex (· < ·) (· < ·) (s'.todo D out0 start x) (s.todo D out0 start x) := by
    intro s s' holds turn
    have spec := keeps s holds
    have less := progress s holds
    rw [turn] at spec less
    exact ⟨spec, less⟩
  obtain ⟨left, leaves⟩ := Leaves.exists_of_variant again (CState.todo D out0 start x)
    (Prod.lex Nat.lt_wfRel Nat.lt_wfRel).wf descends s begun
  obtain ⟨s', rfl⟩ : ∃ s', left = .ok s' := by
    apply Leaves.invariant again (fun left => ∃ s', left = .ok s') _ _ leaves begun
    · intro s s' holds turn
      have spec := keeps s holds
      rwa [turn] at spec
    · intro s left holds turn
      have less := progress s holds
      rw [turn] at less
      rcases left with _ | s'
      · exact less.elim
      · exact ⟨s', rfl⟩
  obtain ⟨fuel, ran⟩ := leaves
  exact ⟨fuel, s', ran, loop_spec keeps begun ran⟩

theorem writeTrailer_done (reliable : cfg.env.Reliable cfg.buflen) (large : 8 ≤ cfg.buflen.size)
    (s : CState σ) : ∃ s', writeTrailer cfg s = .out .done s' := by
  have eight : (le 4 s.crc.toNat ++ le 4 (s.inTot % 2 ^ 32).toNat).length = 8 := by simp
  have wrote := s.world.write_some reliable (eight.symm ▸ large)
  unfold writeTrailer
  rw [if_neg (by omega)]
  simp only [wrote, eight, ne_eq, not_true, if_false]
  exact ⟨_, rfl⟩

/-- Without failures `gz_compress` gets to the end of the trailer. -/
theorem deflateFile_done (D : DeflatesAll F cfg.engine) (level : IsLevel cfg.numflag)
    (reliable : cfg.env.Reliable cfg.buflen) (large : 8 ≤ cfg.buflen.size)
    (fits : start.length ≤ cfg.buflen.size) (w : World) :
    ∃ fuel s, deflateFile cfg start w fuel = some (.out .done s) := by
  have pos : 0 < cfg.buflen.size := by omega
  rcases init : cfg.engine.deflateInit2 cfg.engine.zero cfg.numflag with ⟨error, strm⟩
  have ok := D.initOk cfg.engine.zero level
  have fed := D.init ok
  rw [init] at ok fed
  have begun : Feeding D.toDeflates w.output start w.input
      ⟨strm, [], start, crc32Null, 0, 0, w⟩ :=
    ⟨[], [], ⟨fed, rfl, (crc32_nil _).symm, rfl, by simp, by simp, fits⟩⟩
  obtain ⟨fuel₁, s₁, feeds, closing⟩ := loop_finishes (fun s => (feedRound_spec · pos))
    (fun s => (feedRound_progress reliable · pos)) begun
  obtain ⟨fuel₂, s₂, finishes, -, last⟩ := loop_finishes (fun s => (finishRound_spec · pos))
    (fun s => (finishRound_progress reliable · pos)) closing
  have feeds' := run_mono _ (Nat.le_max_left fuel₁ fuel₂) feeds
  have finishes' := run_mono _ (Nat.le_max_right fuel₁ fuel₂) finishes
  have ends : (cfg.engine.deflateEnd s₂.strm).1 = .ok := by
    obtain ⟨t, last, z, room, fed, code, same⟩ := last
    rw [same]
    exact D.endOk fed code
  rcases ended : cfg.engine.deflateEnd s₂.strm with ⟨error', strm'⟩
  rw [ended] at ends
  simp only at ok ends
  subst ok ends
  refine ⟨max fuel₁ fuel₂, ?_⟩
  simp only [deflateFile, init, feeds', finishes', ended, ne_eq, not_true, if_false,
    Option.bind_eq_bind, Option.bind_some]
  obtain ⟨s, written⟩ := writeTrailer_done reliable large { s₂ with strm := strm' }
  exact ⟨s, congrArg some written⟩

end

/-! ## The header -/

theorem headerBytes_isHeader {numflag : Nat} {origname : Bytes} {mtime : UInt32}
    (nul : 0 ∉ origname) :
    IsHeader (headerBytes numflag origname mtime ++ if origname ≠ [] then [0] else []) := by
  have shape : headerBytes numflag origname mtime ++ (if origname ≠ [] then [0] else []) =
      gzipMagic0 :: gzipMagic1 :: zDeflated :: (if origname ≠ [] then 0x08 else 0) ::
        ((le 4 mtime.toNat ++ [if numflag = 1 then 4 else if numflag = 9 then 2 else 0, osCode]) ++
          ([] ++ ((origname ++ if origname ≠ [] then [0] else []) ++ ([] ++ [])))) := by
    simp [headerBytes, gzipMagic0, gzipMagic1, zDeflated]
  rw [shape]
  constructor
  · exact .inl rfl
  · simp
  · exact (if_pos (by split <;> rfl)).mpr rfl
  · by_cases nil : origname = []
    · simp [IsString, nil]
    · rw [if_pos nil, if_pos nil]
      exact ⟨origname, nul, rfl⟩
  · exact (if_pos (by split <;> rfl)).mpr rfl
  · exact (if_neg (by split <;> decide)).symm

theorem headerBytes_length (numflag : Nat) (origname : Bytes) (mtime : UInt32) :
    (headerBytes numflag origname mtime).length = 10 + origname.length := by
  simp only [headerBytes, List.length_append, List.length_cons, List.length_nil, le_length]

/-- The buffer starts with a header, unless it is too small for one. -/
theorem outbufStart_spec {origname start : Bytes} {mtime : UInt32} (nul : 0 ∉ origname)
    (begins : outbufStart cfg origname mtime = some start) :
    0 < cfg.buflen.size ∧ start.length ≤ cfg.buflen.size ∧
      (10 ≤ cfg.buflen.size → IsHeader start) ∧
      (cfg.buflen.size < 10 → start = [] ∨ start = [cfg.env.junk]) := by
  unfold outbufStart at begins
  split at begins
  next large =>
    split at begins
    · cases begins
    next fits =>
      cases begins
      refine ⟨by omega, ?_, fun _ => headerBytes_isHeader nul, fun small => by omega⟩
      rw [List.length_append, headerBytes_length]
      split
      · rw [List.length_singleton]
        omega
      · rw [List.length_nil]
        omega
  next small =>
    split at begins
    · cases begins
    next some =>
      cases begins
      refine ⟨by omega, ?_, fun large => absurd large small, fun _ => ?_⟩
      · split
        · rw [List.length_singleton]
          omega
        · exact Nat.zero_le _
      · split
        · exact .inr rfl
        · exact .inl rfl

theorem outbufStart_some {origname : Bytes} {mtime : UInt32}
    (large : 11 + origname.length ≤ cfg.buflen.size) :
    ∃ start, outbufStart cfg origname mtime = some start := by
  unfold outbufStart
  rw [if_pos (by omega), if_neg (by omega)]
  exact ⟨_, rfl⟩

theorem compressEnd_out {origname : Bytes} {mtime : UInt32} {w : World} {fuel : Nat} {site : Site}
    {s : CState σ} :
    compressEnd cfg origname mtime w fuel = some (.out site s) ↔
      cfg.env.mallocs = true ∧ ∃ start,
        outbufStart cfg (cfg.name origname) (cfg.time mtime) = some start ∧
        deflateFile cfg start w fuel = some (.out site s) := by
  unfold compressEnd
  cases mallocs : cfg.env.mallocs with
  | false => simp
  | true =>
    cases begins : outbufStart cfg (cfg.name origname) (cfg.time mtime) <;> simp

end CheriGzip.Gzip
