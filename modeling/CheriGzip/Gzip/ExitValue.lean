import CheriGzip.Gzip.Compress
import CheriGzip.Gzip.Uncompress

/-!
# exit_value

`gz_compress` and `gz_uncompress` only ever raise `exit_value`. Runs that start with different
values of it do the same, so that a process that has its own copy returns and writes the same.
-/
namespace CheriGzip.Gzip

open Loop

variable {σ : Type}

/-! ## States with another exit_value -/

def World.exitWith (w : World) (e : Nat) : World := { w with exitValue := e }

def UState.exitWith (s : UState σ) (e : Nat) : UState σ := { s with world := s.world.exitWith e }

def CState.exitWith (s : CState σ) (e : Nat) : CState σ := { s with world := s.world.exitWith e }

/-- The same state but for `exit_value`. -/
inductive WTwin (w : World) : World → Prop where
  | intro (e : Nat) : WTwin w (w.exitWith e)

inductive UTwin (s : UState σ) : UState σ → Prop where
  | intro (e : Nat) : UTwin s (s.exitWith e)

inductive CTwin (s : CState σ) : CState σ → Prop where
  | intro (e : Nat) : CTwin s (s.exitWith e)

/-- The same end but for `exit_value`. -/
inductive Ran.Twin {α : Type} : Ran α → Ran α → Prop where
  | returns (a : α) {w w' : World} (twin : WTwin w w') : Ran.Twin (.returns a w) (.returns a w')
  | exits (status : Nat) {w w' : World} (twin : WTwin w w') :
      Ran.Twin (.exits status w) (.exits status w')

theorem exitWith_read (w : World) (e : Nat) (env : Env) (len : Nat) :
    (w.exitWith e).read env len = ((w.read env len).1, (w.read env len).2.exitWith e) := by
  unfold World.read
  simp only [World.exitWith]
  cases env.reads w.reads <;> rfl

theorem exitWith_write (w : World) (e : Nat) (env : Env) (bytes : Bytes) :
    (w.exitWith e).write env bytes = ((w.write env bytes).1, (w.write env bytes).2.exitWith e) := by
  unfold World.write
  simp only [World.exitWith]
  cases env.writes w.writes <;> rfl

/-! ## gz_uncompress -/

section

variable {cfg : UConfig σ}

theorem fail_exit (s : UState σ) (e : Nat) (message : String) :
    UTwin (s.fail message) ((s.exitWith e).fail message) := ⟨if e = 0 then 1 else e⟩

theorem drain_exit (s : UState σ) (e : Nat) :
    Turn.Rel UTwin UTwin (drain cfg s) (drain cfg (s.exitWith e)) := by
  have same : (s.exitWith e).outbuf = s.outbuf := rfl
  have world : (s.exitWith e).world = s.world.exitWith e := rfl
  unfold drain
  simp only [same, world, exitWith_write]
  refine .ite ?_ fun _ => .again ⟨e⟩
  intro _
  cases tflag : cfg.tflag with
  | true => exact .ite (fun _ => .leave (fail_exit _ e _)) fun _ => .again ⟨e⟩
  | false => exact .ite (fun _ => .leave (fail_exit _ e _)) fun _ => .again ⟨e⟩

theorem readState_exit (s : UState σ) (e : Nat) :
    Turn.Rel UTwin UTwin (readState cfg s) (readState cfg (s.exitWith e)) := by
  obtain ⟨step, isStep⟩ : ∃ step, step = cfg.engine.inflate s.strm .finish s.nextIn
      (cfg.buflen.size - s.outbuf.length) := ⟨_, rfl⟩
  have step' : cfg.engine.inflate (s.exitWith e).strm .finish (s.exitWith e).nextIn
      (cfg.buflen.size - (s.exitWith e).outbuf.length) = step := isStep.symm
  have same : (s.exitWith e).inflated step = (s.inflated step).exitWith e := rfl
  unfold readState
  simp only [← isStep, step', same]
  have error : ((s.inflated step).exitWith e).error = (s.inflated step).error := rfl
  rw [error]
  cases (s.inflated step).error with
  | bufError => exact .ite (fun _ => .again ⟨e⟩) fun _ => drain_exit _ e
  | streamEnd => exact drain_exit _ e
  | ok => exact drain_exit _ e
  | needDict => exact .leave (fail_exit _ e _)
  | dataError => exact .leave (fail_exit _ e _)
  | streamError => exact .leave (fail_exit _ e _)
  | memError => exact .leave (fail_exit _ e _)
  | errno => exact drain_exit _ (if e = 0 then 1 else e)
  | versionError => exact drain_exit _ (if e = 0 then 1 else e)

/-- The sixteen states. -/
theorem dispatch_exit (s : UState σ) (e : Nat) (b : UInt8) (rest : Bytes) :
    Turn.Rel UTwin UTwin (dispatch cfg s b rest) (dispatch cfg (s.exitWith e) b rest) := by
  have same : (s.exitWith e).state = s.state := rfl
  unfold dispatch
  rw [same]
  cases s.state with
  | magic0 =>
    refine .ite (fun _ => .ite (fun _ => .leave ?_) fun _ => .leave (fail_exit s e _))
      fun _ => .again ⟨e⟩
    exact ⟨if e = 0 then 1 else e⟩
  | magic1 => exact .ite (fun _ => .leave (fail_exit s e _)) fun _ => .again ⟨e⟩
  | method => exact .ite (fun _ => .leave (fail_exit s e _)) fun _ => .again ⟨e⟩
  | flags => exact .again ⟨e⟩
  | skipping => exact .ite (fun _ => .again ⟨e⟩) fun _ => .again ⟨e⟩
  | extra => exact .ite (fun _ => .again ⟨e⟩) fun _ => .again ⟨e⟩
  | extra2 => exact .again ⟨e⟩
  | extra3 => exact .ite (fun _ => .again ⟨e⟩) fun _ => .again ⟨e⟩
  | origname => exact .ite (fun _ => .again ⟨e⟩) fun _ => .again ⟨e⟩
  | comment => exact .ite (fun _ => .again ⟨e⟩) fun _ => .again ⟨e⟩
  | headCrc1 => exact .again ⟨e⟩
  | headCrc2 => exact .ite (fun _ => .again ⟨e⟩) fun _ => .again ⟨e⟩
  | init =>
    have strm : (s.exitWith e).strm = s.strm := rfl
    simp only [strm]
    rcases cfg.engine.inflateInit2 s.strm with ⟨code, strm⟩
    cases code with
    | ok => exact .again ⟨e⟩
    | _ => exact .leave (fail_exit { s with strm := strm, state := .init } e _)
  | read => exact readState_exit s e
  | crc =>
    refine .ite (fun _ => .ite (fun _ => .again ⟨e⟩) fun _ => .leave (fail_exit s e _)) fun _ => ?_
    refine .ite (fun _ => .leave (fail_exit s e _)) fun _ => ?_
    exact .ite (fun _ => .leave ⟨e⟩) fun _ => .again ⟨e⟩
  | len =>
    refine .ite (fun _ => .ite (fun _ => .again ⟨e⟩) fun _ => .leave (fail_exit s e _)) fun _ => ?_
    refine .ite (fun _ => .leave (fail_exit s e _)) fun _ => ?_
    refine .ite (fun _ => .leave ?_) fun _ => .again ⟨e⟩
    exact fail_exit { s with nextIn := s.nextIn.drop 4, state := .len } e _

/-- The refill reads the same. -/
theorem refill_exit (s : UState σ) (e : Nat) :
    (∃ t e', refill cfg s = .error t ∧ refill cfg (s.exitWith e) = .error (t.exitWith e')) ∨
      ∃ t, refill cfg s = .ok t ∧ refill cfg (s.exitWith e) = .ok (t.exitWith e) := by
  have due : ((s.exitWith e).nextIn = [] ∨ (s.exitWith e).needmore) ∧
      (s.exitWith e).doneReading = false ↔
        (s.nextIn = [] ∨ s.needmore) ∧ s.doneReading = false := Iff.rfl
  have world : (s.exitWith e).world = s.world.exitWith e := rfl
  have nextIn : (s.exitWith e).nextIn = s.nextIn := rfl
  unfold refill
  by_cases refills : (s.nextIn = [] ∨ s.needmore) ∧ s.doneReading = false
  · rw [if_pos refills, if_pos (due.mpr refills)]
    simp only [world, nextIn, exitWith_read]
    rcases s.world.read cfg.env (cfg.buflen.size - s.nextIn.length) with ⟨_ | bytes, w⟩
    · exact .inl ⟨_, if e = 0 then 1 else e, rfl, rfl⟩
    · exact .inr ⟨_, rfl, rfl⟩
  · rw [if_neg refills, if_neg (mt due.mp refills)]
    exact .inr ⟨s, rfl, rfl⟩

theorem uncompressRound_exit (s t : UState σ) (twin : UTwin s t) :
    Turn.Rel UTwin UTwin (uncompressRound cfg s) (uncompressRound cfg t) := by
  obtain ⟨e⟩ := twin
  unfold uncompressRound
  rcases @refill_exit _ cfg s e with ⟨t, e', error, error'⟩ | ⟨t, ok, ok'⟩
  · rw [error, error']
    exact .leave ⟨e'⟩
  · rw [ok, ok']
    have nextIn : (t.exitWith e).nextIn = t.nextIn := rfl
    simp only [nextIn]
    cases t.nextIn with
    | nil => exact .ite (fun _ => .leave (fail_exit t e _)) fun _ => .leave ⟨e⟩
    | cons b rest => exact dispatch_exit t e b rest

/-- `gz_uncompress` does not look at `exit_value`. -/
theorem gzUncompress_exit (pre : Bytes) (w : World) (e fuel : Nat) :
    Option.Rel Ran.Twin (gzUncompress cfg pre w fuel)
      (gzUncompress cfg pre (w.exitWith e) fuel) := by
  unfold gzUncompress
  by_cases mallocs : cfg.env.mallocs = false
  · rw [if_pos mallocs, if_pos mallocs]
    exact .some (.exits 2 ⟨e⟩)
  · rw [if_neg mallocs, if_neg mallocs]
    have start : UTwin (uncompressStart cfg pre w) (uncompressStart cfg pre (w.exitWith e)) := ⟨e⟩
    have runs := run_optionRel (@uncompressRound_exit σ cfg) fuel start
    generalize run (uncompressRound cfg) fuel (uncompressStart cfg pre w) = left at runs ⊢
    generalize run (uncompressRound cfg) fuel (uncompressStart cfg pre (w.exitWith e)) = right
      at runs ⊢
    cases runs with
    | none => exact .none
    | some twin =>
      obtain ⟨e'⟩ := twin
      exact .some (.returns _ ⟨e'⟩)

end

/-! ## gz_compress -/

section

variable {cfg : CConfig σ}

/-- The loops of `gz_compress` are left alike. -/
inductive LeftTwin : CLeft σ → CLeft σ → Prop where
  | ok {s t : CState σ} (twin : CTwin s t) : LeftTwin (.ok s) (.ok t)
  | error (site : Site) {s t : CState σ} (twin : CTwin s t) :
      LeftTwin (.error (site, s)) (.error (site, t))

/-- The same end of `gz_compress` but for `exit_value`. -/
inductive EndTwin : CEnd σ → CEnd σ → Prop where
  | out (site : Site) {s t : CState σ} (twin : CTwin s t) : EndTwin (.out site s) (.out site t)
  | exits (status : Nat) {w w' : World} (twin : WTwin w w') :
      EndTwin (.exits status w) (.exits status w')

theorem failIn_exit (s : CState σ) (e : Nat) (message : String) :
    CTwin (s.failIn message) ((s.exitWith e).failIn message) := ⟨if e = 0 then 1 else e⟩

theorem failOut_exit (s : CState σ) (e : Nat) (message : String) :
    CTwin (s.failOut message) ((s.exitWith e).failOut message) := ⟨if e = 0 then 1 else e⟩

theorem flushFull_exit (s : CState σ) (e : Nat) :
    (∃ site t e', flushFull cfg s = .error (site, t) ∧
      flushFull cfg (s.exitWith e) = .error (site, t.exitWith e')) ∨
      ∃ t, flushFull cfg s = .ok t ∧ flushFull cfg (s.exitWith e) = .ok (t.exitWith e) := by
  have outbuf : (s.exitWith e).outbuf = s.outbuf := rfl
  have world : (s.exitWith e).world = s.world.exitWith e := rfl
  unfold flushFull
  simp only [outbuf, world, exitWith_write]
  by_cases full : s.outbuf.length = cfg.buflen.size
  · rw [if_pos full, if_pos full]
    by_cases short : (s.world.write cfg.env s.outbuf).1 ≠ some cfg.buflen.size
    · rw [if_pos short, if_pos short]
      exact .inl ⟨_, _, if e = 0 then 1 else e, rfl, rfl⟩
    · rw [if_neg short, if_neg short]
      exact .inr ⟨_, rfl, rfl⟩
  · rw [if_neg full, if_neg full]
    exact .inr ⟨s, rfl, rfl⟩

theorem feed_exit (s : CState σ) (e : Nat) :
    Turn.Rel CTwin LeftTwin (feed cfg s) (feed cfg (s.exitWith e)) := by
  unfold feed
  exact .ite (fun _ => .leave (.error _ (failIn_exit _ e _))) fun _ => .again ⟨e⟩

theorem feedRound_exit (s t : CState σ) (twin : CTwin s t) :
    Turn.Rel CTwin LeftTwin (feedRound cfg s) (feedRound cfg t) := by
  obtain ⟨e⟩ := twin
  unfold feedRound
  rcases @flushFull_exit _ cfg s e with ⟨site, t, e', error, error'⟩ | ⟨t, ok, ok'⟩
  · rw [error, error']
    exact .leave (.error site ⟨e'⟩)
  · rw [ok, ok']
    have world : (t.exitWith e).world = t.world.exitWith e := rfl
    simp only [world, exitWith_read]
    refine .ite ?_ fun _ => feed_exit t e
    intro _
    rcases t.world.read cfg.env cfg.buflen.size with ⟨_ | bytes, w⟩
    · exact .leave (.error _ (failIn_exit { t with world := w } e _))
    · exact .ite (fun _ => .leave (.ok ⟨e⟩)) fun _ => feed_exit _ e

theorem finishRound_exit (s t : CState σ) (twin : CTwin s t) :
    Turn.Rel CTwin LeftTwin (finishRound cfg s) (finishRound cfg t) := by
  obtain ⟨e⟩ := twin
  have world : (s.exitWith e).world = s.world.exitWith e := rfl
  unfold finishRound
  simp only [world, exitWith_write]
  refine .ite (fun _ => .leave (.error _ (failIn_exit _ e _))) fun _ => ?_
  refine .ite (fun _ => .leave (.error _ (failOut_exit _ e _))) fun _ => ?_
  exact .ite (fun _ => .leave (.ok ⟨e⟩)) fun _ => .again ⟨e⟩

theorem writeTrailer_exit (s : CState σ) (e : Nat) :
    EndTwin (writeTrailer cfg s) (writeTrailer cfg (s.exitWith e)) := by
  have world : (s.exitWith e).world = s.world.exitWith e := rfl
  unfold writeTrailer
  by_cases small : cfg.buflen.size < 8
  · rw [if_pos small, if_pos small]
    exact .exits 2 ⟨e⟩
  · rw [if_neg small, if_neg small]
    simp only [world, exitWith_write]
    have same : (s.exitWith e).crc = s.crc ∧ (s.exitWith e).inTot = s.inTot := ⟨rfl, rfl⟩
    rw [same.1, same.2]
    generalize s.world.write cfg.env (le 4 s.crc.toNat ++ le 4 (s.inTot % 2 ^ 32).toNat) = answer
    by_cases short : answer.1 ≠ some 8
    · rw [if_pos short, if_pos short]
      exact .out _ (failIn_exit { s with world := answer.2 } e _)
    · rw [if_neg short, if_neg short]
      exact .out _ ⟨e⟩

theorem deflateFile_exit (outbuf : Bytes) (w : World) (e fuel : Nat) :
    Option.Rel EndTwin (deflateFile cfg outbuf w fuel)
      (deflateFile cfg outbuf (w.exitWith e) fuel) := by
  unfold deflateFile
  rcases cfg.engine.deflateInit2 cfg.engine.zero cfg.numflag with ⟨error, strm⟩
  by_cases failed : error ≠ .ok
  · simp only [if_pos failed]
    exact .some (.out _ (failIn_exit ⟨strm, [], outbuf, 0, 0, 0, w⟩ e _))
  · simp only [if_neg failed]
    have start : CTwin (⟨strm, [], outbuf, crc32Null, 0, 0, w⟩ : CState σ)
        ⟨strm, [], outbuf, crc32Null, 0, 0, w.exitWith e⟩ := ⟨e⟩
    have feeds := run_optionRel (@feedRound_exit σ cfg) fuel start
    generalize run (feedRound cfg) fuel ⟨strm, [], outbuf, crc32Null, 0, 0, w⟩ = left at feeds ⊢
    generalize run (feedRound cfg) fuel ⟨strm, [], outbuf, crc32Null, 0, 0, w.exitWith e⟩ = right
      at feeds ⊢
    cases feeds with
    | none => exact .none
    | some twins =>
      cases twins with
      | error site twin => exact .some (.out site twin)
      | @ok s t twin =>
        have finishes := run_optionRel (@finishRound_exit σ cfg) fuel twin
        simp only [Option.bind_eq_bind, Option.bind_some]
        generalize run (finishRound cfg) fuel s = left at finishes ⊢
        generalize run (finishRound cfg) fuel t = right at finishes ⊢
        cases finishes with
        | none => exact .none
        | some twins =>
          cases twins with
          | error site twin => exact .some (.out site twin)
          | @ok s t twin =>
            obtain ⟨e⟩ := twin
            have strm : (s.exitWith e).strm = s.strm := rfl
            simp only [Option.bind_some, strm]
            by_cases failed : (cfg.engine.deflateEnd s.strm).1 ≠ .ok
            · rw [if_pos failed, if_pos failed]
              exact .some (.out _
                (failIn_exit { s with strm := (cfg.engine.deflateEnd s.strm).2 } e _))
            · rw [if_neg failed, if_neg failed]
              exact .some (writeTrailer_exit { s with strm := (cfg.engine.deflateEnd s.strm).2 } e)

theorem compressEnd_exit (origname : Bytes) (mtime : UInt32) (w : World) (e fuel : Nat) :
    Option.Rel EndTwin (compressEnd cfg origname mtime w fuel)
      (compressEnd cfg origname mtime (w.exitWith e) fuel) := by
  unfold compressEnd
  by_cases mallocs : cfg.env.mallocs = false
  · rw [if_pos mallocs, if_pos mallocs]
    exact .some (.exits 2 ⟨e⟩)
  · rw [if_neg mallocs, if_neg mallocs]
    cases outbufStart cfg (cfg.name origname) (cfg.time mtime) with
    | none => exact .some (.exits 2 ⟨e⟩)
    | some outbuf => exact deflateFile_exit outbuf w e fuel

/-- `gz_compress` does not look at `exit_value`. -/
theorem gzCompress_exit (origname : Bytes) (mtime : UInt32) (w : World) (e fuel : Nat) :
    Option.Rel Ran.Twin (gzCompress cfg origname mtime w fuel)
      (gzCompress cfg origname mtime (w.exitWith e) fuel) := by
  have ends := @compressEnd_exit σ cfg origname mtime w e fuel
  unfold gzCompress
  generalize compressEnd cfg origname mtime w fuel = left at ends ⊢
  generalize compressEnd cfg origname mtime (w.exitWith e) fuel = right at ends ⊢
  cases ends with
  | none => exact .none
  | some twin =>
    cases twin with
    | out site twin =>
      obtain ⟨e'⟩ := twin
      exact .some (.returns _ ⟨e'⟩)
    | exits status twin => exact .some (.exits status twin)

end

end CheriGzip.Gzip
