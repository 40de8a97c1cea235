import CheriGzip.Gzip.CompressCount
import CheriGzip.Gzip.CompressSafe
import CheriGzip.Gzip.UncompressCorrect

/-!
# What the value of gz_compress promises

A value other than -1 should mean that what was written is a gzip file. The automaton of
`gz_uncompress` tells whether a header is one: run on the output it has to come to
`GZSTATE_INIT` at the first byte of the deflate stream.
-/
namespace CheriGzip.Gzip

open Loop

variable {σ τ : Type} {F : Format} {cfg : CConfig σ} {ucfg : UConfig τ}

/-! ## The header automaton -/

/-- One round of `gz_uncompress` until `GZSTATE_INIT`; `none` where the loop is left before. -/
def headerRound (cfg : UConfig τ) (s : UState τ) : Turn (UState τ) (Option (UState τ)) :=
  if s.state = .init then .leave (some s)
  else
    match uncompressRound cfg s with
    | .again s => .again s
    | .leave _ => .leave none

/-- The automaton run on `bytes`, wherever they are cut, comes to `GZSTATE_INIT` with `body` as
what is left of them. -/
def ReachesInit (cfg : UConfig τ) (bytes body : Bytes) : Prop :=
  ∀ pre w, pre.length < 2 ^ 32 → pre ++ w.input = bytes →
    ∃ s, Leaves (headerRound cfg) (uncompressStart cfg pre w) (some s) ∧
      s.nextIn ++ s.world.input = body

/-- The automaton's variables in a header, with `rest` still to come. -/
structure Scans (state : GzState) (flags : UInt8) (skip : Nat) (rest : Bytes) (s : UState τ) :
    Prop where
  state : s.state = state
  flags : s.flags = flags
  skipCount : s.skipCount = skip
  rest : s.nextIn ++ s.world.input = rest
  calm : s.needmore = false
  done : s.doneReading = true → s.world.input = []

/-- From these variables the automaton comes to `GZSTATE_INIT` with `body` left. -/
def Reaches (cfg : UConfig τ) (state : GzState) (flags : UInt8) (skip : Nat)
    (rest body : Bytes) : Prop :=
  ∀ s, Scans state flags skip rest s →
    ∃ t, Leaves (headerRound cfg) s (some t) ∧ t.nextIn ++ t.world.input = body

section

variable {state state' : GzState} {flags flags' b : UInt8} {skip skip' : Nat}
  {bs rest body : Bytes}

/-- The refill gives the next byte, and keeps the rest of the variables. -/
theorem Scans.refill (reliable : ucfg.env.Reliable ucfg.buflen) (pos : 0 < ucfg.buflen.size)
    {s : UState τ} (scans : Scans state flags skip (b :: bs) s) :
    ∃ t, refill ucfg s = .ok t ∧ Scans state flags skip (b :: bs) t ∧
      ∃ bs', t.nextIn = b :: bs' := by
  unfold Gzip.refill
  split
  next reads =>
    have nil : s.nextIn = [] := by
      rcases reads.1 with nil | more
      · exact nil
      · rw [scans.calm] at more
        cases more
    have input : s.world.input = b :: bs := by simpa [nil] using scans.rest
    obtain ⟨got, answer, -, some⟩ :=
      World.read_some reliable s.world (ucfg.buflen.size - s.nextIn.length)
    have first : s.world.input.take got ≠ [] := by
      apply some
      · rw [input]
        exact List.cons_ne_nil b bs
      · rw [nil, List.length_nil]
        omega
    rw [answer]
    refine ⟨_, rfl, ?_, ?_⟩
    · constructor
      · exact scans.state
      · exact scans.flags
      · exact scans.skipCount
      · simp only [nil, List.nil_append, List.take_append_drop]
        exact input
      · rfl
      · intro ended
        exact absurd (List.isEmpty_iff.mp ended) first
    · simp only [nil, List.nil_append, input]
      cases got with
      | zero => exact absurd rfl first
      | succ got => exact ⟨bs.take got, rfl⟩
  next full =>
    refine ⟨s, rfl, scans, ?_⟩
    have same := scans.rest
    cases nextIn : s.nextIn with
    | nil =>
      -- At the end of the input nothing would be left.
      have ended : s.doneReading = true := by
        cases done : s.doneReading with
        | true => rfl
        | false => exact absurd ⟨.inl nextIn, done⟩ full
      rw [nextIn, scans.done ended] at same
      cases same
    | cons c cs =>
      rw [nextIn] at same
      cases same
      exact ⟨cs, rfl⟩

/-- A state that takes no byte, or the next byte. -/
theorem Reaches.step (reliable : ucfg.env.Reliable ucfg.buflen) (pos : 0 < ucfg.buflen.size)
    (before : state ≠ .init) (reaches : Reaches ucfg state' flags' skip' rest body)
    (goes : ∀ t bs', Scans state flags skip (b :: bs) t → t.nextIn = b :: bs' →
      ∃ t', dispatch ucfg t b bs' = .again t' ∧ Scans state' flags' skip' rest t') :
    Reaches ucfg state flags skip (b :: bs) body := by
  intro s scans
  obtain ⟨t, refilled, scans', bs', nextIn⟩ := scans.refill reliable pos
  obtain ⟨t', again, scans''⟩ := goes t bs' scans' nextIn
  obtain ⟨r, left, rest⟩ := reaches t' scans''
  refine ⟨r, (leaves_again ?_).mpr left, rest⟩
  unfold headerRound uncompressRound
  rw [scans.state, if_neg before]
  simp only [refilled, nextIn, again]

/-- The variables after a state that took a byte. -/
theorem Scans.advance {t : UState τ} {bs' : Bytes} (scans : Scans state flags skip (b :: bs) t)
    (nextIn : t.nextIn = b :: bs') : bs' ++ t.world.input = bs := by
  have same := scans.rest
  rw [nextIn, List.cons_append] at same
  exact (List.cons.inj same).2

theorem reaches_init : Reaches ucfg .init flags skip body body := by
  intro s scans
  refine ⟨s, .of_leave ?_, scans.rest⟩
  rw [headerRound, if_pos scans.state]

variable (reliable : ucfg.env.Reliable ucfg.buflen) (pos : 0 < ucfg.buflen.size)

include reliable pos

theorem reaches_headCrc2 : Reaches ucfg .headCrc2 flags 0 (b :: bs) (b :: bs) := by
  have next : Reaches ucfg .init flags 0 (b :: bs) (b :: bs) :=
    reaches_init
  refine Reaches.step reliable pos (by decide) next ?_
  intro t bs' scans nextIn
  refine ⟨{ t with state := .init }, ?_, ?_⟩
  · simp [dispatch, scans.state, scans.skipCount]
  · exact { scans with state := rfl }

theorem reaches_headCrc1 (none : flags &&& headCrcFlag = 0) :
    Reaches ucfg .headCrc1 flags skip (b :: bs) (b :: bs) := by
  have next : Reaches ucfg .headCrc2 flags 0 (b :: bs) (b :: bs) :=
    reaches_headCrc2 reliable pos
  refine Reaches.step reliable pos (by decide) next ?_
  intro t bs' scans nextIn
  refine ⟨{ t with skipCount := 0, state := .headCrc2 }, ?_, ?_⟩
  · simp [dispatch, scans.state, scans.flags, none]
  · exact { scans with state := rfl, skipCount := rfl }

theorem reaches_comment (none : flags &&& headCrcFlag = 0) (none' : flags &&& commentFlag = 0) :
    Reaches ucfg .comment flags skip (b :: bs) (b :: bs) := by
  have next : Reaches ucfg .headCrc1 flags skip (b :: bs) (b :: bs) :=
    reaches_headCrc1 reliable pos none
  refine Reaches.step reliable pos (by decide) next ?_
  intro t bs' scans nextIn
  refine ⟨{ t with state := .headCrc1 }, ?_, ?_⟩
  · simp [dispatch, scans.state, scans.flags, none']
  · exact { scans with state := rfl }

/-- Without a name in the header. -/
theorem reaches_nameless (none : flags &&& headCrcFlag = 0) (none' : flags &&& commentFlag = 0)
    (nameless : flags &&& orignameFlag = 0) :
    Reaches ucfg .origname flags skip (b :: bs) (b :: bs) := by
  have next : Reaches ucfg .comment flags skip (b :: bs) (b :: bs) :=
    reaches_comment reliable pos none none'
  refine Reaches.step reliable pos (by decide) next ?_
  intro t bs' scans nextIn
  refine ⟨{ t with state := .comment }, ?_, ?_⟩
  · simp [dispatch, scans.state, scans.flags, nameless]
  · exact { scans with state := rfl }

/-- With a name, which ends at its NUL. -/
theorem reaches_name (none : flags &&& headCrcFlag = 0) (none' : flags &&& commentFlag = 0)
    (named : flags &&& orignameFlag ≠ 0) {name : Bytes} (nul : 0 ∉ name) :
    Reaches ucfg .origname flags skip (name ++ 0 :: b :: bs) (b :: bs) := by
  induction name with
  | nil =>
    have next : Reaches ucfg .comment flags skip (b :: bs) (b :: bs) :=
      reaches_comment reliable pos none none'
    refine Reaches.step reliable pos (by decide) next ?_
    intro t bs' scans nextIn
    refine ⟨{ t with nextIn := bs', state := .comment }, ?_, ?_⟩
    · simp [dispatch, scans.state, scans.flags, named]
    · exact { scans with state := rfl, rest := scans.advance nextIn }
  | cons c name ih =>
    obtain ⟨other, nul⟩ := not_or.mp (mt List.mem_cons.mpr nul)
    refine Reaches.step reliable pos (by decide) (ih nul) ?_
    intro t bs' scans nextIn
    refine ⟨{ t with nextIn := bs', state := .origname }, ?_, ?_⟩
    · simp [dispatch, scans.state, scans.flags, named, Ne.symm other]
    · exact { scans with state := rfl, rest := scans.advance nextIn }

/-- A name or none, as the flag says. -/
theorem reaches_origname {name : Bytes} (nul : 0 ∉ name)
    (isFlags : flags = if name ≠ [] then 0x08 else 0) :
    Reaches ucfg .origname flags skip (name ++ ((if name ≠ [] then [0] else []) ++ b :: bs))
      (b :: bs) := by
  by_cases nil : name = []
  · simp only [nil, ne_eq, not_true, if_false] at isFlags ⊢
    subst isFlags
    exact reaches_nameless reliable pos rfl rfl rfl
  · simp only [ne_eq, nil, not_false_eq_true, if_true] at isFlags ⊢
    subst isFlags
    exact reaches_name reliable pos rfl rfl (by decide) nul

theorem reaches_extra (none : flags &&& extraFieldFlag = 0)
    (reaches : Reaches ucfg .origname flags skip (b :: bs) body) :
    Reaches ucfg .extra flags skip (b :: bs) body := by
  refine Reaches.step reliable pos (by decide) reaches ?_
  intro t bs' scans nextIn
  refine ⟨{ t with state := .origname }, ?_, ?_⟩
  · simp [dispatch, scans.state, scans.flags, none]
  · exact { scans with state := rfl }

/-- The time, the extra flags and the system are skipped. -/
theorem reaches_skipping (none : flags &&& extraFieldFlag = 0) {six : Bytes}
    (reaches : Reaches ucfg .origname flags 0 (b :: bs) body) :
    Reaches ucfg .skipping flags six.length (six ++ b :: bs) body := by
  induction six with
  | nil =>
    refine Reaches.step reliable pos (by decide) (reaches_extra reliable pos none reaches) ?_
    intro t bs' scans nextIn
    have over' : t.skipCount = 0 := scans.skipCount
    refine ⟨{ t with state := .extra }, ?_, ?_⟩
    · simp [dispatch, scans.state, over']
    · exact { scans with state := rfl }
  | cons c six ih =>
    refine Reaches.step reliable pos (by decide) ih ?_
    intro t bs' scans nextIn
    refine ⟨{ t with nextIn := bs', skipCount := t.skipCount - 1 }, ?_, ?_⟩
    · simp [dispatch, scans.state, scans.skipCount]
    · exact { scans with rest := scans.advance nextIn, skipCount := by simp [scans.skipCount] }

/-- The header that `gz_compress` writes is read to its end. -/
theorem reaches_header {name : Bytes} (nul : 0 ∉ name) (numflag : Nat) (mtime : UInt32) :
    Reaches ucfg .magic0 0 0
      (headerBytes numflag name mtime ++ ((if name ≠ [] then [0] else []) ++ b :: bs))
      (b :: bs) := by
  obtain ⟨flags, isFlags⟩ : ∃ flags : UInt8, flags = if name ≠ [] then 0x08 else 0 := ⟨_, rfl⟩
  obtain ⟨six, isSix⟩ : ∃ six : Bytes, six =
      le 4 mtime.toNat ++ [if numflag = 1 then 4 else if numflag = 9 then 2 else 0, osCode] :=
    ⟨_, rfl⟩
  have length : six.length = 6 := by simp [isSix]
  obtain ⟨c, cs, more⟩ : ∃ c cs, name ++ ((if name ≠ [] then [0] else []) ++ b :: bs) = c :: cs := by
    apply List.exists_cons_of_ne_nil
    simp
  have shape : headerBytes numflag name mtime ++ ((if name ≠ [] then [0] else []) ++ b :: bs) =
      gzipMagic0 :: gzipMagic1 :: zDeflated :: flags :: (six ++ c :: cs) := by
    rw [← more, isFlags, isSix]
    simp [headerBytes, gzipMagic0, gzipMagic1, zDeflated]
  have extraless : flags &&& extraFieldFlag = 0 := by
    rw [isFlags]
    split <;> rfl
  have named : Reaches ucfg .origname flags 0 (c :: cs) (b :: bs) := by
    rw [← more]
    exact reaches_origname reliable pos nul isFlags
  have skipping : Reaches ucfg .skipping flags 6 (six ++ c :: cs) (b :: bs) := by
    rw [← length]
    exact reaches_skipping reliable pos extraless named
  rw [shape]
  -- The four bytes before are compared, or kept.
  have atFlags : Reaches ucfg .flags 0 0 (flags :: (six ++ c :: cs)) (b :: bs) := by
    refine Reaches.step reliable pos (by decide) skipping ?_
    intro t bs' scans nextIn
    refine ⟨{ t with nextIn := bs', flags := flags, skipCount := 6, state := .skipping }, ?_, ?_⟩
    · simp [dispatch, scans.state]
    · exact { scans with
        state := rfl, flags := rfl, skipCount := rfl, rest := scans.advance nextIn }
  have atMethod : Reaches ucfg .method 0 0 (zDeflated :: flags :: (six ++ c :: cs)) (b :: bs) := by
    refine Reaches.step reliable pos (by decide) atFlags ?_
    intro t bs' scans nextIn
    refine ⟨{ t with nextIn := bs', state := .flags }, ?_, ?_⟩
    · simp [dispatch, scans.state]
    · exact { scans with state := rfl, rest := scans.advance nextIn }
  have atMagic1 : Reaches ucfg .magic1 0 0
      (gzipMagic1 :: zDeflated :: flags :: (six ++ c :: cs)) (b :: bs) := by
    refine Reaches.step reliable pos (by decide) atMethod ?_
    intro t bs' scans nextIn
    refine ⟨{ t with nextIn := bs', state := .method }, ?_, ?_⟩
    · simp [dispatch, scans.state]
    · exact { scans with state := rfl, rest := scans.advance nextIn }
  refine Reaches.step reliable pos (by decide) atMagic1 ?_
  intro t bs' scans nextIn
  refine ⟨{ t with nextIn := bs', state := .magic1, outSubTot := 0, crc := crc32Null }, ?_, ?_⟩
  · simp [dispatch, scans.state]
  · exact { scans with state := rfl, rest := scans.advance nextIn }

theorem reachesInit_header {name : Bytes} (nul : 0 ∉ name) (numflag : Nat) (mtime : UInt32)
    {body : Bytes} (some : body ≠ []) :
    ReachesInit ucfg
      (headerBytes numflag name mtime ++ ((if name ≠ [] then [0] else []) ++ body)) body := by
  obtain ⟨b, bs, rfl⟩ := List.exists_cons_of_ne_nil some
  intro pre w short whole
  apply reaches_header reliable pos nul numflag mtime
  have all : pre.take (pre.length % 2 ^ 32) = pre := by
    rw [Nat.mod_eq_of_lt short, List.take_length]
  constructor
  · rfl
  · rfl
  · rfl
  · rw [← whole]
    exact congrArg (· ++ w.input) all
  · rfl
  · nofun

end

/-! ## The claim of success -/

/-- `output` is a gzip file for `x` behind `out0`: the header with the name and the time, a
deflate stream at whose first byte the automaton comes to `GZSTATE_INIT`, and the trailer. -/
def GzipFile (F : Format) (numflag : Nat) (name : Bytes) (mtime : UInt32)
    (out0 x output : Bytes) : Prop :=
  ∃ header z, header = headerBytes numflag name mtime ++ (if name ≠ [] then [0] else []) ∧
    F.Ends z ∧ F.payload z = x ∧ output = out0 ++ (header ++ (z ++ trailer x)) ∧
    ∀ (τ : Type) (ucfg : UConfig τ), ucfg.env.Reliable ucfg.buflen → 0 < ucfg.buflen.size →
      ReachesInit ucfg (header ++ (z ++ trailer x)) (z ++ trailer x)

/-- A value other than -1 comes with a gzip file. -/
def SuccessIsGzip (F : Format) (cfg : CConfig σ) (origname : Bytes) (mtime : UInt32) (w : World)
    (fuel : Nat) : Prop :=
  ∀ r w', gzCompress cfg origname mtime w fuel = some (.returns r w') → r.inTot ≠ -1 →
    GzipFile F cfg.numflag (cfg.name origname) (cfg.time mtime) w.output w.input w'.output

/-- An exit that sets `in_tot`, or the last one with room for a header. -/
def Site.Honest (size : Nat) (site : Site) : Prop :=
  site.setsInTot = true ∨ site = .done ∧ 10 ≤ size

/-! ## The output where a write fails -/

/-- The output is a beginning of the header and a part of a stream. -/
def Partial (F : Format) (out0 start : Bytes) (s : CState σ) : Prop :=
  ∃ z w, F.Ends w ∧ z <+: w ∧ s.world.output <+: out0 ++ (start ++ z)

section

variable {D : Deflates F cfg.engine} {out0 start x x' z : Bytes} {last : ZFlush}
  {s t : CState σ} {site : Site}

/-- A write of what the buffer holds, whatever it stores. -/
theorem CInv.write_partial (inv : CInv D out0 start x last x' z s) {count : Option Nat}
    {w : World} (answer : s.world.write cfg.env s.outbuf = (count, w))
    (same : t.world.output = w.output) : Partial F out0 start t := by
  obtain ⟨-, -, output⟩ := World.write_spec answer
  obtain ⟨v, ends, less⟩ := D.begins inv.fed
  refine ⟨z, v, ends, less, ?_⟩
  rw [same, output, ← inv.written]
  exact (List.prefix_append_right_inj _).mpr (List.take_prefix _ _)

/-- The exits at a failed write of the stream. -/
def Site.OfWrite (site : Site) : Prop := site = .write ∨ site = .finishWrite

theorem feed_leaves (left : feed cfg s = .leave (.error (site, t))) : ¬ site.OfWrite := by
  unfold feed at left
  simp only at left
  split at left
  · cases left
    nofun
  · cases left

theorem feedRound_partial (feeding : Feeding D out0 start x s)
    (left : feedRound cfg s = .leave (.error (site, t))) (ofWrite : site.OfWrite) :
    Partial F out0 start t := by
  obtain ⟨x', z, inv⟩ := feeding
  unfold feedRound at left
  by_cases full : s.outbuf.length = cfg.buflen.size
  · rcases answer : s.world.write cfg.env s.outbuf with ⟨count, w⟩
    by_cases wrote : count = some cfg.buflen.size
    · have flush : flushFull cfg s = .ok { s with
          world := w, outTot := s.outTot + cfg.buflen.size, outbuf := [] } := by
        rw [flushFull, if_pos full, answer]
        exact if_neg (not_not_intro wrote)
      rw [flush] at left
      simp only at left
      split at left
      · split at left
        · cases left
          exact absurd ofWrite nofun
        · split at left
          · cases left
          · exact absurd ofWrite (feed_leaves left)
      · exact absurd ofWrite (feed_leaves left)
    · have flush : flushFull cfg s = .error (.write, ({ s with world := w } : CState σ).failOut
          "write") := by
        rw [flushFull, if_pos full, answer]
        exact if_pos wrote
      rw [flush] at left
      cases left
      exact inv.write_partial answer rfl
  · have flush : flushFull cfg s = .ok s := if_neg full
    rw [flush] at left
    simp only at left
    split at left
    · split at left
      · cases left
        exact absurd ofWrite nofun
      · split at left
        · cases left
        · exact absurd ofWrite (feed_leaves left)
    · exact absurd ofWrite (feed_leaves left)

theorem finishRound_partial (closing : Closing D out0 start x s)
    (left : finishRound cfg s = .leave (.error (site, t))) (ofWrite : site.OfWrite) :
    Partial F out0 start t := by
  obtain ⟨nil, ended, -, last, z, inv⟩ := closing
  unfold finishRound at left
  rw [nil] at left
  have closes := @D.closes _ _ _ _ (cfg.buflen.size - s.outbuf.length) inv.fed
  have ends := @D.ends _ _ _ _ (cfg.buflen.size - s.outbuf.length) inv.fed
  generalize cfg.engine.deflate s.strm .finish [] (cfg.buflen.size - s.outbuf.length) = step at *
  simp only at left
  split at left
  · cases left
    exact absurd ofWrite nofun
  next good =>
    rcases answer : s.world.write cfg.env (s.outbuf ++ step.out) with ⟨count, w⟩
    obtain ⟨-, -, output⟩ := World.write_spec answer
    rw [answer] at left
    simp only at left
    split at left
    · cases left
      -- The stream with the output of this call begins a complete stream, or is one.
      obtain ⟨v, complete, less⟩ : ∃ v, F.Ends v ∧ z ++ step.out <+: v := by
        by_cases ended' : step.code = .streamEnd
        · exact ⟨_, (ends ended').1, List.prefix_refl _⟩
        · have ok : step.code = .ok := by
            apply Classical.byContradiction
            intro bad
            exact good ⟨bad, ended'⟩
          exact D.begins (closes ok)
      refine ⟨_, v, complete, less, ?_⟩
      have all : out0 ++ (start ++ (z ++ step.out)) =
          s.world.output ++ (s.outbuf ++ step.out) := by
        rw [← List.append_assoc s.world.output, inv.written]
        simp
      rw [all]
      simp only [CState.failOut, World.maybeWarn, output]
      exact (List.prefix_append_right_inj _).mpr (List.take_prefix _ _)
    · split at left
      · cases left
      · cases left

/-- What a round leaves where a write fails, over a whole loop. -/
theorem loop_partial {round : CState σ → CRound σ} {again : CState σ → Prop}
    (keeps : ∀ s s', again s → round s = .again s' → again s')
    (leaves : ∀ s, again s → ∀ site t, round s = .leave (.error (site, t)) → site.OfWrite →
      Partial F out0 start t)
    (begun : again s) {fuel : Nat} (ran : run round fuel s = some (.error (site, t)))
    (ofWrite : site.OfWrite) : Partial F out0 start t := by
  have all := Leaves.invariant again
    (fun left => ∀ site t, left = .error (site, t) → site.OfWrite → Partial F out0 start t)
    keeps (fun s left holds turn site t same => leaves s holds site t (same ▸ turn))
    ⟨fuel, ran⟩ begun
  exact all site t rfl ofWrite

theorem deflateFile_partial (D : Deflates F cfg.engine) (pos : 0 < cfg.buflen.size)
    (fits : start.length ≤ cfg.buflen.size) {w : World} {fuel : Nat}
    (ran : deflateFile cfg start w fuel = some (.out site s)) (ofWrite : site.OfWrite) :
    Partial F w.output start s := by
  unfold deflateFile at ran
  rcases init : cfg.engine.deflateInit2 cfg.engine.zero cfg.numflag with ⟨error, strm⟩
  simp only [init] at ran
  split at ran
  · cases ran
    exact absurd ofWrite nofun
  next ok =>
    rw [Classical.not_not] at ok
    subst ok
    have begun : Feeding D w.output start w.input
        ⟨strm, [], start, crc32Null, 0, 0, w⟩ := by
      have fed := @D.init cfg.engine.zero cfg.numflag (by rw [init])
      rw [init] at fed
      exact ⟨[], [], ⟨fed, rfl, (crc32_nil _).symm, rfl, by simp, by simp, fits⟩⟩
    -- Both loops keep their condition, so the round that failed began with it.
    have feeds : ∀ s s', Feeding D w.output start w.input s → feedRound cfg s = .again s' →
        Feeding D w.output start w.input s' := by
      intro s s' feeding turn
      have spec := feedRound_spec feeding pos
      rwa [turn] at spec
    have closes : ∀ s s', Closing D w.output start w.input s → finishRound cfg s = .again s' →
        Closing D w.output start w.input s' := by
      intro s s' closing turn
      have spec := finishRound_spec closing pos
      rwa [turn] at spec
    obtain ⟨left, fed, ran⟩ := Option.bind_eq_some_iff.mp ran
    have feeding := loop_spec (fun s => (feedRound_spec · pos)) begun fed
    rcases left with ⟨site', s'⟩ | s'
    · cases ran
      exact loop_partial feeds (fun s holds site t => feedRound_partial holds) begun fed ofWrite
    · obtain ⟨left, finished, ran⟩ := Option.bind_eq_some_iff.mp ran
      rcases left with ⟨site', s''⟩ | s''
      · cases ran
        exact loop_partial closes (fun s holds site t => finishRound_partial holds) feeding
          finished ofWrite
      · rcases ends : cfg.engine.deflateEnd s''.strm with ⟨error, strm⟩
        simp only [ends] at ran
        split at ran
        · cases ran
          exact absurd ofWrite nofun
        · -- Behind the loops only the trailer is written, and its failure is another site.
          have out := Option.some.inj ran
          unfold writeTrailer at out
          split at out
          · cases out
          · simp only at out
            split at out
            · cases out
              exact absurd ofWrite nofun
            · cases out
              exact absurd ofWrite nofun

end

/-! ## When success is honest -/

section

variable {out0 start x : Bytes} {s : CState σ} {site : Site} {name : Bytes} {mtime : UInt32}

/-- A gzip file is a member behind what was there. -/
theorem GzipFile.member {numflag : Nat} {output : Bytes} (nul : 0 ∉ name)
    (file : GzipFile F numflag name mtime out0 x output) :
    ∃ m, output = out0 ++ m ∧ Member F m x := by
  obtain ⟨header, z, rfl, ends, payload, output, -⟩ := file
  exact ⟨_, output, _, z, headerBytes_isHeader nul, ends, payload.symm, rfl⟩

/-- With a large buffer the last exit leaves a gzip file. -/
theorem done_gzipFile (nul : 0 ∉ name) (large : 10 ≤ cfg.buflen.size)
    (begins : outbufStart cfg name mtime = some start)
    (sited : Sited F out0 start x .done s) :
    GzipFile F cfg.numflag name mtime out0 x s.world.output := by
  obtain ⟨-, -, -, z, ends, payload, output⟩ := sited
  unfold outbufStart at begins
  rw [if_pos large] at begins
  split at begins
  · cases begins
  · have header := (Option.some.inj begins).symm
    refine ⟨start, z, header, ends, payload, output, ?_⟩
    intro τ ucfg reliable pos
    have some : z ++ trailer x ≠ [] := by simp [trailer, le]
    rw [header, List.append_assoc]
    exact reachesInit_header reliable pos nul cfg.numflag mtime some

/-- Where the value is not -1 and the exit is not honest, there is no gzip file. -/
theorem not_gzipFile (reserved : Reserved F) (nul : 0 ∉ name)
    (header : 10 ≤ cfg.buflen.size → IsHeader start)
    (small : cfg.buflen.size < 10 → start = [] ∨ start = [0])
    (sited : Sited F out0 start x site s)
    (part : site.OfWrite → Partial F out0 start s)
    (sets : site.setsInTot = false) (lost : ¬ site.Honest cfg.buflen.size) :
    ¬ GzipFile F cfg.numflag name mtime out0 x s.world.output := by
  intro file
  obtain ⟨m, output, member⟩ := file.member nul
  have wrote : site.OfWrite → False := by
    intro ofWrite
    obtain ⟨z, w, ends, less, begins⟩ := part ofWrite
    have starts : Starts start := by
      by_cases large : 10 ≤ cfg.buflen.size
      · exact .inl (header large)
      · exact .inr (small (by omega))
    rw [output] at begins
    exact not_member_part reserved starts ends less
      ((List.prefix_append_right_inj _).mp begins) member
  cases site with
  | write => exact wrote (.inl rfl)
  | finishWrite => exact wrote (.inr rfl)
  | done =>
    obtain ⟨-, -, -, z, ends, -, output'⟩ := sited
    have size : cfg.buflen.size < 10 := by
      apply Nat.lt_of_not_le
      intro large
      exact lost (.inr ⟨rfl, large⟩)
    rw [output] at output'
    rw [List.append_cancel_left output'] at member
    exact not_member_headless reserved (small size) ends member
  | deflateInit2 | read | deflate | finish | deflateEnd | trailerWrite => cases sets

/-- `gz_compress` reports success on gzip files only, whatever fresh memory holds, if and only
if it exits, or leaves by an exit that sets `in_tot`, or by the last one with `BUFLEN` at
least 10. -/
theorem successIsGzip_iff (D : Deflates F cfg.engine) (reserved : Reserved F) {origname : Bytes}
    (nul : 0 ∉ origname) (mtime : UInt32) (w : World) (fuel : Nat) :
    (∀ junk, SuccessIsGzip F (cfg.withJunk junk) origname mtime w fuel) ↔
      ∀ site s, compressEnd cfg origname mtime w fuel = some (.out site s) →
        site.Honest cfg.buflen.size := by
  have nul' : 0 ∉ cfg.name origname := by
    unfold CConfig.name
    split
    · exact List.not_mem_nil
    · exact nul
  constructor
  · intro honest site s ended
    apply Classical.byContradiction
    intro lost
    -- With a zero in the fresh buffer, what is left is no gzip file.
    obtain ⟨s', ended'⟩ := compressEnd_site cfg cfg.env.junk ended 0
    have returned := compressEnd_returned ended'
    obtain ⟨-, start, begins, ran⟩ := compressEnd_out.mp ended'
    obtain ⟨pos, fits, header, small⟩ := outbufStart_spec nul' begins
    have D' : Deflates F (cfg.withJunk 0).engine := D
    have sited := deflateFile_sited D' pos fits ran
    have part := deflateFile_partial D' pos fits ran
    have sets : site.setsInTot = false := by
      cases sets : site.setsInTot with
      | false => rfl
      | true => exact absurd (.inl sets) lost
    have value : s'.inTot ≠ -1 := by
      obtain ⟨positive, -⟩ : Counts w.input.length s' := by simpa [Returned, sets] using returned
      omega
    have file := honest 0 ⟨s'.inTot, s'.outTot⟩ s'.world (by rw [gzCompress, ended']; rfl) value
    exact not_gzipFile reserved nul' header small sited part sets lost file
  · intro honest junk r w' ran value
    obtain ⟨left, ended, same⟩ := Option.map_eq_some_iff.mp ran
    cases left with
    | exits => cases same
    | out site s =>
      cases same
      obtain ⟨t, ended'⟩ := compressEnd_site cfg junk ended cfg.env.junk
      have returned := compressEnd_returned ended
      obtain ⟨-, start, begins, ran⟩ := compressEnd_out.mp ended
      obtain ⟨pos, fits, -, -⟩ := outbufStart_spec nul' begins
      have D' : Deflates F (cfg.withJunk junk).engine := D
      have sited := deflateFile_sited D' pos fits ran
      rcases honest site t ended' with sets | ⟨rfl, large⟩
      · have minus : s.inTot = -1 := by simpa [Returned, sets] using returned
        exact absurd minus value
      · have large' : 10 ≤ (cfg.withJunk junk).buflen.size := large
        exact done_gzipFile nul' large' begins sited

end

/-- A buffer of 64 bytes. -/
theorem successIsGzip_iff_steady :
    (∀ junk, SuccessIsGzip storedFormat
      (CConfig.withJunk ⟨storedDeflate, .steady 64, ⟨64, by decide⟩, 6, false⟩ junk) [0x61] 7
      ⟨[1, 2, 3], [], 0, 0, 0, []⟩ 5) ↔
    ∀ site s, compressEnd ⟨storedDeflate, .steady 64, ⟨64, by decide⟩, 6, false⟩ [0x61] 7
        ⟨[1, 2, 3], [], 0, 0, 0, []⟩ 5 = some (.out site s) →
      Site.Honest 64 site :=
  successIsGzip_iff storedDeflates.toDeflates storedFormat_reserved (by decide) 7
    ⟨[1, 2, 3], [], 0, 0, 0, []⟩ 5

/-- A buffer of 8 bytes: the trailer fits, the header does not, and `gz_compress` returns the
3 bytes that it read. -/
theorem eight_headless : ∃ fuel, ¬ SuccessIsGzip storedFormat
    ⟨storedDeflate, .steady 64, ⟨8, by decide⟩, 6, false⟩ [] 0 ⟨[1, 2, 3], [], 0, 0, 0, []⟩
      fuel := by
  obtain ⟨cfg, isCfg⟩ : ∃ cfg : CConfig StoredOut,
    cfg = ⟨storedDeflate, .steady 64, ⟨8, by decide⟩, 6, false⟩ := ⟨_, rfl⟩
  rw [← isCfg]
  have D : DeflatesAll storedFormat cfg.engine := isCfg ▸ storedDeflates
  have reliable : cfg.env.Reliable cfg.buflen := isCfg ▸ Env.steady_reliable 64 _
  have level : IsLevel cfg.numflag := isCfg ▸ ⟨by decide, by decide⟩
  have size : cfg.buflen.size = 8 := by rw [isCfg]
  have begins : outbufStart cfg (cfg.name []) (cfg.time 0) = some [] := by
    rw [isCfg]
    rfl
  have fits : ([] : Bytes).length ≤ cfg.buflen.size := Nat.zero_le _
  obtain ⟨fuel, s, ran⟩ := deflateFile_done D level reliable (by omega) fits
    ⟨[1, 2, 3], [], 0, 0, 0, []⟩
  have ended := compressEnd_out.mpr ⟨reliable.mallocs, [], begins, ran⟩
  have sited := deflateFile_sited D.toDeflates (by omega) fits ran
  have counted : s.inTot = 3 := sited.2.1
  refine ⟨fuel, ?_⟩
  intro honest
  have value : s.inTot ≠ -1 := by omega
  have file := honest ⟨s.inTot, s.outTot⟩ s.world (by rw [gzCompress, ended]; rfl) value
  have nameless : cfg.name [] = [] := by rw [isCfg]; rfl
  rw [nameless] at file
  apply not_gzipFile storedFormat_reserved (by decide) (by omega) (fun _ => .inl rfl) sited
    (by nofun) rfl _ file
  rintro (sets | ⟨-, large⟩)
  · cases sets
  · omega

end CheriGzip.Gzip
