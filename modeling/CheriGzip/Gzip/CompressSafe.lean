import CheriGzip.Gzip.CompressCorrect
import CheriGzip.Gzip.File
import CheriGzip.Gzip.Stored

/-!
# What file_compress deletes

`file_compress` deletes its input when the output file has the size that `gz_compress`
reports. The exits of `gz_compress` that report a failure through `in_tot` leave that size
right, so the input goes although the output is not complete.
-/
namespace CheriGzip.Gzip

open Loop

variable {σ : Type} {F : Format} {cfg : CConfig σ}

/-! ## The contents of the buffer do not matter -/

/-- The state with other bytes in the output buffer and in the output. -/
def CState.swap (s : CState σ) (outbuf output : Bytes) : CState σ :=
  { s with outbuf := outbuf, world := { s.world with output := output } }

/-- States that differ in the output bytes only. -/
def Twin (s t : CState σ) : Prop :=
  ∃ outbuf output, outbuf.length = s.outbuf.length ∧ t = s.swap outbuf output

/-- Exits at the same site with twin states. -/
inductive TwinLeft : CLeft σ → CLeft σ → Prop where
  | ok {s t : CState σ} (twin : Twin s t) : TwinLeft (.ok s) (.ok t)
  | error (site : Site) {s t : CState σ} (twin : Twin s t) :
      TwinLeft (.error (site, s)) (.error (site, t))

/-- Twins end at the same site. -/
inductive TwinEnd : CEnd σ → CEnd σ → Prop where
  | out (site : Site) {s t : CState σ} (twin : Twin s t) : TwinEnd (.out site s) (.out site t)
  | exits (status : Nat) (w w' : World) : TwinEnd (.exits status w) (.exits status w')

theorem write_swap {w w' : World} {env : Env} {bytes bytes' : Bytes} {count : Option Nat}
    (answer : w.write env bytes = (count, w')) (output : Bytes)
    (length : bytes'.length = bytes.length) :
    ∃ output', ({ w with output := output } : World).write env bytes' =
      (count, { w' with output := output' }) := by
  unfold World.write at answer ⊢
  cases writes : env.writes w.writes with
  | fails =>
    simp only [writes, Prod.mk.injEq] at answer ⊢
    obtain ⟨rfl, rfl⟩ := answer
    exact ⟨output, rfl, rfl⟩
  | stores n =>
    simp only [writes, Prod.mk.injEq, length] at answer ⊢
    obtain ⟨rfl, rfl⟩ := answer
    exact ⟨_, rfl, rfl⟩

theorem read_swap (w : World) (env : Env) (len : Nat) (output : Bytes) :
    ({ w with output := output } : World).read env len =
      ((w.read env len).1, { (w.read env len).2 with output := output }) := by
  unfold World.read
  cases env.reads w.reads <;> rfl

theorem flushFull_twin {s t : CState σ} (twin : Twin s t) :
    TwinLeft (flushFull cfg s) (flushFull cfg t) := by
  obtain ⟨outbuf, output, length, rfl⟩ := twin
  unfold flushFull
  simp only [CState.swap, length]
  split
  · rcases answer : s.world.write cfg.env s.outbuf with ⟨count, w⟩
    obtain ⟨output', wrote⟩ := write_swap answer output length
    simp only [wrote]
    split
    · exact .error _ ⟨outbuf, output', length, rfl⟩
    · exact .ok ⟨[], output', rfl, rfl⟩
  · exact .ok ⟨outbuf, output, length, rfl⟩

theorem feed_twin {s t : CState σ} (twin : Twin s t) :
    Turn.Rel Twin TwinLeft (feed cfg s) (feed cfg t) := by
  obtain ⟨outbuf, output, length, rfl⟩ := twin
  unfold feed
  simp only [CState.swap, length]
  have longer : (outbuf ++ (cfg.engine.deflate s.strm .noFlush s.nextIn
      (cfg.buflen.size - s.outbuf.length)).out).length = (s.outbuf ++ (cfg.engine.deflate s.strm
      .noFlush s.nextIn (cfg.buflen.size - s.outbuf.length)).out).length := by
    rw [List.length_append, List.length_append, length]
  split
  · exact .leave (.error _ ⟨_, output, longer, rfl⟩)
  · exact .again ⟨_, output, longer, rfl⟩

theorem feedRound_twin {s t : CState σ} (twin : Twin s t) :
    Turn.Rel Twin TwinLeft (feedRound cfg s) (feedRound cfg t) := by
  have flushed : TwinLeft (flushFull cfg s) (flushFull cfg t) := flushFull_twin twin
  unfold feedRound
  cases flush : flushFull cfg s with
  | error left =>
    rw [flush] at flushed
    cases flush' : flushFull cfg t with
    | error left' =>
      rw [flush'] at flushed
      exact .leave flushed
    | ok =>
      rw [flush'] at flushed
      cases flushed
  | ok s =>
    rw [flush] at flushed
    cases flush' : flushFull cfg t with
    | error left' =>
      rw [flush'] at flushed
      cases flushed
    | ok t =>
      rw [flush'] at flushed
      cases flushed with
      | ok twin =>
        have twin' := twin
        obtain ⟨outbuf, output, length, rfl⟩ := twin
        simp only [CState.swap, read_swap]
        split
        · rcases s.world.read cfg.env cfg.buflen.size with ⟨_ | bytes, w⟩
          · exact .leave (.error _ ⟨outbuf, output, length, rfl⟩)
          · simp only
            split
            · exact .leave (.ok ⟨outbuf, output, length, rfl⟩)
            · exact feed_twin ⟨outbuf, output, length, rfl⟩
        · exact feed_twin twin'

theorem finishRound_twin {s t : CState σ} (twin : Twin s t) :
    Turn.Rel Twin TwinLeft (finishRound cfg s) (finishRound cfg t) := by
  obtain ⟨outbuf, output, length, rfl⟩ := twin
  unfold finishRound
  simp only [CState.swap, length]
  generalize cfg.engine.deflate s.strm .finish s.nextIn (cfg.buflen.size - s.outbuf.length) = step
  have longer : (outbuf ++ step.out).length = (s.outbuf ++ step.out).length := by
    rw [List.length_append, List.length_append, length]
  split
  · exact .leave (.error _ ⟨_, output, longer, rfl⟩)
  · rcases answer : s.world.write cfg.env (s.outbuf ++ step.out) with ⟨count, w⟩
    obtain ⟨output', wrote⟩ := write_swap answer output longer
    simp only [wrote, longer]
    split
    · exact .leave (.error _ ⟨_, output', longer, rfl⟩)
    · split
      · exact .leave (.ok ⟨[], output', rfl, rfl⟩)
      · exact .again ⟨[], output', rfl, rfl⟩

theorem writeTrailer_twin {s t : CState σ} (twin : Twin s t) :
    TwinEnd (writeTrailer cfg s) (writeTrailer cfg t) := by
  obtain ⟨outbuf, output, length, rfl⟩ := twin
  unfold writeTrailer
  simp only [CState.swap]
  split
  · exact .exits _ _ _
  · rcases answer : s.world.write cfg.env
      (le 4 s.crc.toNat ++ le 4 (s.inTot % 2 ^ 32).toNat) with ⟨count, w⟩
    obtain ⟨output', wrote⟩ := write_swap answer output rfl
    simp only [answer, wrote]
    split
    · exact .out _ ⟨outbuf, output', length, rfl⟩
    · exact .out _ ⟨outbuf, output', length, rfl⟩

theorem deflateFile_twin {start start' : Bytes} (length : start'.length = start.length)
    (w : World) {fuel : Nat} {left : CEnd σ} (ran : deflateFile cfg start w fuel = some left) :
    ∃ left', deflateFile cfg start' w fuel = some left' ∧ TwinEnd left left' := by
  unfold deflateFile at ran ⊢
  rcases init : cfg.engine.deflateInit2 cfg.engine.zero cfg.numflag with ⟨error, strm⟩
  simp only [init] at ran ⊢
  split at ran
  next failed =>
    rw [if_pos failed]
    cases ran
    exact ⟨_, rfl, .out _ ⟨start', w.output, length, rfl⟩⟩
  next good =>
    rw [if_neg good]
    obtain ⟨left₁, feeds, ran⟩ := Option.bind_eq_some_iff.mp ran
    have twin : Twin (σ := σ) ⟨strm, [], start, crc32Null, 0, 0, w⟩
        ⟨strm, [], start', crc32Null, 0, 0, w⟩ := ⟨start', w.output, length, rfl⟩
    obtain ⟨left₁', feeds', twins₁⟩ := run_rel (fun s t => feedRound_twin) twin feeds
    simp only [feeds', Option.bind_eq_bind, Option.bind_some]
    cases twins₁ with
    | error site twin =>
      cases ran
      exact ⟨_, rfl, .out _ twin⟩
    | ok twin =>
      obtain ⟨left₂, finishes, ran⟩ := Option.bind_eq_some_iff.mp ran
      obtain ⟨left₂', finishes', twins₂⟩ := run_rel (fun s t => finishRound_twin) twin finishes
      simp only [finishes', Option.bind_some]
      cases twins₂ with
      | error site twin =>
        cases ran
        exact ⟨_, rfl, .out _ twin⟩
      | @ok s t twin =>
        obtain ⟨outbuf, output, length, rfl⟩ := twin
        rcases ends : cfg.engine.deflateEnd s.strm with ⟨error, strm⟩
        simp only [CState.swap, ends] at ran ⊢
        split at ran
        next failed =>
          rw [if_pos failed]
          cases ran
          exact ⟨_, rfl, .out _ ⟨outbuf, output, length, rfl⟩⟩
        next good =>
          rw [if_neg good]
          cases ran
          exact ⟨_, rfl, writeTrailer_twin ⟨outbuf, output, length, rfl⟩⟩

/-! ## Fresh memory -/

/-- The same call on a system whose `malloc` leaves another byte in the buffer. -/
def CConfig.withJunk (cfg : CConfig σ) (junk : UInt8) : CConfig σ :=
  { cfg with env := { cfg.env with junk := junk } }

theorem outbufStart_withJunk (origname : Bytes) (mtime : UInt32) (junk : UInt8) :
    outbufStart (cfg.withJunk junk) origname mtime =
      if 10 ≤ cfg.buflen.size then outbufStart cfg origname mtime
      else if cfg.buflen.size = 0 then none
      else some (if origname ≠ [] then [junk] else []) := by
  by_cases large : 10 ≤ cfg.buflen.size
  · rw [if_pos large, outbufStart, outbufStart, if_pos large]
    exact if_pos large
  · rw [if_neg large]
    exact if_neg large

theorem outbufStart_junk {origname start : Bytes} {mtime : UInt32} {junk : UInt8}
    (begins : outbufStart (cfg.withJunk junk) origname mtime = some start) (junk' : UInt8) :
    ∃ start', outbufStart (cfg.withJunk junk') origname mtime = some start' ∧
      start'.length = start.length := by
  rw [outbufStart_withJunk] at begins ⊢
  by_cases large : 10 ≤ cfg.buflen.size
  · refine ⟨start, ?_, rfl⟩
    rw [if_pos large] at begins
    rwa [if_pos large]
  · rw [if_neg large] at begins
    rw [if_neg large]
    split at begins
    · cases begins
    next some =>
      rw [if_neg some]
      cases begins
      refine ⟨_, rfl, ?_⟩
      split <;> rfl

/-- What fresh memory holds does not decide where `gz_compress` ends. -/
theorem compressEnd_site (cfg : CConfig σ) {origname : Bytes} {mtime : UInt32} {w : World}
    {fuel : Nat} (junk : UInt8) {site : Site} {s : CState σ}
    (ran : compressEnd (cfg.withJunk junk) origname mtime w fuel = some (.out site s))
    (junk' : UInt8) :
    ∃ s', compressEnd (cfg.withJunk junk') origname mtime w fuel = some (.out site s') := by
  obtain ⟨mallocs, start, begins, ran⟩ := compressEnd_out.mp ran
  obtain ⟨start', begins', length⟩ := outbufStart_junk begins junk'
  obtain ⟨left', ran', twins⟩ := deflateFile_twin length w ran
  cases twins with
  | @out _ _ t _ => exact ⟨t, compressEnd_out.mpr ⟨mallocs, start', begins', ran'⟩⟩

/-! ## What the exits mean for the input -/

/-- Complete streams do not begin with the reserved block type. -/
def Reserved (F : Format) : Prop := ∀ z, F.Ends z → ∃ b rest, z = b :: rest ∧ b &&& 6 ≠ 6

/-- The exits at which the byte count is wrong, or the output complete. -/
def Site.Keeps (size : Nat) : Site → Prop
  | .write | .finishWrite => True
  | .trailerWrite stored => 0 < stored
  | .done => 10 ≤ size
  | _ => False

/-- What the buffer starts with: a header, or what there is instead in a small buffer. -/
def Starts (start : Bytes) : Prop := IsHeader start ∨ start = [] ∨ start = [0]

theorem member_head {m v : Bytes} (member : Member F m v) : m.head? = some gzipMagic0 := by
  simpa using member.head []

/-- A part of a stream behind a header is no member: the trailer is missing. -/
theorem not_member_part (reserved : Reserved F) {start z w output x : Bytes}
    (starts : Starts start) (ends : F.Ends w) (less : z <+: w)
    (part : output <+: start ++ z) : ¬ Member F output x := by
  intro member
  have head := member_head member
  obtain ⟨rest, whole⟩ := part
  obtain ⟨b, w', rfl, free⟩ := reserved w ends
  have first : (start ++ z).head? = some gzipMagic0 := by
    rw [← whole, List.head?_append, head]
    rfl
  rcases starts with header | rfl | rfl
  · obtain ⟨header', z', isHeader, ends', -, rfl⟩ := member
    have left : scanHeader (start ++ z) = some z := scanHeader_some.mpr ⟨start, header, rfl⟩
    have right : scanHeader (start ++ z) = some (z' ++ (trailer x ++ rest)) := by
      rw [← whole]
      exact scanHeader_some.mpr ⟨header', isHeader, by simp⟩
    have same : z = z' ++ (trailer x ++ rest) := Option.some.inj (left.symm.trans right)
    have begins : z' <+: b :: w' := by
      apply List.IsPrefix.trans _ less
      exact ⟨_, same.symm⟩
    have whole := F.ends_unique ends' ends begins
    have lengths := less.length_le
    rw [← whole, same] at lengths
    simp only [List.length_append, trailer, le_length] at lengths
    omega
  · rw [List.nil_append] at first
    cases z with
    | nil => cases first
    | cons c z =>
      obtain ⟨rfl, -⟩ := List.cons_prefix_cons.mp less
      cases first
      exact free rfl
  · cases first

/-- Without a header there is no member. -/
theorem not_member_headless (reserved : Reserved F) {start z t x : Bytes}
    (starts : start = [] ∨ start = [0]) (ends : F.Ends z) :
    ¬ Member F (start ++ (z ++ t)) x := by
  intro member
  have head := member_head member
  obtain ⟨b, z', rfl, free⟩ := reserved z ends
  rcases starts with rfl | rfl
  · cases head
    exact free rfl
  · cases head

/-- At the exits that keep the input, an output of the right size is complete. -/
theorem sited_complete {size : Nat} {start x : Bytes} {site : Site} {s : CState σ}
    (header : 10 ≤ size → IsHeader start) (sited : Sited F [] start x site s)
    (safe : site.Keeps size) (same : (s.world.output.length : Int) = s.outTot) :
    Member F s.world.output x ∧ s.world.input = [] := by
  cases site with
  | write | finishWrite =>
    -- The count is -1.
    simp only [Sited] at sited
    omega
  | deflateInit2 | read | deflate | finish | deflateEnd => exact safe.elim
  | trailerWrite stored =>
    -- The count leaves out the part of the trailer that was stored.
    obtain ⟨-, outTot, -⟩ := sited
    simp only [List.length_nil] at outTot
    simp only [Site.Keeps] at safe
    omega
  | done =>
    obtain ⟨-, -, ended, z, ends, payload, output⟩ := sited
    refine ⟨?_, ended⟩
    rw [output]
    exact ⟨start, z, header safe, ends, payload.symm, rfl⟩

/-- At the other exits an output that is no member has the size that is reported. -/
theorem sited_broken (reserved : Reserved F) {size : Nat} {start x : Bytes} {site : Site}
    {s : CState σ} (header : 10 ≤ size → IsHeader start)
    (small : size < 10 → start = [] ∨ start = [0])
    (sited : Sited F [] start x site s) (lost : ¬ site.Keeps size) :
    (s.world.output.length : Int) = s.outTot ∧ ¬ Member F s.world.output x := by
  have starts : Starts start := by
    by_cases large : 10 ≤ size
    · exact .inl (header large)
    · exact .inr (small (by omega))
  cases site with
  | write | finishWrite => exact absurd trivial lost
  -- Nothing was written, and no member is empty.
  | deflateInit2 =>
    obtain ⟨outTot, output⟩ := sited
    constructor
    · rw [outTot, output]
      rfl
    · intro member
      have head := member_head member
      rw [output] at head
      cases head
  | read | deflate | finish | deflateEnd =>
    obtain ⟨outTot, z, w, ends, less, part⟩ := sited
    constructor
    · simp only [List.length_nil] at outTot
      omega
    · exact not_member_part reserved starts ends less part
  -- None of the trailer is there, or the size would show it.
  | trailerWrite stored =>
    obtain ⟨-, outTot, z, ends, payload, output⟩ := sited
    simp only [List.length_nil] at outTot
    have none : stored = 0 := Nat.eq_zero_of_not_pos lost
    subst none
    constructor
    · omega
    · apply not_member_part reserved starts ends (List.prefix_refl z)
      rw [output]
      simp
  -- The run succeeds, but its buffer was too small for a header.
  | done =>
    obtain ⟨outTot, -, -, z, ends, payload, output⟩ := sited
    simp only [List.length_nil] at outTot
    constructor
    · omega
    · rw [output, List.nil_append]
      exact not_member_headless reserved (small (Nat.lt_of_not_le lost)) ends

/-! ## What file_compress deletes -/

/-- `file_compress` with `gz_compress`, as the build without sandboxes calls it. -/
def compressFile (cfg : CConfig σ) (o : Options) (sys : Sys) (file : Path) (p : Process)
    (fuel : Nat) : Option (Ran Int Process) :=
  fileCompress o sys (fun origname mtime w => gzCompress cfg origname mtime w fuel) file p

/-- The call of `gz_compress` for a file. -/
def compressCall (cfg : CConfig σ) (file : Path) (i : Nat) (p : Process) (fuel : Nat) :
    Option (CEnd σ) :=
  compressEnd cfg (basename file) (p.fs.inodes i).mtime (p.world (p.fs.inodes i).content []) fuel

/-- `unlink_input` deletes the input only when all of it was read and the output file is a
complete member with its content. -/
def DeletesCompressed (F : Format) (cfg : CConfig σ) (o : Options) (sys : Sys) (file : Path)
    (p : Process) (fuel : Nat) : Prop :=
  ∀ ran, compressFile cfg o sys file p fuel = some ran → ran.state.unlinked = true →
    ∃ i out site s, p.fs.names file = some i ∧
      ran.state.fs.names (zippedName o file) = some out ∧
      Member F (ran.state.fs.inodes out).content (p.fs.inodes i).content ∧
      compressCall cfg file i p fuel = some (.out site s) ∧ s.world.input = []

section

variable {o : Options} {sys : Sys} {file : Path} {p q : Process} {i fuel : Nat}

theorem afterSlash_sub (path : Path) : afterSlash path ⊆ path := by
  induction path with
  | nil => exact List.Subset.refl _
  | cons c cs ih =>
    unfold afterSlash
    split
    · exact fun b mem => List.mem_cons_of_mem c (ih mem)
    · split
      · exact fun b mem => List.mem_cons_of_mem c mem
      · exact List.Subset.refl _

/-- The last component of a C string is one. -/
theorem basename_nul {path : Path} (nul : 0 ∉ path) : 0 ∉ basename path := by
  unfold basename
  split
  · decide
  · simp only
    split
    · decide
    · intro mem
      have mem' := afterSlash_sub _ mem
      rw [List.mem_reverse] at mem'
      exact nul (List.mem_reverse.mp ((List.dropWhile_suffix _).mem mem'))

/-- The run of `file_compress` that gets to `gz_compress`. -/
theorem compressFile_opened (cflag : o.cflag = false) (input : compressInput sys file p = .ok i)
    (output : compressOutput o sys file i p = .ok q) :
    compressFile cfg o sys file p fuel = (compressCall cfg file i p fuel).map fun left =>
      match left.ran with
      | .exits status w =>
        .exits status { q.after w with fs := q.fs.store p.fs.next w.output }
      | .returns r w => .returns r.outTot (compressCheck o sys file i p.fs.next r
          { q.after w with fs := q.fs.store p.fs.next w.output }) := by
  have opened := compressOutput_ok output
  have world : q.world (p.fs.inodes i).content [] = p.world (p.fs.inodes i).content [] := by
    rw [opened.only]
    rfl
  have out : q.fs.next - 1 = p.fs.next := by
    rw [opened.next]
    rfl
  unfold compressFile fileCompress compressCall gzCompress
  simp only [input, cflag, output, world, out]
  rcases compressEnd cfg (basename file) (p.fs.inodes i).mtime
    (p.world (p.fs.inodes i).content []) fuel with _ | left
  · rfl
  · rcases left with ⟨site, s⟩ | ⟨status, w⟩ <;> rfl

/-- When the input goes: the size of the output is the one reported, and the name still is
the input's. -/
theorem compressFile_unlinked (cflag : o.cflag = false) (kflag : o.kflag = false)
    (fresh : p.unlinked = false) {ran : Ran Int Process}
    (runs : compressFile cfg o sys file p fuel = some ran) :
    ran.state.unlinked = true ↔ ∃ i q site s, compressInput sys file p = .ok i ∧
      compressOutput o sys file i p = .ok q ∧ sys.restats = true ∧ q.fs.names file = some i ∧
      compressCall cfg file i p fuel = some (.out site s) ∧
      (s.world.output.length : Int) = s.outTot := by
  cases input : compressInput sys file p with
  | error q =>
    unfold compressFile fileCompress at runs
    simp only [input] at runs
    cases runs
    simp [Ran.state, (compressInput_error input).2, fresh]
  | ok i =>
    cases output : compressOutput o sys file i p with
    | error q =>
      unfold compressFile fileCompress at runs
      simp only [input, output, cflag] at runs
      cases runs
      simp [Ran.state, compressOutput_error output, fresh, output]
    -- The output is open. Only the check of its size behind the call unlinks the input.
    | ok q =>
      rw [compressFile_opened cflag input output] at runs
      obtain ⟨left, call, same⟩ := Option.map_eq_some_iff.mp runs
      have fresh' : q.unlinked = false := by
        rw [(compressOutput_ok output).only]
        exact fresh
      rcases left with ⟨site, s⟩ | ⟨status, w⟩
      · rw [← same]
        simp only [CEnd.ran, Ran.state]
        have fresh'' : ({ q.after s.world with
            fs := q.fs.store p.fs.next s.world.output } : Process).unlinked = false := fresh'
        rw [compressCheck_unlinked kflag fresh'']
        constructor
        · rintro ⟨restats, size, named⟩
          refine ⟨i, q, site, s, rfl, output, restats, named, call, ?_⟩
          rw [Fs.store_content_self] at size
          exact size
        · rintro ⟨i', q', site', s', same, output', restats, named, call', size⟩
          cases same
          rw [output] at output'
          cases output'
          rw [call] at call'
          cases call'
          refine ⟨restats, ?_, named⟩
          rw [Fs.store_content_self]
          exact size
      · -- The process ended in the call, before the check.
        rw [← same]
        simp only [CEnd.ran, Ran.state, Process.after, fresh', Bool.false_eq_true, false_iff]
        rintro ⟨i', q', site', s', same, -, -, -, call', -⟩
        cases same
        rw [call] at call'
        cases call'

/-- The files behind an input that goes: its name goes, the output's stays. -/
theorem compressCheck_kept {out : Nat} {r : CResult} {outfile : Path}
    (gone : (compressCheck o sys file i out r p).unlinked = true) (fresh : p.unlinked = false)
    (ne : outfile ≠ file) :
    (compressCheck o sys file i out r p).fs.names outfile = p.fs.names outfile ∧
      ∀ j, ((compressCheck o sys file i out r p).fs.inodes j).content =
        (p.fs.inodes j).content := by
  unfold compressCheck unlinkInput at gone ⊢
  split
  next down => simp [down, Process.maybeWarn, fresh] at gone
  next up =>
    rw [if_neg up] at gone
    split
    next wrong => simp [wrong, Process.maybeWarn, fresh] at gone
    next same =>
      rw [if_neg same] at gone
      split
      · exact ⟨rfl, fun _ => rfl⟩
      · split
        · exact ⟨rfl, fun _ => rfl⟩
        · exact ⟨Fs.unlink_names_other _ ne, fun j => Fs.unlink_content _ _ _⟩

/-- The exits that `gz_compress` takes for the file keep the input, when it can go at all. -/
def KeepsInput (cfg : CConfig σ) (o : Options) (sys : Sys) (file : Path) (p : Process)
    (fuel : Nat) : Prop :=
  ∀ i q, compressInput sys file p = .ok i → compressOutput o sys file i p = .ok q →
    sys.restats = true → q.fs.names file = some i →
    ∀ site s, compressCall cfg file i p fuel = some (.out site s) → site.Keeps cfg.buflen.size

theorem compressCall_sited (cfg : CConfig σ) (D : Deflates F cfg.engine) (nul : 0 ∉ file)
    {site : Site} {s : CState σ} (call : compressCall cfg file i p fuel = some (.out site s)) :
    ∃ start, (10 ≤ cfg.buflen.size → IsHeader start) ∧
      (cfg.buflen.size < 10 → start = [] ∨ start = [cfg.env.junk]) ∧
      Sited F [] start (p.fs.inodes i).content site s := by
  obtain ⟨-, start, begins, ran⟩ := compressEnd_out.mp call
  have nul' : 0 ∉ cfg.name (basename file) := by
    unfold CConfig.name
    split
    · exact List.not_mem_nil
    · exact basename_nul nul
  obtain ⟨pos, fits, header, small⟩ := outbufStart_spec nul' begins
  exact ⟨start, header, small, deflateFile_sited D pos fits ran⟩

/-- A deleted input, and the output that is left. -/
theorem compressFile_left (cflag : o.cflag = false) (kflag : o.kflag = false)
    (fresh : p.unlinked = false) (input : compressInput sys file p = .ok i)
    (output : compressOutput o sys file i p = .ok q) (restats : sys.restats = true)
    (named : q.fs.names file = some i) {site : Site} {s : CState σ}
    (call : compressCall cfg file i p fuel = some (.out site s))
    (same : (s.world.output.length : Int) = s.outTot) :
    ∃ ran, compressFile cfg o sys file p fuel = some ran ∧ ran.state.unlinked = true ∧
      ran.state.fs.names (zippedName o file) = some p.fs.next ∧
      (ran.state.fs.inodes p.fs.next).content = s.world.output := by
  have opened := compressOutput_ok output
  have ran : compressFile cfg o sys file p fuel = some (.returns s.outTot
      (compressCheck o sys file i p.fs.next ⟨s.inTot, s.outTot⟩
        { q.after s.world with fs := q.fs.store p.fs.next s.world.output })) := by
    rw [compressFile_opened cflag input output, call]
    rfl
  have gone := (compressFile_unlinked cflag kflag fresh ran).mpr
    ⟨i, q, site, s, input, output, restats, named, call, same⟩
  have ne : zippedName o file ≠ file := by
    intro eq
    have new := opened.output
    rw [eq, named] at new
    have old := p.fs.fresh (compressInput_ok input)
    cases new
    exact absurd old (Nat.lt_irrefl _)
  have fresh' : ({ q.after s.world with
      fs := q.fs.store p.fs.next s.world.output } : Process).unlinked = false := by
    rw [opened.only]
    exact fresh
  obtain ⟨names, contents⟩ := compressCheck_kept gone fresh' ne
  refine ⟨_, ran, gone, ?_, ?_⟩
  · exact names.trans opened.output
  · exact (contents _).trans (Fs.store_content_self _ _ _)

/-- `file_compress` deletes compressed files only, whatever fresh memory holds, if and only
if `gz_compress` ends at an exit that keeps the input. -/
theorem deletesCompressed_iff (D : Deflates F cfg.engine) (reserved : Reserved F)
    (cflag : o.cflag = false) (kflag : o.kflag = false) (nul : 0 ∉ file)
    (fresh : p.unlinked = false) :
    (∀ junk, DeletesCompressed F (cfg.withJunk junk) o sys file p fuel) ↔
      KeepsInput cfg o sys file p fuel := by
  constructor
  · intro safe i q input output restats named site s call
    apply Classical.byContradiction
    intro lost
    -- With a zero in the fresh buffer, what is left is no member.
    obtain ⟨s', call'⟩ : ∃ s', compressCall (cfg.withJunk 0) file i p fuel =
        some (.out site s') := compressEnd_site cfg cfg.env.junk call 0
    obtain ⟨start, header, small, sited⟩ := compressCall_sited (cfg.withJunk 0) D nul call'
    obtain ⟨same, broken⟩ := sited_broken reserved header small sited lost
    obtain ⟨ran, runs, gone, outfile, content⟩ :=
      compressFile_left cflag kflag fresh input output restats named call' same
    obtain ⟨i', out, site', t, named', outfile', member, -⟩ := safe 0 ran runs gone
    rw [compressInput_ok input] at named'
    cases named'
    rw [outfile] at outfile'
    cases outfile'
    rw [content] at member
    exact broken member
  · intro keeps junk ran runs gone
    obtain ⟨i, q, site, s, input, output, restats, named, call, same⟩ :=
      (compressFile_unlinked cflag kflag fresh runs).mp gone
    obtain ⟨s', call'⟩ : ∃ s', compressCall cfg file i p fuel = some (.out site s') :=
      compressEnd_site cfg junk call cfg.env.junk
    have safe := keeps i q input output restats named site s' call'
    obtain ⟨start, header, -, sited⟩ :=
      compressCall_sited (cfg.withJunk junk) D nul call
    obtain ⟨member, ended⟩ := sited_complete header sited safe same
    obtain ⟨ran', runs', -, outfile, content⟩ :=
      compressFile_left cflag kflag fresh input output restats named call same
    rw [runs] at runs'
    cases runs'
    rw [← content] at member
    exact ⟨i, _, site, s, compressInput_ok input, outfile, member, call, ended⟩

end

/-! ## A file that is lost -/

theorem storedFormat_reserved : Reserved storedFormat := by
  intro z ends
  cases z with
  | nil => cases ends
  | cons b rest =>
    refine ⟨b, rest, rfl, ?_⟩
    intro block
    have first : (storedMachine.step .head b).1 = .bad := by
      simp [storedMachine, StoredState.step, block]
    have wrong : storedMachine.after .head (b :: rest) = .bad := by
      rw [Machine.after, first]
      exact storedMachine.after_bad rest
    have done : storedMachine.after .head (b :: rest) = .done := ends
    rw [wrong] at done
    cases done

/-- `gz_compress` with a system whose first `read` fails. -/
def unreadable : CConfig StoredOut where
  engine := storedDeflate
  env := { Env.steady 64 with reads := fun _ => .fails }
  buflen := ⟨64, by decide⟩
  numflag := 6
  nflag := false

/-- After a `read` that fails, the input is deleted, and the output is empty. -/
theorem unreadable_deleted : ¬ DeletesCompressed storedFormat unreadable .plain .good [0x61]
    (.starts (.single [0x61] [1, 2, 3])) 1 := by
  intro safe
  have lost : ∃ ran, compressFile unreadable .plain .good [0x61]
      (.starts (.single [0x61] [1, 2, 3])) 1 = some ran ∧ ran.state.unlinked = true ∧
      ran.state.fs.names (zippedName .plain [0x61]) = some 1 ∧
      (ran.state.fs.inodes 1).content = [] := ⟨_, rfl, rfl, rfl, rfl⟩
  obtain ⟨ran, runs, gone, outfile, empty⟩ := lost
  obtain ⟨i, out, -, -, -, outfile', member, -⟩ := safe ran runs gone
  rw [outfile] at outfile'
  cases outfile'
  have head := member_head member
  rw [empty] at head
  cases head

/-- The same file on a system without failures. -/
theorem deletesCompressed_iff_steady :
    (∀ junk, DeletesCompressed storedFormat
      (CConfig.withJunk ⟨storedDeflate, .steady 64, ⟨64, by decide⟩, 6, false⟩ junk) .plain .good
      [0x61] (.starts (.single [0x61] [1, 2, 3])) 3) ↔
    KeepsInput ⟨storedDeflate, .steady 64, ⟨64, by decide⟩, 6, false⟩ .plain .good [0x61]
      (.starts (.single [0x61] [1, 2, 3])) 3 :=
  deletesCompressed_iff storedDeflates.toDeflates storedFormat_reserved rfl rfl (by decide) rfl

end CheriGzip.Gzip
