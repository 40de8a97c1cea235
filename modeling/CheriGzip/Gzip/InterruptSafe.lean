import CheriGzip.Gzip.Interrupt

/-!
# When a signal is safe

An operation that fails after it has created its file leaves `remove_file` set, and the
buffer that it points to is written by the next operation.
-/
namespace CheriGzip.Gzip.Interrupt

/-! ## Points -/

section

variable {s : Sig} {acts rest : List Act}

theorem mem_points_append {t : Sig} :
    t ∈ s.points (acts ++ rest) ↔ t ∈ s.points acts ∨ t ∈ (s.after acts).points rest := by
  induction acts generalizing s with
  | nil =>
    cases rest with
    | nil => simp [Sig.points, Sig.after]
    | cons a rest => simp [Sig.points, Sig.after]
  | cons a acts ih =>
    have tail : s.after (a :: acts) = (s.act a).after acts := rfl
    rw [tail]
    simp only [List.cons_append, Sig.points, List.mem_cons, ih, or_assoc]

theorem after_mem_points : s.after acts ∈ s.points acts := by
  induction acts generalizing s with
  | nil => exact List.mem_singleton.mpr rfl
  | cons a acts ih => exact List.mem_cons_of_mem s ih

theorem after_append : s.after (acts ++ rest) = (s.after acts).after rest :=
  List.foldl_append

/-- Invariant rule for acts: what each of them keeps holds at all points. -/
theorem points_invariant (inv : Sig → Prop) (allowed : Act → Prop)
    (keeps : ∀ s a, inv s → allowed a → inv (s.act a)) (all : ∀ a ∈ acts, allowed a)
    (start : inv s) : ∀ t ∈ s.points acts, inv t := by
  induction acts generalizing s with
  | nil =>
    intro t mem
    rw [List.mem_singleton.mp mem]
    exact start
  | cons a acts ih =>
    intro t mem
    rcases List.mem_cons.mp mem with rfl | mem
    · exact start
    · apply ih _ _ t mem
      · exact fun b later => all b (List.mem_cons_of_mem a later)
      · exact keeps s a start (all a List.mem_cons_self)

end

/-! ## Acts before remove_file is set, and behind it -/

/-- What an operation may do before it creates its file, or when that is finished. -/
def Act.Early : Act → Prop
  | .name _ => True
  | .unlink _ => True
  | _ => False

theorem act_early (s : Sig) (a : Act) (null : s.removeFile = none) (early : a.Early) :
    (s.act a).removeFile = none := by
  cases a with
  | name outfile =>
    simp only [Sig.act]
    split <;> exact null
  | unlink => exact null
  | create | arm | store | disarm => exact early.elim

/-- The operation in progress has the buffer, and has created nothing yet. -/
def Entered (buf : Nat) (s : Sig) : Prop := s.current = some ⟨buf, none, false⟩

theorem act_entered {buf : Nat} (s : Sig) (a : Act) (entered : Entered buf s)
    (early : a.Early) : Entered buf (s.act a) := by
  cases a with
  | name outfile =>
    unfold Entered at entered ⊢
    simp only [Sig.act, entered]
  | unlink => exact entered
  | create | arm | store | disarm => exact early.elim

/-- Between `arm` and `disarm`: the buffer names the new file or nothing. -/
structure Armed (buf : Nat) (outfile : Path) (s : Sig) : Prop where
  removeFile : s.removeFile = some buf
  buffers : s.buffers buf = outfile
  current : ∃ i, s.current = some ⟨buf, some i, false⟩ ∧
    (s.fs.names outfile = some i ∨ s.fs.names outfile = none)

theorem Armed.safe {buf : Nat} {outfile : Path} {s : Sig} (armed : Armed buf outfile s) :
    s.Safe := by
  obtain ⟨removeFile, buffers, i, current, names⟩ := armed
  refine .inr ⟨_, i, current, removeFile, rfl, rfl, ?_⟩
  rw [buffers]
  exact names

/-- What an operation may do while `remove_file` is set. -/
def Act.Held (outfile : Path) : Act → Prop
  | .store _ => True
  | .unlink path => path = outfile
  | _ => False

theorem act_held {buf : Nat} {outfile : Path} (s : Sig) (a : Act) (armed : Armed buf outfile s)
    (held : a.Held outfile) : Armed buf outfile (s.act a) := by
  obtain ⟨removeFile, buffers, i, current, names⟩ := armed
  cases a with
  | store content =>
    simp only [Sig.act, current, Option.bind_some]
    exact ⟨removeFile, buffers, i, rfl, names⟩
  | unlink path =>
    cases held
    exact ⟨removeFile, buffers, i, current, .inr (Fs.unlink_names_self _ _)⟩
  | name | create | arm | disarm => exact held.elim

/-- The acts of an operation: it does not get to `remove_file`, or sets it behind `open`, and
then leaves it or clears it. -/
inductive Shape : (left : Bool) → List Act → Prop where
  | quiet {acts} (early : ∀ a ∈ acts, a.Early) : Shape false acts
  | left {acts checks held : List Act} {outfile : Path} (early : ∀ a ∈ acts, a.Early)
      (unlinks : ∀ a ∈ checks, ∃ path, a = .unlink path) (tail : ∀ a ∈ held, a.Held outfile) :
      Shape true (acts ++ .name outfile :: checks ++ .create outfile :: .arm :: held)
  | cleared {acts checks held last : List Act} {outfile : Path} (early : ∀ a ∈ acts, a.Early)
      (unlinks : ∀ a ∈ checks, ∃ path, a = .unlink path) (tail : ∀ a ∈ held, a.Held outfile)
      (rest : ∀ a ∈ last, a.Early) :
      Shape false (acts ++ .name outfile :: checks ++ .create outfile :: .arm ::
        (held ++ .disarm :: last))

section

variable {s : Sig} {buf : Nat} {acts checks held rest : List Act} {outfile : Path}

theorem unlinks_early (unlinks : ∀ a ∈ checks, ∃ path, a = .unlink path) :
    ∀ a ∈ checks, a.Early := by
  intro a mem
  obtain ⟨path, rfl⟩ := unlinks a mem
  trivial

theorem opening_early (early : ∀ a ∈ acts, a.Early)
    (unlinks : ∀ a ∈ checks, ∃ path, a = .unlink path) :
    ∀ a ∈ acts ++ .name outfile :: checks, a.Early := by
  intro a mem
  rcases List.mem_append.mp mem with before | behind
  · exact early a before
  · rcases List.mem_cons.mp behind with rfl | check
    · trivial
    · exact unlinks_early unlinks a check

/-- Behind the checks the buffer holds the output's name. -/
theorem opening_named (entered : Entered buf s) (early : ∀ a ∈ acts, a.Early)
    (unlinks : ∀ a ∈ checks, ∃ path, a = .unlink path) :
    (s.after (acts ++ .name outfile :: checks)).buffers buf = outfile := by
  have entered' : Entered buf (s.after acts) :=
    points_invariant (Entered buf) Act.Early act_entered early entered _ after_mem_points
  have written : ((s.after acts).act (.name outfile)).buffers buf = outfile := by
    unfold Entered at entered'
    simp [Sig.act, entered']
  have kept := points_invariant (·.buffers buf = outfile) (fun a => ∃ path, a = .unlink path)
    (fun u a same unlink => by
      obtain ⟨path, rfl⟩ := unlink
      exact same)
    unlinks written _ after_mem_points
  rw [after_append]
  exact kept

/-- From the new file on the operation is armed. -/
theorem opening_armed (entered : Entered buf s) (early : ∀ a ∈ acts, a.Early)
    (unlinks : ∀ a ∈ checks, ∃ path, a = .unlink path) :
    Armed buf outfile
      (((s.after (acts ++ .name outfile :: checks)).act (.create outfile)).act .arm) := by
  have named : (s.after (acts ++ .name outfile :: checks)).buffers buf = outfile :=
    opening_named entered early unlinks
  have entered' : Entered buf (s.after (acts ++ .name outfile :: checks)) :=
    points_invariant (Entered buf) Act.Early act_entered (opening_early early unlinks) entered _
      after_mem_points
  unfold Entered at entered'
  constructor
  · simp [Sig.act, entered']
  · exact named
  · refine ⟨_, ?_, .inl (Fs.create_names_self _ _)⟩
    simp [Sig.act, entered']

/-- The points up to the last act that has `remove_file` set. -/
theorem opening_safe (null : s.removeFile = none) (entered : Entered buf s)
    (early : ∀ a ∈ acts, a.Early) (unlinks : ∀ a ∈ checks, ∃ path, a = .unlink path)
    (tail : ∀ a ∈ held, a.Held outfile) :
    (∀ t ∈ s.points (acts ++ .name outfile :: checks ++ .create outfile :: .arm :: held),
        t.Safe) ∧
      Armed buf outfile
        (s.after (acts ++ .name outfile :: checks ++ .create outfile :: .arm :: held)) := by
  have armed : Armed buf outfile
      (((s.after (acts ++ .name outfile :: checks)).act (.create outfile)).act .arm) :=
    opening_armed entered early unlinks
  have early' : ∀ a ∈ acts ++ .name outfile :: checks, a.Early := opening_early early unlinks
  have before := points_invariant (·.removeFile = none) Act.Early act_early early' null
  have behind := points_invariant (Armed buf outfile) (Act.Held outfile) act_held tail armed
  constructor
  · intro t mem
    rcases mem_points_append.mp mem with first | second
    · exact .inl (before t first)
    · simp only [Sig.points, List.mem_cons] at second
      rcases second with rfl | rfl | last
      · exact .inl (before _ after_mem_points)
      · have null' := before _ after_mem_points
        exact .inl null'
      · exact (behind t last).safe
  · rw [after_append]
    exact behind _ after_mem_points

/-- All points of an operation are safe, and behind it `remove_file` is null again unless it
was left. -/
theorem shape_safe {left : Bool} (shape : Shape left acts) (null : s.removeFile = none)
    (entered : Entered buf s) :
    (∀ t ∈ s.points acts, t.Safe) ∧
      (s.after acts).removeFile = if left then some buf else none := by
  cases shape with
  | quiet early =>
    have all := points_invariant (·.removeFile = none) Act.Early act_early early null
    exact ⟨fun t mem => .inl (all t mem), all _ after_mem_points⟩
  | left early unlinks tail =>
    obtain ⟨safe, armed⟩ := opening_safe null entered early unlinks tail
    exact ⟨safe, armed.removeFile⟩
  | @cleared early' checks' held last outfile early unlinks tail rest =>
    obtain ⟨safe, -⟩ := opening_safe null entered early unlinks tail
    have split : early' ++ Act.name outfile :: checks' ++ .create outfile :: .arm ::
        (held ++ .disarm :: last) =
        (early' ++ .name outfile :: checks' ++ .create outfile :: .arm :: held) ++
          .disarm :: last := by simp
    have cleared : ∀ u : Sig, (u.act .disarm).removeFile = none := fun _ => rfl
    have all := fun u : Sig => points_invariant (·.removeFile = none) Act.Early act_early rest
      (cleared u)
    rw [split]
    constructor
    · intro t mem
      rcases mem_points_append.mp mem with first | second
      · exact safe t first
      · rcases List.mem_cons.mp second with rfl | behind
        · exact safe _ after_mem_points
        · exact .inl (all _ t behind)
    · rw [after_append]
      exact all _ _ after_mem_points

end

/-! ## The shapes of the two operations -/

section

variable {o : Options} {sys : Sys} {file : Path} {p : Process}

/-- When `file_compress` has created its file, it does not return by `bad_outfile`. -/
def CompressCommits (o : Options) (sys : Sys) (compress : CompressFn) (file : Path)
    (p : Process) : Prop :=
  o.cflag = false → ∀ i q r w, compressInput sys file p = .ok i →
    compressOutput o sys file i p = .ok q →
    compress (basename file) (p.fs.inodes i).mtime (q.world (p.fs.inodes i).content []) =
      some (.returns r w) →
    sys.restats = true ∧ (w.output.length : Int) = r.outTot

/-- When `file_uncompress` has created its file, the decoder does not fail, and the file can
be opened and checked again. -/
def UncompressCommits (o : Options) (sys : Sys) (uncompress : UncompressFn) (others : OtherFn)
    (file : Path) (p : Process) : Prop :=
  o.cflag = false → o.lflag = false → ∀ found q size w, uncompressInput o sys file p = .ok found →
    uncompressOutput o sys found p = .ok q →
    runDecoder o uncompress others file found (p.fs.inodes found.inode).content q =
      some (.returns size w) →
    size ≠ -1 ∧ o.tflag = false ∧ sys.reopens = true ∧ sys.restats = true ∧
      ((decodedContent found w).length : Int) = size

theorem checkOutfileActs_unlinks {outfile : Path} :
    ∀ a ∈ checkOutfileActs o sys outfile p, ∃ path, a = .unlink path := by
  intro a mem
  unfold checkOutfileActs at mem
  split at mem
  · exact ⟨outfile, List.mem_singleton.mp mem⟩
  · cases mem

theorem unlinkInputActs_early {i : Nat} : ∀ a ∈ unlinkInputActs o file i p, a.Early := by
  intro a mem
  unfold unlinkInputActs at mem
  split at mem
  · cases mem
  · rw [List.mem_singleton.mp mem]
    trivial

theorem uncompressNames_early : ∀ a ∈ uncompressNames o sys file p, a.Early := by
  intro a mem
  unfold uncompressNames at mem
  split at mem
  · cases mem
  · rcases List.mem_cons.mp mem with rfl | mem
    · trivial
    · split at mem
      · cases mem
      · rw [List.mem_singleton.mp mem]
        trivial

/-- What an operation does to a file it has created: `remove_file` stays set, or is cleared. -/
inductive Tail (outfile : Path) : (left : Bool) → List Act → Prop where
  | left {held : List Act} (tail : ∀ a ∈ held, a.Held outfile) : Tail outfile true held
  | cleared {held last : List Act} (tail : ∀ a ∈ held, a.Held outfile)
      (rest : ∀ a ∈ last, a.Early) : Tail outfile false (held ++ .disarm :: last)

theorem Tail.shape {outfile : Path} {left : Bool} {acts checks tail : List Act}
    (held : Tail outfile left tail) (early : ∀ a ∈ acts, a.Early)
    (unlinks : ∀ a ∈ checks, ∃ path, a = .unlink path) :
    Shape left (acts ++ .name outfile :: checks ++ .create outfile :: .arm :: tail) := by
  cases held with
  | left tail => exact .left early unlinks tail
  | cleared tail rest => exact .cleared early unlinks tail rest

/-! ### file_compress -/

section

variable {compress : CompressFn} {i : Nat} {q : Process}

/-- Without a new file. -/
theorem compressActs_early (none : ∀ i q, compressInput sys file p = .ok i → o.cflag = false →
    compressOutput o sys file i p ≠ .ok q) : ∀ a ∈ compressActs o sys compress file p, a.Early := by
  intro a mem
  unfold compressActs at mem
  cases input : compressInput sys file p with
  | error q => simp [input] at mem
  | ok i =>
    simp only [input] at mem
    split at mem
    · cases mem
    next cflag =>
      split at mem
      · cases mem
      · split at mem
        · cases mem
        · rw [Bool.not_eq_true] at cflag
          cases output : compressOutput o sys file i p with
          | ok q => exact absurd output (none i q input cflag)
          | error q =>
            simp only [output] at mem
            rcases List.mem_cons.mp mem with rfl | mem
            · trivial
            · exact unlinks_early checkOutfileActs_unlinks a mem

/-- With a new file. -/
theorem compressActs_ok (cflag : o.cflag = false) (input : compressInput sys file p = .ok i)
    (output : compressOutput o sys file i p = .ok q) :
    compressActs o sys compress file p =
      [] ++ .name (zippedName o file) :: checkOutfileActs o sys (zippedName o file) p ++
        .create (zippedName o file) :: .arm :: compressTail o sys file i q
          (compress (basename file) (p.fs.inodes i).mtime
            (q.world (p.fs.inodes i).content [])) := by
  have checked := output
  unfold compressOutput at checked
  unfold compressActs
  simp only [input, cflag, output, Bool.false_eq_true, if_false]
  split at checked
  · cases checked
  next single =>
    rw [if_neg single]
    split at checked
    · cases checked
    next plain =>
      rw [if_neg plain]
      rfl

theorem compressTail_tail (ran : Option (Ran CResult)) :
    ∃ left, Tail (zippedName o file) left (compressTail o sys file i q ran) ∧
      ∀ r w, ran = some (.returns r w) →
        (left = false ↔ sys.restats = true ∧ (w.output.length : Int) = r.outTot) := by
  rcases ran with _ | ⟨r, w⟩ | ⟨status, w⟩
  · exact ⟨true, .left (by simp [compressTail]), by simp⟩
  · unfold compressTail
    simp only
    split
    next bad =>
      refine ⟨true, .left (by simp [Act.Held]), ?_⟩
      rintro _ _ ⟨⟩
      rcases bad with down | wrong
      · simp [down]
      · simp [wrong]
    next good =>
      have tail : Tail (zippedName o file) false
          ([.store w.output] ++ .disarm :: unlinkInputActs o file i q) :=
        .cleared (by simp [Act.Held]) unlinkInputActs_early
      refine ⟨false, tail, ?_⟩
      rintro _ _ ⟨⟩
      simpa using good
  · exact ⟨true, .left (by simp [compressTail, Act.Held]), by simp⟩

theorem compressActs_shape :
    ∃ left, Shape left (compressActs o sys compress file p) ∧
      ∀ r q, fileCompress o sys compress file p = some (.returns r q) →
        (left = false ↔ CompressCommits o sys compress file p) := by
  by_cases opens : ∃ i q, compressInput sys file p = .ok i ∧ o.cflag = false ∧
      compressOutput o sys file i p = .ok q
  · obtain ⟨i, q, input, cflag, output⟩ := opens
    obtain ⟨left, tail, cleared⟩ := @compressTail_tail o sys file i q
      (compress (basename file) (p.fs.inodes i).mtime (q.world (p.fs.inodes i).content []))
    refine ⟨left, ?_, ?_⟩
    · rw [compressActs_ok cflag input output]
      exact tail.shape (by simp) checkOutfileActs_unlinks
    · intro r q' returned
      have opened := compressOutput_ok output
      have out : q.fs.next - 1 = p.fs.next := by
        rw [opened.next]
        rfl
      unfold fileCompress at returned
      simp only [input, cflag, output, Bool.false_eq_true, if_false] at returned
      cases call : compress (basename file) (p.fs.inodes i).mtime
          (q.world (p.fs.inodes i).content []) with
      | none => simp [call] at returned
      | some ran =>
        cases ran with
        | exits status w => simp [call] at returned
        | returns r w =>
          rw [cleared r w call]
          constructor
          · intro good _ i' q' r' w' input' output' call'
            rw [input] at input'
            cases input'
            rw [output] at output'
            cases output'
            rw [call] at call'
            cases call'
            exact good
          · intro commits
            exact commits cflag i q r w input output call
  · have none : ∀ i q, compressInput sys file p = .ok i → o.cflag = false →
        compressOutput o sys file i p ≠ .ok q :=
      fun i q input cflag output => opens ⟨i, q, input, cflag, output⟩
    refine ⟨false, .quiet (compressActs_early none), fun _ _ _ => iff_of_true rfl ?_⟩
    intro cflag i q r w input output
    exact absurd output (none i q input cflag)

end

/-! ### file_uncompress -/

section

variable {uncompress : UncompressFn} {others : OtherFn} {found : Found} {q : Process}

theorem names_found_early (outfile : Path) :
    ∀ a ∈ uncompressNames o sys file p ++ [.name outfile], a.Early := by
  intro a mem
  rcases List.mem_append.mp mem with first | last
  · exact uncompressNames_early a first
  · rw [List.mem_singleton.mp last]
    trivial

/-- Without a new file. -/
theorem uncompressActs_early (none : ∀ found q, uncompressInput o sys file p = .ok found →
    o.cflag = false → o.lflag = false → uncompressOutput o sys found p ≠ .ok q) :
    ∀ a ∈ uncompressActs o sys uncompress others file p, a.Early := by
  intro a mem
  unfold uncompressActs at mem
  cases input : uncompressInput o sys file p with
  | error q =>
    simp only [input] at mem
    exact uncompressNames_early a mem
  | ok found =>
    have checks : a ∈ uncompressNames o sys file p ++ [.name found.outfile] ++
        checkOutfileActs o sys found.outfile p → a.Early := by
      intro mem
      rcases List.mem_append.mp mem with first | last
      · exact names_found_early _ a first
      · exact unlinks_early checkOutfileActs_unlinks a last
    simp only [input] at mem
    split at mem
    · exact names_found_early _ a mem
    · split at mem
      · exact names_found_early _ a mem
      · split at mem
        · exact names_found_early _ a mem
        · cases output : uncompressOutput o sys found p with
          | error q =>
            simp only [output] at mem
            exact checks mem
          | ok q =>
            simp only [output] at mem
            split at mem
            · exact checks mem
            next file =>
              simp only [not_or, Bool.not_eq_true] at file
              exact absurd output (none found q input file.1 file.2)

/-- With a new file. -/
theorem uncompressActs_ok (cflag : o.cflag = false) (lflag : o.lflag = false)
    (input : uncompressInput o sys file p = .ok found)
    (output : uncompressOutput o sys found p = .ok q) :
    uncompressActs o sys uncompress others file p =
      uncompressNames o sys file p ++
        .name found.outfile :: checkOutfileActs o sys found.outfile p ++
        .create found.outfile :: .arm :: uncompressTail o sys file found q
          (runDecoder o uncompress others file found (p.fs.inodes found.inode).content q) := by
  have checked := output
  unfold uncompressOutput at checked
  unfold uncompressActs
  simp only [input, cflag, lflag, output, Bool.false_eq_true, false_and, if_false, false_or]
  rw [if_neg (by simp [cflag])] at checked
  split at checked
  · cases checked
  next stats =>
    rw [if_neg stats]
    split at checked
    · cases checked
    next single =>
      have single' : ¬ ((p.fs.inodes found.inode).nlink > 1 ∧ True ∧ o.fflag = false) := by
        simpa [lflag] using single
      rw [if_neg single']
      simp

theorem uncompressTail_tail (ran : Option (Ran Int)) :
    ∃ left, Tail found.outfile left (uncompressTail o sys file found q ran) ∧
      ∀ size w, ran = some (.returns size w) →
        (left = false ↔ size ≠ -1 ∧ o.tflag = false ∧ sys.reopens = true ∧ sys.restats = true ∧
          ((decodedContent found w).length : Int) = size) := by
  rcases ran with _ | ⟨size, w⟩ | ⟨status, w⟩
  · exact ⟨true, .left (by simp [uncompressTail]), by simp⟩
  · unfold uncompressTail
    simp only
    split
    next failed =>
      refine ⟨true, .left (by simp [Act.Held]), ?_⟩
      rintro _ _ ⟨⟩
      simp [failed]
    next good =>
      split
      next unchecked =>
        refine ⟨true, .left (by simp [Act.Held]), ?_⟩
        rintro _ _ ⟨⟩
        rcases unchecked with test | down | down
        · simp [test]
        · simp [down]
        · simp [down]
      next checked =>
        split
        next wrong =>
          refine ⟨true, .left (by simp [Act.Held]), ?_⟩
          rintro _ _ ⟨⟩
          simp [wrong]
        next same =>
          have tail : Tail found.outfile false
              ([.store (decodedContent found w)] ++
                .disarm :: unlinkInputActs o file found.inode q) :=
            .cleared (by simp [Act.Held]) unlinkInputActs_early
          refine ⟨false, tail, ?_⟩
          rintro _ _ ⟨⟩
          simp only [not_or, Bool.not_eq_true, Bool.not_eq_false, Classical.not_not] at checked same
          simp [good, checked, same]
  · exact ⟨true, .left (by simp [uncompressTail, Act.Held]), by simp⟩

theorem uncompressActs_shape :
    ∃ left, Shape left (uncompressActs o sys uncompress others file p) ∧
      ∀ r q, fileUncompress o sys uncompress others file p = some (.returns r q) →
        (left = false ↔ UncompressCommits o sys uncompress others file p) := by
  by_cases opens : ∃ found q, uncompressInput o sys file p = .ok found ∧ o.cflag = false ∧
      o.lflag = false ∧ uncompressOutput o sys found p = .ok q
  · obtain ⟨found, q, input, cflag, lflag, output⟩ := opens
    obtain ⟨left, tail, cleared⟩ := @uncompressTail_tail o sys file found q
      (runDecoder o uncompress others file found (p.fs.inodes found.inode).content q)
    refine ⟨left, ?_, ?_⟩
    · rw [uncompressActs_ok cflag lflag input output]
      exact tail.shape uncompressNames_early checkOutfileActs_unlinks
    · intro r q' returned
      unfold fileUncompress at returned
      simp only [input, lflag, output, Bool.false_eq_true, if_false] at returned
      cases call : runDecoder o uncompress others file found (p.fs.inodes found.inode).content q with
      | none => simp [call] at returned
      | some ran =>
        cases ran with
        | exits status w => simp [call] at returned
        | returns size w =>
          rw [cleared size w call]
          constructor
          · intro good _ _ found' q' size' w' input' output' call'
            rw [input] at input'
            cases input'
            rw [output] at output'
            cases output'
            rw [call] at call'
            cases call'
            exact good
          · intro commits
            exact commits cflag lflag found q size w input output call
  · have none : ∀ found q, uncompressInput o sys file p = .ok found → o.cflag = false →
        o.lflag = false → uncompressOutput o sys found p ≠ .ok q :=
      fun found q input cflag lflag output => opens ⟨found, q, input, cflag, lflag, output⟩
    refine ⟨false, .quiet (uncompressActs_early none), fun _ _ _ => iff_of_true rfl ?_⟩
    intro cflag lflag found q size w input output
    exact absurd output (none found q input cflag lflag)

end

/-! ## The acts and the files -/

section

variable {s : Sig} {buf : Nat} {outfile : Path}

theorem names_fs {acts : List Act} (names : ∀ a ∈ acts, ∃ name, a = .name name) :
    (s.after acts).fs = s.fs := by
  apply points_invariant (·.fs = s.fs) (fun a => ∃ name, a = .name name) _ names rfl _
    after_mem_points
  rintro t a same ⟨name, rfl⟩
  simp only [Sig.act]
  split <;> exact same

theorem checkOutfileActs_fs (same : s.fs = p.fs) :
    (s.after (checkOutfileActs o sys outfile p)).fs = (checkOutfile o sys outfile p).2.fs := by
  unfold checkOutfileActs checkOutfile
  by_cases there : o.lflag = false ∧ p.fs.names outfile ≠ none
  · rw [if_pos there]
    cases fflag : o.fflag with
    | true => simp [there, Sig.after, Sig.act, same]
    | false =>
      cases answer : sys.answer with
      | none => simp [Sig.after, Process.maybeWarn, same]
      | some yes =>
        cases yes with
        | true => simp [there, Sig.after, Sig.act, same]
        | false => simp [Sig.after, same]
  · rw [if_neg there, if_neg (fun both => there ⟨both.1, both.2.1⟩)]
    exact same

theorem unlinkInputActs_fs {i : Nat} (same : s.fs = p.fs) :
    (s.after (unlinkInputActs o file i p)).fs = (unlinkInput o file i p).fs := by
  unfold unlinkInputActs unlinkInput
  cases kflag : o.kflag with
  | true => simpa [Sig.after] using same
  | false =>
    by_cases named : p.fs.names file = some i
    · simp [named, Sig.after, Sig.act, same]
    · simpa [named, Sig.after] using same

/-- Up to `arm`: the files are those of `q`, and the new one is the operation's. -/
theorem opening_fs {acts : List Act} {q : Process} (same : s.fs = p.fs)
    (entered : Entered buf s) (names : ∀ a ∈ acts, ∃ name, a = .name name)
    (checked : (checkOutfile o sys outfile p).2.fs.create outfile = q.fs) :
    ((s.after (acts ++ .name outfile :: checkOutfileActs o sys outfile p ++
        [.create outfile, .arm])).fs = q.fs) ∧
      ∃ committed, (s.after (acts ++ .name outfile :: checkOutfileActs o sys outfile p ++
        [.create outfile, .arm])).current = some ⟨buf, some (q.fs.next - 1), committed⟩ := by
  have all : ∀ a ∈ acts ++ [.name outfile], ∃ name, a = .name name := by
    intro a mem
    rcases List.mem_append.mp mem with first | last
    · exact names a first
    · exact ⟨outfile, List.mem_singleton.mp last⟩
  have before : (s.after (acts ++ .name outfile :: checkOutfileActs o sys outfile p)).fs =
      (checkOutfile o sys outfile p).2.fs := by
    have split : acts ++ .name outfile :: checkOutfileActs o sys outfile p =
        (acts ++ [.name outfile]) ++ checkOutfileActs o sys outfile p := by simp
    rw [split, after_append]
    exact checkOutfileActs_fs ((names_fs all).trans same)
  have early : ∀ a ∈ acts, a.Early := by
    intro a mem
    obtain ⟨name, rfl⟩ := names a mem
    trivial
  have entered' : Entered buf (s.after (acts ++ .name outfile ::
      checkOutfileActs o sys outfile p)) :=
    points_invariant (Entered buf) Act.Early act_entered
      (opening_early early checkOutfileActs_unlinks) entered _ after_mem_points
  unfold Entered at entered'
  have next : q.fs.next = (checkOutfile o sys outfile p).2.fs.next + 1 := by
    rw [← checked]
    rfl
  rw [after_append]
  constructor
  · rw [← checked, ← before]
    rfl
  · refine ⟨false, ?_⟩
    simp [Sig.after, Sig.act] at entered' before ⊢
    rw [entered', before, next]
    simp

end

/-- A decoder's or encoder's end, in the file that the operation created. -/
theorem store_fs {s : Sig} {buf i : Nat} {committed : Bool} {fs : Fs} (same : s.fs = fs)
    (current : s.current = some ⟨buf, some i, committed⟩) (content : Bytes) :
    (s.act (.store content)).fs = fs.store i content := by
  simp [Sig.act, current, same]

theorem act_disarm_fs {s : Sig} {fs : Fs} (same : s.fs = fs) : (s.act .disarm).fs = fs := same

section

variable {compress : CompressFn} {s : Sig} {buf i : Nat} {q : Process}

/-- The new file, and what was checked before. -/
theorem compressOutput_create (output : compressOutput o sys file i p = .ok q) :
    (checkOutfile o sys (zippedName o file) p).2.fs.create (zippedName o file) = q.fs := by
  unfold compressOutput at output
  split at output
  · cases output
  · split at output
    · cases output
    · simp only at output
      split at output
      · cases output
      · split at output
        · cases output
        · cases output
          rfl

theorem compressActs_error_fs (same : s.fs = p.fs) (cflag : o.cflag = false)
    (input : compressInput sys file p = .ok i)
    (output : compressOutput o sys file i p = .error q) :
    (s.after (compressActs o sys compress file p)).fs = q.fs := by
  have failed := output
  unfold compressOutput at failed
  unfold compressActs
  simp only [input, cflag, output, Bool.false_eq_true, if_false]
  split at failed
  next links =>
    rw [if_pos links]
    cases failed
    exact same
  next single =>
    rw [if_neg single]
    split at failed
    next suffixed =>
      rw [if_pos suffixed]
      cases failed
      exact same
    next plain =>
      rw [if_neg plain]
      have checked : (s.after (.name (zippedName o file) ::
          checkOutfileActs o sys (zippedName o file) p)).fs =
          (checkOutfile o sys (zippedName o file) p).2.fs := by
        have named : (s.act (.name (zippedName o file))).fs = p.fs := by
          simp only [Sig.act]
          split <;> exact same
        exact checkOutfileActs_fs named
      rw [checked]
      simp only at failed
      split at failed
      · cases failed
        rfl
      · split at failed
        · cases failed
          rfl
        · cases failed

/-- The acts of `file_compress` leave the files as it does. -/
theorem compressActs_fs (same : s.fs = p.fs) (entered : Entered buf s) {ran : Ran Int Process}
    (runs : fileCompress o sys compress file p = some ran) :
    (s.after (compressActs o sys compress file p)).fs = ran.state.fs := by
  cases input : compressInput sys file p with
  | error q =>
    unfold fileCompress at runs
    unfold compressActs
    simp only [input] at runs ⊢
    cases runs
    exact same.trans (compressInput_error input).1.symm
  | ok i =>
    cases cflag : o.cflag with
    | true =>
      unfold fileCompress at runs
      unfold compressActs
      simp only [input, cflag, if_true] at runs ⊢
      split at runs
      · cases runs
      · cases runs
        exact same
      · cases runs
        exact same
    | false =>
      cases output : compressOutput o sys file i p with
      | error q =>
        rw [compressActs_error_fs same cflag input output]
        unfold fileCompress at runs
        simp only [input, cflag, output, Bool.false_eq_true, if_false] at runs
        cases runs
        rfl
      | ok q =>
        have none : ∀ a ∈ ([] : List Act), ∃ name, a = .name name := by simp
        obtain ⟨fs, committed, current⟩ :=
          opening_fs same entered none (compressOutput_create output)
        -- Up to `arm` the acts are those of opening the output; the rest are the end of the call.
        have split : ∀ tail : List Act, [] ++ .name (zippedName o file) ::
            checkOutfileActs o sys (zippedName o file) p ++
            .create (zippedName o file) :: .arm :: tail =
            ([] ++ .name (zippedName o file) :: checkOutfileActs o sys (zippedName o file) p ++
              [.create (zippedName o file), .arm]) ++ tail := by simp
        rw [compressActs_ok cflag input output, split, after_append]
        unfold fileCompress at runs
        simp only [input, cflag, output, Bool.false_eq_true, if_false] at runs
        cases call : compress (basename file) (p.fs.inodes i).mtime
            (q.world (p.fs.inodes i).content []) with
        | none => simp [call] at runs
        | some ran' =>
          cases ran' with
          | exits status w =>
            simp only [call] at runs
            cases runs
            exact store_fs fs current w.output
          | returns r w =>
            simp only [call] at runs
            cases runs
            have stored := store_fs fs current w.output
            unfold compressTail compressCheck
            simp only [Ran.state, Fs.store_content_self]
            cases restats : sys.restats with
            | false => exact congrArg (Fs.unlink · (zippedName o file)) stored
            | true =>
              -- Only an output of the right size takes the place of the input.
              by_cases size : (w.output.length : Int) = r.outTot
              · simp only [size, Bool.true_eq_false, ne_eq, not_true, or_false, if_false]
                have disarmed := act_disarm_fs stored
                exact unlinkInputActs_fs
                  (p := { q.after w with fs := q.fs.store (q.fs.next - 1) w.output }) disarmed
              · simp only [size, Bool.true_eq_false, ne_eq, not_false_eq_true, or_true, if_true,
                  if_false]
                exact congrArg (Fs.unlink · (zippedName o file)) stored

end

section

variable {uncompress : UncompressFn} {others : OtherFn} {found : Found} {s : Sig} {buf : Nat}
  {q : Process}

theorem Fs.store_self {fs : Fs} {i : Nat} {content : Bytes}
    (same : (fs.inodes i).content = content) : fs.store i content = fs := by
  obtain ⟨names, inodes, next, fresh⟩ := fs
  have inodes' : (fun j => if j = i then { inodes i with content := content } else inodes j) =
      inodes := by
    funext j
    split
    next here =>
      subst here
      simp only at same
      rw [← same]
    · rfl
  simp only [Fs.store, inodes']

/-- What is in the new file, when the decoder writes elsewhere too. -/
theorem decodedContent_fs (cflag : o.cflag = false)
    (created : (q.fs.inodes (q.fs.next - 1)).content = []) (w : World) :
    q.fs.store (q.fs.next - 1) (decodedContent found w) = (decoded o found q w).fs := by
  unfold decodedContent decoded
  by_cases unknown : found.method = .unknown
  · simp only [unknown, cflag, Bool.false_eq_true, false_or, if_true]
    exact Fs.store_self created
  · simp [unknown, cflag]

theorem uncompressNames_names : ∀ a ∈ uncompressNames o sys file p, ∃ name, a = .name name := by
  intro a mem
  unfold uncompressNames at mem
  split at mem
  · cases mem
  · rcases List.mem_cons.mp mem with rfl | mem
    · exact ⟨_, rfl⟩
    · split at mem
      · cases mem
      · exact ⟨_, List.mem_singleton.mp mem⟩

theorem names_found_fs (same : s.fs = p.fs) (outfile : Path) :
    (s.after (uncompressNames o sys file p ++ [.name outfile])).fs = p.fs := by
  apply (names_fs _).trans same
  intro a mem
  rcases List.mem_append.mp mem with first | last
  · exact uncompressNames_names a first
  · exact ⟨outfile, List.mem_singleton.mp last⟩

/-- The checks leave the files as the acts before the decoder do. -/
theorem uncompressActs_error_fs (same : s.fs = p.fs)
    (input : uncompressInput o sys file p = .ok found)
    (output : uncompressOutput o sys found p = .error q) :
    (s.after (uncompressActs o sys uncompress others file p)).fs = q.fs := by
  have failed := output
  unfold uncompressOutput at failed
  unfold uncompressActs
  simp only [input, output]
  split at failed
  · cases failed
  next file =>
    rw [if_neg file]
    split at failed
    next stats =>
      rw [if_pos stats]
      cases failed
      exact names_found_fs same _
    next stats =>
      rw [if_neg stats]
      split at failed
      next links =>
        rw [if_pos links]
        cases failed
        exact names_found_fs same _
      next single =>
        rw [if_neg single, after_append, checkOutfileActs_fs (names_found_fs same _)]
        simp only at failed
        split at failed
        · cases failed
          rfl
        · split at failed
          · cases failed
          · split at failed
            · cases failed
              rfl
            · cases failed

theorem uncompressOutput_create (cflag : o.cflag = false) (lflag : o.lflag = false)
    (output : uncompressOutput o sys found p = .ok q) :
    (checkOutfile o sys found.outfile p).2.fs.create found.outfile = q.fs := by
  unfold uncompressOutput at output
  rw [if_neg (by simp [cflag])] at output
  split at output
  · cases output
  · split at output
    · cases output
    · simp only [cflag, lflag, Bool.false_eq_true, or_self, if_false] at output
      split at output
      · cases output
      · split at output
        · cases output
        · cases output
          rfl

/-- Without a new file the acts leave the files as the checks do. -/
theorem uncompressActs_list_fs (same : s.fs = p.fs) (file' : o.cflag = true ∨ o.lflag = true)
    (input : uncompressInput o sys file p = .ok found)
    (output : uncompressOutput o sys found p = .ok q) :
    (s.after (uncompressActs o sys uncompress others file p)).fs = q.fs := by
  have passed := output
  unfold uncompressOutput at passed
  unfold uncompressActs
  simp only [input, output]
  split at passed
  next stdout =>
    rw [if_pos stdout]
    cases passed
    exact names_found_fs same _
  next list =>
    rw [if_neg list]
    split at passed
    · cases passed
    next stats =>
      rw [if_neg stats]
      split at passed
      · cases passed
      next single =>
        rw [if_neg single]
        simp only [file', if_true] at passed ⊢
        rw [after_append, checkOutfileActs_fs (names_found_fs same _)]
        split at passed
        · cases passed
        · cases passed
          rfl

/-- The acts behind the decoder, and the checks behind it. -/
theorem uncompressTail_fs {d : Process} {w : World} {size : Int} {out : Nat}
    (same : s.fs = d.fs) (names : d.fs.names = q.fs.names) (cflag : o.cflag = false)
    (named : d.fs.names found.outfile = some out)
    (content : (d.fs.inodes out).content = decodedContent found w) :
    (s.after (if size = -1 then [.unlink found.outfile]
      else if o.tflag = true ∨ sys.reopens = false ∨ sys.restats = false then []
      else if ((decodedContent found w).length : Int) ≠ size then [.unlink found.outfile]
      else .disarm :: unlinkInputActs o file found.inode q)).fs =
    (uncompressCheck o sys file found size d).2.fs := by
  have unlinked : (s.act (.unlink found.outfile)).fs = d.fs.unlink found.outfile :=
    congrArg (Fs.unlink · found.outfile) same
  unfold uncompressCheck
  by_cases failed : size = -1
  · simpa [failed, cflag, Process.maybeWarn, Sig.after] using unlinked
  · cases tflag : o.tflag with
    | true => simpa [failed, Sig.after] using same
    | false =>
      cases reopens : sys.reopens with
      | false => simpa [failed, cflag, Process.maybeWarn, Sig.after] using same
      | true =>
        cases restats : sys.restats with
        | false => simpa [failed, cflag, named, Process.maybeWarn, Sig.after] using same
        | true =>
          by_cases sizes : ((decodedContent found w).length : Int) = size
          · have acts : unlinkInputActs o file found.inode q =
                unlinkInputActs o file found.inode d := by
              unfold unlinkInputActs
              rw [names]
            simp only [failed, cflag, named, content, sizes, acts, Bool.false_eq_true, or_self,
              if_false, Bool.true_eq_false, if_true, ne_eq, not_true]
            exact unlinkInputActs_fs (act_disarm_fs same)
          · simpa [failed, cflag, named, content, sizes, Process.maybeWarn, Sig.after] using unlinked

/-- The acts of `file_uncompress` leave the files as it does. -/
theorem uncompressActs_fs (same : s.fs = p.fs) (entered : Entered buf s) {ran : Ran Int Process}
    (runs : fileUncompress o sys uncompress others file p = some ran) :
    (s.after (uncompressActs o sys uncompress others file p)).fs = ran.state.fs := by
  cases input : uncompressInput o sys file p with
  | error q =>
    unfold fileUncompress at runs
    unfold uncompressActs
    simp only [input] at runs ⊢
    cases runs
    exact ((names_fs uncompressNames_names).trans same).trans (uncompressInput_error input).symm
  | ok found =>
    cases output : uncompressOutput o sys found p with
    | error q =>
      rw [uncompressActs_error_fs same input output]
      unfold fileUncompress at runs
      simp only [input, output] at runs
      cases runs
      rfl
    | ok q =>
      unfold fileUncompress at runs
      simp only [input, output] at runs
      cases lflag : o.lflag with
      -- With -l no file is made, and the acts are those of the checks alone.
      | true =>
        rw [uncompressActs_list_fs same (.inr lflag) input output]
        simp only [lflag, if_true] at runs
        cases runs
        exact (listed_fs _ _ _ _).symm
      | false =>
        simp only [lflag, Bool.false_eq_true, if_false] at runs
        cases cflag : o.cflag with
        | true =>
          rw [uncompressActs_list_fs same (.inl cflag) input output]
          split at runs
          · cases runs
          · cases runs
            simp [Ran.state, decoded, cflag, Process.after]
          · cases runs
            simp only [Ran.state, uncompressCheck, decoded, cflag, true_or, or_true, if_true]
            split <;> rfl
        | false =>
          have created : (q.fs.inodes (q.fs.next - 1)).content = [] := by
            rw [← uncompressOutput_create cflag lflag output]
            simp [Fs.create]
          have names : ∀ a ∈ uncompressNames o sys file p, ∃ name, a = .name name :=
            uncompressNames_names
          obtain ⟨fs, committed, current⟩ :=
            opening_fs same entered names (uncompressOutput_create cflag lflag output)
          -- Up to `arm` the acts are those of opening the output; the rest are the end of the
          -- call.
          have split : ∀ tail : List Act, uncompressNames o sys file p ++ .name found.outfile ::
              checkOutfileActs o sys found.outfile p ++
              .create found.outfile :: .arm :: tail =
              (uncompressNames o sys file p ++ .name found.outfile ::
                checkOutfileActs o sys found.outfile p ++
                [.create found.outfile, .arm]) ++ tail := by simp
          rw [uncompressActs_ok cflag lflag input output, split, after_append]
          cases call : runDecoder o uncompress others file found
              (p.fs.inodes found.inode).content q with
          | none => simp [call] at runs
          | some ran' =>
            cases ran' with
            -- A decoder that ends the process leaves what it has written.
            | exits status w =>
              simp only [call] at runs
              cases runs
              exact (store_fs fs current _).trans (decodedContent_fs cflag created w)
            | returns size w =>
              simp only [call] at runs
              cases runs
              have content : q.fs.store (q.fs.next - 1) (decodedContent found w) =
                  (decoded o found q w).fs := decodedContent_fs cflag created w
              apply uncompressTail_fs ((store_fs fs current _).trans content)
              · rw [← content]
                rfl
              · exact cflag
              · rw [← content, Fs.store_names, ← uncompressOutput_create cflag lflag output]
                exact Fs.create_names_self _ _
              · rw [← content, ← uncompressOutput_create cflag lflag output]
                exact Fs.store_content_self _ _ _

end

end

/-! ## Runs -/

/-- The operation on the file commits what it creates. -/
def Job.Commits (j : Job) (o : Options) (dflag : Bool) (p : Process) : Prop :=
  if dflag then UncompressCommits o j.sys j.uncompress j.others j.file p
  else CompressCommits o j.sys j.compress j.file p

/-- Every operation of the run that returns commits what it creates. -/
def AllCommit (o : Options) (dflag : Bool) : List Job → Process → Prop
  | [], _ => True
  | j :: js, p =>
    ∀ r q, j.run o dflag p = some (.returns r q) → j.Commits o dflag p ∧ AllCommit o dflag js q

theorem Job.shape (j : Job) (o : Options) (dflag : Bool) (p : Process) :
    ∃ left, Shape left (j.acts o dflag p) ∧
      ∀ r q, j.run o dflag p = some (.returns r q) → (left = false ↔ j.Commits o dflag p) := by
  cases dflag with
  | true => exact uncompressActs_shape
  | false => exact compressActs_shape

/-- In every run over a list of files, a signal is safe at all points if and only if every
operation that returns has committed the file it created. -/
theorem runJobs_safe {o : Options} {dflag : Bool} {jobs : List Job} {p : Process} {s : Sig}
    (null : s.removeFile = none) :
    (∀ t ∈ runJobs o dflag jobs s p, t.Safe) ↔ AllCommit o dflag jobs p := by
  induction jobs generalizing s p with
  | nil => simp [runJobs, AllCommit, Sig.Safe, null]
  | cons j js ih =>
    obtain ⟨left, shape, commits⟩ := j.shape o dflag p
    have entered : Entered j.buf (s.enter j.buf) := rfl
    have null' : (s.enter j.buf).removeFile = none := null
    obtain ⟨during, behind⟩ := shape_safe shape null' entered
    have here : s.Safe := .inl null
    -- The first point behind the operation tells whether it left `remove_file` set.
    have first : ∀ (js : List Job) (q : Process) (t : Sig), t ∈ runJobs o dflag js t q := by
      intro js q t
      cases js <;> simp [runJobs]
    unfold runJobs AllCommit
    constructor
    · intro safe r q returned
      rw [returned] at safe
      have behindSafe : ∀ t ∈ runJobs o dflag js
          ((s.enter j.buf).after (j.acts o dflag p)).leave q, t.Safe :=
        fun t mem => safe t (List.mem_append_right _ mem)
      cases left with
      | true =>
        rcases behindSafe _ (first js q _) with none | ⟨c, i, current, -⟩
        · rw [Sig.leave, behind] at none
          cases none
        · cases current
      | false =>
        have cleared : ((s.enter j.buf).after (j.acts o dflag p)).leave.removeFile = none := behind
        exact ⟨(commits r q returned).mp rfl, (ih cleared).mp behindSafe⟩
    · intro all t mem
      rcases List.mem_append.mp mem with now | later
      · rcases List.mem_cons.mp now with rfl | inside
        · exact here
        · exact during t inside
      · split at later
        next r q returned =>
          obtain ⟨committed, rest⟩ := all r q returned
          have committed := (commits r q returned).mpr committed
          subst committed
          have cleared : ((s.enter j.buf).after (j.acts o dflag p)).leave.removeFile = none := behind
          exact (ih cleared).mpr rest t later
        · cases later

/-- Behind an operation the files of the trace are those of the process. -/
theorem Job.acts_fs {j : Job} {o : Options} {dflag : Bool} {p : Process} {s : Sig}
    (same : s.fs = p.fs) {ran : Ran Int Process} (runs : j.run o dflag p = some ran) :
    ((s.enter j.buf).after (j.acts o dflag p)).fs = ran.state.fs := by
  have entered : Entered j.buf (s.enter j.buf) := rfl
  have same' : (s.enter j.buf).fs = p.fs := same
  cases dflag with
  | true => exact uncompressActs_fs same' entered runs
  | false => exact compressActs_fs same' entered runs

/-- From the start of `main` on. -/
theorem signals_safe_iff (o : Options) (dflag : Bool) (jobs : List Job) (p : Process)
    (buffers : Nat → Path) :
    (∀ t ∈ runJobs o dflag jobs (.start p buffers) p, t.Safe) ↔ AllCommit o dflag jobs p :=
  runJobs_safe rfl

/-! ## An input that a signal removes -/

/-- The names `b.gz` and `b`. -/
def zippedB : Path := [0x62, 0x2e, 0x67, 0x7a]

/-- Two compressed files. -/
def twoFiles : Fs where
  names p := if p = [0x61, 0x2e, 0x67, 0x7a] then some 0 else if p = zippedB then some 1 else none
  inodes _ := ⟨[0x1f, 0x8b, 8, 0], 1, 0⟩
  next := 2
  fresh := by
    intro p i named
    split at named
    · cases named
      decide
    · split at named
      · cases named
        decide
      · cases named

/-- A file that `gz_uncompress` fails on. -/
def failingJob (file : Path) : Job where
  file := file
  buf := 0
  sys := .good
  compress _ _ _ := none
  uncompress _ _ w := some (.returns (-1, 0) w)
  others _ _ := none

/-- While the second file's name is in the buffer, a signal removes that file. -/
theorem signal_removes_input :
    ∃ t ∈ runJobs .plain true [failingJob [0x61, 0x2e, 0x67, 0x7a], failingJob zippedB]
        (.start (.starts twoFiles) fun _ => []) (.starts twoFiles),
      t.fs.names zippedB = some 1 ∧ (sigintHandler t).names zippedB = none ∧ ¬ t.Safe := by
  refine ⟨_, List.mem_of_getElem? (i := 11) rfl, rfl, rfl, ?_⟩
  rintro (null | ⟨c, i, current, -, created, -⟩)
  · cases null
  · cases current
    cases created

end CheriGzip.Gzip.Interrupt
