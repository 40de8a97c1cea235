import CheriGzip.Gzip.FileDescriptors

/-!
# What a failure leaves behind

A failed return of `file_compress` or `file_uncompress` is to leave no descriptor and no part of an
output. `lose` closes `fd` where it should close `zfd`, and `file_compress` closes `stdin` where it
should close its input.
-/
namespace CheriGzip.Gzip

/-- The descriptors are in order, and a new file that is left has all that the codec announced. -/
structure Clean (old : Process) (r : FileReturn) (h : Held) : Prop where
  tidy : Tidy h.fds.calls
  whole : ∀ path i, h.p.fs.names path = some i → old.fs.next ≤ i →
    r.codec ≠ -1 ∧ ((h.p.fs.inodes i).content.length : Int) = r.codec

/-- Every failed return of these leaves things clean. -/
def FailsClean (old : Process) (ran : Option (Ran FileReturn Held)) : Prop :=
  ∀ r h, ran = some (.returns r h) → r.Fails → Clean old r h

/-! ## The files -/

/-- There are no other files than before. -/
def NoNew (old q : Process) : Prop := ∀ path i, q.fs.names path = some i → i < old.fs.next

section

variable {old p q : Process} {path outfile : Path} {r : FileReturn} {h : Held}

theorem noNew_same (same : q.fs = old.fs) : NoNew old q := by
  intro path i named
  rw [same] at named
  exact old.fs.fresh named

theorem NoNew.unlink (kept : NoNew old q) (path : Path) : NoNew old (q.unlink path) := by
  intro other i named
  by_cases same : other = path
  · subst same
    rw [Process.unlink, Fs.unlink_names_self] at named
    cases named
  · rw [Process.unlink, Fs.unlink_names_other q.fs same] at named
    exact kept other i named

/-- When the new file goes, the others are left. -/
theorem Opened.noNew (opened : Opened outfile old q) (same : p.fs.names = q.fs.names) :
    NoNew old (p.unlink outfile) := by
  intro other i named
  by_cases isOut : other = outfile
  · subst isOut
    rw [Process.unlink, Fs.unlink_names_self] at named
    cases named
  · rw [Process.unlink, Fs.unlink_names_other p.fs isOut, same, opened.others isOut] at named
    exact old.fs.fresh named

theorem NoNew.clean (kept : NoNew old h.p) (tidy : Tidy h.fds.calls) : Clean old r h where
  tidy := tidy
  whole := fun path i named new => absurd (kept path i named) (Nat.not_lt.mpr new)

/-- A new file that is not what the codec announced. -/
theorem not_clean_left (left : h.p.fs.names outfile = some old.fs.next)
    (part : r.codec = -1 ∨ ((h.p.fs.inodes old.fs.next).content.length : Int) ≠ r.codec) :
    ¬ Clean old r h := by
  intro clean
  obtain ⟨good, whole⟩ := clean.whole outfile old.fs.next left (Nat.le_refl _)
  rcases part with failed | wrong
  · exact good failed
  · exact wrong whole

theorem failsClean_returns : FailsClean old (some (.returns r h)) ↔ (r.Fails → Clean old r h) := by
  constructor
  · exact fun all => all r h rfl
  · rintro clean _ _ ⟨⟩
    exact clean

theorem failsClean_exits (status : Nat) : FailsClean old (some (.exits status h)) := by
  rintro _ _ ⟨⟩

theorem checkOutfile_noNew {o : Options} {sys : Sys} {ok : Bool}
    (check : checkOutfile o sys outfile p = (ok, q)) : NoNew p q := by
  cases ok with
  | true =>
    rcases checkOutfile_ok check with rfl | rfl
    · exact noNew_same rfl
    · exact (noNew_same rfl).unlink outfile
  | false =>
    unfold checkOutfile at check
    split at check
    · split at check
      · cases check
      · split at check
        · cases check
        · cases check
          exact noNew_same rfl
        · cases check
          exact noNew_same rfl
    · cases check

end

/-! ## file_compress -/

/-- What `gz_compress` is called with for a new file. -/
def newFileCall (compress : CompressFn) (file : Path) (i : Nat) (p q : Process) :
    Option (Ran CResult) :=
  compress (basename file) (p.fs.inodes i).mtime (q.world (p.fs.inodes i).content [])

/-- The output cannot be created behind the checks, or `gz_compress` fails and what it wrote is as
long as it says. -/
def CompressSpills (o : Options) (sys : Sys) (compress : CompressFn) (file : Path) (p : Process) :
    Prop :=
  o.cflag = false ∧ ∃ i q, compressInput sys file p = .ok i ∧
    compressNamed o sys file i p = .ok q ∧
      (CreateFails sys (zippedName o file) q ∨
        ∃ r w, newFileCall compress file i p q = some (.returns r w) ∧ r.inTot = -1 ∧
          sys.restats = true ∧ (w.output.length : Int) = r.outTot)

section

variable {o : Options} {sys : Sys} {compress : CompressFn} {file : Path} {p q : Process}
  {used : List Nat} {i : Nat}

theorem compressNamed_error (failed : compressNamed o sys file i p = .error q) : NoNew p q := by
  unfold compressNamed at failed
  split at failed
  · cases failed
    exact noNew_same rfl
  · split at failed
    · cases failed
      exact noNew_same rfl
    · rcases check : checkOutfile o sys (zippedName o file) p with ⟨ok, q⟩
      simp only [check] at failed
      split at failed
      · cases failed
        exact checkOutfile_noNew check
      · cases failed

/-- The new file behind the checks. -/
theorem compressNamed_opened (named : compressNamed o sys file i p = .ok q) :
    Opened (zippedName o file) p { q with fs := q.fs.create (zippedName o file) } := by
  unfold compressNamed at named
  split at named
  · cases named
  · split at named
    · cases named
    · rcases check : checkOutfile o sys (zippedName o file) p with ⟨ok, q⟩
      simp only [check] at named
      split at named
      · cases named
      next good =>
        cases named
        rw [Bool.not_eq_false] at good
        subst good
        rcases checkOutfile_ok check with rfl | rfl
        · exact opened_create (.inl rfl)
        · exact opened_create (.inr rfl)

/-- What is left of the new file behind the check of its size. -/
theorem compressCheck_clean {out : Nat} {r : CResult} {fds : FdTable} (input : i < p.fs.next)
    (opened : Opened (zippedName o file) p q) (tidy : Tidy fds.calls) (w : World)
    (isOut : out = p.fs.next) {d : Process} (isD : d.fs = q.fs.store out w.output) :
    ((⟨r.outTot, r.size, outputFits sys out r d⟩ : FileReturn).Fails →
        Clean p ⟨r.outTot, r.size, outputFits sys out r d⟩
          ⟨compressCheck o sys file i out r d, fds, []⟩) ↔
      ¬ (r.inTot = -1 ∧ sys.restats = true ∧ (w.output.length : Int) = r.outTot) := by
  have content : (d.fs.inodes out).content = w.output := by
    rw [isD, Fs.store_content_self]
  have names : d.fs.names = q.fs.names := by
    rw [isD, Fs.store_names]
  have fits : outputFits sys out r d = true ↔
      sys.restats = true ∧ (w.output.length : Int) = r.outTot := by
    rw [outputFits, content, Bool.and_eq_true, beq_iff_eq]
  by_cases good : outputFits sys out r d = true
  · obtain ⟨restats, size⟩ := fits.mp good
    by_cases failed : r.inTot = -1
    · refine iff_of_false (fun clean => ?_) (fun not => not ⟨failed, restats, size⟩)
      have minus : r.size = -1 := if_pos failed
      refine @not_clean_left p (zippedName o file) _ _ ?_ (.inl minus) (clean (.inr minus))
      show (compressCheck o sys file i out r d).fs.names (zippedName o file) = some p.fs.next
      have output : d.fs.names (zippedName o file) = some p.fs.next := by
        rw [names, opened.output]
      simp only [compressCheck, restats, content, size, Bool.true_eq_false, if_false, ne_eq,
        not_true_eq_false]
      unfold unlinkInput
      split
      · exact output
      · split
        · exact output
        next same =>
          rw [Classical.not_not] at same
          -- The input is unlinked, and the output is another name.
          have ne : zippedName o file ≠ file := by
            intro eq
            rw [← eq, output, Option.some.injEq] at same
            omega
          exact (Fs.unlink_names_other d.fs ne).trans output
    · refine iff_of_true (fun fails => ?_) (fun all => failed all.1)
      have isSize : r.size = r.outTot := if_neg failed
      rcases fails with undone | minus
      · exact absurd (good.symm.trans undone) (by decide)
      · have minus : r.size = -1 := minus
        omega
  · refine iff_of_true (fun _ => NoNew.clean ?_ tidy) (fun all => good (fits.mpr all.2))
    show NoNew p (compressCheck o sys file i out r d)
    unfold compressCheck
    simp only
    split
    · exact @Opened.noNew p ((d.maybeWarn _).maybeWarn _) q _ opened names
    next restats =>
      rw [Bool.not_eq_false] at restats
      split
      · exact @Opened.noNew p ((d.maybeWarn _).maybeWarn _) q _ opened names
      next same =>
        rw [Classical.not_not, content] at same
        exact absurd (fits.mpr ⟨restats, same⟩) good

/-- `file_compress` leaves things clean unless its output cannot be created, or a failed compression
passes the check of the size. -/
theorem fileCompress_clean_iff :
    FailsClean p (fileCompressFds o sys compress file p used) ↔
      ¬ CompressSpills o sys compress file p := by
  have one := (FdTable.Owns.begins used).opens
  have closed := one.closes_first.tidy_iff.mpr rfl
  unfold fileCompressFds
  cases opens : (if sys.opens then p.fs.names file else none) with
  | none =>
    have input : compressInput sys file p = .error (p.maybeWarn "can't open") := by
      rw [compressInput, opens]
    refine iff_of_true (failsClean_returns.mpr fun _ => ?_) ?_
    · exact NoNew.clean (noNew_same rfl) ((FdTable.Owns.begins used).tidy_iff.mpr rfl)
    · rintro ⟨-, i, q, ok, -⟩
      rw [input] at ok
      cases ok
  | some j =>
    simp only
    cases input : compressInput sys file p with
    | error q =>
      refine iff_of_true (failsClean_returns.mpr fun _ => ?_) ?_
      · exact (noNew_same ((compressInput_error input).1)).clean closed
      · rintro ⟨-, i, q, ok, -⟩
        rw [input] at ok
        cases ok
    | ok i =>
      have old := p.fs.fresh (compressInput_ok input)
      simp only
      cases cflag : o.cflag with
      | true =>
        refine iff_of_true ?_ (fun spills => absurd (cflag.symm.trans spills.1) (by decide))
        rw [if_pos rfl]
        cases compress (basename file) (p.fs.inodes i).mtime
            (p.world (p.fs.inodes i).content p.stdout) with
        | none => rintro _ _ ⟨⟩
        | some ran =>
          cases ran with
          | exits status w => exact failsClean_exits status
          | returns r w =>
            exact failsClean_returns.mpr fun _ => NoNew.clean (noNew_same rfl) closed
      | false =>
        rw [if_neg Bool.false_ne_true]
        have spills_iff : CompressSpills o sys compress file p ↔
            ∃ q, compressNamed o sys file i p = .ok q ∧
              (CreateFails sys (zippedName o file) q ∨
                ∃ r w, newFileCall compress file i p q = some (.returns r w) ∧ r.inTot = -1 ∧
                  sys.restats = true ∧ (w.output.length : Int) = r.outTot) := by
          simp [CompressSpills, cflag, input]
        rw [spills_iff]
        cases named : compressNamed o sys file i p with
        | error q =>
          refine iff_of_true (failsClean_returns.mpr fun _ => ?_) ?_
          · exact (compressNamed_error named).clean closed
          · rintro ⟨q, ok, -⟩
            cases ok
        | ok q =>
          simp only [Except.ok.injEq, exists_eq_left']
          by_cases creates : CreateFails sys (zippedName o file) q
          · rw [if_pos creates]
            refine iff_of_false (fun clean => ?_) (fun none => none (.inl creates))
            -- The input stays open, and `stdin` is closed.
            exact one.untidy_stream stdinFileno (failsClean_returns.mp clean (.inl rfl)).tidy
          · rw [if_neg creates]
            have opened := compressNamed_opened named
            have both := one.opens.closes_second.closes_first.tidy_iff.mpr rfl
            simp only [creates, false_or]
            have call : compress (basename file) (p.fs.inodes i).mtime
                (Process.world { q with fs := q.fs.create (zippedName o file) }
                  (p.fs.inodes i).content []) = newFileCall compress file i p q := rfl
            rw [call]
            rcases newFileCall compress file i p q with _ | ⟨r, w⟩ | ⟨status, w⟩
            · exact iff_of_true (by rintro _ _ ⟨⟩) (by rintro ⟨_, _, ⟨⟩, -⟩)
            · rw [failsClean_returns]
              refine (compressCheck_clean old opened both w ?_ rfl).trans (not_congr ?_)
              · exact congrArg (· - 1) opened.next
              · simp
            · exact iff_of_true (failsClean_exits status) (by rintro ⟨_, _, ⟨⟩, -⟩)

end

/-! ## file_uncompress -/

/-- The streams of FT_Z were opened. -/
def ZOpens (f : FdSys) : Prop := f.z.zdopen = true ∧ f.z.dup = true ∧ f.z.fdopen = true

/-- `zread` returned -1, or `fclose(out)` did not write everything. -/
def ZBroken (o : Options) (f : FdSys) : Prop :=
  let s := (zuncompress o.tflag f.z f.zread).2
  none ∈ s.inp.given ∨ (f.z.fclose.flush s.out).1 = false

/-- The streams of FT_Z cannot be opened, the one for the output is not opened for its descriptor,
or one of them ends with an error. -/
def ZSpills (o : Options) (f : FdSys) : Prop :=
  (f.z.zdopen = false ∨ f.z.dup = false) ∧ o.cflag = false ∨
    (f.z.zdopen = true ∧ f.z.dup = true) ∧ f.z.fdopen = false ∨
      ZOpens f ∧ ZBroken o f ∧ o.cflag = false

/-- The failures that are not clean: the new file has the number of standard output and cannot get
another, those of FT_Z, and an output that cannot be looked at and is not as long as the decoder
says. -/
def UncompressSpills (o : Options) (sys : Sys) (f : FdSys) (uncompress : UncompressFn)
    (others : OtherFn) (file : Path) (p : Process) (used : List Nat) : Prop :=
  o.lflag = false ∧ ∃ found q, uncompressInput o sys file p = .ok found ∧
    uncompressOutput o sys found p = .ok q ∧
      (o.cflag = false ∧ lowest (lowest used :: used) = stdoutFileno ∧ f.dupStdout = false ∨
        found.method = .z ∧ ZSpills o f ∨
          found.method ≠ .z ∧ o.cflag = false ∧ o.tflag = false ∧
            (sys.reopens = false ∨ sys.restats = false) ∧
              ∃ size w, runDecoder o uncompress others file found
                  (p.fs.inodes found.inode).content q = some (.returns size w) ∧ size ≠ -1 ∧
                (((decoded o found q w).fs.inodes p.fs.next).content.length : Int) ≠ size)

section

variable {o : Options} {sys : Sys} {f : FdSys} {uncompress : UncompressFn} {others : OtherFn}
  {file : Path} {p q : Process} {used : List Nat} {found : Found} {fds : FdTable} {fd : Nat}

/-! ### The descriptor of the output -/

theorem openZfd_stream (noFile : o.cflag = true ∨ o.lflag = true) :
    openZfd o f fds = (some stdoutFileno, fds) := by
  unfold openZfd
  rw [if_neg]
  rintro ⟨cflag, lflag⟩
  rcases noFile with yes | yes
  · rw [cflag] at yes
    cases yes
  · rw [lflag] at yes
    cases yes

/-- A file gets a descriptor that is not `STDOUT_FILENO`, or none. -/
theorem openZfd_file (cflag : o.cflag = false) (lflag : o.lflag = false) (owns : fds.Owns [fd]) :
    (∃ fds', openZfd o f fds = (none, fds') ∧ fds'.Owns [fd] ∧
      lowest fds.used = stdoutFileno ∧ f.dupStdout = false) ∨
    ∃ zfd fds', openZfd o f fds = (some zfd, fds') ∧ fds'.Owns [zfd, fd] ∧ zfd ≠ stdoutFileno ∧
      ¬ (lowest fds.used = stdoutFileno ∧ f.dupStdout = false) := by
  unfold openZfd
  rw [if_pos ⟨cflag, lflag⟩]
  by_cases free : fds.opens.1 = stdoutFileno
  · have isStdout := owns.opens
    rw [free] at isStdout
    simp only [if_pos free]
    cases dups : f.dupStdout with
    | true =>
      right
      have moved := isStdout.opens
      refine ⟨fds.opens.2.opens.1, _, rfl, moved.closes_second, ?_, by simp⟩
      intro same
      exact (List.nodup_cons.mp moved.distinct).1 (same ▸ List.mem_cons_self)
    | false => exact .inl ⟨_, rfl, isStdout.closes_first, free, rfl⟩
  · simp only [if_neg free]
    exact .inr ⟨_, _, rfl, owns.opens, free, fun both => free both.1⟩

/-- `lose` leaves the descriptor of a file open, and closes its input twice. -/
theorem lose_untidy {mine : List Nat} (owns : fds.Owns mine) (held : fd ∈ mine) {zfd : Nat}
    (isFile : zfd ≠ stdoutFileno) : ¬ Tidy (lose fd (some zfd) fds).calls := by
  simp only [lose, if_neg isFile]
  exact owns.untidy_twice held

theorem lose_tidy (owns : fds.Owns [fd]) :
    Tidy (lose fd none fds).calls ∧ Tidy (lose fd (some stdoutFileno) fds).calls := by
  have tidy := owns.closes_first.tidy_iff.mpr rfl
  exact ⟨tidy, by simpa only [lose, if_pos] using tidy⟩

/-! ### FT_Z -/

/-- The names without the output's. -/
structure Gone (outfile : Path) (p q : Process) : Prop where
  gone : q.fs.names outfile = none
  others : ∀ {other}, other ≠ outfile → q.fs.names other = p.fs.names other

theorem Gone.of_unlink {outfile : Path} (same : q.fs.names = p.fs.names) :
    Gone outfile p (q.unlink outfile) where
  gone := Fs.unlink_names_self _ _
  others := fun ne => (Fs.unlink_names_other _ ne).trans (congrFun same _)

theorem Gone.unlink {outfile : Path} (gone : Gone outfile p q) (message : String) :
    Gone outfile p ((q.maybeWarn message).unlink outfile) where
  gone := Fs.unlink_names_self _ _
  others := fun ne => (Fs.unlink_names_other _ ne).trans (gone.others ne)

theorem Gone.noNew {outfile : Path} {old : Process} (gone : Gone outfile p q)
    (opened : Opened outfile old p ∨ p = old) : NoNew old q := by
  intro other i named
  by_cases isOut : other = outfile
  · rw [isOut, gone.gone] at named
    cases named
  · rw [gone.others isOut] at named
    rcases opened with opened | rfl
    · rw [opened.others isOut] at named
      exact old.fs.fresh named
    · exact p.fs.fresh named

theorem decoded_names (w : World) : (decoded o found p w).fs.names = p.fs.names := by
  unfold decoded
  split <;> rfl

/-- The copy that FT_Z makes of its input. -/
def zWorld (o : Options) (f : FdSys) (content : Bytes) (p : Process) : World :=
  let w := p.world content (if o.cflag then p.stdout else [])
  { w with output := w.output ++ (f.z.fclose.flush (zuncompress o.tflag f.z f.zread).2.out).2 }

/-- How FT_Z ends: without the stream for the input or a descriptor for the output, without the
stream for the output, behind an error of one of the streams, or with the file. -/
inductive ZEnds (o : Options) (f : FdSys) (found : Found) (content : Bytes) (h : Held)
    (mine : List Nat) : Option Int × Held → Prop where
  | unopened (no : f.z.zdopen = false ∨ f.z.dup = false) (message : String) :
      ZEnds o f found content h mine (none, { h with p := h.p.maybeWarn message })
  | leaked (yes : f.z.zdopen = true ∧ f.z.dup = true) (no : f.z.fdopen = false)
      (message : String) {d : Nat} {fds : FdTable} (owns : fds.Owns (d :: mine)) :
      ZEnds o f found content h mine
        (none, { h with p := h.p.maybeWarn message, fds := fds })
  | broken (opens : ZOpens f) (broken : ZBroken o f) {q : Process} {fds : FdTable}
      (owns : fds.Owns mine) (gone : Gone found.outfile h.p q) (status : q.exitValue ≠ 0) :
      ZEnds o f found content h mine
        (none, ⟨q, fds, (zuncompress o.tflag f.z f.zread).2.inp.given⟩)
  | copied (opens : ZOpens f) (good : ¬ ZBroken o f) {fds : FdTable} (owns : fds.Owns mine) :
      ZEnds o f found content h mine (some (zuncompress o.tflag f.z f.zread).1,
        ⟨decoded o found h.p (zWorld o f content h.p), fds,
          (zuncompress o.tflag f.z f.zread).2.inp.given⟩)

theorem unlink_exitValue (p : Process) (message : String) (path : Path) :
    ((p.maybeWarn message).unlink path).exitValue ≠ 0 := by
  show (if p.exitValue = 0 then 1 else p.exitValue) ≠ 0
  split
  · exact Nat.one_ne_zero
  · assumption

theorem switchZ_ends {h : Held} {mine : List Nat} (content : Bytes) (owns : h.fds.Owns mine) :
    ZEnds o f found content h mine (switchZ o f found content h) := by
  have honest := (zuncompress_counts o.tflag f.z f.zread).1
  rw [Stream.Honest] at honest
  -- A warning leaves the names as they are.
  have gone (message : String) : Gone found.outfile h.p
      (((decoded o found h.p (zWorld o f content h.p)).maybeWarn message).unlink found.outfile) :=
    Gone.of_unlink (decoded_names _)
  unfold switchZ
  cases zdopen : f.z.zdopen with
  | false => exact .unopened (.inl zdopen) _
  | true =>
    cases dup : f.z.dup with
    | false => exact .unopened (.inr dup) _
    | true =>
      cases fdopen : f.z.fdopen with
      | false => exact .leaked ⟨zdopen, dup⟩ fdopen _ owns.opens
      | true =>
        have opens : ZOpens f := ⟨zdopen, dup, fdopen⟩
        have closed := owns.opens.closes_first
        simp only [Bool.true_eq_false, if_false]
        cases err : (zuncompress o.tflag f.z f.zread).2.inp.err with
        | true =>
          rw [if_pos rfl]
          exact .broken opens (.inl (honest.mp err)) closed
            ((gone "failed infile fclose").unlink "failed outfile fclose") (unlink_exitValue _ _ _)
        | false =>
          rw [if_neg Bool.false_ne_true]
          cases whole : (f.z.fclose.flush (zuncompress o.tflag f.z f.zread).2.out).1 with
          | false =>
            rw [if_pos rfl]
            exact .broken opens (.inr whole) closed (gone "failed outfile fclose")
              (unlink_exitValue _ _ _)
          | true =>
            rw [if_neg (by simp)]
            refine .copied opens ?_ closed
            rintro (failed | part)
            · rw [← honest, err] at failed
              exact Bool.false_ne_true failed
            · rw [whole] at part
              exact absurd part (by decide)

/-! ### The check of the output -/

/-- `fd` and `zfd` are closed, and what the check opens too. -/
theorem closeFds_tidy {h : Held} {zfd : Nat} {size : Int}
    (owns : h.fds.Owns [zfd, fd] ∧ zfd ≠ stdoutFileno ∨ h.fds.Owns [fd] ∧ zfd = stdoutFileno) :
    Tidy (closeFds o sys found fd zfd size h).calls := by
  have closed : (if zfd = stdoutFileno then h.fds.closes fd
      else (h.fds.closes fd).closes zfd).Owns [] := by
    rcases owns with ⟨both, isFile⟩ | ⟨one, isStdout⟩
    · rw [if_neg isFile]
      exact both.closes_second.closes_first
    · rw [if_pos isStdout]
      exact one.closes_first
  unfold closeFds
  simp only
  split
  · exact closed.opens.closes_first.tidy_iff.mpr rfl
  · exact closed.tidy_iff.mpr rfl

/-- The new file is the only one that may be left. -/
theorem clean_left_iff {d : Process} {size : Int} {fds : FdTable} {zreads : List (Option Bytes)}
    (opened : Opened found.outfile p q) (names : d.fs.names = q.fs.names) (tidy : Tidy fds.calls)
    (message : String) :
    Clean p ⟨-1, size, (-1 : Int) ≠ -1⟩ ⟨d.maybeWarn message, fds, zreads⟩ ↔
      size ≠ -1 ∧ ((d.fs.inodes p.fs.next).content.length : Int) = size := by
  have output : d.fs.names found.outfile = some p.fs.next := by
    rw [names, opened.output]
  constructor
  · exact fun clean => clean.whole found.outfile p.fs.next output (Nat.le_refl _)
  · intro whole
    refine ⟨tidy, fun path i named new => ?_⟩
    have named : d.fs.names path = some i := named
    by_cases isOut : path = found.outfile
    · rw [isOut, output, Option.some.injEq] at named
      subst named
      exact whole
    · rw [names, opened.others isOut] at named
      exact absurd (p.fs.fresh named) (Nat.not_lt.mpr new)

theorem not_fails {size : Int} (good : size ≠ -1) :
    ¬ (⟨size, size, size ≠ -1⟩ : FileReturn).Fails := by
  rintro (undone | minus)
  · exact absurd good (by simpa using undone)
  · exact good minus

/-- An output that cannot be looked at is left, with a message. -/
theorem uncompressCheck_unseen {d : Process} {size : Int} (cflag : o.cflag = false)
    (ends : size ≠ -1) (tflag : o.tflag = false)
    (unseen : sys.reopens = false ∨ sys.restats = false)
    (named : d.fs.names found.outfile ≠ none) :
    ∃ message, uncompressCheck o sys file found size d = (-1, d.maybeWarn message) := by
  unfold uncompressCheck
  rw [if_neg ends, if_neg (by simp [tflag, cflag])]
  cases reopens : sys.reopens with
  | false => exact ⟨_, rfl⟩
  | true =>
    have restats : sys.restats = false := unseen.resolve_left (by simp [reopens])
    rw [if_pos rfl]
    cases isOut : d.fs.names found.outfile with
    | none => exact absurd isOut named
    | some i =>
      simp only [restats, if_true]
      exact ⟨_, rfl⟩

/-- What is left of the output behind its check. -/
theorem uncompressCheck_clean {d d' : Process} {size value : Int} {fds : FdTable}
    {zreads : List (Option Bytes)} (cflag : o.cflag = false) (opened : Opened found.outfile p q)
    (names : d.fs.names = q.fs.names) (tidy : Tidy fds.calls)
    (check : uncompressCheck o sys file found size d = (value, d')) :
    ((⟨value, size, value ≠ -1⟩ : FileReturn).Fails →
        Clean p ⟨value, size, value ≠ -1⟩ ⟨d', fds, zreads⟩) ↔
      ¬ (o.tflag = false ∧ (sys.reopens = false ∨ sys.restats = false) ∧ size ≠ -1 ∧
        ((d.fs.inodes p.fs.next).content.length : Int) ≠ size) := by
  have output : d.fs.names found.outfile = some p.fs.next := by
    rw [names, opened.output]
  have gone (m : String) : NoNew p ((d.maybeWarn m).unlink found.outfile) :=
    @Opened.noNew p (d.maybeWarn m) q _ opened names
  by_cases unseen : o.tflag = false ∧ (sys.reopens = false ∨ sys.restats = false) ∧ size ≠ -1
  · obtain ⟨tflag, why, ends⟩ := unseen
    obtain ⟨message, left⟩ := @uncompressCheck_unseen o sys file found d size cflag ends tflag why
      (by rw [output]; exact Option.some_ne_none _)
    rw [left] at check
    cases check
    have whole := @clean_left_iff p q found d size fds zreads opened names tidy message
    constructor
    · exact fun clean spills => spills.2.2.2 (whole.mp (clean (.inl rfl))).2
    · intro spills _
      refine whole.mpr ⟨ends, ?_⟩
      exact Classical.byContradiction fun wrong => spills ⟨tflag, why, ends, wrong⟩
  · -- What fails here takes the output away.
    refine iff_of_true (fun fails => ?_) fun spills => unseen ⟨spills.1, spills.2.1, spills.2.2.1⟩
    unfold uncompressCheck at check
    simp only [cflag, Bool.false_eq_true, or_false, if_false] at check
    by_cases failed : size = -1
    · rw [if_pos failed] at check
      cases check
      exact NoNew.clean (gone "uncompress failed") tidy
    · rw [if_neg failed] at check
      split at check
      · cases check
        exact (not_fails failed fails).elim
      next tflag =>
        rw [Bool.not_eq_true] at tflag
        have seen := fun why => unseen ⟨tflag, why, failed⟩
        obtain ⟨reopens, restats⟩ := not_or.mp seen
        rw [Bool.not_eq_false] at reopens restats
        rw [reopens, if_pos rfl, output] at check
        simp only [restats, Bool.true_eq_false, if_false] at check
        split at check
        · cases check
          exact NoNew.clean (gone "stat gave different size (leaving original)") tidy
        · cases check
          exact (not_fails failed fails).elim

/-! ### From the switch to the end -/

theorem flush_whole {bytes : Bytes} {d : Departure} (whole : (d.flush bytes).1 = true) :
    (d.flush bytes).2 = bytes := by
  cases d with
  | fails => cases whole
  | stores n =>
    have fits : bytes.length ≤ n := by simpa [Departure.flush] using whole
    exact List.take_of_length_le fits

/-- A copy without an error is as long as `zuncompress` says. -/
theorem zCopy_whole (cflag : o.cflag = false) (method : found.method = .z)
    (opened : Opened found.outfile p q) (good : ¬ ZBroken o f) (content : Bytes)
    (tflag : o.tflag = false) (ends : (zuncompress o.tflag f.z f.zread).1 ≠ -1) :
    (((decoded o found q (zWorld o f content q)).fs.inodes p.fs.next).content.length : Int) =
      (zuncompress o.tflag f.z f.zread).1 := by
  have out : q.fs.next - 1 = p.fs.next := congrArg (· - 1) opened.next
  have whole : (f.z.fclose.flush (zuncompress o.tflag f.z f.zread).2.out).1 = true := by
    rw [← Bool.not_eq_false]
    exact fun part => good (.inr part)
  have stored : (decoded o found q (zWorld o f content q)).fs =
      q.fs.store p.fs.next (zWorld o f content q).output := by
    unfold decoded
    rw [if_neg (by simp [cflag, method]), out]
  have copied : (zWorld o f content q).output = (zuncompress o.tflag f.z f.zread).2.out := by
    show (if o.cflag then q.stdout else []) ++ _ = _
    rw [cflag, if_neg Bool.false_ne_true, List.nil_append, flush_whole whole]
  rw [stored, Fs.store_content_self, copied]
  exact (zuncompress_counts o.tflag f.z f.zread).2 tflag ends

theorem zSpills_unopened (no : f.z.zdopen = false ∨ f.z.dup = false) :
    ZSpills o f ↔ o.cflag = false := by
  have one : ¬ (f.z.zdopen = true ∧ f.z.dup = true) := by
    rintro ⟨zdopen, dup⟩
    rw [zdopen, dup] at no
    exact absurd no (by decide)
  constructor
  · rintro (⟨-, cflag⟩ | ⟨both, -⟩ | ⟨opens, -⟩)
    · exact cflag
    · exact absurd both one
    · exact absurd ⟨opens.1, opens.2.1⟩ one
  · exact fun cflag => .inl ⟨no, cflag⟩

theorem ZOpens.spills_iff (opens : ZOpens f) : ZSpills o f ↔ ZBroken o f ∧ o.cflag = false := by
  obtain ⟨zdopen, dup, fdopen⟩ := opens
  simp [ZSpills, ZOpens, zdopen, dup, fdopen]

/-- FT_Z with a file for its output. -/
theorem switchZ_file_clean {zfd : Nat} (cflag : o.cflag = false) (method : found.method = .z)
    (opened : Opened found.outfile p q) (owns : fds.Owns [zfd, fd]) (isFile : zfd ≠ stdoutFileno)
    (content : Bytes) {size : Option Int} {h : Held}
    (ends : ZEnds o f found content ⟨q, fds, []⟩ [zfd, fd] (size, h)) :
    FailsClean p (switched o sys file found fd zfd (some (.returns size h))) ↔ ¬ ZSpills o f := by
  have held : fd ∈ [zfd, fd] := List.mem_cons_of_mem _ List.mem_cons_self
  cases ends with
  | unopened no message =>
    rw [zSpills_unopened no]
    refine iff_of_false (fun clean => ?_) (not_not_intro cflag)
    exact lose_untidy owns held isFile (failsClean_returns.mp clean (.inl rfl)).tidy
  | leaked yes no message leaks =>
    refine iff_of_false (fun clean => ?_) (fun spills => spills (.inr (.inl ⟨yes, no⟩)))
    exact lose_untidy leaks (List.mem_cons_of_mem _ held) isFile
      (failsClean_returns.mp clean (.inl rfl)).tidy
  | broken opens broken closed gone status =>
    rw [opens.spills_iff]
    refine iff_of_false (fun clean => ?_) (not_not_intro ⟨broken, cflag⟩)
    exact lose_untidy closed held isFile (failsClean_returns.mp clean (.inl rfl)).tidy
  | copied opens good closed =>
    rw [opens.spills_iff]
    refine iff_of_true ?_ fun both => good both.1
    simp only [switched]
    rw [failsClean_returns]
    refine (uncompressCheck_clean cflag opened (decoded_names _) (closeFds_tidy ?_) rfl).mpr ?_
    · exact .inl ⟨closed, isFile⟩
    · rintro ⟨tflag, -, ends, wrong⟩
      exact wrong (zCopy_whole cflag method opened good content tflag ends)

theorem decoded_stream (cflag : o.cflag = true) (w : World) :
    (decoded o found p w).fs = p.fs := by
  unfold decoded
  rw [if_pos (.inl cflag)]
  rfl

/-- With `-c` there is no file that could be left. -/
theorem uncompressCheck_stream {d d' : Process} {size value : Int} {fds : FdTable}
    {zreads : List (Option Bytes)} (cflag : o.cflag = true) (kept : d.fs = p.fs)
    (tidy : Tidy fds.calls) (check : uncompressCheck o sys file found size d = (value, d')) :
    (⟨value, size, value ≠ -1⟩ : FileReturn).Fails →
      Clean p ⟨value, size, value ≠ -1⟩ ⟨d', fds, zreads⟩ := by
  intro fails
  unfold uncompressCheck at check
  by_cases failed : size = -1
  · rw [if_pos failed, if_pos cflag] at check
    cases check
    exact NoNew.clean (noNew_same kept) tidy
  · rw [if_neg failed, if_pos (.inr cflag)] at check
    cases check
    rcases fails with undone | minus
    · exact absurd failed (by simpa using undone)
    · exact absurd minus failed

/-- FT_Z with standard output. -/
theorem switchZ_stream_clean (cflag : o.cflag = true) (owns : fds.Owns [fd]) (content : Bytes)
    {size : Option Int} {h : Held} (ends : ZEnds o f found content ⟨p, fds, []⟩ [fd] (size, h)) :
    FailsClean p (switched o sys file found fd stdoutFileno (some (.returns size h))) ↔
      ¬ ZSpills o f := by
  have noFile : ¬ o.cflag = false := by simp [cflag]
  cases ends with
  | unopened no message =>
    rw [zSpills_unopened no]
    refine iff_of_true (failsClean_returns.mpr fun _ => ?_) noFile
    exact NoNew.clean (noNew_same rfl) (lose_tidy owns).2
  | leaked yes no message leaks =>
    refine iff_of_false (fun clean => ?_) (fun spills => spills (.inr (.inl ⟨yes, no⟩)))
    -- The copy of the descriptor is left.
    have tidy := (failsClean_returns.mp clean (.inl rfl)).tidy
    simp only [lose, if_pos] at tidy
    exact absurd (leaks.closes_second.tidy_iff.mp tidy) (by simp)
  | broken opens broken closed gone status =>
    rw [opens.spills_iff]
    refine iff_of_true (failsClean_returns.mpr fun _ => ?_) fun both => noFile both.2
    exact NoNew.clean (gone.noNew (.inr rfl)) (lose_tidy closed).2
  | copied opens good closed =>
    rw [opens.spills_iff]
    refine iff_of_true ?_ fun both => good both.1
    simp only [switched]
    rw [failsClean_returns]
    exact uncompressCheck_stream cflag (decoded_stream cflag _)
      (closeFds_tidy (.inr ⟨closed, rfl⟩)) rfl

/-! ### The whole of file_uncompress -/

/-- Without a new file the checks on the output change nothing. -/
theorem uncompressOutput_noFile (noFile : o.cflag = true ∨ o.lflag = true)
    (ok : uncompressOutput o sys found p = .ok q) : q = p := by
  unfold uncompressOutput at ok
  split at ok
  · cases ok
    rfl
  next list =>
    have lflag : o.lflag = true := by
      rcases noFile with cflag | lflag
      · exact (Bool.eq_false_or_eq_true o.lflag).resolve_right fun no => list ⟨cflag, no⟩
      · exact lflag
    have check : checkOutfile o sys found.outfile p = (true, p) := by
      unfold checkOutfile
      rw [if_neg (by simp [lflag])]
    simp only [lflag, check, Bool.true_eq_false, if_false] at ok
    split at ok
    · cases ok
    · split at ok
      · cases ok
      · cases ok
        rfl

/-- The other types with a file for their output. -/
theorem switchOthers_file_clean {zfd : Nat} (cflag : o.cflag = false)
    (opened : Opened found.outfile p q) (owns : fds.Owns [zfd, fd]) (isFile : zfd ≠ stdoutFileno)
    (other : found.method ≠ .z) (content : Bytes) :
    FailsClean p (switched o sys file found fd zfd
        (switchType o f uncompress others file found content ⟨q, fds, []⟩)) ↔
      ¬ (o.tflag = false ∧ (sys.reopens = false ∨ sys.restats = false) ∧ ∃ size w,
        runDecoder o uncompress others file found content q = some (.returns size w) ∧
          size ≠ -1 ∧ (((decoded o found q w).fs.inodes p.fs.next).content.length : Int) ≠ size) := by
  unfold switchType
  rw [if_neg other]
  rcases runDecoder o uncompress others file found content q with _ | ⟨size, w⟩ | ⟨status, w⟩
  · exact iff_of_true (by rintro _ _ ⟨⟩) (by rintro ⟨-, -, _, _, ⟨⟩, -⟩)
  · simp only [switched]
    rw [failsClean_returns]
    refine (uncompressCheck_clean cflag opened (decoded_names _)
      (closeFds_tidy (.inl ⟨owns, isFile⟩)) rfl).trans (not_congr ?_)
    simp
  · exact iff_of_true (failsClean_exits status) (by rintro ⟨-, -, _, _, ⟨⟩, -⟩)

theorem switchOthers_stream_clean (cflag : o.cflag = true) (owns : fds.Owns [fd])
    (other : found.method ≠ .z) (content : Bytes) :
    FailsClean p (switched o sys file found fd stdoutFileno
      (switchType o f uncompress others file found content ⟨p, fds, []⟩)) := by
  unfold switchType
  rw [if_neg other]
  rcases runDecoder o uncompress others file found content p with _ | ⟨size, w⟩ | ⟨status, w⟩
  · rintro _ _ ⟨⟩
  · simp only [switched]
    rw [failsClean_returns]
    exact uncompressCheck_stream cflag (decoded_stream cflag _)
      (closeFds_tidy (.inr ⟨owns, rfl⟩)) rfl
  · exact failsClean_exits status

/-- `file_uncompress` leaves things clean unless one of the failures happens that it does not clean
up behind. -/
theorem fileUncompress_clean_iff :
    FailsClean p (fileUncompressFds o sys f uncompress others file p used) ↔
      ¬ UncompressSpills o sys f uncompress others file p used := by
  have one := (FdTable.Owns.begins used).opens
  unfold fileUncompressFds
  cases opens : (if sys.opens then p.fs.names file else none) with
  -- The input is not opened: neither a descriptor nor a file is new.
  | none =>
    have input : uncompressInput o sys file p = .error (p.maybeWarn "can't open") := by
      rw [uncompressInput, opens]
    refine iff_of_true (failsClean_returns.mpr fun _ => ?_) ?_
    · exact NoNew.clean (noNew_same rfl) ((FdTable.Owns.begins used).tidy_iff.mpr rfl)
    · rintro ⟨-, found, q, ok, -⟩
      rw [input] at ok
      cases ok
  | some j =>
    simp only
    cases input : uncompressInput o sys file p with
    -- Every check of the input that fails closes the descriptor.
    | error q =>
      refine iff_of_true (failsClean_returns.mpr fun _ => ?_) ?_
      · exact NoNew.clean (noNew_same (uncompressInput_error input)) (lose_tidy one).1
      · rintro ⟨-, found, q, ok, -⟩
        rw [input] at ok
        cases ok
    | ok found =>
      simp only
      cases output : uncompressOutput o sys found p with
      -- So does every check of the output. It may have unlinked a file, but it made none.
      | error q =>
        refine iff_of_true (failsClean_returns.mpr fun _ => NoNew.clean ?_ (lose_tidy one).1) ?_
        · rcases uncompressOutput_error output with same | unlinked
          · exact noNew_same same
          · have kept := (@noNew_same p p rfl).unlink found.outfile
            intro path i named
            rw [unlinked] at named
            exact kept path i named
        · rintro ⟨-, found', q, ok, ok', -⟩
          rw [input] at ok
          cases ok
          rw [output] at ok'
          cases ok'
      | ok q =>
        simp only
        cases lflag : o.lflag with
        | true =>
          obtain rfl := uncompressOutput_noFile (.inr lflag) output
          rw [openZfd_stream (.inr lflag)]
          simp only [if_true]
          refine iff_of_true (failsClean_returns.mpr fun _ => NoNew.clean ?_ (lose_tidy one).2) ?_
          · exact noNew_same (listed_fs _ _ _ _)
          · rintro ⟨no, -⟩
            exact absurd (lflag.symm.trans no) (by decide)
        | false =>
          -- With both checks passed and no list, one of the three spills is left to tell apart.
          have spills_iff : UncompressSpills o sys f uncompress others file p used ↔
              (o.cflag = false ∧ lowest (lowest used :: used) = stdoutFileno ∧
                f.dupStdout = false ∨
              found.method = .z ∧ ZSpills o f ∨
              found.method ≠ .z ∧ o.cflag = false ∧ o.tflag = false ∧
                (sys.reopens = false ∨ sys.restats = false) ∧
                  ∃ size w, runDecoder o uncompress others file found
                      (p.fs.inodes found.inode).content q = some (.returns size w) ∧ size ≠ -1 ∧
                    (((decoded o found q w).fs.inodes p.fs.next).content.length : Int) ≠ size) := by
            simp [UncompressSpills, lflag, input, output]
          rw [spills_iff]
          cases cflag : o.cflag with
          | true =>
            obtain rfl := uncompressOutput_noFile (.inl cflag) output
            rw [openZfd_stream (.inl cflag)]
            simp only [Bool.false_eq_true, if_false]
            by_cases method : found.method = .z
            · rw [switchType, if_pos method]
              refine (switchZ_stream_clean cflag one _ (switchZ_ends _ one)).trans (not_congr ?_)
              simp [method]
            · refine iff_of_true (switchOthers_stream_clean cflag one method _) ?_
              simp [method]
          | false =>
            have opened : Opened found.outfile p q := by
              rcases uncompressOutput_ok cflag output with ⟨list, -⟩ | ⟨-, opened⟩
              · exact absurd (lflag.symm.trans list) (by decide)
              · exact opened
            rcases openZfd_file cflag lflag one with ⟨fds, isNone, owns, stdout, dups⟩ |
              ⟨zfd, fds, isZfd, owns, isFile, other⟩
            · rw [isNone]
              simp only
              -- The new file stays when standard output cannot be saved.
              refine iff_of_false (fun clean => ?_)
                (fun spills => spills (.inl ⟨trivial, stdout, dups⟩))
              exact not_clean_left opened.output (.inl rfl) (failsClean_returns.mp clean (.inl rfl))
            · have other : ¬ (lowest (lowest used :: used) = stdoutFileno ∧ f.dupStdout = false) :=
                other
              rw [isZfd]
              simp only [Bool.false_eq_true, if_false]
              by_cases method : found.method = .z
              · rw [switchType, if_pos method]
                refine (switchZ_file_clean cflag method opened owns isFile _
                  (switchZ_ends _ owns)).trans (not_congr ?_)
                simp [method, other]
              · refine (switchOthers_file_clean cflag opened owns isFile method _).trans
                  (not_congr ?_)
                simp [method, other]

end

/-- Both functions leave things clean when they fail, but for the failures named. -/
theorem file_failures_clean_iff (o : Options) (sys : Sys) (f : FdSys) (compress : CompressFn)
    (uncompress : UncompressFn) (others : OtherFn) (file : Path) (p : Process) (used : List Nat) :
    (FailsClean p (fileCompressFds o sys compress file p used) ↔
      ¬ CompressSpills o sys compress file p) ∧
    (FailsClean p (fileUncompressFds o sys f uncompress others file p used) ↔
      ¬ UncompressSpills o sys f uncompress others file p used) :=
  ⟨fileCompress_clean_iff, fileUncompress_clean_iff⟩

/-! ## A corrupt file -/

/-- All calls on streams work, and `zread` gives this. -/
def FdSys.gives (answers : List (Option Bytes)) : FdSys :=
  ⟨true, ⟨true, true, true, true, fun _ => .stores bufSize, .stores bufSize⟩, answers⟩

/-- No options, and the suffix of compress(1) among the others. -/
def Options.plainZ : Options := { Options.plain with suffixes := [⟨[0x2e, 0x5a], []⟩] }

/-- The file x.Z with a first code that is none of its table. -/
def Process.badZ : Process :=
  .starts (Fs.single [0x78, 0x2e, 0x5a] [0x1f, 0x9d, 0x8c, 0x2c, 0x01])

/-- When `zread` refuses the file, the input is closed twice and the output never. -/
theorem bad_z_untidy : ¬ ∀ (o : Options) (sys : Sys) (f : FdSys) (compress : CompressFn)
    (uncompress : UncompressFn) (others : OtherFn) (file : Path) (p : Process) (used : List Nat),
      FailsClean p (fileCompressFds o sys compress file p used) ∧
        FailsClean p (fileUncompressFds o sys f uncompress others file p used) := by
  intro all
  have clean := (all .plainZ .good (.gives [none]) (fun _ _ _ => none) (fun _ _ _ => none)
    (fun _ _ => none) [0x78, 0x2e, 0x5a] .badZ [0, 1, 2]).2
  obtain ⟨r, h, ran, fails, calls⟩ : ∃ r h,
      fileUncompressFds .plainZ .good (.gives [none]) (fun _ _ _ => none) (fun _ _ => none)
        [0x78, 0x2e, 0x5a] .badZ [0, 1, 2] = some (.returns r h) ∧ r.Fails ∧
        h.fds.calls = [.opens 3, .opens 4, .opens 5, .closes 5, .closes 3, .closes 3] :=
    ⟨_, _, rfl, .inl rfl, rfl⟩
  have tidy := tidy_settle.mp (clean r h ran fails).tidy
  rw [calls] at tidy
  exact absurd tidy (by decide)

end CheriGzip.Gzip
