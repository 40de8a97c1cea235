import CheriGzip.Gzip.ExitStatus
import CheriGzip.Gzip.FileClean
import CheriGzip.Gzip.ZreadEnds

/-!
# Corrupt .Z files

`zread` answers -1 in the middle of a file. `file_uncompress` finds that out by `ferror`, and takes
the name that it made for the output away; `handle_stdin` does not ask.
-/
namespace CheriGzip.Gzip.Main

open Zread (zdopen Gives zread_gives)

/-! ## In file mode -/

/-- The run fails, the name of the input is where it was, and there is no new file. -/
structure Reported (file : Path) (old q : Process) : Prop where
  status : q.exitValue ≠ 0
  input : q.fs.names file = old.fs.names file
  output : NoNew old q

section

variable {o : Options} {sys : Sys} {f : FdSys} {uncompress : UncompressFn} {others : OtherFn}
  {file : Path} {p q : Process} {used : List Nat} {found : Found}

/-- Behind an error of the stream only the output's name has gone. -/
theorem gone_reported_iff (input : p.fs.names file = some found.inode)
    (opened : Opened found.outfile p q ∨ q = p) {q' : Process} (gone : Gone found.outfile q q')
    (status : q'.exitValue ≠ 0) : Reported file p q' ↔ found.outfile ≠ file := by
  constructor
  -- An output with the input's name takes the input away.
  · intro reported same
    have named := reported.input
    rw [← same, gone.gone, same, input] at named
    cases named
  · intro other
    refine ⟨status, ?_, gone.noNew opened⟩
    rw [gone.others (Ne.symm other)]
    rcases opened with opened | rfl
    · exact opened.others (Ne.symm other)
    · rfl

theorem openZfd_owns {fds fds' : FdTable} {fd zfd : Nat} (lflag : o.lflag = false)
    (isZfd : openZfd o f fds = (some zfd, fds')) (owns : fds.Owns [fd]) :
    ∃ mine, fds'.Owns mine := by
  cases cflag : o.cflag with
  | true =>
    rw [openZfd_stream (.inl cflag)] at isZfd
    cases isZfd
    exact ⟨_, owns⟩
  | false =>
    rcases openZfd_file cflag lflag owns with ⟨_, isNone, -⟩ | ⟨_, _, isFile, owns', -⟩
    · rw [isZfd] at isNone
      cases isNone
    · rw [isZfd] at isFile
      cases isFile
      exact ⟨_, owns'⟩

theorem uncompressOutput_opened (ok : uncompressOutput o sys found p = .ok q) :
    Opened found.outfile p q ∨ q = p := by
  cases cflag : o.cflag with
  | true => exact .inr (uncompressOutput_noFile (.inl cflag) ok)
  | false =>
    rcases uncompressOutput_ok cflag ok with ⟨-, same⟩ | ⟨-, opened⟩
    · exact .inr same
    · exact .inl opened

/-- A corrupt file in file mode: the run comes to its end, and reports it unless the output has the
name of the input. -/
theorem fileUncompress_reports (input : uncompressInput o sys file p = .ok found)
    (method : found.method = .z) :
    ∃ r h, fileUncompressFds o sys f uncompress others file p used = some (.returns r h) ∧
      (none ∈ h.zreads → (Reported file p h.p ↔ found.outfile ≠ file)) := by
  have named := (uncompressInput_ok input).1
  have one := (FdTable.Owns.begins used).opens
  unfold fileUncompressFds
  -- Each exit before the switch reads nothing by `zread`.
  cases opens : (if sys.opens then p.fs.names file else none) with
  | none => exact ⟨_, _, rfl, by simp⟩
  | some j =>
    simp only [input]
    cases output : uncompressOutput o sys found p with
    | error q => exact ⟨_, _, rfl, by simp⟩
    | ok q =>
      simp only
      cases isZfd : openZfd o f (FdTable.opens ⟨used, []⟩).2 with
      | mk zfd fds =>
        cases zfd with
        | none => exact ⟨_, _, rfl, by simp⟩
        | some zfd =>
          simp only
          cases lflag : o.lflag with
          | true => exact ⟨_, _, rfl, by simp⟩
          | false =>
            obtain ⟨mine, owns⟩ := openZfd_owns lflag isZfd one
            simp only [Bool.false_eq_true, if_false, switchType, if_pos method]
            have ends := @switchZ_ends o f found ⟨q, fds, []⟩ mine
              (p.fs.inodes found.inode).content owns
            generalize switchZ o f found _ ⟨q, fds, []⟩ = ended at ends
            -- Of the four ends of FT_Z, a failed `zread` leads to the one with `ferror`.
            cases ends with
            | unopened no message => exact ⟨_, _, rfl, by simp⟩
            | leaked yes no message leaks => exact ⟨_, _, rfl, by simp⟩
            | broken opens broken closed gone status =>
              exact ⟨_, _, rfl, fun _ =>
                gone_reported_iff named (uncompressOutput_opened output) gone status⟩
            | copied opens good closed =>
              exact ⟨_, _, rfl, fun failed => (good (.inl failed)).elim⟩

end

/-! ## In stdin mode -/

/-- FT_Z of `handle_stdin`. So many bytes of standard input are in the buffers at the end. -/
def stdinZ (tflag : Bool) (f : FdSys) (ahead : Nat) (w : World) : Ran Int :=
  if f.z.zdopen = false then .returns (-1) (w.maybeWarn "zopen of stdin")
  else
    let (size, s) := zuncompress tflag f.z f.zread
    .returns size { w with
      input := w.input.drop ahead
      output := w.output ++ (f.z.fclose.flush s.out).2 }

/-- The decoders with this one for FT_Z. -/
def Others.withZ (others : Others) (tflag : Bool) (f : FdSys) (ahead : Nat) : Others :=
  fun method pre w => if method = .z then stdinZ tflag f ahead w else others method pre w

/-- `handle_stdin` gets to FT_Z with this header and this world. -/
structure StdinZ (cmd : Command) (answers : Answers) (p : Process) (header1 : Bytes) (w : World) :
    Prop where
  tty : ¬ (cmd.options.fflag = false ∧ cmd.options.lflag = false ∧ answers.stdinTty)
  lflag : cmd.options.lflag = false
  reads : readRetry answers.env 4 4 (p.world p.stdin p.stdout) = (some header1, w)
  four : header1.length = 4
  method : fileGettype header1 = .z

/-- A file in stdin mode: the run comes to its end, and has said nothing about a file that was read
from. -/
theorem handleStdin_silent {cmd : Command} {answers : Answers} (codecs : Codecs) (others : Others)
    (f : FdSys) (ahead : Nat) {p : Process} {header1 : Bytes} {w : World}
    (gets : StdinZ cmd answers p header1 w) :
    ∃ q, handleStdin cmd answers codecs (others.withZ cmd.options.tflag f ahead) p =
        some (.returns () q) ∧ (f.z.zdopen = true →
          (zuncompress cmd.options.tflag f.z f.zread).2.inp.given ≠ [] →
            q.exitValue = p.exitValue) := by
  have status := (readRetry_exit answers.env 4 4 (p.world p.stdin p.stdout) 0).2
  rw [gets.reads] at status
  have status : w.exitValue = p.exitValue := status
  unfold handleStdin
  rw [if_neg gets.tty, if_neg (by simp [gets.lflag]), gets.reads]
  simp only [gets.four, ne_eq, not_true_eq_false, if_false, decodeStdin, gets.method,
    Others.run, Others.withZ, if_true, stdinZ]
  cases zdopen : f.z.zdopen with
  | false => exact ⟨_, rfl, fun yes => absurd yes Bool.false_ne_true⟩
  | true =>
    refine ⟨_, rfl, fun _ some => ?_⟩
    -- The decoder starts from 0 and leaves 0, so that the old value comes back.
    have silent : (if w.exitValue = 0 then 0 else w.exitValue) = p.exitValue := by
      rw [← status]
      split
      next zero => exact zero.symm
      · rfl
    by_cases test : cmd.vflag ∧ cmd.options.tflag
    · -- What `print_test` looks at is a count.
      have counts : (zuncompress cmd.options.tflag f.z f.zread).1 ≠ -1 := by
        rw [test.2] at some ⊢
        exact fun failed => some (zuncompress_test f.z f.zread failed)
      exact (tested_calm cmd counts).trans silent
    · show Process.exitValue (if cmd.vflag ∧ cmd.options.tflag then _ else _) = p.exitValue
      rw [if_neg test]
      exact silent

/-- The status of a run without operands is what `handle_stdin` leaves in `exit_value`. -/
theorem main_stdin {cmd : Command} {answers : Answers} {codecs : Nat → Codecs} {others : Others}
    {fs : Fs} {stdin : Bytes} {q : Process} (none : cmd.operands = []) (dflag : cmd.dflag = true)
    (ran : handleStdin cmd answers (codecs 0) others (Process.begins fs stdin) =
      some (.returns () q)) : main cmd answers codecs others fs stdin = some q.exitValue := by
  unfold main runMain
  rw [if_pos none, Command.stream, if_pos dflag]
  simp only [runJobs, runJob, ran, Option.map_some, exitStatus]

/-- The status of a run on one file is what `file_uncompress` leaves in `exit_value`, or 1 where it
was 0 and a test fails. -/
theorem main_file {cmd : Command} {answers : Answers} {codecs : Nat → Codecs} {others : Others}
    {fs : Fs} {stdin : Bytes} {path : Path} {file : Capsicum.CName} (one : cmd.operands = [path])
    (dflag : cmd.dflag = true) (names : handlePathname cmd answers path fs = [.file file])
    {size : Int} {q : Process}
    (ran : fileUncompress cmd.options (answers.sys 0) (codecs 0).uncompress
      (fun method w => some (others.run [] method w)) file.bytes (Process.begins fs stdin) =
        some (.returns size q)) :
    main cmd answers codecs others fs stdin = some (tested cmd size q).exitValue := by
  unfold main runMain
  rw [one, if_neg (List.cons_ne_nil _ _)]
  have begun : (Process.begins fs stdin).fs = fs := rfl
  simp only [runOperands, begun, names, runJobs, runJob, handleFile, if_pos dflag, ran,
    Option.map_some, exitStatus]

/-! ## Both modes -/

/-- A file that `zread` refuses is reported in file mode exactly when its output has another name,
and in stdin mode never: the exit status is nonzero exactly when it was before. Every file has
answers of `zread`. -/
theorem corrupt_z_reported_iff (num : Nat) (f : FdSys) (p : Process) :
    (∀ (o : Options) (sys : Sys) (uncompress : UncompressFn) (others : OtherFn) (file : Path)
      (used : List Nat) (found : Found),
        uncompressInput o sys file p = .ok found → found.method = .z →
        Gives num (zdopen [] (p.fs.inodes found.inode).content) f.zread →
          ∃ r h, fileUncompressFds o sys f uncompress others file p used = some (.returns r h) ∧
            (none ∈ h.zreads → (Reported file p h.p ↔ found.outfile ≠ file))) ∧
    (∀ (cmd : Command) (answers : Answers) (codecs : Codecs) (others : Others) (ahead : Nat)
      (header1 : Bytes) (w : World),
        StdinZ cmd answers p header1 w → Gives num (zdopen header1 w.input) f.zread →
        f.z.zdopen = true → none ∈ (zuncompress cmd.options.tflag f.z f.zread).2.inp.given →
          ∃ q, handleStdin cmd answers codecs (others.withZ cmd.options.tflag f ahead) p =
            some (.returns () q) ∧ (q.exitValue ≠ 0 ↔ p.exitValue ≠ 0)) ∧
    ∀ pre file : Bytes, num ≠ 0 → ∃ answers, Gives num (zdopen pre file) answers := by
  refine ⟨?_, ?_, fun pre file some => zread_gives some pre file⟩
  -- In file mode the condition is on the two names alone.
  · intro o sys uncompress others file used found input method _
    exact fileUncompress_reports input method
  -- In stdin mode the answer -1 is one that `fread` has taken.
  · intro cmd answers codecs others ahead header1 w gets _ zdopen failed
    obtain ⟨q, ran, same⟩ := handleStdin_silent codecs others f ahead gets
    exact ⟨q, ran, by rw [same zdopen (List.ne_nil_of_mem failed)]⟩

/-! ## A file with a code that is not in the table -/

/-- The bytes of the file. -/
def badBytes : Bytes := [0x1f, 0x9d, 0x8c, 0x2c, 0x01]

theorem bad_gives : Gives 1024 (zdopen [] badBytes) [none] ∧
    Gives 1024 (zdopen [0x1f, 0x9d, 0x8c, 0x2c] [0x01]) [none] :=
  ⟨@Gives.fails 1024 (zdopen [] badBytes) _ .einval ⟨1, rfl⟩ (.inr rfl) [] (by simp),
    @Gives.fails 1024 (zdopen [0x1f, 0x9d, 0x8c, 0x2c] [0x01]) _ .einval ⟨1, rfl⟩ (.inr rfl) []
      (by simp)⟩

/-- `gzip -d x.Z` reports it, and `gzip -d` does not. -/
theorem corrupt_z_reported_bad :
    (∃ r h, fileUncompressFds .plainZ .good (.gives [none]) (fun _ _ _ => none) (fun _ _ => none)
        [0x78, 0x2e, 0x5a] .badZ [0, 1, 2] = some (.returns r h) ∧
      Reported [0x78, 0x2e, 0x5a] .badZ h.p) ∧
    ∃ q, handleStdin .fromStdin (.good (.steady 64)) ⟨fun _ _ _ => none, fun _ _ _ => none⟩
        (Others.none.withZ false (.gives [none]) 5) (Process.begins (.single [0x61] []) badBytes) =
      some (.returns () q) ∧ ¬ q.exitValue ≠ 0 := by
  constructor
  · obtain ⟨r, h, ran, iff⟩ := (corrupt_z_reported_iff 1024 (.gives [none]) .badZ).1 .plainZ .good
      (fun _ _ _ => none) (fun _ _ => none) [0x78, 0x2e, 0x5a] [0, 1, 2] ⟨0, [0x78], .z⟩ rfl rfl
      bad_gives.1
    have isRun : fileUncompressFds .plainZ .good (.gives [none]) (fun _ _ _ => none)
        (fun _ _ => none) [0x78, 0x2e, 0x5a] .badZ [0, 1, 2] = some (.returns .lost _) := rfl
    have reads : none ∈ h.zreads := by
      rw [isRun] at ran
      cases ran
      exact List.mem_singleton_self _
    exact ⟨r, h, ran, (iff reads).mpr (by decide)⟩
  · obtain ⟨q, ran, iff⟩ := (corrupt_z_reported_iff 1024 (.gives [none])
      (Process.begins (.single [0x61] []) badBytes)).2.1 .fromStdin (.good (.steady 64))
      ⟨fun _ _ _ => none, fun _ _ _ => none⟩ Others.none 5 [0x1f, 0x9d, 0x8c, 0x2c] _
      ⟨by decide, rfl, rfl, rfl, rfl⟩ bad_gives.2 rfl (by decide)
    exact ⟨q, ran, fun failed => iff.mp failed rfl⟩

/-- `gzip -dc x` removes the file x, and `gzip -d` exits with 0. -/
theorem corrupt_z_unreported :
    (¬ ∀ (o : Options) (sys : Sys) (f : FdSys) (uncompress : UncompressFn) (others : OtherFn)
      (file : Path) (p : Process) (used : List Nat) (found : Found) (num : Nat) (r : FileReturn)
      (h : Held), uncompressInput o sys file p = .ok found → found.method = .z →
        Gives num (zdopen [] (p.fs.inodes found.inode).content) f.zread →
        fileUncompressFds o sys f uncompress others file p used = some (.returns r h) →
        none ∈ h.zreads → Reported file p h.p) ∧
    ¬ ∀ (cmd : Command) (answers : Answers) (codecs : Codecs) (others : Others) (f : FdSys)
      (ahead : Nat) (p q : Process) (header1 : Bytes) (w : World) (num : Nat),
        StdinZ cmd answers p header1 w → Gives num (zdopen header1 w.input) f.zread →
        none ∈ (zuncompress cmd.options.tflag f.z f.zread).2.inp.given →
        handleStdin cmd answers codecs (others.withZ cmd.options.tflag f ahead) p =
          some (.returns () q) → q.exitValue ≠ 0 := by
  constructor
  · intro all
    have reported := all { Options.plainZ with cflag := true } .good (.gives [none])
      (fun _ _ _ => none) (fun _ _ => none) [0x78] (.starts (.single [0x78] badBytes)) [0, 1, 2]
      ⟨0, [0x78], .z⟩ 1024 _ _ rfl rfl bad_gives.1 rfl (List.mem_singleton_self _)
    have gone : none = some 0 := reported.input
    cases gone
  · intro all
    exact all .fromStdin (.good (.steady 64)) ⟨fun _ _ _ => none, fun _ _ _ => none⟩ Others.none
      (.gives [none]) 5 (Process.begins (.single [0x61] []) badBytes) _ [0x1f, 0x9d, 0x8c, 0x2c] _
      1024 ⟨by decide, rfl, rfl, rfl, rfl⟩ bad_gives.2 (List.mem_singleton_self _) rfl rfl

end CheriGzip.Gzip.Main
