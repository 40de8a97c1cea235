import CheriGzip.Gzip.CapsicumAgrees
import CheriGzip.Gzip.FileUncompress

/-!
# main

From the operands to the exit status, in the three builds. What differs between the builds is
what `handle_stdin`, `handle_stdout`, `file_compress` and `file_uncompress` call for the codecs.
-/
namespace CheriGzip.Gzip.Main

open Libcheri (Globals System)
open Capsicum (CName shown offT)

variable {σ τ : Type}

/-! ## The codecs of a build -/

structure Codecs where
  compress : CompressFn
  uncompress : UncompressFn

/-- A run of a wrapper; one that reads outside its request has no result. -/
def endRan : Capsicum.End → Option (Ran Capsicum.Result)
  | .returns r w => some (.returns r w)
  | .exits status w => some (.exits status w)
  | .outside => none

/-- The Capsicum build, with what `gzsandbox_a.c` keeps from earlier calls. -/
def capsicumCodecs (sys : System σ τ) (calls : Capsicum.Calls) (host : Capsicum.Host)
    (fuel : Nat) : Codecs where
  compress origname mtime w :=
    ((Capsicum.gzCompressWrapper sys calls host origname mtime w fuel).1.bind endRan).map
      (Ran.map fun r => ⟨r.retval, r.gsize⟩)
  uncompress pre filename w :=
    ((Capsicum.gzUncompressWrapper sys calls host pre filename w fuel).1.bind endRan).map
      (Ran.map fun r => (r.retval, r.gsize))

/-- The helper counts its warnings in an `exit_value` of its own. What the host gets when the
helper calls `exit` is up to libcheri. -/
def helperRan (exited : World → Ran CResult) (w : World) : Ran CResult → Ran CResult
  | .returns r w' => .returns ⟨r.inTot, offT r.outTot⟩ (w'.exitWith w.exitValue)
  -- `maybe_err`; the host itself leaves by `err(-1, …)`.
  | .exits 2 w' => exited w'
  | .exits status w' => .exits status w'

/-- The libcheri build. Its `gz_uncompress_wrapper` returns -1 and does nothing. -/
def libcheriCodecs (sys : System σ τ) (calls : Libcheri.Calls) (exited : World → Ran CResult)
    (host : Libcheri.Host) (fuel : Nat) : Codecs where
  compress origname mtime w :=
    (Libcheri.gzCompressWrapper sys calls host origname mtime w fuel).1.map (helperRan exited w)
  uncompress _ _ w := some (.returns (-1, 0) w)

/-! ## The other formats -/

/-- `zuncompress`, `unpack` and `cat_fd` with a prefix. They do not look at `exit_value`, and
leave by `maybe_err` if not by return. -/
abbrev Others := Filetype → Bytes → World → Ran Int

def Others.run (others : Others) (pre : Bytes) (method : Filetype) (w : World) : Ran Int :=
  match others method pre (w.exitWith 0) with
  | .returns size w' =>
    .returns size (w'.exitWith (if w.exitValue = 0 then w'.exitValue else w.exitValue))
  | .exits _ w' => .exits 2 w'

/-! ## The command and the system -/

structure Command where
  options : Options
  dflag : Bool
  rflag : Bool
  vflag : Bool
  operands : List Path

/-- An entry that `fts_read` gives: a file, or something that cannot be read. -/
inductive Entry where
  | file (path : CName)
  | bad

/-- What `stat` says of a name that is not a regular file. -/
inductive Node where
  | directory (entries : List Entry)
  | special
  | unreadable

/-- The answers of the system: to the calls on the `k`-th file, to `stat`, to `isatty`, to
`fstat(STDIN_FILENO)`, to `lseek` and `read` of `print_list` on standard input, the time for
standard output, and to `read` and `write`. -/
structure Answers where
  sys : Nat → Sys
  node : Path → Option Node
  stdinTty : Bool
  stdoutTty : Bool
  fstatStdin : Bool
  seekStdin : Bool
  sizeStdin : Arrival
  mtime : Option UInt32
  env : Env

inductive Stat where
  | regular (file : CName)
  | directory (entries : List Entry)
  | special
  | missing
  | failed

def stat (answers : Answers) (fs : Fs) (path : Path) : Stat :=
  match answers.node path with
  | some (.directory entries) => .directory entries
  | some .special => .special
  | some .unreadable => .failed
  | none =>
    if text : path.length < pathMax ∧ 0 ∉ path then
      if fs.names path ≠ none then .regular ⟨path, text.1, text.2⟩ else .missing
    else .failed

/-! ## One thing after the other -/

/-- What an operand comes to: files, the standard streams, or a warning. -/
inductive Job where
  | stdin
  | stdout
  | file (file : CName)
  | warns (message : String)

def Entry.job : Entry → Job
  | .file path => .file path
  | .bad => .warns "fts_read"

/-- The last part of `handle_pathname`. -/
def Stat.jobs (cmd : Command) : Stat → List Job
  | .regular file => [.file file]
  | .directory entries =>
    if cmd.rflag then entries.map Entry.job else [.warns "is a directory"]
  | .special => [.warns "is not a regular file"]
  | .missing => [.warns "can't stat"]
  | .failed => [.warns "can't stat"]

/-- The standard stream that "-" stands for. -/
def Command.stream (cmd : Command) : Job := if cmd.dflag then .stdin else .stdout

/-- `handle_pathname`, which tries the name with the suffix too. -/
def handlePathname (cmd : Command) (answers : Answers) (path : Path) (fs : Fs) : List Job :=
  if path = [0x2d] then [cmd.stream]
  else
    match stat answers fs path with
    | .missing =>
      if cmd.dflag then (stat answers fs (path ++ cmd.options.suffix0.zipped)).jobs cmd
      else Stat.missing.jobs cmd
    | found => found.jobs cmd

/-- `read_retry`. A read takes a byte or is the last one, so that `rounds` as many as there are
bytes to read are enough. -/
def readRetry (env : Env) : (rounds left : Nat) → World → Option Bytes × World
  | 0, _, w => (some [], w)
  | rounds + 1, left, w =>
    if left = 0 then (some [], w)
    else
      match w.read env left with
      | (none, w) => (none, w)
      | (some bytes, w) =>
        if bytes = [] then (some [], w)
        else
          match readRetry env rounds (left - bytes.length) w with
          | (none, w) => (none, w)
          | (some more, w) => (some (bytes ++ more), w)

/-- The process after something was read from standard input and written to standard output. -/
def streamed (p : Process) (w : World) : Process :=
  { p.after w with stdin := w.input, stdout := w.output }

/-- The switch of `handle_stdin`: the decoder for the header. -/
def decodeStdin (codecs : Codecs) (others : Others) (header1 : Bytes) (w : World) :
    Option (Ran Int) :=
  if fileGettype header1 = .gzip then
    -- "(stdin)"
    (codecs.uncompress header1 CName.stdin.bytes w).map (Ran.map Prod.fst)
  else some (others.run header1 (fileGettype header1) w)

/-- `print_test`, which fails a test without a warning -/
def printTest (ok : Bool) (p : Process) : Process :=
  { p with exitValue := if p.exitValue = 0 ∧ ok = false then 1 else p.exitValue }

/-- The end of `handle_stdin` and of `handle_file` after a decoder: with `-tv` its value is looked
at. -/
def tested (cmd : Command) (usize : Int) (p : Process) : Process :=
  if cmd.vflag ∧ cmd.options.tflag then printTest (usize ≠ -1) p else p

/-- `handle_stdin`, without what it prints -/
def handleStdin (cmd : Command) (answers : Answers) (codecs : Codecs) (others : Others)
    (p : Process) : Option (Ran Unit Process) :=
  if cmd.options.fflag = false ∧ cmd.options.lflag = false ∧ answers.stdinTty then
    some (.returns () (p.maybeWarn "standard input is a terminal -- ignoring"))
  else if cmd.options.lflag then
    some (.returns ()
      (if answers.fstatStdin then printList answers.seekStdin answers.sizeStdin p.stdin p
      else p.maybeWarn "fstat"))
  else
    match readRetry answers.env 4 4 (p.world p.stdin p.stdout) with
    | (none, w) => some (.returns () ((streamed p w).maybeWarn "can't read stdin"))
    | (some header1, w) =>
      if header1.length ≠ 4 then
        some (.returns () ((streamed p w).maybeWarn "(stdin): unexpected end of file"))
      else if fileGettype header1 = .unknown ∧ cmd.options.fflag = false then
        some (.returns () ((streamed p w).maybeWarn "unknown compression format"))
      else
        match decodeStdin codecs others header1 w with
        | none => none
        | some (.exits status w) => some (.exits status (streamed p w))
        | some (.returns usize w) => some (.returns () (tested cmd usize (streamed p w)))

/-- `handle_stdout`, without what it prints -/
def handleStdout (cmd : Command) (answers : Answers) (codecs : Codecs) (p : Process) :
    Option (Ran Unit Process) :=
  if cmd.options.fflag = false ∧ answers.stdoutTty then
    some (.returns () (p.maybeWarn "standard output is a terminal -- ignoring"))
  else if answers.fstatStdin = false then
    some (.returns () (p.maybeWarn "Can't stat stdin"))
  else
    match answers.mtime with
    | none => some (.returns () (p.maybeWarn "time"))
    | some mtime =>
      match codecs.compress [] mtime (p.world p.stdin p.stdout) with
      | none => none
      | some (.exits status w) => some (.exits status (streamed p w))
      | some (.returns _ w) => some (.returns () (streamed p w))

/-- `handle_file`, without what it prints -/
def handleFile (cmd : Command) (sys : Sys) (codecs : Codecs) (others : Others) (file : CName)
    (p : Process) : Option (Ran Unit Process) :=
  if cmd.dflag then
    match fileUncompress cmd.options sys codecs.uncompress
      (fun method w => some (others.run [] method w)) file.bytes p with
    | none => none
    | some (.exits status p) => some (.exits status p)
    | some (.returns usize p) => some (.returns () (tested cmd usize p))
  else
    (fileCompress cmd.options sys codecs.compress file.bytes p).map (Ran.map fun _ => ())

def runJob (cmd : Command) (answers : Answers) (codecs : Codecs) (others : Others) (k : Nat)
    (job : Job) (p : Process) : Option (Ran Unit Process) :=
  match job with
  | .stdin => handleStdin cmd answers codecs others p
  | .stdout => handleStdout cmd answers codecs p
  | .file file => handleFile cmd (answers.sys k) codecs others file p
  | .warns message => some (.returns () (p.maybeWarn message))

/-- The jobs one after the other; it leaves the number of the next one. -/
def runJobs (cmd : Command) (answers : Answers) (codecs : Nat → Codecs) (others : Others) :
    List Job → Nat → Process → Option (Ran Nat Process)
  | [], k, p => some (.returns k p)
  | job :: jobs, k, p =>
    match runJob cmd answers (codecs k) others k job p with
    | none => none
    | some (.exits status p) => some (.exits status p)
    | some (.returns _ p) => runJobs cmd answers codecs others jobs (k + 1) p

/-- The loop over the operands. -/
def runOperands (cmd : Command) (answers : Answers) (codecs : Nat → Codecs) (others : Others) :
    List Path → Nat → Process → Option (Ran Nat Process)
  | [], k, p => some (.returns k p)
  | path :: paths, k, p =>
    match runJobs cmd answers codecs others (handlePathname cmd answers path p.fs) k p with
    | none => none
    | some (.exits status p) => some (.exits status p)
    | some (.returns k p) => runOperands cmd answers codecs others paths k p

/-- The process when main starts with its operands. -/
def Process.begins (fs : Fs) (stdin : Bytes) : Process := { Process.starts fs with stdin := stdin }

/-- The operands, or the standard stream where there are none. -/
def runMain (cmd : Command) (answers : Answers) (codecs : Nat → Codecs) (others : Others)
    (p : Process) : Option (Ran Nat Process) :=
  if cmd.operands = [] then runJobs cmd answers codecs others [cmd.stream] 0 p
  else runOperands cmd answers codecs others cmd.operands 0 p

/-- The status that a run exits with. -/
def exitStatus : Ran Nat Process → Nat
  | .returns _ p => p.exitValue
  | .exits status _ => status

/-- `main` behind the options, from the start of the process -/
def main (cmd : Command) (answers : Answers) (codecs : Nat → Codecs) (others : Others) (fs : Fs)
    (stdin : Bytes) : Option Nat :=
  (runMain cmd answers codecs others (Process.begins fs stdin)).map exitStatus

end CheriGzip.Gzip.Main
