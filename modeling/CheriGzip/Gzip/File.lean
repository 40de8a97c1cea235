import CheriGzip.Gzip.Compress
import CheriGzip.Gzip.Uncompress

/-!
# file_compress

The files as file_compress and file_uncompress see them: a directory of names and what they
refer to. The codecs and the answers of the system are parameters.
-/
namespace CheriGzip.Gzip

/-- A C string that names a file. -/
abbrev Path := Bytes

structure Inode where
  content : Bytes
  nlink : Nat
  mtime : UInt32
  deriving DecidableEq, Repr

/-- The names, what they refer to, and the number for the next file. -/
structure Fs where
  names : Path → Option Nat
  inodes : Nat → Inode
  next : Nat
  fresh : ∀ {path i}, names path = some i → i < next

/-- `unlink(path)` of a name that exists. -/
def Fs.unlink (fs : Fs) (path : Path) : Fs where
  names p := if p = path then none else fs.names p
  inodes i :=
    if fs.names path = some i then { fs.inodes i with nlink := (fs.inodes i).nlink - 1 }
    else fs.inodes i
  next := fs.next
  fresh := by
    intro p i named
    split at named
    · cases named
    · exact fs.fresh named

/-- `open(path, O_CREAT | O_EXCL)` of a name that does not exist. -/
def Fs.create (fs : Fs) (path : Path) : Fs where
  names p := if p = path then some fs.next else fs.names p
  inodes i := if i = fs.next then ⟨[], 1, 0⟩ else fs.inodes i
  next := fs.next + 1
  fresh := by
    intro p i named
    split at named
    · cases named
      exact Nat.lt_succ_self _
    · exact Nat.lt_succ_of_lt (fs.fresh named)

/-- What a file holds after something was written to it. -/
def Fs.store (fs : Fs) (i : Nat) (content : Bytes) : Fs where
  names := fs.names
  inodes j := if j = i then { fs.inodes i with content := content } else fs.inodes j
  next := fs.next
  fresh := fs.fresh

section

variable (fs : Fs)

@[simp] theorem Fs.unlink_names_self (path : Path) : (fs.unlink path).names path = none :=
  if_pos rfl

theorem Fs.unlink_names_other {path other : Path} (ne : other ≠ path) :
    (fs.unlink path).names other = fs.names other :=
  if_neg ne

@[simp] theorem Fs.unlink_content (path : Path) (i : Nat) :
    ((fs.unlink path).inodes i).content = (fs.inodes i).content := by
  unfold Fs.unlink
  simp only
  split <;> rfl

@[simp] theorem Fs.create_names_self (path : Path) : (fs.create path).names path = some fs.next :=
  if_pos rfl

theorem Fs.create_names_other {path other : Path} (ne : other ≠ path) :
    (fs.create path).names other = fs.names other :=
  if_neg ne

theorem Fs.create_inodes (path : Path) {i : Nat} (old : i < fs.next) :
    (fs.create path).inodes i = fs.inodes i :=
  if_neg (Nat.ne_of_lt old)

@[simp] theorem Fs.store_names (i : Nat) (content : Bytes) :
    (fs.store i content).names = fs.names := rfl

@[simp] theorem Fs.store_content_self (i : Nat) (content : Bytes) :
    ((fs.store i content).inodes i).content = content := by
  simp [Fs.store]

end

/-- The files, the standard streams, and what the process keeps between files; `unlinked`
says that `unlink_input` got to its `unlink`. -/
structure Process where
  fs : Fs
  stdin : Bytes
  stdout : Bytes
  reads : Nat
  writes : Nat
  exitValue : Nat
  warnings : List String
  unlinked : Bool

/-- `maybe_warn` and `maybe_warnx` -/
def Process.maybeWarn (p : Process) (message : String) : Process :=
  { p with
    warnings := p.warnings ++ [message]
    exitValue := if p.exitValue = 0 then 1 else p.exitValue }

/-- What a codec sees that reads `input` and writes after `output`. -/
def Process.world (p : Process) (input output : Bytes) : World where
  input := input
  output := output
  reads := p.reads
  writes := p.writes
  exitValue := p.exitValue
  warnings := p.warnings

/-- The process after a codec ran. -/
def Process.after (p : Process) (w : World) : Process :=
  { p with
    reads := w.reads
    writes := w.writes
    exitValue := w.exitValue
    warnings := w.warnings }

structure Suffix where
  zipped : Bytes
  normal : Bytes
  deriving DecidableEq, Repr

/-- The flags and the suffix table; `suffix0` is `suffixes[0]`. -/
structure Options where
  cflag : Bool
  lflag : Bool
  fflag : Bool
  kflag : Bool
  Nflag : Bool
  tflag : Bool
  suffix0 : Suffix
  suffixes : List Suffix

/-- What the system answers to the calls on names: whether each `open` and `fstat` that
could work does, what the reads of the header, the time and the name get, whether the `lseek` of
`print_list` works and what it reads, the first byte of the fresh buffer for the name, and whether
standard input is a terminal and the answer given there is yes. -/
structure Sys where
  opens : Bool
  stats : Bool
  creates : Bool
  reopens : Bool
  restats : Bool
  readHeader : Arrival
  preadTime : Arrival
  preadName : Arrival
  seeks : Bool
  readSize : Arrival
  nameJunk : UInt8
  answer : Option Bool

/-- `PATH_MAX` -/
def pathMax : Nat := 1024

/-- `check_suffix(file, 0)` -/
def checkSuffix (o : Options) (file : Path) : Option Suffix :=
  (o.suffix0 :: o.suffixes).find? fun s =>
    s.zipped.length < file.length ∧ file.drop (file.length - s.zipped.length) = s.zipped

/-- `check_outfile(outfile)` -/
def checkOutfile (o : Options) (sys : Sys) (outfile : Path) (p : Process) : Bool × Process :=
  if o.lflag = false ∧ p.fs.names outfile ≠ none then
    if o.fflag then
      (true, { p with fs := p.fs.unlink outfile })
    else
      match sys.answer with
      | some true => (true, { p with fs := p.fs.unlink outfile })
      | some false => (false, p)
      | none => (false, p.maybeWarn "already exists -- skipping")
  else
    (true, p)

/-- `unlink_input(file, sb)`, where `sb` is the `stat` of file `i`. -/
def unlinkInput (o : Options) (file : Path) (i : Nat) (p : Process) : Process :=
  if o.kflag then p
  else if p.fs.names file ≠ some i then p
  else { p with fs := p.fs.unlink file, unlinked := true }

/-- What follows the last slash. -/
def afterSlash : Path → Path
  | [] => []
  | c :: cs => if 0x2f ∈ cs then afterSlash cs else if c = 0x2f then cs else c :: cs

/-- `basename(path)` -/
def basename (path : Path) : Path :=
  if path = [] then [0x2e]
  else
    let trimmed := (path.reverse.dropWhile (· = 0x2f)).reverse
    if trimmed = [] then [0x2f] else afterSlash trimmed

/-- The name of the compressed file: the suffix is added, at the end of the buffer if the
name is too long. -/
def zippedName (o : Options) (file : Path) : Path :=
  let name := file ++ o.suffix0.zipped
  if pathMax ≤ name.length then
    name.take (pathMax - o.suffix0.zipped.length - 1) ++ o.suffix0.zipped
  else
    name

/-- `gz_compress` or what stands in for it: name, time and descriptors. -/
abbrev CompressFn := Bytes → UInt32 → World → Option (Ran CResult)

/-- `file_compress` up to the open input; it leaves its number. -/
def compressInput (sys : Sys) (file : Path) (p : Process) : Except Process Nat :=
  match if sys.opens then p.fs.names file else none with
  | none => .error (p.maybeWarn "can't open")
  | some i => if sys.stats then .ok i else .error (p.maybeWarn "couldn't stat")

/-- The checks and the new output file, without `-c`. -/
def compressOutput (o : Options) (sys : Sys) (file : Path) (i : Nat) (p : Process) :
    Except Process Process :=
  if (p.fs.inodes i).nlink > 1 ∧ o.fflag = false then
    .error (p.maybeWarn "has other links -- skipping")
  else if o.fflag = false ∧ (checkSuffix o file).any (·.zipped ≠ []) then
    .error (p.maybeWarn "already has suffix -- unchanged")
  else
    let (ok, p) := checkOutfile o sys (zippedName o file) p
    if ok = false then
      .error p
    else if sys.creates = false ∨ p.fs.names (zippedName o file) ≠ none then
      .error (p.maybeWarn "could not create output")
    else
      .ok { p with fs := p.fs.create (zippedName o file) }

/-- The check of the output's size: it decides whether the input goes, or the output. -/
def compressCheck (o : Options) (sys : Sys) (file : Path) (i out : Nat) (r : CResult)
    (p : Process) : Process :=
  let bad (p : Process) : Process :=
    let p := p.maybeWarn "leaving original"
    { p with fs := p.fs.unlink (zippedName o file) }
  if sys.restats = false then
    bad (p.maybeWarn "couldn't stat")
  else if ((p.fs.inodes out).content.length : Int) ≠ r.outTot then
    bad (p.maybeWarn "output file: wrong size, deleting")
  else
    unlinkInput o file i p

/-- `file_compress(file, outfile, outsize)` -/
def fileCompress (o : Options) (sys : Sys) (compress : CompressFn) (file : Path) (p : Process) :
    Option (Ran Int Process) :=
  match compressInput sys file p with
  | .error p => some (.returns (-1) p)
  | .ok i =>
    let isb := p.fs.inodes i
    if o.cflag then
      match compress (basename file) isb.mtime (p.world isb.content p.stdout) with
      | none => none
      | some (.exits status w) => some (.exits status { p.after w with stdout := w.output })
      | some (.returns r w) =>
        some (.returns (if r.inTot = -1 then -1 else r.outTot)
          { p.after w with stdout := w.output })
    else
      match compressOutput o sys file i p with
      | .error p => some (.returns (-1) p)
      | .ok p =>
        -- The new file is the last one.
        let out := p.fs.next - 1
        match compress (basename file) isb.mtime (p.world isb.content []) with
        | none => none
        | some (.exits status w) =>
          some (.exits status { p.after w with fs := p.fs.store out w.output })
        | some (.returns r w) =>
          some (.returns r.outTot (compressCheck o sys file i out r
            { p.after w with fs := p.fs.store out w.output }))

/-! ## What the steps leave alone -/

section

variable {o : Options} {sys : Sys} {file outfile : Path} {i : Nat} {p q : Process}

/-- When the output's name may be used, at most that name has gone. -/
theorem checkOutfile_ok (ok : checkOutfile o sys outfile p = (true, q)) :
    q = p ∨ q = { p with fs := p.fs.unlink outfile } := by
  unfold checkOutfile at ok
  split at ok
  · split at ok
    · cases ok
      exact .inr rfl
    · split at ok
      · cases ok
        exact .inr rfl
      · cases ok
      · cases ok
  · cases ok
    exact .inl rfl

/-- The process with a new, empty file under the output's name. -/
structure Opened (outfile : Path) (p q : Process) : Prop where
  only : q = { p with fs := q.fs }
  next : q.fs.next = p.fs.next + 1
  output : q.fs.names outfile = some p.fs.next
  others : ∀ {other}, other ≠ outfile → q.fs.names other = p.fs.names other
  contents : ∀ {i}, i < p.fs.next → (q.fs.inodes i).content = (p.fs.inodes i).content

theorem opened_create {fs : Fs} (kept : fs = p.fs ∨ fs = p.fs.unlink outfile) :
    Opened outfile p { p with fs := fs.create outfile } where
  only := rfl
  next := by rcases kept with rfl | rfl <;> rfl
  output := by rcases kept with rfl | rfl <;> exact Fs.create_names_self _ _
  others := by
    intro other ne
    rcases kept with rfl | rfl
    · exact Fs.create_names_other _ ne
    · exact (Fs.create_names_other _ ne).trans (Fs.unlink_names_other _ ne)
  contents := by
    intro i old
    rcases kept with rfl | rfl
    · exact congrArg Inode.content (Fs.create_inodes _ _ old)
    · exact (congrArg Inode.content (Fs.create_inodes (p.fs.unlink outfile) _ old)).trans
        (Fs.unlink_content _ _ _)

theorem compressOutput_ok (ok : compressOutput o sys file i p = .ok q) :
    Opened (zippedName o file) p q := by
  unfold compressOutput at ok
  split at ok
  · cases ok
  · split at ok
    · cases ok
    · rcases check : checkOutfile o sys (zippedName o file) p with ⟨checked, p'⟩
      simp only [check] at ok
      split at ok
      · cases ok
      next good =>
        split at ok
        · cases ok
        · cases ok
          rw [Bool.not_eq_false] at good
          subst good
          rcases checkOutfile_ok check with rfl | rfl
          · exact opened_create (.inl rfl)
          · exact opened_create (.inr rfl)

theorem checkOutfile_unlinked : (checkOutfile o sys outfile p).2.unlinked = p.unlinked := by
  unfold checkOutfile
  split
  · split
    · rfl
    · split <;> rfl
  · rfl

theorem compressOutput_error (failed : compressOutput o sys file i p = .error q) :
    q.unlinked = p.unlinked := by
  unfold compressOutput at failed
  split at failed
  · cases failed
    rfl
  · split at failed
    · cases failed
      rfl
    · have kept := @checkOutfile_unlinked o sys (zippedName o file) p
      rcases check : checkOutfile o sys (zippedName o file) p with ⟨checked, p'⟩
      rw [check] at kept
      simp only [check] at failed
      split at failed
      · cases failed
        exact kept
      · split at failed
        · cases failed
          exact kept
        · cases failed

theorem compressInput_error (failed : compressInput sys file p = .error q) :
    q.fs = p.fs ∧ q.unlinked = p.unlinked := by
  unfold compressInput at failed
  split at failed
  · cases failed
    exact ⟨rfl, rfl⟩
  · split at failed
    · cases failed
    · cases failed
      exact ⟨rfl, rfl⟩

theorem unlinkInput_unlinked (kflag : o.kflag = false) (fresh : p.unlinked = false) :
    (unlinkInput o file i p).unlinked = true ↔ p.fs.names file = some i := by
  unfold unlinkInput
  simp only [kflag, Bool.false_eq_true, if_false]
  split
  next other => simp [fresh, other]
  next same =>
    rw [Classical.not_not] at same
    simp [same]

/-- When the check of the size lets the input go. -/
theorem compressCheck_unlinked (kflag : o.kflag = false) (fresh : p.unlinked = false)
    {out : Nat} {r : CResult} :
    (compressCheck o sys file i out r p).unlinked = true ↔
      sys.restats = true ∧ ((p.fs.inodes out).content.length : Int) = r.outTot ∧
        p.fs.names file = some i := by
  unfold compressCheck
  cases restats : sys.restats with
  | false => simp [Process.maybeWarn, fresh]
  | true =>
    simp only [Bool.true_eq_false, if_false]
    split
    next wrong => simp [Process.maybeWarn, fresh, wrong]
    next same =>
      rw [Classical.not_not] at same
      rw [unlinkInput_unlinked kflag fresh]
      simp [same]

theorem compressInput_ok (ok : compressInput sys file p = .ok i) : p.fs.names file = some i := by
  unfold compressInput at ok
  split at ok
  · cases ok
  next j named =>
    split at ok
    · cases ok
      split at named
      · exact named
      · cases named
    · cases ok

end

/-! ## A process to start from -/

/-- A directory with one file. -/
def Fs.single (path : Path) (content : Bytes) : Fs where
  names p := if p = path then some 0 else none
  inodes _ := ⟨content, 1, 0⟩
  next := 1
  fresh := by
    intro p i named
    split at named
    · cases named
      exact Nat.zero_lt_one
    · cases named

/-- A process that has just started. -/
def Process.starts (fs : Fs) : Process := ⟨fs, [], [], 0, 0, 0, [], false⟩

/-- No options. -/
def Options.plain : Options :=
  ⟨false, false, false, false, false, false, ⟨[0x2e, 0x67, 0x7a], []⟩, []⟩

/-- All calls that could work do. -/
def Sys.good : Sys where
  opens := true
  stats := true
  creates := true
  reopens := true
  restats := true
  readHeader := .upTo 4
  preadTime := .upTo 4
  preadName := .upTo 1025
  seeks := true
  readSize := .upTo 8
  nameJunk := 0
  answer := none

end CheriGzip.Gzip
