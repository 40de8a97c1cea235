import CheriGzip.Gzip.File

/-!
# file_uncompress
-/
namespace CheriGzip.Gzip

/-- `gz_uncompress` or what stands in for it: the prefix, the file's name and descriptors; it
gives the return value and the value for `*gsizep`. -/
abbrev UncompressFn := Bytes → Path → World → Option (Ran (Int × Int))

/-- `zuncompress`, `unpack` and `cat_fd`. -/
abbrev OtherFn := Filetype → World → Option (Ran Int)

def gzipTimestamp : Nat := 4
def gzipOrigname : Nat := 10

/-- `pread(fd, buf, len, offset)`; `none` for -1. -/
def pread (answer : Arrival) (content : Bytes) (len offset : Nat) : Option Bytes :=
  match answer with
  | .fails => none
  | .upTo n => some ((content.drop offset).take (min (max n 1) len))

/-- `check_suffix(outfile, 1)` -/
def stripSuffix (o : Options) (outfile : Path) : Option Path :=
  (checkSuffix o outfile).map fun s =>
    outfile.take (outfile.length - s.zipped.length) ++ s.normal

/-- The directory of a file, with its slash. -/
def dirPart (file : Path) : Path := (file.reverse.dropWhile (· ≠ 0x2f)).reverse

/-- With `-N`: the name that the header gives, in the input's directory. -/
def originalName (o : Options) (sys : Sys) (file : Path) (header1 content : Bytes)
    (outfile : Path) (p : Process) : Except Process Path :=
  match pread sys.preadTime content 4 gzipTimestamp with
  | none => .error (if o.fflag then p else p.maybeWarn "can't read")
  | some ts =>
    if ts.length < 4 then
      .error (p.maybeWarn "unexpected end of file")
    else if header1.getD 3 0 &&& orignameFlag = 0 then
      .ok outfile
    else
      match pread sys.preadName content (pathMax + 1) gzipOrigname with
      | none => .error (p.maybeWarn "can't read")
      | some name =>
        -- A read at the end of the file leaves the buffer as it was.
        if name.headD sys.nameJunk = 0 then .ok outfile
        else .ok ((dirPart file ++ name.takeWhile (· ≠ 0)).take (pathMax - 1))

/-- What the checks on the input find out. -/
structure Found where
  inode : Nat
  outfile : Path
  method : Filetype
  deriving DecidableEq, Repr

/-- `file_uncompress` up to the `lseek` back to the start. -/
def uncompressInput (o : Options) (sys : Sys) (file : Path) (p : Process) :
    Except Process Found :=
  match if sys.opens then p.fs.names file else none with
  | none => .error (p.maybeWarn "can't open")
  | some i =>
    let content := (p.fs.inodes i).content
    let copied := file.take (pathMax - 1)
    let stripped := stripSuffix o copied
    if stripped = none ∧ o.cflag = false ∧ o.lflag = false then
      .error (p.maybeWarn "unknown suffix -- ignored")
    else
      match pread sys.readHeader content 4 0 with
      | none => .error (if o.fflag then p else p.maybeWarn "can't read")
      | some header1 =>
        if header1.length ≠ 4 then
          .error (if o.fflag then p else p.maybeWarn "unexpected end of file")
        else
          let method := fileGettype header1
          if o.fflag = false ∧ method = .unknown then
            .error (p.maybeWarn "not in gzip format")
          else if method = .gzip ∧ o.Nflag then
            match originalName o sys file header1 content (stripped.getD copied) p with
            | .error p => .error p
            | .ok outfile => .ok ⟨i, outfile, method⟩
          else
            .ok ⟨i, stripped.getD copied, method⟩

/-- The checks on the output, and the new file; with `-c` or `-l` there is none. -/
def uncompressOutput (o : Options) (sys : Sys) (found : Found) (p : Process) :
    Except Process Process :=
  if o.cflag ∧ o.lflag = false then
    .ok p
  else if sys.stats = false then
    .error p
  else if (p.fs.inodes found.inode).nlink > 1 ∧ o.lflag = false ∧ o.fflag = false then
    .error (p.maybeWarn "has other links -- skipping")
  else
    let (ok, p) := checkOutfile o sys found.outfile p
    if ok = false then
      .error p
    else if o.cflag ∨ o.lflag then
      .ok p
    else if sys.creates = false ∨ p.fs.names found.outfile ≠ none then
      .error (p.maybeWarn "can't open")
    else
      .ok { p with fs := p.fs.create found.outfile }

/-- The part behind the decoder: the result, and the process. -/
def uncompressCheck (o : Options) (sys : Sys) (file : Path) (found : Found) (size : Int)
    (p : Process) : Int × Process :=
  if size = -1 then
    let p := if o.cflag then p else { p with fs := p.fs.unlink found.outfile }
    (-1, p.maybeWarn "uncompress failed")
  else if o.tflag ∨ o.cflag then
    (size, p)
  else
    match if sys.reopens then p.fs.names found.outfile else none with
    | none => (-1, p.maybeWarn "couldn't open (leaving original)")
    | some out =>
      if sys.restats = false then
        (-1, p.maybeWarn "couldn't stat (leaving original)")
      else if ((p.fs.inodes out).content.length : Int) ≠ size then
        let p := p.maybeWarn "stat gave different size (leaving original)"
        (-1, { p with fs := p.fs.unlink found.outfile })
      else
        (size, unlinkInput o file found.inode p)

/-- The process after a decoder: what it wrote is in the new file, or on standard output.
`cat_fd` always writes to standard output. -/
def decoded (o : Options) (found : Found) (p : Process) (w : World) : Process :=
  if o.cflag ∨ found.method = .unknown then { p.after w with stdout := w.output }
  else { p.after w with fs := p.fs.store (p.fs.next - 1) w.output }

/-- The switch on the type of the file, without `-l`: the decoder's return value. -/
def runDecoder (o : Options) (uncompress : UncompressFn) (others : OtherFn) (file : Path)
    (found : Found) (content : Bytes) (p : Process) : Option (Ran Int) :=
  let w := p.world content (if o.cflag ∨ found.method = .unknown then p.stdout else [])
  if found.method = .gzip then (uncompress [] file w).map (·.map Prod.fst)
  else others found.method w

/-- `print_list`, as far as it warns: it reads the last eight bytes, where `lseek` gets there. -/
def printList (seeks : Bool) (answer : Arrival) (content : Bytes) (p : Process) : Process :=
  if seeks = false ∨ content.length < 8 then p
  else
    match pread answer content 8 (content.length - 8) with
    | none => p.maybeWarn "read of uncompressed size"
    | some buf => if buf.length ≠ 8 then p.maybeWarn "read of uncompressed size" else p

/-- With `-l`: the list, or a message that there is none for such files. -/
def listed (sys : Sys) (found : Found) (content : Bytes) (p : Process) : Process :=
  if found.method = .gzip then printList sys.seeks sys.readSize content p else p.maybeWarn "no -l"

/-- `file_uncompress(file, outfile, outsize)` -/
def fileUncompress (o : Options) (sys : Sys) (uncompress : UncompressFn) (others : OtherFn)
    (file : Path) (p : Process) : Option (Ran Int Process) :=
  match uncompressInput o sys file p with
  | .error p => some (.returns (-1) p)
  | .ok found =>
    let content := (p.fs.inodes found.inode).content
    match uncompressOutput o sys found p with
    | .error p => some (.returns (-1) p)
    | .ok p =>
      if o.lflag then some (.returns (-1) (listed sys found content p))
      else
        match runDecoder o uncompress others file found content p with
        | none => none
        | some (.exits status w) => some (.exits status (decoded o found p w))
        | some (.returns size w) =>
          let (size, p) := uncompressCheck o sys file found size (decoded o found p w)
          some (.returns size p)

/-! ## What the steps leave alone -/

section

variable {o : Options} {sys : Sys} {file : Path} {p q : Process} {found : Found}

@[simp] theorem printList_fs (seeks : Bool) (answer : Arrival) (content : Bytes) (p : Process) :
    (printList seeks answer content p).fs = p.fs := by
  unfold printList
  split
  · rfl
  · split
    · rfl
    · split
      · rfl
      · rfl

@[simp] theorem listed_fs (sys : Sys) (found : Found) (content : Bytes) (p : Process) :
    (listed sys found content p).fs = p.fs := by
  unfold listed
  split
  · exact printList_fs _ _ _ _
  · rfl

/-- What is known of an input that passes the checks. -/
theorem uncompressInput_found (ok : uncompressInput o sys file p = .ok found) :
    p.fs.names file = some found.inode ∧
      ∃ header1, header1 <+: (p.fs.inodes found.inode).content ∧ header1.length = 4 ∧
        found.method = fileGettype header1 ∧
        let copied := file.take (pathMax - 1)
        let outfile := (stripSuffix o copied).getD copied
        if found.method = .gzip ∧ o.Nflag then
          originalName o sys file header1 (p.fs.inodes found.inode).content outfile p
            = .ok found.outfile
        else found.outfile = outfile := by
  unfold uncompressInput at ok
  split at ok
  · cases ok
  next i named =>
    have named' : p.fs.names file = some i := by
      split at named
      · exact named
      · cases named
    simp only at ok
    split at ok
    · cases ok
    · split at ok
      · cases ok
      next header1 answer =>
        split at ok
        · cases ok
        next four =>
          rw [Classical.not_not] at four
          -- What `pread` gives is the front of the file.
          have header : header1 <+: (p.fs.inodes i).content := by
            unfold pread at answer
            split at answer
            · cases answer
            · cases answer
              exact List.take_prefix _ _
          split at ok
          · cases ok
          · split at ok
            next stored =>
              split at ok
              · cases ok
              next outfile isName =>
                cases ok
                exact ⟨named', header1, header, four, rfl, by rw [if_pos stored]; exact isName⟩
            next plain =>
              cases ok
              exact ⟨named', header1, header, four, rfl, by rw [if_neg plain]⟩

theorem uncompressInput_ok (ok : uncompressInput o sys file p = .ok found) :
    p.fs.names file = some found.inode ∧
      ∃ header1, header1 <+: (p.fs.inodes found.inode).content ∧ header1.length = 4 ∧
        found.method = fileGettype header1 := by
  obtain ⟨named, header1, header, four, method, -⟩ := uncompressInput_found ok
  exact ⟨named, header1, header, four, method⟩

theorem originalName_error {header1 content outfile : Bytes}
    (failed : originalName o sys file header1 content outfile p = .error q) : q.fs = p.fs := by
  have warned : ∀ message, (if o.fflag then p else p.maybeWarn message).fs = p.fs := by
    intro message
    split <;> rfl
  unfold originalName at failed
  split at failed
  · cases failed
    exact warned _
  · split at failed
    · cases failed
      rfl
    · split at failed
      · cases failed
      · split at failed
        · cases failed
          rfl
        · split at failed <;> cases failed

theorem uncompressInput_error (failed : uncompressInput o sys file p = .error q) :
    q.fs = p.fs := by
  have warned : ∀ message, (if o.fflag then p else p.maybeWarn message).fs = p.fs := by
    intro message
    split <;> rfl
  unfold uncompressInput at failed
  split at failed
  · cases failed
    rfl
  · simp only at failed
    split at failed
    · cases failed
      rfl
    · split at failed
      · cases failed
        exact warned _
      · split at failed
        · cases failed
          exact warned _
        · split at failed
          · cases failed
            rfl
          · split at failed
            · split at failed
              next p' error =>
                cases failed
                exact originalName_error error
              · cases failed
            · cases failed

/-- The type of a file is decided by its first two bytes. -/
theorem fileGettype_header {header1 content : Bytes} (less : header1 <+: content)
    (four : header1.length = 4) : fileGettype header1 = fileGettype content := by
  obtain ⟨rest, rfl⟩ := less
  unfold fileGettype
  rw [List.getElem?_append_left (by omega), List.getElem?_append_left (by omega),
    List.take_append_of_le_length (by omega)]

/-- Without `-c`, `-l` leaves the files alone; else the checks go on to a new file. -/
theorem uncompressOutput_ok (cflag : o.cflag = false)
    (ok : uncompressOutput o sys found p = .ok q) :
    o.lflag = true ∧ q = p ∨ o.lflag = false ∧ Opened found.outfile p q := by
  unfold uncompressOutput at ok
  rw [if_neg (by simp [cflag])] at ok
  split at ok
  · cases ok
  · split at ok
    · cases ok
    · rcases check : checkOutfile o sys found.outfile p with ⟨checked, p'⟩
      simp only [check, cflag, Bool.false_eq_true, false_or] at ok
      split at ok
      · cases ok
      next good =>
        rw [Bool.not_eq_false] at good
        subst good
        cases lflag : o.lflag with
        | true =>
          rw [if_pos lflag] at ok
          cases ok
          unfold checkOutfile at check
          rw [if_neg (by simp [lflag])] at check
          cases check
          exact .inl ⟨rfl, rfl⟩
        | false =>
          rw [if_neg (by simp [lflag])] at ok
          split at ok
          · cases ok
          · cases ok
            right
            rcases checkOutfile_ok check with rfl | rfl
            · exact ⟨rfl, opened_create (.inl rfl)⟩
            · exact ⟨rfl, opened_create (.inr rfl)⟩

/-- When the checks fail, at most the output's name has gone. -/
theorem uncompressOutput_error (failed : uncompressOutput o sys found p = .error q) :
    q.fs = p.fs ∨ q.fs = p.fs.unlink found.outfile := by
  have kept : ∀ {checked p'}, checkOutfile o sys found.outfile p = (checked, p') →
      p'.fs = p.fs ∨ p'.fs = p.fs.unlink found.outfile := by
    intro checked p' check
    cases checked with
    | true => rcases checkOutfile_ok check with rfl | rfl <;> simp
    | false =>
      left
      unfold checkOutfile at check
      split at check
      · split at check
        · cases check
        · split at check <;> cases check <;> rfl
      · cases check
  unfold uncompressOutput at failed
  split at failed
  · cases failed
  · split at failed
    · cases failed
      exact .inl rfl
    · split at failed
      · cases failed
        exact .inl rfl
      · rcases check : checkOutfile o sys found.outfile p with ⟨checked, p'⟩
        have kept := kept check
        simp only [check] at failed
        split at failed
        · cases failed
          exact kept
        · split at failed
          · cases failed
          · split at failed
            · cases failed
              exact kept
            · cases failed

end

end CheriGzip.Gzip
