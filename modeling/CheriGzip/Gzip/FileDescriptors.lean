import CheriGzip.Lib.Descriptors
import CheriGzip.Gzip.FileUncompress
import CheriGzip.Gzip.Zuncompress

/-!
# The descriptors of file_compress and file_uncompress

The two functions with each descriptor that they open and close, and with the streams of FT_Z. What
a codec opens and closes itself is not recorded, and a `close` that fails would only add a warning.
-/
namespace CheriGzip.Gzip

def stdinFileno : Nat := 0
def stdoutFileno : Nat := 1

/-- What the system answers besides `Sys`: whether `dup(STDOUT_FILENO)` works, the calls on streams,
and what `zread` makes of the file. -/
structure FdSys where
  dupStdout : Bool
  z : Zsys
  zread : List (Option Bytes)

/-- The process with its descriptors, and what the calls of `zread` gave. -/
structure Held where
  p : Process
  fds : FdTable
  zreads : List (Option Bytes)

/-- The value of a return, what the codec returned (-1 if there was none), and whether the function
came to its end. -/
structure FileReturn where
  value : Int
  codec : Int
  done : Bool

/-- The return behind an error. -/
def FileReturn.lost : FileReturn := ⟨-1, -1, false⟩

/-- The function or its codec failed. -/
def FileReturn.Fails (r : FileReturn) : Prop := r.done = false ∨ r.codec = -1

/-- `unlink(path)` -/
def Process.unlink (p : Process) (path : Path) : Process := { p with fs := p.fs.unlink path }

/-! ## file_compress -/

/-- The checks in front of the `open` of the output. -/
def compressNamed (o : Options) (sys : Sys) (file : Path) (i : Nat) (p : Process) :
    Except Process Process :=
  if (p.fs.inodes i).nlink > 1 ∧ o.fflag = false then
    .error (p.maybeWarn "has other links -- skipping")
  else if o.fflag = false ∧ (checkSuffix o file).any (·.zipped ≠ []) then
    .error (p.maybeWarn "already has suffix -- unchanged")
  else
    let (ok, p) := checkOutfile o sys (zippedName o file) p
    if ok = false then .error p else .ok p

/-- The `open` of the output fails. -/
def CreateFails (sys : Sys) (outfile : Path) (p : Process) : Prop :=
  sys.creates = false ∨ p.fs.names outfile ≠ none

instance (sys : Sys) (outfile : Path) (p : Process) : Decidable (CreateFails sys outfile p) := by
  unfold CreateFails
  infer_instance

theorem compressOutput_eq (o : Options) (sys : Sys) (file : Path) (i : Nat) (p : Process) :
    compressOutput o sys file i p =
      match compressNamed o sys file i p with
      | .error q => .error q
      | .ok q =>
        if CreateFails sys (zippedName o file) q then
          .error (q.maybeWarn "could not create output")
        else .ok { q with fs := q.fs.create (zippedName o file) } := by
  unfold compressOutput compressNamed CreateFails
  split
  · rfl
  · split
    · rfl
    · simp only
      split <;> rfl

/-- The value that `gz_compress` comes to. -/
def CResult.size (r : CResult) : Int := if r.inTot = -1 then -1 else r.outTot

/-- The output is as long as the codec says. -/
def outputFits (sys : Sys) (out : Nat) (r : CResult) (p : Process) : Bool :=
  sys.restats && (((p.fs.inodes out).content.length : Int) == r.outTot)

/-- `file_compress(file, outfile, outsize)` in a process with these descriptors -/
def fileCompressFds (o : Options) (sys : Sys) (compress : CompressFn) (file : Path) (p : Process)
    (used : List Nat) : Option (Ran FileReturn Held) :=
  match if sys.opens then p.fs.names file else none with
  | none => some (.returns .lost ⟨p.maybeWarn "can't open", ⟨used, []⟩, []⟩)
  | some _ =>
    let (inFd, fds) := FdTable.opens ⟨used, []⟩
    match compressInput sys file p with
    | .error p => some (.returns .lost ⟨p, fds.closes inFd, []⟩)
    | .ok i =>
      let isb := p.fs.inodes i
      if o.cflag then
        match compress (basename file) isb.mtime (p.world isb.content p.stdout) with
        | none => none
        | some (.exits status w) =>
          some (.exits status ⟨{ p.after w with stdout := w.output }, fds, []⟩)
        | some (.returns r w) =>
          some (.returns ⟨r.size, r.size, true⟩
            ⟨{ p.after w with stdout := w.output }, fds.closes inFd, []⟩)
      else
        match compressNamed o sys file i p with
        | .error p => some (.returns .lost ⟨p, fds.closes inFd, []⟩)
        | .ok p =>
          if CreateFails sys (zippedName o file) p then
            -- `fclose(stdin)`
            some (.returns .lost
              ⟨p.maybeWarn "could not create output", fds.closesStream stdinFileno, []⟩)
          else
            let (outFd, fds) := fds.opens
            let p := { p with fs := p.fs.create (zippedName o file) }
            let out := p.fs.next - 1
            match compress (basename file) isb.mtime (p.world isb.content []) with
            | none => none
            | some (.exits status w) =>
              some (.exits status ⟨{ p.after w with fs := p.fs.store out w.output }, fds, []⟩)
            | some (.returns r w) =>
              let p := { p.after w with fs := p.fs.store out w.output }
              some (.returns ⟨r.outTot, r.size, outputFits sys out r p⟩
                ⟨compressCheck o sys file i out r p, (fds.closes inFd).closes outFd, []⟩)

/-! ## file_uncompress -/

/-- The label `lose`, with `fd` and `zfd`. Both times it closes `fd`. -/
def lose (fd : Nat) (zfd : Option Nat) (fds : FdTable) : FdTable :=
  let fds := fds.closes fd
  match zfd with
  | none => fds
  | some zfd => if zfd = stdoutFileno then fds else fds.closes fd

/-- The descriptor for the output, which is never to be `STDOUT_FILENO` for a file. -/
def openZfd (o : Options) (f : FdSys) (fds : FdTable) : Option Nat × FdTable :=
  if o.cflag = false ∧ o.lflag = false then
    let (zfd, fds) := fds.opens
    if zfd = stdoutFileno then
      if f.dupStdout then
        let (zfd, fds) := fds.opens
        (some zfd, fds.closes stdoutFileno)
      else (none, fds.closes stdoutFileno)
    else (some zfd, fds)
  else (some stdoutFileno, fds)

/-- What `fclose` writes of the bytes in the stream, and whether that was all. -/
def Departure.flush (bytes : Bytes) : Departure → Bool × Bytes
  | .fails => (false, [])
  | .stores n => (bytes.length ≤ n, bytes.take n)

/-- FT_Z: the size, or `none` on the way to `lose`. `fclose(in)` leaves `fd` open, as `zclose`
does. -/
def switchZ (o : Options) (f : FdSys) (found : Found) (content : Bytes) (h : Held) :
    Option Int × Held :=
  if f.z.zdopen = false then (none, { h with p := h.p.maybeWarn "zdopen for read" })
  else if f.z.dup = false then (none, { h with p := h.p.maybeWarn "fdopen for write" })
  else
    let (dupFd, fds) := h.fds.opens
    if f.z.fdopen = false then
      (none, { h with p := h.p.maybeWarn "fdopen for write", fds := fds })
    else
      let (size, s) := zuncompress o.tflag f.z f.zread
      let (whole, bytes) := f.z.fclose.flush s.out
      let w := h.p.world content (if o.cflag then h.p.stdout else [])
      let p := decoded o found h.p { w with output := w.output ++ bytes }
      let h : Held := ⟨p, fds.closes dupFd, s.inp.given⟩
      if s.inp.err then
        -- Here `out` is closed twice; the second `fclose` finds no open stream and fails.
        let p := (p.maybeWarn "failed infile fclose").unlink found.outfile
        (none, { h with p := (p.maybeWarn "failed outfile fclose").unlink found.outfile })
      else if whole = false then
        (none, { h with p := (p.maybeWarn "failed outfile fclose").unlink found.outfile })
      else (some size, h)

/-- The switch on the type of the file, without `-l`. -/
def switchType (o : Options) (f : FdSys) (uncompress : UncompressFn) (others : OtherFn)
    (file : Path) (found : Found) (content : Bytes) (h : Held) : Option (Ran (Option Int) Held) :=
  if found.method = .z then
    let (size, h) := switchZ o f found content h
    some (.returns size h)
  else
    match runDecoder o uncompress others file found content h.p with
    | none => none
    | some (.exits status w) => some (.exits status { h with p := decoded o found h.p w })
    | some (.returns size w) => some (.returns (some size) { h with p := decoded o found h.p w })

/-- Behind the switch: `fd` and `zfd` are closed, and the output is opened for its check. -/
def closeFds (o : Options) (sys : Sys) (found : Found) (fd zfd : Nat) (size : Int) (h : Held) :
    FdTable :=
  let fds := h.fds.closes fd
  let fds := if zfd = stdoutFileno then fds else fds.closes zfd
  if size ≠ -1 ∧ o.tflag = false ∧ o.cflag = false ∧ sys.reopens ∧
      h.p.fs.names found.outfile ≠ none then
    let (ofd, fds) := fds.opens
    fds.closes ofd
  else fds

/-- `file_uncompress` behind the switch. -/
def switched (o : Options) (sys : Sys) (file : Path) (found : Found) (fd zfd : Nat) :
    Option (Ran (Option Int) Held) → Option (Ran FileReturn Held)
  | none => none
  | some (.exits status h) => some (.exits status h)
  | some (.returns none h) => some (.returns .lost { h with fds := lose fd (some zfd) h.fds })
  | some (.returns (some size) h) =>
    let (value, p) := uncompressCheck o sys file found size h.p
    some (.returns ⟨value, size, value ≠ -1⟩
      { h with p := p, fds := closeFds o sys found fd zfd size h })

/-- `file_uncompress(file, outfile, outsize)` in a process with these descriptors -/
def fileUncompressFds (o : Options) (sys : Sys) (f : FdSys) (uncompress : UncompressFn)
    (others : OtherFn) (file : Path) (p : Process) (used : List Nat) :
    Option (Ran FileReturn Held) :=
  match if sys.opens then p.fs.names file else none with
  | none => some (.returns .lost ⟨p.maybeWarn "can't open", ⟨used, []⟩, []⟩)
  | some _ =>
    let (fd, fds) := FdTable.opens ⟨used, []⟩
    match uncompressInput o sys file p with
    | .error p => some (.returns .lost ⟨p, lose fd none fds, []⟩)
    | .ok found =>
      let content := (p.fs.inodes found.inode).content
      match uncompressOutput o sys found p with
      | .error p => some (.returns .lost ⟨p, lose fd none fds, []⟩)
      | .ok p =>
        match openZfd o f fds with
        | (none, fds) => some (.returns .lost ⟨p.maybeWarn "can't open", lose fd none fds, []⟩)
        | (some zfd, fds) =>
          if o.lflag then
            -- `print_list` and `close(fd)`, or a message and `lose`; `zfd` is `STDOUT_FILENO`.
            some (.returns .lost ⟨listed sys found content p, lose fd (some zfd) fds, []⟩)
          else
            switched o sys file found fd zfd
              (switchType o f uncompress others file found content ⟨p, fds, []⟩)

/-! ## The models without descriptors -/

/-- The end without the descriptors. -/
def Ran.plain : Ran FileReturn Held → Ran Int Process
  | .returns r h => .returns r.value h.p
  | .exits status h => .exits status h.p

section

variable {o : Options} {sys : Sys} {f : FdSys} {compress : CompressFn} {uncompress : UncompressFn}
  {others : OtherFn} {file : Path} {p : Process} {used : List Nat}

theorem fileCompressFds_plain :
    (fileCompressFds o sys compress file p used).map Ran.plain =
      fileCompress o sys compress file p := by
  unfold fileCompressFds fileCompress
  cases opened : (if sys.opens then p.fs.names file else none) with
  | none =>
    rw [compressInput, opened]
    rfl
  | some i =>
    simp only
    cases compressInput sys file p with
    | error q => rfl
    | ok i =>
      simp only
      split
      · rcases compress (basename file) _ _ with _ | ⟨r, w⟩ | ⟨status, w⟩ <;> rfl
      · rw [compressOutput_eq]
        cases compressNamed o sys file i p with
        | error q => rfl
        | ok q =>
          simp only
          split
          · rfl
          · simp only
            rcases compress (basename file) _ _ with _ | ⟨r, w⟩ | ⟨status, w⟩ <;> rfl

/-- The streams make no difference to the other types. -/
theorem fileUncompressFds_plain
    (other : ∀ found, uncompressInput o sys file p = .ok found → found.method ≠ .z)
    (dups : f.dupStdout = true) :
    (fileUncompressFds o sys f uncompress others file p used).map Ran.plain =
      fileUncompress o sys uncompress others file p := by
  have descriptor : ∀ fds, ∃ zfd fds', openZfd o f fds = (some zfd, fds') := by
    intro fds
    unfold openZfd
    simp only [dups]
    split
    · split
      · exact ⟨_, _, rfl⟩
      · exact ⟨_, _, rfl⟩
    · exact ⟨_, _, rfl⟩
  unfold fileUncompressFds fileUncompress
  cases opened : (if sys.opens then p.fs.names file else none) with
  | none =>
    rw [uncompressInput, opened]
    rfl
  | some i =>
    simp only
    cases input : uncompressInput o sys file p with
    | error q => rfl
    | ok found =>
      simp only
      cases uncompressOutput o sys found p with
      | error q => rfl
      | ok q =>
        obtain ⟨zfd, fds, isZfd⟩ := descriptor (FdTable.opens ⟨used, []⟩).2
        simp only [isZfd, switchType, if_neg (other found input)]
        split
        · rfl
        · rcases runDecoder o uncompress others file found _ q with _ | ⟨size, w⟩ | ⟨status, w⟩ <;>
            rfl

end

end CheriGzip.Gzip
