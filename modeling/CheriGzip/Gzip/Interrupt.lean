import CheriGzip.Gzip.FileUncompress

/-!
# remove_file and SIGINT

What `file_compress` and `file_uncompress` do to the names, to the caller's `outfile` buffer
and to `remove_file`, act by act: a signal may come between any two. The buffer is on
`handle_file`'s stack, so the same address can come back with the next file.
-/
namespace CheriGzip.Gzip.Interrupt

/-- The operation in progress: the address of its `outfile`, the file it created, and whether
that file is finished. -/
structure Current where
  buf : Nat
  created : Option Nat
  committed : Bool
  deriving DecidableEq, Repr

/-- What a signal meets: the files, `remove_file` with what is stored where, and the operation
in progress. -/
structure Sig where
  fs : Fs
  removeFile : Option Nat
  buffers : Nat → Path
  current : Option Current

/-- `sigint_handler` up to `_exit(2)` -/
def sigintHandler (s : Sig) : Fs :=
  match s.removeFile with
  | none => s.fs
  | some buf => s.fs.unlink (s.buffers buf)

/-- The acts that matter here. `store` is what a decoder or encoder leaves in the new file. -/
inductive Act where
  | name (outfile : Path)
  | unlink (path : Path)
  | create (path : Path)
  | arm
  | store (content : Bytes)
  | disarm

def Sig.act (s : Sig) : Act → Sig
  | .name outfile =>
    match s.current with
    | none => s
    | some c => { s with buffers := fun a => if a = c.buf then outfile else s.buffers a }
  | .unlink path => { s with fs := s.fs.unlink path }
  | .create path =>
    { s with
      fs := s.fs.create path
      current := s.current.map fun c => { c with created := some s.fs.next } }
  -- `remove_file = outfile`
  | .arm => { s with removeFile := s.current.map (·.buf) }
  | .store content =>
    match s.current.bind (·.created) with
    | none => s
    | some i => { s with fs := s.fs.store i content }
  -- `remove_file = NULL`
  | .disarm =>
    { s with removeFile := none, current := s.current.map fun c => { c with committed := true } }

/-- The state after some acts. -/
def Sig.after (s : Sig) (acts : List Act) : Sig := acts.foldl Sig.act s

/-- The states between some acts, with the first and the last one. -/
def Sig.points (s : Sig) : List Act → List Sig
  | [] => [s]
  | a :: acts => s :: (s.act a).points acts

/-- `handle_file` is entered. -/
def Sig.enter (s : Sig) (buf : Nat) : Sig := { s with current := some ⟨buf, none, false⟩ }

def Sig.leave (s : Sig) : Sig := { s with current := none }

/-! ## The acts of the two operations -/

/-- The `unlink` in `check_outfile`. -/
def checkOutfileActs (o : Options) (sys : Sys) (outfile : Path) (p : Process) : List Act :=
  if o.lflag = false ∧ p.fs.names outfile ≠ none ∧ (o.fflag = true ∨ sys.answer = some true) then
    [.unlink outfile]
  else []

def unlinkInputActs (o : Options) (file : Path) (i : Nat) (p : Process) : List Act :=
  if o.kflag = true ∨ p.fs.names file ≠ some i then [] else [.unlink file]

/-- Behind `remove_file = outfile` in `file_compress`, which created its file in `q`. -/
def compressTail (o : Options) (sys : Sys) (file : Path) (i : Nat) (q : Process) :
    Option (Ran CResult) → List Act
  | none => []
  | some (.exits _ w) => [.store w.output]
  | some (.returns r w) =>
    if sys.restats = false ∨ (w.output.length : Int) ≠ r.outTot then
      [.store w.output, .unlink (zippedName o file)]
    else
      .store w.output :: .disarm :: unlinkInputActs o file i q

def compressActs (o : Options) (sys : Sys) (compress : CompressFn) (file : Path) (p : Process) :
    List Act :=
  match compressInput sys file p with
  | .error _ => []
  | .ok i =>
    if o.cflag then []
    else if (p.fs.inodes i).nlink > 1 ∧ o.fflag = false then []
    else if o.fflag = false ∧ (checkSuffix o file).any (·.zipped ≠ []) then []
    else
      let outfile := zippedName o file
      let checks := .name outfile :: checkOutfileActs o sys outfile p
      match compressOutput o sys file i p with
      | .error _ => checks
      | .ok q =>
        checks ++ .create outfile :: .arm :: compressTail o sys file i q
          (compress (basename file) (p.fs.inodes i).mtime (q.world (p.fs.inodes i).content []))

/-- The stores to `outfile` before `check_outfile`. -/
def uncompressNames (o : Options) (sys : Sys) (file : Path) (p : Process) : List Act :=
  if sys.opens = false ∨ p.fs.names file = none then []
  else
    let copied := file.take (pathMax - 1)
    .name copied :: (match stripSuffix o copied with
      | none => []
      | some stripped => [.name stripped])

/-- What the new file holds behind a decoder. -/
def decodedContent (found : Found) (w : World) : Bytes :=
  if found.method = .unknown then [] else w.output

/-- Behind `remove_file = outfile` in `file_uncompress`. -/
def uncompressTail (o : Options) (sys : Sys) (file : Path) (found : Found) (q : Process) :
    Option (Ran Int) → List Act
  | none => []
  | some (.exits _ w) => [.store (decodedContent found w)]
  | some (.returns size w) =>
    .store (decodedContent found w) ::
      if size = -1 then [.unlink found.outfile]
      else if o.tflag = true ∨ sys.reopens = false ∨ sys.restats = false then []
      else if ((decodedContent found w).length : Int) ≠ size then [.unlink found.outfile]
      else .disarm :: unlinkInputActs o file found.inode q

def uncompressActs (o : Options) (sys : Sys) (uncompress : UncompressFn) (others : OtherFn)
    (file : Path) (p : Process) : List Act :=
  let names := uncompressNames o sys file p
  match uncompressInput o sys file p with
  | .error _ => names
  | .ok found =>
    let names := names ++ [.name found.outfile]
    if o.cflag = true ∧ o.lflag = false then names
    else if sys.stats = false then names
    else if (p.fs.inodes found.inode).nlink > 1 ∧ o.lflag = false ∧ o.fflag = false then names
    else
      let checks := names ++ checkOutfileActs o sys found.outfile p
      match uncompressOutput o sys found p with
      | .error _ => checks
      | .ok q =>
        if o.cflag = true ∨ o.lflag = true then checks
        else
          checks ++ .create found.outfile :: .arm :: uncompressTail o sys file found q
            (runDecoder o uncompress others file found (p.fs.inodes found.inode).content q)

/-! ## Runs -/

/-- A file to work on: its name, where `handle_file` has its buffer, and what the system and
the codecs answer. -/
structure Job where
  file : Path
  buf : Nat
  sys : Sys
  compress : CompressFn
  uncompress : UncompressFn
  others : OtherFn

/-- `handle_file`, up to what it prints. -/
def Job.run (j : Job) (o : Options) (dflag : Bool) (p : Process) : Option (Ran Int Process) :=
  if dflag then fileUncompress o j.sys j.uncompress j.others j.file p
  else fileCompress o j.sys j.compress j.file p

def Job.acts (j : Job) (o : Options) (dflag : Bool) (p : Process) : List Act :=
  if dflag then uncompressActs o j.sys j.uncompress j.others j.file p
  else compressActs o j.sys j.compress j.file p

/-- The states of a run over some files at which a signal may come, up to the end of `main`,
or to an `exit` or a call that does not come back. -/
def runJobs (o : Options) (dflag : Bool) : List Job → Sig → Process → List Sig
  | [], s, _ => [s]
  | j :: js, s, p =>
    s :: (s.enter j.buf).points (j.acts o dflag p) ++
      match j.run o dflag p with
      | some (.returns _ q) =>
        runJobs o dflag js ((s.enter j.buf).after (j.acts o dflag p)).leave q
      | _ => []

/-- Before the first file. -/
def Sig.start (p : Process) (buffers : Nat → Path) : Sig := ⟨p.fs, none, buffers, none⟩

/-- `remove_file` is null, or names the file that the operation in progress created and has
not finished. -/
def Sig.Safe (s : Sig) : Prop :=
  s.removeFile = none ∨ ∃ c i, s.current = some c ∧ s.removeFile = some c.buf ∧
    c.created = some i ∧ c.committed = false ∧
    (s.fs.names (s.buffers c.buf) = some i ∨ s.fs.names (s.buffers c.buf) = none)

/-- A signal at a safe state takes no name away but that of the unfinished file. -/
theorem sigintHandler_safe {s : Sig} (safe : s.Safe) {path : Path} {i : Nat}
    (named : s.fs.names path = some i) (gone : (sigintHandler s).names path ≠ some i) :
    ∃ c, s.current = some c ∧ c.created = some i ∧ c.committed = false := by
  unfold sigintHandler at gone
  rcases safe with null | ⟨c, j, current, armed, created, open', name⟩
  · rw [null] at gone
    exact absurd named gone
  · rw [armed] at gone
    have here : path = s.buffers c.buf := by
      apply Classical.byContradiction
      intro other
      exact gone ((Fs.unlink_names_other _ other).trans named)
    subst here
    rw [named] at name
    rcases name with same | none
    · cases same
      exact ⟨c, current, created, open'⟩
    · cases none

end CheriGzip.Gzip.Interrupt
