import CheriGzip.Gzip.FileUncompress

/-!
# The name in the header

With `-N`, `file_uncompress` puts the stored name behind the directory of its input as it is. The
result is in that directory if the name is one for a file; a name with a slash leads out of it.
-/
namespace CheriGzip.Gzip

/-- A C string. -/
def chars (s : String) : Bytes := s.toList.map fun c => UInt8.ofNat c.toNat

/-- A name that a directory can have for one of its files. -/
def Plain (name : Path) : Prop := 0x2f ∉ name ∧ name ≠ chars "." ∧ name ≠ chars ".."

instance (name : Path) : Decidable (Plain name) := by
  unfold Plain
  infer_instance

/-- `outfile` is directly in the directory of `file`. -/
def InDirectory (file outfile : Path) : Prop := ∃ rest, outfile = dirPart file ++ rest ∧ Plain rest

/-- The `suffixes` behind the first, in a build without bzip2 and xz; `-S ""` overwrites the
last. -/
def suffixTable (last : Bytes) : List Suffix :=
  [⟨chars ".gz", []⟩, ⟨chars ".z", []⟩, ⟨chars "-gz", []⟩, ⟨chars "-z", []⟩, ⟨chars "_z", []⟩,
    ⟨chars ".taz", chars ".tar"⟩, ⟨chars ".tgz", chars ".tar"⟩, ⟨chars ".Z", []⟩, ⟨last, []⟩]

/-- The suffixes are those of the program, the first as `-S` sets it. -/
def Options.FromTable (o : Options) : Prop :=
  o.suffix0.normal = [] ∧ ∃ last, o.suffixes = suffixTable last

/-! ## The directory of a path -/

/-- What is behind the directory of a file. -/
def filePart (file : Path) : Path := (file.reverse.takeWhile (· ≠ 0x2f)).reverse

theorem dirPart_append (file : Path) : dirPart file ++ filePart file = file := by
  rw [dirPart, filePart, ← List.reverse_append, List.takeWhile_append_dropWhile,
    List.reverse_reverse]

theorem dirPart_slash (file : Path) : dirPart file = [] ∨ ∃ up, dirPart file = up ++ [0x2f] := by
  rw [dirPart]
  cases slash : file.reverse.dropWhile (· ≠ 0x2f) with
  | nil => exact .inl rfl
  | cons c up =>
    -- The first byte that was not dropped is a slash.
    have isSlash : c = 0x2f := by
      have first := List.head?_dropWhile_not (fun c : UInt8 => decide (c ≠ 0x2f)) file.reverse
      rw [slash] at first
      simpa using first
    exact .inr ⟨up.reverse, by rw [List.reverse_cons, isSlash]⟩

variable {file : Path}

theorem inDirectory_append (rest : Path) :
    InDirectory file (dirPart file ++ rest) ↔ Plain rest := by
  constructor
  · rintro ⟨rest', same, plain⟩
    exact List.append_cancel_left same ▸ plain
  · exact fun plain => ⟨rest, rfl, plain⟩

/-- Where a part of the directory is cut off, its last slash is missing. -/
theorem not_inDirectory {k : Nat} (short : k < (dirPart file).length) {tail : Path}
    (noSlash : 0x2f ∉ tail) : ¬ InDirectory file ((dirPart file).take k ++ tail) := by
  rintro ⟨rest, same, -⟩
  rcases dirPart_slash file with none | ⟨up, slash⟩
  · rw [none] at short
    exact absurd short (Nat.not_lt_zero k)
  · rw [slash, List.length_append, List.length_singleton] at short
    have within : k ≤ up.length := by omega
    rw [slash, List.take_append_of_le_length within, List.append_assoc] at same
    -- What is behind the cut would have to hold the slash.
    have dropped := congrArg (List.drop k) same
    rw [List.drop_append_of_le_length (by simp [within])] at dropped
    rw [List.drop_append_of_le_length within] at dropped
    have taken : (up.take k).drop k = [] := by simp
    rw [taken, List.nil_append] at dropped
    apply noSlash
    rw [dropped]
    simp

/-! ## The name of the output -/

/-- The name in the header, up to its NUL and as far as it was read. -/
def storedName (sys : Sys) (content : Bytes) : Option Path :=
  if fileGettype (content.take 4) ≠ .gzip ∨ content.getD 3 0 &&& orignameFlag = 0 then none
  else
    match pread sys.preadName content (pathMax + 1) gzipOrigname with
    | none => none
    | some name => if name.headD sys.nameJunk = 0 then none else some (name.takeWhile (· ≠ 0))

/-- How much of a name fits behind the directory. -/
def room (file : Path) : Nat := pathMax - 1 - (dirPart file).length

/-- The input's own name is plain when its suffix is taken off. A suffix with a slash can reach
into the directory. -/
def PlainInput (o : Options) (file : Path) : Prop :=
  let name := (filePart file).take (room file)
  match checkSuffix o (dirPart file ++ name) with
  | none => Plain name
  | some s => s.zipped.length ≤ name.length ∧
      Plain (name.take (name.length - s.zipped.length) ++ s.normal)

/-- The stored name is plain, or the input's where there is none, as far as it fits. -/
def StaysIn (o : Options) (sys : Sys) (file : Path) (content : Bytes) : Prop :=
  (dirPart file).length < pathMax ∧
    match storedName sys content with
    | some name => Plain (name.take (room file))
    | none => PlainInput o file

theorem take_directory (tail : Path) (fits : (dirPart file).length < pathMax) :
    (dirPart file ++ tail).take (pathMax - 1) = dirPart file ++ tail.take (room file) := by
  rw [List.take_append, List.take_of_length_le (by omega), room]

theorem take_short (tail : Path) (long : ¬ (dirPart file).length < pathMax) :
    (dirPart file ++ tail).take (pathMax - 1) = (dirPart file).take (pathMax - 1) ++ [] := by
  have cut : pathMax - 1 ≤ (dirPart file).length := by omega
  rw [List.take_append_of_le_length cut, List.append_nil]

theorem storedName_inDirectory (name : Path) :
    InDirectory file ((dirPart file ++ name).take (pathMax - 1)) ↔
      (dirPart file).length < pathMax ∧ Plain (name.take (room file)) := by
  -- A directory that fills the buffer is cut itself.
  by_cases fits : (dirPart file).length < pathMax
  · rw [take_directory name fits, inDirectory_append]
    exact (and_iff_right fits).symm
  · have cut : pathMax - 1 < (dirPart file).length := by
      have one : 0 < pathMax := by decide
      omega
    rw [take_short name fits]
    exact iff_of_false (not_inDirectory cut (List.not_mem_nil)) fun stays => fits stays.1

variable {o : Options}

theorem Options.FromTable.normal (table : o.FromTable) {path : Path} {s : Suffix}
    (found : checkSuffix o path = some s) : s.normal = [] ∨ s.normal = chars ".tar" := by
  obtain ⟨first, last, rest⟩ := table
  have member := List.mem_of_find?_eq_some found
  rcases List.mem_cons.mp member with rfl | other
  · exact .inl first
  · rw [rest, suffixTable] at other
    simp only [List.mem_cons, List.not_mem_nil, or_false] at other
    rcases other with rfl | rfl | rfl | rfl | rfl | rfl | rfl | rfl | rfl <;>
      first | exact .inl rfl | exact .inr rfl

theorem Options.FromTable.noSlash (table : o.FromTable) {path : Path} {s : Suffix}
    (found : checkSuffix o path = some s) : 0x2f ∉ s.normal := by
  rcases table.normal found with none | tar
  · rw [none]
    exact List.not_mem_nil
  · rw [tar]
    decide

/-- A suffix is shorter than the path it ends. -/
theorem checkSuffix_short {path : Path} {s : Suffix} (found : checkSuffix o path = some s) :
    s.zipped.length < path.length := by
  have ends := List.find?_some found
  exact (of_decide_eq_true ends).1

theorem strippedName_inDirectory (table : o.FromTable) :
    InDirectory file ((stripSuffix o (file.take (pathMax - 1))).getD (file.take (pathMax - 1))) ↔
      (dirPart file).length < pathMax ∧ PlainInput o file := by
  have whole : file.take (pathMax - 1) = (dirPart file ++ filePart file).take (pathMax - 1) := by
    rw [dirPart_append]
  -- The suffix is looked for in the whole path, and taken off its end.
  by_cases fits : (dirPart file).length < pathMax
  · rw [whole, take_directory _ fits, and_iff_right fits, PlainInput, stripSuffix]
    generalize (filePart file).take (room file) = name
    cases found : checkSuffix o (dirPart file ++ name) with
    | none => exact inDirectory_append name
    | some s =>
      simp only [Option.map_some, Option.getD_some, List.length_append]
      -- A suffix as long as the name and more takes the last slash with it.
      by_cases inside : s.zipped.length ≤ name.length
      · have length : (dirPart file).length + name.length - s.zipped.length
            = (dirPart file).length + (name.length - s.zipped.length) := by omega
        rw [and_iff_right inside, length, List.take_length_add_append, List.append_assoc]
        exact inDirectory_append _
      · have cut : (dirPart file).length + name.length - s.zipped.length
            < (dirPart file).length := by
          have short := checkSuffix_short found
          rw [List.length_append] at short
          omega
        rw [List.take_append_of_le_length (Nat.le_of_lt cut)]
        exact iff_of_false (not_inDirectory cut (table.noSlash found)) fun plain => inside plain.1
  · have cut : pathMax - 1 < (dirPart file).length := by
      have one : 0 < pathMax := by decide
      omega
    refine iff_of_false ?_ fun stays => fits stays.1
    rw [whole, take_short _ fits, List.append_nil, stripSuffix]
    cases found : checkSuffix o ((dirPart file).take (pathMax - 1)) with
    | none =>
      simp only [Option.map_none, Option.getD_none]
      rw [← List.append_nil (List.take (pathMax - 1) (dirPart file))]
      exact not_inDirectory cut List.not_mem_nil
    | some s =>
      simp only [Option.map_some, Option.getD_some, List.take_take]
      exact not_inDirectory (Nat.lt_of_le_of_lt (Nat.min_le_right _ _) cut) (table.noSlash found)

variable {sys : Sys} {p : Process} {found : Found}

theorem originalName_stored {header1 content outfile out : Bytes} (header : header1 <+: content)
    (four : header1.length = 4) (gzip : fileGettype header1 = .gzip)
    (ok : originalName o sys file header1 content outfile p = .ok out) :
    out = match storedName sys content with
      | some name => (dirPart file ++ name).take (pathMax - 1)
      | none => outfile := by
  have isHeader : content.take 4 = header1 := by
    rw [← four]
    exact (List.prefix_iff_eq_take.mp header).symm
  have flags : content.getD 3 0 = header1.getD 3 0 := by
    rw [← isHeader]
    simp
  unfold originalName at ok
  unfold storedName
  rw [isHeader, gzip, flags]
  -- The timestamp is read first, and a failure there is an exit of its own.
  split at ok
  · cases ok
  · split at ok
    · cases ok
    · split at ok
      next absent =>
        cases ok
        rw [if_pos (.inr absent)]
      next flagged =>
        rw [if_neg (not_or_intro (Classical.not_not.mpr rfl) flagged)]
        cases got : pread sys.preadName content (pathMax + 1) gzipOrigname with
        | none =>
          simp only [got] at ok
          cases ok
        | some name =>
          simp only [got] at ok ⊢
          by_cases empty : name.headD sys.nameJunk = 0
          · rw [if_pos empty] at ok ⊢
            cases ok
            rfl
          · rw [if_neg empty] at ok ⊢
            cases ok
            rfl

/-- The output with `-N` is in the input's directory exactly when the name it is given is plain. -/
theorem uncompress_staysIn (o : Options) (table : o.FromTable) (Nflag : o.Nflag = true) (sys : Sys)
    (file : Path) (p : Process) (found : Found) (ok : uncompressInput o sys file p = .ok found) :
    InDirectory file found.outfile ↔
      StaysIn o sys file (p.fs.inodes found.inode).content := by
  obtain ⟨-, header1, header, four, method, outfile⟩ := uncompressInput_found ok
  simp only [Nflag, and_true] at outfile
  rw [StaysIn]
  by_cases gzip : found.method = .gzip
  · rw [if_pos gzip] at outfile
    rw [originalName_stored header four (method ▸ gzip) outfile]
    cases storedName sys (p.fs.inodes found.inode).content with
    | some name => exact storedName_inDirectory name
    | none => exact strippedName_inDirectory table
  · have isHeader : (p.fs.inodes found.inode).content.take 4 = header1 := by
      rw [← four]
      exact (List.prefix_iff_eq_take.mp header).symm
    have absent : storedName sys (p.fs.inodes found.inode).content = none := by
      rw [storedName, isHeader, ← method]
      exact if_pos (.inl gzip)
    rw [if_neg gzip] at outfile
    rw [outfile, absent]
    exact strippedName_inDirectory table

/-- `gzip -d -N d/a.gz` -/
def Options.uncompressN : Options :=
  ⟨false, false, false, false, true, false, ⟨chars ".gz", []⟩, suffixTable (chars ".gz")⟩

/-- `d/a.gz` with a stored name. -/
def Process.stores (name : Path) : Process :=
  .starts (.single (chars "d/a.gz") ([0x1f, 0x8b, 8, 8, 0, 0, 0, 0, 0, 3] ++ name ++ [0]))

theorem uncompress_staysIn_plain :
    InDirectory (chars "d/a.gz") (chars "d/x") ↔ StaysIn .uncompressN .good (chars "d/a.gz")
      ([0x1f, 0x8b, 8, 8, 0, 0, 0, 0, 0, 3] ++ chars "x" ++ [0]) := by
  have ok : uncompressInput .uncompressN .good (chars "d/a.gz") (.stores (chars "x"))
      = .ok ⟨0, chars "d/x", .gzip⟩ := rfl
  exact uncompress_staysIn .uncompressN ⟨rfl, _, rfl⟩ rfl .good (chars "d/a.gz")
    (.stores (chars "x")) _ ok

/-- The stored name `../x` takes the output out of the directory `d`. -/
theorem uncompress_leaves : ¬ ∀ (o : Options) (sys : Sys) (file : Path) (p : Process)
    (found : Found), o.FromTable → o.Nflag = true → uncompressInput o sys file p = .ok found →
      InDirectory file found.outfile := by
  intro stays
  have ok : uncompressInput .uncompressN .good (chars "d/a.gz") (.stores (chars "../x"))
      = .ok ⟨0, chars "d/../x", .gzip⟩ := rfl
  have inside := stays .uncompressN .good (chars "d/a.gz") (.stores (chars "../x")) _
    ⟨rfl, _, rfl⟩ rfl ok
  have whole : chars "d/../x" = dirPart (chars "d/a.gz") ++ chars "../x" := by decide
  rw [whole, inDirectory_append] at inside
  exact absurd inside (by decide)

end CheriGzip.Gzip
