import CheriGzip.Gzip.Compress
import CheriGzip.Gzip.HeaderPositions
import CheriGzip.Gzip.OriginalName
import CheriGzip.Gzip.Stored

/-!
# What -N restores

`file_uncompress` takes the name and the time out of the header by their offsets. The name is at its
offset when there is no extra field in front of it. The time is put together in an `int`.
-/
namespace CheriGzip.Gzip

/-! ## The time -/

/-- `ts[3] << 24 | ts[2] << 16 | ts[1] << 8 | ts[0]`, an `int`. -/
def signedTime (ts : Bytes) : Int := (ofLe ts : Int).bmod (2 ^ 32)

/-- `timestamp` -/
def timestamp (o : Options) (sys : Sys) (method : Filetype) (content : Bytes) : Int :=
  if method = .gzip ∧ o.Nflag then
    match pread sys.preadTime content 4 gzipTimestamp with
    | some ts => signedTime ts
    | none => 0
  else 0

/-- `isb.st_mtime` for `copymodes`, where `fstat` gave `mtime`. -/
def stMtime (o : Options) (nflag : Bool) (sys : Sys) (method : Filetype) (content : Bytes)
    (mtime : Int) : Int :=
  if (o.cflag = false ∨ o.lflag) ∧ nflag = false ∧ timestamp o sys method content ≠ 0 then
    timestamp o sys method content
  else mtime

/-! ## What is to be restored -/

/-- The bytes up to a NUL. -/
def stringAt (content : Bytes) (offset : Nat) : Bytes := (content.drop offset).takeWhile (· ≠ 0)

/-- The name in the header, which begins at an offset when it is flagged. -/
def nameField (content : Bytes) (offset : Nat) : Bytes :=
  if content.getD 3 0 &&& orignameFlag = 0 then [] else stringAt content offset

/-- A name for a file that fits the buffer behind the directory. -/
def Usable (file name : Path) : Prop :=
  name ≠ [] ∧ 0x2f ∉ name ∧ (dirPart file ++ name).length < pathMax

/-- The output is to have this name, and this time if it is not zero. -/
structure Restores (o : Options) (sys : Sys) (file : Path) (content : Bytes) (found : Found)
    (name : Path) (mtime : Nat) : Prop where
  name : Usable file name →
    storedName sys content = some name ∧ found.outfile = dirPart file ++ name
  time : mtime ≠ 0 → ∀ st, stMtime o false sys found.method content st = mtime

/-! ## The time of a header -/

theorem signedTime_iff {ts : Bytes} (four : ts.length = 4) :
    (ofLe ts ≠ 0 → signedTime ts = ofLe ts) ↔ ofLe ts < 2 ^ 31 := by
  have small : ofLe ts < 2 ^ 32 := by
    have same := ofLe_le ts.length (ofLe ts)
    rw [le_ofLe, four] at same
    omega
  unfold signedTime
  rw [Int.bmod]
  constructor
  · intro same
    rcases Nat.lt_or_ge (ofLe ts) (2 ^ 31) with positive | large
    · exact positive
    · have value := same (by omega)
      split at value <;> omega
  · intro positive _
    split <;> omega

section

variable {o : Options} {sys : Sys} {file : Path} {content : Bytes} {found : Found}

/-- The four bytes of the time, when the checks on the input went well. -/
theorem timestamp_eq {header1 outfile out : Bytes} {p : Process} (gzip : found.method = .gzip)
    (Nflag : o.Nflag = true)
    (ok : originalName o sys file header1 content outfile p = .ok out) :
    timestamp o sys found.method content = signedTime (slice content 4 4) ∧
      (slice content 4 4).length = 4 := by
  unfold originalName at ok
  rw [timestamp, if_pos ⟨gzip, Nflag⟩]
  unfold pread at ok ⊢
  cases answer : sys.preadTime with
  | fails =>
    rw [answer] at ok
    cases ok
  | upTo n =>
    rw [answer] at ok
    simp only at ok ⊢
    split at ok
    · cases ok
    next four =>
      have short : (content.drop gzipTimestamp).length ≥ 4 ∧ min (max n 1) 4 = 4 := by
        rw [List.length_take] at four
        omega
      rw [short.2] at four ⊢
      refine ⟨rfl, ?_⟩
      show ((content.drop gzipTimestamp).take 4).length = 4
      rw [List.length_take]
      omega

/-- The time comes out right when it is positive as an `int`. -/
theorem stMtime_iff {header1 outfile out : Bytes} {p : Process} (cflag : o.cflag = false)
    (gzip : found.method = .gzip) (Nflag : o.Nflag = true)
    (ok : originalName o sys file header1 content outfile p = .ok out) :
    (ofLe (slice content 4 4) ≠ 0 →
        ∀ st, stMtime o false sys found.method content st = ofLe (slice content 4 4)) ↔
      ofLe (slice content 4 4) < 2 ^ 31 := by
  obtain ⟨isTime, four⟩ := timestamp_eq gzip Nflag ok
  rw [← signedTime_iff four]
  unfold stMtime
  rw [isTime]
  have zero : signedTime (slice content 4 4) = 0 → ofLe (slice content 4 4) = 0 := by
    have same := ofLe_le (slice content 4 4).length (ofLe (slice content 4 4))
    rw [le_ofLe, four] at same
    unfold signedTime
    rw [Int.bmod]
    split <;> omega
  constructor
  · intro all nonzero
    have value := all nonzero 0
    rwa [if_pos ⟨.inl cflag, rfl, fun isZero => nonzero (zero isZero)⟩] at value
  · intro same nonzero st
    rw [if_pos ⟨.inl cflag, rfl, fun isZero => nonzero (zero isZero)⟩]
    exact same nonzero

/-! ## The name of a header -/

theorem takeWhile_nul {text : Bytes} (noNul : 0 ∉ text) (tail : Bytes) :
    (text ++ 0 :: tail).takeWhile (· ≠ 0) = text := by
  have letters : ∀ c ∈ text, decide (c ≠ 0) = true := fun c hc =>
    decide_eq_true fun nul => noNul (nul ▸ hc)
  rw [List.takeWhile_append_of_pos letters]
  simp

/-- The name that the automaton locates is the one of the header. -/
theorem nameField_fields (h : Fields) (rest : Bytes) :
    ∃ name, nameField (h.bytes ++ rest) h.nameAt = name ∧
      (name ≠ [] → h.name = name ++ [0] ∧ 0 ∉ name) := by
  have flags : (h.bytes ++ rest).getD 3 0 = h.flags := rfl
  have isName := h.isName
  unfold IsString at isName
  rw [nameField, flags]
  by_cases unset : h.flags &&& orignameFlag = 0
  · rw [if_pos unset]
    exact ⟨[], rfl, fun some => absurd rfl some⟩
  · rw [if_neg unset] at isName ⊢
    obtain ⟨text, noNul, isText⟩ := isName
    have behind : (h.bytes ++ rest).drop h.nameAt = text ++ 0 :: (h.comment ++ (h.crc ++ rest)) := by
      have length : (gzipMagic0 :: h.magic :: zDeflated :: h.flags :: (h.six ++ h.extra)).length =
          h.nameAt := by
        simp only [List.length_cons, List.length_append, h.isSix, Fields.nameAt]
        omega
      have split : h.bytes ++ rest =
          (gzipMagic0 :: h.magic :: zDeflated :: h.flags :: (h.six ++ h.extra)) ++
            (text ++ 0 :: (h.comment ++ (h.crc ++ rest))) := by
        simp [Fields.bytes, isText]
      rw [split, ← length, List.drop_left]
    refine ⟨text, ?_, fun _ => ⟨isText, noNul⟩⟩
    rw [stringAt, behind]
    exact takeWhile_nul noNul _

/-- The string at the fixed offset, as far as it is read. -/
def fixedName (content : Bytes) : Bytes :=
  ((content.drop gzipOrigname).take (pathMax + 1)).takeWhile (· ≠ 0)

/-- The stored name is the one at the fixed offset, when the read gets all there is. -/
theorem storedName_iff {n : Nat} (whole : sys.preadName = .upTo n) (large : pathMax + 1 ≤ n)
    (gzip : fileGettype (content.take 4) = .gzip)
    (flagged : ¬ content.getD 3 0 &&& orignameFlag = 0)
    {name : Path} (nonempty : name ≠ []) :
    storedName sys content = some name ↔ fixedName content = name := by
  have all : min (max n 1) (pathMax + 1) = pathMax + 1 := by omega
  have looked : ¬ (fileGettype (content.take 4) ≠ .gzip ∨ content.getD 3 0 &&& orignameFlag = 0) :=
    not_or_intro (Classical.not_not.mpr gzip) flagged
  unfold storedName fixedName pread
  rw [if_neg looked, whole]
  simp only [all]
  cases (content.drop gzipOrigname).take (pathMax + 1) with
  | nil =>
    -- Nothing is read there, and the buffer keeps what it had.
    by_cases junk : ([] : Bytes).headD sys.nameJunk = 0
    · rw [if_pos junk]
      exact iff_of_false (fun same => by cases same) fun same => nonempty same.symm
    · rw [if_neg junk, Option.some.injEq]
  | cons c tail =>
    by_cases nul : (c :: tail).headD sys.nameJunk = 0
    · rw [if_pos nul]
      have isNul : c = 0 := nul
      refine iff_of_false (fun same => by cases same) fun same => nonempty ?_
      rw [← same, isNul]
      rfl
    · rw [if_neg nul, Option.some.injEq]

/-- Without an extra field the name is at the fixed offset. -/
theorem fixedName_fields (h : Fields) (rest : Bytes) (noExtra : h.flags &&& extraFieldFlag = 0)
    {name : Path} (isName : h.name = name ++ [0]) (noNul : 0 ∉ name) (short : name.length < pathMax) :
    fixedName (h.bytes ++ rest) = name := by
  have isExtra := h.isExtra
  unfold IsExtra at isExtra
  rw [if_pos noExtra] at isExtra
  have behind : (h.bytes ++ rest).drop gzipOrigname = name ++ 0 :: (h.comment ++ (h.crc ++ rest)) := by
    have length : (gzipMagic0 :: h.magic :: zDeflated :: h.flags :: h.six).length = gzipOrigname := by
      simp only [List.length_cons, h.isSix]
      rfl
    have split : h.bytes ++ rest = (gzipMagic0 :: h.magic :: zDeflated :: h.flags :: h.six) ++
        (name ++ 0 :: (h.comment ++ (h.crc ++ rest))) := by
      simp [Fields.bytes, isName, isExtra]
    rw [split, ← length, List.drop_left]
  obtain ⟨more, count⟩ : ∃ more, pathMax + 1 - name.length = more + 1 :=
    ⟨pathMax - name.length, by omega⟩
  rw [fixedName, behind, List.take_append, List.take_of_length_le (by omega), count,
    List.take_succ_cons]
  exact takeWhile_nul noNul _

end

/-! ## Both -/

section

variable {σ τ : Type} {o : Options} {sys : Sys} {file : Path} {p : Process} {found : Found}
  {content : Bytes}

/-- The input is a gzip file, and its name is looked for. -/
theorem uncompressInput_gzip (gzip : fileGettype content = .gzip) (Nflag : o.Nflag = true)
    (ok : uncompressInput o sys file p = .ok found)
    (isContent : (p.fs.inodes found.inode).content = content) :
    found.method = .gzip ∧ fileGettype (content.take 4) = .gzip ∧
      ∃ header1 outfile, header1 <+: content ∧ header1.length = 4 ∧
        fileGettype header1 = .gzip ∧
        originalName o sys file header1 content outfile p = .ok found.outfile := by
  obtain ⟨-, header1, header, four, method, outfile⟩ := uncompressInput_found ok
  rw [isContent] at header outfile
  have isGzip : fileGettype header1 = .gzip := (fileGettype_header header four).trans gzip
  have isHeader : content.take 4 = header1 := by
    rw [← four]
    exact (List.prefix_iff_eq_take.mp header).symm
  simp only [Nflag, and_true, method, isGzip, if_true] at outfile
  exact ⟨method.trans isGzip, by rw [isHeader, isGzip], header1, _, header, four, isGzip, outfile⟩

/-- A usable name is the one of the output when it is at the fixed offset. -/
theorem outfile_iff (gzip : fileGettype content = .gzip) (Nflag : o.Nflag = true) {n : Nat}
    (whole : sys.preadName = .upTo n) (large : pathMax + 1 ≤ n)
    (ok : uncompressInput o sys file p = .ok found)
    (isContent : (p.fs.inodes found.inode).content = content)
    (flagged : ¬ content.getD 3 0 &&& orignameFlag = 0) {name : Path} (usable : Usable file name) :
    (storedName sys content = some name ∧ found.outfile = dirPart file ++ name) ↔
      fixedName content = name := by
  obtain ⟨-, isGzip, header1, outfile, header, four, gzip1, named⟩ :=
    uncompressInput_gzip gzip Nflag ok isContent
  obtain ⟨nonempty, -, fits⟩ := usable
  rw [← storedName_iff whole large isGzip flagged nonempty]
  refine and_iff_left_of_imp fun stored => ?_
  rw [originalName_stored header four gzip1 named, stored]
  exact List.take_of_length_le (by omega)

theorem fileGettype_fields (h : Fields) (rest : Bytes) :
    fileGettype (h.bytes ++ rest) = .gzip := by
  have magic : some h.magic = some gzipMagic1 ∨ some h.magic = some gzipOmagic1 :=
    h.isMagic.imp (congrArg some) (congrArg some)
  exact if_pos ⟨rfl, magic⟩

/-- Name and time of a header, with the name where the grammar has it. -/
theorem restores_fields_iff (h : Fields) (rest : Bytes) (Nflag : o.Nflag = true)
    (cflag : o.cflag = false) {n : Nat} (whole : sys.preadName = .upTo n) (large : pathMax + 1 ≤ n)
    (ok : uncompressInput o sys file p = .ok found)
    (isContent : (p.fs.inodes found.inode).content = h.bytes ++ rest) :
    Restores o sys file (h.bytes ++ rest) found (nameField (h.bytes ++ rest) h.nameAt)
        (ofLe (slice (h.bytes ++ rest) 4 4)) ↔
      (Usable file (nameField (h.bytes ++ rest) h.nameAt) →
        h.flags &&& extraFieldFlag = 0 ∨
          fixedName (h.bytes ++ rest) = nameField (h.bytes ++ rest) h.nameAt) ∧
      ofLe (slice (h.bytes ++ rest) 4 4) < 2 ^ 31 := by
  have gzip := fileGettype_fields h rest
  obtain ⟨method, -, header1, outfile, -, -, -, named⟩ :=
    uncompressInput_gzip gzip Nflag ok isContent
  rw [← stMtime_iff cflag method Nflag named]
  obtain ⟨name, isName, spelled⟩ := nameField_fields h rest
  rw [isName]
  have names (usable : Usable file name) :
      (storedName sys (h.bytes ++ rest) = some name ∧ found.outfile = dirPart file ++ name) ↔
        fixedName (h.bytes ++ rest) = name := by
    refine outfile_iff gzip Nflag whole large ok isContent (fun unset => usable.1 ?_) usable
    rw [← isName, nameField, if_pos unset]
  have noExtra (usable : Usable file name) (unset : h.flags &&& extraFieldFlag = 0) :
      fixedName (h.bytes ++ rest) = name := by
    obtain ⟨field, noNul⟩ := spelled usable.1
    have fits := usable.2.2
    rw [List.length_append] at fits
    exact fixedName_fields h rest unset field noNul (by omega)
  constructor
  · rintro ⟨named, timed⟩
    exact ⟨fun usable => .inr ((names usable).mp (named usable)), timed⟩
  · rintro ⟨found, timed⟩
    refine ⟨fun usable => (names usable).mpr ?_, timed⟩
    rcases found usable with unset | same
    · exact noExtra usable unset
    · exact same

/-- The name and the time that `gz_compress` puts into its header. -/
theorem compressed_fields {h : Fields} (rest : Bytes) {ccfg : CConfig τ} {origname : Bytes}
    {mtime : UInt32} (noNul : 0 ∉ origname) (large : 10 ≤ ccfg.buflen.size)
    (header : outbufStart ccfg origname mtime = some h.bytes) :
    h.flags &&& extraFieldFlag = 0 ∧ nameField (h.bytes ++ rest) h.nameAt = origname ∧
      ofLe (slice (h.bytes ++ rest) 4 4) = mtime.toNat := by
  unfold outbufStart at header
  rw [if_pos large] at header
  split at header
  · cases header
  · obtain ⟨flg, isFlg⟩ : ∃ flg : UInt8, flg = if origname ≠ [] then 0x08 else 0 := ⟨_, rfl⟩
    obtain ⟨xfl, isXfl⟩ : ∃ xfl : UInt8, xfl =
      if ccfg.numflag = 1 then 4 else if ccfg.numflag = 9 then 2 else 0 := ⟨_, rfl⟩
    obtain ⟨nul, isNul⟩ : ∃ nul : Bytes, nul = if origname ≠ [] then [0] else [] := ⟨_, rfl⟩
    have bytes : h.bytes =
        [0x1f, 0x8b, 8, flg] ++ (le 4 mtime.toNat ++ ([xfl, osCode] ++ (origname ++ nul))) := by
      rw [← Option.some.inj header, headerBytes, isFlg, isXfl, isNul]
      simp
    have flags : h.flags = flg := by
      have third : h.bytes.getD 3 0 = h.flags := rfl
      rw [← third, bytes]
      rfl
    -- gzip only sets the flag for the name.
    have noExtra : h.flags &&& extraFieldFlag = 0 := by
      rw [flags, isFlg]
      split <;> rfl
    have isExtra := h.isExtra
    rw [IsExtra, if_pos noExtra] at isExtra
    refine ⟨noExtra, ?_, ?_⟩
    · have flagged : (h.bytes ++ rest).getD 3 0 = flg := flags
      rw [nameField, flagged, isFlg, Fields.nameAt, isExtra]
      by_cases none : origname = []
      · simp [none]
      · rw [if_pos none] at isNul ⊢
        have ten : ([0x1f, 0x8b, 8, flg] ++ (le 4 mtime.toNat ++ [xfl, osCode])).length = 10 := by
          simp
        have split : h.bytes ++ rest = ([0x1f, 0x8b, 8, flg] ++ (le 4 mtime.toNat ++ [xfl, osCode])) ++
            (origname ++ 0 :: rest) := by
          rw [bytes, isNul]
          simp
        rw [if_neg (by decide), stringAt, split]
        show (List.drop 10 _).takeWhile _ = _
        rw [← ten, List.drop_left]
        exact takeWhile_nul noNul rest
    · rw [bytes, List.append_assoc, List.append_assoc]
      rw [@slice_field [0x1f, 0x8b, 8, flg] (le 4 mtime.toNat) _ 4 4 rfl (le_length 4 _), ofLe_le]
      exact Nat.mod_eq_of_lt mtime.toNat_lt

/-- With `-N` the output gets the name that the automaton locates and the time of the header: the
name when there is no extra field, or the string at the fixed offset is the same one all the same,
and the time before 2^31. For a header of `gz_compress` only the time can be lost. -/
theorem uncompress_restores_iff (h : Fields) {rest : Bytes} (follows : rest ≠ []) {cfg : UConfig σ}
    (reads : ∀ k, cfg.env.reads k ≠ .fails) (room : 0 < cfg.buflen.size) {pre : Bytes}
    (short : pre.length < 2 ^ 32) {w : World} (input : pre ++ w.input = h.bytes ++ rest)
    {offset : Nat} (enters : Enters cfg (uncompressStart cfg pre w) .origname offset)
    (Nflag : o.Nflag = true) (cflag : o.cflag = false) {n : Nat} (whole : sys.preadName = .upTo n)
    (large : pathMax + 1 ≤ n) (ok : uncompressInput o sys file p = .ok found)
    (isContent : (p.fs.inodes found.inode).content = h.bytes ++ rest) :
    (Restores o sys file (h.bytes ++ rest) found (nameField (h.bytes ++ rest) offset)
        (ofLe (slice (h.bytes ++ rest) 4 4)) ↔
      (Usable file (nameField (h.bytes ++ rest) offset) →
        h.flags &&& extraFieldFlag = 0 ∨
          fixedName (h.bytes ++ rest) = nameField (h.bytes ++ rest) offset) ∧
      ofLe (slice (h.bytes ++ rest) 4 4) < 2 ^ 31) ∧
    ∀ (ccfg : CConfig τ) (origname : Bytes) (mtime : UInt32), 0 ∉ origname →
      10 ≤ ccfg.buflen.size → outbufStart ccfg origname mtime = some h.bytes →
        (Restores o sys file (h.bytes ++ rest) found origname mtime.toNat ↔
          mtime.toNat < 2 ^ 31) := by
  obtain ⟨name, -, -, -⟩ := h.enters reads room short follows input
  rw [enters.unique name]
  have fields := restores_fields_iff h rest Nflag cflag whole large ok isContent
  refine ⟨fields, fun ccfg origname mtime noNul fits header => ?_⟩
  obtain ⟨noExtra, isName, isTime⟩ := compressed_fields rest noNul fits header
  rw [isName, isTime] at fields
  exact fields.trans (and_iff_right fun _ => .inl noExtra)

end

/-- The name `x`, and a time of seven seconds with this highest byte. -/
def named (hi : UInt8) : Fields where
  magic := gzipMagic1
  flags := 0x08
  six := [7, 0, 0, hi, 0, 3]
  extra := []
  name := chars "x" ++ [0]
  comment := []
  crc := []
  isMagic := gzipMagic1_isMagic
  isSix := rfl
  isExtra := .absent rfl
  isName := ⟨chars "x", by decide, rfl⟩
  isComment := .absent rfl
  isCrc := headCrcLength_absent rfl

/-- `d/a.gz` with that header. -/
def Process.named (hi : UInt8) : Process :=
  .starts (.single (chars "d/a.gz") ((Gzip.named hi).bytes ++ [3, 0]))

/-- A decoder that reads the file byte by byte. -/
def UConfig.bytewise : UConfig StoredIn :=
  ⟨storedInflate, .steady 1, ⟨4, Buflen.four_fits⟩, false, "d/a.gz"⟩

theorem named_enters (hi : UInt8) :
    Enters .bytewise (uncompressStart .bytewise [] ⟨(named hi).bytes ++ [3, 0], [], 0, 0, 0, []⟩)
      .origname 10 :=
  ((named hi).enters (fun _ => Arrival.noConfusion) (by decide) (by decide)
    (by decide : ([3, 0] : Bytes) ≠ []) rfl).1

theorem uncompress_restores_x :
    Restores .uncompressN .good (chars "d/a.gz") ((named 0).bytes ++ [3, 0])
      ⟨0, chars "d/x", .gzip⟩ (chars "x") 7 := by
  have ok : uncompressInput .uncompressN .good (chars "d/a.gz") (.named 0) =
      .ok ⟨0, chars "d/x", .gzip⟩ := rfl
  exact (@uncompress_restores_iff StoredIn Unit _ _ _ _ _ (named 0) [3, 0] (by decide) .bytewise
    (fun _ => Arrival.noConfusion) (by decide) [] (by decide) _ rfl 10 (named_enters 0) rfl rfl _ rfl
    (by decide) ok rfl).1.mpr ⟨fun _ => .inl rfl, by decide⟩

/-- A time from 2^31 seconds on comes out negative. -/
theorem uncompress_restores_late : ¬ ∀ (h : Fields) (rest : Bytes) (cfg : UConfig StoredIn)
    (w : World) (offset : Nat) (o : Options) (sys : Sys) (file : Path) (p : Process) (found : Found)
    (n : Nat), rest ≠ [] → w.input = h.bytes ++ rest →
      Enters cfg (uncompressStart cfg [] w) .origname offset → o.Nflag = true → o.cflag = false →
      sys.preadName = .upTo n → pathMax + 1 ≤ n → uncompressInput o sys file p = .ok found →
      (p.fs.inodes found.inode).content = h.bytes ++ rest →
        Restores o sys file (h.bytes ++ rest) found (nameField (h.bytes ++ rest) offset)
          (ofLe (slice (h.bytes ++ rest) 4 4)) := by
  intro all
  have ok : uncompressInput .uncompressN .good (chars "d/a.gz") (.named 0x80) =
      .ok ⟨0, chars "d/x", .gzip⟩ := rfl
  have restores := all (named 0x80) [3, 0] .bytewise _ 10 _ _ _ _ _ _ (by decide) rfl
    (named_enters 0x80) rfl rfl rfl (by decide) ok rfl
  have time := restores.time (by decide) 0
  exact absurd time (by decide)

end CheriGzip.Gzip
