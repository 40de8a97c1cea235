import CheriGzip.Gzip.HeaderPositions
import CheriGzip.Gzip.Stored

/-!
# gzipi

`gzip_show` goes through the header of a file with `fread`, `fgetc` and `fseek`. Its offsets are
compared with the positions of the automaton of `gz_uncompress`. The extra field is taken for a
single subfield, whose length is at its third byte, and the value of the header CRC for a length.
-/
namespace CheriGzip.Gzipi

open Gzip

def gzmFlgFhcrc : UInt8 := 2
def gzmFlgFextra : UInt8 := 4
def gzmFlgFname : UInt8 := 8
def gzmFlgFcomment : UInt8 := 16

/-- `gzm_get` -/
def gzmGet (cptr : Bytes) : Nat := ofLe cptr

/-- `fread` of a whole structure at an offset; `none` is the `exit(1)` after a shorter one. -/
def fread (file : Bytes) (offset size : Nat) : Option Bytes :=
  if offset + size ≤ file.length then some (slice file offset size) else none

/-- `print_str` on what is behind an offset: the offset behind the NUL, and `none` for the `exit(1)`
at the end of the file. -/
def printStr : Bytes → Nat → Option Nat
  | [], _ => none
  | c :: rest, offset => if c = 0 then some (offset + 1) else printStr rest (offset + 1)

/-- The extra field: `gzip_read_extra`, and `fseek` by `gze_len`. -/
def showExtra (file : Bytes) (flg : UInt8) (offset : Nat) : Option Nat :=
  if flg &&& gzmFlgFextra ≠ 0 then
    (fread file offset 4).map fun gze => offset + 4 + gzmGet (slice gze 2 2)
  else some offset

/-- The name or the comment. -/
def showStr (file : Bytes) (flg flag : UInt8) (offset : Nat) : Option Nat :=
  if flg &&& flag ≠ 0 then printStr (file.drop offset) offset else some offset

/-- The header CRC: `gzip_read_hcrc`, and `fseek` by `gzhcrc_crc16`. -/
def showHcrc (file : Bytes) (flg : UInt8) (offset : Nat) : Option Nat :=
  if flg &&& gzmFlgFhcrc ≠ 0 then
    (fread file offset 2).map fun gzhcrc => offset + 2 + gzmGet gzhcrc
  else some offset

/-- The offsets at which the name, the comment and the CRC are read when they are flagged, and the
one behind the header. -/
structure Shown where
  nameAt : Nat
  commentAt : Nat
  crcAt : Nat
  dataAt : Nat
  deriving DecidableEq, Repr

/-- `gzip_show` on the bytes of a file; `none` is `exit(1)`. -/
def gzipShow (file : Bytes) : Option Shown := do
  let gzm ← fread file 0 10
  let flg := gzm.getD 3 0
  let nameAt ← showExtra file flg 10
  let commentAt ← showStr file flg gzmFlgFname nameAt
  let crcAt ← showStr file flg gzmFlgFcomment commentAt
  let dataAt ← showHcrc file flg crcAt
  let _ ← fread file (file.length - 8) 8
  some ⟨nameAt, commentAt, crcAt, dataAt⟩

variable {σ : Type}

/-- What is read is where the automaton enters the state for it, and so is the beginning of the
data. -/
structure Agrees (cfg : UConfig σ) (start : UState σ) (flags : UInt8) (shown : Shown) : Prop where
  name : flags &&& orignameFlag ≠ 0 → Enters cfg start .origname shown.nameAt
  comment : flags &&& commentFlag ≠ 0 → Enters cfg start .comment shown.commentAt
  crc : flags &&& headCrcFlag ≠ 0 → Enters cfg start .headCrc2 shown.crcAt
  data : Enters cfg start .init shown.dataAt

/-! ## The fields of a header -/

section

variable {h : Fields} {rest : Bytes}

theorem printStr_text {text : Bytes} (noNul : 0 ∉ text) (rest : Bytes) (offset : Nat) :
    printStr (text ++ [0] ++ rest) offset = some (offset + (text ++ [0]).length) := by
  induction text generalizing offset with
  | nil => rfl
  | cons c text ih =>
    have letter : ¬ c = 0 := fun nul => noNul (nul ▸ List.mem_cons_self)
    have next := ih (fun nul => noNul (List.mem_cons_of_mem c nul)) (offset + 1)
    rw [List.cons_append, List.cons_append, printStr, if_neg letter, next, List.length_cons]
    congr 1
    omega

/-- A string of the header is passed over when it is read where it is. -/
theorem showStr_field (front rest : Bytes) {field : Bytes} {flags flag : UInt8}
    (isString : IsString flags flag field) :
    showStr (front ++ (field ++ rest)) flags flag front.length =
      some (front.length + field.length) := by
  unfold IsString at isString
  by_cases unset : flags &&& flag = 0
  · rw [if_pos unset] at isString
    subst isString
    rw [showStr, if_neg (Classical.not_not.mpr unset)]
    rfl
  · rw [if_neg unset] at isString
    obtain ⟨text, noNul, rfl⟩ := isString
    rw [showStr, if_pos unset, List.drop_left]
    exact printStr_text noNul rest _

/-- What the value of the CRC adds to the offset of the data. -/
def crcJump (h : Fields) : Nat := if h.flags &&& headCrcFlag ≠ 0 then ofLe h.crc else 0

theorem fread_field {front field : Bytes} (rest : Bytes) {offset size : Nat}
    (before : front.length = offset)
    (length : field.length = size) : fread (front ++ (field ++ rest)) offset size = some field := by
  have inside : offset + size ≤ (front ++ (field ++ rest)).length := by
    rw [List.length_append, List.length_append]
    omega
  rw [fread, if_pos inside, slice_field before length]

theorem showHcrc_field (h : Fields) (front rest : Bytes) :
    showHcrc (front ++ (h.crc ++ rest)) h.flags front.length =
      some (front.length + h.crc.length + crcJump h) := by
  have length := h.isCrc
  unfold headCrcLength at length
  unfold showHcrc crcJump
  by_cases set : h.flags &&& headCrcFlag ≠ 0
  · have flagged : h.flags &&& gzmFlgFhcrc ≠ 0 := set
    rw [if_pos set] at length
    rw [if_pos set, if_pos flagged, fread_field _ rfl length, Option.map_some, length]
    rfl
  · have unflagged : ¬ h.flags &&& gzmFlgFhcrc ≠ 0 := set
    rw [if_neg set] at length
    rw [if_neg set, if_neg unflagged, length]
    rfl

/-- The first ten bytes, and the flags among them. -/
theorem firstTen (h : Fields) : ∃ ten : Bytes, ten.length = 10 ∧ ten.getD 3 0 = h.flags ∧
    h.bytes = ten ++ (h.extra ++ (h.name ++ (h.comment ++ h.crc))) :=
  ⟨gzipMagic0 :: h.magic :: zDeflated :: h.flags :: h.six, by simp [h.isSix], rfl, rfl⟩

/-- Read from where the name is, the rest of the header is read where it is. -/
theorem gzipShow_behind (h : Fields) (rest : Bytes)
    (aligned : showExtra (h.bytes ++ rest) h.flags 10 = some h.nameAt) :
    gzipShow (h.bytes ++ rest) =
      some ⟨h.nameAt, h.commentAt, h.crcAt, h.dataAt + crcJump h⟩ := by
  obtain ⟨ten, length, flags, bytes⟩ := firstTen h
  have file : h.bytes ++ rest =
      ten ++ (h.extra ++ (h.name ++ (h.comment ++ (h.crc ++ rest)))) := by
    rw [bytes]
    simp only [List.append_assoc]
  have member : fread (h.bytes ++ rest) 0 10 = some ten := by
    rw [file]
    exact @fread_field [] ten _ 0 10 rfl length
  have name : showStr (h.bytes ++ rest) h.flags gzmFlgFname h.nameAt = some h.commentAt := by
    have found := showStr_field (ten ++ h.extra) (h.comment ++ (h.crc ++ rest)) h.isName
    rw [List.length_append, length] at found
    rw [file, ← List.append_assoc]
    exact found
  have comment : showStr (h.bytes ++ rest) h.flags gzmFlgFcomment h.commentAt = some h.crcAt := by
    have found := showStr_field (ten ++ h.extra ++ h.name) (h.crc ++ rest) h.isComment
    rw [List.length_append, List.length_append, length] at found
    rw [file, ← List.append_assoc, ← List.append_assoc]
    exact found
  have crc : showHcrc (h.bytes ++ rest) h.flags h.crcAt = some (h.dataAt + crcJump h) := by
    have found := showHcrc_field h (ten ++ h.extra ++ h.name ++ h.comment) rest
    rw [List.length_append, List.length_append, List.length_append, length] at found
    rw [file, ← List.append_assoc, ← List.append_assoc, ← List.append_assoc]
    exact found
  have long : 10 ≤ (h.bytes ++ rest).length := by
    rw [file, List.length_append, length]
    omega
  have trailer : fread (h.bytes ++ rest) ((h.bytes ++ rest).length - 8) 8 =
      some (slice (h.bytes ++ rest) ((h.bytes ++ rest).length - 8) 8) := if_pos (by omega)
  simp only [gzipShow, member, Option.bind_some, Option.bind_eq_bind, flags, aligned, name, comment,
    crc, trailer]

/-- The extra field is passed over when its first subfield is all of it. -/
theorem showExtra_iff (h : Fields) (rest : Bytes) :
    showExtra (h.bytes ++ rest) h.flags 10 = some h.nameAt ↔
      (h.flags &&& extraFieldFlag ≠ 0 →
        ofLe (slice h.bytes 12 2) + 2 = ofLe (slice h.bytes 10 2)) := by
  obtain ⟨ten, length, -, bytes⟩ := firstTen h
  have isExtra := h.isExtra
  unfold IsExtra at isExtra
  by_cases unset : h.flags &&& extraFieldFlag = 0
  · have unflagged : ¬ h.flags &&& gzmFlgFextra ≠ 0 := Classical.not_not.mpr unset
    rw [if_pos unset] at isExtra
    rw [showExtra, if_neg unflagged, Fields.nameAt, isExtra]
    exact iff_of_true rfl fun set => absurd unset set
  · have flagged : h.flags &&& gzmFlgFextra ≠ 0 := unset
    rw [if_neg unset] at isExtra
    obtain ⟨lo, hi, body, isField, size⟩ := isExtra
    have nameAt : h.nameAt = 12 + body.length := by
      rw [Fields.nameAt, isField, List.length_cons, List.length_cons]
      omega
    have xlen : slice h.bytes 10 2 = [lo, hi] := by
      rw [bytes, isField]
      exact @slice_field ten [lo, hi] _ 10 2 length rfl
    rw [showExtra, if_pos flagged, nameAt, xlen, ← size]
    -- `gzipshow` takes the first two bytes of the field for another length.
    obtain short | ⟨a, b, body, rfl⟩ : body.length < 2 ∨ ∃ a b body', body = a :: b :: body' := by
      rcases body with _ | ⟨a, _ | ⟨b, body⟩⟩
      · exact .inl (Nat.zero_lt_two)
      · exact .inl (Nat.one_lt_two)
      · exact .inr ⟨a, b, body, rfl⟩
    · -- Fewer than two bytes have no length among them.
      constructor
      · intro found
        obtain ⟨gze, -, offset⟩ := Option.map_eq_some_iff.mp found
        omega
      · intro whole
        have := whole unset
        omega
    · have gze : fread (h.bytes ++ rest) 10 4 = some [lo, hi, a, b] := by
        rw [bytes, isField]
        simp only [List.append_assoc, List.cons_append]
        exact @fread_field ten [lo, hi, a, b] _ 10 4 length rfl
      have len : slice h.bytes 12 2 = [a, b] := by
        have found := @slice_field (ten ++ [lo, hi]) [a, b]
          (body ++ (h.name ++ (h.comment ++ h.crc))) 12 2 (by simp [length]) rfl
        rw [bytes, isField]
        simpa using found
      -- Both sides are now the same equation between numbers.
      rw [gze, len, Option.map_some, Option.some.injEq]
      show 10 + 4 + ofLe [a, b] = _ ↔ _
      rw [List.length_cons, List.length_cons]
      constructor
      · intro same _
        omega
      · intro whole
        have := whole unset
        omega

end

/-! ## Agreement -/

/-- `gzip_show` on a file agrees with the automaton. -/
def ShowAgrees (cfg : UConfig σ) (start : UState σ) (flags : UInt8) (file : Bytes) : Prop :=
  ∃ shown, gzipShow file = some shown ∧ Agrees cfg start flags shown

/-- The sections of `gzip_show`, one after the other. -/
theorem gzipShow_sections {h : Fields} {rest : Bytes} {shown : Shown}
    (shows : gzipShow (h.bytes ++ rest) = some shown) :
    showExtra (h.bytes ++ rest) h.flags 10 = some shown.nameAt ∧
      showStr (h.bytes ++ rest) h.flags gzmFlgFname shown.nameAt = some shown.commentAt ∧
      showStr (h.bytes ++ rest) h.flags gzmFlgFcomment shown.commentAt = some shown.crcAt ∧
      showHcrc (h.bytes ++ rest) h.flags shown.crcAt = some shown.dataAt := by
  obtain ⟨ten, length, flags, bytes⟩ := firstTen h
  have member : fread (h.bytes ++ rest) 0 10 = some ten := by
    rw [bytes, List.append_assoc]
    exact @fread_field [] ten _ 0 10 rfl length
  unfold gzipShow at shows
  simp only [member, Option.bind_eq_bind, Option.bind_some, flags] at shows
  obtain ⟨nameAt, extra, shows⟩ := Option.bind_eq_some_iff.mp shows
  obtain ⟨commentAt, name, shows⟩ := Option.bind_eq_some_iff.mp shows
  obtain ⟨crcAt, comment, shows⟩ := Option.bind_eq_some_iff.mp shows
  obtain ⟨dataAt, crc, shows⟩ := Option.bind_eq_some_iff.mp shows
  obtain ⟨_, _, shows⟩ := Option.bind_eq_some_iff.mp shows
  cases shows
  exact ⟨extra, name, comment, crc⟩

theorem showStr_unset {file : Bytes} {flags flag : UInt8} {offset next : Nat}
    (unset : ¬ flags &&& flag ≠ 0) (shows : showStr file flags flag offset = some next) :
    next = offset := by
  rw [showStr, if_neg unset] at shows
  exact (Option.some.inj shows).symm

theorem isString_unset {flags flag : UInt8} {field : Bytes} (isString : IsString flags flag field)
    (unset : ¬ flags &&& flag ≠ 0) : field = [] := by
  unfold IsString at isString
  rwa [if_pos (Classical.not_not.mp unset)] at isString

/-- The first flagged field is read at the offset behind the extra field, or else the data begins
there. -/
theorem Agrees.nameAt {h : Fields} {rest : Bytes} {shown : Shown} {cfg : UConfig σ}
    {start : UState σ} (agrees : Agrees cfg start h.flags shown)
    (shows : gzipShow (h.bytes ++ rest) = some shown) (name : Enters cfg start .origname h.nameAt)
    (comment : Enters cfg start .comment h.commentAt) (crc : Enters cfg start .headCrc2 h.crcAt)
    (data : Enters cfg start .init h.dataAt) : shown.nameAt = h.nameAt := by
  obtain ⟨-, toComment, toCrc, toData⟩ := gzipShow_sections shows
  by_cases fname : h.flags &&& orignameFlag ≠ 0
  · exact (agrees.name fname).unique name
  · have commentAt := showStr_unset fname toComment
    have noName := isString_unset h.isName fname
    have sameComment : h.commentAt = h.nameAt := by rw [Fields.commentAt, noName]; rfl
    by_cases fcomment : h.flags &&& commentFlag ≠ 0
    · have := (agrees.comment fcomment).unique comment
      omega
    · have crcAt := showStr_unset fcomment toCrc
      have noComment := isString_unset h.isComment fcomment
      have sameCrc : h.crcAt = h.commentAt := by rw [Fields.crcAt, noComment]; rfl
      by_cases fhcrc : h.flags &&& headCrcFlag ≠ 0
      · have := (agrees.crc fhcrc).unique crc
        omega
      · have length := h.isCrc
        have unflagged : ¬ h.flags &&& gzmFlgFhcrc ≠ 0 := fhcrc
        rw [headCrcLength, if_neg fhcrc] at length
        rw [showHcrc, if_neg unflagged] at toData
        have dataAt := Option.some.inj toData
        have sameData : h.dataAt = h.crcAt := by rw [Fields.dataAt, length]; rfl
        have := agrees.data.unique data
        omega

/-- `gzip_show` reads the fields where the automaton finds them when an extra field is one subfield
and a header CRC is zero, and only then. -/
theorem gzip_show_agrees_iff (h : Fields) {cfg : UConfig σ}
    (reads : ∀ k, cfg.env.reads k ≠ .fails) (room : 0 < cfg.buflen.size) {pre : Bytes}
    (short : pre.length < 2 ^ 32) {w : World} {rest : Bytes} (follows : rest ≠ [])
    (input : pre ++ w.input = h.bytes ++ rest) :
    ShowAgrees cfg (uncompressStart cfg pre w) h.flags (h.bytes ++ rest) ↔
      (h.flags &&& extraFieldFlag ≠ 0 →
        ofLe (slice h.bytes 12 2) + 2 = ofLe (slice h.bytes 10 2)) ∧
      (h.flags &&& headCrcFlag ≠ 0 → ofLe h.crc = 0) := by
  obtain ⟨name, comment, crc, data⟩ := h.enters reads room short follows input
  rw [← showExtra_iff h rest]
  constructor
  · rintro ⟨shown, shows, agrees⟩
    have aligned : showExtra (h.bytes ++ rest) h.flags 10 = some h.nameAt := by
      rw [← agrees.nameAt shows name comment crc data]
      exact (gzipShow_sections shows).1
    refine ⟨aligned, fun flagged => ?_⟩
    rw [gzipShow_behind h rest aligned] at shows
    cases shows
    have same := agrees.data.unique data
    simp only [crcJump, if_pos flagged] at same
    omega
  · rintro ⟨aligned, zero⟩
    have stays : crcJump h = 0 := by
      unfold crcJump
      split
      next flagged => exact zero flagged
      next => rfl
    refine ⟨_, gzipShow_behind h rest aligned, ?_⟩
    rw [stays, Nat.add_zero]
    exact ⟨fun _ => name, fun _ => comment, fun _ => crc, data⟩

/-- An extra field with one empty subfield, and a name. -/
def subfielded : Fields where
  magic := gzipMagic1
  flags := 0x0c
  six := [0, 0, 0, 0, 0, 3]
  extra := [4, 0, 0x41, 0x70, 0, 0]
  name := [0x61, 0]
  comment := []
  crc := []
  isMagic := gzipMagic1_isMagic
  isSix := rfl
  isExtra := ⟨4, 0, [0x41, 0x70, 0, 0], rfl, rfl⟩
  isName := ⟨[0x61], by decide, rfl⟩
  isComment := .absent rfl
  isCrc := headCrcLength_absent rfl

/-- A header CRC of 1. -/
def checked : Fields where
  magic := gzipMagic1
  flags := 0x02
  six := [0, 0, 0, 0, 0, 3]
  extra := []
  name := []
  comment := []
  crc := [1, 0]
  isMagic := gzipMagic1_isMagic
  isSix := rfl
  isExtra := .absent rfl
  isName := .absent rfl
  isComment := .absent rfl
  isCrc := rfl

def stored (h : Fields) : World := ⟨h.bytes ++ [3, 0], [], 0, 0, 0, []⟩

theorem steady_reads (n k : Nat) : (Env.steady n).reads k ≠ .fails := Arrival.noConfusion

theorem gzip_show_agrees_subfielded :
    ShowAgrees ⟨storedInflate, .steady 1, ⟨4, by decide⟩, false, "a.gz"⟩
        (uncompressStart ⟨storedInflate, .steady 1, ⟨4, by decide⟩, false, "a.gz"⟩ []
          (stored subfielded))
        subfielded.flags (subfielded.bytes ++ [3, 0]) ↔
      (subfielded.flags &&& extraFieldFlag ≠ 0 →
        ofLe (slice subfielded.bytes 12 2) + 2 = ofLe (slice subfielded.bytes 10 2)) ∧
      (subfielded.flags &&& headCrcFlag ≠ 0 → ofLe subfielded.crc = 0) :=
  gzip_show_agrees_iff subfielded (steady_reads 1) (by decide) (by decide) (by decide) rfl

/-- The data of `checked` begin behind 12 bytes, and `gzip_show` takes them to begin behind 13. -/
theorem gzip_show_checked :
    ¬ ∀ (h : Fields) (cfg : UConfig StoredIn), (∀ k, cfg.env.reads k ≠ .fails) →
      0 < cfg.buflen.size → ∀ (w : World) (rest : Bytes), rest ≠ [] → w.input = h.bytes ++ rest →
        ShowAgrees cfg (uncompressStart cfg [] w) h.flags (h.bytes ++ rest) := by
  intro all
  let cfg : UConfig StoredIn := ⟨storedInflate, .steady 1, ⟨4, by decide⟩, false, "a.gz"⟩
  obtain ⟨shown, shows, agrees⟩ := all checked cfg (steady_reads 1) (by decide) (stored checked)
    [3, 0] (by decide) rfl
  have offsets : gzipShow (checked.bytes ++ [3, 0]) = some ⟨10, 10, 10, 13⟩ := by decide
  obtain ⟨-, -, -, data⟩ := checked.enters (steady_reads 1) (by decide : 0 < cfg.buflen.size)
    (by decide : ([] : Bytes).length < 2 ^ 32) (by decide : ([3, 0] : Bytes) ≠ [])
    (w := stored checked) rfl
  rw [offsets] at shows
  cases shows
  exact absurd (agrees.data.unique data) (by decide)

end CheriGzip.Gzipi
