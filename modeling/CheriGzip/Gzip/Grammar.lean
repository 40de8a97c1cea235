import CheriGzip.Gzip.Uncompress

/-!
# The gzip grammar

What a gzip input is, as a statement about bytes, and a scanner for member headers that
reads one field at a time, in the order of the states of `gz_uncompress`.
-/
namespace CheriGzip.Gzip

/-! ## Members -/

/-- The extra field: a 16-bit length and as many bytes, if flagged. -/
def IsExtra (flags : UInt8) (field : Bytes) : Prop :=
  if flags &&& extraFieldFlag = 0 then field = []
  else ∃ lo hi body, field = lo :: hi :: body ∧ body.length = ofLe [lo, hi]

/-- A NUL-terminated field, if flagged. -/
def IsString (flags flag : UInt8) (field : Bytes) : Prop :=
  if flags &&& flag = 0 then field = [] else ∃ text, 0 ∉ text ∧ field = text ++ [0]

/-- The length of the header CRC. -/
def headCrcLength (flags : UInt8) : Nat := if flags &&& headCrcFlag ≠ 0 then 2 else 0

/-- The magic that `gz_compress` writes. -/
theorem gzipMagic1_isMagic : gzipMagic1 = gzipMagic1 ∨ gzipMagic1 = gzipOmagic1 := .inl rfl

theorem IsExtra.absent {flags : UInt8} (off : flags &&& extraFieldFlag = 0) : IsExtra flags [] := by
  rw [IsExtra, if_pos off]

theorem IsString.absent {flags flag : UInt8} (off : flags &&& flag = 0) :
    IsString flags flag [] := by
  rw [IsString, if_pos off]

theorem headCrcLength_absent {flags : UInt8} (off : flags &&& headCrcFlag = 0) :
    ([] : Bytes).length = headCrcLength flags := by
  rw [headCrcLength, if_neg (not_not_intro off), List.length_nil]

/-- The header of a member: magic, method, flags, six bytes (time, extra flags and system),
and the fields that the flags announce. -/
inductive IsHeader : Bytes → Prop where
  | mk {magic flags : UInt8} {six extra name comment crc : Bytes}
      (isMagic : magic = gzipMagic1 ∨ magic = gzipOmagic1) (isSix : six.length = 6)
      (isExtra : IsExtra flags extra) (isName : IsString flags orignameFlag name)
      (isComment : IsString flags commentFlag comment)
      (isCrc : crc.length = headCrcLength flags) :
      IsHeader (gzipMagic0 :: magic :: zDeflated :: flags ::
        (six ++ (extra ++ (name ++ (comment ++ crc)))))

/-- The trailer of a member: the CRC of its payload and the payload's length mod 2^32. -/
def trailer (payload : Bytes) : Bytes :=
  le 4 (crc32 crc32Null payload).toNat ++ le 4 payload.length

/-- A member and its payload: header, a complete raw deflate stream, trailer. -/
def Member (F : Format) (m payload : Bytes) : Prop :=
  ∃ header z, IsHeader header ∧ F.Ends z ∧ payload = F.payload z ∧
    m = header ++ (z ++ trailer payload)

/-- Bytes that do not start another member. -/
def Garbage (g : Bytes) : Prop := g.head? ≠ some gzipMagic0

/-- A gzip input with trailing garbage `g`: a nonempty sequence of members and then `g`;
`payload` is the concatenation of the members' payloads. -/
def AcceptsWith (F : Format) (input payload g : Bytes) : Prop :=
  ∃ members : List (Bytes × Bytes), members ≠ [] ∧ (∀ m ∈ members, Member F m.1 m.2) ∧
    Garbage g ∧ input = (members.map Prod.fst).flatten ++ g ∧
    payload = (members.map Prod.snd).flatten

/-- A gzip input and its full decoding. -/
def Accepts (F : Format) (input payload : Bytes) : Prop := ∃ g, AcceptsWith F input payload g

/-! ## Scanning a header -/

def skipBytes (n : Nat) (bs : Bytes) : Option Bytes :=
  if n ≤ bs.length then some (bs.drop n) else none

def skipString : Bytes → Option Bytes
  | [] => none
  | b :: bs => if b = 0 then some bs else skipString bs

def scanHeadCrc (flags : UInt8) (bs : Bytes) : Option Bytes := skipBytes (headCrcLength flags) bs

def scanComment (flags : UInt8) (bs : Bytes) : Option Bytes :=
  (if flags &&& commentFlag = 0 then some bs else skipString bs).bind (scanHeadCrc flags)

def scanOrigname (flags : UInt8) (bs : Bytes) : Option Bytes :=
  (if flags &&& orignameFlag = 0 then some bs else skipString bs).bind (scanComment flags)

def scanExtra3 (flags : UInt8) (skip : Nat) (bs : Bytes) : Option Bytes :=
  (skipBytes skip bs).bind (scanOrigname flags)

def scanExtra2 (flags : UInt8) (skip : Nat) : Bytes → Option Bytes
  | [] => none
  | b :: bs => scanExtra3 flags (skip ||| b.toNat <<< 8) bs

def scanExtra (flags : UInt8) (bs : Bytes) : Option Bytes :=
  if flags &&& extraFieldFlag = 0 then scanOrigname flags bs
  else match bs with
    | [] => none
    | b :: bs => scanExtra2 flags b.toNat bs

def scanSkipping (flags : UInt8) (skip : Nat) (bs : Bytes) : Option Bytes :=
  (skipBytes skip bs).bind (scanExtra flags)

def scanFlags : Bytes → Option Bytes
  | [] => none
  | flags :: bs => scanSkipping flags 6 bs

def scanMethod : Bytes → Option Bytes
  | [] => none
  | b :: bs => if b = zDeflated then scanFlags bs else none

def scanMagic1 : Bytes → Option Bytes
  | [] => none
  | b :: bs => if b = gzipMagic1 ∨ b = gzipOmagic1 then scanMethod bs else none

/-- The rest of the input after a member's header. -/
def scanHeader : Bytes → Option Bytes
  | [] => none
  | b :: bs => if b = gzipMagic0 then scanMagic1 bs else none

theorem skipBytes_some {n : Nat} {bs rest : Bytes} :
    skipBytes n bs = some rest ↔ ∃ field, field.length = n ∧ bs = field ++ rest := by
  unfold skipBytes
  constructor
  · intro some
    split at some
    next enough =>
      cases some
      exact ⟨bs.take n, by rw [List.length_take]; omega, (List.take_append_drop n bs).symm⟩
    · cases some
  · rintro ⟨field, rfl, rfl⟩
    simp

@[simp] theorem skipBytes_zero (bs : Bytes) : skipBytes 0 bs = some bs := by
  simp [skipBytes]

@[simp] theorem skipBytes_cons (n : Nat) (b : UInt8) (bs : Bytes) :
    skipBytes (n + 1) (b :: bs) = skipBytes n bs := by
  simp [skipBytes]

theorem skipString_some {bs rest : Bytes} :
    skipString bs = some rest ↔ ∃ text, 0 ∉ text ∧ bs = (text ++ [0]) ++ rest := by
  induction bs with
  | nil => simp [skipString]
  | cons b bs ih =>
    unfold skipString
    by_cases nul : b = 0
    · subst nul
      simp only [if_true, Option.some.injEq]
      constructor
      · rintro rfl
        exact ⟨[], by simp, rfl⟩
      · rintro ⟨text, free, same⟩
        cases text with
        | nil => simpa using same
        | cons c text => simp_all
    · simp only [nul, if_false, ih]
      constructor
      · rintro ⟨text, free, rfl⟩
        exact ⟨b :: text, by simp [free, Ne.symm nul], rfl⟩
      · rintro ⟨text, free, same⟩
        cases text with
        | nil => simp_all
        | cons c text =>
          simp only [List.cons_append, List.cons.injEq] at same
          exact ⟨text, fun mem => free (List.mem_cons_of_mem c mem), same.2⟩

/-- A flagged string, as a field and as a step of the scanner. -/
theorem scanString_some {flags flag : UInt8} {next : Bytes → Option Bytes} {bs rest : Bytes} :
    (if flags &&& flag = 0 then some bs else skipString bs).bind next = some rest ↔
      ∃ field tail, IsString flags flag field ∧ bs = field ++ tail ∧ next tail = some rest := by
  unfold IsString
  by_cases unset : flags &&& flag = 0
  · simp [unset]
  · simp only [unset, if_false, Option.bind_eq_some_iff, skipString_some]
    constructor
    · rintro ⟨tail, ⟨text, free, rfl⟩, scanned⟩
      exact ⟨text ++ [0], tail, ⟨text, free, rfl⟩, rfl, scanned⟩
    · rintro ⟨_, tail, ⟨text, free, rfl⟩, rfl, scanned⟩
      exact ⟨tail, ⟨text, free, rfl⟩, scanned⟩

theorem or_shift_eq (lo hi : UInt8) : lo.toNat ||| hi.toNat <<< 8 = ofLe [lo, hi] := by
  have low : lo.toNat < 2 ^ 8 := lo.toNat_lt
  rw [Nat.or_comm, ← Nat.shiftLeft_add_eq_or_of_lt low, Nat.shiftLeft_eq]
  simp only [ofLe]
  omega

theorem scanExtra_some {flags : UInt8} {bs rest : Bytes} :
    scanExtra flags bs = some rest ↔
      ∃ field tail, IsExtra flags field ∧ bs = field ++ tail ∧
        scanOrigname flags tail = some rest := by
  unfold scanExtra IsExtra
  by_cases unset : flags &&& extraFieldFlag = 0
  · simp [unset]
  · simp only [unset, if_false]
    constructor
    · intro some
      rcases bs with _ | ⟨lo, _ | ⟨hi, bs⟩⟩
      · cases some
      · cases some
      · simp only [scanExtra2, scanExtra3, Option.bind_eq_some_iff, skipBytes_some,
          or_shift_eq] at some
        obtain ⟨tail, ⟨body, length, rfl⟩, scanned⟩ := some
        exact ⟨lo :: hi :: body, tail, ⟨lo, hi, body, rfl, length⟩, rfl, scanned⟩
    · rintro ⟨_, tail, ⟨lo, hi, body, rfl, length⟩, rfl, scanned⟩
      simp only [List.cons_append, scanExtra2, scanExtra3, or_shift_eq, Option.bind_eq_some_iff]
      exact ⟨tail, skipBytes_some.mpr ⟨body, length, rfl⟩, scanned⟩

/-- The scanner finds exactly the headers of the grammar. -/
theorem scanHeader_some {bs rest : Bytes} :
    scanHeader bs = some rest ↔ ∃ header, IsHeader header ∧ bs = header ++ rest := by
  constructor
  · intro some
    rcases bs with _ | ⟨b0, _ | ⟨b1, _ | ⟨b2, _ | ⟨flags, bs⟩⟩⟩⟩ <;>
      simp only [scanHeader, scanMagic1, scanMethod, scanFlags, Option.ite_none_right_eq_some,
        reduceCtorEq, and_false] at some
    obtain ⟨rfl, isMagic, rfl, afterFlags⟩ := some
    obtain ⟨_, skipped, afterSix⟩ := Option.bind_eq_some_iff.mp afterFlags
    obtain ⟨six, isSix, rfl⟩ := skipBytes_some.mp skipped
    obtain ⟨extra, _, isExtra, rfl, afterExtra⟩ := scanExtra_some.mp afterSix
    obtain ⟨name, _, isName, rfl, afterName⟩ := scanString_some.mp afterExtra
    obtain ⟨comment, _, isComment, rfl, afterComment⟩ := scanString_some.mp afterName
    obtain ⟨crc, isCrc, rfl⟩ := skipBytes_some.mp afterComment
    exact ⟨_, .mk isMagic isSix isExtra isName isComment isCrc, by simp⟩
  · rintro ⟨_, ⟨isMagic, isSix, isExtra, isName, isComment, isCrc⟩, rfl⟩
    simp only [List.cons_append, List.append_assoc, scanHeader, scanMagic1, scanMethod, scanFlags,
      isMagic, if_true, scanSkipping]
    apply Option.bind_eq_some_iff.mpr
    refine ⟨_, skipBytes_some.mpr ⟨_, isSix, rfl⟩, ?_⟩
    apply scanExtra_some.mpr
    refine ⟨_, _, isExtra, rfl, ?_⟩
    apply scanString_some.mpr
    refine ⟨_, _, isName, rfl, ?_⟩
    apply scanString_some.mpr
    refine ⟨_, _, isComment, rfl, ?_⟩
    exact skipBytes_some.mpr ⟨_, isCrc, rfl⟩

/-! ## Inputs, member by member -/

/-- Any number of members and then garbage. -/
inductive Chain (F : Format) : Bytes → Bytes → Bytes → Prop where
  | stop {g : Bytes} (garbage : Garbage g) : Chain F g [] g
  | member {m v t vs g : Bytes} (first : Member F m v) (others : Chain F t vs g) :
      Chain F (m ++ t) (v ++ vs) g

variable {F : Format}

theorem Member.head {m v : Bytes} (member : Member F m v) (t : Bytes) :
    (m ++ t).head? = some gzipMagic0 := by
  obtain ⟨_, _, ⟨_, _, _, _, _, _⟩, _, _, rfl⟩ := member
  rfl

theorem acceptsWith_iff_chain {input payload g : Bytes}
    (starts : input.head? = some gzipMagic0) :
    AcceptsWith F input payload g ↔ Chain F input payload g := by
  constructor
  · rintro ⟨members, -, all, garbage, rfl, rfl⟩
    clear starts
    induction members with
    | nil => exact .stop garbage
    | cons m members ih =>
      simp only [List.map_cons, List.flatten_cons, List.append_assoc]
      apply Chain.member (all m List.mem_cons_self)
      exact ih fun m' mem => all m' (List.mem_cons_of_mem m mem)
  · intro chain
    have list : ∃ members : List (Bytes × Bytes), (∀ m ∈ members, Member F m.1 m.2) ∧
        Garbage g ∧ input = (members.map Prod.fst).flatten ++ g ∧
        payload = (members.map Prod.snd).flatten := by
      clear starts
      induction chain with
      | stop garbage => exact ⟨[], by simp, garbage, by simp, rfl⟩
      | @member m v t vs g first _ ih =>
        obtain ⟨members, all, garbage, rfl, rfl⟩ := ih
        refine ⟨(m, v) :: members, ?_, garbage, by simp, by simp⟩
        rintro p (_ | ⟨_, mem⟩)
        · exact first
        · exact all p mem
    obtain ⟨members, all, garbage, rfl, rfl⟩ := list
    refine ⟨members, ?_, all, garbage, rfl, rfl⟩
    rintro rfl
    exact garbage (by simpa using starts)

/-- What follows a member's header: the stream, the trailer, and the rest of the input. -/
def Body (F : Format) (input payload g : Bytes) : Prop :=
  ∃ z t vs, F.Ends z ∧ input = z ++ (trailer (F.payload z) ++ t) ∧
    payload = F.payload z ++ vs ∧ Chain F t vs g

theorem chain_header {input payload g : Bytes} (starts : input.head? = some gzipMagic0) :
    Chain F input payload g ↔
      ∃ rest, scanHeader input = some rest ∧ Body F rest payload g := by
  constructor
  · intro chain
    cases chain with
    | stop garbage => exact absurd starts garbage
    | @member m v t vs _ first others =>
      obtain ⟨header, z, isHeader, ends, rfl, rfl⟩ := first
      refine ⟨z ++ (trailer (F.payload z) ++ t), ?_, z, t, vs, ends, rfl, rfl, others⟩
      exact scanHeader_some.mpr ⟨header, isHeader, by simp⟩
  · rintro ⟨_, scanned, z, t, vs, ends, rfl, rfl, others⟩
    obtain ⟨header, isHeader, rfl⟩ := scanHeader_some.mp scanned
    have member : Member F (header ++ (z ++ trailer (F.payload z))) (F.payload z) :=
      ⟨header, z, isHeader, ends, rfl, rfl⟩
    simpa using Chain.member member others

theorem chain_garbage {input payload g : Bytes} (garbage : Garbage input) :
    Chain F input payload g ↔ payload = [] ∧ g = input := by
  constructor
  · intro chain
    cases chain with
    | stop => exact ⟨rfl, rfl⟩
    | member first => exact absurd (first.head _) garbage
  · rintro ⟨rfl, rfl⟩
    exact .stop garbage

end CheriGzip.Gzip
