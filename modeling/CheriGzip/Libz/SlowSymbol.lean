import CheriGzip.Libz.Match
import CheriGzip.Libz.Tables

/-!
# What a symbol is

The symbol at a bit of the stream: where it ends, what it puts, and the mode and the message that
it leaves. The states `LEN` to `LIT` decode it.
-/
namespace CheriGzip.Inflate

open Loop

/-! ## Entries -/

/-- What an entry for a literal or a length can be. -/
inductive LenCode (e : Code) : Prop where
  | literal (op : e.op = 0)
  | base {extra : Nat} (few : extra ≤ 5) (op : e.op = 16 + extra) (long : 3 ≤ e.val)
      (short : e.val + 2 ^ extra ≤ 259)
  | endOfBlock (op : e.op = 96)
  | invalid {low : Nat} (few : low < 16) (op : e.op = 64 + low)

/-- What an entry for a distance can be. -/
inductive DistCode (e : Code) : Prop where
  | base {extra : Nat} (few : extra ≤ 13) (op : e.op = 16 + extra) (some : 1 ≤ e.val)
  | invalid {low : Nat} (few : low < 16) (op : e.op = 64 + low)

def IsLink (e : Code) : Prop := 1 ≤ e.op ∧ e.op < 16

def lenKind : CodeKind := ⟨IsLink, LenCode⟩

def distKind : CodeKind := ⟨IsLink, DistCode⟩

theorem op_link : ∀ op < 16, op &&& 16 = 0 ∧ op &&& 64 = 0 ∧ op &&& 0xf0 = 0 := by
  decide

theorem op_base : ∀ extra < 16, (16 + extra) &&& 16 ≠ 0 ∧ (16 + extra) &&& 15 = extra ∧
    (16 + extra) &&& 32 = 0 ∧ (16 + extra) &&& 64 = 0 ∧ (16 + extra) &&& 0xf0 ≠ 0 := by
  decide

theorem op_invalid : ∀ low < 16, (64 + low) &&& 16 = 0 ∧ (64 + low) &&& 32 = 0 ∧
    (64 + low) &&& 64 ≠ 0 ∧ (64 + low) &&& 0xf0 ≠ 0 := by
  decide

/-! The tests look at the two high digits of `op`: the states at `0xf0`, `inflate_fast` at 16 and
at 64. They fall out alike on every entry. -/

theorem IsLink.bits {e : Code} (link : IsLink e) :
    e.op ≠ 0 ∧ e.op &&& 16 = 0 ∧ e.op &&& 64 = 0 ∧ e.op &&& 0xf0 = 0 :=
  ⟨Nat.ne_of_gt link.1, op_link e.op link.2⟩

theorem LenCode.bits {e : Code} (code : LenCode e) :
    e.op = 0 ∨ e.op &&& 0xf0 ≠ 0 ∧ (e.op &&& 16 ≠ 0 ∨ e.op &&& 64 ≠ 0) := by
  rcases code with op | ⟨few, op, _, _⟩ | op | ⟨few, op⟩
  · exact .inl op
  · have base := op_base _ (Nat.lt_of_le_of_lt few (by decide))
    rw [op]
    exact .inr ⟨base.2.2.2.2, .inl base.1⟩
  · rw [op]
    decide
  · have invalid := op_invalid _ few
    rw [op]
    exact .inr ⟨invalid.2.2.2, .inr invalid.2.2.1⟩

theorem DistCode.bits {e : Code} (code : DistCode e) :
    e.op &&& 0xf0 ≠ 0 ∧ (e.op &&& 16 ≠ 0 ∨ e.op &&& 64 ≠ 0) := by
  rcases code with ⟨few, op, _⟩ | ⟨few, op⟩
  · have base := op_base _ (Nat.lt_of_le_of_lt few (by decide))
    rw [op]
    exact ⟨base.2.2.2.2, .inl base.1⟩
  · have invalid := op_invalid _ few
    rw [op]
    exact ⟨invalid.2.2.2, .inr invalid.2.2.1⟩

/-- The test of `case LEN`. -/
theorem lenTest : lenKind.Tests (fun here => here.op ≠ 0 ∧ here.op &&& 0xf0 = 0) where
  link link := by simp [link.bits]
  code code := by rcases code.bits with op | bits <;> simp [*]

/-- The test of `case DIST`. -/
theorem distTest : distKind.Tests (fun here => here.op &&& 0xf0 = 0) where
  link link := by simp [link.bits]
  code code := by simp [code.bits]

/-- The test at `dolen`. -/
theorem dolenTest :
    lenKind.Tests (fun here => here.op ≠ 0 ∧ here.op &&& 16 = 0 ∧ here.op &&& 64 = 0) where
  link link := by simp [link.bits]
  code code := by rcases code.bits with op | ⟨-, bits | bits⟩ <;> simp [*]

/-- The test at `dodist`. -/
theorem dodistTest :
    distKind.Tests (fun here => here.op &&& 16 = 0 ∧ here.op &&& 64 = 0) where
  link link := by simp [link.bits]
  code code := by rcases code.bits with ⟨-, bits | bits⟩ <;> simp [bits]

/-! ## Symbols -/

/-- What decoding a symbol goes by, beside the input and the output. -/
structure Context where
  lencode : List Code
  lenbits : Nat
  distcode : List Code
  distbits : Nat
  window : Window
  sane : Bool
  msg : Option String

def State.context (s : State) : Context :=
  ⟨s.lencode, s.lenbits, s.distcode, s.distbits, s.window, s.sane, s.msg⟩

/-- The tables are as `inflate_table` makes them, the window is a window, and distances are
checked. -/
structure Context.Sound (k : Context) : Prop where
  lens : WellFormed lenKind k.lencode k.lenbits
  dists : WellFormed distKind k.distcode k.distbits
  window : k.window.Sound
  sane : k.sane = true

/-- At bit `c` there is a length, and it ends at the bit given. -/
inductive LengthAt (k : Context) (x c : Nat) : (len c' : Nat) → Prop where
  | mk {e : Code} {n extra : Nat} (code : EntryAt lenKind k.lencode k.lenbits x c e n)
      (few : extra ≤ 5) (op : e.op = 16 + extra) :
      LengthAt k x c (e.val + bitField x (c + n) extra) (c + n + extra)

/-- At bit `c` there is a distance, and it ends at the bit given. -/
inductive DistanceAt (k : Context) (x c : Nat) : (dist c' : Nat) → Prop where
  | mk {e : Code} {n extra : Nat} (code : EntryAt distKind k.distcode k.distbits x c e n)
      (few : extra ≤ 13) (op : e.op = 16 + extra) :
      DistanceAt k x c (e.val + bitField x (c + n) extra) (c + n + extra)

/-- The symbol at bit `c`, when `out` has been put: the bit behind it, the output with it, and how
it leaves the state. -/
inductive SymbolAt (k : Context) (x c : Nat) (out : Bytes) : (c' : Nat) → Bytes → Break → Prop where
  | literal {e : Code} {n : Nat} (code : EntryAt lenKind k.lencode k.lenbits x c e n)
      (op : e.op = 0) :
      SymbolAt k x c out (c + n) (out ++ [UInt8.ofNat e.val]) ⟨.len, k.msg⟩
  | endOfBlock {e : Code} {n : Nat} (code : EntryAt lenKind k.lencode k.lenbits x c e n)
      (op : e.op = 96) : SymbolAt k x c out (c + n) out ⟨.type, k.msg⟩
  | badLength {e : Code} {n low : Nat} (code : EntryAt lenKind k.lencode k.lenbits x c e n)
      (few : low < 16) (op : e.op = 64 + low) :
      SymbolAt k x c out (c + n) out ⟨.bad, "invalid literal/length code"⟩
  | badDistance {e : Code} {len c' n low : Nat} (length : LengthAt k x c len c')
      (code : EntryAt distKind k.distcode k.distbits x c' e n) (few : low < 16)
      (op : e.op = 64 + low) : SymbolAt k x c out (c' + n) out ⟨.bad, "invalid distance code"⟩
  | tooFar {len c' dist c'' : Nat} (length : LengthAt k x c len c')
      (distance : DistanceAt k x c' dist c'') (far : out.length + k.window.whave < dist) :
      SymbolAt k x c out c'' out ⟨.bad, "invalid distance too far back"⟩
  | copied {len c' dist c'' : Nat} {out' : Bytes} (length : LengthAt k x c len c')
      (distance : DistanceAt k x c' dist c'') (near : dist ≤ out.length + k.window.whave)
      (long : 0 < len) (copy : copyMatch k.window dist len out = some out') :
      SymbolAt k x c out c'' out' ⟨.len, k.msg⟩

/-! ## The states decode a symbol -/

/-- One state on, with no more put. -/
structure State.Keeps (s s' : State) : Prop where
  context : s'.context = s.context
  out : s'.out = s.out
  left : s'.left = s.left

theorem State.Keeps.trans {s mid s' : State} (first : s.Keeps mid) (second : mid.Keeps s') :
    s.Keeps s' :=
  ⟨second.context.trans first.context, second.out.trans first.out, second.left.trans first.left⟩

section

variable {mem : Memory} {x : BitStream} {s : State} {c c' n : Nat} {α : Type}

theorem Reads.inside {bits need : Nat} {a : α} {r : Pulled α} (reads : Reads x c bits need a r)
    (enough : c + need ≤ x.total) :
    ∃ i, r = .got a i ∧ i.At x (c + need) ∧ (bits < 8 → i.bits < 8) := by
  cases reads with
  | got pos few => exact ⟨_, rfl, pos, few⟩
  | short pos none lacks =>
    have total := pos.total
    omega

theorem Pulls.inside {bits need : Nat} {a : α} {r : Pulled α} (pulls : Pulls x c bits need a r)
    (enough : c + need ≤ x.total) :
    ∃ i, r = .got a i ∧ (i.drop need).At x (c + need) ∧ (bits < 8 → (i.drop need).bits < 8) := by
  cases pulls with
  | got pos held few =>
    refine ⟨_, rfl, pos.drop held, ?_⟩
    simp only [Input.drop]
    omega
  | short pos none lacks =>
    have total := pos.total
    omega

theorem goes_inside {s' : State} (step : symbolStep mem s = .again s')
    (inside : ¬ s'.mode.Between) : Goes (symbolRound mem) s s' := by
  apply Goes.one
  rw [symbolRound, step]
  exact if_neg inside

theorem leaves_between {s' : State} (step : symbolStep mem s = .again s')
    (between : s'.mode.Between) : Leaves (symbolRound mem) s (some s') := by
  apply Leaves.of_leave
  rw [symbolRound, step]
  exact if_pos between

/-- Where a state of a symbol stands. -/
structure Stands (x : BitStream) (c : Nat) (mode : Mode) (s : State) : Prop where
  mode : s.mode = mode
  pos : s.input.At x c
  few : s.input.bits < 8

/-- `case LEN` reads the entry. -/
theorem len_fetches (there : x.In mem) (sound : s.context.Sound) (stands : Stands x c .len s)
    {e : Code} (code : EntryAt lenKind s.context.lencode s.context.lenbits x.bits c e n)
    (enough : c + n ≤ x.total) :
    ∃ i, fetchCode mem s.lencode s.lenbits (fun here => here.op ≠ 0 ∧ here.op &&& 0xf0 = 0)
      s.input = .got (e, n) i ∧ i.At x (c + n) ∧ i.bits < 8 := by
  obtain ⟨i, got, pos, few⟩ :=
    (fetchCode_reads there sound.lens lenTest code stands.pos).inside enough
  exact ⟨i, got, pos, few stands.few⟩

/-- `case DIST` reads the entry. -/
theorem dist_fetches (there : x.In mem) (sound : s.context.Sound) (stands : Stands x c .dist s)
    {e : Code} (code : EntryAt distKind s.context.distcode s.context.distbits x.bits c e n)
    (enough : c + n ≤ x.total) :
    ∃ i, fetchCode mem s.distcode s.distbits (fun here => here.op &&& 0xf0 = 0)
      s.input = .got (e, n) i ∧ i.At x (c + n) ∧ i.bits < 8 := by
  obtain ⟨i, got, pos, few⟩ :=
    (fetchCode_reads there sound.dists distTest code stands.pos).inside enough
  exact ⟨i, got, pos, few stands.few⟩

/-- From `LEN` over `LENEXT` to `DIST`. -/
theorem length_goes (there : x.In mem) (sound : s.context.Sound) (stands : Stands x c .len s)
    {len : Nat} (length : LengthAt s.context x.bits c len c') (enough : c' ≤ x.total) :
    ∃ s', Goes (symbolRound mem) s s' ∧ s.Keeps s' ∧ Stands x c' .dist s' ∧ s'.length = len := by
  obtain ⟨code, fewExtra, op⟩ := length
  rename_i e n extra
  obtain ⟨i, got, pos, few⟩ := len_fetches there sound stands code (by omega)
  obtain ⟨-, low, noEnd, valid, -⟩ := op_base extra (by omega)
  let s₁ : State := { s with
    back := 0 + n, input := i, length := e.val, extra := extra, mode := .lenext }
  have first : symbolStep mem s = .again s₁ := by
    simp only [symbolStep, stands.mode, lenState, got, op, low, noEnd, valid]
    rw [if_neg (by omega)]
    rfl
  have goes := goes_inside first (by simp [s₁, Mode.Between])
  by_cases none : extra = 0
  · subst none
    let s₂ : State := { s₁ with was := s₁.length, mode := .dist }
    have second : symbolStep mem s₁ = .again s₂ := rfl
    refine ⟨s₂, goes.trans (goes_inside second (by simp [s₂, Mode.Between])), ⟨rfl, rfl, rfl⟩,
      ⟨rfl, pos, few⟩, ?_⟩
    rw [bitField_zero]
    rfl
  · obtain ⟨i', got', pos', few'⟩ := (needBits_pulls there pos extra).inside enough
    let s₂ : State := { s₁ with
      input := i'.drop extra
      length := e.val + bitField x.bits (c + n) extra
      back := s₁.back + extra
      was := e.val + bitField x.bits (c + n) extra
      mode := .dist }
    have second : symbolStep mem s₁ = .again s₂ := by
      simp only [symbolStep, s₁, lenextState, ne_eq, none, not_false_eq_true, if_true, got']
      rfl
    exact ⟨s₂, goes.trans (goes_inside second (by simp [s₂, Mode.Between])), ⟨rfl, rfl, rfl⟩,
      ⟨rfl, pos', few' few⟩, rfl⟩

/-- From `DIST` over `DISTEXT` to `MATCH`. -/
theorem distance_goes (there : x.In mem) (sound : s.context.Sound) (stands : Stands x c .dist s)
    {dist : Nat} (distance : DistanceAt s.context x.bits c dist c') (enough : c' ≤ x.total) :
    ∃ s', Goes (symbolRound mem) s s' ∧ s.Keeps s' ∧ Stands x c' .matching s' ∧
      s'.length = s.length ∧ s'.offset = dist := by
  obtain ⟨code, fewExtra, op⟩ := distance
  rename_i e n extra
  obtain ⟨i, got, pos, few⟩ := dist_fetches there sound stands code (by omega)
  obtain ⟨-, low, -, valid, -⟩ := op_base extra (by omega)
  let s₁ : State := { s with
    input := i, back := s.back + n, offset := e.val, extra := extra, mode := .distext }
  have first : symbolStep mem s = .again s₁ := by
    simp only [symbolStep, stands.mode, distState, got, op, low, valid]
    rfl
  have goes := goes_inside first (by simp [s₁, Mode.Between])
  by_cases none : extra = 0
  · subst none
    let s₂ : State := { s₁ with mode := .matching }
    have second : symbolStep mem s₁ = .again s₂ := rfl
    refine ⟨s₂, goes.trans (goes_inside second (by simp [s₂, Mode.Between])), ⟨rfl, rfl, rfl⟩,
      ⟨rfl, pos, few⟩, rfl, ?_⟩
    rw [bitField_zero]
    rfl
  · obtain ⟨i', got', pos', few'⟩ := (needBits_pulls there pos extra).inside enough
    let s₂ : State := { s₁ with
      input := i'.drop extra
      offset := e.val + bitField x.bits (c + n) extra
      back := s₁.back + extra
      mode := .matching }
    have second : symbolStep mem s₁ = .again s₂ := by
      simp only [symbolStep, s₁, distextState, ne_eq, none, not_false_eq_true, if_true, got']
      rfl
    exact ⟨s₂, goes.trans (goes_inside second (by simp [s₂, Mode.Between])), ⟨rfl, rfl, rfl⟩,
      ⟨rfl, pos', few' few⟩, rfl, rfl⟩

/-- From `LEN` to `MATCH`. -/
theorem pair_goes (there : x.In mem) (sound : s.context.Sound) (stands : Stands x c .len s)
    {len dist c₁ : Nat} (length : LengthAt s.context x.bits c len c₁)
    (distance : DistanceAt s.context x.bits c₁ dist c') (enough : c' ≤ x.total) :
    ∃ s', Goes (symbolRound mem) s s' ∧ s.Keeps s' ∧ Stands x c' .matching s' ∧
      s'.length = len ∧ s'.offset = dist := by
  have before : c₁ ≤ c' := by
    cases distance
    omega
  obtain ⟨s₁, goes₁, keeps₁, stands₁, length₁⟩ :=
    length_goes there sound stands length (Nat.le_trans before enough)
  rw [← keeps₁.context] at distance sound
  obtain ⟨s₂, goes₂, keeps₂, stands₂, length₂, offset₂⟩ :=
    distance_goes there sound stands₁ distance enough
  exact ⟨s₂, goes₁.trans goes₂, keeps₁.trans keeps₂, stands₂, length₂.trans length₁, offset₂⟩

/-- `case MATCH` puts the next bytes of the match. -/
theorem matchCopy_step {src : Origin} {copy : Nat} {out' : Bytes} (some : 0 < copy)
    (within : copy ≤ s.length) (room : s.length ≤ s.left)
    (tracks : Tracks s.window s.offset copy src s.out)
    (copied : copyMatch s.window s.offset s.length s.out = .some out') :
    ∃ n out₁, 0 < n ∧ n ≤ s.length ∧
      copyMatch s.window s.offset (s.length - n) out₁ = .some out' ∧
      out₁.length = s.out.length + n ∧
      matchCopy s src copy = .again { s with
        out := out₁
        left := s.left - n
        length := s.length - n
        mode := if s.length - n = 0 then .len else s.mode } := by
  have whole : s.length = copy + (s.length - copy) := by omega
  rw [whole, copyMatch_add] at copied
  obtain ⟨out₁, now, later⟩ := Option.bind_eq_some_iff.mp copied
  refine ⟨copy, out₁, some, within, later, copyMatch_length now, ?_⟩
  rw [matchCopy, Nat.min_eq_left (by omega), copyBytes_match tracks (by omega), now]
  rfl

theorem match_step (sound : s.window.Sound) (mode : s.mode = .matching)
    (near : s.offset ≤ s.out.length + s.window.whave) (some : 0 < s.length)
    (room : s.length ≤ s.left) {out' : Bytes}
    (copied : copyMatch s.window s.offset s.length s.out = .some out') :
    ∃ n out₁, 0 < n ∧ n ≤ s.length ∧
      copyMatch s.window s.offset (s.length - n) out₁ = .some out' ∧
      out₁.length = s.out.length + n ∧
      symbolStep mem s = .again { s with
        out := out₁
        left := s.left - n
        length := s.length - n
        mode := if s.length - n = 0 then .len else s.mode } := by
  have whave_le := sound.whave_le
  have more : ¬ s.left = 0 := by omega
  simp only [symbolStep, mode, matchState, if_neg more]
  by_cases window : s.offset > s.out.length
  · have within : ¬ (s.offset - s.out.length > s.window.whave ∧ s.sane = true) := by omega
    rw [if_pos window, if_neg within]
    by_cases wraps : s.offset - s.out.length > s.window.wnext
    · rw [if_pos wraps, ← mode]
      refine matchCopy_step (by omega) (Nat.min_le_right _ _) room ?_ copied
      refine Tracks.mono (.wrapped ?_ ?_) (Nat.min_le_left _ _)
      · omega
      · omega
    · rw [if_neg wraps, ← mode]
      refine matchCopy_step (by omega) (Nat.min_le_right _ _) room ?_ copied
      exact Tracks.mono (.contiguous (by omega) (by omega)) (Nat.min_le_left _ _)
  · rw [if_neg window, ← mode]
    exact matchCopy_step some (Nat.le_refl _) room (.output (by omega) _) copied

/-- `MATCH`, as often as it takes. -/
theorem match_leaves (sound : s.window.Sound) (mode : s.mode = .matching)
    (near : s.offset ≤ s.out.length + s.window.whave) (some : 0 < s.length)
    (room : s.length ≤ s.left) {out' : Bytes}
    (copied : copyMatch s.window s.offset s.length s.out = .some out') :
    ∃ s', Leaves (symbolRound mem) s (.some s') ∧ s'.context = s.context ∧ s'.input = s.input ∧
      s'.mode = .len ∧ s'.out = out' ∧ s'.left = s.left - s.length := by
  induction len : s.length using Nat.strong_induction_on generalizing s with
  | _ len ih =>
    subst len
    obtain ⟨n, out₁, pos, le, rest, length, step⟩ := @match_step mem s sound mode near some room
      out' copied
    by_cases last : s.length - n = 0
    · rw [last] at rest
      cases rest
      rw [if_pos last] at step
      refine ⟨_, leaves_between step (.inl rfl), rfl, rfl, rfl, rfl, ?_⟩
      show s.left - n = s.left - s.length
      omega
    · rw [if_neg last] at step
      obtain ⟨s', leaves, context, input, mode', out, left⟩ := ih (s.length - n) (by omega)
        (s := { s with out := out₁, left := s.left - n, length := s.length - n }) sound mode
        (by simp only; omega) (by simp only; omega) (by simp only; omega) rest rfl
      have inside : ¬ s.mode.Between := by simp [mode, Mode.Between]
      refine ⟨s', (goes_inside step inside).leaves.mpr leaves, context, input, mode', out, ?_⟩
      rw [left]
      simp only
      omega

/-- The state behind a symbol. -/
structure Decoded (x : BitStream) (s : State) (c' : Nat) (out' : Bytes) (how : Break) (s' : State) :
    Prop where
  stands : Stands x c' how.mode s'
  msg : s'.msg = how.msg
  out : s'.out = out'
  left : s'.out.length + s'.left = s.out.length + s.left
  context : how.mode ≠ .bad → s'.context = s.context

/-- A state that gives up leaves its message, and what was put. -/
theorem bad_decoded {mid t : State} {message : String}
    (goes : mid = s ∨ Goes (symbolRound mem) s mid)
    (step : symbolStep mem mid = .again (t.bad message)) (pos : t.input.At x c')
    (few : t.input.bits < 8) (out : t.out = s.out) (left : t.left = s.left) :
    ∃ s', Leaves (symbolRound mem) s (some s') ∧ Decoded x s c' s.out ⟨.bad, message⟩ s' := by
  have leaves := leaves_between step (.inr (.inr rfl))
  refine ⟨t.bad message, ?_, ⟨rfl, pos, few⟩, rfl, out, ?_, fun fine => absurd rfl fine⟩
  · rcases goes with rfl | goes
    · exact leaves
    · exact goes.leaves.mpr leaves
  · show t.out.length + t.left = _
    rw [out, left]

theorem literal_decoded (there : x.In mem) (sound : s.context.Sound) (stands : Stands x c .len s)
    {e : Code} (code : EntryAt lenKind s.context.lencode s.context.lenbits x.bits c e n)
    (op : e.op = 0) (enough : c + n ≤ x.total) (more : 0 < s.left) :
    ∃ s', Leaves (symbolRound mem) s (some s') ∧
      Decoded x s (c + n) (s.out ++ [UInt8.ofNat e.val]) ⟨.len, s.context.msg⟩ s' := by
  obtain ⟨i, got, pos, few⟩ := len_fetches there sound stands code enough
  let s₁ : State := { s with back := 0 + n, input := i, length := e.val, mode := .lit }
  have first : symbolStep mem s = .again s₁ := by
    simp only [symbolStep, stands.mode, lenState, got, op]
    rfl
  let s₂ : State := { s₁ with
    out := s.out ++ [UInt8.ofNat e.val], left := s.left - 1, mode := .len }
  have second : symbolStep mem s₁ = .again s₂ := by
    have some : ¬ s.left = 0 := by omega
    have fits : s.out.length < s.out.length + s.left := by omega
    simp only [symbolStep, s₁, litState, if_neg some, put, if_pos fits]
    rfl
  refine ⟨s₂, (goes_inside first (by simp [s₁, Mode.Between])).leaves.mpr
    (leaves_between second (.inl rfl)), ⟨rfl, pos, few⟩, rfl, rfl, ?_, fun _ => rfl⟩
  show (s.out ++ [_]).length + (s.left - 1) = _
  rw [List.length_append, List.length_singleton]
  omega

theorem endOfBlock_decoded (there : x.In mem) (sound : s.context.Sound)
    (stands : Stands x c .len s) {e : Code}
    (code : EntryAt lenKind s.context.lencode s.context.lenbits x.bits c e n) (op : e.op = 96)
    (enough : c + n ≤ x.total) :
    ∃ s', Leaves (symbolRound mem) s (some s') ∧
      Decoded x s (c + n) s.out ⟨.type, s.context.msg⟩ s' := by
  obtain ⟨i, got, pos, few⟩ := len_fetches there sound stands code enough
  let s₁ : State := { s with back := -1, input := i, length := e.val, mode := .type }
  have first : symbolStep mem s = .again s₁ := by
    simp only [symbolStep, stands.mode, lenState, got, op]
    rfl
  exact ⟨s₁, leaves_between first (.inr (.inl rfl)), ⟨rfl, pos, few⟩, rfl, rfl, rfl, fun _ => rfl⟩

theorem badLength_decoded (there : x.In mem) (sound : s.context.Sound) (stands : Stands x c .len s)
    {e : Code} {low : Nat}
    (code : EntryAt lenKind s.context.lencode s.context.lenbits x.bits c e n) (fewLow : low < 16)
    (op : e.op = 64 + low) (enough : c + n ≤ x.total) :
    ∃ s', Leaves (symbolRound mem) s (some s') ∧
      Decoded x s (c + n) s.out ⟨.bad, "invalid literal/length code"⟩ s' := by
  obtain ⟨i, got, pos, few⟩ := len_fetches there sound stands code enough
  obtain ⟨-, noEnd, bad, -⟩ := op_invalid low fewLow
  let t : State := { s with back := 0 + n, input := i, length := e.val }
  have first : symbolStep mem s = .again (t.bad "invalid literal/length code") := by
    simp only [symbolStep, stands.mode, lenState, got, op]
    rw [if_neg (by omega), if_neg (Classical.not_not.mpr noEnd), if_pos bad]
    rfl
  exact bad_decoded (.inl rfl) first pos few rfl rfl

theorem badDistance_decoded (there : x.In mem) (sound : s.context.Sound)
    (stands : Stands x c .len s) {e : Code} {len low : Nat}
    (length : LengthAt s.context x.bits c len c')
    (code : EntryAt distKind s.context.distcode s.context.distbits x.bits c' e n)
    (fewLow : low < 16) (op : e.op = 64 + low) (enough : c' + n ≤ x.total) :
    ∃ s', Leaves (symbolRound mem) s (some s') ∧
      Decoded x s (c' + n) s.out ⟨.bad, "invalid distance code"⟩ s' := by
  obtain ⟨s₁, goes, keeps, stands₁, -⟩ := length_goes there sound stands length (by omega)
  rw [← keeps.context] at code sound
  obtain ⟨i, got, pos, few⟩ := dist_fetches there sound stands₁ code enough
  obtain ⟨-, -, bad, -⟩ := op_invalid low fewLow
  let t : State := { s₁ with back := s₁.back + n, input := i }
  have second : symbolStep mem s₁ = .again (t.bad "invalid distance code") := by
    simp only [symbolStep, stands₁.mode, distState, got, op]
    rw [if_pos bad]
    rfl
  exact bad_decoded (.inr goes) second pos few keeps.out keeps.left

theorem tooFar_decoded (there : x.In mem) (sound : s.context.Sound) (stands : Stands x c .len s)
    {len dist c₁ : Nat} (length : LengthAt s.context x.bits c len c₁)
    (distance : DistanceAt s.context x.bits c₁ dist c')
    (far : s.out.length + s.context.window.whave < dist) (enough : c' ≤ x.total)
    (more : 0 < s.left) :
    ∃ s', Leaves (symbolRound mem) s (some s') ∧
      Decoded x s c' s.out ⟨.bad, "invalid distance too far back"⟩ s' := by
  obtain ⟨s₂, goes, keeps, stands₂, -, offset⟩ :=
    pair_goes there sound stands length distance enough
  have window : s₂.window = s.window := congrArg Context.window keeps.context
  have some : ¬ s₂.left = 0 := by
    rw [keeps.left]
    omega
  have beyond : s₂.offset > s₂.out.length := by
    rw [offset, keeps.out]
    omega
  have too : s₂.offset - s₂.out.length > s₂.window.whave ∧ s₂.sane = true := by
    refine ⟨?_, (congrArg Context.sane keeps.context).trans sound.sane⟩
    rw [offset, keeps.out, window]
    have far' : s.out.length + s.window.whave < dist := far
    omega
  have third : symbolStep mem s₂ = .again (s₂.bad "invalid distance too far back") := by
    simp only [symbolStep, stands₂.mode, matchState]
    rw [if_neg some, if_pos beyond, if_pos too]
  exact bad_decoded (.inr goes) third stands₂.pos stands₂.few keeps.out keeps.left

theorem copied_decoded (there : x.In mem) (sound : s.context.Sound) (stands : Stands x c .len s)
    {len dist c₁ : Nat} {out' : Bytes} (length : LengthAt s.context x.bits c len c₁)
    (distance : DistanceAt s.context x.bits c₁ dist c')
    (near : dist ≤ s.out.length + s.context.window.whave) (long : 0 < len)
    (copy : copyMatch s.context.window dist len s.out = some out') (enough : c' ≤ x.total)
    (room : out'.length ≤ s.out.length + s.left) :
    ∃ s', Leaves (symbolRound mem) s (some s') ∧
      Decoded x s c' out' ⟨.len, s.context.msg⟩ s' := by
  obtain ⟨s₂, goes, keeps, stands₂, length₂, offset⟩ :=
    pair_goes there sound stands length distance enough
  have window : s₂.window = s.window := congrArg Context.window keeps.context
  have longer := copyMatch_length copy
  rw [← length₂, ← offset, ← keeps.out] at copy
  have copy' : copyMatch s₂.window s₂.offset s₂.length s₂.out = some out' := by
    rw [window]
    exact copy
  obtain ⟨s₃, leaves, context, input, mode, out, left⟩ := match_leaves (window ▸ sound.window)
    stands₂.mode (by rw [offset, keeps.out, window]; exact near) (by omega)
    (by rw [length₂, keeps.left]; omega) copy'
  have same := context.trans keeps.context
  refine ⟨s₃, goes.leaves.mpr leaves, ⟨mode, ?_, ?_⟩, congrArg Context.msg same, out, ?_,
    fun _ => same⟩
  · rw [input]
    exact stands₂.pos
  · rw [input]
    exact stands₂.few
  · rw [out, left, keeps.left, length₂]
    omega

/-- The states `LEN` to `LIT` decode the symbol that is there. -/
theorem slow_symbol (there : x.In mem) (sound : s.context.Sound) (stands : Stands x c .len s)
    {out' : Bytes} {how : Break} (symbol : SymbolAt s.context x.bits c s.out c' out' how)
    (enough : c' ≤ x.total) (more : 0 < s.left)
    (room : out'.length ≤ s.out.length + s.left) :
    ∃ s', Leaves (symbolRound mem) s (some s') ∧ Decoded x s c' out' how s' := by
  cases symbol with
  | literal code op => exact literal_decoded there sound stands code op enough more
  | endOfBlock code op => exact endOfBlock_decoded there sound stands code op enough
  | badLength code few op => exact badLength_decoded there sound stands code few op enough
  | badDistance length code few op =>
    exact badDistance_decoded there sound stands length code few op enough
  | tooFar length distance far =>
    exact tooFar_decoded there sound stands length distance far enough more
  | copied length distance near long copy =>
    exact copied_decoded there sound stands length distance near long copy enough room

end

end CheriGzip.Inflate
