import CheriGzip.Gzip.Position

/-!
# Where the automaton enters its header states

Up to `GZSTATE_INIT` the automaton of `gz_uncompress` goes by its state, the flags, a count and the
byte at hand. What it does with a header is found on those alone, and carried over to the automaton
with its buffer.
-/
namespace CheriGzip.Gzip

open Loop

variable {σ : Type}

/-- The automaton comes to this state first behind so many bytes of its input. -/
def Enters (cfg : UConfig σ) (start : UState σ) (state : GzState) (n : Nat) : Prop :=
  ∃ s, First (uncompressRound cfg) (fun s => s.state = state) start s ∧
    s.inTot - s.nextIn.length = n

theorem Enters.unique {cfg : UConfig σ} {start : UState σ} {state : GzState} {n m : Nat}
    (one : Enters cfg start state n) (other : Enters cfg start state m) : n = m := by
  obtain ⟨s, first, here⟩ := one
  obtain ⟨t, first', there⟩ := other
  cases first.unique first'
  omega

/-! ## The header without the buffer -/

/-- What the header states go by. -/
structure Place where
  state : GzState
  flags : UInt8
  skip : Nat

/-- The switch at the byte `b`, and whether it is taken. -/
def Place.turn (p : Place) (b : UInt8) : Option (Place × Bool) :=
  match p.state with
  | .magic0 => if b = gzipMagic0 then some ({ p with state := .magic1 }, true) else none
  | .magic1 =>
    if b = gzipMagic1 ∨ b = gzipOmagic1 then some ({ p with state := .method }, true) else none
  | .method => if b = zDeflated then some ({ p with state := .flags }, true) else none
  | .flags => some (⟨.skipping, b, 6⟩, true)
  | .skipping =>
    if p.skip > 0 then some ({ p with skip := p.skip - 1 }, true)
    else some ({ p with state := .extra }, false)
  | .extra =>
    if p.flags &&& extraFieldFlag = 0 then some ({ p with state := .origname }, false)
    else some ({ p with skip := b.toNat, state := .extra2 }, true)
  | .extra2 => some ({ p with skip := p.skip ||| b.toNat <<< 8, state := .extra3 }, true)
  | .extra3 =>
    if p.skip > 0 then some ({ p with skip := p.skip - 1 }, true)
    else some ({ p with state := .origname }, false)
  | .origname =>
    if p.flags &&& orignameFlag = 0 then some ({ p with state := .comment }, false)
    else some ({ p with state := if b = 0 then .comment else .origname }, true)
  | .comment =>
    if p.flags &&& commentFlag = 0 then some ({ p with state := .headCrc1 }, false)
    else some ({ p with state := if b = 0 then .headCrc1 else .comment }, true)
  | .headCrc1 => some ({ p with skip := headCrcLength p.flags, state := .headCrc2 }, false)
  | .headCrc2 =>
    if p.skip > 0 then some ({ p with skip := p.skip - 1 }, true)
    else some ({ p with state := .init }, false)
  | _ => none

/-- A round of the header, with the bytes to come. -/
def placeRound : Place × Bytes → Turn (Place × Bytes) Unit
  | (_, []) => .leave ()
  | (p, b :: bytes) =>
    match p.turn b with
    | none => .leave ()
    | some (p', true) => .again (p', bytes)
    | some (p', false) => .again (p', b :: bytes)

/-- The header is at this state or behind it. -/
def Behind (state : GzState) (q : Place × Bytes) : Prop := state.toNat ≤ q.1.state.toNat

/-- The header comes to `state` for the first time. -/
abbrev Comes (state : GzState) : Place × Bytes → Place × Bytes → Prop :=
  First placeRound (Behind state)

section

variable {flags : UInt8} {rest : Bytes}

theorem Comes.trans {state state' : GzState} (later : state.toNat ≤ state'.toNat)
    {p q r : Place × Bytes} (first : Comes state p q) (second : Comes state' q r) :
    Comes state' p r :=
  First.trans (fun _ behind => Nat.le_trans later behind) first second

theorem Comes.arrive (state : GzState) (flags : UInt8) (skip : Nat) (bytes : Bytes) :
    Comes state (⟨state, flags, skip⟩, bytes) (⟨state, flags, skip⟩, bytes) :=
  .here (Nat.le_refl _)

variable {state goal : GzState} {skip : Nat} {bytes : Bytes} {b : UInt8} {p : Place}
  {q : Place × Bytes}

/-- A state that takes the byte at hand. -/
theorem Comes.take (before : state.toNat < goal.toNat)
    (turned : Place.turn ⟨state, flags, skip⟩ b = some (p, true)) (next : Comes goal (p, bytes) q) :
    Comes goal (⟨state, flags, skip⟩, b :: bytes) q := by
  refine .later (Nat.not_le.mpr before) ?_ next
  simp only [placeRound, turned]

/-- A state that leaves it. -/
theorem Comes.leave (before : state.toNat < goal.toNat)
    (turned : Place.turn ⟨state, flags, skip⟩ b = some (p, false))
    (next : Comes goal (p, b :: bytes) q) : Comes goal (⟨state, flags, skip⟩, b :: bytes) q := by
  refine .later (Nat.not_le.mpr before) ?_ next
  simp only [placeRound, turned]

/-- A state that counts bytes off and then goes on. -/
theorem comes_counted (before : state.toNat < goal.toNat)
    (takes : ∀ n b, Place.turn ⟨state, flags, n + 1⟩ b = some (⟨state, flags, n⟩, true))
    (leaves : ∀ b, Place.turn ⟨state, flags, 0⟩ b = some (⟨goal, flags, 0⟩, false))
    (follows : rest ≠ []) {field : Bytes} {n : Nat} (length : field.length = n) :
    Comes goal (⟨state, flags, n⟩, field ++ rest) (⟨goal, flags, 0⟩, rest) := by
  -- By induction on the field, with the count as its length.
  induction field generalizing n with
  | nil =>
    subst length
    obtain ⟨c, rest, rfl⟩ := List.exists_cons_of_ne_nil follows
    exact .leave before (leaves c) (.arrive _ _ _ _)
  | cons b field ih =>
    subst length
    exact .take before (takes _ b) (ih rfl)

/-- A state that takes bytes up to a NUL, if it is flagged. -/
theorem comes_string (before : state.toNat < goal.toNat) {flag : UInt8}
    (skips : flags &&& flag = 0 →
      ∀ b, Place.turn ⟨state, flags, 0⟩ b = some (⟨goal, flags, 0⟩, false))
    (takes : ¬ flags &&& flag = 0 → ∀ b, Place.turn ⟨state, flags, 0⟩ b =
      some (⟨if b = 0 then goal else state, flags, 0⟩, true))
    (follows : rest ≠ []) {field : Bytes} (isString : IsString flags flag field) :
    Comes goal (⟨state, flags, 0⟩, field ++ rest) (⟨goal, flags, 0⟩, rest) := by
  unfold IsString at isString
  by_cases unset : flags &&& flag = 0
  · rw [if_pos unset] at isString
    subst isString
    obtain ⟨c, rest, rfl⟩ := List.exists_cons_of_ne_nil follows
    exact .leave before (skips unset c) (.arrive _ _ _ _)
  · rw [if_neg unset] at isString
    obtain ⟨text, noNul, rfl⟩ := isString
    -- By induction on the text: only the NUL behind it ends the string.
    induction text with
    | nil => exact .take before (takes unset 0) (.arrive _ _ _ _)
    | cons b text ih =>
      have letter : ¬ b = 0 := fun nul => noNul (nul ▸ List.mem_cons_self)
      have taken := takes unset b
      rw [if_neg letter] at taken
      exact .take before taken (ih fun nul => noNul (List.mem_cons_of_mem b nul))

theorem comes_skipping (follows : rest ≠ []) {six : Bytes} (length : six.length = 6) :
    Comes .extra (⟨.skipping, flags, 6⟩, six ++ rest) (⟨.extra, flags, 0⟩, rest) :=
  comes_counted (by decide) (fun _ _ => rfl) (fun _ => rfl) follows length

theorem comes_headCrc2 (follows : rest ≠ []) {crc : Bytes} {n : Nat} (length : crc.length = n) :
    Comes .init (⟨.headCrc2, flags, n⟩, crc ++ rest) (⟨.init, flags, 0⟩, rest) :=
  comes_counted (by decide) (fun _ _ => rfl) (fun _ => rfl) follows length

theorem comes_extra (follows : rest ≠ []) {extra : Bytes} (isExtra : IsExtra flags extra) :
    Comes .origname (⟨.extra, flags, 0⟩, extra ++ rest) (⟨.origname, flags, 0⟩, rest) := by
  unfold IsExtra at isExtra
  by_cases unset : flags &&& extraFieldFlag = 0
  · rw [if_pos unset] at isExtra
    subst isExtra
    obtain ⟨c, rest, rfl⟩ := List.exists_cons_of_ne_nil follows
    exact .leave (by decide) (by simp only [Place.turn, if_pos unset]) (.arrive _ _ _ _)
  · rw [if_neg unset] at isExtra
    -- Two bytes of length, low one first, and as many bytes as they say.
    obtain ⟨lo, hi, body, rfl, length⟩ := isExtra
    rw [← or_shift_eq] at length
    have counted : Comes .origname (⟨.extra3, flags, lo.toNat ||| hi.toNat <<< 8⟩, body ++ rest)
        (⟨.origname, flags, 0⟩, rest) :=
      comes_counted (by decide) (fun _ _ => rfl) (fun _ => rfl) follows length
    refine .take (p := ⟨.extra2, flags, lo.toNat⟩) (by decide) ?_ (.take (by decide) rfl counted)
    simp only [Place.turn, if_neg unset]

theorem comes_origname (follows : rest ≠ []) {name : Bytes}
    (isName : IsString flags orignameFlag name) :
    Comes .comment (⟨.origname, flags, 0⟩, name ++ rest) (⟨.comment, flags, 0⟩, rest) := by
  refine comes_string (by decide) (fun unset b => ?_) (fun set b => ?_) follows isName
  · simp only [Place.turn, if_pos unset]
  · simp only [Place.turn, if_neg set]

theorem comes_comment (follows : rest ≠ []) {comment : Bytes}
    (isComment : IsString flags commentFlag comment) :
    Comes .headCrc1 (⟨.comment, flags, 0⟩, comment ++ rest)
      (⟨.headCrc1, flags, 0⟩, rest) := by
  refine comes_string (by decide) (fun unset b => ?_) (fun set b => ?_) follows isComment
  · simp only [Place.turn, if_pos unset]
  · simp only [Place.turn, if_neg set]

theorem comes_headCrc1 (follows : rest ≠ []) :
    Comes .headCrc2 (⟨.headCrc1, flags, 0⟩, rest)
      (⟨.headCrc2, flags, headCrcLength flags⟩, rest) := by
  -- No byte is taken, but there has to be one for a round.
  obtain ⟨c, rest, rfl⟩ := List.exists_cons_of_ne_nil follows
  exact .leave (by decide) rfl (.arrive _ _ _ _)

theorem comes_flags {magic : UInt8} (isMagic : magic = gzipMagic1 ∨ magic = gzipOmagic1) :
    Comes .skipping (⟨.magic0, 0, 0⟩, gzipMagic0 :: magic :: zDeflated :: flags :: rest)
      (⟨.skipping, flags, 6⟩, rest) := by
  refine .take (by decide) (by simp only [Place.turn, if_true]; rfl) ?_
  refine .take (by decide) (by simp only [Place.turn, if_pos isMagic]; rfl) ?_
  refine .take (by decide) (by simp only [Place.turn, if_true]; rfl) ?_
  exact .take (by decide) rfl (.arrive _ _ _ _)

end

/-! ## The automaton with its buffer -/

/-- The automaton is at a place of the header, wherever the buffer is cut, in an input of `total`
bytes. -/
structure Stands (total : Int) (s : UState σ) (q : Place × Bytes) : Prop where
  state : s.state = q.1.state
  flags : s.flags = q.1.flags
  skip : s.skipCount = q.1.skip
  bytes : s.nextIn ++ s.world.input = q.2
  total : s.inTot + s.world.input.length = total
  reading : s.doneReading = false
  ready : s.needmore = false

/-- What the automaton goes by is at a place. -/
structure UState.IsAt (s : UState σ) (p : Place) : Prop where
  state : s.state = p.state
  flags : s.flags = p.flags
  skip : s.skipCount = p.skip

/-- The switch goes on to this place, with the byte taken or left in the buffer. -/
def Turns (cfg : UConfig σ) (s : UState σ) (b : UInt8) (rest : Bytes) (p' : Place)
    (taken : Bool) : Prop :=
  ∃ s', dispatch cfg s b rest = .again s' ∧ Keeps s (if taken then rest else s.nextIn) s' ∧
    s'.IsAt p'

section

variable {cfg : UConfig σ} {total : Int} {s : UState σ} {q : Place × Bytes} {p : Place} {b : UInt8}
  {bytes : Bytes}

theorem Stands.refill (stands : Stands total s (p, b :: bytes))
    (reads : ∀ k, cfg.env.reads k ≠ .fails) (room : 0 < cfg.buflen.size) :
    ∃ s' rest, refill cfg s = .ok s' ∧ s'.nextIn = b :: rest ∧ Stands total s' (p, b :: bytes) := by
  have whole := stands.bytes
  unfold Gzip.refill
  cases buffer : s.nextIn with
  | cons b' rest =>
    rw [buffer] at whole
    obtain ⟨rfl, _⟩ := List.cons.inj whole
    have satisfied : ¬ ((b' :: rest = [] ∨ s.needmore = true) ∧ s.doneReading = false) := by
      simp [stands.ready]
    rw [if_neg satisfied]
    exact ⟨s, rest, rfl, buffer, stands⟩
  | nil =>
    rw [buffer, List.nil_append] at whole
    rw [if_pos ⟨.inl rfl, stands.reading⟩]
    unfold World.read
    cases answer : cfg.env.reads s.world.reads with
    -- A read gives at least one byte, because there is one and there is room for it.
    | fails => exact absurd answer (reads _)
    | upTo n =>
      obtain ⟨got, some⟩ : ∃ got, min (max n 1) (cfg.buflen.size - ([] : Bytes).length) = got + 1 :=
        ⟨min (max n 1) (cfg.buflen.size - ([] : Bytes).length) - 1, by
          rw [List.length_nil]
          omega⟩
      have total := stands.total
      rw [whole, List.length_cons] at total
      simp only [some, whole, List.take_succ_cons, List.drop_succ_cons, List.nil_append]
      refine ⟨_, _, rfl, rfl, ⟨stands.state, stands.flags, stands.skip, ?_, ?_, rfl, rfl⟩⟩
      · show b :: bytes.take got ++ bytes.drop got = b :: bytes
        rw [List.cons_append, List.take_append_drop]
      · show s.inTot + (b :: bytes.take got).length + (bytes.drop got).length = _
        rw [List.length_cons, List.length_take, List.length_drop]
        omega

/-- The place behind a step, with `left` of the buffer left. -/
theorem Stands.step (stands : Stands total s q) {left : Bytes} {s' : UState σ}
    (keeps : Keeps s left s') {p' : Place} (here : s'.IsAt p') :
    Stands total s' (p', left ++ s.world.input) := by
  obtain ⟨nextIn, world, _, inTot, doneReading, needmore⟩ := keeps
  refine ⟨here.state, here.flags, here.skip, ?_, ?_, doneReading.trans stands.reading,
    needmore.trans stands.ready⟩
  · rw [nextIn, world]
  · rw [inTot, world, stands.total]

/-! ### The switch, one state after the other -/

variable {flags : UInt8} {skip : Nat} {rest : Bytes} {p' : Place} {taken : Bool}

/-- The states that skip bytes by the count. -/
theorem Turns.counts {state next : GzState} (here : s.IsAt ⟨state, flags, skip⟩)
    (goes : dispatch cfg s b rest =
      if s.skipCount > 0 then .again { s with nextIn := rest, skipCount := s.skipCount - 1 }
      else .again { s with state := next })
    (turned : (if skip > 0 then some (⟨state, flags, skip - 1⟩, true)
      else some (⟨next, flags, skip⟩, false)) = some (p', taken)) :
    Turns cfg s b rest p' taken := by
  rw [here.skip] at goes
  -- The count of the automaton is that of the place.
  by_cases more : skip > 0
  · rw [if_pos more] at goes turned
    cases turned
    exact ⟨_, goes, by constructor <;> rfl, here.state, here.flags, rfl⟩
  · rw [if_neg more] at goes turned
    cases turned
    exact ⟨_, goes, by constructor <;> rfl, rfl, here.flags, rfl⟩

/-- The states of the two strings. -/
theorem Turns.flagged {state next : GzState} {flag : UInt8}
    (here : s.IsAt ⟨state, flags, skip⟩)
    (goes : dispatch cfg s b rest =
      if s.flags &&& flag = 0 then .again { s with state := next }
      else .again { s with nextIn := rest, state := if b = 0 then next else state })
    (turned : (if flags &&& flag = 0 then some (⟨next, flags, skip⟩, false)
      else some (⟨if b = 0 then next else state, flags, skip⟩, true)) = some (p', taken)) :
    Turns cfg s b rest p' taken := by
  rw [here.flags] at goes
  by_cases unset : flags &&& flag = 0
  · rw [if_pos unset] at goes turned
    cases turned
    exact ⟨_, goes, by constructor <;> rfl, rfl, rfl, here.skip⟩
  · rw [if_neg unset] at goes turned
    cases turned
    exact ⟨_, goes, by constructor <;> rfl, rfl, rfl, here.skip⟩

theorem turn_magic0 (here : s.IsAt ⟨.magic0, flags, skip⟩)
    (turned : Place.turn ⟨.magic0, flags, skip⟩ b = some (p', taken)) :
    Turns cfg s b rest p' taken := by
  simp only [Place.turn] at turned
  unfold Turns dispatch
  simp only [here.state]
  -- Where the byte is another one, the place has no turn.
  split at turned
  next magic =>
    cases turned
    rw [if_neg (not_not_intro magic)]
    exact ⟨_, rfl, by constructor <;> rfl, rfl, here.flags, here.skip⟩
  next => cases turned

theorem turn_magic1 (here : s.IsAt ⟨.magic1, flags, skip⟩)
    (turned : Place.turn ⟨.magic1, flags, skip⟩ b = some (p', taken)) :
    Turns cfg s b rest p' taken := by
  simp only [Place.turn] at turned
  unfold Turns dispatch
  simp only [here.state]
  split at turned
  next magic =>
    cases turned
    rw [if_neg (fun other => magic.elim other.1 other.2)]
    exact ⟨_, rfl, by constructor <;> rfl, rfl, here.flags, here.skip⟩
  next => cases turned

theorem turn_method (here : s.IsAt ⟨.method, flags, skip⟩)
    (turned : Place.turn ⟨.method, flags, skip⟩ b = some (p', taken)) :
    Turns cfg s b rest p' taken := by
  simp only [Place.turn] at turned
  unfold Turns dispatch
  simp only [here.state]
  split at turned
  next method =>
    cases turned
    rw [if_neg (not_not_intro method)]
    exact ⟨_, rfl, by constructor <;> rfl, rfl, here.flags, here.skip⟩
  next => cases turned

theorem turn_flags (here : s.IsAt ⟨.flags, flags, skip⟩)
    (turned : Place.turn ⟨.flags, flags, skip⟩ b = some (p', taken)) :
    Turns cfg s b rest p' taken := by
  cases turned
  unfold Turns dispatch
  simp only [here.state]
  exact ⟨_, rfl, by constructor <;> rfl, rfl, rfl, rfl⟩

theorem turn_skipping (here : s.IsAt ⟨.skipping, flags, skip⟩)
    (turned : Place.turn ⟨.skipping, flags, skip⟩ b = some (p', taken)) :
    Turns cfg s b rest p' taken := by
  refine .counts here ?_ turned
  unfold dispatch
  simp only [here.state]

theorem turn_extra (here : s.IsAt ⟨.extra, flags, skip⟩)
    (turned : Place.turn ⟨.extra, flags, skip⟩ b = some (p', taken)) :
    Turns cfg s b rest p' taken := by
  simp only [Place.turn] at turned
  unfold Turns dispatch
  simp only [here.state, here.flags]
  split at turned
  next unset =>
    cases turned
    rw [if_pos unset]
    exact ⟨_, rfl, by constructor <;> rfl, rfl, rfl, here.skip⟩
  next set =>
    cases turned
    rw [if_neg set]
    exact ⟨_, rfl, by constructor <;> rfl, rfl, rfl, rfl⟩

theorem turn_extra2 (here : s.IsAt ⟨.extra2, flags, skip⟩)
    (turned : Place.turn ⟨.extra2, flags, skip⟩ b = some (p', taken)) :
    Turns cfg s b rest p' taken := by
  cases turned
  unfold Turns dispatch
  simp only [here.state, here.skip]
  exact ⟨_, rfl, by constructor <;> rfl, rfl, here.flags, rfl⟩

theorem turn_extra3 (here : s.IsAt ⟨.extra3, flags, skip⟩)
    (turned : Place.turn ⟨.extra3, flags, skip⟩ b = some (p', taken)) :
    Turns cfg s b rest p' taken := by
  refine .counts here ?_ turned
  unfold dispatch
  simp only [here.state]

theorem turn_origname (here : s.IsAt ⟨.origname, flags, skip⟩)
    (turned : Place.turn ⟨.origname, flags, skip⟩ b = some (p', taken)) :
    Turns cfg s b rest p' taken := by
  refine .flagged here ?_ turned
  unfold dispatch
  simp only [here.state]

theorem turn_comment (here : s.IsAt ⟨.comment, flags, skip⟩)
    (turned : Place.turn ⟨.comment, flags, skip⟩ b = some (p', taken)) :
    Turns cfg s b rest p' taken := by
  refine .flagged here ?_ turned
  unfold dispatch
  simp only [here.state]

theorem turn_headCrc1 (here : s.IsAt ⟨.headCrc1, flags, skip⟩)
    (turned : Place.turn ⟨.headCrc1, flags, skip⟩ b = some (p', taken)) :
    Turns cfg s b rest p' taken := by
  cases turned
  unfold Turns dispatch
  simp only [here.state, here.flags]
  exact ⟨_, rfl, by constructor <;> rfl, rfl, rfl, rfl⟩

theorem turn_headCrc2 (here : s.IsAt ⟨.headCrc2, flags, skip⟩)
    (turned : Place.turn ⟨.headCrc2, flags, skip⟩ b = some (p', taken)) :
    Turns cfg s b rest p' taken := by
  refine .counts here ?_ turned
  unfold dispatch
  simp only [here.state]

/-- The switch does what the place says. -/
theorem UState.IsAt.turns (here : s.IsAt p) (turned : p.turn b = some (p', taken)) :
    Turns cfg s b rest p' taken := by
  obtain ⟨state, flags, skip⟩ := p
  cases state with
  | magic0 => exact turn_magic0 here turned
  | magic1 => exact turn_magic1 here turned
  | method => exact turn_method here turned
  | flags => exact turn_flags here turned
  | skipping => exact turn_skipping here turned
  | extra => exact turn_extra here turned
  | extra2 => exact turn_extra2 here turned
  | extra3 => exact turn_extra3 here turned
  | origname => exact turn_origname here turned
  | comment => exact turn_comment here turned
  | headCrc1 => exact turn_headCrc1 here turned
  | headCrc2 => exact turn_headCrc2 here turned
  -- These are behind the header.
  | init | read | crc | len => cases turned

/-- A round does what the place says. -/
theorem Stands.round (stands : Stands total s q) (reads : ∀ k, cfg.env.reads k ≠ .fails)
    (room : 0 < cfg.buflen.size) {q' : Place × Bytes} (turn : placeRound q = .again q') :
    ∃ s', uncompressRound cfg s = .again s' ∧ Stands total s' q' := by
  obtain ⟨p, _ | ⟨b, bytes⟩⟩ := q
  · cases turn
  · obtain ⟨filled, rest, refilled, nextIn, stands⟩ := stands.refill reads room
    -- What the refill leaves in the buffer and what is still to be read make the bytes of the place.
    have whole : b :: (rest ++ filled.world.input) = b :: bytes := by
      rw [← List.cons_append, ← nextIn]
      exact stands.bytes
    rw [placeRound] at turn
    cases turned : p.turn b with
    | none =>
      rw [turned] at turn
      cases turn
    | some answer =>
      obtain ⟨p', taken⟩ := answer
      have here : filled.IsAt p := ⟨stands.state, stands.flags, stands.skip⟩
      obtain ⟨s', goes, keeps, there⟩ : Turns cfg filled b rest p' taken := here.turns turned
      have next := stands.step keeps there
      refine ⟨s', ?_, ?_⟩
      · unfold uncompressRound
        simp only [refilled, nextIn]
        exact goes
      · rw [turned] at turn
        -- A byte that was taken is gone from the bytes to come.
        cases taken with
        | true =>
          cases turn
          rw [if_pos rfl, (List.cons.inj whole).2] at next
          exact next
        | false =>
          cases turn
          have stays : filled.nextIn ++ filled.world.input = b :: bytes := stands.bytes
          rw [if_neg Bool.false_ne_true, stays] at next
          exact next

/-- Where the header comes to, the automaton comes to. -/
theorem Stands.enters (stands : Stands total s q) (reads : ∀ k, cfg.env.reads k ≠ .fails)
    (room : 0 < cfg.buflen.size) {state : GzState} {q' : Place × Bytes} (comes : Comes state q q')
    (here : q'.1.state = state) {n : Nat} (position : total - q'.2.length = n) :
    Enters cfg s state n := by
  -- To be behind a state for the first time is to enter it.
  have exactly : First placeRound (fun q => q.1.state = state) q q' :=
    First.trans (fun q isState => Nat.le_of_eq (congrArg GzState.toNat isState.symm)) comes
      (.here here)
  obtain ⟨t, first, arrived⟩ :
      ∃ t, First (uncompressRound cfg) (fun s => s.state = state) s t ∧ Stands total t q' :=
    exactly.simulate (Stands total) (fun s q stands => by rw [stands.state])
      (fun s q q' stands => stands.round reads room) stands
  refine ⟨t, first, ?_⟩
  have whole := congrArg List.length arrived.bytes
  have sum := arrived.total
  rw [List.length_append] at whole
  omega

end

/-! ## A header of the grammar -/

/-- A member header, taken apart into its fields. -/
structure Fields where
  magic : UInt8
  flags : UInt8
  six : Bytes
  extra : Bytes
  name : Bytes
  comment : Bytes
  crc : Bytes
  isMagic : magic = gzipMagic1 ∨ magic = gzipOmagic1
  isSix : six.length = 6
  isExtra : IsExtra flags extra
  isName : IsString flags orignameFlag name
  isComment : IsString flags commentFlag comment
  isCrc : crc.length = headCrcLength flags

/-- The bytes of the header. -/
def Fields.bytes (h : Fields) : Bytes :=
  gzipMagic0 :: h.magic :: zDeflated :: h.flags ::
    (h.six ++ (h.extra ++ (h.name ++ (h.comment ++ h.crc))))

theorem isHeader_iff_fields {header : Bytes} :
    IsHeader header ↔ ∃ h : Fields, h.bytes = header := by
  constructor
  · rintro ⟨isMagic, isSix, isExtra, isName, isComment, isCrc⟩
    exact ⟨⟨_, _, _, _, _, _, _, isMagic, isSix, isExtra, isName, isComment, isCrc⟩, rfl⟩
  · rintro ⟨h, rfl⟩
    exact .mk h.isMagic h.isSix h.isExtra h.isName h.isComment h.isCrc

/-- The positions of the fields that the automaton enters a state for. -/
def Fields.nameAt (h : Fields) : Nat := 10 + h.extra.length
def Fields.commentAt (h : Fields) : Nat := h.nameAt + h.name.length
def Fields.crcAt (h : Fields) : Nat := h.commentAt + h.comment.length
def Fields.dataAt (h : Fields) : Nat := h.crcAt + h.crc.length

theorem Fields.length_bytes (h : Fields) : h.bytes.length = h.dataAt := by
  simp only [Fields.bytes, Fields.dataAt, Fields.crcAt, Fields.commentAt, Fields.nameAt,
    List.length_cons, List.length_append, h.isSix]
  omega

/-- The automaton at the start of an input. -/
theorem stands_start {cfg : UConfig σ} {pre : Bytes} (short : pre.length < 2 ^ 32) (w : World) :
    Stands (pre.length + w.input.length) (uncompressStart cfg pre w)
      (⟨.magic0, 0, 0⟩, pre ++ w.input) := by
  have whole : pre.take (pre.length % 2 ^ 32) = pre := by
    rw [Nat.mod_eq_of_lt short, List.take_length]
  refine ⟨rfl, rfl, rfl, ?_, rfl, rfl, rfl⟩
  show pre.take (pre.length % 2 ^ 32) ++ w.input = _
  rw [whole]

/-- The states that the automaton enters for the name, the comment and the CRC of a header, and
behind it, are entered at these positions. A byte has to follow the header. -/
theorem Fields.enters (h : Fields) {cfg : UConfig σ} (reads : ∀ k, cfg.env.reads k ≠ .fails)
    (room : 0 < cfg.buflen.size) {pre : Bytes} (short : pre.length < 2 ^ 32) {w : World}
    {rest : Bytes} (follows : rest ≠ []) (input : pre ++ w.input = h.bytes ++ rest) :
    Enters cfg (uncompressStart cfg pre w) .origname h.nameAt ∧
      Enters cfg (uncompressStart cfg pre w) .comment h.commentAt ∧
      Enters cfg (uncompressStart cfg pre w) .headCrc2 h.crcAt ∧
      Enters cfg (uncompressStart cfg pre w) .init h.dataAt := by
  have stands := @stands_start σ cfg pre short w
  have whole : pre ++ w.input = gzipMagic0 :: h.magic :: zDeflated :: h.flags ::
      (h.six ++ (h.extra ++ (h.name ++ (h.comment ++ (h.crc ++ rest))))) := by
    rw [input]
    simp [Fields.bytes]
  have total : (pre.length + w.input.length : Int) = h.dataAt + rest.length := by
    have lengths := congrArg List.length input
    rw [List.length_append, List.length_append, h.length_bytes] at lengths
    omega
  rw [whole] at stands
  have crc : h.crc ++ rest ≠ [] := by simp [follows]
  have comment : h.comment ++ (h.crc ++ rest) ≠ [] := by simp [follows]
  have name : h.name ++ (h.comment ++ (h.crc ++ rest)) ≠ [] := by simp [follows]
  have extra : h.extra ++ (h.name ++ (h.comment ++ (h.crc ++ rest))) ≠ [] := by simp [follows]
  -- Each state is entered behind its field, so the ways are put one behind the other.
  have origname := ((comes_flags h.isMagic).trans (by decide)
    (comes_skipping extra h.isSix)).trans (by decide) (comes_extra name h.isExtra)
  have comment := origname.trans (by decide) (comes_origname comment h.isName)
  have headCrc2 := (comment.trans (by decide) (comes_comment crc h.isComment)).trans
    (by decide) (comes_headCrc1 crc)
  have init := headCrc2.trans (by decide) (comes_headCrc2 follows h.isCrc)
  refine ⟨stands.enters reads room origname rfl ?_, stands.enters reads room comment rfl ?_,
    stands.enters reads room headCrc2 rfl ?_, stands.enters reads room init rfl ?_⟩
  -- A position is what is taken of the whole length.
  all_goals
    rw [total]
    simp only [List.length_append, Fields.dataAt, Fields.crcAt, Fields.commentAt]
    omega

end CheriGzip.Gzip
