import CheriGzip.Libz.Follows

/-!
# Symbols follow the decoder

The states `LEN` to `LIT` one at a time, and `inflate_fast` for any number of symbols.
-/
namespace CheriGzip.Inflate

open Loop

section

variable {flush limit : Nat} {x : BitStream} {mem : Memory} {history : Bytes} {s s' : Inflater}
  {d d' : Decoder}

/-- What the states of symbols rely on. -/
theorem Decoder.Sound.tables (sound : d.Sound) (block : d.regs.block = none)
    (type : d.regs.mode ≠ .type) (bad : d.regs.mode ≠ .bad) : d.regs.Tables := by
  have phase := sound.phase
  simp only [Registers.Phase, block] at phase
  exact (phase.resolve_left type).resolve_left bad

/-- A state of a symbol that puts nothing. -/
theorem Follows.symbol (follows : Follows x history s d) (block : d.regs.block = none)
    (step : d.step x.bits = .again d') {t : State} (slow : symbolStep mem s.state = .again t)
    (regs : d'.regs = { d.regs with mode := t.mode, msg := t.msg }) (out : d'.out = d.out)
    (same : t.out = s.out ∧ t.left = s.left)
    (agree : d'.regs.Agree ⟨t.length, t.offset, t.extra⟩ d'.pending) (pos : t.input.At x d'.pos)
    (need : Nat) (read : d'.pos = d.pos + need)
    (few : t.input.bits < 8 ∨ t.input.bits + need = s.input.bits) :
    Rounds flush x history (s.out.length + s.left) d (s.slow mem) := by
  have before : d.regs.beforeCheck = true ∨ d'.regs.beforeCheck = false := by
    by_cases bad : d.regs.mode = .bad
    · exact absurd ⟨block, bad⟩ (Decoder.fine step)
    · exact .inl (by simp [Registers.beforeCheck, block, bad])
  have total := pos.total
  simp only [Inflater.slow, slow]
  refine .again (.one step) (follows.sound.next step).reach ?_ ?_
  · refine follows.moves step ⟨rfl, rfl, same.1, same.2⟩ ?_ out agree before (by omega)
      ⟨_, pos, .inr rfl⟩ (.inr (follows.held step _ (Nat.le_of_eq read) few))
    rw [regs, ← follows.regs]
    rfl
  · show t.out.length + t.left = _
    rw [same.1, same.2]

/-- A state of a symbol that stops for want of input. -/
theorem Follows.symbol_starves (follows : Follows x history s d)
    (step : d.step x.bits = .again d') {t : State} (slow : symbolStep mem s.state = .leave (some t))
    (same : s.Moves (s.after t) ∧ t.mode = s.regs.mode ∧ t.msg = s.regs.msg ∧
      s.pending = ⟨t.length, t.offset, t.extra⟩)
    (pos : t.input.At x d.pos) (none : t.input.avail = 0) (lacks : d.pos + t.input.bits < d'.pos) :
    Rounds flush x history (s.out.length + s.left) d (s.slow mem) := by
  obtain ⟨moves, mode, msg, pending⟩ := same
  simp only [Inflater.slow, slow]
  refine follows.starves step moves ?_ pending.symm pos none lacks
  simp only [Inflater.after, mode, msg]

/-- What a state makes of the code that it has read. -/
structure Makes (s : Inflater) (d d' : Decoder) (i : Input) (t : State) : Prop where
  regs : d'.regs = { d.regs with mode := t.mode, msg := t.msg }
  out : d'.out = d.out
  input : t.input = i
  same : t.out = s.out ∧ t.left = s.left
  agree : d'.regs.Agree ⟨t.length, t.offset, t.extra⟩ d'.pending

/-- A state that reads a code. -/
theorem Follows.fetches (follows : Follows x history s d) (block : d.regs.block = none)
    (step : d.step x.bits = .again d') {n : Nat} (read : d'.pos = d.pos + n) {e : Code × Nat}
    {r : Pulled (Code × Nat)} (takes : Takes x d.pos s.input.bits n e r)
    (short : ∀ i, r = .short i → ∃ back, symbolStep mem s.state =
      .leave (some { s.state with back := back, input := i }))
    (got : ∀ i, r = .got e i → ∃ t, symbolStep mem s.state = .again t ∧ Makes s d d' i t) :
    Rounds flush x history (s.out.length + s.left) d (s.slow mem) := by
  cases takes with
  | short pos none lacks =>
    obtain ⟨back, slow⟩ := short _ rfl
    exact follows.symbol_starves step slow ⟨⟨rfl, rfl, rfl, rfl⟩, rfl, rfl, rfl⟩ pos none
      (by simp only; omega)
  | got pos few =>
    obtain ⟨t, slow, makes⟩ := got _ rfl
    rw [← read, ← makes.input] at pos
    rw [← makes.input] at few
    exact follows.symbol block step slow makes.regs makes.out makes.same makes.agree pos _ read few

/-- `case LEN` -/
theorem Follows.len (there : x.In mem) (follows : Follows x history s d)
    (block : d.regs.block = none) (mode : d.regs.mode = .len) :
    Rounds flush x history (s.out.length + s.left) d (s.slow mem) := by
  obtain ⟨lens, dists, finds, -⟩ :=
    follows.sound.tables block (by simp [mode]) (by simp [mode])
  obtain ⟨e, n, entryAt, -⟩ := finds.formed.entryAt x.bits d.pos
  have lookedUp := EntryAt.lookup lenTest entryAt
  have step : ∀ {d'}, d.len x.bits = .again d' → d.step x.bits = .again d' := by
    intro d' is
    simp only [Decoder.step, block, mode, is]
  have mode' : s.regs.mode = .len := (congrArg Registers.mode follows.regs).trans mode
  have regs := follows.regs
  have code : LenCode e := entryAt.isCode
  have takes : ∀ pos : s.input.At x d.pos, Takes x d.pos s.input.bits n (e, n) (fetchCode mem
      s.regs.lencode s.regs.lenbits (fun here => here.op ≠ 0 ∧ here.op &&& 0xf0 = 0) s.input) := by
    intro pos
    rw [regs]
    exact fetchCode_takes there finds.formed lenTest entryAt pos
  have short : ∀ i, fetchCode mem s.regs.lencode s.regs.lenbits
      (fun here => here.op ≠ 0 ∧ here.op &&& 0xf0 = 0) s.input = .short i → ∃ back,
        symbolStep mem s.state = .leave (some { s.state with back := back, input := i }) := by
    intro i is
    exact ⟨0, by simp only [symbolStep, Inflater.state, mode', lenState, is]⟩
  -- One case for each kind of entry: both look the same code up, and branch on its `op`.
  cases code with
  | literal op =>
    have goes := step (by
      simp only [Decoder.len, lookedUp, if_pos op]
      rfl)
    refine follows.fetches block goes rfl (takes (follows.at goes)) short ?_
    intro i is
    refine ⟨_, by
      simp only [symbolStep, Inflater.state, mode', lenState, is, if_pos op]
      rfl, ?_⟩
    exact ⟨by simp only [Decoder.mode, regs], rfl, rfl, ⟨rfl, rfl⟩,
      by simp only [Decoder.mode, Registers.Agree, block]⟩
  | endOfBlock op =>
    have other : ¬ e.op = 0 := by omega
    have isEnd : e.op &&& 32 ≠ 0 := by
      rw [op]
      decide
    have goes := step (by
      simp only [Decoder.len, lookedUp, if_neg other, if_pos isEnd]
      rfl)
    refine follows.fetches block goes rfl (takes (follows.at goes)) short ?_
    intro i is
    refine ⟨_, by
      simp only [symbolStep, Inflater.state, mode', lenState, is, if_neg other, if_pos isEnd]
      rfl, ?_⟩
    exact ⟨by simp only [Decoder.mode, regs], rfl, rfl, ⟨rfl, rfl⟩,
      by simp only [Decoder.mode, Registers.Agree, block]⟩
  | @invalid low few op =>
    obtain ⟨-, notEnd, isBad, -⟩ := op_invalid low few
    have other : ¬ e.op = 0 := by omega
    rw [← op] at notEnd isBad
    have noEnd : ¬ e.op &&& 32 ≠ 0 := Classical.not_not.mpr notEnd
    have goes := step (by
      simp only [Decoder.len, lookedUp, if_neg other, if_neg noEnd, if_pos isBad]
      rfl)
    refine follows.fetches block goes rfl (takes (follows.at goes)) short ?_
    intro i is
    refine ⟨_, by
      simp only [symbolStep, Inflater.state, mode', lenState, is, if_neg other, if_neg noEnd,
        if_pos isBad]
      rfl, ?_⟩
    exact ⟨rfl, rfl, rfl, ⟨rfl, rfl⟩, by simp only [Decoder.bad, Registers.Agree, block]⟩
  | @base extra few op long small =>
    obtain ⟨-, low, notEnd, valid, -⟩ := op_base extra (by omega)
    have other : ¬ e.op = 0 := by omega
    rw [← op] at low notEnd valid
    have noEnd : ¬ e.op &&& 32 ≠ 0 := Classical.not_not.mpr notEnd
    have fine : ¬ e.op &&& 64 ≠ 0 := Classical.not_not.mpr valid
    have goes := step (by
      simp only [Decoder.len, lookedUp, if_neg other, if_neg noEnd, if_neg fine]
      rfl)
    refine follows.fetches block goes rfl (takes (follows.at goes)) short ?_
    intro i is
    refine ⟨_, by
      simp only [symbolStep, Inflater.state, mode', lenState, is, if_neg other, if_neg noEnd,
        if_neg fine]
      rfl, ?_⟩
    exact ⟨by simp only [Decoder.mode, regs], rfl, rfl, ⟨rfl, rfl⟩,
      by simp only [Decoder.mode, Registers.Agree, block, and_self]⟩

/-- `case DIST` -/
theorem Follows.dist (there : x.In mem) (follows : Follows x history s d)
    (block : d.regs.block = none) (mode : d.regs.mode = .dist) :
    Rounds flush x history (s.out.length + s.left) d (s.slow mem) := by
  obtain ⟨lens, dists, -, finds⟩ :=
    follows.sound.tables block (by simp [mode]) (by simp [mode])
  obtain ⟨e, n, entryAt, -⟩ := finds.formed.entryAt x.bits d.pos
  have lookedUp := EntryAt.lookup distTest entryAt
  have step : ∀ {d'}, d.dist x.bits = .again d' → d.step x.bits = .again d' := by
    intro d' is
    simp only [Decoder.step, block, mode, is]
  have mode' : s.regs.mode = .dist := (congrArg Registers.mode follows.regs).trans mode
  have regs := follows.regs
  have agree := follows.pending
  simp only [Registers.Agree, block, mode] at agree
  have takes : ∀ pos : s.input.At x d.pos, Takes x d.pos s.input.bits n (e, n) (fetchCode mem
      s.regs.distcode s.regs.distbits (fun here => here.op &&& 0xf0 = 0) s.input) := by
    intro pos
    rw [regs]
    exact fetchCode_takes there finds.formed distTest entryAt pos
  have short : ∀ i, fetchCode mem s.regs.distcode s.regs.distbits
      (fun here => here.op &&& 0xf0 = 0) s.input = .short i → ∃ back,
        symbolStep mem s.state = .leave (some { s.state with back := back, input := i }) := by
    intro i is
    exact ⟨s.back, by simp only [symbolStep, Inflater.state, mode', distState, is]⟩
  by_cases isBad : e.op &&& 64 ≠ 0
  · have goes := step (by
      simp only [Decoder.dist, lookedUp, if_pos isBad]
      rfl)
    refine follows.fetches block goes rfl (takes (follows.at goes)) short ?_
    intro i is
    refine ⟨_, by
      simp only [symbolStep, Inflater.state, mode', distState, is, if_pos isBad]
      rfl, ?_⟩
    exact ⟨rfl, rfl, rfl, ⟨rfl, rfl⟩, by simp only [Decoder.bad, Registers.Agree, block]⟩
  · have goes := step (by
      simp only [Decoder.dist, lookedUp, if_neg isBad]
      rfl)
    refine follows.fetches block goes rfl (takes (follows.at goes)) short ?_
    intro i is
    refine ⟨_, by
      simp only [symbolStep, Inflater.state, mode', distState, is, if_neg isBad]
      rfl, ?_⟩
    exact ⟨by simp only [Decoder.mode, regs], rfl, rfl, ⟨rfl, rfl⟩,
      by simp only [Decoder.mode, Registers.Agree, block, agree]⟩

/-- `case LENEXT` -/
theorem Follows.lenext (there : x.In mem) (follows : Follows x history s d)
    (block : d.regs.block = none) (mode : d.regs.mode = .lenext) :
    Rounds flush x history (s.out.length + s.left) d (s.slow mem) := by
  have goes : d.step x.bits = .again (Decoder.mode { d with
      pos := d.pos + d.pending.extra
      pending := { d.pending with
        length := d.pending.length + bitField x.bits d.pos d.pending.extra } } .dist) := by
    simp only [Decoder.step, block, mode, Decoder.lenext]
  have mode' : s.regs.mode = .lenext := (congrArg Registers.mode follows.regs).trans mode
  have regs := follows.regs
  have pos := follows.at goes
  have agree := follows.pending
  simp only [Registers.Agree, block, mode] at agree
  obtain ⟨length, extra⟩ := agree
  by_cases more : s.pending.extra ≠ 0
  · rcases needBits_takes there pos s.pending.extra with
      ⟨i, got, -, -, pos', few⟩ | ⟨i, short, pos', none, lacks⟩
    · refine follows.symbol block goes (t := { s.state with
        input := i.drop s.pending.extra
        length := s.pending.length + bitField x.bits d.pos s.pending.extra
        back := s.back + s.pending.extra
        was := s.pending.length + bitField x.bits d.pos s.pending.extra
        mode := .dist }) ?_ ?_ rfl ⟨rfl, rfl⟩ ?_ ?_ s.pending.extra ?_ few
      · simp only [symbolStep, Inflater.state, mode', lenextState, if_pos more, got]
      · simp only [Decoder.mode, Inflater.state, regs]
      · simp only [Decoder.mode, Registers.Agree, block, length, extra]
      · rw [extra] at pos'
        simp only [extra]
        exact pos'
      · simp only [Decoder.mode, extra]
    · refine follows.symbol_starves goes (t := { s.state with input := i }) ?_
        ⟨⟨rfl, rfl, rfl, rfl⟩, rfl, rfl, rfl⟩ pos' none ?_
      · simp only [symbolStep, Inflater.state, mode', lenextState, if_pos more, short]
      · simp only [Decoder.mode]
        omega
  · have zero : d.pending.extra = 0 := extra ▸ Classical.not_not.mp more
    refine follows.symbol block goes (t := { s.state with
      was := s.pending.length, mode := .dist }) ?_ ?_ rfl ⟨rfl, rfl⟩ ?_ ?_ 0 ?_ (.inr rfl)
    · simp only [symbolStep, Inflater.state, mode', lenextState, if_neg more]
    · simp only [Decoder.mode, Inflater.state, regs]
    · simp only [Decoder.mode, Registers.Agree, block, Inflater.state, length, zero, bitField_zero,
        Nat.add_zero]
    · simp only [Decoder.mode, zero, Nat.add_zero]
      exact pos
    · simp only [Decoder.mode, zero]

/-- `case DISTEXT` -/
theorem Follows.distext (there : x.In mem) (follows : Follows x history s d)
    (block : d.regs.block = none) (mode : d.regs.mode = .distext) :
    Rounds flush x history (s.out.length + s.left) d (s.slow mem) := by
  have goes : d.step x.bits = .again (Decoder.mode { d with
      pos := d.pos + d.pending.extra
      pending := { d.pending with
        offset := d.pending.offset + bitField x.bits d.pos d.pending.extra } } .matching) := by
    simp only [Decoder.step, block, mode, Decoder.distext]
  have mode' : s.regs.mode = .distext := (congrArg Registers.mode follows.regs).trans mode
  have regs := follows.regs
  have pos := follows.at goes
  have agree := follows.pending
  simp only [Registers.Agree, block, mode] at agree
  by_cases more : s.pending.extra ≠ 0
  · rcases needBits_takes there pos s.pending.extra with
      ⟨i, got, -, -, pos', few⟩ | ⟨i, short, pos', none, lacks⟩
    · refine follows.symbol block goes (t := { s.state with
        input := i.drop s.pending.extra
        offset := s.pending.offset + bitField x.bits d.pos s.pending.extra
        back := s.back + s.pending.extra
        mode := .matching }) ?_ ?_ rfl ⟨rfl, rfl⟩ ?_ ?_ s.pending.extra ?_ few
      · simp only [symbolStep, Inflater.state, mode', distextState, if_pos more, got]
      · simp only [Decoder.mode, Inflater.state, regs]
      · simp only [Decoder.mode, Registers.Agree, block, Inflater.state, agree, and_self]
      · rw [agree] at pos'
        simp only [agree]
        exact pos'
      · simp only [Decoder.mode, agree]
    · refine follows.symbol_starves goes (t := { s.state with input := i }) ?_
        ⟨⟨rfl, rfl, rfl, rfl⟩, rfl, rfl, rfl⟩ pos' none ?_
      · simp only [symbolStep, Inflater.state, mode', distextState, if_pos more, short]
      · rw [agree] at lacks
        simp only [Decoder.mode]
        omega
  · have zero : d.pending.extra = 0 := agree ▸ Classical.not_not.mp more
    refine follows.symbol block goes (t := { s.state with mode := .matching })
      ?_ ?_ rfl ⟨rfl, rfl⟩ ?_ ?_ 0 ?_ (.inr rfl)
    · simp only [symbolStep, Inflater.state, mode', distextState, if_neg more]
    · simp only [Decoder.mode, Inflater.state, regs]
    · simp only [Decoder.mode, Registers.Agree, block, Inflater.state, agree, zero, bitField_zero,
        Nat.add_zero, and_self]
    · simp only [Decoder.mode, zero, Nat.add_zero]
      exact pos
    · simp only [Decoder.mode, zero]

/-- The decoder puts the bytes of a match. -/
theorem Decoder.matches {x : Nat} {w : Window} {n : Nat} {out out' : Bytes}
    (holds : w.Holds history) (block : d.regs.block = none) (mode : d.regs.mode = .matching)
    (is : d.out = history ++ out)
    (reach : d.pending.offset ≤ out.length + w.whave) (some : 1 ≤ d.pending.length)
    (le : n ≤ d.pending.length) (copied : copyMatch w d.pending.offset n out = .some out') :
    Goes (Decoder.step x) d (Decoder.mode { d with
      pending := { d.pending with length := d.pending.length - n }
      out := history ++ out' } (if d.pending.length - n = 0 then .len else .matching)) := by
  induction n generalizing d out with
  | zero =>
    have none : out = out' := Option.some.inj copied
    have more : ¬ d.pending.length - 0 = 0 := by omega
    have same : Decoder.mode { d with
        pending := { d.pending with length := d.pending.length - 0 }
        out := history ++ out' } (if d.pending.length - 0 = 0 then .len else .matching) = d := by
      rw [if_neg more, ← none, ← is, Decoder.mode, ← mode]
      rfl
    rw [same]
    exact .refl d
  | succ n ih =>
    obtain ⟨b, past, copied⟩ := Option.bind_eq_some_iff.mp copied
    have whave := holds.right.whave
    have least : w.whave ≤ history.length := whave ▸ Nat.min_le_left _ _
    have near : ¬ d.pending.offset > d.out.length := by
      rw [is, List.length_append]
      omega
    rw [holds.past reach, ← is] at past
    have step : d.step x = .again (Decoder.mode { d with
        pending := { d.pending with length := d.pending.length - 1 }
        out := d.out ++ [b] } (if d.pending.length - 1 = 0 then .len else .matching)) := by
      simp only [Decoder.step, block, mode, Decoder.matching, if_neg near, past]
    rw [is, List.append_assoc] at step
    rcases Nat.eq_zero_or_pos n with rfl | more
    · cases copied
      exact .one step
    · have left : d.pending.length - 1 - n = d.pending.length - (n + 1) := by omega
      have on : ¬ d.pending.length - 1 = 0 := by omega
      rw [if_neg on] at step
      have rest := ih (d := Decoder.mode { d with
          pending := { d.pending with length := d.pending.length - 1 }
          out := history ++ (out ++ [b]) } .matching) block rfl rfl
        (by simp only [Decoder.mode, List.length_append]; omega)
        (by simp only [Decoder.mode]; omega) (by simp only [Decoder.mode]; omega) copied
      simp only [Decoder.mode, left] at rest
      exact .head step rest

/-- As much of a match as there is room for. -/
theorem matchCopy_puts {t : State} {src : Origin} (copy : Nat) (sound : t.window.Sound)
    (some : 1 ≤ t.offset) (near : t.offset ≤ t.out.length + t.window.whave)
    (tracks : Tracks t.window t.offset copy src t.out) :
    ∃ out', copyMatch t.window t.offset (min copy t.left) t.out = .some out' ∧
      matchCopy t src copy = .again { t with
        out := out'
        left := t.left - min copy t.left
        length := t.length - min copy t.left
        mode := if t.length - min copy t.left = 0 then .len else t.mode } := by
  obtain ⟨out', copied⟩ := copyMatch_some sound some near (min copy t.left)
  refine ⟨out', copied, ?_⟩
  rw [matchCopy, copyBytes_match (tracks.mono (Nat.min_le_left _ _)) (by omega), copied]
  rfl

/-- `case MATCH` where the match does not reach too far. -/
theorem matchState_puts {t : State} (sound : t.window.Sound) (some : 1 ≤ t.offset)
    (near : t.offset ≤ t.out.length + t.window.whave) (more : 1 ≤ t.length) (room : t.left ≠ 0) :
    ∃ n out', 1 ≤ n ∧ n ≤ t.length ∧ n ≤ t.left ∧
      copyMatch t.window t.offset n t.out = .some out' ∧ matchState t = .again { t with
        out := out'
        left := t.left - n
        length := t.length - n
        mode := if t.length - n = 0 then .len else t.mode } := by
  have whave_le := sound.whave_le
  simp only [matchState, if_neg room]
  by_cases window : t.offset > t.out.length
  · have within : ¬ (t.offset - t.out.length > t.window.whave ∧ t.sane = true) := by omega
    rw [if_pos window, if_neg within]
    by_cases wraps : t.offset - t.out.length > t.window.wnext
    · rw [if_pos wraps]
      obtain ⟨out', copied, is⟩ := matchCopy_puts (min (t.offset - t.out.length -
        t.window.wnext) t.length) sound some near
        (Tracks.mono (.wrapped (by omega) (by omega)) (Nat.min_le_left _ _))
      exact ⟨_, out', by omega, by omega, Nat.min_le_right _ _, copied, is⟩
    · rw [if_neg wraps]
      obtain ⟨out', copied, is⟩ := matchCopy_puts (min (t.offset - t.out.length) t.length)
        sound some near (Tracks.mono (.contiguous (by omega) (by omega)) (Nat.min_le_left _ _))
      exact ⟨_, out', by omega, by omega, Nat.min_le_right _ _, copied, is⟩
  · rw [if_neg window]
    obtain ⟨out', copied, is⟩ := matchCopy_puts t.length sound some near
      (.output (Nat.le_of_not_lt window) _)
    exact ⟨_, out', by omega, Nat.min_le_left _ _, Nat.min_le_right _ _, copied, is⟩

/-- What is within the reach of the window and the output is all there is, as distances are at
most 32768. -/
theorem Follows.reach_iff (follows : Follows x history s d) (before : d.regs.beforeCheck = true)
    (dist : Nat) (small : dist ≤ 32768) :
    dist ≤ s.out.length + s.window.whave ↔ dist ≤ d.out.length := by
  have whave := (follows.holds before).right.whave
  rw [follows.wbits] at whave
  rw [follows.out, List.length_append]
  omega

/-- The decoder reads nothing for a match. -/
theorem Decoder.matching_step (sound : d.Sound) (block : d.regs.block = none)
    (mode : d.regs.mode = .matching) (x : Nat) :
    ∃ d₁, d.step x = .again d₁ ∧ d₁.pos = d.pos := by
  have pends := sound.pends
  simp only [Decoder.Pends, block, mode] at pends
  simp only [Decoder.step, block, mode, Decoder.matching]
  by_cases far : d.pending.offset > d.out.length
  · rw [if_pos far]
    exact ⟨_, rfl, rfl⟩
  · rw [if_neg far, List.getElem?_eq_getElem (by omega)]
    exact ⟨_, rfl, rfl⟩

/-- `case MATCH` -/
theorem Follows.matching (follows : Follows x history s d) (block : d.regs.block = none)
    (mode : d.regs.mode = .matching) :
    Rounds flush x history (s.out.length + s.left) d (s.slow mem) := by
  have mode' : s.regs.mode = .matching := (congrArg Registers.mode follows.regs).trans mode
  have before : d.regs.beforeCheck = true := by simp [Registers.beforeCheck, block, mode]
  have holds := follows.holds before
  have pends := follows.sound.pends
  simp only [Decoder.Pends, block, mode] at pends
  have agree := follows.pending
  simp only [Registers.Agree, block, mode] at agree
  obtain ⟨length, offset⟩ := agree
  obtain ⟨d₁, step, still⟩ := Decoder.matching_step follows.sound block mode x.bits
  have pos := follows.at step
  have few := follows.held step 0 (Nat.le_of_eq still) (.inr rfl)
  have reach := follows.reach_iff before d.pending.offset (by omega)
  by_cases full : s.left = 0
  · have leaves : symbolStep mem s.state = .leave (some s.state) := by
      simp only [symbolStep, Inflater.state, mode', matchState, if_pos full]
    simp only [Inflater.slow, leaves]
    exact .leave (.refl d) follows rfl (.full full (.inl ⟨block, .inr mode⟩))
  by_cases near : d.pending.offset ≤ d.out.length
  · -- One round of `inflate` copies a piece of the match, the decoder a byte in each step.
    have near' := reach.mpr near
    obtain ⟨n, out', some, le, fits, copied, puts⟩ := matchState_puts (t := s.state) holds.sound
      (by simp only [Inflater.state, offset]; omega)
      (by simp only [Inflater.state, offset]; exact near')
      (by simp only [Inflater.state, length]; omega) full
    simp only [Inflater.state] at le fits copied
    rw [length] at le
    rw [offset] at copied
    have goes :=
      Decoder.matches (x := x.bits) holds block mode follows.out near' (by omega) le copied
    obtain ⟨sound, -, -, -⟩ := follows.sound.goes goes
    have grown := copyMatch_length copied
    have slow : symbolStep mem s.state = matchState s.state := by
      simp only [symbolStep]
      rw [show s.state.mode = .matching from mode']
    simp only [Inflater.slow, slow, puts]
    refine .again goes ?_ {
      regs := ?_
      sound := sound
      sane := follows.sane
      wbits := follows.wbits
      window := .inl holds
      out := rfl
      pending := ?_
      within := follows.within
      pos := ⟨_, pos, .inr rfl⟩
      few := .inr (.inl few) } ?_
    · simp only [Decoder.reach, Decoder.mode, List.length_append, grown, follows.out,
        Registers.rank, block, mode]
      by_cases last : d.pending.length - n = 0
      · simp only [last, if_true, Mode.rank]
        omega
      · simp only [last, if_false, Mode.rank]
        omega
    · simp only [Inflater.after, Inflater.state, Decoder.mode, follows.regs, length, mode]
    · simp only [Inflater.after, Inflater.state, Decoder.mode, Registers.Agree, block, length,
        offset]
      by_cases last : d.pending.length - n = 0
      · simp [last]
      · simp [last]
    · show out'.length + (s.left - n) = _
      omega
  · -- Farther back than the window goes is farther back than anything that was put.
    have far : s.pending.offset > s.out.length := by
      have whole := follows.out
      rw [offset]
      rw [whole, List.length_append] at near
      omega
    have too : s.pending.offset - s.out.length > s.window.whave ∧ s.sane = true := by
      refine ⟨?_, follows.sane⟩
      rw [offset]
      have not_near := mt reach.mp near
      omega
    have goes : d.step x.bits = .again (d.bad "invalid distance too far back") := by
      simp only [Decoder.step, block, mode, Decoder.matching, if_pos (Nat.lt_of_not_le near)]
    refine follows.symbol block goes (t := s.state.bad "invalid distance too far back") ?_ rfl rfl
      ⟨rfl, rfl⟩ ?_ pos 0 rfl (.inr rfl)
    · simp only [symbolStep, Inflater.state, mode', matchState, if_neg full, if_pos far, if_pos too]
    · simp only [Decoder.bad, Registers.Agree, block]

/-- `case LIT` -/
theorem Follows.lit (follows : Follows x history s d) (block : d.regs.block = none)
    (mode : d.regs.mode = .lit) :
    Rounds flush x history (s.out.length + s.left) d (s.slow mem) := by
  have mode' : s.regs.mode = .lit := (congrArg Registers.mode follows.regs).trans mode
  have before : d.regs.beforeCheck = true := by simp [Registers.beforeCheck, block, mode]
  have agree := follows.pending
  simp only [Registers.Agree, block, mode] at agree
  have step : d.step x.bits = .again
      (Decoder.mode { d with out := d.out ++ [UInt8.ofNat d.pending.length] } .len) := by
    simp only [Decoder.step, block, mode, Decoder.lit]
  have next := follows.sound.next step
  by_cases full : s.left = 0
  · have leaves : symbolStep mem s.state = .leave (some s.state) := by
      simp only [symbolStep, Inflater.state, mode', litState, if_pos full]
    simp only [Inflater.slow, leaves]
    exact .leave (.refl d) follows rfl (.full full (.inl ⟨block, .inl mode⟩))
  · have fits : s.out.length < s.out.length + s.left := by omega
    have puts : symbolStep mem s.state = .again { s.state with
        out := s.out ++ [UInt8.ofNat s.pending.length], left := s.left - 1, mode := .len } := by
      simp only [symbolStep, Inflater.state, mode', litState, if_neg full, put, if_pos fits]
    simp only [Inflater.slow, puts]
    refine .again (.one step) next.reach {
      regs := ?_
      sound := next.sound
      sane := follows.sane
      wbits := follows.wbits
      window := .inl (follows.holds before)
      out := ?_
      pending := ?_
      within := follows.within
      pos := ⟨_, follows.at step, .inr rfl⟩
      few := .inr (.inl (follows.held step 0 (Nat.le_refl _) (.inr rfl))) } ?_
    · simp only [Inflater.after, Inflater.state, Decoder.mode, follows.regs]
    · simp only [Inflater.after, Decoder.mode, follows.out, agree, List.append_assoc]
    · simp only [Decoder.mode, Registers.Agree, block]
    · simp only [Inflater.after, List.length_append, List.length_singleton]
      omega

/-! ## inflate_fast -/

/-- Symbols are decoded with the tables of the decoder, behind what was put before. -/
structure Context.Follows (history : Bytes) (r : Registers) (k : Context) : Prop where
  lens : k.lencode = r.lencode ∧ k.lenbits = r.lenbits
  dists : k.distcode = r.distcode ∧ k.distbits = r.distbits
  window : k.window.Holds history
  wbits : k.window.wbits = 15
  msg : k.msg = r.msg

end

section

variable {x : Nat} {history out out' : Bytes} {d : Decoder} {k : Context} {len c' dist : Nat}

/-- The decoder reads a length. -/
theorem Decoder.length_goes (context : Context.Follows history d.regs k)
    (block : d.regs.block = none) (mode : d.regs.mode = .len) (length : LengthAt k x d.pos len c') :
    ∃ extra, Goes (Decoder.step x) d (Decoder.mode { d with
      pos := c', pending := { d.pending with length := len, extra := extra } } .dist) := by
  obtain ⟨code, few, op⟩ := length
  rename_i e n extra
  obtain ⟨-, low, notEnd, valid, -⟩ := op_base extra (by omega)
  have other : ¬ 16 + extra = 0 := by omega
  rw [context.lens.1, context.lens.2] at code
  have first : d.step x = .again (Decoder.mode { d with
      pos := d.pos + n, pending := { d.pending with length := e.val, extra := extra } }
      .lenext) := by
    simp only [Decoder.step, block, mode, Decoder.len, EntryAt.lookup lenTest code, op, low, notEnd,
      valid, other, if_false, ne_eq, not_true_eq_false]
  refine ⟨extra, .head first (.one ?_)⟩
  simp only [Decoder.step, Decoder.mode, block, Decoder.lenext]

/-- The decoder reads a distance. -/
theorem Decoder.distance_goes (context : Context.Follows history d.regs k)
    (block : d.regs.block = none) (mode : d.regs.mode = .dist)
    (distance : DistanceAt k x d.pos dist c') :
    ∃ extra, Goes (Decoder.step x) d (Decoder.mode { d with
      pos := c', pending := { d.pending with offset := dist, extra := extra } } .matching) := by
  obtain ⟨code, few, op⟩ := distance
  rename_i e n extra
  obtain ⟨-, low, -, valid, -⟩ := op_base extra (by omega)
  rw [context.dists.1, context.dists.2] at code
  have first : d.step x = .again (Decoder.mode { d with
      pos := d.pos + n, pending := { d.pending with offset := e.val, extra := extra } }
      .distext) := by
    simp only [Decoder.step, block, mode, Decoder.dist, EntryAt.lookup distTest code, op, low,
      valid, if_false, ne_eq, not_true_eq_false]
  refine ⟨extra, .head first (.one ?_)⟩
  simp only [Decoder.step, Decoder.mode, block, Decoder.distext]

theorem DistanceAt.le (context : Context.Follows history d.regs k) (tables : d.regs.Tables)
    {c : Nat} (distance : DistanceAt k x c dist c') : 1 ≤ dist ∧ dist ≤ 32768 := by
  obtain ⟨lens, dists, -, finds⟩ := tables
  obtain ⟨code, few, op⟩ := distance
  rename_i e n extra
  rw [context.dists.1, context.dists.2] at code
  have small := bitField_lt x (c + n) extra
  rcases finds.distance code with invalid | ⟨extra', -, op', some, most⟩
  · omega
  · obtain rfl : extra = extra' := by omega
    omega

/-- The decoder decodes a symbol. -/
theorem Decoder.symbol_goes (context : Context.Follows history d.regs k) (tables : d.regs.Tables)
    (block : d.regs.block = none) (mode : d.regs.mode = .len) (is : d.out = history ++ out)
    {how : Break} (symbol : SymbolAt k x d.pos out c' out' how) :
    ∃ p, Goes (Decoder.step x) d
      ⟨{ d.regs with mode := how.mode, msg := how.msg }, p, c', history ++ out'⟩ := by
  cases symbol with
  | @literal e n code op =>
    rw [context.lens.1, context.lens.2] at code
    have first : d.step x = .again (Decoder.mode { d with
        pos := d.pos + n, pending := { d.pending with length := e.val } } .lit) := by
      simp only [Decoder.step, block, mode, Decoder.len, EntryAt.lookup lenTest code, if_pos op]
    refine ⟨{ d.pending with length := e.val }, .head first (.one ?_)⟩
    simp only [Decoder.step, Decoder.mode, block, Decoder.lit, is, List.append_assoc, context.msg]
  | @endOfBlock e n code op =>
    rw [context.lens.1, context.lens.2] at code
    have other : ¬ e.op = 0 := by omega
    have isEnd : e.op &&& 32 ≠ 0 := by
      rw [op]
      decide
    refine ⟨{ d.pending with length := e.val }, .one ?_⟩
    simp only [Decoder.step, block, mode, Decoder.len, EntryAt.lookup lenTest code, if_neg other,
      if_pos isEnd, Decoder.mode, is, context.msg]
  | @badLength e n low code few op =>
    obtain ⟨-, notEnd, isBad, -⟩ := op_invalid low few
    have other : ¬ 64 + low = 0 := by omega
    rw [context.lens.1, context.lens.2] at code
    refine ⟨{ d.pending with length := e.val }, .one ?_⟩
    simp only [Decoder.step, block, mode, Decoder.len, EntryAt.lookup lenTest code, op, is, other,
      notEnd, isBad, if_true, if_false, ne_eq, not_true_eq_false, not_false_eq_true, Decoder.bad]
  | @badDistance e len c₁ n low length code few op =>
    obtain ⟨extra, goes⟩ := Decoder.length_goes context block mode length
    rw [context.dists.1, context.dists.2] at code
    refine ⟨{ d.pending with length := len, extra := extra }, goes.trans (.one ?_)⟩
    simp only [Decoder.step, Decoder.mode, block, Decoder.dist, EntryAt.lookup distTest code, op,
      (op_invalid low few).2.2.1, if_true, ne_eq, not_false_eq_true, is, Decoder.bad]
  | @tooFar len c₁ dist _ length distance far =>
    obtain ⟨some, small⟩ := distance.le context tables
    obtain ⟨extra, goes⟩ := Decoder.length_goes context block mode length
    obtain ⟨extra', goes'⟩ := Decoder.distance_goes (d := Decoder.mode { d with
      pos := c₁, pending := { d.pending with length := len, extra := extra } } .dist)
      ⟨context.lens, context.dists, context.window, context.wbits, context.msg⟩ block rfl distance
    have whave := context.window.right.whave
    rw [context.wbits] at whave
    have beyond : dist > (history ++ out).length := by
      rw [List.length_append]
      omega
    refine ⟨⟨len, dist, extra'⟩, goes.trans (goes'.trans (.one ?_))⟩
    simp only [Decoder.step, Decoder.mode, block, Decoder.matching, is, if_pos beyond, Decoder.bad]
  | @copied len c₁ dist _ _ length distance near long copy =>
    obtain ⟨some, small⟩ := distance.le context tables
    obtain ⟨extra, goes⟩ := Decoder.length_goes context block mode length
    obtain ⟨extra', goes'⟩ := Decoder.distance_goes (d := Decoder.mode { d with
      pos := c₁, pending := { d.pending with length := len, extra := extra } } .dist)
      ⟨context.lens, context.dists, context.window, context.wbits, context.msg⟩ block rfl distance
    have goes'' := goes.trans (goes'.trans (Decoder.matches
      context.window block rfl is near long (Nat.le_refl len) copy))
    simp only [Decoder.mode, Nat.sub_self, if_true] at goes''
    rw [context.msg]
    exact ⟨_, goes''⟩

/-- A symbol takes the decoder at least one state on. -/
theorem Decoder.symbol_first (context : Context.Follows history d.regs k) (tables : d.regs.Tables)
    (block : d.regs.block = none) (mode : d.regs.mode = .len) (is : d.out = history ++ out)
    {how : Break} (symbol : SymbolAt k x d.pos out c' out' how) :
    ∃ p d₁, d.step x = .again d₁ ∧ Goes (Decoder.step x) d₁
      ⟨{ d.regs with mode := how.mode, msg := how.msg }, p, c', history ++ out'⟩ := by
  obtain ⟨p, goes⟩ := Decoder.symbol_goes context tables block mode is symbol
  generalize last_eq : (Decoder.mk { d.regs with mode := how.mode, msg := how.msg } p c'
    (history ++ out')) = last at goes
  cases goes with
  | head turn rest => exact ⟨p, _, turn, last_eq ▸ rest⟩
  | refl =>
    -- A symbol that leaves mode and message as they are puts something.
    have mode' : how.mode = .len := by rw [← mode, ← last_eq]
    have msg : how.msg = k.msg := by rw [context.msg, ← last_eq]
    have same : history ++ out' = history ++ out := by rw [← is, ← last_eq]
    have how_eq : how = ⟨.len, k.msg⟩ := by rw [← mode', ← msg]
    subst how_eq
    have grows := symbol.grows
    rw [List.append_cancel_left same] at grows
    exact absurd grows (Nat.lt_irrefl _)

end

section

variable {flush c c' : Nat} {x : BitStream} {mem : Memory} {history : Bytes} {s : Inflater}
  {d : Decoder}

theorem SymbolAt.between {k : Context} {x : Nat} {out out' : Bytes} {how : Break}
    (symbol : SymbolAt k x c out c' out' how) : how.mode.Between := by
  cases symbol <;> simp [Mode.Between]

/-- The loop of `inflate_fast`, and the decoder for the same symbols. -/
theorem fastRun_goes (there : x.In mem) {t : State} (sound : t.context.Sound)
    (stop : x.stop = t.input.next.add t.input.avail) {v : FastVars}
    (context : Context.Follows history d.regs t.context) (tables : d.regs.Tables)
    (block : d.regs.block = none) (mode : d.regs.mode = .len) (is : d.out = history ++ v.out)
    (pos : v.At x d.pos) (more : d.pos + 48 ≤ x.total)
    (room : v.out.length + 258 ≤ t.out.length + t.left) :
    ∃ n v' how d₁ d', (∀ gotos, LeavesIn (fastRound mem t (gotos + 2)) n v (some (v', how))) ∧
      n + v.out.length ≤ t.out.length + t.left ∧ v'.out.length ≤ t.out.length + t.left ∧
      d.step x.bits = .again d₁ ∧ Goes (Decoder.step x.bits) d₁ d' ∧ v'.At x d'.pos ∧
      d'.out = history ++ v'.out ∧ how.mode.Between ∧
      d'.regs = { d.regs with mode := how.mode, msg := how.msg } := by
  induction left : t.out.length + t.left - v.out.length using Nat.strong_induction_on
    generalizing d v with
  | _ left ih =>
    subst left
    obtain ⟨v₁, brk, decodes, ⟨c₁, symbol, pos₁⟩, grown⟩ :=
      fastSymbol_decodes there sound pos more room
    obtain ⟨p, d₁, first, goes⟩ :=
      Decoder.symbol_first context tables block mode is symbol
    obtain ⟨avail, pos₁'⟩ := pos₁
    have total : c₁ + v₁.bits + 8 * avail = x.total := pos₁'.total
    cases brk with
    | some how =>
      refine ⟨1, v₁, how, d₁, _, fun gotos => .last ?_, by omega, by omega, first, goes,
        ⟨avail, pos₁'⟩, rfl, symbol.between, rfl⟩
      simp only [fastRound, decodes gotos]
    | none =>
      by_cases on : v₁.inp.addr < t.fastLast.addr ∧ (v₁.out.length : Int) < t.fastEnd
      · have enough := (fastLast_iff stop pos₁').mp on.1
        have room₁ := fastEnd_iff.mp on.2
        have grows : v.out.length < v₁.out.length := symbol.grows
        have msg : t.msg = d.regs.msg := context.msg
        have same : ({ d.regs with mode := .len, msg := t.msg } : Registers) = d.regs := by
          rw [msg, ← mode]
        simp only [Option.getD_none, same] at goes
        obtain ⟨n, v', how, d₂, d', rounds, few, fits, second, goes', pos', out', between,
            regs⟩ := ih (d := ⟨d.regs, p, c₁, history ++ v₁.out⟩) _ (by omega) context tables block
          mode rfl ⟨avail, pos₁'⟩ (by simp only; omega) room₁ rfl
        exact ⟨n + 1, v', how, d₁, d', fun gotos => .again (by
          simp only [fastRound, decodes gotos, if_pos on]) (rounds gotos), by omega, fits, first,
          goes.trans (.head second goes'), pos', out', between, regs⟩
      · refine ⟨1, v₁, ⟨.len, t.msg⟩, d₁, _, fun gotos => .last ?_, by omega, by omega, first, goes,
          ⟨avail, pos₁'⟩, rfl, .inl rfl, rfl⟩
        simp only [fastRound, decodes gotos, if_neg on]

/-- The bytes that `inflate_fast` gives back are those of this call. -/
theorem fastReturn_at (sin : Ptr) (object : sin.object = x.stop.object)
    (pos : s.input.At x c) {v : FastVars} (pos' : v.At x c') (further : c + s.input.bits ≤ c' + 7)
    (how : Break) (fits : v.out.length ≤ s.out.length + s.left) :
    (fastReturn s.state sin v how).input.At x c' ∧
      (fastReturn s.state sin v how).input.bits < 8 ∧
      (fastReturn s.state sin v how).out = v.out ∧
      v.out.length + (fastReturn s.state sin v how).left = s.out.length + s.left ∧
      (fastReturn s.state sin v how).mode = how.mode ∧
      (fastReturn s.state sin v how).msg = how.msg := by
  obtain ⟨avail, pos''⟩ := id pos'
  have total := pos.total
  have total' : c' + v.bits + 8 * avail = x.total := pos''.total
  have stop : x.stop = s.state.input.next.add s.state.input.avail := by
    show x.stop = s.input.next.add s.input.avail
    rw [pos.next, Ptr.add_add, Int.add_left_neg, Ptr.add_zero]
  -- The state of the slow path with the same bits.
  let t : State := { s.state with
    mode := how.mode
    msg := how.msg
    input := ⟨x.stop.add (-((avail + v.bits / 8 : Nat) : Int)), avail + v.bits / 8,
      bitField x.bits c' (v.bits % 8), v.bits % 8⟩
    out := v.out
    left := s.out.length + s.left - v.out.length }
  have within : avail + v.bits / 8 ≤ x.count := by
    have le := pos.avail
    omega
  have stands : Stands x c' how.mode t := by
    refine ⟨rfl, ⟨rfl, within, rfl, ?_⟩, Nat.mod_lt _ (by decide)⟩
    show c' + v.bits % 8 + 8 * (avail + v.bits / 8) = x.total
    omega
  have agrees := fastReturn_eq (s := s.state) (t := t) stop
    ⟨pos', stands, rfl, rfl, by simp only [t, Inflater.state]; omega⟩ sin
  have input : (fastReturn s.state sin v how).input = t.input := by
    rw [agrees.input, object]
    rfl
  rw [input, agrees.out, agrees.left, agrees.mode, agrees.msg]
  exact ⟨stands.pos, stands.few, rfl, by simp only [t]; omega, rfl, rfl⟩

theorem Follows.back (follows : Follows x history s d) (back : Int) :
    Follows x history { s with back := back } d :=
  ⟨follows.regs, follows.sound, follows.sane, follows.wbits, follows.window, follows.out,
    follows.pending, follows.within, follows.pos, follows.few⟩

/-- `inflate_fast`, when `next_in` keeps its capability. -/
theorem Follows.fast (there : x.In mem) (follows : Follows x history s d)
    (block : d.regs.block = none) (mode : d.regs.mode = .len) (enough : 6 ≤ s.input.avail)
    (room : 258 ≤ s.left) {v : Variant} (sin : (v.sin s.input.next).object = x.stop.object)
    {fuel : Nat} (fuelled : s.left + 2 ≤ fuel) :
    Rounds flush x history (s.out.length + s.left) d (s.fast v fuel mem) := by
  have before : d.regs.beforeCheck = true := by simp [Registers.beforeCheck, block, mode]
  have regs := follows.regs
  have holds := follows.holds before
  have tables := follows.sound.tables block (by simp [mode]) (by simp [mode])
  obtain ⟨lens, dists, findsLens, findsDists⟩ := id tables
  have fine : ¬ d.regs.Failed := by
    rintro ⟨-, bad⟩
    rw [mode] at bad
    cases bad
  obtain ⟨c, pos, ⟨failed, -⟩ | rfl⟩ := follows.pos
  · exact absurd failed fine
  have total := pos.total
  have context : Context.Follows history d.regs s.state.context :=
    ⟨⟨by rw [← regs]; rfl, by rw [← regs]; rfl⟩, ⟨by rw [← regs]; rfl, by rw [← regs]; rfl⟩, holds,
      follows.wbits, by rw [← regs]; rfl⟩
  have sound : s.state.context.Sound := by
    refine ⟨?_, ?_, holds.sound, follows.sane⟩
    · rw [context.lens.1, context.lens.2]
      exact findsLens.formed
    · rw [context.dists.1, context.dists.2]
      exact findsDists.formed
  have stop : x.stop = s.state.input.next.add s.state.input.avail := by
    show x.stop = s.input.next.add s.input.avail
    rw [pos.next, Ptr.add_add, Int.add_left_neg, Ptr.add_zero]
  have start : s.state.fastStart.At x d.pos := by
    refine ⟨s.input.avail, ?_⟩
    have next : (s.input.next.add (-1)).add 1 = s.input.next := by
      rw [Ptr.add_add]
      exact Ptr.add_zero _
    simp only [FastVars.input, State.fastStart, Inflater.state, next]
    exact pos
  obtain ⟨n, v', how, d₁, d', rounds, few, fits, first, goes, pos', out, between, regs'⟩ :=
    fastRun_goes there sound stop context tables block mode follows.out start (by omega)
      (by simp only [State.fastStart, Inflater.state]; omega)
  have all := Goes.head first goes
  obtain ⟨sound', -, -, reach⟩ := (follows.sound.next first).sound.goes goes
  have less := (follows.sound.next first).reach
  -- All but seven of the bits held at first are used, so no byte from before is given back.
  have further : d.pos + s.input.bits ≤ d'.pos + 7 := by
    obtain ⟨-, le, -, -⟩ := (follows.sound.next first).sound.goes goes
    have le' := (follows.sound.next first).pos
    rcases follows.few with failed | less | ⟨d₂, step, more⟩
    · exact absurd failed fine
    · omega
    · rw [first] at step
      cases step
      omega
  have fuel_eq : fuel - 2 + 2 = fuel := by omega
  have n_le : n ≤ fuel := by
    simp only [State.fastStart, Inflater.state] at few
    omega
  have ran := run_mono _ n_le (rounds (fuel - 2)).run_eq
  rw [fuel_eq] at ran
  have returns : inflateFast mem (v.sin s.input.next) fuel s.state =
      some (fastReturn s.state (v.sin s.input.next) v' how) := by
    simp only [inflateFast, ran, Option.bind_eq_bind, Option.bind_some]
  obtain ⟨at', few', out', left', mode', msg'⟩ := fastReturn_at (v.sin s.input.next) sin pos pos'
    further how fits
  have total' := at'.total
  -- It returns between symbols or at what is wrong in one.
  have follows' : Follows x history
      (s.after (fastReturn s.state (v.sin s.input.next) v' how)) d' := by
    constructor
    case regs => simp only [Inflater.after, regs', mode', msg', regs]
    case sound => exact sound'
    case sane => exact follows.sane
    case wbits => exact follows.wbits
    case window => exact .inl holds
    case out => exact out.trans (congrArg (history ++ ·) out'.symm)
    case pending =>
      rw [regs']
      rcases between with is | is | is <;> simp only [Registers.Agree, block, is]
    case within => omega
    case pos => exact ⟨_, at', .inr rfl⟩
    case few => exact .inr (.inl few')
  have room' : (s.after (fastReturn s.state (v.sin s.input.next) v' how)).out.length +
      (s.after (fastReturn s.state (v.sin s.input.next) v' how)).left =
        s.out.length + s.left := by
    simp only [Inflater.after, out']
    exact left'
  simp only [Inflater.fast, returns]
  by_cases isType : (fastReturn s.state (v.sin s.input.next) v' how).mode = .type
  · rw [if_pos isType]
    exact .again all (Nat.lt_of_lt_of_le less reach) (follows'.back (-1)) room'
  · rw [if_neg isType]
    exact .again all (Nat.lt_of_lt_of_le less reach) follows' room'

end

end CheriGzip.Inflate
