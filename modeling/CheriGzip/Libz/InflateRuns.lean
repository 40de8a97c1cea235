import CheriGzip.Libz.FollowsSymbols

/-!
# Calls of inflate

A call of `inflate`, from the state that the calls before it have left: it takes the decoder as far
as the input and the room go, stays inside of its memory, and ends.
-/
namespace CheriGzip.Inflate

open Loop

section

variable {flush fuel limit : Nat} {x : BitStream} {mem : Memory} {history : Bytes}
  {s s' : Inflater} {d d' : Decoder} {v : Variant}

/-! ## A round -/

/-- `case TYPE`: when the bits are there, it does not matter that the mode is not yet `TYPEDO`. -/
theorem Follows.type (there : x.In mem) (bytes : x.total % 8 = 0) (follows : Follows x history s d)
    (block : d.regs.block = none) (mode : d.regs.mode = .type) :
    Rounds flush x history (s.out.length + s.left) d (s.typedo flush mem) := by
  have before : d.regs.beforeCheck = true := by simp [Registers.beforeCheck, block, mode]
  have step : d.step x.bits = .again { d with regs := d.regs.enter .typedo } := by
    simp only [Decoder.step, block, mode]
  have pos := follows.at step
  have few := follows.held step 0 (Nat.le_refl _) (.inr rfl)
  have follows' : Follows x history { s with regs := d.regs.enter .typedo }
      { d with regs := d.regs.enter .typedo } :=
    follows.moves step ⟨rfl, rfl, rfl, rfl⟩ rfl rfl trivial (.inl before) follows.within
      ⟨_, pos, .inr rfl⟩ (.inr few)
  have next : Rounds flush x history (s.out.length + s.left)
      { d with regs := d.regs.enter .typedo }
      (Inflater.typedo flush mem { s with regs := d.regs.enter .typedo }) :=
    follows'.typedo there bytes rfl
  have reach := Nat.le_of_lt (follows.sound.next step).reach
  have regs := follows.regs
  -- `TYPE` falls through into `TYPEDO`, which the decoder does in a step of its own.
  by_cases last : d.regs.last = true
  · have same : s.typedo flush mem =
        Inflater.typedo flush mem { s with regs := d.regs.enter .typedo } := by
      have last' : (d.regs.enter .typedo).last = true := last
      simp only [Inflater.typedo, regs, if_pos last, if_pos last']
      rfl
    rw [same]
    exact .after (.one step) reach next
  have last' : ¬ (d.regs.enter .typedo).last = true := last
  rcases needBits_takes there pos 3 with ⟨i, got, -, -, -, -⟩ | ⟨i, short, pos', none, lacks⟩
  · have same : s.typedo flush mem =
        Inflater.typedo flush mem { s with regs := d.regs.enter .typedo } := by
      simp only [Inflater.typedo, Inflater.read, regs, if_neg last, if_neg last', got]
      rfl
    rw [same]
    exact .after (.one step) reach next
  · -- Too few bits: the state stays `TYPE`, so the decoder has not gone on yet.
    simp only [Inflater.typedo, Inflater.read, regs, if_neg last, short]
    have total := pos'.total
    have step' : Decoder.step x.bits { d with regs := d.regs.enter .typedo } =
        .again { d with regs := d.regs.blockType (bitField x.bits d.pos 3), pos := d.pos + 3 } := by
      have other : Decoder.step x.bits { d with regs := d.regs.enter .typedo } =
          Decoder.typedo x.bits { d with regs := d.regs.enter .typedo } := rfl
      rw [other, Decoder.typedo, if_neg last']
      rfl
    refine .leave (.refl d) ?_ rfl (.starved none (.one step) step' (by simp only; omega))
    exact ⟨rfl, follows.sound, follows.sane, follows.wbits, follows.window, follows.out,
      follows.pending, follows.within, ⟨_, pos', .inr rfl⟩, .inr (.inl (by simp only; omega))⟩

/-- Every round follows the decoder. -/
theorem Follows.round (there : x.In mem) (bytes : x.total % 8 = 0)
    (follows : Follows x history s d)
    (sin : ∀ p : Ptr, p.object = x.stop.object → (v.sin p).object = x.stop.object)
    (fuelled : s.left + 2 ≤ fuel) :
    Rounds flush x history (s.out.length + s.left) d (inflateRound v flush fuel mem s) := by
  have regs := follows.regs
  cases block : d.regs.block with
  | some b =>
    -- Some states only enter the next one.
    have enters : ∀ r, d.step x.bits = .again { d with regs := r } →
        r.Agree s.pending d.pending → (d.regs.beforeCheck = true ∨ r.beforeCheck = false) →
        Rounds flush x history (s.out.length + s.left) d (.again { s with regs := r }) :=
      fun r step agree kept => follows.enters step agree kept
    simp only [inflateRound, regs, block]
    cases b with
    | head =>
      exact enters _ (by simp only [Decoder.step, block]) trivial
        (.inl (by simp [Registers.beforeCheck, block]))
    | typedo => exact follows.typedo there bytes block
    | stored => exact follows.stored there bytes block
    | copy_ =>
      refine enters _ (by simp only [Decoder.step, block]) ?_
        (.inl (by simp [Registers.beforeCheck, block]))
      have agree := follows.pending
      simp only [Registers.Agree, block] at agree
      exact agree
    | copy => exact follows.copy there bytes block
    | table =>
      rw [← regs]
      exact follows.table there block
    | lenlens =>
      rw [← regs]
      exact follows.lenlens there block
    | codelens => exact follows.codelens there block
    | len_ =>
      exact enters _ (by simp only [Decoder.step, block]) trivial
        (.inl (by simp [Registers.beforeCheck, block]))
    | check => exact enters _ (by simp only [Decoder.step, block]) trivial (.inr rfl)
    | length => exact enters _ (by simp only [Decoder.step, block]) trivial (.inr rfl)
    | done => exact .leave (.refl d) follows rfl (.ended block)
    | mem => exact absurd block follows.sound.mem
  | none =>
    simp only [inflateRound, regs, block]
    cases mode : d.regs.mode with
    | type =>
      simp only
      by_cases flushes : flush = zBlock ∨ flush = zTrees
      · rw [if_pos flushes]
        exact .leave (.refl d) follows rfl (.boundary flushes (.inl ⟨block, mode⟩))
      · rw [if_neg flushes]
        exact follows.type there bytes block mode
    | bad => exact .leave (.refl d) follows rfl (.failed ⟨block, mode⟩)
    | len =>
      simp only
      -- `inflate_fast` needs six bytes of input and room for the longest match.
      by_cases fast : 6 ≤ s.input.avail ∧ 258 ≤ s.left
      · rw [if_pos fast]
        obtain ⟨c, pos, -⟩ := follows.pos
        have object : s.input.next.object = x.stop.object := by
          rw [pos.next]
          rfl
        exact follows.fast there block mode fast.1 fast.2 (sin _ object) fuelled
      · rw [if_neg fast]
        exact follows.len there block mode
    | lenext => exact follows.lenext there block mode
    | dist => exact follows.dist there block mode
    | distext => exact follows.distext there block mode
    | matching => exact follows.matching block mode
    | lit => exact follows.lit block mode

variable (v flush fuel) in
/-- The loop of a call ends, and follows the decoder up to there. -/
theorem Follows.runs (there : x.In mem) (bytes : x.total % 8 = 0)
    (sin : ∀ p : Ptr, p.object = x.stop.object → (v.sin p).object = x.stop.object)
    (fuelled : s.out.length + s.left + 2 ≤ fuel) {n : Nat} (follows : Follows x history s d)
    (enough : 8 * (x.total + history.length + (s.out.length + s.left)) + 8 ≤ n + d.reach) :
    ∃ ret s' d', run (inflateRound v flush fuel mem) n s = some (some (ret, s')) ∧
      Goes (Decoder.step x.bits) d d' ∧ Follows x history s' d' ∧
      s'.out.length + s'.left = s.out.length + s.left ∧
      Stops flush x (s'.input.avail = 0) (s'.left = 0) d' ret := by
  induction n generalizing s d with
  | zero =>
    -- No decoder comes further than the input and the room.
    have within := follows.within
    have out := congrArg List.length follows.out
    rw [List.length_append] at out
    simp only [Decoder.reach] at enough
    omega
  | succ n ih =>
    have rounds : Rounds flush x history (s.out.length + s.left) d
        (inflateRound v flush fuel mem s) :=
      follows.round there bytes sin (by omega)
    rw [run]
    generalize inflateRound v flush fuel mem s = r at rounds
    cases rounds with
    | again goes reach follows' room =>
      obtain ⟨ret, s'', d'', ran, goes', follows'', room', stops⟩ :=
        ih (by omega) follows' (by omega)
      exact ⟨ret, s'', d'', ran, goes.trans goes', follows'', room'.trans room, stops⟩
    | leave goes follows' room stops => exact ⟨_, _, _, rfl, goes, follows', room, stops⟩

end

/-! ## A call -/

/-- The input of a call is the data behind the `consumed` bytes that are taken already. -/
def Slice.Carries (io : Slice) (data consumed : Nat) : Prop :=
  ∀ k < io.avail, ∃ b, io.mem (io.next.add k) = some b ∧
    b.toNat = bitField data (8 * (consumed + k)) 8

def Slice.stream (io : Slice) (data consumed : Nat) : BitStream where
  bits := data
  total := 8 * (consumed + io.avail)
  stop := io.next.add io.avail
  count := io.avail

theorem Slice.Carries.in {io : Slice} {data consumed : Nat} (carries : io.Carries data consumed) :
    (io.stream data consumed).In io.mem := by
  intro m inside
  have inside' : m < io.avail := inside
  obtain ⟨b, read, value⟩ := carries (io.avail - (m + 1)) (by omega)
  refine ⟨b, ?_, ?_⟩
  · rw [← read]
    show io.mem ((io.next.add io.avail).add _) = _
    rw [Ptr.add_add]
    congr 2
    omega
  · rw [value]
    show bitField data _ 8 = bitField data (8 * (consumed + io.avail) - 8 * (m + 1)) 8
    congr 1
    omega

/-- Between two calls: `consumed` bytes of the data were taken and `history` was put, and the
decoder has come to `d`. -/
structure Resumes (data consumed : Nat) (history : Bytes) (s : Inflater) (d : Decoder) : Prop where
  regs : s.regs = d.regs
  sound : d.Sound
  sane : s.sane = true
  wbits : s.window.wbits = 15
  window : s.window.Holds history ∨ d.regs.beforeCheck = false ∧ s.window = .start 15
  out : d.out = history
  pending : d.regs.Agree s.pending d.pending
  pos : ∃ c, s.input.hold = bitField data c s.input.bits ∧ c + s.input.bits = 8 * consumed ∧
    (d.regs.Failed ∧ c ≤ d.pos ∧ d.pos ≤ c + s.input.bits ∨ c = d.pos)
  few : d.regs.Failed ∨ s.input.bits < 8 ∨
    ∃ d', d.step data = .again d' ∧ d.pos + s.input.bits < d'.pos

section

variable {data consumed fuel flush : Nat} {history : Bytes} {s s' : Inflater} {d d' : Decoder}
  {io : Slice}

/-- `LOAD()` -/
theorem Resumes.load (resumes : Resumes data consumed history s d) (io : Slice) :
    ∃ d', Goes (Decoder.step data) d d' ∧ d.reach ≤ d'.reach ∧
      Follows (io.stream data consumed) history (s.load io) d' := by
  obtain ⟨c, hold, total, place⟩ := resumes.pos
  have pos : (s.load io).input.At (io.stream data consumed) c := by
    refine ⟨?_, Nat.le_refl _, hold, ?_⟩
    · show io.next = (io.next.add io.avail).add _
      rw [Ptr.add_add]
      simp only [Inflater.load, Int.add_right_neg, Ptr.add_zero]
    · show c + s.input.bits + 8 * io.avail = 8 * (consumed + io.avail)
      omega
  have within : d.pos ≤ 8 * (consumed + io.avail) := by
    rcases place with ⟨-, -, le⟩ | rfl <;> omega
  have window : (s.load io).window.Holds history ∨ d.regs.beforeCheck = false ∧
      (s.load io).window = .start 15 ∧ (s.load io).out = [] :=
    resumes.window.imp_right fun behind => ⟨behind.1, behind.2, rfl⟩
  have out : d.out = history ++ (s.load io).out := by
    rw [resumes.out]
    exact (List.append_nil history).symm
  have regs := resumes.regs
  by_cases type : d.regs.block = none ∧ d.regs.mode = .type
  · -- `if (state->mode == TYPE) state->mode = TYPEDO;`
    have step : d.step data = .again { d with regs := d.regs.enter .typedo } := by
      simp only [Decoder.step, type.1, type.2]
    have next := resumes.sound.next step
    have before : d.regs.beforeCheck = true := by simp [Registers.beforeCheck, type.1, type.2]
    have few : s.input.bits < 8 := by
      rcases resumes.few with failed | less | ⟨d', step', more⟩
      · exact absurd failed (Decoder.fine step)
      · exact less
      · rw [step] at step'
        cases step'
        have more' : d.pos + s.input.bits < d.pos := more
        omega
    refine ⟨_, .one step, Nat.le_of_lt next.reach, ?_⟩
    constructor
    case regs => simp only [Inflater.load, regs, type, and_self, if_true]
    case sound => exact next.sound
    case sane => exact resumes.sane
    case wbits => exact resumes.wbits
    case window => exact window.imp_right fun behind => absurd behind.1 (by simp [before])
    case out => exact out
    case pending => trivial
    case within => exact within
    case pos =>
      exact ⟨c, pos, .inr (place.resolve_left fun failed => Decoder.fine step failed.1)⟩
    case few => exact .inr (.inl few)
  · refine ⟨d, .refl d, Nat.le_refl _, ?_⟩
    constructor
    case regs => simp only [Inflater.load, regs, type, if_false]
    case sound => exact resumes.sound
    case sane => exact resumes.sane
    case wbits => exact resumes.wbits
    case window => exact window
    case out => exact out
    case pending => exact resumes.pending
    case within => exact within
    case pos => exact ⟨c, pos, place⟩
    case few => exact resumes.few

theorem Window.Holds.updates {w : Window} (holds : w.Holds history) (c : Call)
    (there : ¬ (w.window = none ∧ c.alloc = none)) :
    ∃ w', c.run updatewindowU w = some (0, w') ∧ w'.Holds (history ++ c.piece.bytes) ∧
      w'.wbits = w.wbits := by
  obtain ⟨w', runs, holds'⟩ := holds.found c there (taken_fromEnd c.piece)
  refine ⟨w', runs, holds', ?_⟩
  have after := holds.updated fromEnd c
  rw [runs] at after
  cases after with
  | put _ _ _ wbits _ => exact wbits

theorem Registers.beforeBad_of (r : Registers) (before : r.beforeCheck = true) :
    r.beforeBad = true := by
  unfold Registers.beforeCheck at before
  unfold Registers.beforeBad
  split at before <;> simp_all

/-- How a call ends. -/
inductive Left (data consumed : Nat) (history : Bytes) (flush : Nat) (io : Slice) (ret : Int)
    (s : Inflater) (d : Decoder) : Option (Int × Inflater) → Prop where
  | resumes {s' : Inflater}
      (resumes : Resumes data (consumed + (io.avail - s.input.avail)) (history ++ s.out) s' d)
      (input : s'.input = s.input) (out : s'.out = s.out) :
      Left data consumed history flush io ret s d (some ((s.leave flush io ret).1, s'))
  | memory {s' : Inflater} (none : io.alloc = none) (block : s'.regs.block = some .mem)
      (input : s'.input = s.input) (out : s'.out = s.out)
      (pos : d.pos ≤ 8 * (consumed + (io.avail - s.input.avail))) :
      Left data consumed history flush io ret s d (some (zMemError, s'))

variable (flush) in
/-- `inf_leave` -/
theorem Follows.leaves (follows : Follows (io.stream data consumed) history s d) (ret : Int) :
    Left data consumed history flush io ret s d (infLeave libzU flush io ret s) := by
  obtain ⟨c, pos, place⟩ := follows.pos
  have total : c + s.input.bits + 8 * s.input.avail = 8 * (consumed + io.avail) := pos.total
  have avail : s.input.avail ≤ io.avail := pos.avail
  have behind : d.pos ≤ 8 * (consumed + (io.avail - s.input.avail)) := by
    rcases place with ⟨-, -, le⟩ | rfl <;> omega
  -- Whatever window the state gets, it resumes there.
  have resumes : ∀ (w : Window), w.wbits = 15 → (w.Holds (history ++ s.out) ∨
      d.regs.beforeCheck = false ∧ w = .start 15) →
      Resumes data (consumed + (io.avail - s.input.avail)) (history ++ s.out)
        (Inflater.leave flush io ret { s with window := w }).2 d := by
    intro w wbits holds
    constructor
    case regs => exact follows.regs
    case sound => exact follows.sound
    case sane => exact follows.sane
    case wbits => exact wbits
    case window => exact holds
    case out => exact follows.out
    case pending => exact follows.pending
    case pos => exact ⟨c, pos.hold, by show c + s.input.bits = _; omega, place⟩
    case few => exact follows.few
  simp only [infLeave]
  by_cases update : s.window.wsize ≠ 0 ∨
      s.out ≠ [] ∧ s.regs.beforeBad = true ∧ (s.regs.beforeCheck = true ∨ flush ≠ zFinish)
  · rw [if_pos update]
    have holds : s.window.Holds history := by
      rcases follows.window with holds | ⟨-, unused, none⟩
      · exact holds
      · rcases update with used | ⟨some, -⟩
        · rw [unused] at used
          exact absurd rfl used
        · exact absurd none some
    by_cases nothing : s.window.window = none ∧ io.alloc = none
    · have runs : (Call.mk (io.piece s.out) io.alloc).run (Window.update libzU.sources) s.window =
          some (1, s.window) := holds.unallocated _ nothing
      simp only [runs]
      exact .memory nothing.2 rfl rfl rfl behind
    · obtain ⟨w, runs, holds', wbits⟩ := holds.updates ⟨io.piece s.out, io.alloc⟩ nothing
      have runs' : (Call.mk (io.piece s.out) io.alloc).run (Window.update libzU.sources) s.window =
          some (0, w) := runs
      simp only [runs']
      exact .resumes (resumes w (wbits.trans follows.wbits) (.inl holds')) rfl rfl
  · rw [if_neg update]
    refine .resumes (resumes s.window follows.wbits ?_) rfl rfl
    obtain ⟨unused, rest⟩ := not_or.mp update
    rcases follows.window with holds | ⟨behind, unused, -⟩
    · by_cases none : s.out = []
      · rw [none, List.append_nil]
        exact .inl holds
      · -- What was put last is not needed any more.
        have behind : d.regs.beforeCheck = false := by
          rw [← follows.regs]
          by_contra before
          have before' : s.regs.beforeCheck = true := by simpa using before
          exact rest ⟨none, s.regs.beforeBad_of before', .inl before'⟩
        refine .inr ⟨behind, ?_⟩
        have wbits := follows.wbits
        generalize s.window = w at holds unused wbits
        cases holds with
        | @start n _ =>
          have same : n = 15 := wbits
          rw [same]
        | @of n r size _ =>
          have size' : r.cells.length = 0 := Classical.not_not.mp unused
          have some := Nat.two_pow_pos n
          omega
    · exact .inr ⟨behind, unused⟩

theorem Stops.imp {x : BitStream} {drained full full' : Prop} {ret : Int}
    (stops : Stops flush x drained full d ret) (imp : full → full') :
    Stops flush x drained full' d ret := by
  cases stops with
  | starved none goes step lacks => exact .starved none goes step lacks
  | full none puts => exact .full (imp none) puts
  | boundary is boundary => exact .boundary is boundary
  | ended block => exact .ended block
  | failed failed => exact .failed failed

/-- What a call does: it takes the decoder on, or there is no memory for the window. -/
inductive Calls (data consumed : Nat) (history : Bytes) (flush : Nat) (io : Slice) (d : Decoder) :
    Option (Int × Inflater) → Prop where
  | resumes {ret : Int} {s₁ s' : Inflater} {d' : Decoder} (goes : Goes (Decoder.step data) d d')
      (resumes : Resumes data (consumed + (io.avail - s'.input.avail)) (history ++ s'.out) s' d')
      (avail : s'.input.avail ≤ io.avail) (room : s'.out.length ≤ io.room.length)
      (stops : Stops flush (io.stream data consumed) (s'.input.avail = 0)
        (s'.out.length = io.room.length) d' ret)
      (input : s'.input = s₁.input) (out : s'.out = s₁.out) :
      Calls data consumed history flush io d (some ((s₁.leave flush io ret).1, s'))
  | memory {s' : Inflater} {d' : Decoder} (none : io.alloc = none)
      (goes : Goes (Decoder.step data) d d') (sound : d'.Sound) (put : d'.out = history ++ s'.out)
      (avail : s'.input.avail ≤ io.avail) (room : s'.out.length ≤ io.room.length)
      (block : s'.regs.block = some .mem)
      (pos : d'.pos ≤ 8 * (consumed + (io.avail - s'.input.avail))) :
      Calls data consumed history flush io d (some (zMemError, s'))

variable (flush) in
/-- A call with enough fuel returns. -/
theorem Resumes.calls (resumes : Resumes data consumed history s d)
    (carries : io.Carries data consumed)
    (fuelled : 8 * (s.input.bits + 8 * io.avail + io.room.length) + 8 ≤ fuel) :
    Calls data consumed history flush io d (inflate libzU fuel flush io s) := by
  obtain ⟨d₁, goes₁, reach₁, follows⟩ := resumes.load io
  have mem : ¬ (s.load io).regs.block = some .mem := by
    rw [follows.regs]
    exact follows.sound.mem
  have bytes : (io.stream data consumed).total % 8 = 0 := by
    show 8 * (consumed + io.avail) % 8 = 0
    omega
  -- The decoder goes on in each round, and it can only go as far as the input and the room do.
  have enough : 8 * ((io.stream data consumed).total + history.length +
      ((s.load io).out.length + (s.load io).left)) + 8 ≤ fuel + d₁.reach := by
    obtain ⟨c, -, total, place⟩ := resumes.pos
    have behind : 8 * consumed ≤ d.pos + s.input.bits := by
      rcases place with ⟨-, le, -⟩ | rfl <;> omega
    have least : 8 * (d.pos + history.length) ≤ d.reach := by
      rw [Decoder.reach, resumes.out]
      omega
    simp only [Slice.stream, Inflater.load, List.length_nil]
    omega
  obtain ⟨ret, s', d', ran, goes, follows', room, stops⟩ :=
    follows.runs flush fuel libzU carries.in bytes (fun _ same => same)
      (by simp only [Inflater.load, List.length_nil]; omega) enough
  have limit : s'.out.length + s'.left = io.room.length := by
    rw [room]
    exact Nat.zero_add _
  obtain ⟨c, pos, -⟩ := follows'.pos
  have left := follows'.leaves flush ret
  simp only [inflate, if_neg mem, ran, Option.bind_eq_bind, Option.bind_some]
  generalize infLeave libzU flush io ret s' = r at left
  cases left with
  | memory none block input out behind =>
    exact .memory none (goes₁.trans goes) follows'.sound (out ▸ follows'.out)
      (input ▸ pos.avail) (by rw [out]; omega) block (by rw [input]; exact behind)
  | resumes resumes' input out =>
    rw [← input, ← out] at resumes'
    refine .resumes (goes₁.trans goes) resumes' (input ▸ pos.avail) (by rw [out]; omega) ?_ input
      out
    rw [← input] at stops
    exact stops.imp fun full => by rw [out]; omega

variable (fuel flush) in
/-- Without memory for the window the state stays in `MEM`. -/
theorem inflate_mem (block : s.regs.block = some .mem) (io : Slice) :
    inflate libzU fuel flush io s = some (zMemError, s.load io) ∧
      (s.load io).regs.block = some .mem := by
  have same : (s.load io).regs.block = some .mem := by simp [Inflater.load, block]
  exact ⟨by simp only [inflate, if_pos same], same⟩

end

end CheriGzip.Inflate
