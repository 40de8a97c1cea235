import CheriGzip.Libz.DecoderSound
import CheriGzip.Libz.FastAgrees

/-!
# inflate follows the decoder

A state of `inflate` against the decoder that has read the same bits: the bit buffer and the input
are the bits from where the decoder is, and the window and the output are the end of what it has
put. Every round of `inflate` is some states of the decoder, or it stops for want of input or room.
-/
namespace CheriGzip.Inflate

open Loop

/-! ## Reading bits -/

/-- What reading `need` bits comes to: `a` and less than a byte more than that, if a byte was taken,
or the end of the input. -/
inductive Takes {α : Type} (x : BitStream) (c bits need : Nat) (a : α) : Pulled α → Prop where
  | got {i : Input} (pos : i.At x (c + need)) (few : i.bits < 8 ∨ i.bits + need = bits) :
      Takes x c bits need a (.got a i)
  | short {i : Input} (pos : i.At x c) (none : i.avail = 0) (lacks : i.bits < need) :
      Takes x c bits need a (.short i)

section

variable {mem : Memory} {x : BitStream} {i : Input} {c n : Nat} {α : Type}

theorem fetchCode_takes {root : Nat} {kind : CodeKind} {table : List Code} {link : Code → Bool}
    {e : Code} (there : x.In mem) (formed : WellFormed kind table root) (tests : kind.Tests link)
    (entryAt : EntryAt kind table root x.bits c e n) (pos : i.At x c) :
    Takes x c i.bits n (e, n) (fetchCode mem table root link i) := by
  have first : ∀ {e : Code}, table[bitField x.bits c root]? = some e →
      Pulls x c i.bits e.bits e
        (pullUntil mem (fun hold => table[lowBits hold root]?) Code.bits i) := by
    intro e entry
    have settles : Settles (fun hold => table[0 + lowBits hold (0 + root) >>> 0]?)
        (fun here => 0 + here.bits) x.bits c e :=
      formed.root_filled.settles (by rwa [Nat.zero_add, Nat.add_zero])
    simp only [Nat.zero_add] at settles
    exact pullUntil_pulls there settles pos
  unfold fetchCode
  cases entryAt with
  | root entry code =>
    have after := first entry
    generalize pullUntil mem (fun hold => table[lowBits hold root]?) Code.bits i = r at after ⊢
    cases after with
    | got pos enough few =>
      simp only [tests.code code]
      exact .got (pos.drop enough) (by simp only [Input.drop]; omega)
    | short pos none lacks => exact .short pos none lacks
  | @linked last e entry link entry' code =>
    have second : ∀ {i' : Input}, i'.At x c → Pulls x c i'.bits (last.bits + e.bits) e
        (pullUntil mem
          (fun hold => table[last.val + lowBits hold (last.bits + last.op) >>> last.bits]?)
          (fun here => last.bits + here.bits) i') := by
      intro i' pos'
      rcases formed.entry _ (bitField_lt x.bits c root) last entry with code' | ⟨_, _, _, filled, _⟩
      · have one := tests.link link
        rw [tests.code code'] at one
        cases one
      · exact pullUntil_pulls there (filled.settles entry') pos'
    have after := first entry
    generalize pullUntil mem (fun hold => table[lowBits hold root]?) Code.bits i = r at after ⊢
    cases after with
    | short pos none lacks => exact .short pos none (by omega)
    | @got i' pos enough few =>
      simp only [tests.link link]
      have after := second pos
      generalize pullUntil mem (fun hold =>
        table[last.val + lowBits hold (last.bits + last.op) >>> last.bits]?)
        (fun here => last.bits + here.bits) i' = r at after ⊢
      cases after with
      | got pos' enough' few' =>
        refine .got ?_ ?_
        · rw [← Nat.add_assoc]
          refine (pos'.drop (by omega)).drop ?_
          simp only [Input.drop]
          omega
        · simp only [Input.drop]
          omega
      | short pos' none lacks => exact .short pos' none lacks

end

/-! ## Bytes that were put -/

/-- The byte `dist` back, from the window or the output, is the one of all bytes. -/
theorem Window.Holds.past {w : Window} {history out : Bytes} (holds : w.Holds history) {dist : Nat}
    (reach : dist ≤ out.length + w.whave) :
    pastByte w dist out = (history ++ out)[(history ++ out).length - dist]? := by
  rw [pastByte, List.length_append]
  by_cases inside : dist ≤ out.length
  · rw [if_pos inside, List.getElem?_append_right (by omega)]
    congr 1
    omega
  · have whave := holds.right.whave
    have least : w.whave ≤ history.length := whave ▸ Nat.min_le_left _ _
    rw [if_neg inside, List.getElem?_append_left (by omega)]
    cases holds with
    | start none =>
      have reach : dist ≤ out.length + 0 := reach
      omega
    | @of wbits r size contents =>
      have reach' : dist ≤ out.length + r.count := reach
      have least' : r.count ≤ history.length := least
      have few := r.count_le
      have back := r.back_getElem? (by omega : 1 ≤ dist - out.length) (by omega)
      rw [contents, rtake_back (by omega) (by omega)] at back
      refine Eq.trans back ?_
      congr 1
      omega

/-! ## The relation -/

/-- What is under way is the same, as far as the mode goes by it. -/
def Registers.Agree (r : Registers) (p q : Pending) : Prop :=
  match r.block, r.mode with
  | some .copy_, _ => p.length = q.length
  | some .copy, _ => p.length = q.length
  | none, .lenext => p.length = q.length ∧ p.extra = q.extra
  | none, .dist => p.length = q.length
  | none, .distext => p = q
  | none, .matching => p.length = q.length ∧ p.offset = q.offset
  | none, .lit => p.length = q.length
  | _, _ => True

/-- `state->mode == BAD` -/
def Registers.Failed (r : Registers) : Prop := r.block = none ∧ r.mode = .bad

/-- Between blocks, or in front of what is in one. -/
def Registers.Boundary (r : Registers) : Prop :=
  r.block = none ∧ r.mode = .type ∨ r.block = some .len_ ∨ r.block = some .copy_

/-- The next state puts a byte, if it does not find that a match reaches too far. -/
def Decoder.Puts (d : Decoder) : Prop :=
  d.regs.block = none ∧ (d.regs.mode = .lit ∨ d.regs.mode = .matching) ∨
    d.regs.block = some .copy ∧ d.pending.length ≠ 0

/-- The state stands where the decoder does, when `history` was put before this call. More than
seven bits are held only when the next state needs still more. -/
structure Follows (x : BitStream) (history : Bytes) (s : Inflater) (d : Decoder) : Prop where
  regs : s.regs = d.regs
  sound : d.Sound
  sane : s.sane = true
  wbits : s.window.wbits = 15
  window : s.window.Holds history ∨
    d.regs.beforeCheck = false ∧ s.window = .start 15 ∧ s.out = []
  out : d.out = history ++ s.out
  pending : d.regs.Agree s.pending d.pending
  within : d.pos ≤ x.total
  pos : ∃ c, s.input.At x c ∧
    (d.regs.Failed ∧ c ≤ d.pos ∧ d.pos ≤ c + s.input.bits ∨ c = d.pos)
  few : d.regs.Failed ∨ s.input.bits < 8 ∨
    ∃ d', d.step x.bits = .again d' ∧ d.pos + s.input.bits < d'.pos

/-- Why a call returns: the input is `drained` and the decoder needs more of it, the room is `full`
and it needs more of that, or `flush` asks for it, or the data is at its end or wrong. -/
inductive Stops (flush : Nat) (x : BitStream) (drained full : Prop) (d : Decoder) : Int → Prop where
  | starved {d₁ d' : Decoder} (none : drained) (goes : Goes (Decoder.step x.bits) d d₁)
      (step : d₁.step x.bits = .again d') (lacks : x.total < d'.pos) :
      Stops flush x drained full d zOk
  | full (none : full) (puts : d.Puts) : Stops flush x drained full d zOk
  | boundary (is : flush = zBlock ∨ flush = zTrees) (boundary : d.regs.Boundary) :
      Stops flush x drained full d zOk
  | ended (block : d.regs.block = some .done) : Stops flush x drained full d zStreamEnd
  | failed (failed : d.regs.Failed) : Stops flush x drained full d zDataError

/-- A round of `inflate`, with room for `limit` bytes in this call: some states of the decoder, or a
place to stop. -/
inductive Rounds (flush : Nat) (x : BitStream) (history : Bytes) (limit : Nat) (d : Decoder) :
    IRound → Prop where
  | again {s' : Inflater} {d' : Decoder} (goes : Goes (Decoder.step x.bits) d d')
      (reach : d.reach < d'.reach) (follows : Follows x history s' d')
      (room : s'.out.length + s'.left = limit) : Rounds flush x history limit d (.again s')
  | leave {ret : Int} {s' : Inflater} {d' : Decoder} (goes : Goes (Decoder.step x.bits) d d')
      (follows : Follows x history s' d') (room : s'.out.length + s'.left = limit)
      (stops : Stops flush x (s'.input.avail = 0) (s'.left = 0) d' ret) :
      Rounds flush x history limit d (.leave (some (ret, s')))

section

variable {flush limit : Nat} {x : BitStream} {mem : Memory} {history : Bytes} {s s' : Inflater}
  {d d' : Decoder}

/-- With `flush` for that, the call returns at a boundary. -/
theorem Rounds.flushed (rounds : Rounds flush x history limit d (.again s'))
    (is : flush = zBlock ∨ flush = zTrees) (boundary : s'.regs.Boundary) :
    Rounds flush x history limit d (.leave (some (zOk, s'))) := by
  cases rounds with
  | again goes reach follows room =>
    exact .leave goes follows room (.boundary is (follows.regs ▸ boundary))

theorem Decoder.Sound.next (sound : d.Sound) {x : Nat} (step : d.step x = .again d') :
    d.Next d' := by
  have stepped := d.step_spec sound x
  rw [step] at stepped
  cases stepped with
  | again next => exact next

/-- A decoder that goes on has not failed. -/
theorem Decoder.fine {x : Nat} (step : d.step x = .again d') : ¬ d.regs.Failed := by
  rintro ⟨block, mode⟩
  rw [Decoder.step, block, mode] at step
  cases step

/-- Before the end of the data the window holds what was put. -/
theorem Follows.holds (follows : Follows x history s d) (before : d.regs.beforeCheck = true) :
    s.window.Holds history :=
  follows.window.resolve_right (by simp [before])

theorem Follows.at (follows : Follows x history s d) (step : d.step x.bits = .again d') :
    s.input.At x d.pos := by
  obtain ⟨c, pos, ⟨failed, -⟩ | rfl⟩ := follows.pos
  · exact absurd failed (Decoder.fine step)
  · exact pos

/-- Behind what a state has read less than a byte is held. -/
theorem Follows.held (follows : Follows x history s d) (step : d.step x.bits = .again d')
    (need : Nat) {bits : Nat} (pos : d'.pos ≤ d.pos + need)
    (few : bits < 8 ∨ bits + need = s.input.bits) : bits < 8 := by
  rcases few with few | all
  · exact few
  rcases follows.few with failed | less | ⟨d'', step', more⟩
  · exact absurd failed (Decoder.fine step)
  · omega
  · rw [step] at step'
    cases step'
    omega

/-- A state that puts nothing: `s'` is where the decoder goes. -/
structure Inflater.Moves (s s' : Inflater) : Prop where
  window : s'.window = s.window
  sane : s'.sane = s.sane
  out : s'.out = s.out
  left : s'.left = s.left

theorem Follows.moves (follows : Follows x history s d) (step : d.step x.bits = .again d')
    (moves : s.Moves s') (regs : s'.regs = d'.regs) (out : d'.out = d.out)
    (pending : d'.regs.Agree s'.pending d'.pending)
    (before : d.regs.beforeCheck = true ∨ d'.regs.beforeCheck = false)
    (within : d'.pos ≤ x.total) (pos : ∃ c, s'.input.At x c ∧
      (d'.regs.Failed ∧ c ≤ d'.pos ∧ d'.pos ≤ c + s'.input.bits ∨ c = d'.pos))
    (few : d'.regs.Failed ∨ s'.input.bits < 8) : Follows x history s' d' where
  regs := regs
  sound := (follows.sound.next step).sound
  sane := moves.sane.trans follows.sane
  wbits := moves.window ▸ follows.wbits
  window := by
    rcases follows.window with holds | ⟨behind, unused, none⟩
    · exact .inl (moves.window ▸ holds)
    · have behind' := before.resolve_left (by simp [behind])
      exact .inr ⟨behind', moves.window.trans unused, moves.out.trans none⟩
  out := by rw [out, moves.out, follows.out]
  pending := pending
  within := within
  pos := pos
  few := few.imp_right .inl

/-- A state that reads no bits. -/
theorem Follows.enters (follows : Follows x history s d) {r : Registers}
    (step : d.step x.bits = .again { d with regs := r }) (pending : r.Agree s.pending d.pending)
    (before : d.regs.beforeCheck = true ∨ r.beforeCheck = false) :
    Rounds flush x history (s.out.length + s.left) d (.again { s with regs := r }) := by
  have pos := follows.at step
  have few := follows.held step 0 (Nat.le_refl _) (.inr rfl)
  refine .again (.one step) (follows.sound.next step).reach ?_ rfl
  exact follows.moves step ⟨rfl, rfl, rfl, rfl⟩ rfl rfl pending before follows.within
    ⟨_, pos, .inr rfl⟩ (.inr few)

/-- `NEEDBITS(n)`, with the bits in the buffer. -/
theorem needBits_takes (there : x.In mem) {i : Input} {c : Nat} (pos : i.At x c) (n : Nat) :
    (∃ i', needBits mem n i = .got (bitField x.bits c n) i' ∧ i'.At x c ∧ n ≤ i'.bits ∧
      (i'.drop n).At x (c + n) ∧ ((i'.drop n).bits < 8 ∨ (i'.drop n).bits + n = i.bits)) ∨
    ∃ i', needBits mem n i = .short i' ∧ i'.At x c ∧ i'.avail = 0 ∧ i'.bits < n := by
  have pulls := needBits_pulls there pos n
  generalize needBits mem n i = r at pulls
  cases pulls with
  | got pos enough few =>
    refine .inl ⟨_, rfl, pos, enough, pos.drop enough, ?_⟩
    simp only [Input.drop]
    omega
  | short pos none lacks => exact .inr ⟨_, rfl, pos, none, lacks⟩

/-- A state that stops for want of input, with bits that are not enough. -/
theorem Follows.starves (follows : Follows x history s d) (step : d.step x.bits = .again d')
    (moves : s.Moves s') (regs : s'.regs = s.regs) (pending : s'.pending = s.pending)
    (pos : s'.input.At x d.pos) (none : s'.input.avail = 0)
    (lacks : d.pos + s'.input.bits < d'.pos) :
    Rounds flush x history (s.out.length + s.left) d (.leave (some (zOk, s'))) := by
  have total := pos.total
  refine .leave (.refl d) ?_ (by rw [moves.out, moves.left])
    (.starved none (.refl d) step (by omega))
  exact {
    regs := regs.trans follows.regs
    sound := follows.sound
    sane := moves.sane.trans follows.sane
    wbits := moves.window ▸ follows.wbits
    window := follows.window.imp (fun holds => moves.window ▸ holds) fun ⟨behind, unused, none⟩ =>
      ⟨behind, moves.window.trans unused, moves.out.trans none⟩
    out := moves.out ▸ follows.out
    pending := pending ▸ follows.pending
    within := follows.within
    pos := ⟨_, pos, .inr rfl⟩
    few := .inr (.inr ⟨d', step, lacks⟩) }

/-- A state that makes registers of the next `n` bits. -/
theorem Follows.reads (there : x.In mem) (follows : Follows x history s d) {n : Nat}
    {make : Nat → Option Registers} {r : Registers}
    (makes : make (bitField x.bits d.pos n) = some r)
    (step : d.step x.bits = .again { d with regs := r, pos := d.pos + n })
    (pending : r.Agree s.pending d.pending)
    (before : d.regs.beforeCheck = true ∨ r.beforeCheck = false) :
    Rounds flush x history (s.out.length + s.left) d (s.read mem n make) := by
  rcases needBits_takes there (follows.at step) n with
    ⟨i, got, -, -, pos, few⟩ | ⟨i, short, pos, none, lacks⟩
  · simp only [Inflater.read, got, makes]
    have total := pos.total
    refine .again (.one step) (follows.sound.next step).reach ?_ rfl
    exact follows.moves step ⟨rfl, rfl, rfl, rfl⟩ rfl rfl pending before (by simp only; omega)
      ⟨_, pos, .inr rfl⟩ (.inr (follows.held step _ (Nat.le_refl _) few))
  · simp only [Inflater.read, short]
    exact follows.starves step ⟨rfl, rfl, rfl, rfl⟩ rfl rfl pos none (Nat.add_lt_add_left lacks _)

/-! ## The states of blocks -/

theorem and_seven (n : Nat) : n &&& 7 = n % 8 :=
  Nat.and_two_pow_sub_one_eq_mod n 3

/-- `BYTEBITS()`: less than a byte is held, so what is left begins a byte. -/
theorem Follows.aligns (bytes : x.total % 8 = 0) (follows : Follows x history s d)
    (step : d.step x.bits = .again d') (place : d'.pos = align d.pos) :
    s.input.byteBits.At x (align d.pos) ∧ s.input.byteBits.bits = 0 ∧ align d.pos ≤ x.total := by
  have pos := follows.at step
  have total := pos.total
  have aligned : align d.pos = (d.pos + 7) / 8 * 8 := rfl
  have few : s.input.bits < 8 := by
    rcases follows.few with failed | less | ⟨d'', step', more⟩
    · exact absurd failed (Decoder.fine step)
    · exact less
    · rw [step] at step'
      cases step'
      omega
  have low : s.input.bits &&& 7 = s.input.bits := (and_seven _).trans (Nat.mod_eq_of_lt few)
  have all : d.pos + s.input.bits = align d.pos := by omega
  rw [Input.byteBits, low, ← all]
  exact ⟨pos.drop (Nat.le_refl _), Nat.sub_self _, by omega⟩

theorem Registers.blockType_agree (r : Registers) (bits : Nat) (p q : Pending) :
    (r.blockType bits).Agree p q := by
  simp only [Registers.blockType]
  split
  · trivial
  split
  · trivial
  split <;> trivial

theorem Follows.typedo (there : x.In mem) (bytes : x.total % 8 = 0)
    (follows : Follows x history s d) (block : d.regs.block = some .typedo) :
    Rounds flush x history (s.out.length + s.left) d (s.typedo flush mem) := by
  have before : d.regs.beforeCheck = true := by simp [Registers.beforeCheck, block]
  have step : d.step x.bits = d.typedo x.bits := by simp only [Decoder.step, block]
  simp only [Inflater.typedo, follows.regs]
  by_cases last : d.regs.last = true
  · rw [Decoder.typedo, if_pos last] at step
    rw [if_pos last]
    obtain ⟨pos, none, within⟩ := follows.aligns bytes step rfl
    refine .again (.one step) (follows.sound.next step).reach ?_ rfl
    exact follows.moves step ⟨rfl, rfl, rfl, rfl⟩ rfl rfl trivial (.inl before) within
      ⟨_, pos, .inr rfl⟩ (.inr (by rw [none]; decide))
  · rw [Decoder.typedo, if_neg last] at step
    rw [if_neg last]
    have rounds : Rounds flush x history (s.out.length + s.left) d
        (s.read mem 3 fun bits => some (s.regs.blockType bits)) :=
      follows.reads there (by rw [follows.regs]) step (Registers.blockType_agree _ _ _ _)
        (.inl before)
    revert rounds
    rw [follows.regs]
    generalize s.read mem 3 (fun bits => some (d.regs.blockType bits)) = r
    intro rounds
    cases r with
    | leave => exact rounds
    | again s' =>
      simp only
      by_cases flushes : s'.regs.block = some .len_ ∧ flush = zTrees
      · rw [if_pos flushes]
        exact rounds.flushed (.inr flushes.2) (.inr (.inl flushes.1))
      · rw [if_neg flushes]
        exact rounds

theorem Rounds.after {r : IRound} {d₁ : Decoder} (goes : Goes (Decoder.step x.bits) d d₁)
    (reach : d.reach ≤ d₁.reach) (rounds : Rounds flush x history limit d₁ r) :
    Rounds flush x history limit d r := by
  cases rounds with
  | again goes' reach' follows room =>
    exact .again (goes.trans goes') (Nat.lt_of_le_of_lt reach reach') follows room
  | leave goes' follows room stops => exact .leave (goes.trans goes') follows room stops

theorem Input.drop_zero (i : Input) : i.drop 0 = i := rfl

/-- `case STORED` where a byte begins. -/
theorem Follows.stored_aligned (there : x.In mem) (bytes : x.total % 8 = 0)
    (follows : Follows x history s d) (block : d.regs.block = some .stored)
    (aligned : d.pos % 8 = 0) :
    Rounds flush x history (s.out.length + s.left) d (s.stored flush mem) := by
  have step : d.step x.bits = .again { d with
      regs := d.regs.storedLength (bitField x.bits d.pos 32)
      pending := { d.pending with length := bitField x.bits d.pos 32 &&& 0xffff }
      pos := d.pos + 32 } := by
    simp only [Decoder.step, block, Decoder.stored, aligned, ne_eq, not_true_eq_false, if_false]
  have pos := follows.at step
  have total := pos.total
  have next := follows.sound.next step
  have before : d.regs.beforeCheck = true := by simp [Registers.beforeCheck, block]
  have same : s.input.byteBits = s.input := by
    have whole : s.input.bits % 8 = 0 := by omega
    rw [Input.byteBits, and_seven, whole, Input.drop_zero]
  have pulls := needBits_pulls there pos 32
  simp only [Inflater.stored, same]
  generalize needBits mem 32 s.input = r at pulls
  cases pulls with
  | short pos none lacks =>
    exact follows.starves step ⟨rfl, rfl, rfl, rfl⟩ rfl rfl pos none (Nat.add_lt_add_left lacks _)
  | @got i pos' enough few =>
    have total' := pos'.total
    -- Whole bytes were taken, and no more than were needed.
    have all : i.bits = 32 := by
      rcases follows.few with failed | less | ⟨d', step', more⟩
      · exact absurd failed (Decoder.fine step)
      · omega
      · rw [step] at step'
        cases step'
        have more' : d.pos + s.input.bits < d.pos + 32 := more
        omega
    have hold : i.hold = bitField x.bits d.pos 32 := by rw [pos'.hold, all]
    have within : d.pos + 32 ≤ x.total := by omega
    simp only [hold, follows.regs]
    by_cases copies : (d.regs.storedLength (bitField x.bits d.pos 32)).block = some .copy_
    · rw [if_pos copies]
      have rounds : Rounds flush x history (s.out.length + s.left) d (.again { s with
          regs := d.regs.storedLength (bitField x.bits d.pos 32)
          pending := { s.pending with length := bitField x.bits d.pos 32 &&& 0xffff }
          input := { i with hold := 0, bits := 0 } }) := by
        refine .again (.one step) next.reach ?_ rfl
        refine follows.moves step ⟨rfl, rfl, rfl, rfl⟩ rfl rfl ?_ (.inl before) within
          ⟨d.pos + 32, ⟨pos'.next, pos'.avail, (bitField_zero _ _).symm, ?_⟩, .inr rfl⟩
          (.inr (by simp only; decide))
        · simp only [Registers.Agree, copies]
        · simp only
          omega
      by_cases flushes : flush = zTrees
      · simp only [if_pos flushes]
        exact rounds.flushed (.inr flushes) (.inr (.inr copies))
      · simp only [if_neg flushes]
        exact rounds
    · rw [if_neg copies]
      have failed : (d.regs.storedLength (bitField x.bits d.pos 32)).Failed := by
        revert copies
        simp only [Registers.storedLength]
        split
        · exact fun _ => ⟨rfl, rfl⟩
        · exact fun copies => absurd rfl copies
      refine .again (.one step) next.reach ?_ rfl
      refine follows.moves step ⟨rfl, rfl, rfl, rfl⟩ rfl rfl ?_ (.inl before) within
        ⟨_, pos', .inl ⟨failed, by simp only; omega, by simp only; omega⟩⟩ (.inl failed)
      simp only [Registers.Agree, failed.1, failed.2]

theorem Follows.stored (there : x.In mem) (bytes : x.total % 8 = 0)
    (follows : Follows x history s d) (block : d.regs.block = some .stored) :
    Rounds flush x history (s.out.length + s.left) d (s.stored flush mem) := by
  by_cases aligned : d.pos % 8 = 0
  · exact follows.stored_aligned there bytes block aligned
  · have step : d.step x.bits = .again { d with pos := align d.pos } := by
      simp only [Decoder.step, block, Decoder.stored, ne_eq, aligned, not_false_eq_true, if_true]
    have before : d.regs.beforeCheck = true := by simp [Registers.beforeCheck, block]
    obtain ⟨pos, none, within⟩ := follows.aligns bytes step rfl
    have follows' : Follows x history { s with input := s.input.byteBits }
        { d with pos := align d.pos } := by
      refine follows.moves step ⟨rfl, rfl, rfl, rfl⟩ follows.regs rfl ?_ (.inl before) within
        ⟨_, pos, .inr rfl⟩ (.inr (by rw [none]; decide))
      simp only [Registers.Agree, block]
    have again : Inflater.stored flush mem { s with input := s.input.byteBits } =
        s.stored flush mem := by
      have twice : s.input.byteBits.byteBits = s.input.byteBits := by
        rw [Input.byteBits, none]
        rfl
      simp only [Inflater.stored, twice]
    have rounds : Rounds flush x history (s.out.length + s.left) { d with pos := align d.pos }
        (Inflater.stored flush mem { s with input := s.input.byteBits }) :=
      follows'.stored_aligned there bytes block (Nat.mul_mod_left _ 8)
    rw [again] at rounds
    exact .after (.one step) (Nat.le_of_lt (follows.sound.next step).reach) rounds

/-- `n` bytes from bit `c` on. -/
def bytesAt (x : Nat) : (n c : Nat) → Bytes
  | 0, _ => []
  | n + 1, c => UInt8.ofNat (bitField x c 8) :: bytesAt x n (c + 8)

theorem bytesAt_length (x n c : Nat) : (bytesAt x n c).length = n := by
  induction n generalizing c with
  | zero => rfl
  | succ n ih => rw [bytesAt, List.length_cons, ih]

/-- The bytes behind an empty bit buffer. -/
theorem loadBytes_at (there : x.In mem) {n : Nat} {i : Input} {c : Nat} (pos : i.At x c)
    (none : i.bits = 0) (enough : n ≤ i.avail) :
    loadBytes mem n i.next = some (bytesAt x.bits n c) ∧
      Input.At { i with next := i.next.add n, avail := i.avail - n } x (c + 8 * n) := by
  induction n generalizing i c with
  | zero =>
    have same : i.next.add ((0 : Nat) : Int) = i.next := Ptr.add_zero i.next
    rw [same]
    exact ⟨rfl, pos⟩
  | succ n ih =>
    obtain ⟨next, avail, hold, total⟩ := id pos
    obtain ⟨b, read, value⟩ := there (i.avail - 1) (by omega)
    have last : (-((i.avail - 1 + 1 : Nat)) : Int) = -i.avail := by omega
    have place : x.total - 8 * (i.avail - 1 + 1) = c := by omega
    rw [last, ← next] at read
    rw [place] at value
    have pos' : Input.At { i with next := i.next.add 1, avail := i.avail - 1 } x (c + 8) := by
      refine ⟨?_, by simp only; omega, by simp only [none, bitField_zero, hold], by
        simp only
        omega⟩
      simp only
      rw [next, Ptr.add_add]
      congr 1
      omega
    obtain ⟨loads, at'⟩ := ih pos' none (by simp only; omega)
    have byte : b = UInt8.ofNat (bitField x.bits c 8) := by rw [← value, UInt8.ofNat_toNat]
    constructor
    · simp only [loadBytes, read, loads, Option.bind_eq_bind, Option.bind_some, bytesAt, byte]
    · have further : (i.next.add 1).add n = i.next.add ((n + 1 : Nat) : Int) := by
        rw [Ptr.add_add]
        congr 1
        omega
      have left : i.avail - 1 - n = i.avail - (n + 1) := by omega
      have bit : c + 8 + 8 * n = c + 8 * (n + 1) := by omega
      rw [further, left, bit] at at'
      exact at'

/-- The decoder copies `n` bytes. -/
theorem Decoder.copies {n : Nat} (block : d.regs.block = some .copy)
    (some : n ≤ d.pending.length) : Goes (Decoder.step x.bits) d { d with
      pending := { d.pending with length := d.pending.length - n }
      pos := d.pos + 8 * n
      out := d.out ++ bytesAt x.bits n d.pos } := by
  induction n generalizing d with
  | zero =>
    simp only [Nat.sub_zero, Nat.mul_zero, Nat.add_zero, bytesAt, List.append_nil]
    exact .refl d
  | succ n ih =>
    have more : d.pending.length ≠ 0 := by omega
    have step : d.step x.bits = .again { d with
        pending := { d.pending with length := d.pending.length - 1 }
        pos := d.pos + 8
        out := d.out ++ [UInt8.ofNat (bitField x.bits d.pos 8)] } := by
      simp only [Decoder.step, block, Decoder.copy, if_pos more]
    have rest := ih (d := { d with
        pending := { d.pending with length := d.pending.length - 1 }
        pos := d.pos + 8
        out := d.out ++ [UInt8.ofNat (bitField x.bits d.pos 8)] }) block (by simp only; omega)
    have left : d.pending.length - 1 - n = d.pending.length - (n + 1) := by omega
    have bit : d.pos + 8 + 8 * n = d.pos + 8 * (n + 1) := by omega
    simp only [left, bit, List.append_assoc, List.singleton_append] at rest
    exact .head step rest

/-- What the decoder comes to. -/
theorem Decoder.Sound.goes {x : Nat} (goes : Goes (Decoder.step x) d d') (sound : d.Sound) :
    d'.Sound ∧ d.pos ≤ d'.pos ∧ d.out <+: d'.out ∧ d.reach ≤ d'.reach := by
  induction goes with
  | refl => exact ⟨sound, Nat.le_refl _, List.prefix_refl _, Nat.le_refl _⟩
  | head turn _ ih =>
    have next := sound.next turn
    obtain ⟨sound', pos, out, reach⟩ := ih next.sound
    exact ⟨sound', Nat.le_trans next.pos pos, next.out.trans out,
      Nat.le_trans (Nat.le_of_lt next.reach) reach⟩

/-- `case COPY` -/
theorem Follows.copy (there : x.In mem) (bytes : x.total % 8 = 0)
    (follows : Follows x history s d) (block : d.regs.block = some .copy) :
    Rounds flush x history (s.out.length + s.left) d (s.copy mem) := by
  have before : d.regs.beforeCheck = true := by simp [Registers.beforeCheck, block]
  have same : s.pending.length = d.pending.length := by
    have agree := follows.pending
    simpa only [Registers.Agree, block] using agree
  have aligned : d.pos % 8 = 0 := by
    have pends := follows.sound.pends
    simpa only [Decoder.Pends, block] using pends
  simp only [Inflater.copy, same]
  by_cases more : d.pending.length ≠ 0
  · rw [if_pos more]
    have step : d.step x.bits = .again { d with
        pending := { d.pending with length := d.pending.length - 1 }
        pos := d.pos + 8
        out := d.out ++ [UInt8.ofNat (bitField x.bits d.pos 8)] } := by
      simp only [Decoder.step, block, Decoder.copy, if_pos more]
    have pos := follows.at step
    have total := pos.total
    -- The position is at a byte, so fewer than eight bits are none.
    have none : s.input.bits = 0 := by
      rcases follows.few with failed | less | ⟨d', step', further⟩
      · exact absurd failed (Decoder.fine step)
      · omega
      · rw [step] at step'
        cases step'
        have further' : d.pos + s.input.bits < d.pos + 8 := further
        omega
    by_cases nothing : min (min d.pending.length s.input.avail) s.left = 0
    · rw [if_pos nothing]
      rcases Nat.eq_zero_or_pos s.left with full | room
      · exact .leave (.refl d) follows rfl (.full full (.inr ⟨block, more⟩))
      · refine .leave (.refl d) follows rfl (.starved (by omega) (.refl d) step ?_)
        show x.total < d.pos + 8
        omega
    · -- `zmemcpy` takes many bytes at once, the decoder one in each step.
      rw [if_neg nothing]
      generalize n_eq : min (min d.pending.length s.input.avail) s.left = n at nothing
      obtain ⟨loads, pos'⟩ := loadBytes_at there pos none (by omega : n ≤ s.input.avail)
      have goes := Decoder.copies (x := x) block (by omega : n ≤ d.pending.length)
      obtain ⟨sound, -, -, -⟩ := follows.sound.goes goes
      have total' := pos'.total
      have length := bytesAt_length x.bits n d.pos
      simp only [loads]
      refine .again goes ?_ ⟨follows.regs, sound, follows.sane, follows.wbits,
        .inl (follows.holds before), ?_, ?_, ?_, ⟨_, pos', .inr rfl⟩, .inr (.inl ?_)⟩ ?_
      · simp only [Decoder.reach, List.length_append, length]
        omega
      · rw [follows.out, List.append_assoc]
      · simp only [Registers.Agree, block]
      · simp only
        omega
      · simp only [none]
        decide
      · simp only [List.length_append, length]
        omega
  · have step : d.step x.bits = .again { d with regs := d.regs.symbol .type } := by
      simp only [Decoder.step, block, Decoder.copy, if_neg more]
    rw [if_neg more, follows.regs]
    exact follows.enters step trivial (.inl before)

/-- The entry for a length of a code. -/
theorem codelens_pulls (there : x.In mem) {lens : List Nat} {table : List Code} {root : Nat}
    (finds : Finds .codes lens table root) {e : Code} {c : Nat}
    (entry : table[bitField x.bits c root]? = some e) {i : Input} (pos : i.At x c) :
    Pulls x c i.bits e.bits e
      (pullUntil mem (fun hold => table[lowBits hold root]?) Code.bits i) := by
  have settles : Settles (fun hold => table[0 + lowBits hold (0 + root) >>> 0]?)
      (fun here => 0 + here.bits) x.bits c e :=
    finds.formed.root_filled.settles (by rwa [Nat.zero_add, Nat.add_zero])
  simp only [Nat.zero_add] at settles
  exact pullUntil_pulls there settles pos

/-- `case CODELENS` -/
theorem Follows.codelens (there : x.In mem) (follows : Follows x history s d)
    (block : d.regs.block = some .codelens) :
    Rounds flush x history (s.out.length + s.left) d (s.codelens flush mem) := by
  have before : d.regs.beforeCheck = true := by simp [Registers.beforeCheck, block]
  have phase := follows.sound.phase
  simp only [Registers.Phase, block] at phase
  obtain ⟨counts, few, within, lens, finds⟩ := phase
  simp only [Inflater.codelens, follows.regs]
  by_cases more : d.regs.got < d.regs.nlen + d.regs.ndist
  · rw [if_pos more]
    obtain ⟨e, n, entryAt, -⟩ := finds.formed.entryAt x.bits d.pos
    cases entryAt with
    | linked _ link => exact absurd link not_false
    | root entry =>
      obtain ⟨r, puts, sized', phase', reaches⟩ := Registers.putLength_spec follows.sound.sized
        counts more within finds block e.val (bitField x.bits (d.pos + e.bits) (repeatBits e.val))
      have step : d.step x.bits = .again { d with
          regs := r, pos := d.pos + e.bits + repeatBits e.val } := by
        simp only [Decoder.step, block, Decoder.codelens, if_pos more, entry, puts]
      have next := follows.sound.next step
      have pos := follows.at step
      have agree : r.Agree s.pending d.pending := by
        cases reaches with
        | bad is mode => simp only [Registers.Agree, is, mode]
        | next is => simp only [Registers.Agree, is]
      -- The code is looked up first, and then the bits behind it are asked for with it.
      have first := codelens_pulls there finds entry pos
      generalize pullUntil mem (fun hold => d.regs.lencode[lowBits hold d.regs.lenbits]?) Code.bits
        s.input = pulled at first
      cases first with
      | short pos none lacks =>
        exact follows.starves step ⟨rfl, rfl, rfl, rfl⟩ follows.regs.symm rfl pos none
          (by simp only; omega)
      | @got i pos₁ enough few₁ =>
        have second := needBits_pulls there pos₁ (e.bits + repeatBits e.val)
        simp only
        generalize needBits mem (e.bits + repeatBits e.val) i = pulled at second
        cases second with
        | short pos none lacks =>
          exact follows.starves step ⟨rfl, rfl, rfl, rfl⟩ follows.regs.symm rfl pos none
            (by simp only; omega)
        | @got i pos₂ enough₂ few₂ =>
          have code := pos₂.drop (by omega : e.bits ≤ i.bits)
          have held : repeatBits e.val ≤ (i.drop e.bits).bits := by
            simp only [Input.drop]
            omega
          have behind := code.drop held
          have total := behind.total
          have left : (((i.drop e.bits).drop (repeatBits e.val)).bits < 8 ∨
              ((i.drop e.bits).drop (repeatBits e.val)).bits + (e.bits + repeatBits e.val) =
                s.input.bits) := by
            simp only [Input.drop]
            omega
          have few' := follows.held step (e.bits + repeatBits e.val)
            (by simp only; omega) left
          simp only [code.low held, puts]
          by_cases nothing : e.val = 16 ∧ d.regs.got = 0
          · have failed : r.Failed := by
              have isBad : d.regs.putLength e.val
                  (bitField x.bits (d.pos + e.bits) (repeatBits e.val)) =
                  some (d.regs.bad "invalid bit length repeat") := by
                simp only [Registers.putLength, nothing]
                rfl
              rw [puts] at isBad
              cases isBad
              exact ⟨rfl, rfl⟩
            rw [if_pos nothing]
            refine .again (.one step) next.reach ?_ rfl
            exact follows.moves step ⟨rfl, rfl, rfl, rfl⟩ rfl rfl agree (.inl before)
              (by simp only; omega)
              ⟨_, code, .inl ⟨failed, by simp only; omega, by simp only; omega⟩⟩ (.inl failed)
          · rw [if_neg nothing]
            refine .again (.one step) next.reach ?_ rfl
            exact follows.moves step ⟨rfl, rfl, rfl, rfl⟩ rfl rfl agree (.inl before)
              (by simp only; omega) ⟨_, behind, .inr rfl⟩ (.inr few')
  · obtain ⟨r, builds, -, -, reaches⟩ := Registers.buildTables_spec follows.sound.sized counts
      (by rwa [Nat.le_antisymm few (Nat.le_of_not_lt more)] at within)
    have step : d.step x.bits = .again { d with regs := r } := by
      simp only [Decoder.step, block, Decoder.codelens, if_neg more, Decoder.goes, builds]
    have agree : r.Agree s.pending d.pending := by
      cases reaches with
      | bad is mode => simp only [Registers.Agree, is, mode]
      | next is => simp only [Registers.Agree, is]
    have rounds : Rounds flush x history (s.out.length + s.left) d (.again { s with regs := r }) :=
      follows.enters step agree (.inl before)
    simp only [if_neg more, Inflater.goes, builds]
    by_cases flushes : r.block = some .len_ ∧ flush = zTrees
    · rw [if_pos flushes]
      exact rounds.flushed (.inr flushes.2) (.inr (.inl flushes.1))
    · rw [if_neg flushes]
      exact rounds

/-- `case LENLENS` -/
theorem Follows.lenlens (there : x.In mem) (follows : Follows x history s d)
    (block : d.regs.block = some .lenlens) :
    Rounds flush x history (s.out.length + s.left) d
      (if s.regs.got < s.regs.ncode then s.read mem 3 s.regs.putOrder
        else s.goes s.regs.buildCodes) := by
  have before : d.regs.beforeCheck = true := by simp [Registers.beforeCheck, block]
  have phase := follows.sound.phase
  simp only [Registers.Phase, block] at phase
  obtain ⟨counts, few, placed⟩ := phase
  have ncode := counts.ncode
  rw [follows.regs]
  by_cases more : d.regs.got < d.regs.ncode
  · obtain ⟨place, -, puts⟩ := Registers.putOrder_spec (by omega : d.regs.got < 19)
      (by rw [follows.sound.sized.lens]; decide) (bitField x.bits d.pos 3)
    rw [if_pos more]
    refine follows.reads there puts ?_ ?_ (.inl before)
    · simp only [Decoder.step, block, if_pos more, Decoder.read, puts]
    · simp only [Registers.Agree, block]
  · obtain ⟨r, builds, -, -, reaches⟩ :=
      Registers.buildCodes_spec follows.sound.sized counts (by omega) placed
    simp only [if_neg more, Inflater.goes, builds]
    refine follows.enters ?_ ?_ (.inl before)
    · simp only [Decoder.step, block, if_neg more, Decoder.goes, builds]
    · cases reaches with
      | bad is mode => simp only [Registers.Agree, is, mode]
      | next is => simp only [Registers.Agree, is]

/-- `case TABLE` -/
theorem Follows.table (there : x.In mem) (follows : Follows x history s d)
    (block : d.regs.block = some .table) :
    Rounds flush x history (s.out.length + s.left) d
      (s.read mem 14 fun bits => some (s.regs.tableSizes bits)) := by
  have before : d.regs.beforeCheck = true := by simp [Registers.beforeCheck, block]
  rw [follows.regs]
  refine follows.reads there rfl ?_ ?_ (.inl before)
  · simp only [Decoder.step, block, Decoder.read]
  · simp only [Registers.tableSizes]
    split <;> trivial

end

end CheriGzip.Inflate
