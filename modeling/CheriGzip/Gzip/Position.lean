import CheriGzip.Gzip.Grammar

/-!
# Positions in the gzip grammar

The automaton of `gz_uncompress` at any point stands for a position in the grammar and the
bytes still to come, wherever the buffers cut them. Each round either moves that position
forward, or takes in more bytes, and never changes what the rest of the input has to be. Here
are the positions, the refill, and the states of the header.
-/
namespace CheriGzip.Gzip

open Loop

/-- A position in the grammar. In `read` the stream has taken `taken` and produced
`produced`, of which `pending` is still in the output buffer. -/
inductive View where
  | magic0
  | magic1
  | method
  | flags
  | skipping (flags : UInt8) (skip : Nat)
  | extra (flags : UInt8)
  | extra2 (flags : UInt8) (skip : Nat)
  | extra3 (flags : UInt8) (skip : Nat)
  | origname (flags : UInt8)
  | comment (flags : UInt8)
  | headCrc1 (flags : UInt8)
  | headCrc2 (skip : Nat)
  | init
  | read (taken produced pending : Bytes)
  | crc (payload : Bytes)
  | len (payload : Bytes)

/-- The automaton's state at a position. -/
def View.state : View → GzState
  | .magic0 => .magic0
  | .magic1 => .magic1
  | .method => .method
  | .flags => .flags
  | .skipping .. => .skipping
  | .extra _ => .extra
  | .extra2 .. => .extra2
  | .extra3 .. => .extra3
  | .origname _ => .origname
  | .comment _ => .comment
  | .headCrc1 _ => .headCrc1
  | .headCrc2 _ => .headCrc2
  | .init => .init
  | .read .. => .read
  | .crc _ => .crc
  | .len _ => .len

/-- The scanner for the rest of the header. -/
def View.scan : View → Bytes → Option Bytes
  | .magic1 => scanMagic1
  | .method => scanMethod
  | .flags => scanFlags
  | .skipping bits skip => scanSkipping bits skip
  | .extra bits => scanExtra bits
  | .extra2 bits skip => scanExtra2 bits skip
  | .extra3 bits skip => scanExtra3 bits skip
  | .origname bits => scanOrigname bits
  | .comment bits => scanComment bits
  | .headCrc1 bits => scanHeadCrc bits
  | .headCrc2 skip => skipBytes skip
  | _ => some

variable {σ : Type} {F : Format}

/-- What the rest of the input has to be at a position: `v` is what is still to be written,
and `g` the garbage at the end. -/
def Tail (F : Format) (view : View) (rest v g : Bytes) : Prop :=
  match view with
  | .magic0 => Chain F rest v g
  | .read taken produced pending => ∃ z t more vs, F.Ends (taken ++ z) ∧
      rest = z ++ (trailer (F.payload (taken ++ z)) ++ t) ∧
      F.payload (taken ++ z) = produced ++ more ∧ v = pending ++ (more ++ vs) ∧ Chain F t vs g
  | .crc payload => ∃ t, rest = trailer payload ++ t ∧ Chain F t v g
  | .len payload => ∃ t, rest = le 4 payload.length ++ t ∧ Chain F t v g
  | view => ∃ body, view.scan rest = some body ∧ Body F body v g

/-- The counters of a member whose payload so far is `payload`. -/
def Counted (s : UState σ) (payload : Bytes) : Prop :=
  s.crc = crc32 crc32Null payload ∧ s.outSubTot = UInt32.ofNat payload.length

/-- The automaton's variables at a position. -/
def Regs {cfg : UConfig σ} (C : Inflates F cfg.engine) (view : View) (s : UState σ) : Prop :=
  s.state = view.state ∧
  match view with
  | .magic0 => s.outbuf = []
  | .magic1 | .method | .flags | .init => s.outbuf = [] ∧ Counted s []
  | .skipping flags skip | .extra2 flags skip | .extra3 flags skip =>
    s.outbuf = [] ∧ Counted s [] ∧ s.flags = flags ∧ s.skipCount = skip
  | .extra flags | .origname flags | .comment flags | .headCrc1 flags =>
    s.outbuf = [] ∧ Counted s [] ∧ s.flags = flags
  | .headCrc2 skip => s.outbuf = [] ∧ Counted s [] ∧ s.skipCount = skip
  | .read taken produced pending =>
    s.outbuf = pending ∧ pending.length < cfg.buflen.size ∧ C.Live s.strm taken produced ∧
      ∃ written, produced = written ++ pending ∧ Counted s written
  | .crc payload | .len payload =>
    s.outbuf = [] ∧ Counted s payload ∧ s.error = .streamEnd

/-- What stands behind the loop's variables: the position, the bytes still to come, what was
written, and the length of the whole input. -/
structure Ghost where
  view : View
  rest : Bytes
  output : Bytes
  outTot : Int
  total : Int

/-- The variables stand for the ghost state, wherever the buffer is cut. -/
structure Inv {cfg : UConfig σ} (C : Inflates F cfg.engine) (i : Ghost) (s : UState σ) : Prop where
  regs : Regs C i.view s
  rest : i.rest = s.nextIn ++ s.world.input
  done : s.doneReading = true → s.world.input = [] ∧ s.nextIn.length < 4
  more : s.needmore = true → s.nextIn.length < 4
  total : s.inTot + s.world.input.length = i.total
  held : (s.nextIn.length : Int) ≤ s.inTot
  output : s.world.output = i.output
  outTot : s.outTot = i.outTot

/-- What is written for a payload: nothing with `-t`. -/
def UConfig.emitted (cfg : UConfig σ) (v : Bytes) : Bytes := if cfg.tflag then [] else v

/-- How the loop has to end from a ghost state: it counts and writes what the grammar says,
and fails when the rest of the input does not fit the grammar. -/
def Post (F : Format) (cfg : UConfig σ) (i : Ghost) (r : UState σ) : Prop :=
  (∀ v g, Tail F i.view i.rest v g →
    r.outTot = i.outTot + v.length ∧ r.world.output = i.output ++ cfg.emitted v ∧
      r.inTot + r.world.input.length = i.total ∧ r.world.input <:+ g) ∧
  ((∀ v g, ¬ Tail F i.view i.rest v g) → r.outTot = -1)

/-- What a round uses up: bytes of the rest, states of the member, output of the stream. -/
def Ghost.measure (F : Format) (i : Ghost) : Nat × Nat × Nat :=
  (i.rest.length, 15 - i.view.state.toNat,
    match i.view with
    | .read taken produced _ => (F.payload taken).length - produced.length
    | _ => 0)

/-- `j` comes after `i`. -/
def After (F : Format) (j i : Ghost) : Prop :=
  Prod.Lex (· < ·) (Prod.Lex (· < ·) (· < ·)) (j.measure F) (i.measure F)

/-- The positions between the first byte of a member and its stream. -/
def View.InHeader : View → Prop
  | .magic0 | .read .. | .crc _ | .len _ => False
  | _ => True

/-- A round's step from one position and the bytes to come to the next, with what it writes. -/
inductive Advance {cfg : UConfig σ} (C : Inflates F cfg.engine) (rest rest' : Bytes) :
    View → View → Bytes → Prop where
  | magic (cut : rest = gzipMagic0 :: rest') : Advance C rest rest' .magic0 .magic1 []
  | header {view view' : View} (header : view.InHeader) (header' : view'.InHeader)
      (scan : view.scan rest = view'.scan rest') : Advance C rest rest' view view' []
  | init (same : rest' = rest) : Advance C rest rest' .init (.read [] [] []) []
  | inflated {strm : σ} {taken produced pending c out : Bytes} (cut : rest = c ++ rest')
      (live : C.Live strm (taken ++ c) (produced ++ out)) :
      Advance C rest rest' (.read taken produced pending)
        (.read (taken ++ c) (produced ++ out) (pending ++ out)) []
  | drained {strm : σ} {taken produced pending c out : Bytes} (cut : rest = c ++ rest')
      (live : C.Live strm (taken ++ c) (produced ++ out)) :
      Advance C rest rest' (.read taken produced pending)
        (.read (taken ++ c) (produced ++ out) []) (pending ++ out)
  | ended {taken produced pending c out : Bytes} (cut : rest = c ++ rest')
      (ends : F.Ends (taken ++ c)) (payload : F.payload (taken ++ c) = produced ++ out) :
      Advance C rest rest' (.read taken produced pending) (.crc (produced ++ out))
        (pending ++ out)
  | crc {payload : Bytes} (cut : rest = le 4 (crc32 crc32Null payload).toNat ++ rest') :
      Advance C rest rest' (.crc payload) (.len payload) []
  | len {payload : Bytes} (cut : rest = le 4 payload.length ++ rest') :
      Advance C rest rest' (.len payload) .magic0 []

/-- The bytes to come do not fit a position. -/
inductive Unfit (F : Format) (rest : Bytes) : View → Prop where
  | header {view : View} (header : view.InHeader) (scan : view.scan rest = none) :
      Unfit F rest view
  | read {taken produced pending : Bytes}
      (endless : ∀ z t, rest = z ++ t → ¬ F.Ends (taken ++ z)) :
      Unfit F rest (.read taken produced pending)
  | crc {payload : Bytes}
      (other : ¬ le 4 (crc32 crc32Null payload).toNat <+: rest) : Unfit F rest (.crc payload)
  | len {payload : Bytes} (other : ¬ le 4 payload.length <+: rest) : Unfit F rest (.len payload)
  | eof {view : View} (inside : view ≠ .magic0) (nil : rest = []) : Unfit F rest view

/-- The loop is left between members, with nothing more counted or written. -/
structure Stops (i : Ghost) (r : UState σ) : Prop where
  here : i.view = .magic0
  garbage : Garbage i.rest
  outTot : r.outTot = i.outTot
  output : r.world.output = i.output
  total : r.inTot + r.world.input.length = i.total
  suffix : r.world.input <:+ i.rest

/-- The loop is left: between members, or because the bytes to come do not fit. -/
def Left (F : Format) (i : Ghost) (r : UState σ) : Prop :=
  r.state = i.view.state ∧ (Stops i r ∨ (Unfit F i.rest i.view ∧ r.outTot = -1))

/-- The ghost state at another position, with `w` written. -/
def Ghost.to (cfg : UConfig σ) (i : Ghost) (view : View) (rest w : Bytes) : Ghost :=
  ⟨view, rest, i.output ++ cfg.emitted w, i.outTot + w.length, i.total⟩

/-- All that a round can do: it takes a step, it waits for more of a trailer field, or it ends
the loop. -/
def Steps {cfg : UConfig σ} (C : Inflates F cfg.engine) (i : Ghost) (s : UState σ) :
    URound σ → Prop
  | .again s' =>
      (∃ view rest w, Advance C i.rest rest i.view view w ∧ After F (i.to cfg view rest w) i ∧
        Inv C (i.to cfg view rest w) s') ∨
      (Inv C i s' ∧ s'.nextIn = s.nextIn ∧ s'.needmore = true ∧ s.doneReading = false)
  | .leave r => Left F i r

section

variable {cfg : UConfig σ} {C : Inflates F cfg.engine} {i : Ghost} {s : UState σ}

/-! ## The refill -/

/-- What the refill at the head of a round does: it keeps the ghost state, it leaves no
input only at the end, and it has taken something in unless it was not needed. -/
structure Refilled (C : Inflates F cfg.engine) (i : Ghost) (s s' : UState σ) : Prop where
  inv : Inv C i s'
  empty : s'.nextIn = [] → s'.doneReading = true
  grown : s'.doneReading = false →
    s.nextIn.length < s'.nextIn.length ∨ s'.nextIn = s.nextIn ∧ s.needmore = false
  ready : s'.doneReading = false → s'.needmore = false

theorem refill_inv (reliable : cfg.env.Reliable cfg.buflen) (large : 4 ≤ cfg.buflen.size)
    (inv : Inv C i s) : ∃ s', refill cfg s = .ok s' ∧ Refilled C i s s' := by
  unfold refill
  split
  next wanted =>
    obtain ⟨want, reading⟩ := wanted
    obtain ⟨got, answer, most, live⟩ :=
      s.world.read_some reliable (cfg.buflen.size - s.nextIn.length)
    -- A refill is asked for by an empty buffer or a field cut in its four bytes.
    have short : s.nextIn.length < 4 := by
      rcases want with nil | more
      · simp [nil]
      · exact inv.more more
    have room : 0 < cfg.buflen.size - s.nextIn.length := by omega
    rw [answer]
    refine ⟨_, rfl, ?_⟩
    have split : s.world.input = s.world.input.take got ++ s.world.input.drop got :=
      (List.take_append_drop got _).symm
    have lengths := congrArg List.length split
    rw [List.length_append] at lengths
    have total := inv.total
    have held := inv.held
    -- A read that gives nothing has room for more, so it is the end of the input.
    have atEnd : (s.world.input.take got).isEmpty = true → s.world.input = [] := by
      intro none
      apply Classical.byContradiction
      intro left
      exact live left room (List.isEmpty_iff.mp none)
    constructor
    · exact {
        regs := inv.regs
        rest := by rw [inv.rest, List.append_assoc, List.take_append_drop]
        done := fun none => by
          have nothing : s.world.input = [] := atEnd none
          simp [nothing, short]
        more := by simp
        total := by simp only; omega
        held := by simp only [List.length_append]; omega
        output := inv.output
        outTot := inv.outTot }
    · intro nil
      simpa using (List.append_eq_nil_iff.mp nil).2
    · intro reading'
      left
      simp only [List.length_append]
      have some : 0 < (s.world.input.take got).length := by
        apply List.length_pos_iff.mpr
        intro none
        simp [none] at reading'
      omega
    · intro _
      rfl
  -- Nothing is read: the buffer has bytes and the state does not want more of them.
  next satisfied =>
    refine ⟨s, rfl, inv, ?_, ?_, ?_⟩
    · intro nil
      simpa [nil] using satisfied
    · intro reading
      simp only [reading, and_true, not_or] at satisfied
      exact .inr ⟨rfl, by simpa using satisfied.2⟩
    · intro reading
      simp only [reading, and_true, not_or] at satisfied
      simpa using satisfied.2

/-! ## Moving on -/

/-- What the states that neither read nor write leave alone; `rest` is what they leave of
the buffer. -/
structure Keeps (s : UState σ) (rest : Bytes) (s' : UState σ) : Prop where
  nextIn : s'.nextIn = rest
  world : s'.world = s.world
  outTot : s'.outTot = s.outTot
  inTot : s'.inTot = s.inTot
  doneReading : s'.doneReading = s.doneReading
  needmore : s'.needmore = s.needmore

/-- Taking bytes of the rest is progress, whatever the position. -/
theorem After.of_rest {i j : Ghost} (fewer : j.rest.length < i.rest.length) : After F j i :=
  .left _ _ fewer

/-- So is a later state of the member. -/
theorem After.of_state {i j : Ghost} (rest : j.rest.length ≤ i.rest.length)
    (later : 15 - j.view.state.toNat < 15 - i.view.state.toNat) : After F j i := by
  -- The measure is lexicographic, so fewer bytes decide first.
  rcases Nat.lt_or_eq_of_le rest with fewer | same
  · exact .of_rest fewer
  · unfold After Ghost.measure
    rw [same]
    exact .right _ (.left _ _ later)

@[simp] theorem emitted_nil : cfg.emitted [] = [] := by simp [UConfig.emitted]

/-- A round that consumes `taken` and steps to another position without writing. -/
theorem steps_on (inv : Inv C i s) (taken : Bytes) {left : Bytes}
    (cut : s.nextIn = taken ++ left) {s' : UState σ} (keeps : Keeps s left s') (view : View)
    (regs : Regs C view s')
    (smaller : taken ≠ [] ∨ 15 - view.state.toNat < 15 - i.view.state.toNat)
    (advance : Advance C i.rest (left ++ s.world.input) i.view view []) :
    Steps C i s (.again s') := by
  obtain ⟨nextIn, world, outTot, inTot, doneReading, needmore⟩ := keeps
  have lengths := congrArg List.length cut
  rw [List.length_append] at lengths
  have rest : i.rest.length = taken.length + (left ++ s.world.input).length := by
    rw [inv.rest, cut, List.append_assoc, List.length_append]
  refine .inl ⟨view, left ++ s.world.input, [], advance, ?_, ?_⟩
  -- Either a byte is gone, or the state has moved on over the same bytes.
  · rcases smaller with some | later
    · apply After.of_rest
      have pos := List.length_pos_iff.mpr some
      simp only [Ghost.to]
      omega
    · apply After.of_state _ later
      simp only [Ghost.to]
      omega
  · exact {
      regs := regs
      rest := by simp only [Ghost.to, world, nextIn]
      -- The end of the input stays the end, with less in the buffer.
      done := fun done => by
        rw [world, nextIn]
        obtain ⟨empty, short⟩ := inv.done (doneReading ▸ done)
        exact ⟨empty, by omega⟩
      more := fun more => by
        have short := inv.more (needmore ▸ more)
        rw [nextIn]
        omega
      total := by rw [inTot, world]; exact inv.total
      held := by
        have held := inv.held
        rw [inTot, nextIn]
        omega
      output := by simpa [Ghost.to, world] using inv.output
      outTot := by simpa [Ghost.to, outTot] using inv.outTot }

/-- `stop_and_fail`, when the rest of the input does not fit. -/
theorem steps_fail (message : String) (unfit : Unfit F i.rest i.view) {s' : UState σ}
    (state : s'.state = i.view.state) : Steps C i s (.leave (s'.fail message)) :=
  ⟨state, .inr ⟨unfit, rfl⟩⟩

/-- The rest of the input, when the buffer starts with `b`. -/
theorem Inv.rest_cons (inv : Inv C i s) {b : UInt8} {bs : Bytes} (nextIn : s.nextIn = b :: bs) :
    i.rest = b :: (bs ++ s.world.input) := by
  rw [inv.rest, nextIn, List.cons_append]

/-! ## The header -/

/-- A header state that takes the byte at hand. -/
theorem header_advance (inv : Inv C i s) (header : i.view.InHeader) {b : UInt8} {bs : Bytes}
    (nextIn : s.nextIn = b :: bs) (view : View) (header' : view.InHeader) {s' : UState σ}
    (keeps : Keeps s bs s') (regs : Regs C view s')
    (scan : i.view.scan (b :: (bs ++ s.world.input)) = view.scan (bs ++ s.world.input)) :
    Steps C i s (.again s') := by
  apply steps_on inv [b] nextIn keeps view regs
  · simp
  · exact .header header header' (by rw [inv.rest_cons nextIn, scan])

/-- A header state that only changes the state. -/
theorem header_stay (inv : Inv C i s) (header : i.view.InHeader) (view : View)
    (header' : view.InHeader) {s' : UState σ} (keeps : Keeps s s.nextIn s')
    (regs : Regs C view s') (later : 15 - view.state.toNat < 15 - i.view.state.toNat)
    (scan : ∀ bs, i.view.scan bs = view.scan bs) : Steps C i s (.again s') := by
  apply steps_on inv [] rfl keeps view regs
  · exact .inr later
  · exact .header header header' (by rw [inv.rest, scan])

theorem header_fail (message : String) (header : i.view.InHeader)
    (scan : i.view.scan i.rest = none) {s' : UState σ} (state : s'.state = i.view.state) :
    Steps C i s (.leave (s'.fail message)) :=
  steps_fail message (.header header scan) state

variable {b : UInt8} {bs output : Bytes} {outTot total : Int}

theorem dispatch_magic1
    (inv : Inv C ⟨.magic1, b :: (bs ++ s.world.input), output, outTot, total⟩ s)
    (nextIn : s.nextIn = b :: bs) :
    Steps C ⟨.magic1, b :: (bs ++ s.world.input), output, outTot, total⟩ s
      (dispatch cfg s b bs) := by
  have header : View.InHeader .magic1 := trivial
  obtain ⟨state, regs⟩ := inv.regs
  unfold dispatch
  simp only [state, View.state]
  split
  -- No header goes on with another byte.
  next other =>
    apply header_fail _ header _ state
    simp [View.scan, scanMagic1, other]
  next isMagic =>
    rw [← not_or, Classical.not_not] at isMagic
    apply header_advance inv header nextIn .method trivial (by constructor <;> rfl)
    · exact ⟨rfl, regs⟩
    · simp [View.scan, scanMagic1, isMagic]

theorem dispatch_method
    (inv : Inv C ⟨.method, b :: (bs ++ s.world.input), output, outTot, total⟩ s)
    (nextIn : s.nextIn = b :: bs) :
    Steps C ⟨.method, b :: (bs ++ s.world.input), output, outTot, total⟩ s
      (dispatch cfg s b bs) := by
  have header : View.InHeader .method := trivial
  obtain ⟨state, regs⟩ := inv.regs
  unfold dispatch
  simp only [state, View.state]
  split
  next other =>
    apply header_fail _ header _ state
    simp [View.scan, scanMethod, other]
  next isDeflated =>
    rw [Classical.not_not] at isDeflated
    apply header_advance inv header nextIn .flags trivial (by constructor <;> rfl)
    · exact ⟨rfl, regs⟩
    · simp [View.scan, scanMethod, isDeflated]

/-- The flags are kept, and six bytes are to be skipped behind them. -/
theorem dispatch_flags
    (inv : Inv C ⟨.flags, b :: (bs ++ s.world.input), output, outTot, total⟩ s)
    (nextIn : s.nextIn = b :: bs) :
    Steps C ⟨.flags, b :: (bs ++ s.world.input), output, outTot, total⟩ s
      (dispatch cfg s b bs) := by
  have header : View.InHeader .flags := trivial
  obtain ⟨state, empty, counted⟩ := inv.regs
  unfold dispatch
  simp only [state, View.state]
  apply header_advance inv header nextIn (.skipping b 6) trivial (by constructor <;> rfl)
  · exact ⟨rfl, empty, counted, rfl, rfl⟩
  · rfl

/-- A state that counts takes a byte while its count lasts, and then leaves the byte at hand. -/
theorem dispatch_skipping {flags : UInt8} {skip : Nat}
    (inv : Inv C ⟨.skipping flags skip, b :: (bs ++ s.world.input), output, outTot, total⟩ s)
    (nextIn : s.nextIn = b :: bs) :
    Steps C ⟨.skipping flags skip, b :: (bs ++ s.world.input), output, outTot, total⟩ s
      (dispatch cfg s b bs) := by
  have header : View.InHeader (.skipping flags skip) := trivial
  obtain ⟨state, empty, counted, flagged, skips⟩ := inv.regs
  unfold dispatch
  simp only [state, View.state, skips]
  cases skip with
  | zero =>
    rw [if_neg (Nat.lt_irrefl 0)]
    apply header_stay inv header (.extra flags) trivial (by constructor <;> rfl)
    · exact ⟨rfl, empty, counted, flagged⟩
    · simp [View.state, GzState.toNat]
    · simp [View.scan, scanSkipping]
  | succ skip =>
    rw [if_pos skip.succ_pos]
    apply header_advance inv header nextIn (.skipping flags skip) trivial
      (by constructor <;> rfl)
    · exact ⟨rfl, empty, counted, flagged, rfl⟩
    · simp [View.scan, scanSkipping]

/-- An optional field that is not there leaves the byte at hand to the next state. -/
theorem dispatch_extra {flags : UInt8}
    (inv : Inv C ⟨.extra flags, b :: (bs ++ s.world.input), output, outTot, total⟩ s)
    (nextIn : s.nextIn = b :: bs) :
    Steps C ⟨.extra flags, b :: (bs ++ s.world.input), output, outTot, total⟩ s
      (dispatch cfg s b bs) := by
  have header : View.InHeader (.extra flags) := trivial
  obtain ⟨state, empty, counted, flagged⟩ := inv.regs
  unfold dispatch
  simp only [state, View.state, flagged]
  split
  next unset =>
    apply header_stay inv header (.origname flags) trivial (by constructor <;> rfl)
    · exact ⟨rfl, empty, counted, rfl⟩
    · simp [View.state, GzState.toNat]
    · simp [View.scan, scanExtra, unset]
  -- The low byte of the length, which the next state completes.
  next set =>
    apply header_advance inv header nextIn (.extra2 flags b.toNat) trivial
      (by constructor <;> rfl)
    · exact ⟨rfl, empty, counted, rfl, rfl⟩
    · simp [View.scan, scanExtra, set]

theorem dispatch_extra2 {flags : UInt8} {skip : Nat}
    (inv : Inv C ⟨.extra2 flags skip, b :: (bs ++ s.world.input), output, outTot, total⟩ s)
    (nextIn : s.nextIn = b :: bs) :
    Steps C ⟨.extra2 flags skip, b :: (bs ++ s.world.input), output, outTot, total⟩ s
      (dispatch cfg s b bs) := by
  have header : View.InHeader (.extra2 flags skip) := trivial
  obtain ⟨state, empty, counted, flagged, skips⟩ := inv.regs
  unfold dispatch
  simp only [state, View.state, skips]
  apply header_advance inv header nextIn (.extra3 flags (skip ||| b.toNat <<< 8)) trivial
    (by constructor <;> rfl)
  · exact ⟨rfl, empty, counted, flagged, rfl⟩
  · simp [View.scan, scanExtra2]

theorem dispatch_extra3 {flags : UInt8} {skip : Nat}
    (inv : Inv C ⟨.extra3 flags skip, b :: (bs ++ s.world.input), output, outTot, total⟩ s)
    (nextIn : s.nextIn = b :: bs) :
    Steps C ⟨.extra3 flags skip, b :: (bs ++ s.world.input), output, outTot, total⟩ s
      (dispatch cfg s b bs) := by
  have header : View.InHeader (.extra3 flags skip) := trivial
  obtain ⟨state, empty, counted, flagged, skips⟩ := inv.regs
  unfold dispatch
  simp only [state, View.state, skips]
  cases skip with
  | zero =>
    rw [if_neg (Nat.lt_irrefl 0)]
    apply header_stay inv header (.origname flags) trivial (by constructor <;> rfl)
    · exact ⟨rfl, empty, counted, flagged⟩
    · simp [View.state, GzState.toNat]
    · simp [View.scan, scanExtra3]
  | succ skip =>
    rw [if_pos skip.succ_pos]
    apply header_advance inv header nextIn (.extra3 flags skip) trivial
      (by constructor <;> rfl)
    · exact ⟨rfl, empty, counted, flagged, rfl⟩
    · simp [View.scan, scanExtra3]

theorem dispatch_origname {flags : UInt8}
    (inv : Inv C ⟨.origname flags, b :: (bs ++ s.world.input), output, outTot, total⟩ s)
    (nextIn : s.nextIn = b :: bs) :
    Steps C ⟨.origname flags, b :: (bs ++ s.world.input), output, outTot, total⟩ s
      (dispatch cfg s b bs) := by
  have header : View.InHeader (.origname flags) := trivial
  obtain ⟨state, empty, counted, flagged⟩ := inv.regs
  unfold dispatch
  simp only [state, View.state, flagged]
  split
  -- No name: the byte belongs to what follows.
  next unset =>
    apply header_stay inv header (.comment flags) trivial (by constructor <;> rfl)
    · exact ⟨rfl, empty, counted, rfl⟩
    · simp [View.state, GzState.toNat]
    · simp [View.scan, scanOrigname, unset]
  next set =>
    -- The NUL ends the name and is taken with it.
    by_cases nul : b = 0
    · rw [if_pos nul]
      apply header_advance inv header nextIn (.comment flags) trivial
        (by constructor <;> rfl)
      · exact ⟨rfl, empty, counted, rfl⟩
      · simp [View.scan, scanOrigname, set, skipString, nul]
    · rw [if_neg nul]
      apply header_advance inv header nextIn (.origname flags) trivial
        (by constructor <;> rfl)
      · exact ⟨rfl, empty, counted, rfl⟩
      · simp [View.scan, scanOrigname, set, skipString, nul]

theorem dispatch_comment {flags : UInt8}
    (inv : Inv C ⟨.comment flags, b :: (bs ++ s.world.input), output, outTot, total⟩ s)
    (nextIn : s.nextIn = b :: bs) :
    Steps C ⟨.comment flags, b :: (bs ++ s.world.input), output, outTot, total⟩ s
      (dispatch cfg s b bs) := by
  have header : View.InHeader (.comment flags) := trivial
  obtain ⟨state, empty, counted, flagged⟩ := inv.regs
  unfold dispatch
  simp only [state, View.state, flagged]
  split
  next unset =>
    apply header_stay inv header (.headCrc1 flags) trivial (by constructor <;> rfl)
    · exact ⟨rfl, empty, counted, rfl⟩
    · simp [View.state, GzState.toNat]
    · simp [View.scan, scanComment, unset]
  next set =>
    -- As with the name.
    by_cases nul : b = 0
    · rw [if_pos nul]
      apply header_advance inv header nextIn (.headCrc1 flags) trivial
        (by constructor <;> rfl)
      · exact ⟨rfl, empty, counted, rfl⟩
      · simp [View.scan, scanComment, set, skipString, nul]
    · rw [if_neg nul]
      apply header_advance inv header nextIn (.comment flags) trivial
        (by constructor <;> rfl)
      · exact ⟨rfl, empty, counted, rfl⟩
      · simp [View.scan, scanComment, set, skipString, nul]

/-- This state takes no byte: it only says how many the next one takes. -/
theorem dispatch_headCrc1 {flags : UInt8}
    (inv : Inv C ⟨.headCrc1 flags, b :: (bs ++ s.world.input), output, outTot, total⟩ s) :
    Steps C ⟨.headCrc1 flags, b :: (bs ++ s.world.input), output, outTot, total⟩ s
      (dispatch cfg s b bs) := by
  have header : View.InHeader (.headCrc1 flags) := trivial
  obtain ⟨state, empty, counted, flagged⟩ := inv.regs
  unfold dispatch
  simp only [state, View.state, flagged]
  apply header_stay inv header (.headCrc2 (headCrcLength flags)) trivial
    (by constructor <;> rfl)
  · exact ⟨rfl, empty, counted, rfl⟩
  · simp [View.state, GzState.toNat]
  · intro bs
    rfl

theorem dispatch_headCrc2 {skip : Nat}
    (inv : Inv C ⟨.headCrc2 skip, b :: (bs ++ s.world.input), output, outTot, total⟩ s)
    (nextIn : s.nextIn = b :: bs) :
    Steps C ⟨.headCrc2 skip, b :: (bs ++ s.world.input), output, outTot, total⟩ s
      (dispatch cfg s b bs) := by
  have header : View.InHeader (.headCrc2 skip) := trivial
  obtain ⟨state, empty, counted, skips⟩ := inv.regs
  unfold dispatch
  simp only [state, View.state, skips]
  cases skip with
  -- The header is behind it, and the stream begins with the byte at hand.
  | zero =>
    rw [if_neg (Nat.lt_irrefl 0)]
    apply header_stay inv header .init trivial (by constructor <;> rfl)
    · exact ⟨rfl, empty, counted⟩
    · simp [View.state, GzState.toNat]
    · simp [View.scan]
  | succ skip =>
    rw [if_pos skip.succ_pos]
    apply header_advance inv header nextIn (.headCrc2 skip) trivial
      (by constructor <;> rfl)
    · exact ⟨rfl, empty, counted, rfl⟩
    · simp [View.scan]

/-- A header state goes on in the header, or fails where no header goes on so. -/
theorem dispatch_header (inv : Inv C i s) (nextIn : s.nextIn = b :: bs)
    (header : i.view.InHeader) (before : i.view ≠ .init) :
    Steps C i s (dispatch cfg s b bs) := by
  have rest := inv.rest_cons nextIn
  obtain ⟨view, _, output, outTot, total⟩ := i
  subst rest
  cases view with
  | magic0 | read | crc | len => exact header.elim
  -- `inflateInit2` can fail, so it is not one of these.
  | init => exact absurd rfl before
  | magic1 => exact dispatch_magic1 inv nextIn
  | method => exact dispatch_method inv nextIn
  | flags => exact dispatch_flags inv nextIn
  | skipping flags skip => exact dispatch_skipping inv nextIn
  | extra flags => exact dispatch_extra inv nextIn
  | extra2 flags skip => exact dispatch_extra2 inv nextIn
  | extra3 flags skip => exact dispatch_extra3 inv nextIn
  | origname flags => exact dispatch_origname inv nextIn
  | comment flags => exact dispatch_comment inv nextIn
  | headCrc1 flags => exact dispatch_headCrc1 inv
  | headCrc2 skip => exact dispatch_headCrc2 inv nextIn

end

end CheriGzip.Gzip
