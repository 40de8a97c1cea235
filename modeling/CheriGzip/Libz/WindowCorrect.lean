import CheriGzip.Libz.Window

/-!
# The window holds the last bytes

A call of `updatewindow` puts the bytes that it reads into a ring, whatever they are. So the window
is right after every call if and only if every call reads its piece.
-/
namespace CheriGzip.Inflate

/-! ## What is to hold -/

/-- The bytes of the window, the oldest first: it is at `wnext` when the window is full. -/
def Window.ring (s : Window) : Bytes :=
  match s.window with
  | none => []
  | some window =>
    if s.whave = s.wsize then window.drop s.wnext ++ window.take s.wnext else window.take s.whave

/-- The window holds the end of everything that was put into it. -/
structure Window.Right (s : Window) (history : Bytes) : Prop where
  whave : s.whave = min history.length (2 ^ s.wbits)
  ring : s.ring = history.rtake s.whave
  dictionary : inflateGetDictionary s = (history.rtake s.whave, s.whave)

/-- The window is right after every call. A call without memory for the window returns 1 and
contributes nothing. -/
def RightAlong
    (update : Option (Nat → UInt8) → Window → Region → Int → Nat → Option (Int × Window)) :
    Window → Bytes → List Call → Prop
  | _, _, [] => True
  | s, history, c :: cs => ∃ ret s', c.run update s = some (ret, s') ∧
      let history' := if ret = 0 then history ++ c.piece.bytes else history
      s'.Right history' ∧ RightAlong update s' history' cs

/-! ## The window as a ring -/

/-- The window that holds a ring. -/
def Window.of (wbits : Nat) (r : Ring UInt8) : Window :=
  ⟨wbits, r.cells.length, r.count, r.next, some r.cells⟩

section

variable {r : Ring UInt8}

theorem Window.of_sized {wbits n : Nat} (size : r.cells.length = n) :
    Window.of wbits r = ⟨wbits, n, r.count, r.next, some r.cells⟩ :=
  size ▸ rfl

theorem Window.of_ring (wbits : Nat) (r : Ring UInt8) : (Window.of wbits r).ring = r.contents := by
  show (if r.count = r.cells.length then r.cells.drop r.next ++ r.cells.take r.next
    else r.cells.take r.count) = _
  by_cases full : r.count = r.cells.length
  · rw [if_pos full, Ring.contents_full full]
  · rw [if_neg full, Ring.contents_filling full, r.filled.resolve_left full]

theorem Window.of_dictionary (wbits : Nat) (r : Ring UInt8) :
    inflateGetDictionary (Window.of wbits r) = (r.contents, r.count) := by
  show (if r.count ≠ 0 then
    ((r.cells.drop r.next).take (r.count - r.next) ++ r.cells.take r.next, r.count) else _) = _
  have next_lt := r.next_lt
  by_cases none : r.count = 0
  · have nothing : r.contents = [] := List.eq_nil_of_length_eq_zero (r.contents_length.trans none)
    rw [if_neg (Classical.not_not.mpr none), nothing]
    rfl
  · rw [if_pos none]
    by_cases full : r.count = r.cells.length
    · rw [Ring.contents_full full, full, ← List.length_drop, List.take_length]
    · have next : r.count = r.next := r.filled.resolve_left full
      rw [Ring.contents_filling full, next, Nat.sub_self, List.take_zero, List.nil_append]

/-- The state after some calls: the window is not there yet, or it holds the end of `history`. -/
inductive Window.Holds (history : Bytes) : Window → Prop where
  | start {wbits : Nat} (none : history = []) : Holds history (.start wbits)
  | of {wbits : Nat} {r : Ring UInt8} (size : r.cells.length = 2 ^ wbits)
      (contents : r.contents = history.rtake (2 ^ wbits)) : Holds history (.of wbits r)

theorem Window.Holds.right {s : Window} {history : Bytes} (holds : s.Holds history) :
    s.Right history := by
  cases holds with
  | start none =>
    subst none
    exact ⟨(Nat.zero_min _).symm, rfl, rfl⟩
  | @of wbits r size contents =>
    have count : r.count = min history.length (2 ^ wbits) := by
      rw [← r.contents_length, contents, rtake_length]
    have whole : history.rtake r.count = r.contents := by
      rw [contents, List.rtake, List.rtake, count]
      congr 1
      omega
    refine ⟨count, ?_, ?_⟩
    · exact (Window.of_ring wbits r).trans whole.symm
    · show _ = (history.rtake r.count, r.count)
      rw [Window.of_dictionary, whole]

/-- A state is right for at most one end of the history. -/
theorem Window.Holds.right_iff {s : Window} {history other : Bytes} (holds : s.Holds history)
    (length : min history.length (2 ^ s.wbits) = min other.length (2 ^ s.wbits)) :
    s.Right other ↔ history.rtake (2 ^ s.wbits) = other.rtake (2 ^ s.wbits) := by
  have right := holds.right
  have ends (l : Bytes) : l.rtake (min l.length (2 ^ s.wbits)) = l.rtake (2 ^ s.wbits) := by
    rw [List.rtake, List.rtake]
    congr 1
    omega
  have whave := right.whave
  have whave' := whave.trans length
  constructor
  · intro right'
    have same := right.ring.symm.trans right'.ring
    rw [whave, ends history, length, ends other] at same
    exact same
  · intro same
    have same' : history.rtake s.whave = other.rtake s.whave := by
      rw [whave, ends history, length, ends other, same]
    exact ⟨whave', same' ▸ right.ring, same' ▸ right.dictionary⟩

end

/-! ## One call -/

/-- The bytes that a call puts into a window of `wsize` bytes, in the order they have there. -/
def Sources.taken (sources : Sources) (wsize wnext : Nat) (mem : Region) (data : Int)
    (copy : Nat) : Option Bytes :=
  if copy ≥ wsize then mem.load (data + sources.whole copy wsize) wsize
  else
    let dist := min (wsize - wnext) copy
    match mem.load (data + sources.first copy dist) dist with
    | none => none
    | some back => (mem.load (data + sources.second copy dist) (copy - dist)).map (back ++ ·)

section

variable {sources : Sources} {alloc : Option (Nat → UInt8)} {mem : Region} {data : Int}
  {copy : Nat} {r : Ring UInt8}

theorem load_length {bytes : Bytes} {src : Int} {n : Nat} (loads : mem.load src n = some bytes) :
    bytes.length = n := by
  rw [Region.load] at loads
  split at loads
  next holds =>
    cases loads
    rw [List.length_take, List.length_drop]
    rcases holds with rfl | inside
    · exact Nat.zero_min _
    · omega
  next outside => cases loads

theorem zmemcpy_some {window bytes : Bytes} {offset n : Nat} {src : Int}
    (fits : offset + n ≤ window.length) (loads : mem.load src n = some bytes) :
    zmemcpy window offset mem src n = some (overwrite window offset bytes) := by
  simp only [zmemcpy, loads, if_pos fits]

theorem zmemcpy_none {window : Bytes} {offset n : Nat} {src : Int}
    (loads : mem.load src n = none) : zmemcpy window offset mem src n = none := by
  simp only [zmemcpy, loads]

/-- The ring after a call. -/
theorem update_of (wbits : Nat) (r : Ring UInt8) (alloc : Option (Nat → UInt8)) :
    match sources.taken r.cells.length r.next mem data copy with
    | none => (Window.of wbits r).update sources alloc mem data copy = none
    | some bytes => bytes.length = min copy r.cells.length ∧ ∃ r' : Ring UInt8,
        (Window.of wbits r).update sources alloc mem data copy = some (0, .of wbits r') ∧
        r'.cells.length = r.cells.length ∧
        r'.contents = (r.contents ++ bytes).rtake r.cells.length := by
  have next_lt := r.next_lt
  have used : (Window.of wbits r).inUse = .of wbits r := if_neg (by
    show r.cells.length ≠ 0
    omega)
  have there : (Window.of wbits r).allocate alloc = some r.cells := rfl
  have wsize : (Window.of wbits r).wsize = r.cells.length := rfl
  have wnext : (Window.of wbits r).wnext = r.next := rfl
  simp only [Sources.taken, Window.update, there, used, wsize, wnext]
  -- A piece that fills the window replaces it; a shorter one is written behind `wnext`, and its
  -- rest from the first cell on.
  by_cases long : copy ≥ r.cells.length
  · rw [if_pos long, if_pos long]
    cases loads : mem.load (data + sources.whole copy r.cells.length) r.cells.length with
    | none => simp only [zmemcpy_none loads, Option.map_none]
    | some bytes =>
      have length := load_length loads
      have all : r.cells.length ≤ bytes.length := Nat.le_of_eq length.symm
      have cells : overwrite r.cells 0 bytes = bytes.rtake r.cells.length := by
        rw [rtake_of_length_le (Nat.le_of_eq length), overwrite, List.take_zero, List.nil_append,
          Nat.zero_add, length, List.drop_length, List.append_nil]
      have size : (r.refill bytes all).cells.length = r.cells.length := by
        show (bytes.rtake r.cells.length).length = _
        rw [rtake_length]
        omega
      refine ⟨by omega, r.refill bytes all, ?_, size, Ring.refill_contents all⟩
      rw [zmemcpy_some (Nat.le_of_eq (Nat.zero_add _)) loads, cells, Option.map_some,
        Window.of_sized size]
      rfl
  · rw [if_neg long, if_neg long]
    have short : min (r.cells.length - r.next) copy ≤ r.cells.length - r.next := Nat.min_le_left _ _
    generalize isDist : min (r.cells.length - r.next) copy = dist at short
    cases loads : mem.load (data + sources.first copy dist) dist with
    | none => simp only [zmemcpy_none loads]
    | some back =>
      have length := load_length loads
      have written := @zmemcpy_some mem r.cells back r.next dist _ (by omega) loads
      simp only [written]
      -- The piece does not fit behind `wnext`.
      by_cases rest : copy - dist ≠ 0
      · rw [if_pos rest]
        cases loads' : mem.load (data + sources.second copy dist) (copy - dist) with
        | none => simp only [zmemcpy_none loads', Option.map_none]
        | some front =>
          have length' := load_length loads'
          have fits : r.next + back.length = r.cells.length := by omega
          have few : front.length < r.cells.length := by omega
          have size : (overwrite r.cells r.next back).length = r.cells.length :=
            overwrite_length (Nat.le_of_eq fits)
          have size' : (r.wrap back front fits few).cells.length = r.cells.length := by
            show (overwrite (overwrite r.cells r.next back) 0 front).length = _
            rw [overwrite_length (by omega), size]
          simp only [Option.map_some]
          refine ⟨?_, r.wrap back front fits few, ?_, size', ?_⟩
          · rw [List.length_append]
            omega
          · rw [zmemcpy_some (by omega) loads', Option.map_some, Window.of_sized size', ← length']
            rfl
          · exact Ring.wrap_contents fits few (by omega)
      · -- Nothing is left for the first cells.
        have none : copy - dist = 0 := Classical.not_not.mp rest
        have loads' : mem.load (data + sources.second copy dist) 0 = some [] := by
          rw [Region.load, if_pos (.inl rfl), List.take_zero]
        rw [if_neg rest, none, loads']
        have fits : r.next + back.length ≤ r.cells.length := by omega
        have size : (r.write back fits).cells.length = r.cells.length := overwrite_length fits
        simp only [Option.map_some, List.append_nil]
        refine ⟨by omega, r.write back fits, ?_, size, Ring.write_contents fits⟩
        rw [Window.of_sized size, ← length]
        rfl

/-- The first call finds no window, and gets an empty one. -/
theorem update_start (wbits : Nat) (fresh : Nat → UInt8) : ∃ r : Ring UInt8,
    r.cells.length = 2 ^ wbits ∧ r.contents = [] ∧ r.next = 0 ∧
    (Window.start wbits).update sources (some fresh) mem data copy
      = (Window.of wbits r).update sources (some fresh) mem data copy := by
  have size : ((List.range (2 ^ wbits)).map fresh).length = 2 ^ wbits := by
    rw [List.length_map, List.length_range]
  have some : 0 < ((List.range (2 ^ wbits)).map fresh).length := by
    rw [size]
    exact Nat.two_pow_pos wbits
  refine ⟨.empty _ some, size, Ring.empty_contents _ some, rfl, ?_⟩
  have used : (Window.of wbits (.empty _ some)).inUse = .of wbits (.empty _ some) :=
    if_neg (Nat.ne_of_gt some)
  have unused : (Window.start wbits).inUse
      = { Window.of wbits (.empty _ some) with window := none } := by
    simp only [Window.inUse, Window.start, if_pos, Window.of, Ring.empty, size]
  have there : (Window.of wbits (.empty _ some)).allocate (Option.some fresh)
      = Option.some ((List.range (2 ^ wbits)).map fresh) := rfl
  have allocated : (Window.start wbits).allocate (Option.some fresh)
      = Option.some ((List.range (2 ^ wbits)).map fresh) := rfl
  simp only [Window.update, there, allocated, used, unused]

end

/-- What a call comes to: there is no memory for the window, or it goes wrong in reading, or the
bytes that it read go into the ring. -/
inductive Updated (sources : Sources) (history : Bytes) (s : Window) (c : Call) :
    Option (Int × Window) → Prop where
  | unallocated (nothing : s.window = none ∧ c.alloc = none) :
      Updated sources history s c (some (1, s))
  | outside (there : ¬ (s.window = none ∧ c.alloc = none))
      (taken : sources.taken (2 ^ s.wbits) s.wnext c.piece.mem c.piece.nextOut
        c.piece.bytes.length = none) : Updated sources history s c none
  | put {bytes : Bytes} {s' : Window} (there : ¬ (s.window = none ∧ c.alloc = none))
      (taken : sources.taken (2 ^ s.wbits) s.wnext c.piece.mem c.piece.nextOut
        c.piece.bytes.length = some bytes)
      (length : bytes.length = min c.piece.bytes.length (2 ^ s.wbits)) (wbits : s'.wbits = s.wbits)
      (holds : s'.Holds (history ++ bytes)) : Updated sources history s c (some (0, s'))

theorem updated_of {sources : Sources} {history : Bytes} {wbits : Nat} {r : Ring UInt8}
    (size : r.cells.length = 2 ^ wbits) (contents : r.contents = history.rtake (2 ^ wbits))
    (c : Call) :
    Updated sources history (.of wbits r) c (c.run (Window.update sources) (.of wbits r)) := by
  have step := @update_of sources c.piece.mem c.piece.nextOut c.piece.bytes.length wbits r c.alloc
  have there : ¬ ((Window.of wbits r).window = none ∧ c.alloc = none) :=
    fun nothing => nomatch nothing.1
  rw [Call.run]
  rw [size] at step
  cases taken : sources.taken (2 ^ wbits) r.next c.piece.mem c.piece.nextOut
      c.piece.bytes.length with
  | none =>
    rw [taken] at step
    rw [step]
    exact .outside there taken
  | some bytes =>
    rw [taken] at step
    obtain ⟨length, r', runs, size', contents'⟩ := step
    rw [runs]
    refine .put there taken length rfl (.of size' ?_)
    rw [contents', contents, rtake_append_rtake]

/-- The first call finds an empty ring, and any other the one that the last call left. -/
theorem Window.Holds.updated {s : Window} {history : Bytes} (holds : s.Holds history)
    (sources : Sources) (c : Call) :
    Updated sources history s c (c.run (Window.update sources) s) := by
  cases holds with
  | @start wbits none =>
    cases alloc : c.alloc with
    | none =>
      have runs : c.run (Window.update sources) (.start wbits) = some (1, .start wbits) := by
        rw [Call.run, alloc]
        rfl
      rw [runs]
      exact .unallocated ⟨rfl, alloc⟩
    | some fresh =>
      obtain ⟨r, size, contents, next, same⟩ :=
        @update_start sources c.piece.mem c.piece.nextOut c.piece.bytes.length wbits fresh
      have contents' : r.contents = history.rtake (2 ^ wbits) := by
        rw [contents, none, List.rtake_nil]
      have there : ¬ ((Window.start wbits).window = .none ∧ c.alloc = .none) := by
        rw [alloc]
        exact fun nothing => nomatch nothing.2
      have runs : c.run (Window.update sources) (.start wbits) =
          c.run (Window.update sources) (.of wbits r) := by
        rw [Call.run, Call.run, alloc, same]
      have place : sources.taken (2 ^ wbits) 0 c.piece.mem c.piece.nextOut c.piece.bytes.length =
          sources.taken (2 ^ wbits) r.next c.piece.mem c.piece.nextOut c.piece.bytes.length := by
        rw [next]
      have after := @updated_of sources history wbits r size contents' c
      rw [runs]
      generalize c.run (Window.update sources) (.of wbits r) = result at after
      cases after with
      | unallocated nothing => exact nomatch nothing.1
      | outside _ taken => exact .outside there (place.trans taken)
      | put _ taken length same holds => exact .put there (place.trans taken) length same holds
  | of size contents => exact updated_of size contents c

/-! ## Where the pieces are -/

section

variable {p : Piece}

/-- From the end of the piece on lie other bytes. -/
theorem load_behind (p : Piece) (offset n : Nat) :
    p.mem.load (p.nextOut + offset) n =
      if n = 0 ∨ offset + n ≤ p.behind.length then some ((p.behind.drop offset).take n)
      else none := by
  have front : (p.before ++ p.bytes).length = p.before.length + p.bytes.length :=
    List.length_append
  have start : (p.nextOut + offset - p.base).toNat = (p.before ++ p.bytes).length + offset := by
    rw [front, Piece.nextOut]
    omega
  have holds : p.mem.Holds (p.nextOut + offset) n ↔ n = 0 ∨ offset + n ≤ p.behind.length := by
    simp only [Region.Holds, Piece.mem, Piece.nextOut, List.length_append]
    omega
  rw [Region.load]
  simp only [holds]
  have dropped : (p.before ++ p.bytes ++ p.behind).drop (p.nextOut + offset - p.base).toNat
      = p.behind.drop offset := by
    rw [start, List.drop_length_add_append]
  rw [Piece.mem, dropped]

/-- Before its end lies the piece. -/
theorem load_before (p : Piece) {back n : Nat} (inside : back ≤ p.bytes.length) (fits : n ≤ back) :
    p.mem.load (p.nextOut + -back) n = some ((p.bytes.drop (p.bytes.length - back)).take n) := by
  have start : (p.nextOut + -back - p.base).toNat
      = p.before.length + (p.bytes.length - back) := by
    rw [Piece.nextOut]
    omega
  have holds : p.mem.Holds (p.nextOut + -back) n := by
    right
    simp only [Piece.mem, Piece.nextOut, List.length_append]
    omega
  have dropped : (p.before ++ p.bytes ++ p.behind).drop (p.nextOut + -back - p.base).toNat
      = p.bytes.drop (p.bytes.length - back) ++ p.behind := by
    rw [start, List.append_assoc, List.drop_length_add_append,
      List.drop_append_of_le_length (Nat.sub_le _ _)]
  rw [Region.load, if_pos holds, Piece.mem, dropped, List.take_append_of_le_length]
  rw [List.length_drop]
  omega

end

/-- Where `updatewindow` of libz_h2 looks, it finds the piece: behind it, the two parts that a
window of `wsize` bytes is written in the other way round. -/
def Piece.Found (p : Piece) (wsize wnext : Nat) : Prop :=
  let copy := p.bytes.length
  if copy ≥ wsize then
    (p.behind.take copy).drop (copy - wsize) = p.bytes.drop (copy - wsize)
  else
    let dist := min (wsize - wnext) copy
    p.behind.take copy = p.bytes.drop dist ++ p.bytes.take dist

theorem taken_fromData (p : Piece) {wsize wnext : Nat} (next_lt : wnext < wsize) :
    fromData.taken wsize wnext p.mem p.nextOut p.bytes.length = some (p.bytes.rtake wsize) ↔
      p.Found wsize wnext := by
  simp only [Sources.taken, fromData, Piece.Found]
  -- A piece that fills the window is one load, a shorter one is two.
  by_cases long : p.bytes.length ≥ wsize
  · rw [if_pos long, if_pos long, ← Int.ofNat_sub long, load_behind, List.rtake]
    by_cases all : p.bytes.length ≤ p.behind.length
    · have inside : wsize = 0 ∨ p.bytes.length - wsize + wsize ≤ p.behind.length := by omega
      have taken : (p.behind.drop (p.bytes.length - wsize)).take wsize
          = (p.behind.take p.bytes.length).drop (p.bytes.length - wsize) := by
        rw [List.drop_take, Nat.sub_sub_self long]
      rw [if_pos inside, taken]
      exact Option.some_inj
    · have outside : ¬ (wsize = 0 ∨ p.bytes.length - wsize + wsize ≤ p.behind.length) := by omega
      rw [if_neg outside]
      refine iff_of_false (fun none => nomatch none) ?_
      intro same
      have length := congrArg List.length same
      simp only [List.length_drop, List.length_take] at length
      omega
  · have short : p.bytes.length ≤ wsize := by omega
    have dist_le : min (wsize - wnext) p.bytes.length ≤ p.bytes.length := Nat.min_le_right _ _
    have some_dist : min (wsize - wnext) p.bytes.length = 0 → p.bytes.length = 0 := by omega
    rw [if_neg long, if_neg long, rtake_of_length_le short]
    generalize min (wsize - wnext) p.bytes.length = dist at dist_le some_dist
    have first := load_behind p (p.bytes.length - dist) dist
    have second := load_behind p 0 (p.bytes.length - dist)
    rw [Int.ofNat_sub dist_le] at first
    rw [show ((0 : Nat) : Int) = 0 from rfl] at second
    by_cases all : p.bytes.length ≤ p.behind.length
    · rw [if_pos (by omega)] at first second
      rw [first, second]
      simp only [Option.map_some, Option.some_inj, List.drop_zero]
      have back : ((p.behind.drop (p.bytes.length - dist)).take dist).length = dist := by
        rw [List.length_take, List.length_drop]
        omega
      have front : (p.behind.take (p.bytes.length - dist)).length = (p.bytes.drop dist).length := by
        rw [List.length_take, List.length_drop]
        omega
      -- The second load is the front of what is behind, and the first one follows it there.
      have split : p.behind.take p.bytes.length = p.behind.take (p.bytes.length - dist)
          ++ (p.behind.drop (p.bytes.length - dist)).take dist := by
        rw [← List.take_add, Nat.sub_add_cancel dist_le]
      rw [split]
      constructor
      · intro same
        have halves := congrArg (List.drop dist) same
        have halves' := congrArg (List.take dist) same
        rw [List.drop_left' back] at halves
        rw [List.take_left' back] at halves'
        rw [halves, halves']
      · intro same
        obtain ⟨halves, halves'⟩ := List.append_inj same front
        rw [halves, halves', List.take_append_drop]
    · -- The copy that ends where the piece would end does not fit.
      have outside : ¬ (dist = 0 ∨ p.bytes.length - dist + dist ≤ p.behind.length) := by omega
      rw [if_neg outside] at first
      rw [first]
      refine iff_of_false (fun none => nomatch none) ?_
      intro same
      have length := congrArg List.length same
      simp only [List.length_append, List.length_drop, List.length_take] at length
      omega

theorem taken_fromEnd (p : Piece) {wsize wnext : Nat} :
    fromEnd.taken wsize wnext p.mem p.nextOut p.bytes.length = some (p.bytes.rtake wsize) := by
  simp only [Sources.taken, fromEnd]
  by_cases long : p.bytes.length ≥ wsize
  · rw [if_pos long, load_before p long (Nat.le_refl _), List.rtake, List.take_of_length_le]
    rw [List.length_drop]
    omega
  · have short : p.bytes.length ≤ wsize := by omega
    have dist_le : min (wsize - wnext) p.bytes.length ≤ p.bytes.length := Nat.min_le_right _ _
    rw [if_neg long, rtake_of_length_le short]
    generalize min (wsize - wnext) p.bytes.length = dist at dist_le
    have rest : p.bytes.length - (p.bytes.length - dist) = dist := by omega
    rw [load_before p (Nat.le_refl _) dist_le, ← Int.ofNat_sub dist_le,
      load_before p (Nat.sub_le _ _) (Nat.le_refl _), rest]
    simp only [Option.map_some, Nat.sub_self, List.drop_zero]
    rw [List.take_of_length_le (l := p.bytes.drop dist), List.take_append_drop]
    rw [List.length_drop]

/-! ## Sequences of calls -/

theorem Window.Holds.next_lt {s : Window} {history : Bytes} (holds : s.Holds history) :
    s.wnext < 2 ^ s.wbits := by
  cases holds with
  | start none => exact Nat.two_pow_pos _
  | @of wbits r size contents =>
    have next_lt := r.next_lt
    rw [size] at next_lt
    exact next_lt

theorem Window.Holds.same {s : Window} {history other : Bytes} (holds : s.Holds history)
    (same : history.rtake (2 ^ s.wbits) = other.rtake (2 ^ s.wbits)) : s.Holds other := by
  cases holds with
  | @start wbits none =>
    have length := congrArg List.length same
    rw [none, List.rtake_nil, rtake_length] at length
    have some := Nat.two_pow_pos wbits
    have none' : other.length = 0 := by
      rcases Nat.min_eq_zero_iff.mp length.symm with none | zero
      · exact none
      · exact absurd zero (Nat.ne_of_gt some)
    exact .start (List.eq_nil_of_length_eq_zero none')
  | of size contents => exact .of size (contents.trans same)

/-- The piece is found, or there is no memory for the window. -/
def Call.Found (c : Call) (s : Window) : Prop :=
  s.window = none ∧ c.alloc = none ∨ c.piece.Found (2 ^ s.wbits) s.wnext

/-- Every call of a sequence finds its piece. -/
def FoundAlong : Window → List Call → Prop
  | _, [] => True
  | s, c :: cs => c.Found s ∧ ∀ ret s', c.run updatewindow s = some (ret, s') → FoundAlong s' cs

/-- What a call leaves is right if and only if the ring got the piece. -/
theorem Window.Holds.call {sources : Sources} {s : Window} {history : Bytes}
    (holds : s.Holds history) (c : Call) (there : ¬ (s.window = none ∧ c.alloc = none)) :
    (∃ s', c.run (Window.update sources) s = some (0, s') ∧
        s'.Right (history ++ c.piece.bytes)) ↔
      sources.taken (2 ^ s.wbits) s.wnext c.piece.mem c.piece.nextOut c.piece.bytes.length
        = some (c.piece.bytes.rtake (2 ^ s.wbits)) := by
  have after := holds.updated sources c
  generalize c.run (Window.update sources) s = result at after ⊢
  cases after with
  | unallocated nothing => exact absurd nothing there
  | outside _ taken =>
    rw [taken]
    refine iff_of_false ?_ (fun none => nomatch none)
    rintro ⟨s', runs, -⟩
    cases runs
  | @put bytes s' _ taken length wbits holds' =>
    have total : min (history ++ bytes).length (2 ^ s'.wbits)
        = min (history ++ c.piece.bytes).length (2 ^ s'.wbits) := by
      rw [List.length_append, List.length_append, length, wbits]
      omega
    have right : s'.Right (history ++ c.piece.bytes) ↔
        bytes = c.piece.bytes.rtake (2 ^ s.wbits) := by
      rw [holds'.right_iff total, wbits]
      exact rtake_append_iff history length
    rw [taken, Option.some_inj, ← right]
    constructor
    · rintro ⟨s'', runs, right'⟩
      cases runs
      exact right'
    · exact fun right' => ⟨s', rfl, right'⟩

/-- A call that finds its piece. -/
theorem Window.Holds.found {sources : Sources} {s : Window} {history : Bytes}
    (holds : s.Holds history) (c : Call) (there : ¬ (s.window = none ∧ c.alloc = none))
    (taken : sources.taken (2 ^ s.wbits) s.wnext c.piece.mem c.piece.nextOut c.piece.bytes.length
        = some (c.piece.bytes.rtake (2 ^ s.wbits))) :
    ∃ s', c.run (Window.update sources) s = some (0, s') ∧ s'.Holds (history ++ c.piece.bytes) := by
  have after := holds.updated sources c
  generalize c.run (Window.update sources) s = result at after ⊢
  cases after with
  | unallocated nothing => exact absurd nothing there
  | outside _ none =>
    rw [none] at taken
    cases taken
  | put _ read length wbits holds' =>
    rw [read] at taken
    cases taken
    refine ⟨_, rfl, holds'.same ?_⟩
    rw [wbits]
    exact (rtake_append_iff history length).mpr rfl

theorem Window.Holds.unallocated {sources : Sources} {s : Window} {history : Bytes}
    (holds : s.Holds history) (c : Call) (nothing : s.window = none ∧ c.alloc = none) :
    c.run (Window.update sources) s = some (1, s) := by
  have after := holds.updated sources c
  generalize c.run (Window.update sources) s = result at after ⊢
  cases after with
  | unallocated _ => rfl
  | outside there _ => exact absurd nothing there
  | put there _ _ _ _ => exact absurd nothing there

theorem Window.Holds.returns {sources : Sources} {s s' : Window} {history : Bytes} {ret : Int}
    (holds : s.Holds history) (c : Call) (there : ¬ (s.window = none ∧ c.alloc = none))
    (runs : c.run (Window.update sources) s = some (ret, s')) : ret = 0 := by
  have after := holds.updated sources c
  rw [runs] at after
  cases after with
  | unallocated nothing => exact absurd nothing there
  | put _ _ _ _ _ => rfl

theorem rightAlong_iff (calls : List Call) : ∀ {s : Window} {history : Bytes},
    s.Holds history → (RightAlong updatewindow s history calls ↔ FoundAlong s calls) := by
  induction calls with
  | nil =>
    intro s history _
    exact Iff.rfl
  | cons c cs ih =>
    intro s history holds
    rw [RightAlong, FoundAlong, Call.Found]
    by_cases nothing : s.window = none ∧ c.alloc = none
    · have runs : c.run updatewindow s = some (1, s) := holds.unallocated c nothing
      rw [runs]
      constructor
      · rintro ⟨ret, s', same, -, rest⟩
        cases same
        refine ⟨.inl nothing, ?_⟩
        rintro ret s' same
        cases same
        exact (ih holds).mp rest
      · rintro ⟨-, rest⟩
        exact ⟨1, s, rfl, holds.right, (ih holds).mpr (rest 1 s rfl)⟩
    · have step := @Window.Holds.call fromData s history holds c nothing
      have found := taken_fromData c.piece holds.next_lt
      constructor
      · rintro ⟨ret, s', runs, right, rest⟩
        have zero : ret = 0 := holds.returns c nothing runs
        subst zero
        rw [if_pos rfl] at right rest
        have taken := step.mp ⟨s', runs, right⟩
        obtain ⟨s'', runs', holds'⟩ := holds.found c nothing taken
        cases runs.symm.trans runs'
        refine ⟨.inr (found.mp taken), ?_⟩
        intro ret' next same
        rw [runs] at same
        cases same
        exact (ih holds').mp rest
      · rintro ⟨unallocated | isFound, rest⟩
        · exact absurd unallocated nothing
        · obtain ⟨s', runs, holds'⟩ := holds.found c nothing (found.mpr isFound)
          exact ⟨0, s', runs, holds'.right, (ih holds').mpr (rest 0 s' runs)⟩

/-- The window of libz_h2 is right after every call if and only if each call finds its piece behind
the piece. -/
theorem updatewindow_right (wbits : Nat) (calls : List Call) :
    RightAlong updatewindow (.start wbits) [] calls ↔ FoundAlong (.start wbits) calls :=
  rightAlong_iff calls (.start rfl)

/-- A dictionary of two bytes, and the capability that `inflateSetDictionary` makes for it. -/
def Call.dictionary : Call := ⟨⟨0x1000, [], [1, 2], []⟩, some fun _ => 0⟩

/-- Already the first byte is outside. -/
theorem dictionary_outside : ¬ ∀ (wbits : Nat) (calls : List Call),
    RightAlong updatewindow (.start wbits) [] calls := by
  intro right
  obtain ⟨ret, s', runs, -⟩ := right 8 [Call.dictionary]
  have outside : Call.dictionary.run updatewindow (.start 8) = none := by decide +kernel
  rw [outside] at runs
  cases runs

/-- The window of libz_u is right after every call. -/
theorem updatewindowU_right (calls : List Call) : ∀ {s : Window} {history : Bytes},
    s.Holds history → RightAlong updatewindowU s history calls := by
  induction calls with
  | nil =>
    intro s history _
    trivial
  | cons c cs ih =>
    intro s history holds
    by_cases nothing : s.window = none ∧ c.alloc = none
    · exact ⟨1, s, holds.unallocated c nothing, holds.right, ih holds⟩
    · obtain ⟨s', runs, holds'⟩ := holds.found c nothing (taken_fromEnd c.piece)
      exact ⟨0, s', runs, holds'.right, ih holds'⟩

end CheriGzip.Inflate
