import CheriGzip.Gzip.ZreadCorrect
import Mathlib.Logic.Relation

/-!
# zread on arbitrary input

The comment in `zread` argues that `code < free_ent` bounds the expansion. The invariant behind
the argument ties together the table, `oldcode`, the width of the codes and the stack, and it holds
in every state of every sequence of calls until one of them returns -1.
-/
namespace CheriGzip.Zread

open Loop

/-- `de_stack` begins behind the `1 << BITS` suffixes, in the `HSIZE` longs of `zs_htab`. -/
def deStackSize : Nat := 69001 * 8 - 2 ^ maxBits

/-! ## The invariant -/

/-- What every state keeps in which a code is looked at or put out. -/
structure Sound (zs : Zstate) : Prop where
  prefix_lt : ∀ c, 256 ≤ c → c < zs.freeEnt → zs.prefixof c < c
  oldcode_lt : ∀ c, zs.oldcode = some c → c < zs.freeEnt
  least : 9 ≤ zs.nBits
  most : zs.nBits ≤ zs.maxbits
  full : zs.freeEnt ≤ 2 ^ zs.maxbits
  base : 256 ≤ zs.freeEnt
  first : zs.blockCompress = true → 257 ≤ zs.freeEnt
  maxbits_least : 12 ≤ zs.maxbits
  maxbits_most : zs.maxbits ≤ maxBits
  maxmaxcode : zs.maxmaxcode = 2 ^ zs.maxbits
  -- `getcode` widens the codes for `free_ent`, so that this is what keeps `n_bits` small.
  maxcode : zs.nBits = zs.maxbits → zs.maxcode = 2 ^ zs.maxbits

/-- What bounds the width of the codes. -/
structure Sized (zs : Zstate) : Prop where
  least : 9 ≤ zs.nBits
  most : zs.nBits ≤ zs.maxbits
  maxbits_least : 12 ≤ zs.maxbits
  maxbits_most : zs.maxbits ≤ maxBits
  full : zs.freeEnt ≤ 2 ^ zs.maxbits
  maxmaxcode : zs.maxmaxcode = 2 ^ zs.maxbits
  maxcode : zs.nBits = zs.maxbits → zs.maxcode = 2 ^ zs.maxbits

section

variable {zs zs' : Zstate}

/-- The invariant does not look at the bits that are still to come. -/
theorem Sound.kept (sound : Sound zs) (kept : Kept zs zs') (nBits : zs'.nBits = zs.nBits)
    (maxcode : zs'.maxcode = zs.maxcode) : Sound zs' where
  prefix_lt := by
    rw [kept.prefixof, kept.freeEnt]
    exact sound.prefix_lt
  oldcode_lt := by
    rw [kept.oldcode, kept.freeEnt]
    exact sound.oldcode_lt
  least := nBits ▸ sound.least
  most := by
    rw [nBits, kept.maxbits]
    exact sound.most
  full := by
    rw [kept.freeEnt, kept.maxbits]
    exact sound.full
  base := kept.freeEnt ▸ sound.base
  first := by
    rw [kept.blockCompress, kept.freeEnt]
    exact sound.first
  maxbits_least := kept.maxbits ▸ sound.maxbits_least
  maxbits_most := kept.maxbits ▸ sound.maxbits_most
  maxmaxcode := by
    rw [kept.maxmaxcode, kept.maxbits]
    exact sound.maxmaxcode
  maxcode := by
    rw [nBits, maxcode, kept.maxbits]
    exact sound.maxcode

theorem Sound.sized (sound : Sound zs) : Sized zs :=
  ⟨sound.least, sound.most, sound.maxbits_least, sound.maxbits_most, sound.full, sound.maxmaxcode,
    sound.maxcode⟩

/-- The codes never get wider than `maxbits`: at that width `maxcode` is the size of the table. -/
theorem Sized.widen (sized : Sized zs) : Sized zs.widen := by
  by_cases grows : zs.freeEnt > zs.maxcode
  · have full := sized.full
    have least := sized.least
    have narrower : zs.nBits ≠ zs.maxbits := by
      intro widest
      have maxcode := sized.maxcode widest
      omega
    have most := sized.most
    rw [Zstate.widen, if_pos grows]
    refine { sized with least := ?_, most := ?_, maxcode := ?_ }
    · show 9 ≤ zs.nBits + 1
      omega
    · show zs.nBits + 1 ≤ zs.maxbits
      omega
    · intro widest
      exact (if_pos widest).trans sized.maxmaxcode
  · rw [Zstate.widen, if_neg grows]
    exact sized

theorem Sized.narrow (sized : Sized zs) : Sized zs.narrow := by
  by_cases cleared : zs.clearFlg = true
  · have wide := sized.maxbits_least
    rw [Zstate.narrow, if_pos cleared]
    refine { sized with least := Nat.le_refl 9, most := ?_, maxcode := ?_ }
    · show 9 ≤ zs.maxbits
      omega
    · intro widest
      have same : 9 = zs.maxbits := widest
      omega
  · rw [Zstate.narrow, if_neg cleared]
    exact sized

theorem Sound.widen (sound : Sound zs) : Sound zs.widen := by
  have sized := sound.sized.widen
  by_cases grows : zs.freeEnt > zs.maxcode
  · rw [Zstate.widen, if_pos grows] at sized ⊢
    exact { sound with least := sized.least, most := sized.most, maxcode := sized.maxcode }
  · rw [Zstate.widen, if_neg grows]
    exact sound

theorem Sound.narrow (sound : Sound zs) : Sound zs.narrow := by
  have sized := sound.sized.narrow
  by_cases cleared : zs.clearFlg = true
  · rw [Zstate.narrow, if_pos cleared] at sized ⊢
    exact { sound with least := sized.least, most := sized.most, maxcode := sized.maxcode }
  · rw [Zstate.narrow, if_neg cleared]
    exact sound

/-- A code is read with the old width or the new one, and leaves the table alone. -/
theorem getcode_from (zs : Zstate) : ∃ mid, (mid = zs ∨ mid = zs.resize) ∧
    Kept mid (getcode zs).2 ∧ (getcode zs).2.nBits = mid.nBits ∧
    (getcode zs).2.maxcode = mid.maxcode ∧
    ∀ code, (getcode zs).1 = some code → ∃ gbuf roffset, code = gcode gbuf roffset mid.nBits := by
  unfold getcode
  by_cases due : zs.Due
  · rw [if_pos due]
    refine ⟨zs.resize, .inr rfl, ?_⟩
    unfold Zstate.refill
    simp only
    by_cases ended : (zs.resize.fetch zs.resize.nBits).1.length = 0
    · rw [if_pos ended]
      exact ⟨⟨rfl, rfl, rfl, rfl, rfl, rfl, rfl, rfl, rfl, rfl⟩, rfl, rfl,
        fun code ends => nomatch ends⟩
    · rw [if_neg ended]
      refine ⟨⟨rfl, rfl, rfl, rfl, rfl, rfl, rfl, rfl, rfl, rfl⟩, rfl, rfl, ?_⟩
      intro code read
      cases read
      exact ⟨_, _, rfl⟩
  · rw [if_neg due]
    refine ⟨zs, .inl rfl, ⟨rfl, rfl, rfl, rfl, rfl, rfl, rfl, rfl, rfl, rfl⟩, rfl, rfl, ?_⟩
    intro code read
    cases read
    exact ⟨_, _, rfl⟩

theorem gcode_lt {n : Nat} (gbuf : Bytes) (roffset : Nat) (least : 9 ≤ n) (most : n ≤ 16) :
    gcode gbuf roffset n < 2 ^ n := by
  apply Nat.lt_pow_two_of_testBit
  intro i high
  rw [gcode_testBit gbuf roffset least most]
  have outside : decide (i < n) = false := decide_eq_false (by omega)
  rw [outside, Bool.false_and]

/-- `getcode` keeps the invariant and the table, and its code has at most `maxbits` bits. -/
theorem Sound.getcode (sound : Sound zs) {read : Option Nat} (gets : getcode zs = (read, zs')) :
    Sound zs' ∧ Kept zs zs' ∧ ∀ code, read = some code → code < 2 ^ zs'.maxbits := by
  obtain ⟨mid, origin, kept, nBits, maxcode, value⟩ := getcode_from zs
  rw [gets] at kept nBits maxcode value
  have before : Sound mid ∧ Kept zs mid := by
    rcases origin with rfl | rfl
    · exact ⟨sound, ⟨rfl, rfl, rfl, rfl, rfl, rfl, rfl, rfl, rfl, rfl⟩⟩
    · exact ⟨sound.widen.narrow, (resize_kept zs).1⟩
  obtain ⟨sound', kept'⟩ := before
  refine ⟨sound'.kept kept nBits maxcode, kept'.trans kept, ?_⟩
  intro code isCode
  obtain ⟨gbuf, roffset, rfl⟩ := value code isCode
  have bound := gcode_lt gbuf roffset sound'.least
    (Nat.le_trans sound'.most sound'.maxbits_most)
  exact Nat.lt_of_lt_of_le bound
    (kept.maxbits ▸ Nat.pow_le_pow_right (by decide) sound'.most)

end

/-! ## The expansion loop -/

/-- The expansion that begins with the code `start` follows another one. -/
inductive Followed (prefixof : Nat → Nat) (start : Nat) : Nat → Prop where
  | start : Followed prefixof start start
  | next {c : Nat} (followed : Followed prefixof start c) (long : c ≥ 256) :
      Followed prefixof start (prefixof c)

theorem Followed.lt {prefixof : Nat → Nat} {start freeEnt c : Nat}
    (followed : Followed prefixof start c)
    (smaller : ∀ c, 256 ≤ c → c < freeEnt → prefixof c < c) (below : start < freeEnt) :
    c < freeEnt := by
  induction followed with
  | start => exact below
  | next _ long ih => exact Nat.lt_trans (smaller _ long ih) ih

/-- Each code takes one byte and is followed by a smaller one. -/
theorem expand_ends {prefixof : Nat → Nat} {suffixof : Nat → UInt8} {freeEnt : Nat}
    (smaller : ∀ c, 256 ≤ c → c < freeEnt → prefixof c < c) (fuel : Nat) :
    ∀ (code : Nat) (stack : Bytes), code < freeEnt → code < fuel → ∃ stack' finchar,
      expand prefixof suffixof fuel code stack = some (stack', finchar) ∧ stack' ≠ [] ∧
        stack'.length ≤ stack.length + code + 1 := by
  induction fuel with
  | zero =>
    intro code stack _ none
    omega
  | succ fuel ih =>
    intro code stack below enough
    by_cases long : code ≥ 256
    · have less := smaller code long below
      obtain ⟨stack', finchar, ran, filled, short⟩ :=
        ih (prefixof code) (suffixof code :: stack) (by omega) (by omega)
      refine ⟨stack', finchar, ?_, filled, ?_⟩
      · rw [expand, if_pos long]
        exact ran
      · rw [List.length_cons] at short
        omega
    · refine ⟨_, _, by rw [expand, if_neg long], List.cons_ne_nil _ _, ?_⟩
      rw [List.length_cons]
      omega

/-- Where the expansion of a code begins, with what is on the stack then; `none` for a code that
is refused. -/
def Zstate.expansion (zs : Zstate) (code : Nat) : Option (Nat × Bytes) :=
  if code < zs.freeEnt then some (code, zs.stack)
  else if code = zs.freeEnt then zs.oldcode.map fun oldcode => (oldcode, zs.finchar :: zs.stack)
  else none

section

variable {zs zs' : Zstate} {code : Nat}

theorem push_refused (refused : zs.expansion code = none) : zs.push code = .error .einval := by
  by_cases known : code < zs.freeEnt
  · simp [Zstate.expansion, known] at refused
  · have fresh : code ≥ zs.freeEnt := Nat.not_lt.mp known
    cases old : zs.oldcode with
    | none => simp only [Zstate.push, if_pos fresh, old]
    | some oldcode =>
      by_cases next : code = zs.freeEnt
      · simp [Zstate.expansion, next, old] at refused
      · have beyond : code > zs.freeEnt := by omega
        simp only [Zstate.push, if_pos fresh, old, if_pos beyond]

theorem push_spelled {start : Nat} {stack stack' : Bytes} {finchar : UInt8}
    (expands : zs.expansion code = some (start, stack))
    (ran : expand zs.prefixof zs.suffixof (2 ^ maxBits) start stack = some (stack', finchar)) :
    zs.push code = .ok (zs.holding code stack' finchar) := by
  rw [Zstate.expansion] at expands
  split at expands
  next known =>
    have old : ¬ code ≥ zs.freeEnt := Nat.not_le.mpr known
    cases expands
    simp only [Zstate.push, if_neg old, ran, Zstate.holding]
  next fresh =>
    split at expands
    next isNext =>
      obtain ⟨oldcode, old, pair⟩ := Option.map_eq_some_iff.mp expands
      have same : ¬ code > zs.freeEnt := by omega
      cases pair
      simp only [Zstate.push, if_pos (Nat.not_lt.mp fresh), old, if_neg same, ran, Zstate.holding]
    next beyond => cases expands

/-- An expansion begins below `free_ent`, with one byte at most on an empty stack. -/
theorem Sound.expansion (sound : Sound zs) (empty : zs.stack = []) {start : Nat}
    {stack : Bytes} (expands : zs.expansion code = some (start, stack)) :
    start < zs.freeEnt ∧ stack.length ≤ 1 ∧
      (code < zs.freeEnt ∨ zs.oldcode ≠ none ∧ code = zs.freeEnt) := by
  rw [Zstate.expansion] at expands
  split at expands
  next known =>
    cases expands
    rw [empty]
    exact ⟨known, Nat.zero_le _, .inl known⟩
  next fresh =>
    split at expands
    next isNext =>
      obtain ⟨oldcode, old, pair⟩ := Option.map_eq_some_iff.mp expands
      cases pair
      rw [empty]
      exact ⟨sound.oldcode_lt _ old, Nat.le_refl _, .inr ⟨by simp [old], isNext⟩⟩
    next beyond => cases expands

/-- A state with the characters of a code on the stack: the code is in the table or will be its
next entry. -/
structure Spelled (zs : Zstate) : Prop where
  sound : Sound zs
  filled : zs.stack ≠ []
  short : zs.stack.length ≤ deStackSize
  known : zs.incode < zs.freeEnt ∨ zs.oldcode ≠ none ∧ zs.incode = zs.freeEnt
  small : zs.incode < 2 ^ zs.maxbits

/-- The expansion loop ends, with its bytes in `de_stack`. -/
theorem Sound.expands (sound : Sound zs) (empty : zs.stack = []) {start : Nat} {stack : Bytes}
    (expands : zs.expansion code = some (start, stack)) : ∃ stack' finchar,
      expand zs.prefixof zs.suffixof (2 ^ maxBits) start stack = some (stack', finchar) ∧
        stack' ≠ [] ∧ stack'.length ≤ deStackSize := by
  obtain ⟨below, one, -⟩ := sound.expansion empty expands
  have table : (2 : Nat) ^ zs.maxbits ≤ 2 ^ maxBits :=
    Nat.pow_le_pow_right (by decide) sound.maxbits_most
  have full := sound.full
  obtain ⟨stack', finchar, ran, filled, short⟩ :=
    @expand_ends zs.prefixof zs.suffixof zs.freeEnt sound.prefix_lt (2 ^ maxBits) start stack
      below (by omega)
  have room : 2 ^ maxBits + 1 ≤ deStackSize := by decide
  exact ⟨stack', finchar, ran, filled, by omega⟩

/-- A code is refused, or its characters are on the stack. -/
theorem Sound.push (sound : Sound zs) (empty : zs.stack = [])
    (small : code < 2 ^ zs.maxbits) : zs.push code = .error .einval ∨
      ∃ zs', zs.push code = .ok zs' ∧ Spelled zs' ∧ zs'.state = zs.state := by
  cases expands : zs.expansion code with
  | none => exact .inl (push_refused expands)
  | some begin =>
    obtain ⟨start, stack⟩ := begin
    obtain ⟨-, -, known⟩ := sound.expansion empty expands
    obtain ⟨stack', finchar, ran, filled, short⟩ := sound.expands empty expands
    exact .inr ⟨_, push_spelled expands ran, ⟨{ sound with }, filled, short, known, small⟩, rfl⟩

/-- The entry gets the number of the code behind it as its prefix. -/
theorem Sound.enter (sound : Sound zs)
    (known : zs.incode < zs.freeEnt ∨ zs.oldcode ≠ none ∧ zs.incode = zs.freeEnt)
    (small : zs.incode < 2 ^ zs.maxbits) : Sound zs.enter := by
  have full := sound.maxmaxcode
  cases old : zs.oldcode with
  | none =>
    rw [enter_same (.inl old)]
    refine { sound with oldcode_lt := ?_ }
    intro c remembered
    cases remembered
    exact known.resolve_right fun fresh => fresh.1 old
  | some oldcode =>
    by_cases room : zs.freeEnt < zs.maxmaxcode
    · rw [enter_grown old room]
      refine { sound with prefix_lt := ?_, oldcode_lt := ?_, full := ?_, base := ?_, first := ?_ }
      · intro c long below
        have below : c < zs.freeEnt + 1 := below
        show (if c = zs.freeEnt then oldcode else zs.prefixof c) < c
        by_cases new : c = zs.freeEnt
        · rw [if_pos new, new]
          exact sound.oldcode_lt oldcode old
        · rw [if_neg new]
          exact sound.prefix_lt c long (by omega)
      · intro c remembered
        cases remembered
        show zs.incode < zs.freeEnt + 1
        rcases known with known | ⟨-, fresh⟩ <;> omega
      · show zs.freeEnt + 1 ≤ 2 ^ zs.maxbits
        omega
      · show 256 ≤ zs.freeEnt + 1
        exact Nat.le_succ_of_le sound.base
      · intro block
        exact Nat.le_succ_of_le (sound.first block)
    · rw [enter_same (.inr room)]
      refine { sound with oldcode_lt := ?_ }
      intro c remembered
      cases remembered
      show zs.incode < zs.freeEnt
      -- A full table has an entry for every code of `maxbits` bits.
      omega

/-- `CLEAR` leaves the entries above 255 as they are, but none of them is below `free_ent`. -/
theorem Sound.clear (sound : Sound zs) (block : zs.blockCompress = true) : Sound zs.clear := by
  have first := sound.first block
  have table : (2 : Nat) ^ 12 ≤ 2 ^ zs.maxbits :=
    Nat.pow_le_pow_right (by decide) sound.maxbits_least
  refine { sound with
    prefix_lt := ?_, oldcode_lt := ?_, full := ?_, base := (by decide : 256 ≤ 257), first := ?_ }
  · intro c long below
    have below : c < 257 := below
    have byte : ¬ c < 256 := Nat.not_lt.mpr long
    show (if c < 256 then 0 else zs.prefixof c) < c
    rw [if_neg byte]
    exact sound.prefix_lt c long (by omega)
  · intro c none
    cases none
  · show 257 ≤ 2 ^ zs.maxbits
    omega
  · intro _
    exact Nat.le_refl 257

end

/-! ## Sequences of calls -/

/-- Where a sequence of calls stands: between two of them, or in a round of one. -/
inductive Point where
  | between (zs : Zstate)
  | inside (s : Zloop)

/-- How a sequence of calls goes on as long as none returns -1. A request for no bytes and a call
at the end of the file change nothing. -/
inductive Step : Point → Point → Prop where
  | starts {zs zs' : Zstate} {num : Nat} (some : num ≠ 0) (state : zs.state = .start)
      (opens : { zs with state := .middle }.open = (none, zs')) :
      Step (.between zs) (.inside ⟨.top, zs', num, []⟩)
  | resumes {zs : Zstate} {num : Nat} (some : num ≠ 0) (state : zs.state = .middle) :
      Step (.between zs) (.inside ⟨.middle, zs, num, []⟩)
  | round {s s' : Zloop} (turn : zreadBody s = .again s') : Step (.inside s) (.inside s')
  | returns {s : Zloop} {out : Bytes} {zs : Zstate}
      (turn : zreadBody s = .leave (.bytes out, zs)) : Step (.inside s) (.between zs)

/-- The sequence can come here from a newly opened file. -/
def Reached (pre file : Bytes) : Point → Prop :=
  Relation.ReflTransGen Step (.between (zdopen pre file))

/-- What holds at the two places of the loop. -/
def At : Place → Zstate → Prop
  | .top, zs => Sound zs ∧ zs.stack = []
  | .middle, zs => Spelled zs

/-- The invariant of a sequence of calls. -/
def Point.Holds : Point → Prop
  | .between zs =>
    match zs.state with
    | .start => (∀ c, zs.prefixof c = 0) ∧ zs.stack = []
    | .middle => Spelled zs
    | .eof => Sound zs ∧ zs.stack = []
  | .inside s => s.zs.state = .middle ∧ At s.place s.zs

theorem Spelled.between {zs : Zstate} (spelled : Spelled zs) (state : zs.state = .middle) :
    (Point.between zs).Holds := by
  simp only [Point.Holds, state]
  exact spelled

theorem open_sound {zs zs' : Zstate} (zero : ∀ c, zs.prefixof c = 0)
    (opens : zs.open = (none, zs')) :
    Sound zs' ∧ zs'.stack = [] ∧ zs'.state = zs.state := by
  unfold Zstate.open at opens
  generalize fetched : zs.fetch 3 = got at opens
  obtain ⟨header, mid⟩ := got
  have same : mid.prefixof = zs.prefixof ∧ mid.state = zs.state := by
    cases fetched
    exact ⟨rfl, rfl⟩
  simp only at opens
  split at opens
  next bad => cases opens
  next magic =>
    split at opens
    next bad => cases opens
    next sizes =>
      have wide : 12 ≤ (header.getD 2 0).toNat &&& bitMask := by omega
      have narrow : (header.getD 2 0).toNat &&& bitMask ≤ maxBits := by omega
      have table : (2 : Nat) ^ 12 ≤ 2 ^ ((header.getD 2 0).toNat &&& bitMask) :=
        Nat.pow_le_pow_right (by decide) wide
      cases opens
      refine ⟨?_, rfl, same.2⟩
      -- The table starts with the 256 characters alone, so there is no chain to follow yet.
      constructor
      · intro c long below
        show (if c < 256 then 0 else mid.prefixof c) < c
        rw [same.1, zero c, ite_self]
        omega
      · intro c none
        cases none
      · exact Nat.le_refl 9
      · show 9 ≤ (header.getD 2 0).toNat &&& bitMask
        omega
      · show (if _ then 257 else 256) ≤ 2 ^ ((header.getD 2 0).toNat &&& bitMask)
        split <;> omega
      · show 256 ≤ if _ then 257 else 256
        split <;> omega
      · intro block
        exact Nat.le_of_eq (if_pos block).symm
      · exact wide
      · exact narrow
      · rfl
      · intro nine
        have nine : 9 = (header.getD 2 0).toNat &&& bitMask := nine
        omega

/-- What a round does at a state where the invariant holds. -/
theorem zreadBody_holds {s : Zloop} (state : s.zs.state = .middle) (holds : At s.place s.zs) :
    (∃ s', zreadBody s = .again s' ∧ s'.zs.state = .middle ∧ At s'.place s'.zs) ∨
    (∃ out zs, zreadBody s = .leave (.bytes out, zs) ∧ (Point.between zs).Holds) ∨
    ∃ zs, zreadBody s = .leave (.einval, zs) ∧ zs.state = .middle ∧ zs.stack = [] := by
  obtain ⟨place, zs, count, out⟩ := s
  cases place with
  | top =>
    obtain ⟨sound, empty⟩ := holds
    generalize gets : getcode zs = got
    obtain ⟨read, zs'⟩ := got
    obtain ⟨sound', kept, small⟩ := sound.getcode gets
    have state' : zs'.state = .middle := kept.state.trans state
    have empty' : zs'.stack = [] := kept.stack.trans empty
    cases read with
    -- There is no more code, and what is out so far is given.
    | none =>
      refine .inr (.inl ⟨out, { zs' with state := .eof }, ?_, { sound' with }, empty'⟩)
      simp only [zreadBody, gets]
    | some code =>
      by_cases clears : code = clearCode ∧ zs'.blockCompress = true
      · refine .inl ⟨⟨.top, zs'.clear, count, out⟩, ?_, state', sound'.clear clears.2, empty'⟩
        simp only [zreadBody, gets, if_pos clears]
      · rcases sound'.push empty' (small code rfl) with refused | ⟨zs'', pushed, spelled, kept'⟩
        · refine .inr (.inr ⟨{ zs' with incode := code }, ?_, state', empty'⟩)
          simp only [zreadBody, gets, if_neg clears, refused]
        · refine .inl ⟨⟨.middle, zs'', count, out⟩, ?_, kept'.trans state', spelled⟩
          simp only [zreadBody, gets, if_neg clears, pushed]
  | middle =>
    have spelled : Spelled zs := holds
    have state : zs.state = .middle := state
    cases count with
    -- The caller has all that it asked for.
    | zero =>
      exact .inr (.inl ⟨out, zs, rfl, spelled.between state⟩)
    | succ count =>
      cases isStack : zs.stack with
      | nil => exact absurd isStack spelled.filled
      | cons c stack =>
        have short := spelled.short
        rw [isStack, List.length_cons] at short
        by_cases last : stack = []
        · -- The last character: the entry is made, and the stack is empty at `getcode`.
          subst last
          refine .inl ⟨⟨.top, { zs with stack := [] }.enter, count, out ++ [c]⟩, ?_, ?_, ?_, ?_⟩
          · simp only [zreadBody, isStack, if_pos]
          · exact (enter_kept _).2.1.trans state
          · exact @Sound.enter { zs with stack := [] } { spelled.sound with } spelled.known
              spelled.small
          · exact (enter_kept _).1
        · refine .inl ⟨⟨.middle, { zs with stack := stack }, count, out ++ [c]⟩, ?_, state, ?_⟩
          · simp only [zreadBody, isStack, if_neg last]
          · exact
              { sound := { spelled.sound with }
                filled := last
                short := Nat.le_of_succ_le short
                known := spelled.known
                small := spelled.small }

theorem Step.holds {p p' : Point} (step : Step p p') (holds : p.Holds) : p'.Holds := by
  cases step with
  | @starts zs zs' num some state opens =>
    simp only [Point.Holds, state] at holds
    obtain ⟨sound, empty, state'⟩ := @open_sound { zs with state := .middle } zs' holds.1 opens
    exact ⟨state', sound, empty⟩
  | @resumes zs num some state =>
    simp only [Point.Holds, state] at holds
    exact ⟨state, holds⟩
  | round turn =>
    rcases zreadBody_holds holds.1 holds.2 with ⟨s', again, state, at'⟩ | ⟨_, _, leaves, _⟩ |
      ⟨_, leaves, _⟩
    · rw [turn] at again
      cases again
      exact ⟨state, at'⟩
    · rw [turn] at leaves
      cases leaves
    · rw [turn] at leaves
      cases leaves
  | returns turn =>
    rcases zreadBody_holds holds.1 holds.2 with ⟨s', again, _⟩ | ⟨_, _, leaves, between⟩ |
      ⟨_, leaves, _⟩
    · rw [turn] at again
      cases again
    · rw [turn] at leaves
      cases leaves
      exact between
    · rw [turn] at leaves
      cases leaves

theorem Reached.holds {pre file : Bytes} {p : Point} (reached : Reached pre file p) : p.Holds := by
  induction reached with
  | refl => exact ⟨fun _ => rfl, rfl⟩
  | tail _ step ih => exact step.holds ih

/-! ## Safety -/

/-- The bounds of a state that has a table. -/
structure Zstate.Safe (zs : Zstate) : Prop where
  prefix_lt : ∀ c, 256 ≤ c → c < zs.freeEnt → zs.prefixof c < c
  oldcode_lt : ∀ c, zs.oldcode = some c → c < zs.freeEnt
  width : 9 ≤ zs.nBits ∧ zs.nBits ≤ zs.maxbits
  full : zs.freeEnt ≤ 2 ^ zs.maxbits
  stack : zs.stack.length ≤ deStackSize

/-- The expansion of `code` looks at entries of the table only, ends, and stays in `de_stack`.
The loop does nothing but push, so that the stack it ends with is the largest. -/
structure Zstate.Expands (zs : Zstate) (code : Nat) : Prop where
  followed : ∀ start stack, zs.expansion code = some (start, stack) →
    ∀ c, Followed zs.prefixof start c → c < zs.freeEnt
  ends : ∀ start stack, zs.expansion code = some (start, stack) → ∃ stack' finchar,
    expand zs.prefixof zs.suffixof (2 ^ maxBits) start stack = some (stack', finchar) ∧
      zs.push code = .ok (zs.holding code stack' finchar) ∧ stack'.length ≤ deStackSize
  refused : zs.expansion code = none → zs.push code = .error .einval

/-- Before the first call there is no table. In a call that stands at `getcode`, the bounds hold
behind `getcode` too, and its code can be expanded. -/
def Point.Safe : Point → Prop
  | .between zs => zs.state = .start ∨ zs.Safe
  | .inside s => s.zs.Safe ∧ (s.place = .top → ∀ read zs, getcode s.zs = (read, zs) →
      zs.Safe ∧ ∀ code, read = some code → ¬ (code = clearCode ∧ zs.blockCompress = true) →
        zs.Expands code)

theorem Sound.safe {zs : Zstate} (sound : Sound zs) (short : zs.stack.length ≤ deStackSize) :
    zs.Safe :=
  ⟨sound.prefix_lt, sound.oldcode_lt, ⟨sound.least, sound.most⟩, sound.full, short⟩

theorem Sound.safe_empty {zs : Zstate} (sound : Sound zs) (empty : zs.stack = []) : zs.Safe := by
  refine sound.safe ?_
  rw [empty]
  exact Nat.zero_le _

theorem Sound.expands_code {zs : Zstate} (sound : Sound zs) (empty : zs.stack = []) (code : Nat) :
    zs.Expands code where
  followed start stack expands c followed :=
    followed.lt sound.prefix_lt (sound.expansion empty expands).1
  ends start stack expands := by
    obtain ⟨stack', finchar, ran, -, short⟩ := sound.expands empty expands
    exact ⟨stack', finchar, ran, push_spelled expands ran, short⟩
  refused := push_refused

/-- Whatever the bytes of the file are, the table, the codes and the stack stay in their bounds
up to the first call that returns -1. -/
theorem zread_safe (pre file : Bytes) (p : Point) (reached : Reached pre file p) : p.Safe := by
  have holds := reached.holds
  cases p with
  | between zs =>
    cases state : zs.state with
    | start => exact .inl state
    | middle =>
      simp only [Point.Holds, state] at holds
      exact .inr (holds.sound.safe holds.short)
    | eof =>
      simp only [Point.Holds, state] at holds
      exact .inr (holds.1.safe_empty holds.2)
  | inside s =>
    obtain ⟨place, zs, count, out⟩ := s
    cases place with
    | top =>
      obtain ⟨-, sound, empty⟩ := holds
      refine ⟨sound.safe_empty empty, ?_⟩
      intro _ read zs' gets
      obtain ⟨sound', kept, -⟩ := sound.getcode gets
      have empty' : zs'.stack = [] := kept.stack.trans empty
      exact ⟨sound'.safe_empty empty', fun code _ _ => sound'.expands_code empty' code⟩
    | middle =>
      have spelled : Spelled zs := holds.2
      exact ⟨spelled.sound.safe spelled.short, fun top => nomatch top⟩

/-- A code for the entry that it makes itself, with one of its two characters put out. -/
theorem zread_safe_two : ∃ zs, zs.stack = [0x41] ∧ (Point.between zs).Safe := by
  have reached : ∃ zs, Reached [0x1f, 0x9d] [0x8c, 0x41, 0x02, 0x02] (.between zs) ∧
      zs.stack = [0x41] :=
    ⟨_, ((((((Relation.ReflTransGen.refl.tail (.starts (Nat.succ_ne_zero 1) rfl rfl)).tail
      (.round rfl)).tail (.round rfl)).tail (.round rfl)).tail (.round rfl)).tail
      (.returns rfl)), rfl⟩
  obtain ⟨zs, reached, stack⟩ := reached
  exact ⟨zs, stack, zread_safe _ _ _ reached⟩

end CheriGzip.Zread
