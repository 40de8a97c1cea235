import CheriGzip.Gzip.GetcodeCorrect

/-!
# zread decodes .Z files

The tables spell the strings of the dictionary, and a call goes on where the one before stopped:
what it returns and what is still to come make the same bytes, however many are asked for.
-/
namespace CheriGzip.Zread

open Loop Lzw

variable {p : Params}

/-! ## The tables -/

/-- The tables hold the strings of the dictionary. -/
structure Spells (p : Params) (zs : Zstate) (d : Dict) : Prop where
  maxbits : zs.maxbits = p.maxbits
  maxmaxcode : zs.maxmaxcode = 2 ^ p.maxbits
  blockCompress : zs.blockCompress = p.block
  freeEnt : zs.freeEnt = d.next p
  bytes : ∀ c, c < 256 → zs.suffixof c = UInt8.ofNat c
  entries : ∀ i s, d.table[i]? = some s → ∃ q, s = q ++ [zs.suffixof (p.first + i)] ∧
    zs.prefixof (p.first + i) < p.first + i ∧
    spell p d.table (zs.prefixof (p.first + i)) = some q
  first : d.prev = none → zs.oldcode = none
  prev : ∀ s, d.prev = some s → ∃ oldcode, zs.oldcode = some oldcode ∧
    spell p d.table oldcode = some s ∧ s.head? = some zs.finchar

theorem Spells.kept {zs zs' : Zstate} {d : Dict} (spells : Spells p zs d) (kept : Kept zs zs') :
    Spells p zs' d where
  maxbits := kept.maxbits.trans spells.maxbits
  maxmaxcode := kept.maxmaxcode.trans spells.maxmaxcode
  blockCompress := kept.blockCompress.trans spells.blockCompress
  freeEnt := kept.freeEnt.trans spells.freeEnt
  bytes := by
    rw [kept.suffixof]
    exact spells.bytes
  entries := by
    rw [kept.suffixof, kept.prefixof]
    exact spells.entries
  first := by
    rw [kept.oldcode]
    exact spells.first
  prev := by
    rw [kept.oldcode, kept.finchar]
    exact spells.prev

/-- The characters of a code that is in the table, put on the stack. -/
theorem Spells.expand {zs : Zstate} {d : Dict} (spells : Spells p zs d) {code : Nat} {s : Bytes}
    (spelled : spell p d.table code = some s) {fuel : Nat} (enough : code < fuel) (stack : Bytes) :
    ∃ c, s.head? = some c ∧
      expand zs.prefixof zs.suffixof fuel code stack = some (s ++ stack, c) := by
  -- Induction on the code: the code of the prefix is smaller.
  induction code using Nat.strongRecOn generalizing s fuel stack with
  | _ code ih =>
    obtain ⟨fuel, rfl⟩ : ∃ k, fuel = k + 1 := ⟨fuel - 1, by omega⟩
    rcases Nat.lt_or_ge code 256 with byte | large
    · have last : ¬ code ≥ 256 := by omega
      rw [spell_byte byte, Option.some.injEq] at spelled
      refine ⟨zs.suffixof code, ?_, ?_⟩
      · rw [← spelled, spells.bytes code byte]
        rfl
      · rw [Zread.expand, if_neg last, ← spelled, spells.bytes code byte]
        rfl
    · obtain ⟨above, entry⟩ := (spell_entry large).mp spelled
      obtain ⟨q, whole, smaller, before⟩ := spells.entries _ _ entry
      have place : p.first + (code - p.first) = code := by omega
      rw [place] at whole smaller before
      obtain ⟨c, head, ran⟩ := ih _ smaller before (show _ < fuel by omega) (zs.suffixof code :: stack)
      refine ⟨c, ?_, ?_⟩
      · rw [whole, List.head?_append, head]
        rfl
      · rw [Zread.expand, if_pos large, ran, whole, List.append_assoc]
        rfl

theorem Spells.room {zs : Zstate} {d : Dict} (_spells : Spells p zs d) (fits : d.Fits p) :
    d.next p ≤ 2 ^ maxBits := by
  have most : 2 ^ p.maxbits ≤ 2 ^ maxBits := Nat.pow_le_pow_right (by omega) p.most
  exact Nat.le_trans fits.room (Nat.le_trans (p.maxcode_le fits.most) most)

/-- The state with characters of a code on the stack. -/
def Zstate.holding (zs : Zstate) (code : Nat) (s : Bytes) (finchar : UInt8) : Zstate :=
  { zs with incode := code, stack := s, finchar := finchar }

/-- A code of the stream puts its string on the stack. -/
theorem push_string {zs : Zstate} {d : Dict} {code : Nat} {s : Bytes} (spells : Spells p zs d)
    (fits : d.Fits p) (empty : zs.stack = []) (string : d.string p code = some s) :
    ∃ c, s.head? = some c ∧ zs.push code = .ok (zs.holding code s c) := by
  have room := spells.room fits
  rcases Dict.string_cases string with spelled | ⟨next, -, prev, before, whole⟩
  · have below : code < d.next p := spell_lt spelled
    have known : ¬ code ≥ zs.freeEnt := by
      rw [spells.freeEnt]
      omega
    obtain ⟨c, head, ran⟩ := spells.expand spelled (Nat.lt_of_lt_of_le below room) []
    rw [List.append_nil] at ran
    refine ⟨c, head, ?_⟩
    simp only [Zstate.push, if_neg known, empty, ran, Zstate.holding]
  · obtain ⟨oldcode, old, spelled, head⟩ := spells.prev prev before
    have below : oldcode < d.next p := spell_lt spelled
    have fresh : code ≥ zs.freeEnt := by
      rw [spells.freeEnt]
      omega
    have same : ¬ code > zs.freeEnt := by
      rw [spells.freeEnt]
      omega
    obtain ⟨c, first, ran⟩ :=
      spells.expand spelled (Nat.lt_of_lt_of_le below room) [zs.finchar]
    have isChar : c = zs.finchar := Option.some.inj (first.symm.trans head)
    have one : prev.take 1 = [zs.finchar] := by
      rw [List.take_one, head]
      rfl
    rw [one] at whole
    refine ⟨c, ?_, ?_⟩
    · rw [whole, List.head?_append, first]
      rfl
    · simp only [Zstate.push, if_pos fresh, old, if_neg same, empty, ran, whole, Zstate.holding]

/-- The string of a code is in the table behind it, also one that was not there before it. -/
theorem spell_after {d : Dict} {code : Nat} {s : Bytes} (string : d.string p code = some s) :
    spell p (d.after p s).table code = some s := by
  show spell p (d.grow p s) code = some s
  rcases Dict.string_cases string with spelled | ⟨next, small, prev, before, whole⟩
  · rcases Dict.grow_cases p d s with ⟨prev, -, -, more⟩ | ⟨-, same⟩
    · rw [more]
      exact spell_append spelled
    · rwa [same]
  · rcases Dict.grow_cases p d s with ⟨prev', before', -, more⟩ | ⟨none | full, -⟩
    · have isPrev : prev' = prev := Option.some.inj (before'.symm.trans before)
      have front : s.take 1 = prev.take 1 := by
        rw [whole]
        cases prev with
        | nil => rfl
        | cons b bs => rfl
      rw [more, isPrev, front, ← whole, next]
      exact spell_next s
    · rw [none] at before
      cases before
    · rw [next] at small
      exact absurd small full

theorem enter_grown {zs : Zstate} {oldcode : Nat} (old : zs.oldcode = some oldcode)
    (room : zs.freeEnt < zs.maxmaxcode) :
    zs.enter = { zs with
      prefixof := fun i => if i = zs.freeEnt then oldcode else zs.prefixof i
      suffixof := fun i => if i = zs.freeEnt then zs.finchar else zs.suffixof i
      freeEnt := zs.freeEnt + 1
      oldcode := some zs.incode } := by
  simp only [Zstate.enter, old, if_pos room]

theorem enter_same {zs : Zstate} (same : zs.oldcode = none ∨ ¬ zs.freeEnt < zs.maxmaxcode) :
    zs.enter = { zs with oldcode := some zs.incode } := by
  rcases same with none | full
  · simp only [Zstate.enter, none]
  · cases old : zs.oldcode with
    | none => simp only [Zstate.enter, old]
    | some oldcode => simp only [Zstate.enter, old, if_neg full]

/-- Behind a string the tables hold what the dictionary holds. -/
theorem Spells.enter {zs : Zstate} {d : Dict} {code : Nat} {s : Bytes} {c : UInt8}
    (spells : Spells p zs d) (string : d.string p code = some s) (head : s.head? = some c) :
    Spells p (zs.holding code [] c).enter (d.after p s) := by
  have known := spell_after string
  have free : (zs.holding code [] c).freeEnt = d.next p := spells.freeEnt
  have one : s.take 1 = [c] := by
    rw [List.take_one, head]
    rfl
  rcases Dict.grow_cases p d s with ⟨prev, before, room, more⟩ | ⟨full, same⟩
  · -- An entry is made: the string before this one and the first character of this one.
    obtain ⟨oldcode, old, spelled, -⟩ := spells.prev prev before
    have below : oldcode < d.next p := spell_lt spelled
    have room' : (zs.holding code [] c).freeEnt < (zs.holding code [] c).maxmaxcode := by
      rw [free]
      show d.next p < zs.maxmaxcode
      rwa [spells.maxmaxcode]
    have old' : (zs.holding code [] c).oldcode = some oldcode := old
    rw [enter_grown old' room']
    rw [one] at more
    have table : (d.after p s).table = d.table ++ [prev ++ [c]] := more
    constructor
    · exact spells.maxbits
    · exact spells.maxmaxcode
    · exact spells.blockCompress
    · show zs.freeEnt + 1 = p.first + (d.after p s).table.length
      rw [table, spells.freeEnt, List.length_append]
      rfl
    · intro i byte
      have first := p.first_le
      have other : ¬ i = (zs.holding code [] c).freeEnt := by
        rw [free, Dict.next]
        omega
      simp only [if_neg other]
      exact spells.bytes i byte
    · intro i s' entry
      rw [table] at entry ⊢
      rcases Nat.lt_or_ge i d.table.length with inside | last
      · -- The entries that were there are below the new one, and spell what they did.
        have other : ¬ p.first + i = (zs.holding code [] c).freeEnt := by
          rw [free, Dict.next]
          omega
        rw [List.getElem?_append_left inside] at entry
        obtain ⟨q, whole, smaller, spelled'⟩ := spells.entries i s' entry
        simp only [if_neg other]
        exact ⟨q, whole, smaller, spell_append spelled'⟩
      · -- The new entry spells the string that was before.
        have isLast : i = d.table.length := by
          have inside := (List.getElem?_eq_some_iff.mp entry).1
          rw [List.length_append, List.length_singleton] at inside
          omega
        have new : p.first + i = (zs.holding code [] c).freeEnt := by
          rw [free, Dict.next, isLast]
        rw [isLast, List.getElem?_concat_length, Option.some.injEq] at entry
        simp only [if_pos new]
        refine ⟨prev, entry.symm, ?_, spell_append spelled⟩
        rw [isLast]
        exact below
    · intro none
      cases none
    · intro s' isLast
      cases isLast
      exact ⟨code, rfl, known, head⟩
  · -- No entry is made: it is the first code, or the table is full.
    have nothing : (zs.holding code [] c).oldcode = none ∨
        ¬ (zs.holding code [] c).freeEnt < (zs.holding code [] c).maxmaxcode := by
      rw [free]
      show zs.oldcode = none ∨ ¬ d.next p < zs.maxmaxcode
      rcases full with none | full
      · exact .inl (spells.first none)
      · exact .inr (by rwa [spells.maxmaxcode])
    rw [enter_same nothing]
    have table : (d.after p s).table = d.table := same
    constructor
    · exact spells.maxbits
    · exact spells.maxmaxcode
    · exact spells.blockCompress
    · show zs.freeEnt = p.first + (d.after p s).table.length
      rw [table, spells.freeEnt, Dict.next]
    · exact spells.bytes
    · rw [table]
      exact spells.entries
    · intro none
      cases none
    · intro s' isLast
      cases isLast
      exact ⟨code, rfl, known, head⟩

theorem Spells.clear {zs : Zstate} {d : Dict} (spells : Spells p zs d) (block : p.block = true) :
    Spells p zs.clear .start where
  maxbits := spells.maxbits
  maxmaxcode := spells.maxmaxcode
  blockCompress := spells.blockCompress
  freeEnt := by
    show 257 = p.first + 0
    rw [Params.first, if_pos block]
  bytes := spells.bytes
  entries := by
    intro i s entry
    cases entry
  first _ := rfl
  prev := by
    intro s none
    cases none

/-! ## From code to code -/

/-- The decoder before a code of the stream. -/
structure Ready (p : Params) (zs : Zstate) (d : Dict) (k : Nat) (bits : List Bool) : Prop where
  stack : zs.stack = []
  state : zs.state = .middle
  spells : Spells p zs d
  fits : d.Fits p
  reader : Reader zs (p.maxcode d.bits) d.bits k bits

/-- The decoder between a code and the next one; `n` is the size of the code before. -/
structure Behind (p : Params) (zs : Zstate) (d : Dict) (n k : Nat) (bits : List Bool) : Prop where
  stack : zs.stack = []
  state : zs.state = .middle
  spells : Spells p zs d
  fits : d.Fits p
  least : 9 ≤ n
  clear : zs.clearFlg = false
  nBits : zs.nBits = n
  maxcode : zs.maxcode = p.maxcode n
  group : ∃ group stale, Within zs n (k + 1) bits group stale

variable {zs : Zstate} {d : Dict} {n k : Nat} {bits pad : List Bool} {s : Bytes}

theorem Reader.inside {maxcode : Nat} (reader : Reader zs maxcode n k bits) : k < 8 := by
  cases reader with
  | within inside => exact inside
  | due => decide

theorem Behind.same (behind : Behind p zs d n k bits) (inside : k < 8) (same : d.bits = n) :
    Ready p zs d ((k + 1) % 8) bits := by
  obtain ⟨group, stale, here⟩ := behind.group
  have room := behind.fits.room
  have fits : ¬ zs.freeEnt > zs.maxcode := by
    rw [behind.spells.freeEnt, behind.maxcode, ← same]
    omega
  subst same
  exact ⟨behind.stack, behind.state, behind.spells, behind.fits,
    here.reader inside behind.least behind.clear fits behind.nBits behind.maxcode⟩

/-- The group of the smaller codes is left, whatever is still in it. -/
theorem Behind.larger (behind : Behind p zs d n k pad) (larger : d.bits = n + 1)
    (beyond : d.next p > p.maxcode n) (left : lsbBits zs.rest = bits) : Ready p zs d 0 bits := by
  have large : zs.freeEnt > zs.maxcode := by
    rw [behind.spells.freeEnt, behind.maxcode]
    exact beyond
  obtain ⟨nBits, maxcode⟩ := resize_grown behind.clear large
  refine ⟨behind.stack, behind.state, behind.spells, behind.fits, .due (.inr (.inr large)) ?_ ?_ left⟩
  · rw [nBits, behind.nBits, larger]
  · rw [maxcode, behind.nBits, behind.spells.maxbits, behind.spells.maxmaxcode, larger]
    rfl

/-- The codes grow when the table has outgrown them. -/
theorem Dict.after_larger (larger : (d.after p s).bits = d.bits + 1) :
    (d.after p s).next p > p.maxcode d.bits := by
  by_cases large : p.first + (d.grow p s).length > p.maxcode d.bits
  · exact large
  · have same : (d.after p s).bits = d.bits := if_neg large
    omega

theorem enter_kept (zs : Zstate) : zs.enter.stack = zs.stack ∧ zs.enter.state = zs.state ∧
    zs.enter.clearFlg = zs.clearFlg ∧ zs.enter.nBits = zs.nBits ∧
    zs.enter.maxcode = zs.maxcode ∧ zs.enter.gbuf = zs.gbuf ∧ zs.enter.size = zs.size ∧
    zs.enter.roffset = zs.roffset ∧ zs.enter.rest = zs.rest := by
  cases old : zs.oldcode with
  | none =>
    rw [enter_same (.inl old)]
    exact ⟨rfl, rfl, rfl, rfl, rfl, rfl, rfl, rfl, rfl⟩
  | some oldcode =>
    by_cases room : zs.freeEnt < zs.maxmaxcode
    · rw [enter_grown old room]
      exact ⟨rfl, rfl, rfl, rfl, rfl, rfl, rfl, rfl, rfl⟩
    · rw [enter_same (.inr room)]
      exact ⟨rfl, rfl, rfl, rfl, rfl, rfl, rfl, rfl, rfl⟩

/-- A code of the stream: its string is on the stack, and behind it comes the next code. -/
theorem Ready.code {code : Nat} (ready : Ready p zs d k (lsb d.bits code ++ bits))
    (plain : ¬ (p.block = true ∧ code = 256)) (string : d.string p code = some s) :
    ∃ (zs' : Zstate) (c : UInt8), s.head? = some c ∧ zs'.state = .middle ∧
      (∀ count out, zreadBody ⟨.top, zs, count, out⟩ =
        .again ⟨.middle, zs'.holding code s c, count, out⟩) ∧
      Behind p (zs'.holding code [] c).enter (d.after p s) d.bits k bits := by
  have fits := ready.fits
  have most : d.bits ≤ 16 := Nat.le_trans fits.most p.most
  obtain ⟨zs', group, stale, got, kept, clear, nBits, maxcode, here⟩ :=
    getcode_some ready.reader fits.least most (fits.small string)
  have spells := ready.spells.kept kept
  have state : zs'.state = .middle := kept.state.trans ready.state
  obtain ⟨c, head, pushed⟩ := push_string spells fits (kept.stack.trans ready.stack) string
  refine ⟨zs', c, head, state, ?_, ?_⟩
  · intro count out
    have notClear : ¬ (code = clearCode ∧ zs'.blockCompress = true) := by
      rintro ⟨isClear, block⟩
      exact plain ⟨spells.blockCompress ▸ block, isClear⟩
    simp only [zreadBody, got, if_neg notClear, pushed]
  · obtain ⟨stack, state', clear', nBits', maxcode', gbuf, size, roffset, rest⟩ :=
      enter_kept (zs'.holding code [] c)
    refine ⟨stack, state'.trans state, spells.enter string head, fits.after s, fits.least,
      clear'.trans clear, nBits'.trans nBits, maxcode'.trans maxcode, group, stale, ?_⟩
    constructor
    · exact gbuf.trans here.gbuf
    · exact size.trans here.size
    · exact roffset.trans here.roffset
    · exact here.inside
    · rw [rest]
      exact here.bits
    · rw [rest]
      exact here.full

/-- `CLEAR`. -/
theorem Ready.clear (ready : Ready p zs d k (lsb d.bits 256 ++ (pad ++ bits)))
    (block : p.block = true) (filled : pad.length = (7 - k) * d.bits) :
    ∃ zs', (∀ count out, zreadBody ⟨.top, zs, count, out⟩ = .again ⟨.top, zs', count, out⟩) ∧
      Ready p zs' .start 0 bits := by
  have fits := ready.fits
  have inside := ready.reader.inside
  have most : d.bits ≤ 16 := Nat.le_trans fits.most p.most
  have small : 256 < 2 ^ d.bits := by
    have power : 2 ^ 9 ≤ 2 ^ d.bits := Nat.pow_le_pow_right (by omega) fits.least
    omega
  obtain ⟨zs', group, stale, got, kept, -, -, -, here⟩ :=
    getcode_some ready.reader fits.least most small
  have spells := ready.spells.kept kept
  have cleared : zs'.clear.clearFlg = true := rfl
  obtain ⟨nBits, maxcode⟩ := resize_cleared cleared
  have least := p.least
  have nine : ¬ 9 = p.maxbits := by omega
  refine ⟨zs'.clear, ?_, kept.stack.trans ready.stack, kept.state.trans ready.state,
    spells.clear block, .start, .due (.inl cleared) nBits ?_ (here.skip inside filled)⟩
  · intro count out
    have isClear : 256 = clearCode ∧ zs'.blockCompress = true :=
      ⟨rfl, spells.blockCompress.trans block⟩
    simp only [zreadBody, got, if_pos isClear]
  · rw [maxcode]
    exact (if_neg nine).symm

/-- The end of the stream. -/
theorem Ready.done (ready : Ready p zs d k pad) (short : pad.length < 8)
    (whole : (k * d.bits + pad.length) % 8 = 0) :
    ∃ zs' : Zstate, ∀ count out, zreadBody ⟨.top, zs, count, out⟩ =
      .leave (.bytes out, { zs' with state := .eof }) := by
  obtain ⟨zs', ended⟩ := getcode_none ready.reader ready.fits.least short whole
  refine ⟨zs', ?_⟩
  intro count out
  simp only [zreadBody, ended]

/-! ## Calls -/

/-- The state with these characters left on the stack. -/
def Zstate.holds (zs : Zstate) (stack : Bytes) : Zstate := { zs with stack := stack }

/-- The decoder between two calls, with the bytes still to come. -/
inductive Pending (p : Params) : Zstate → Bytes → Prop where
  | start {zs : Zstate} {codes : List Nat} {out : Bytes} (state : zs.state = .start)
      (clear : zs.clearFlg = false) (empty : (zs.roffset : Int) ≥ zs.size)
      (file : File p codes zs.rest out) : Pending p zs out
  | middle {zs : Zstate} {d : Dict} {k : Nat} {codes : List Nat} {bits : List Bool} {rest : Bytes}
      (state : zs.state = .middle) (stack : zs.stack ≠ []) (ready : Ready p (zs.holds []).enter d k bits)
      (stream : Stream p d k codes bits rest) : Pending p zs (zs.stack ++ rest)
  | eof {zs : Zstate} (state : zs.state = .eof) : Pending p zs []

/-- From this place on, a call returns the bytes to come as far as they are asked for. -/
def Serves (p : Params) (place : Place) (zs : Zstate) (out : Bytes) : Prop :=
  ∀ count got, ∃ zs',
    Leaves zreadBody ⟨place, zs, count, got⟩ (.bytes (got ++ out.take count), zs') ∧
      Pending p zs' (out.drop count)

theorem Serves.again {place place' : Place} {zs zs' : Zstate} {out : Bytes}
    (turn : ∀ count got, zreadBody ⟨place, zs, count, got⟩ = .again ⟨place', zs', count, got⟩)
    (serves : Serves p place' zs' out) : Serves p place zs out := by
  intro count got
  obtain ⟨zs'', left, pending⟩ := serves count got
  exact ⟨zs'', (leaves_again (turn count got)).mpr left, pending⟩

/-- One byte of the stack goes out. -/
theorem middle_turn {c : UInt8} (isStack : zs.stack = c :: s) (count : Nat) (got : Bytes) :
    zreadBody ⟨.middle, zs, count + 1, got⟩ =
      if s = [] then .again ⟨.top, (zs.holds []).enter, count, got ++ [c]⟩
      else .again ⟨.middle, zs.holds s, count, got ++ [c]⟩ := by
  cases s with
  | nil => simp only [zreadBody, isStack, if_true, Zstate.holds]
  | cons c' s => simp only [zreadBody, isStack, List.cons_ne_nil, if_false, Zstate.holds]

/-- The bytes on the stack go out until the call has its number of bytes. -/
theorem serves_middle {codes : List Nat} {rest : Bytes} (state : zs.state = .middle)
    (stack : zs.stack ≠ []) (ready : Ready p (zs.holds []).enter d k bits)
    (stream : Stream p d k codes bits rest) (top : Serves p .top (zs.holds []).enter rest) :
    Serves p .middle zs (zs.stack ++ rest) := by
  generalize isStack : zs.stack = s at stack
  induction s generalizing zs with
  | nil => exact absurd rfl stack
  | cons c s ih =>
    intro count got
    cases count with
    | zero =>
      -- The call is over, and the bytes of the stack are for the next one.
      have turn : zreadBody ⟨.middle, zs, 0, got⟩ = .leave (.bytes got, zs) := rfl
      refine ⟨zs, .of_leave ?_, ?_⟩
      · rw [turn, List.take_zero, List.append_nil]
      · rw [List.drop_zero, ← isStack]
        exact .middle state (isStack ▸ stack) ready stream
    | succ count =>
      have turn := middle_turn isStack count got
      have joined (out : Bytes) :
          got ++ [c] ++ out.take count = got ++ (c :: out).take (count + 1) := by
        rw [List.append_assoc, List.take_succ_cons]
        rfl
      cases s with
      | nil =>
        obtain ⟨zs', left, pending⟩ := top count (got ++ [c])
        rw [joined] at left
        exact ⟨zs', (leaves_again (turn.trans (if_pos rfl))).mpr left, pending⟩
      | cons c' s =>
        have more : c' :: s ≠ [] := List.cons_ne_nil c' s
        have served : Serves p .middle (zs.holds (c' :: s)) (c' :: s ++ rest) :=
          ih state ready top rfl more
        obtain ⟨zs', left, pending⟩ := served count (got ++ [c])
        rw [joined] at left
        exact ⟨zs', (leaves_again (turn.trans (if_neg more))).mpr left, pending⟩

/-- A code of the stream, when what comes behind it is served. -/
theorem serves_code {codes : List Nat} {code : Nat} {rest : Bytes} {c : UInt8} {zs' : Zstate}
    (head : s.head? = some c) (state : zs'.state = .middle)
    (turn : ∀ count out, zreadBody ⟨.top, zs, count, out⟩ =
      .again ⟨.middle, zs'.holding code s c, count, out⟩)
    (ready : Ready p (zs'.holding code [] c).enter d k bits)
    (stream : Stream p d k codes bits rest)
    (top : Serves p .top (zs'.holding code [] c).enter rest) : Serves p .top zs (s ++ rest) := by
  have stack : (zs'.holding code s c).stack ≠ [] := by
    intro empty
    have none : s = [] := empty
    rw [none] at head
    cases head
  have middle : Serves p .middle (zs'.holding code s c) (s ++ rest) :=
    serves_middle state stack ready stream top
  exact middle.again turn

/-- At the end of the stream nothing is left. -/
theorem serves_done (ready : Ready p zs d k pad) (short : pad.length < 8)
    (whole : (k * d.bits + pad.length) % 8 = 0) : Serves p .top zs [] := by
  obtain ⟨zs', turn⟩ := ready.done short whole
  intro count got
  refine ⟨{ zs' with state := .eof }, .of_leave ?_, ?_⟩
  · rw [turn, List.take_nil, List.append_nil]
  · rw [List.drop_nil]
    exact .eof rfl

/-- From a code of the stream on, a call returns what the stream decodes to. -/
theorem serves_top {codes : List Nat} {out : Bytes} (stream : Stream p d k codes bits out)
    (ready : Ready p zs d k bits) : Serves p .top zs out := by
  induction stream generalizing zs with
  | done pad short whole => exact serves_done ready short whole
  | code plain string same rest ih =>
    have inside := ready.reader.inside
    obtain ⟨zs', c, head, state, turn, behind⟩ := ready.code plain string
    have next := behind.same inside same
    exact serves_code head state turn next rest (ih next)
  | grow plain string larger pad filled rest ih =>
    have inside := ready.reader.inside
    obtain ⟨zs', c, head, state, turn, behind⟩ := ready.code plain string
    obtain ⟨group, stale, here⟩ := behind.group
    have next := behind.larger larger (Dict.after_larger larger) (here.skip inside filled)
    exact serves_code head state turn next rest (ih next)
  | @cut d k code s plain string larger pad short whole =>
    -- The larger codes have a group of their own, but there is none.
    obtain ⟨zs', c, head, state, turn, behind⟩ := ready.code plain string
    obtain ⟨group, stale, here⟩ := behind.group
    obtain ⟨none, -⟩ := here.ended behind.least short
    have left : lsbBits (zs'.holding code [] c).enter.rest = [] := by
      rw [none]
      rfl
    have next := behind.larger larger (Dict.after_larger larger) left
    have ended : (0 * (d.after p s).bits + 0) % 8 = 0 := by
      rw [Nat.zero_mul]
    have served := serves_done next (by decide) ended
    have whole := serves_code head state turn next (.done [] (by decide) ended) served
    rwa [List.append_nil] at whole
  | clear block pad filled rest ih =>
    obtain ⟨zs', turn, next⟩ := ready.clear block filled
    exact (ih next).again turn

/-- What the header says. -/
theorem byte_fields (p : Params) :
    p.byte.toNat &&& bitMask = p.maxbits ∧ decide (p.byte.toNat &&& blockMask ≠ 0) = p.block := by
  have least := p.least
  have most := p.most
  have sizes : p.maxbits = 12 ∨ p.maxbits = 13 ∨ p.maxbits = 14 ∨ p.maxbits = 15 ∨
      p.maxbits = 16 := by omega
  cases block : p.block <;> rcases sizes with size | size | size | size | size <;>
    rw [Params.byte, block, size] <;> decide

/-- The state for the first code. -/
def Zstate.opened (zs : Zstate) (p : Params) : Zstate :=
  { zs with
    total := 0
    maxbits := p.maxbits
    blockCompress := p.block
    maxmaxcode := 2 ^ p.maxbits
    nBits := initBits
    maxcode := maxCode initBits
    prefixof := fun i => if i < 256 then 0 else zs.prefixof i
    suffixof := fun i => if i < 256 then UInt8.ofNat i else zs.suffixof i
    freeEnt := p.first
    oldcode := none
    stack := [] }

theorem open_header (header : zs.rest.take 3 = [0x1f, 0x9d, p.byte]) :
    zs.open = (none, (zs.fetch 3).2.opened p) := by
  have got : (zs.fetch 3).1 = [0x1f, 0x9d, p.byte] := (fetch_fst zs 3).trans header
  obtain ⟨maxbits, block⟩ := byte_fields p
  have least := p.least
  have most := p.most
  have sizes : ¬ (p.maxbits > maxBits ∨ p.maxbits < 12) := by
    unfold maxBits
    omega
  have magic : ¬ ([0x1f, 0x9d, p.byte].length ≠ 3 ∨
      [0x1f, 0x9d, p.byte].take 2 ≠ ([0x1f, 0x9d] : Bytes)) := by
    simp
  have byte : ([0x1f, 0x9d, p.byte] : Bytes).getD 2 0 = p.byte := rfl
  unfold Zstate.open
  simp only [got, if_neg magic, byte, maxbits, block, if_neg sizes]
  rfl

/-- The first call reads the header, and the first group is to be read. -/
theorem open_ready (clear : zs.clearFlg = false) (empty : (zs.roffset : Int) ≥ zs.size)
    (state : zs.state = .middle) (header : zs.rest.take 3 = [0x1f, 0x9d, p.byte]) :
    ∃ zs', zs.open = (none, zs') ∧ Ready p zs' .start 0 (lsbBits (zs.rest.drop 3)) := by
  have first := p.first_le
  have least := p.least
  have fits : ¬ ((zs.fetch 3).2.opened p).freeEnt > ((zs.fetch 3).2.opened p).maxcode := by
    show ¬ p.first > 511
    omega
  have unchanged := @resize_unchanged ((zs.fetch 3).2.opened p) clear fits
  have nine : ¬ 9 = p.maxbits := by omega
  refine ⟨_, open_header header, rfl, state, ?_, .start, .due (.inr (.inl empty)) ?_ ?_ ?_⟩
  · constructor
    · rfl
    · rfl
    · rfl
    · rfl
    · intro c byte
      exact if_pos byte
    · intro i s entry
      cases entry
    · intro none
      rfl
    · intro s none
      cases none
  · rw [unchanged]
    rfl
  · rw [unchanged]
    exact (if_neg nine).symm
  · show lsbBits (zs.fetch 3).2.rest = _
    rw [fetch_rest]

/-- A call returns the next bytes to come. -/
theorem Pending.zread {out : Bytes} (pending : Pending p zs out) (num : Nat) :
    ∃ zs', (∀ r, ZreadCall zs num r ↔ r = (.bytes (out.take num), zs')) ∧
      Pending p zs' (out.drop num) := by
  cases num with
  | zero =>
    refine ⟨zs, ?_, pending⟩
    intro r
    rw [ZreadCall, if_pos rfl, List.take_zero]
  | succ num =>
    have some : ¬ num + 1 = 0 := Nat.succ_ne_zero num
    have loop {place : Place} {zs' : Zstate} {out : Bytes} (serves : Serves p place zs' out)
        (calls : ∀ r, ZreadCall zs (num + 1) r ↔ Leaves zreadBody ⟨place, zs', num + 1, []⟩ r) :
        ∃ zs'', (∀ r, ZreadCall zs (num + 1) r ↔ r = (.bytes (out.take (num + 1)), zs'')) ∧
          Pending p zs'' (out.drop (num + 1)) := by
      obtain ⟨zs'', left, pending⟩ := serves (num + 1) []
      refine ⟨zs'', ?_, pending⟩
      intro r
      rw [calls]
      exact ⟨fun left' => left'.unique left, fun same => same ▸ left⟩
    cases pending with
    | start state clear empty file =>
      obtain ⟨zs', opened, ready⟩ :=
        @open_ready p { zs with state := .middle } clear empty rfl file.header
      refine loop (serves_top file.body ready) ?_
      intro r
      rw [ZreadCall, if_neg some]
      simp only [state, opened]
    | middle state stack ready stream =>
      refine loop (serves_middle state stack ready stream (serves_top stream ready)) ?_
      intro r
      rw [ZreadCall, if_neg some]
      simp only [state]
    | eof state =>
      refine ⟨zs, ?_, .eof state⟩
      intro r
      rw [ZreadCall, if_neg some]
      simp only [state, List.take_nil]

/-- The pieces that calls for so many bytes each take of the bytes to come. -/
def served : Bytes → List Nat → List Bytes
  | _, [] => []
  | out, num :: nums => out.take num :: served (out.drop num) nums

theorem served_length (out : Bytes) (nums : List Nat) : (served out nums).length = nums.length := by
  induction nums generalizing out with
  | nil => rfl
  | cons num nums ih => rw [served, List.length_cons, List.length_cons, ih]

theorem served_flatten (out : Bytes) (nums : List Nat) :
    (served out nums).flatten = out.take nums.sum := by
  induction nums generalizing out with
  | nil => rfl
  | cons num nums ih => rw [served, List.flatten_cons, ih, List.sum_cons, List.take_add]

/-- A piece is short when the requests up to it are for more than there is. -/
theorem served_short {out got : Bytes} {nums : List Nat} {i num : Nat}
    (positive : 0 < num) (request : nums[i]? = some num)
    (piece : (served out nums)[i]? = some got) :
    got.length < num ↔ out.length < (nums.take i).sum + num := by
  induction nums generalizing out i with
  | nil => cases request
  | cons first nums ih =>
    cases i with
    | zero =>
      cases request
      cases piece
      rw [List.length_take, List.take_zero, List.sum_nil]
      omega
    | succ i =>
      rw [List.getElem?_cons_succ] at request
      rw [served, List.getElem?_cons_succ] at piece
      rw [ih request piece, List.length_drop, List.take_succ_cons, List.sum_cons]
      omega

theorem Pending.zreads {out : Bytes} (pending : Pending p zs out) (nums : List Nat)
    (rets : List Ret) : Zreads zs nums rets ↔ rets = (served out nums).map .bytes := by
  induction nums generalizing zs out rets with
  | nil =>
    constructor
    · intro calls
      cases calls
      rfl
    · rintro rfl
      exact .nil zs
  | cons num nums ih =>
    obtain ⟨zs', call, pending'⟩ := pending.zread num
    constructor
    · intro calls
      cases calls with
      | cons first rest =>
        have same := (call _).mp first
        injection same with ret state
        rw [state] at rest
        rw [ret, (ih pending' _).mp rest, served, List.map_cons]
    · rintro rfl
      exact .cons ((call _).mpr rfl) ((ih pending' _).mpr rfl)

/-- A .Z file, some of whose bytes were read before: the calls return what it decodes to piece by
piece, and the first short piece is where it ends. -/
theorem zread_decodes {codes : List Nat} {stream out : Bytes} (file : File p codes stream out)
    (pre rest : Bytes) (split : pre ++ rest = stream) (nums : List Nat)
    (positive : ∀ num ∈ nums, 0 < num) :
    ∃ pieces : List Bytes,
      (∀ rets, Zreads (zdopen pre rest) nums rets ↔ rets = pieces.map .bytes) ∧
      pieces.length = nums.length ∧ pieces.flatten = out.take nums.sum ∧
      ∀ (i num : Nat) (piece : Bytes), nums[i]? = some num → pieces[i]? = some piece →
        (piece.length < num ↔ out.length < (nums.take i).sum + num) := by
  have pending : Pending p (zdopen pre rest) out := by
    subst split
    exact .start rfl rfl (Int.le_refl 0) file
  refine ⟨served out nums, pending.zreads nums, served_length out nums, served_flatten out nums, ?_⟩
  intro i num piece request isPiece
  exact served_short (positive num (List.mem_of_getElem? request)) request isPiece

/-- A file with the code of a string that it puts into the table itself, and a CLEAR code. -/
theorem zread_decodes_clear : ∃ (stream : Bytes) (pieces : List Bytes),
    (∀ rets, Zreads (zdopen (stream.take 2) (stream.drop 2)) [2, 3] rets ↔
      rets = pieces.map .bytes) ∧ pieces.flatten = [0x41, 0x41, 0x41, 0x42] := by
  let p : Params := ⟨12, true, by decide, by decide⟩
  obtain ⟨stream, file⟩ := file_exists_iff.mpr
    (rfl : decodes p .start [0x41, 257, 256, 0x42] = some [0x41, 0x41, 0x41, 0x42])
  obtain ⟨pieces, calls, -, whole, -⟩ :=
    zread_decodes file (stream.take 2) (stream.drop 2) (List.take_append_drop 2 stream) [2, 3]
      (by decide)
  exact ⟨stream, pieces, calls, whole⟩

end CheriGzip.Zread
