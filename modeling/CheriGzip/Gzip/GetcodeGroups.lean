import CheriGzip.Gzip.ZreadSafe
import CheriGzip.Lib.BitField
import Mathlib.Tactic.IntervalCases

/-!
# The groups of getcode

`getcode` reads a group of at most `n_bits` bytes and then takes codes from it. The group is kept
here beside the decoder, as the bytes that were read for it, and the codes that lie in it are
compared with the ones that `getcode` returns. The rest of `zread` may do with the table what it
likes in between.
-/
namespace CheriGzip.Zread

open Loop

/-! ## What is to be returned -/

/-- The bytes read at a refill, the width of their codes, and how many codes are behind. -/
structure Group where
  bytes : Bytes
  width : Nat
  taken : Nat

/-- The next code, if it lies wholly inside the bytes. -/
def Group.next (g : Group) : Option Nat :=
  if (g.taken + 1) * g.width ≤ 8 * g.bytes.length then
    some (bitField (ofLe g.bytes) (g.taken * g.width) g.width)
  else none

/-- The codes get another size. -/
def Zstate.Resizes (zs : Zstate) : Prop := zs.clearFlg = true ∨ zs.freeEnt > zs.maxcode

instance (zs : Zstate) : Decidable zs.Resizes := by
  unfold Zstate.Resizes
  infer_instance

/-- The group for the next code: the same one as long as it has another whole code of this size,
and else the bytes that come next. -/
def Group.current (g : Group) (zs : Zstate) : Group :=
  if zs.Resizes ∨ g.next = none then ⟨zs.rest.take zs.resize.nBits, zs.resize.nBits, 0⟩ else g

/-- The group behind a code. -/
def Group.advance (g : Group) : Group := { g with taken := g.taken + 1 }

/-- Between two calls of `getcode`, `zread` leaves alone what `getcode` goes by, and makes no
entry behind the table. -/
structure Elsewhere (zs zs' : Zstate) : Prop where
  pre : zs'.pre = zs.pre
  file : zs'.file = zs.file
  nBits : zs'.nBits = zs.nBits
  maxbits : zs'.maxbits = zs.maxbits
  maxcode : zs'.maxcode = zs.maxcode
  maxmaxcode : zs'.maxmaxcode = zs.maxmaxcode
  roffset : zs'.roffset = zs.roffset
  size : zs'.size = zs.size
  gbuf : zs'.gbuf = zs.gbuf
  table : zs'.freeEnt ≤ zs'.maxmaxcode

/-- A decoder between two codes, with the group that it is in. -/
inductive Coded (pre file : Bytes) : Zstate → Group → Prop where
  | opened {zs : Zstate} (opens : { zdopen pre file with state := .middle }.open = (none, zs)) :
      Coded pre file zs ⟨[], zs.nBits, 0⟩
  | elsewhere {zs zs' : Zstate} {g : Group} (coded : Coded pre file zs g)
      (other : Elsewhere zs zs') : Coded pre file zs' g
  | getcode {zs : Zstate} {g : Group} (coded : Coded pre file zs g) :
      Coded pre file (getcode zs).2 (g.current zs).advance

/-- `getcode` returns the next code of the group, or -1 where there is no whole one, and reads the
bytes of the next group when it is due. -/
structure GetsExactly (zs : Zstate) (g : Group) : Prop where
  code : (getcode zs).1 = (g.current zs).next
  rest : (getcode zs).2.rest =
    if zs.Resizes ∨ g.next = none then zs.rest.drop (g.current zs).width else zs.rest

/-! ## Codes as bits of the group -/

theorem ofLe_testBit (bs : Bytes) (i : Nat) : (ofLe bs).testBit i = bitAt bs i := by
  induction bs generalizing i with
  | nil => simp [ofLe, bitAt]
  | cons b bs ih =>
    have split : ofLe (b :: bs) = 2 ^ 8 * ofLe bs + b.toNat := Nat.add_comm _ _
    rw [split, Nat.testBit_two_pow_mul_add _ b.toNat_lt, bitAt]
    by_cases first : i < 8
    · rw [if_pos first, Nat.div_eq_of_lt first, Nat.mod_eq_of_lt first, List.getD_cons_zero]
    · have byte : i / 8 = (i - 8) / 8 + 1 := by omega
      have bit : i % 8 = (i - 8) % 8 := by omega
      rw [if_neg first, ih, bitAt, byte, bit, List.getD_cons_succ]

/-- A bit inside the group is not a bit of what is behind it in the buffer. -/
theorem bitAt_append {group stale : Bytes} {i : Nat} (inside : i < 8 * group.length) :
    bitAt (group ++ stale) i = bitAt group i := by
  rw [bitAt, bitAt, List.getD_eq_getElem?_getD, List.getD_eq_getElem?_getD,
    List.getElem?_append_left (by omega)]

theorem gcode_group {group stale : Bytes} {roffset n : Nat} (least : 9 ≤ n) (most : n ≤ 16)
    (inside : roffset + n ≤ 8 * group.length) :
    gcode (group ++ stale) roffset n = bitField (ofLe group) roffset n := by
  apply Nat.eq_of_testBit_eq
  intro i
  rw [gcode_testBit _ _ least most, bitField_testBit, ofLe_testBit]
  by_cases within : i < n
  · rw [bitAt_append (by omega)]
  · simp only [within, decide_false, Bool.false_and]

/-! ## The buffer -/

/-- The buffer holds the group, and `roffset` and `size` stand for what is taken of it. No group is
in the buffer before the first one and at the end of the file. -/
structure InGroup (zs : Zstate) (g : Group) : Prop where
  sized : Sized zs
  width : g.width = zs.nBits
  short : g.bytes.length ≤ g.width
  length : zs.gbuf.length = maxBits
  buffer : ∃ stale, zs.gbuf = g.bytes ++ stale
  place : (g.bytes = [] ∧ zs.size = 0) ∨
    (zs.size = 8 * g.bytes.length - (g.width - 1) ∧ zs.roffset = g.taken * g.width)

section

variable {pre file : Bytes} {zs zs' : Zstate} {g : Group}

theorem Sized.nBits_le (sized : Sized zs) : zs.nBits ≤ maxBits :=
  Nat.le_trans sized.most sized.maxbits_most

/-- The sizes do not depend on what is in the table. -/
theorem Sized.elsewhere (sized : Sized zs) (other : Elsewhere zs zs') : Sized zs' where
  least := other.nBits ▸ sized.least
  most := by
    rw [other.nBits, other.maxbits]
    exact sized.most
  maxbits_least := other.maxbits ▸ sized.maxbits_least
  maxbits_most := other.maxbits ▸ sized.maxbits_most
  full := by
    rw [other.maxbits, ← sized.maxmaxcode, ← other.maxmaxcode]
    exact other.table
  maxmaxcode := by
    rw [other.maxmaxcode, other.maxbits]
    exact sized.maxmaxcode
  maxcode := by
    rw [other.nBits, other.maxcode, other.maxbits]
    exact sized.maxcode

theorem InGroup.elsewhere (within : InGroup zs g) (other : Elsewhere zs zs') : InGroup zs' g where
  sized := within.sized.elsewhere other
  width := within.width.trans other.nBits.symm
  short := within.short
  length := other.gbuf ▸ within.length
  buffer := other.gbuf ▸ within.buffer
  place := by
    rw [other.size, other.roffset]
    exact within.place

/-- `roffset >= size` says that there is no other whole code. -/
theorem InGroup.due (within : InGroup zs g) : zs.Due ↔ zs.Resizes ∨ g.next = none := by
  have least := within.sized.least
  have none : (zs.roffset : Int) ≥ zs.size ↔ g.next = .none := by
    have width := within.width
    have step : (g.taken + 1) * g.width = g.taken * g.width + g.width := Nat.succ_mul _ _
    rw [Group.next]
    rcases within.place with ⟨empty, size⟩ | ⟨size, roffset⟩
    · rw [empty, size, if_neg (by rw [List.length_nil]; omega)]
      exact iff_of_true (by omega) rfl
    · rw [size, roffset]
      by_cases whole : (g.taken + 1) * g.width ≤ 8 * g.bytes.length
      · rw [if_pos whole]
        exact iff_of_false (by omega) (by simp)
      · rw [if_neg whole]
        exact iff_of_true (by omega) rfl
  rw [← none]
  constructor
  · rintro (cleared | past | grown)
    · exact .inl (.inl cleared)
    · exact .inr past
    · exact .inl (.inr grown)
  · rintro ((cleared | grown) | past)
    · exact .inl cleared
    · exact .inr (.inr grown)
    · exact .inr (.inl past)

/-- The header does not go through the buffer. -/
theorem open_buffer {zs zs' : Zstate} (opens : zs.open = (none, zs')) :
    zs'.gbuf = zs.gbuf ∧ zs'.size = zs.size := by
  unfold Zstate.open at opens
  simp only at opens
  split at opens
  · cases opens
  · split at opens
    · cases opens
    · cases opens
      exact ⟨rfl, rfl⟩

theorem resize_gbuf (zs : Zstate) : zs.resize.gbuf = zs.gbuf := by
  have widened : zs.widen.gbuf = zs.gbuf := by
    unfold Zstate.widen
    split <;> rfl
  rw [← widened, Zstate.resize, Zstate.narrow]
  split <;> rfl

/-- A call that reads a group. -/
theorem getcode_due (due : zs.Due) :
    (zs.rest.take zs.resize.nBits = [] ∧
      getcode zs = (none, { (zs.resize.fetch zs.resize.nBits).2 with size := 0 })) ∨
    zs.rest.take zs.resize.nBits ≠ [] ∧
      getcode zs =
        ((zs.resize.fetch zs.resize.nBits).2.load (zs.rest.take zs.resize.nBits)).next := by
  have got : (zs.resize.fetch zs.resize.nBits).1 = zs.rest.take zs.resize.nBits := by
    rw [fetch_fst, (resize_kept zs).2.1]
  simp only [getcode, if_pos due, Zstate.refill, got]
  by_cases ended : zs.rest.take zs.resize.nBits = []
  · left
    refine ⟨ended, ?_⟩
    rw [ended, List.length_nil, if_pos rfl]
  · right
    refine ⟨ended, ?_⟩
    rw [if_neg (fun none => ended (List.length_eq_zero_iff.mp none))]

theorem current_due (within : InGroup zs g) (due : zs.Due) :
    g.current zs = ⟨zs.rest.take zs.resize.nBits, zs.resize.nBits, 0⟩ :=
  if_pos (within.due.mp due)

theorem current_same (within : InGroup zs g) (due : ¬ zs.Due) : g.current zs = g :=
  if_neg (mt within.due.mpr due)

theorem InGroup.advances (within : InGroup zs g) :
    InGroup (getcode zs).2 (g.current zs).advance := by
  by_cases due : zs.Due
  · have sized : Sized zs.resize := within.sized.widen.narrow
    have short : (zs.rest.take zs.resize.nBits).length ≤ zs.resize.nBits :=
      List.length_take_le _ _
    have fits : zs.resize.nBits ≤ maxBits := sized.nBits_le
    have buffer := resize_gbuf zs
    rw [current_due within due]
    rcases getcode_due due with ⟨ended, gets⟩ | ⟨some, gets⟩
    · rw [gets, ended]
      refine ⟨{ sized with }, rfl, Nat.zero_le _, ?_, ⟨zs.resize.gbuf, rfl⟩, .inl ⟨rfl, rfl⟩⟩
      exact (congrArg List.length buffer).trans within.length
    · rw [gets]
      refine ⟨{ sized with }, rfl, short, ?_, ⟨_, rfl⟩, .inr ⟨rfl, ?_⟩⟩
      · show (zs.rest.take zs.resize.nBits ++
          zs.resize.gbuf.drop (zs.rest.take zs.resize.nBits).length).length = _
        rw [List.length_append, List.length_drop, buffer, within.length]
        omega
      · show 0 + zs.resize.nBits = (0 + 1) * zs.resize.nBits
        omega
  · have gets : getcode zs = zs.next := if_neg due
    rw [current_same within due, gets]
    refine ⟨{ within.sized with }, within.width, within.short, within.length, within.buffer, ?_⟩
    rcases within.place with ⟨empty, size⟩ | ⟨size, roffset⟩
    · exact .inl ⟨empty, size⟩
    · refine .inr ⟨size, ?_⟩
      show zs.roffset + zs.nBits = (g.taken + 1) * g.width
      rw [roffset, within.width, Nat.succ_mul]

theorem Coded.within (coded : Coded pre file zs g) : InGroup zs g := by
  induction coded with
  | opened opens =>
    obtain ⟨sound, -, -⟩ := @open_sound { zdopen pre file with state := .middle } _
      (fun _ => rfl) opens
    refine ⟨sound.sized, rfl, Nat.zero_le _, ?_, ⟨_, rfl⟩, .inl ⟨rfl, ?_⟩⟩
    · rw [(open_buffer opens).1]
      rfl
    · exact (open_buffer opens).2
  | elsewhere _ other ih => exact ih.elsewhere other
  | getcode _ ih => exact ih.advances

/-! ## The codes of a group -/

theorem load_rest (zs : Zstate) (got : Bytes) : (zs.load got).next.2.rest = zs.rest := rfl

theorem due_rest (zs : Zstate) :
    (zs.resize.fetch zs.resize.nBits).2.rest = zs.rest.drop zs.resize.nBits := by
  rw [fetch_rest, (resize_kept zs).2.1]

/-- A group is due: its first code is right unless the group is a single byte, which has no whole
code. -/
theorem InGroup.gets_due (within : InGroup zs g) (due : zs.Due) :
    GetsExactly zs g ↔ zs.rest.length ≠ 1 := by
  have sized : Sized zs.resize := within.sized.widen.narrow
  have least := sized.least
  have most : zs.resize.nBits ≤ 16 := sized.nBits_le
  have current := current_due within due
  have count : (zs.rest.take zs.resize.nBits).length = min zs.resize.nBits zs.rest.length :=
    List.length_take
  rcases getcode_due due with ⟨ended, gets⟩ | ⟨some, gets⟩
  · rw [ended, List.length_nil] at count
    refine iff_of_true ⟨?_, ?_⟩ (by omega)
    · have no : ¬ (0 + 1) * zs.resize.nBits ≤ 8 * ([] : Bytes).length := by
        rw [List.length_nil]
        omega
      rw [gets, current, Group.next, ended, if_neg no]
    · rw [gets, if_pos (within.due.mp due), current]
      exact due_rest zs
  · have code : (getcode zs).1 = .some (gcode (zs.rest.take zs.resize.nBits ++
        zs.resize.gbuf.drop (zs.rest.take zs.resize.nBits).length) 0 zs.resize.nBits) := by
      rw [gets]
      rfl
    have positive := List.length_pos_iff.mpr some
    constructor
    · rintro ⟨exact', -⟩ one
      have no : ¬ (0 + 1) * zs.resize.nBits ≤ 8 * (zs.rest.take zs.resize.nBits).length := by
        omega
      rw [code, current, Group.next, if_neg no] at exact'
      cases exact'
    · intro more
      have whole : 0 + zs.resize.nBits ≤ 8 * (zs.rest.take zs.resize.nBits).length := by omega
      constructor
      · have fits : (0 + 1) * zs.resize.nBits ≤ 8 * (zs.rest.take zs.resize.nBits).length := by
          omega
        rw [code, gcode_group least most whole, current, Group.next, if_pos fits, Nat.zero_mul]
      · rw [gets, if_pos (within.due.mp due), current, load_rest]
        exact due_rest zs

/-- Another code of the group. -/
theorem InGroup.gets_next (within : InGroup zs g) (due : ¬ zs.Due) : GetsExactly zs g := by
  have least := within.sized.least
  have most : zs.nBits ≤ 16 := within.sized.nBits_le
  have gets : getcode zs = zs.next := if_neg due
  obtain ⟨noResize, some⟩ := not_or.mp (mt within.due.mpr due)
  rw [Group.next] at some
  have whole : (g.taken + 1) * g.width ≤ 8 * g.bytes.length := by
    apply Classical.byContradiction
    intro none
    exact some (if_neg none)
  have width := within.width
  have step : (g.taken + 1) * g.width = g.taken * g.width + g.width := Nat.succ_mul _ _
  obtain ⟨stale, buffer⟩ := within.buffer
  constructor
  · rcases within.place with ⟨empty, -⟩ | ⟨-, roffset⟩
    · rw [empty, List.length_nil] at whole
      omega
    · rw [current_same within due, Group.next, if_pos whole, gets, Zstate.next, buffer, roffset,
        ← width, gcode_group (width ▸ least) (width ▸ most) (step ▸ whole)]
  · rw [gets, if_neg (mt within.due.mpr due)]
    rfl

end

/-- `getcode` returns the whole codes of each group in order, and nothing of the bytes of earlier
groups, except where a group is due and a single byte is left for it. -/
theorem getcode_exact_iff (pre file : Bytes) (zs : Zstate) (g : Group)
    (coded : Coded pre file zs g) : GetsExactly zs g ↔ ¬ (zs.Due ∧ zs.rest.length = 1) := by
  have within := coded.within
  by_cases due : zs.Due
  · rw [within.gets_due due]
    exact ⟨fun more both => more both.2, fun both one => both ⟨due, one⟩⟩
  · exact iff_of_true (within.gets_next due) fun both => due both.1

theorem getcode_exact_iff_two : ∃ zs g, Coded [] [0x1f, 0x9d, 0x8c, 0x41, 0x02] zs g ∧
    (GetsExactly zs g ↔ ¬ (zs.Due ∧ zs.rest.length = 1)) :=
  ⟨_, _, .opened rfl, getcode_exact_iff [] [0x1f, 0x9d, 0x8c, 0x41, 0x02] _ _ (.opened rfl)⟩

/-! ## The decoder in zread -/

section

variable {pre file : Bytes} {zs zs' : Zstate} {g : Group} {code : Nat}

theorem Sized.table (sized : Sized zs) : zs.freeEnt ≤ zs.maxmaxcode := by
  rw [sized.maxmaxcode]
  exact sized.full

theorem getcode_state (zs : Zstate) : (getcode zs).2.state = zs.state := by
  obtain ⟨mid, origin, kept, -⟩ := getcode_from zs
  rw [kept.state]
  rcases origin with rfl | rfl
  · rfl
  · exact (resize_kept zs).1.state

/-- A code that is not refused goes on the stack, and that is all. -/
theorem spelled_holding {start : Nat} {stack : Bytes}
    (spelled : (match expand zs.prefixof zs.suffixof (2 ^ maxBits) start stack with
      | none => Except.error Ret.outside
      | some (stack, finchar) =>
        .ok { zs with incode := code, stack := stack, finchar := finchar }) = .ok zs') :
    ∃ stack finchar, zs' = zs.holding code stack finchar := by
  split at spelled
  · cases spelled
  · cases spelled
    exact ⟨_, _, rfl⟩

theorem push_holding (pushed : zs.push code = .ok zs') :
    ∃ stack finchar, zs' = zs.holding code stack finchar := by
  unfold Zstate.push at pushed
  simp only at pushed
  split at pushed
  · split at pushed
    · cases pushed
    · split at pushed
      · cases pushed
      · exact spelled_holding pushed
  · exact spelled_holding pushed

theorem holding_elsewhere (sized : Sized zs) (stack : Bytes) (finchar : UInt8) :
    Elsewhere zs (zs.holding code stack finchar) :=
  ⟨rfl, rfl, rfl, rfl, rfl, rfl, rfl, rfl, rfl, sized.table⟩

theorem clear_elsewhere (sized : Sized zs) : Elsewhere zs zs.clear := by
  have least := Nat.pow_le_pow_right (by decide : 0 < 2) sized.maxbits_least
  have table : 257 ≤ zs.maxmaxcode := by
    rw [sized.maxmaxcode]
    omega
  exact ⟨rfl, rfl, rfl, rfl, rfl, rfl, rfl, rfl, rfl, table⟩

theorem enter_elsewhere (sized : Sized zs) : Elsewhere zs zs.enter := by
  cases old : zs.oldcode with
  | none =>
    rw [enter_same (.inl old)]
    exact ⟨rfl, rfl, rfl, rfl, rfl, rfl, rfl, rfl, rfl, sized.table⟩
  | some oldcode =>
    by_cases room : zs.freeEnt < zs.maxmaxcode
    · rw [enter_grown old room]
      exact ⟨rfl, rfl, rfl, rfl, rfl, rfl, rfl, rfl, rfl, room⟩
    · rw [enter_same (.inr room)]
      exact ⟨rfl, rfl, rfl, rfl, rfl, rfl, rfl, rfl, rfl, sized.table⟩

/-- Where `zread` has a table, it is one of these decoders. -/
def Point.Coded (pre file : Bytes) : Point → Prop
  | .between zs => zs = zdopen pre file ∨ zs.state ≠ .start ∧ ∃ g, Zread.Coded pre file zs g
  | .inside s => s.zs.state ≠ .start ∧ ∃ g, Zread.Coded pre file s.zs g

/-- A round of `zread` is a call of `getcode`, or a step elsewhere, or both. -/
theorem zreadBody_coded {s : Zloop} (state : s.zs.state ≠ .start)
    (coded : Zread.Coded pre file s.zs g) :
    match zreadBody s with
    | .again s' => Point.Coded pre file (.inside s')
    | .leave (_, zs) => Point.Coded pre file (.between zs) := by
  obtain ⟨place, zs, count, out⟩ := s
  cases place with
  | top =>
    -- Only `getcode` moves in the file; whatever else the round does is elsewhere.
    have after : Zread.Coded pre file (getcode zs).2 (g.current zs).advance := .getcode coded
    have sized := after.within.sized
    have state' : (getcode zs).2.state ≠ .start := by
      rw [getcode_state]
      exact state
    generalize gets : getcode zs = got at after sized state'
    obtain ⟨read, zs'⟩ := got
    cases read with
    | none =>
      simp only [zreadBody, gets]
      exact .inr ⟨State.noConfusion, _, .elsewhere after
        ⟨rfl, rfl, rfl, rfl, rfl, rfl, rfl, rfl, rfl, sized.table⟩⟩
    | some code =>
      by_cases clears : code = clearCode ∧ zs'.blockCompress = true
      · simp only [zreadBody, gets, if_pos clears]
        exact ⟨state', _, .elsewhere after (clear_elsewhere sized)⟩
      · cases pushed : zs'.push code with
        | error ret =>
          simp only [zreadBody, gets, if_neg clears, pushed]
          exact .inr ⟨state', _, .elsewhere after
            ⟨rfl, rfl, rfl, rfl, rfl, rfl, rfl, rfl, rfl, sized.table⟩⟩
        | ok zs'' =>
          obtain ⟨stack, finchar, rfl⟩ := push_holding pushed
          simp only [zreadBody, gets, if_neg clears, pushed]
          exact ⟨state', _, .elsewhere after (holding_elsewhere sized stack finchar)⟩
  | middle =>
    have sized := coded.within.sized
    cases count with
    | zero => exact .inr ⟨state, _, coded⟩
    | succ count =>
      cases isStack : zs.stack with
      | nil =>
        simp only [zreadBody, isStack]
        exact .inr ⟨state, _, coded⟩
      | cons c stack =>
        have popped : Zread.Coded pre file { zs with stack := stack } g :=
          .elsewhere coded ⟨rfl, rfl, rfl, rfl, rfl, rfl, rfl, rfl, rfl, sized.table⟩
        by_cases last : stack = []
        · simp only [zreadBody, isStack, if_pos last]
          refine ⟨?_, _, .elsewhere popped (enter_elsewhere popped.within.sized)⟩
          rw [(enter_kept _).2.1]
          exact state
        · simp only [zreadBody, isStack, if_neg last]
          exact ⟨state, _, popped⟩

theorem Step.coded {p p' : Point} (step : Step p p') (coded : p.Coded pre file) :
    p'.Coded pre file := by
  cases step with
  | starts some state opens =>
    rcases coded with rfl | ⟨started, -⟩
    · refine ⟨?_, _, .opened opens⟩
      rw [(@open_sound { zdopen pre file with state := .middle } _ (fun _ => rfl) opens).2.2]
      exact State.noConfusion
    · exact absurd state started
  | resumes some state =>
    rcases coded with rfl | coded
    · cases state
    · exact coded
  | round turn =>
    obtain ⟨state, g, coded⟩ := coded
    have after := zreadBody_coded state coded
    rwa [turn] at after
  | returns turn =>
    obtain ⟨state, g, coded⟩ := coded
    have after := zreadBody_coded state coded
    rwa [turn] at after

theorem Reached.coded {p : Point} (reached : Reached pre file p) : p.Coded pre file := by
  induction reached with
  | refl => exact .inl rfl
  | tail _ step ih => exact step.coded ih

end

/-- A file with one byte behind its header. -/
def oneByte : Bytes := [0x1f, 0x9d, 0x8c, 0x41]

/-- The only group is a single byte, and `getcode` makes a code of it and of bits that were never
read. -/
theorem oneByte_inexact : ¬ ∀ (pre file : Bytes) (s : Zloop) (g : Group),
    Reached pre file (.inside s) → s.place = .top → Coded pre file s.zs g →
      GetsExactly s.zs g := by
  intro exact'
  have reached : ∃ zs, Reached [] oneByte (.inside ⟨.top, zs, 1, []⟩) ∧
      Coded [] oneByte zs ⟨[], 9, 0⟩ ∧ zs.Due ∧ zs.rest.length = 1 :=
    ⟨_, .tail .refl (.starts Nat.one_ne_zero rfl rfl), .opened rfl, .inr (.inl (Int.le_refl 0)),
      rfl⟩
  obtain ⟨zs, reached, coded, due, one⟩ := reached
  have gets := exact' [] oneByte _ _ reached rfl coded
  exact (coded.within.gets_due due).mp gets one

/-! ## The bytes of the buffer -/

/-- The bytes that a code is put together from. The last one is read also where no bit of it is
needed. -/
def codeBytes (roffset nBits : Nat) : List Nat :=
  let first := roffset / 8
  if nBits - (8 - roffset % 8) ≥ 8 then [first, first + 1, first + 2] else [first, first + 1]

/-- The bytes of `zs_gbuf` that a call of `getcode` fills or reads. -/
def Zstate.touched (zs : Zstate) : List Nat :=
  if zs.Due then
    let got := (zs.resize.fetch zs.resize.nBits).1
    if got.length = 0 then [] else List.range got.length ++ codeBytes 0 zs.resize.nBits
  else codeBytes zs.roffset zs.nBits

theorem codeBytes_lt {roffset n : Nat} (inside : roffset / 8 + 1 < maxBits)
    (third : n - (8 - roffset % 8) ≥ 8 → roffset / 8 + 2 < maxBits) :
    ∀ i ∈ codeBytes roffset n, i < maxBits := by
  intro i member
  unfold codeBytes at member
  simp only at member
  split at member
  next long =>
    have last := third long
    simp only [List.mem_cons, List.not_mem_nil, or_false] at member
    omega
  next short =>
    simp only [List.mem_cons, List.not_mem_nil, or_false] at member
    omega

section

variable {pre file : Bytes} {zs zs' : Zstate} {g : Group}

theorem InGroup.touched_due (within : InGroup zs g) (due : zs.Due) :
    ∀ i ∈ zs.touched, i < maxBits := by
  have sized : Sized zs.resize := within.sized.widen.narrow
  have fits : zs.resize.nBits ≤ maxBits := sized.nBits_le
  have short : (zs.resize.fetch zs.resize.nBits).1.length ≤ zs.resize.nBits := by
    rw [fetch_fst]
    exact List.length_take_le _ _
  intro i member
  simp only [Zstate.touched, if_pos due] at member
  split at member
  · cases member
  · rcases List.mem_append.mp member with filled | read
    · have below := List.mem_range.mp filled
      omega
    · exact codeBytes_lt (by decide) (fun _ => by decide) i read

/-- The eighth code of a group of 16-bit codes ends with the buffer, and no other code needs or
reads as much. -/
theorem InGroup.touched_next (within : InGroup zs g) (due : ¬ zs.Due) :
    (∀ i ∈ zs.touched, i < maxBits) ↔ ¬ (zs.nBits = 16 ∧ zs.roffset = 112) := by
  have least := within.sized.least
  have most : zs.nBits ≤ 16 := within.sized.nBits_le
  have touched : zs.touched = codeBytes zs.roffset zs.nBits := if_neg due
  have before : (zs.roffset : Int) < zs.size := by
    apply Classical.byContradiction
    intro past
    exact due (.inr (.inl (Int.not_lt.mp past)))
  have width := within.width
  have short := within.short
  rcases within.place with ⟨-, size⟩ | ⟨size, roffset⟩
  · omega
  · -- The code begins in one of the eight places of a full group.
    have place : g.taken < 8 := by
      apply Classical.byContradiction
      intro far
      have eight : 8 * g.width ≤ g.taken * g.width := Nat.mul_le_mul_right _ (by omega)
      omega
    rw [touched]
    constructor
    · rintro inside ⟨wide, last⟩
      have third := inside 16 (by rw [wide, last]; decide)
      exact absurd third (by decide)
    · intro other
      have bound : zs.roffset ≤ 105 ∨ zs.nBits = 16 ∧ zs.roffset ≤ 96 := by
        rcases Nat.lt_or_ge zs.nBits 16 with less | wide
        · left
          have seven : g.taken * g.width ≤ 7 * 15 := Nat.mul_le_mul (by omega) (by omega)
          omega
        · right
          have sixteen : zs.nBits = 16 := by omega
          rw [width, sixteen] at roffset
          refine ⟨sixteen, ?_⟩
          have notLast : zs.roffset ≠ 112 := fun last => other ⟨sixteen, last⟩
          omega
      have limit : maxBits = 16 := rfl
      apply codeBytes_lt
      · omega
      · intro _
        omega

end

/-- `getcode` stays inside `zs_gbuf`, except at the eighth code of a group of 16-bit codes, where it
reads the byte behind it. -/
theorem getcode_inside_iff (pre file : Bytes) (zs : Zstate) (g : Group)
    (coded : Coded pre file zs g) :
    (∀ i ∈ zs.touched, i < maxBits) ↔ ¬ (¬ zs.Due ∧ zs.nBits = 16 ∧ zs.roffset = 112) := by
  have within := coded.within
  by_cases due : zs.Due
  · exact iff_of_true (within.touched_due due) fun last => last.1 due
  · rw [within.touched_next due]
    exact ⟨fun inside last => inside last.2, fun inside last => inside ⟨due, last⟩⟩

theorem getcode_inside_iff_two : ∃ zs g, Coded [] [0x1f, 0x9d, 0x8c, 0x41, 0x02] zs g ∧
    ((∀ i ∈ zs.touched, i < maxBits) ↔
      ¬ (¬ zs.Due ∧ zs.nBits = 16 ∧ zs.roffset = 112)) :=
  ⟨_, _, .opened rfl, getcode_inside_iff [] [0x1f, 0x9d, 0x8c, 0x41, 0x02] _ _ (.opened rfl)⟩

/-! ## Zeros up to 16-bit codes -/

/-- A header for codes of up to 16 bits without CLEAR, and zeros: every code is the literal 0, and
all but the first make an entry. -/
def zeros (n : Nat) : Bytes := [0x1f, 0x9d, 0x10] ++ List.replicate n 0

/-- A decoder in the zeros, with `left` of them to come. -/
structure Blank (zs : Zstate) (left : Nat) : Prop where
  pre : zs.pre = []
  file : zs.file = List.replicate left 0
  gbuf : zs.gbuf = List.replicate 16 0
  stack : zs.stack = []
  clear : zs.clearFlg = false
  block : zs.blockCompress = false
  maxbits : zs.maxbits = 16
  maxmaxcode : zs.maxmaxcode = 2 ^ 16
  base : 256 ≤ zs.freeEnt
  maxcode : zs.maxcode = if zs.nBits = 16 then 2 ^ 16 else 2 ^ zs.nBits - 1

section

variable {zs : Zstate} {left : Nat}

theorem Blank.rest (blank : Blank zs left) : zs.rest = List.replicate left 0 := by
  rw [Zstate.rest, blank.pre, blank.file, List.nil_append]

theorem gcode_zeros (roffset n : Nat) : gcode (List.replicate 16 0) roffset n = 0 := by
  have zero : ∀ i, (List.replicate 16 (0 : UInt8)).getD i 0 = 0 := by
    intro i
    rw [List.getD_eq_getElem?_getD, List.getElem?_replicate]
    split <;> rfl
  unfold gcode
  simp only [zero]
  simp

theorem Blank.resized (blank : Blank zs left) : Blank zs.resize left ∧
    (zs.freeEnt ≤ zs.maxcode → zs.resize.nBits = zs.nBits) ∧
    (zs.freeEnt > zs.maxcode → zs.resize.nBits = zs.nBits + 1) := by
  by_cases grows : zs.freeEnt > zs.maxcode
  · have widened : zs.resize = zs.widen := by
      have still : zs.widen.clearFlg = false := by
        rw [Zstate.widen, if_pos grows]
        exact blank.clear
      rw [Zstate.resize, Zstate.narrow, if_neg (by rw [still]; exact Bool.false_ne_true)]
    rw [widened, Zstate.widen, if_pos grows]
    refine ⟨{ blank with maxcode := ?_ }, fun fits => absurd grows (Nat.not_lt.mpr fits),
      fun _ => rfl⟩
    show (if zs.nBits + 1 = zs.maxbits then zs.maxmaxcode else maxCode (zs.nBits + 1)) = _
    rw [blank.maxbits, blank.maxmaxcode, maxCode]
  · rw [resize_unchanged blank.clear grows]
    exact ⟨blank, fun _ => rfl, fun large => absurd large grows⟩

/-- The code is 0, from the group in the buffer or from the next one. -/
theorem Blank.code (blank : Blank zs left) (sized : Sized zs) (enough : 16 ≤ left) :
    ∃ zs' left', getcode zs = (some 0, zs') ∧ Blank zs' left' ∧ left ≤ left' + 16 ∧
      zs'.oldcode = zs.oldcode ∧ zs'.freeEnt = zs.freeEnt ∧ zs'.state = zs.state ∧
      if zs.Due then
        zs'.nBits = zs.resize.nBits ∧ zs'.roffset = zs'.nBits ∧ zs'.size = 7 * zs'.nBits + 1
      else zs' = { zs with roffset := zs.roffset + zs.nBits } := by
  by_cases due : zs.Due
  · have sized' : Sized zs.resize := sized.widen.narrow
    have least := sized'.least
    have most : zs.resize.nBits ≤ 16 := sized'.nBits_le
    have next := blank.resized.1
    have kept := (resize_kept zs).1
    have got : zs.rest.take zs.resize.nBits = List.replicate zs.resize.nBits 0 := by
      rw [blank.rest, List.take_replicate, Nat.min_eq_left (by omega)]
    -- The group that is read is all zeros, and so is what it leaves of the one before.
    have buffer : List.replicate zs.resize.nBits (0 : UInt8) ++
        zs.resize.gbuf.drop (List.replicate zs.resize.nBits (0 : UInt8)).length =
          List.replicate 16 0 := by
      rw [next.gbuf, List.length_replicate, List.drop_replicate, List.replicate_append_replicate]
      congr 1
      omega
    rcases getcode_due due with ⟨ended, -⟩ | ⟨-, gets⟩
    · have none := congrArg List.length (got.symm.trans ended)
      rw [List.length_replicate, List.length_nil] at none
      omega
    · rw [got] at gets
      have code : gcode (List.replicate zs.resize.nBits (0 : UInt8) ++
          zs.resize.gbuf.drop (List.replicate zs.resize.nBits (0 : UInt8)).length) 0
            zs.resize.nBits = 0 := by
        rw [buffer, gcode_zeros]
      refine ⟨_, left - zs.resize.nBits, gets.trans (Prod.ext (congrArg some code) rfl), ?_,
        by omega, kept.oldcode, kept.freeEnt, kept.state, ?_⟩
      · refine { next with pre := ?_, file := ?_, gbuf := buffer }
        · show zs.resize.pre.drop zs.resize.nBits = []
          rw [next.pre, List.drop_nil]
        · show zs.resize.file.drop (zs.resize.nBits - zs.resize.pre.length) = _
          rw [next.pre, next.file, List.length_nil, Nat.sub_zero, List.drop_replicate]
      · rw [if_pos due]
        refine ⟨rfl, Nat.zero_add _, ?_⟩
        show (8 * (List.replicate zs.resize.nBits (0 : UInt8)).length : Int) -
          (zs.resize.nBits - 1 : Int) = 7 * zs.resize.nBits + 1
        rw [List.length_replicate]
        omega
  · -- Inside of a group only the offset moves.
    refine ⟨{ zs with roffset := zs.roffset + zs.nBits }, left, ?_, { blank with }, by omega, rfl,
      rfl, rfl, ?_⟩
    · rw [getcode, if_neg due, Zstate.next, blank.gbuf, gcode_zeros]
    · rw [if_neg due]

theorem open_zeros (n : Nat) : ∃ zs,
    { zdopen [] (zeros n) with state := .middle }.open = (none, zs) ∧ Blank zs n ∧
      zs.oldcode = none ∧ zs.freeEnt = 256 ∧ zs.nBits = 9 := by
  have got : { zdopen [] (zeros n) with state := .middle }.fetch 3 = ([0x1f, 0x9d, 0x10],
      { zdopen [] (zeros n) with state := .middle, file := List.replicate n 0 }) := rfl
  rw [Zstate.open, got]
  exact ⟨_, rfl, ⟨rfl, rfl, rfl, rfl, rfl, rfl, rfl, rfl, Nat.le_refl 256, rfl⟩, rfl, rfl, rfl⟩

/-- The place behind a code: at the first one of a group, or one further. -/
def Blank.Moves (zs zs' : Zstate) : Prop :=
  if zs.Due then
    zs'.nBits = zs.resize.nBits ∧ zs'.roffset = zs'.nBits ∧ zs'.size = 7 * zs'.nBits + 1
  else zs'.nBits = zs.nBits ∧ zs'.roffset = zs.roffset + zs.nBits ∧ zs'.size = zs.size

/-- One zero is put out. -/
theorem Blank.round {file : Bytes} {count : Nat} {out : Bytes}
    (reached : Reached [] file (.inside ⟨.top, zs, count + 1, out⟩)) (blank : Blank zs left)
    (enough : 16 ≤ left) (room : zs.freeEnt < 2 ^ 16) :
    ∃ zs' left' out', Reached [] file (.inside ⟨.top, zs', count, out'⟩) ∧ Blank zs' left' ∧
      left ≤ left' + 16 ∧ zs'.oldcode = some 0 ∧
      zs'.freeEnt = zs.freeEnt + (if zs.oldcode = none then 0 else 1) ∧ Blank.Moves zs zs' := by
  obtain ⟨-, g, coded⟩ := reached.coded
  obtain ⟨zs₁, left', gets, blank₁, fewer, oldcode, freeEnt, state, place⟩ :=
    blank.code coded.within.sized enough
  have base := blank₁.base
  have byte : expand zs₁.prefixof zs₁.suffixof (2 ^ maxBits) 0 zs₁.stack =
      some (zs₁.suffixof 0 :: zs₁.stack, zs₁.suffixof 0) := by
    have fuel : 2 ^ maxBits = 65535 + 1 := by decide
    rw [fuel, expand, if_neg (by decide)]
  have known : zs₁.expansion 0 = some (0, zs₁.stack) := if_pos (by omega)
  have pushed : zs₁.push 0 = .ok (zs₁.holding 0 [zs₁.suffixof 0] (zs₁.suffixof 0)) := by
    rw [push_spelled known byte, blank₁.stack]
  let zs₂ : Zstate := { zs₁.holding 0 [] (zs₁.suffixof 0) with stack := [] }
  -- The code 0 is one character: one round pushes it and the next one pops it.
  have first : zreadBody ⟨.top, zs, count + 1, out⟩ =
      .again ⟨.middle, zs₁.holding 0 [zs₁.suffixof 0] (zs₁.suffixof 0), count + 1, out⟩ := by
    have noClear : ¬ (0 = clearCode ∧ zs₁.blockCompress = true) :=
      fun clear => absurd clear.1 (by decide)
    simp only [zreadBody, gets, if_neg noClear, pushed]
  have second : zreadBody
      ⟨.middle, zs₁.holding 0 [zs₁.suffixof 0] (zs₁.suffixof 0), count + 1, out⟩ =
        .again ⟨.top, zs₂.enter, count, out ++ [zs₁.suffixof 0]⟩ := rfl
  have reached' := (reached.tail (.round first)).tail (.round second)
  have moves : ∀ zs' : Zstate, zs'.nBits = zs₁.nBits → zs'.roffset = zs₁.roffset →
      zs'.size = zs₁.size → Blank.Moves zs zs' := by
    intro zs' nBits roffset size
    rw [Blank.Moves, nBits, roffset, size]
    by_cases due : zs.Due
    · rw [if_pos due] at place ⊢
      exact place
    · rw [if_neg due] at place ⊢
      rw [place]
      exact ⟨rfl, rfl, rfl⟩
  have room₂ : zs₂.freeEnt < zs₂.maxmaxcode := by
    show zs₁.freeEnt < zs₁.maxmaxcode
    rw [freeEnt, blank₁.maxmaxcode]
    exact room
  -- Only a code behind another one makes an entry.
  cases old : zs.oldcode with
  | none =>
    have enters : zs₂.enter = { zs₂ with oldcode := some zs₂.incode } :=
      enter_same (.inl (oldcode.trans old))
    rw [enters] at reached'
    exact ⟨_, left', _, reached', { blank₁ with stack := rfl }, fewer, rfl, freeEnt,
      moves _ rfl rfl rfl⟩
  | some code =>
    have enters := @enter_grown zs₂ _ (oldcode.trans old) room₂
    rw [enters] at reached'
    refine ⟨_, left', _, reached', { blank₁ with stack := rfl, base := ?_ }, fewer, rfl, ?_,
      moves _ rfl rfl rfl⟩
    · exact Nat.le_succ_of_le base
    · exact congrArg (· + 1) freeEnt

/-- After the first code each one makes an entry. -/
theorem Blank.again {file : Bytes} {count : Nat} {out : Bytes}
    (reached : Reached [] file (.inside ⟨.top, zs, count + 1, out⟩)) (blank : Blank zs left)
    (enough : 16 ≤ left) (room : zs.freeEnt < 2 ^ 16) (old : zs.oldcode = some 0) :
    ∃ zs' left' out', Reached [] file (.inside ⟨.top, zs', count, out'⟩) ∧ Blank zs' left' ∧
      left ≤ left' + 16 ∧ zs'.oldcode = some 0 ∧ zs'.freeEnt = zs.freeEnt + 1 ∧
      Blank.Moves zs zs' := by
  obtain ⟨zs', left', out', reached', blank', fewer, old', freeEnt, moves⟩ :=
    blank.round reached enough room
  rw [old, if_neg (Option.some_ne_none 0)] at freeEnt
  exact ⟨zs', left', out', reached', blank', fewer, old', freeEnt, moves⟩

theorem Blank.Moves.nBits_eq {zs zs' : Zstate} (moves : Blank.Moves zs zs')
    (same : zs.resize.nBits = zs.nBits) : zs'.nBits = zs.nBits := by
  rw [Blank.Moves] at moves
  split at moves
  · exact moves.1.trans same
  · exact moves.1

/-- With 16-bit codes nothing but the end of a group asks for the next one. -/
theorem Blank.not_due (blank : Blank zs left) (wide : zs.nBits = 16) (fits : zs.freeEnt ≤ 2 ^ 16)
    (before : (zs.roffset : Int) < zs.size) : ¬ zs.Due := by
  have maxcode := blank.maxcode
  rw [wide, if_pos rfl] at maxcode
  rintro (cleared | past | grown)
  · rw [blank.clear] at cleared
    cases cleared
  · omega
  · omega

/-- The width goes with the number of entries. -/
def Widened (zs : Zstate) : Prop :=
  zs.freeEnt ≤ 2 ^ zs.nBits ∧ (zs.nBits = 9 ∨ 2 ^ (zs.nBits - 1) < zs.freeEnt)

theorem Widened.round {zs zs' : Zstate} (widened : Widened zs) (blank : Blank zs left)
    (sized : Sized zs) (moves : Blank.Moves zs zs') (more : zs'.freeEnt = zs.freeEnt + 1)
    (room : zs.freeEnt < 2 ^ 16) : Widened zs' := by
  obtain ⟨-, same, wider⟩ := blank.resized
  have least := sized.least
  obtain ⟨high, low⟩ := widened
  have most : zs.nBits ≤ 16 := sized.nBits_le
  have maxcode := blank.maxcode
  by_cases grows : zs.freeEnt > zs.maxcode
  · have due : zs.Due := .inr (.inr grows)
    rw [Blank.Moves, if_pos due, wider grows] at moves
    obtain ⟨nBits, -⟩ := moves
    have narrow : zs.nBits ≠ 16 := by
      intro wide
      rw [if_pos wide] at maxcode
      omega
    rw [if_neg narrow] at maxcode
    have power : 2 ^ (zs.nBits + 1) = 2 * 2 ^ zs.nBits := Nat.pow_succ'
    have positive := Nat.two_pow_pos zs.nBits
    rw [Widened, nBits, more, Nat.add_sub_cancel, power]
    omega
  · have nBits : zs'.nBits = zs.nBits := moves.nBits_eq (same (Nat.not_lt.mp grows))
    rw [Widened, nBits, more]
    refine ⟨?_, by omega⟩
    by_cases wide : zs.nBits = 16
    · rw [wide]
      exact room
    · rw [if_neg wide] at maxcode
      have positive := Nat.two_pow_pos zs.nBits
      omega

/-- `k` entries made. -/
theorem zeros_climb {n : Nat} (enough : 2 ^ 20 ≤ n) (k : Nat) (few : k ≤ 2 ^ 15 - 256) :
    ∃ zs left out, Reached [] (zeros n) (.inside ⟨.top, zs, 40000 - k, out⟩) ∧ Blank zs left ∧
      n ≤ left + 16 * (k + 1) ∧ zs.oldcode = some 0 ∧ zs.freeEnt = 256 + k ∧ Widened zs := by
  induction k with
  | zero =>
    obtain ⟨zs, opens, blank, old, base, nBits⟩ := open_zeros n
    have reached : Reached [] (zeros n) (.inside ⟨.top, zs, 40000 + 1, []⟩) :=
      .tail .refl (.starts (by decide) rfl opens)
    obtain ⟨zs', left, out, reached', blank', fewer, old', freeEnt, moves⟩ :=
      blank.round reached (by omega) (by omega)
    rw [base, if_pos old] at freeEnt
    refine ⟨zs', left, out, reached', blank', by omega, old', freeEnt, ?_⟩
    have maxcode := blank.maxcode
    rw [nBits, if_neg (by decide)] at maxcode
    have nine : zs'.nBits = 9 := (moves.nBits_eq (blank.resized.2.1 (by omega))).trans nBits
    rw [Widened, nine, freeEnt]
    decide
  | succ k ih =>
    obtain ⟨zs, left, out, reached, blank, fewer, old, freeEnt, widened⟩ := ih (by omega)
    have count : 40000 - k = 40000 - (k + 1) + 1 := by omega
    rw [count] at reached
    obtain ⟨zs', left', out', reached', blank', fewer', old', freeEnt', moves⟩ :=
      blank.again reached (by omega) (by omega) old
    obtain ⟨-, g, coded⟩ := reached.coded
    refine ⟨zs', left', out', reached', blank', by omega, old', by omega, ?_⟩
    exact widened.round blank coded.within.sized moves freeEnt' (by omega)

/-- The first group of 16-bit codes, up to its last code. -/
theorem zeros_wide {n : Nat} (enough : 2 ^ 20 ≤ n) (j : Nat) (few : j ≤ 6) :
    ∃ zs left out, Reached [] (zeros n) (.inside ⟨.top, zs, 7487 - j, out⟩) ∧ Blank zs left ∧
      n ≤ left + 16 * (2 ^ 15 + j) ∧ zs.oldcode = some 0 ∧ zs.freeEnt = 2 ^ 15 + 1 + j ∧
      zs.nBits = 16 ∧ zs.roffset = 16 * (j + 1) ∧ zs.size = 113 := by
  induction j with
  | zero =>
    obtain ⟨zs, left, out, reached, blank, fewer, old, freeEnt, widened⟩ :=
      zeros_climb enough (2 ^ 15 - 256) (Nat.le_refl _)
    obtain ⟨-, g, coded⟩ := reached.coded
    have sized := coded.within.sized
    have most : zs.nBits ≤ 16 := sized.nBits_le
    have fifteen : zs.nBits = 15 := by
      obtain ⟨high, low⟩ := widened
      rw [freeEnt] at high low
      interval_cases zs.nBits <;> omega
    have count : 40000 - (2 ^ 15 - 256) = 7487 + 1 := by decide
    rw [count] at reached
    obtain ⟨zs', left', out', reached', blank', fewer', old', freeEnt', moves⟩ :=
      blank.again reached (by omega) (by omega) old
    have maxcode := blank.maxcode
    rw [fifteen, if_neg (by decide)] at maxcode
    have grows : zs.freeEnt > zs.maxcode := by omega
    have due : zs.Due := .inr (.inr grows)
    rw [Blank.Moves, if_pos due, blank.resized.2.2 grows, fifteen] at moves
    obtain ⟨nBits, roffset, size⟩ := moves
    exact ⟨zs', left', out', reached', blank', by omega, old', by omega, nBits, by omega, by omega⟩
  | succ j ih =>
    obtain ⟨zs, left, out, reached, blank, fewer, old, freeEnt, nBits, roffset, size⟩ :=
      ih (by omega)
    have count : 7487 - j = 7487 - (j + 1) + 1 := by omega
    rw [count] at reached
    obtain ⟨zs', left', out', reached', blank', fewer', old', freeEnt', moves⟩ :=
      blank.again reached (by omega) (by omega) old
    have due := blank.not_due nBits (by omega) (by omega)
    rw [Blank.Moves, if_neg due] at moves
    obtain ⟨nBits', roffset', size'⟩ := moves
    exact ⟨zs', left', out', reached', blank', by omega, old', by omega, nBits'.trans nBits,
      by omega, size'.trans size⟩

end

/-- The eighth 16-bit code of these zeros takes `getcode` out of the buffer. -/
theorem zeros_outside : ¬ ∀ (pre file : Bytes) (s : Zloop), Reached pre file (.inside s) →
    s.place = .top → ∀ i ∈ s.zs.touched, i < maxBits := by
  intro inside
  obtain ⟨zs, left, out, reached, blank, -, -, freeEnt, nBits, roffset, size⟩ :=
    zeros_wide (Nat.le_refl (2 ^ 20)) 6 (Nat.le_refl 6)
  obtain ⟨-, g, coded⟩ := reached.coded
  have due := blank.not_due nBits (by omega) (by omega)
  exact (coded.within.touched_next due).mp (inside _ _ _ reached rfl) ⟨nBits, roffset⟩

end CheriGzip.Zread
