import CheriGzip.Libz.SlowSymbol
import CheriGzip.Libz.WindowCorrect
import Mathlib.Tactic.IntervalCases

/-!
# inflate_fast agrees with the states LEN to LIT

A round of the loop decodes the symbol that is there, without reading past six bytes of input or
writing past 258 bytes of output. So a run of `n` rounds does what `n` symbols of the slow states
do, but for the capability that it leaves in `next_in`.
-/
namespace CheriGzip.Inflate

open Loop

/-- The variables as the slow states have them, with `avail` bytes of input. -/
def FastVars.input (v : FastVars) (avail : Nat) : Input := ⟨v.inp.add 1, avail, v.hold, v.bits⟩

/-- The next bit is `c`. -/
def FastVars.At (v : FastVars) (x : BitStream) (c : Nat) : Prop :=
  ∃ avail, (v.input avail).At x c

section

variable {mem : Memory} {x : BitStream} {v : FastVars} {c n : Nat}

theorem FastVars.At.pull (there : x.In mem) (pos : v.At x c) (more : c + v.bits < x.total) :
    ∃ v', v.pull mem = some v' ∧ v'.At x c ∧ v'.bits = v.bits + 8 ∧ v'.out = v.out := by
  obtain ⟨avail, pos⟩ := pos
  have total : c + v.bits + 8 * avail = x.total := pos.total
  obtain ⟨b, read, pos'⟩ := pos.pull there (show 0 < avail by omega)
  have read' : mem (v.inp.add 1) = some b := read
  let v' : FastVars :=
    { v with inp := v.inp.add 1, hold := v.hold + b.toNat <<< v.bits, bits := v.bits + 8 }
  refine ⟨v', ?_, ⟨avail - 1, pos'⟩, rfl, rfl⟩
  rw [FastVars.pull, read']
  rfl

theorem FastVars.At.drop (pos : v.At x c) (held : n ≤ v.bits) : (v.drop n).At x (c + n) := by
  obtain ⟨avail, pos⟩ := pos
  exact ⟨avail, Input.At.drop pos held⟩

theorem FastVars.At.low (pos : v.At x c) (held : n ≤ v.bits) :
    lowBits v.hold n = bitField x.bits c n := by
  obtain ⟨avail, pos⟩ := pos
  exact Input.At.low pos held

/-- `bits < 15`, and two more bytes then. -/
theorem FastVars.At.refill (there : x.In mem) (pos : v.At x c) (more : c + 23 ≤ x.total) :
    ∃ v', v.refill mem = some v' ∧ v'.At x c ∧ 15 ≤ v'.bits ∧ v'.out = v.out := by
  unfold FastVars.refill
  by_cases few : v.bits < 15
  · obtain ⟨v₁, pull₁, pos₁, bits₁, out₁⟩ := pos.pull there (by omega)
    obtain ⟨v₂, pull₂, pos₂, bits₂, out₂⟩ := pos₁.pull there (by omega)
    rw [if_pos few, pull₁]
    exact ⟨v₂, pull₂, pos₂, by omega, out₂.trans out₁⟩
  · rw [if_neg few]
    exact ⟨v, rfl, pos, by omega, rfl⟩

/-- One byte is enough where not more than eight bits are missing. -/
theorem FastVars.At.need (there : x.In mem) (pos : v.At x c) (few : n ≤ v.bits + 8)
    (more : c + n ≤ x.total) :
    ∃ v', v.need mem n = some v' ∧ v'.At x c ∧ n ≤ v'.bits ∧ v'.out = v.out := by
  unfold FastVars.need
  by_cases lacks : v.bits < n
  · obtain ⟨v₁, pull₁, pos₁, bits₁, out₁⟩ := pos.pull there (by omega)
    rw [if_pos lacks]
    exact ⟨v₁, pull₁, pos₁, by omega, out₁⟩
  · rw [if_neg lacks]
    exact ⟨v, rfl, pos, by omega, rfl⟩

/-- The extra bits of a distance are thirteen at most. -/
theorem FastVars.At.needTwice (there : x.In mem) (pos : v.At x c) (few : n ≤ 16)
    (more : c + n ≤ x.total) :
    ∃ v', v.needTwice mem n = some v' ∧ v'.At x c ∧ n ≤ v'.bits ∧ v'.out = v.out := by
  unfold FastVars.needTwice
  by_cases lacks : v.bits < n
  · obtain ⟨v₁, pull₁, pos₁, bits₁, out₁⟩ := pos.pull there (by omega)
    obtain ⟨v₂, needed, pos₂, bits₂, out₂⟩ := pos₁.need there (n := n) (by omega) more
    rw [if_pos lacks, pull₁, Option.bind_some]
    exact ⟨v₂, needed, pos₂, bits₂, out₂.trans out₁⟩
  · rw [if_neg lacks]
    exact ⟨v, rfl, pos, by omega, rfl⟩

/-- From `dolen` or `dodist` with 15 bits to the code that is there. -/
theorem FastVars.At.follow {kind : CodeKind} {table : List Code} {root : Nat}
    {link : Code → Bool} (formed : WellFormed kind table root) (tests : kind.Tests link)
    (pos : v.At x c) (held : 15 ≤ v.bits) {e : Code}
    (entryAt : EntryAt kind table root x.bits c e n) :
    ∃ here, table[lowBits v.hold root]? = some here ∧
      ∃ v', (∀ gotos, Inflate.follow table link (gotos + 2) here v = some (e, v')) ∧
        v'.At x (c + n) ∧ v'.out = v.out := by
  have root_le := formed.root_le
  rw [pos.low (by omega)]
  cases entryAt with
  | root entry code =>
    obtain ⟨e', found, short, -⟩ := formed.root_filled _ (bitField_lt x.bits c root)
    rw [Nat.zero_add, entry] at found
    cases found
    refine ⟨e, entry, v.drop e.bits, fun gotos => ?_, pos.drop (by omega), rfl⟩
    simp only [Inflate.follow, tests.code code]
    rfl
  | @linked last _ entry link' entry' code =>
    refine ⟨last, entry, ?_⟩
    rcases formed.entry _ (bitField_lt x.bits c root) last entry with
      code' | ⟨-, bits, deep, filled, -⟩
    · have one := tests.link link'
      rw [tests.code code'] at one
      cases one
    · obtain ⟨e', found, short, -⟩ := filled _ (bitField_lt x.bits (c + last.bits) last.op)
      rw [entry'] at found
      cases found
      have pos₁ := pos.drop (n := last.bits) (by omega)
      have held₁ : last.op ≤ (v.drop last.bits).bits := by
        simp only [FastVars.drop]
        omega
      refine ⟨(v.drop last.bits).drop e.bits, fun gotos => ?_, ?_, rfl⟩
      · simp only [Inflate.follow, tests.link link', if_true, pos₁.low held₁, entry',
          tests.code code]
        rfl
      · rw [← Nat.add_assoc]
        apply pos₁.drop
        simp only [FastVars.drop]
        omega

end

/-! ## A symbol -/

section

variable {mem : Memory} {x : BitStream} {s : State} {v : FastVars} {c limit : Nat}

/-- What a round has decoded: a symbol at `c`, as if the output before it were `out`. -/
structure FastDecodes (x : BitStream) (s : State) (c : Nat) (out : Bytes) (v' : FastVars)
    (how : Break) : Prop where
  symbol : ∃ c', SymbolAt s.context x.bits c out c' v'.out how ∧ v'.At x c'
  grown : v'.out.length ≤ out.length + 258

/-- The distance behind a length, and the match. -/
theorem fastDist_decodes (there : x.In mem) (sound : s.context.Sound) {c₁ len : Nat}
    (length : LengthAt s.context x.bits c len c₁) (three : 3 ≤ len) (short : len ≤ 258)
    (pos : v.At x c₁) (more : c₁ + 28 ≤ x.total) (room : v.out.length + 258 ≤ limit) :
    ∃ v' brk, (∀ gotos, fastDist mem s (gotos + 2) limit len v = some (v', brk)) ∧
      FastDecodes x s c v.out v' (brk.getD ⟨.len, s.msg⟩) := by
  obtain ⟨v₁, refilled, pos₁, held₁, out₁⟩ := pos.refill there (by omega)
  obtain ⟨e, n, entryAt, deep⟩ := sound.dists.entryAt x.bits c₁
  obtain ⟨here, looked, v₂, followed, pos₂, out₂⟩ :=
    pos₁.follow sound.dists dodistTest held₁ entryAt
  have code : DistCode e := entryAt.isCode
  have looked' : s.distcode[lowBits v₁.hold s.distbits]? = some here := looked
  have followed' : ∀ gotos, Inflate.follow s.distcode
      (fun here => here.op &&& 16 = 0 ∧ here.op &&& 64 = 0) (gotos + 2) here v₁ = some (e, v₂) :=
    followed
  simp only [fastDist, refilled, looked', followed', Option.bind_eq_bind, Option.bind_some]
  cases code with
  | invalid few op =>
    rw [op, if_neg (Classical.not_not.mpr (op_invalid _ few).1)]
    refine ⟨v₂, _, fun _ => rfl, ⟨_, ?_, pos₂⟩, ?_⟩
    · rw [out₂, out₁]
      exact .badDistance length entryAt few op
    · rw [out₂, out₁]
      omega
  | @base extra few op some =>
    obtain ⟨isBase, low, -⟩ := op_base extra (by omega)
    obtain ⟨v₃, needed, pos₃, held₃, out₃⟩ :=
      pos₂.needTwice there (n := extra) (by omega) (by omega)
    have out : v₃.out = v.out := out₃.trans (out₂.trans out₁)
    have distance : DistanceAt s.context x.bits c₁ (e.val + bitField x.bits (c₁ + n) extra)
        (c₁ + n + extra) := .mk entryAt few op
    rw [op, if_pos isBase, low]
    simp only [needed, Option.bind_some, pos₃.low held₃]
    generalize dist_eq : e.val + bitField x.bits (c₁ + n) extra = dist at distance ⊢
    -- In the reach of output and window the fast copy is `copyMatch`; behind it both say that it
    -- is too far.
    by_cases near : dist ≤ v.out.length + s.window.whave
    · obtain ⟨out', copy⟩ : ∃ out', copyMatch s.window dist len v.out = .some out' :=
        copyMatch_some sound.window (by omega) near len
      rw [fastMatch_near s sound.window (v := v₃.drop extra) (by rw [← out] at near; exact near)
        three (by omega) (by simp only [FastVars.drop, out]; omega)]
      have copy' : copyMatch s.window dist len (v₃.drop extra).out = .some out' := by
        simp only [FastVars.drop, out, copy]
      rw [copy']
      refine ⟨_, _, fun _ => rfl, ⟨_, .copied length distance near (by omega) copy, ?_⟩, ?_⟩
      · exact pos₃.drop held₃
      · simp only [copyMatch_length copy]
        omega
    · rw [fastMatch_far s (v := v₃.drop extra) sound.sane
        (by simp only [FastVars.drop, out]; omega)]
      refine ⟨_, _, fun _ => rfl, ⟨_, ?_, pos₃.drop held₃⟩, ?_⟩
      · show SymbolAt s.context x.bits c v.out _ v₃.out _
        rw [out]
        exact .tooFar length distance (by omega : v.out.length + s.window.whave < dist)
      · show v₃.out.length ≤ _
        rw [out]
        omega

/-- The body of the loop decodes the symbol that is there, from six bytes of input and into 258
bytes of room. -/
theorem fastSymbol_decodes (there : x.In mem) (sound : s.context.Sound) (pos : v.At x c)
    (more : c + 48 ≤ x.total) (room : v.out.length + 258 ≤ limit) :
    ∃ v' brk, (∀ gotos, fastSymbol mem s (gotos + 2) limit v = some (v', brk)) ∧
      FastDecodes x s c v.out v' (brk.getD ⟨.len, s.msg⟩) := by
  obtain ⟨v₁, refilled, pos₁, held₁, out₁⟩ := pos.refill there (by omega)
  obtain ⟨e, n, entryAt, deep⟩ := sound.lens.entryAt x.bits c
  obtain ⟨here, looked, v₂, followed, pos₂, out₂⟩ :=
    pos₁.follow sound.lens dolenTest held₁ entryAt
  have code : LenCode e := entryAt.isCode
  have out : v₂.out = v.out := out₂.trans out₁
  have looked' : s.lencode[lowBits v₁.hold s.lenbits]? = some here := looked
  have followed' : ∀ gotos, Inflate.follow s.lencode
      (fun here => here.op ≠ 0 ∧ here.op &&& 16 = 0 ∧ here.op &&& 64 = 0) (gotos + 2) here v₁ =
        some (e, v₂) := followed
  simp only [fastSymbol, refilled, looked', followed', Option.bind_eq_bind, Option.bind_some]
  -- The same four kinds of entry as in the slow states, with the tests in another order.
  cases code with
  | literal op =>
    have fits : v.out.length < limit := by omega
    simp only [if_pos op, out, put, if_pos fits, Option.bind_some]
    refine ⟨_, _, fun _ => rfl, ⟨_, .literal entryAt op, pos₂⟩, ?_⟩
    simp only [List.length_append, List.length_singleton]
    omega
  | endOfBlock op =>
    have notLiteral : ¬ e.op = 0 := by omega
    have notBase : ¬ e.op &&& 16 ≠ 0 := by
      rw [op]
      decide
    have isEnd : e.op &&& 32 ≠ 0 := by
      rw [op]
      decide
    simp only [if_neg notLiteral, if_neg notBase, if_pos isEnd]
    refine ⟨v₂, _, fun _ => rfl, ⟨_, ?_, pos₂⟩, ?_⟩
    · rw [out]
      exact .endOfBlock entryAt op
    · rw [out]
      omega
  | @invalid low few op =>
    have notLiteral : ¬ e.op = 0 := by omega
    obtain ⟨notBase, notEnd, -⟩ := op_invalid _ few
    rw [← op, ← Classical.not_not (a := e.op &&& 16 = 0)] at notBase
    rw [← op, ← Classical.not_not (a := e.op &&& 32 = 0)] at notEnd
    simp only [if_neg notLiteral, if_neg notBase, if_neg notEnd]
    refine ⟨v₂, _, fun _ => rfl, ⟨_, ?_, pos₂⟩, ?_⟩
    · rw [out]
      exact .badLength entryAt few op
    · rw [out]
      omega
  | @base extra few op long short =>
    obtain ⟨isBase, low, -⟩ := op_base extra (by omega)
    have length : LengthAt s.context x.bits c (e.val + bitField x.bits (c + n) extra)
        (c + n + extra) := .mk entryAt few op
    have less := bitField_lt x.bits (c + n) extra
    have notLiteral : ¬ e.op = 0 := by omega
    rw [← op] at isBase low
    simp only [if_neg notLiteral, if_pos isBase, low]
    rw [← out]
    -- The fast loop asks for no bits where there are no extra ones.
    by_cases none : extra = 0
    · subst none
      rw [bitField_zero, Nat.add_zero, Nat.add_zero] at length
      simp only [ne_eq, not_true, if_false]
      exact fastDist_decodes there sound length long (by omega) pos₂ (by omega)
        (by rw [out]; exact room)
    · obtain ⟨v₃, needed, pos₃, held₃, out₃⟩ := pos₂.need there (n := extra) (by omega) (by omega)
      simp only [ne_eq, none, not_false_eq_true, if_true, needed, Option.bind_some, pos₃.low held₃]
      have same : (v₃.drop extra).out = v₂.out := out₃
      rw [← same]
      exact fastDist_decodes there sound length (by omega) (by omega) (pos₃.drop held₃) (by omega)
        (by rw [same, out]; exact room)

end

/-! ## The whole loop -/

/-- A symbol behind which decoding goes on has put something. -/
theorem SymbolAt.grows {k : Context} {x c c' : Nat} {out out' : Bytes}
    (symbol : SymbolAt k x c out c' out' ⟨.len, k.msg⟩) : out.length < out'.length := by
  generalize how_eq : (⟨.len, k.msg⟩ : Break) = how at symbol
  cases symbol with
  | literal => simp
  | copied _ _ _ long copy =>
    rw [copyMatch_length copy]
    omega
  | _ => cases how_eq

/-- The input of a state: the bits in the accumulator, and then these bytes. -/
def State.stream (s : State) (bytes : Bytes) : BitStream where
  bits := bitStream s.input.hold s.input.bits bytes
  total := s.input.bits + 8 * s.input.avail
  stop := s.input.next.add s.input.avail
  count := s.input.avail

/-- The bytes at a pointer. -/
def Loaded (mem : Memory) (p : Ptr) (bytes : Bytes) : Prop :=
  ∀ k (inside : k < bytes.length), mem (p.add k) = some bytes[k]

section

variable {mem : Memory} {x : BitStream} {s : State} {v : FastVars} {c : Nat}

theorem State.stream_in {bytes : Bytes} (loaded : Loaded mem s.input.next bytes)
    (avail : s.input.avail = bytes.length) (held : s.input.hold < 2 ^ s.input.bits) :
    (s.stream bytes).In mem := by
  intro m inside
  have inside' : m < bytes.length := avail ▸ inside
  have place : (s.input.avail : Int) + -((m + 1 : Nat) : Int) =
      ((bytes.length - (m + 1) : Nat) : Int) := by omega
  refine ⟨bytes[bytes.length - (m + 1)], ?_, ?_⟩
  · show mem ((s.input.next.add s.input.avail).add _) = _
    rw [Ptr.add_add, place]
    exact loaded _ (by omega)
  · show _ = bitField (bitStream _ _ _) (s.input.bits + 8 * s.input.avail - 8 * (m + 1)) 8
    have bit : s.input.bits + 8 * s.input.avail - 8 * (m + 1) =
        s.input.bits + 8 * (bytes.length - (m + 1)) := by omega
    rw [bit, bitStream_byte held]

theorem State.stream_at (bytes : Bytes) (held : s.input.hold < 2 ^ s.input.bits) :
    s.input.At (s.stream bytes) 0 := by
  refine ⟨?_, Nat.le_refl _, (bitStream_hold held).symm, ?_⟩
  · show _ = (s.input.next.add _).add _
    rw [Ptr.add_add, Int.add_right_neg, Ptr.add_zero]
  · show 0 + s.input.bits + 8 * s.input.avail = s.input.bits + 8 * s.input.avail
    omega

/-- Where `in` points. -/
theorem FastVars.addr {avail : Nat} (pos : (v.input avail).At x c) :
    v.inp.object = x.stop.object ∧ v.inp.addr = x.stop.addr - avail - 1 := by
  have next : v.inp.add 1 = x.stop.add (-avail) := pos.next
  constructor
  · have object : (v.inp.add 1).object = (x.stop.add (-avail)).object := congrArg Ptr.object next
    exact object
  · have addr : v.inp.addr + 1 = x.stop.addr + -(avail : Int) := congrArg Ptr.addr next
    omega

/-- `in < last` says that there are six bytes more. -/
theorem fastLast_iff (stop : x.stop = s.input.next.add s.input.avail) {avail : Nat}
    (pos : (v.input avail).At x c) : v.inp.addr < s.fastLast.addr ↔ 6 ≤ avail := by
  have addr := (FastVars.addr pos).2
  rw [stop] at addr
  simp only [State.fastLast, Ptr.add] at addr ⊢
  omega

/-- `out < end` says that there is room for 258 bytes more. -/
theorem fastEnd_iff : (v.out.length : Int) < s.fastEnd ↔
    v.out.length + 258 ≤ s.out.length + s.left := by
  unfold State.fastEnd
  omega

/-- The variables of `inflate_fast` and the state of the slow states, at the same bit with the same
output. -/
structure Abreast (x : BitStream) (s : State) (c : Nat) (how : Break) (v : FastVars) (t : State) :
    Prop where
  pos : v.At x c
  stands : Stands x c how.mode t
  msg : t.msg = how.msg
  out : t.out = v.out
  room : t.out.length + t.left = s.out.length + s.left

/-- A run of the loop, and the slow states for the same number of symbols. -/
theorem fast_run (there : x.In mem) (sound : s.context.Sound)
    (stop : x.stop = s.input.next.add s.input.avail) {t : State}
    (abreast : Abreast x s c ⟨.len, s.msg⟩ v t) (context : t.context = s.context)
    (more : c + 48 ≤ x.total) (room : v.out.length + 258 ≤ s.out.length + s.left) :
    ∃ n v' how t' c', (∀ gotos, LeavesIn (fastRound mem s (gotos + 2)) n v (some (v', how))) ∧
      Symbols mem n t t' ∧ Abreast x s c' how v' t' := by
  -- Each round that goes on puts a byte at least.
  induction left : s.out.length + s.left - v.out.length using Nat.strong_induction_on
    generalizing c v t with
  | _ left ih =>
    subst left
    obtain ⟨v₁, brk, decodes, ⟨c₁, symbol, pos₁⟩, grown⟩ :=
      fastSymbol_decodes there sound abreast.pos more room
    obtain ⟨avail, pos₁'⟩ := pos₁
    have total : c₁ + v₁.bits + 8 * avail = x.total := pos₁'.total
    have symbol' := symbol
    rw [← context, ← abreast.out] at symbol'
    have same := abreast.room
    obtain ⟨t₁, one, decoded⟩ := slow_symbol there (context ▸ sound) abreast.stands symbol'
      (by omega) (by rw [abreast.out] at same; omega) (by rw [abreast.out] at same ⊢; omega)
    have abreast₁ : Abreast x s c₁ (brk.getD ⟨.len, s.msg⟩) v₁ t₁ :=
      ⟨⟨avail, pos₁'⟩, decoded.stands, decoded.msg, decoded.out, decoded.left.trans same⟩
    cases brk with
    | some how =>
      refine ⟨1, v₁, how, t₁, c₁, fun gotos => .last ?_, .next abreast.stands.mode one (.none t₁),
        abreast₁⟩
      simp only [fastRound, decodes gotos]
    | none =>
      by_cases goes : v₁.inp.addr < s.fastLast.addr ∧ (v₁.out.length : Int) < s.fastEnd
      · have enough := (fastLast_iff stop pos₁').mp goes.1
        have room₁ := fastEnd_iff.mp goes.2
        have grows : v.out.length < v₁.out.length := symbol.grows
        have context₁ : t₁.context = s.context :=
          (decoded.context (by simp [Option.getD])).trans context
        obtain ⟨n, v', how, t', c', rounds, symbols, abreast'⟩ :=
          ih _ (by omega) abreast₁ context₁ (by omega) room₁ rfl
        refine ⟨n + 1, v', how, t', c', fun gotos => .again ?_ (rounds gotos),
          .next abreast.stands.mode one symbols, abreast'⟩
        simp only [fastRound, decodes gotos, if_pos goes]
      · refine ⟨1, v₁, _, t₁, c₁, fun gotos => .last ?_, .next abreast.stands.mode one (.none t₁),
          abreast₁⟩
        simp only [fastRound, decodes gotos, if_neg goes]
        rfl

/-- What the two paths have to agree on. -/
structure Agrees (fast slow : State) : Prop where
  out : fast.out = slow.out
  left : fast.left = slow.left
  input : fast.input = slow.input
  mode : fast.mode = slow.mode
  msg : fast.msg = slow.msg

/-- What `inflate_fast` leaves, in terms of the slow states: the capability of `next_in` is the one
of `sin`. -/
theorem fastReturn_eq (stop : x.stop = s.input.next.add s.input.avail) {how : Break} {t : State}
    (abreast : Abreast x s c how v t) (sin : Ptr) :
    Agrees (fastReturn s sin v how)
      { t with input := { t.input with next := { t.input.next with object := sin.object } } } := by
  obtain ⟨⟨avail, pos⟩, ⟨mode, pos', few⟩, msg, out, room⟩ := abreast
  have total : c + v.bits + 8 * avail = x.total := pos.total
  have total' := pos'.total
  have len : v.bits >>> 3 = v.bits / 8 := Nat.shiftRight_eq_div_pow v.bits 3
  have bits : v.bits - (v.bits / 8) <<< 3 = t.input.bits := by
    rw [Nat.shiftLeft_eq]
    omega
  have given : t.input.avail = avail + v.bits / 8 := by omega
  have addr := (FastVars.addr pos).2
  have next : t.input.next.addr = x.stop.addr + -(t.input.avail : Int) :=
    congrArg Ptr.addr pos'.next
  have last : s.fastLast.addr = x.stop.addr - 6 := by
    rw [stop]
    simp only [State.fastLast, Ptr.add]
    omega
  have place : sin.addr + (v.inp.addr - sin.addr - ((v.bits / 8 : Nat) : Int)) + 1 =
      t.input.next.addr := by omega
  refine ⟨out.symm, ?_, ?_, mode.symm, msg.symm⟩
  · rw [out] at room
    simp only [fastReturn, State.fastEnd]
    omega
  · simp only [fastReturn, len, bits]
    have hold : lowBits v.hold t.input.bits = t.input.hold := by
      have low := Input.At.low pos (n := t.input.bits) (by simp only [FastVars.input]; omega)
      rw [pos'.hold, ← low]
      rfl
    rw [hold]
    simp only [Ptr.add, Ptr.sub, place, Input.mk.injEq, and_true, true_and]
    omega

/-- `inflate_fast` decodes some number of symbols, without a read or a write outside of its
buffers, and agrees with the states `LEN` to `LIT` on as many symbols if and only if the variable
`sin`, which it never sets, holds a capability for the input. -/
theorem inflateFast_agrees_iff (mem : Memory) (s : State) (bytes : Bytes) (sin : Ptr)
    (mode : s.mode = .len) (few : s.input.bits < 8) (held : s.input.hold < 2 ^ s.input.bits)
    (sound : s.context.Sound) (loaded : Loaded mem s.input.next bytes)
    (avail : s.input.avail = bytes.length) (enough : 6 ≤ s.input.avail) (room : 258 ≤ s.left) :
    ∃ n fuel v how slow, LeavesIn (fastRound mem s fuel) n s.fastStart (some (v, how)) ∧
      inflateFast mem sin fuel s = some (fastReturn s sin v how) ∧ Symbols mem n s slow ∧
      (Agrees (fastReturn s sin v how) slow ↔ sin.object = s.input.next.object) := by
  have there := s.stream_in loaded avail held
  have pos := s.stream_at bytes held
  have start : Abreast (s.stream bytes) s 0 ⟨.len, s.msg⟩ s.fastStart s := by
    refine ⟨⟨s.input.avail, ?_⟩, ⟨mode, pos, few⟩, rfl, rfl, rfl⟩
    have next : (s.input.next.add (-1)).add 1 = s.input.next := by
      rw [Ptr.add_add]
      exact Ptr.add_zero _
    simp only [FastVars.input, State.fastStart, next]
    exact pos
  obtain ⟨n, v, how, slow, c, rounds, symbols, abreast⟩ :=
    fast_run there sound rfl start rfl (by simp only [State.stream]; omega)
      (by simp only [State.fastStart]; omega)
  refine ⟨n, n + 2, v, how, slow, rounds n, ?_, symbols, ?_⟩
  · have ran := run_mono _ (Nat.le_add_right n 2) (rounds n).run_eq
    simp only [inflateFast, ran, Option.bind_eq_bind, Option.bind_some]
  · have agrees := fastReturn_eq rfl abreast sin
    have object : slow.input.next.object = s.input.next.object := by
      rw [abreast.stands.pos.next]
      rfl
    constructor
    · intro same
      have input := agrees.input.symm.trans same.input
      exact (congrArg (fun i : Input => i.next.object) input).trans object
    · intro same
      rw [same, ← object] at agrees
      exact agrees

end

/-! ## Some runs -/

theorem Window.Holds.sound {w : Window} {history : Bytes} (holds : w.Holds history) : w.Sound := by
  cases holds with
  | start => exact ⟨Nat.le_refl _, Nat.le_refl _, .inl rfl⟩
  | @of wbits r size contents =>
    exact ⟨r.count_le, Nat.le_of_lt r.next_lt, .inr ⟨r.cells, rfl, rfl⟩⟩

/-- The tables of `inflate_table` for a code of one bit for `a` and one for the end of the block,
and for no distances, with eight bytes of input. -/
def twoCodes : State where
  mode := .len
  input := ⟨⟨0, 0x1000⟩, 8, 0, 0⟩
  out := []
  left := 300
  msg := none
  window := .start 15
  lencode := [⟨0, 1, 0x61⟩, ⟨96, 1, 0⟩]
  lenbits := 1
  distcode := [⟨64, 1, 0⟩, ⟨64, 1, 0⟩]
  distbits := 1
  length := 0
  offset := 0
  extra := 0
  sane := true
  back := 0
  was := 0

/-- `a` twice, and the end of the block. -/
def twoCodesInput : Bytes := [4, 0, 0, 0, 0, 0, 0, 0]

/-- The object 0 holds the input. -/
def twoCodesMemory : Memory := fun p =>
  if p.object = 0 ∧ 0x1000 ≤ p.addr then twoCodesInput[(p.addr - 0x1000).toNat]? else none

/-- A table of two codes of one bit. -/
theorem replicated_one {table : List Code} {e₀ e₁ : Code} (same : table = [e₀, e₁])
    (bits₀ : e₀.bits = 1) (bits₁ : e₁.bits = 1) : Replicated table 0 1 := by
  subst same
  intro j inside
  have two : j = 0 ∨ j = 1 := by omega
  rcases two with rfl | rfl
  · refine ⟨e₀, rfl, by omega, ?_⟩
    intro k small same
    rw [bits₀] at same
    have zero : k = 0 := by omega
    subst zero
    rfl
  · refine ⟨e₁, rfl, by omega, ?_⟩
    intro k small same
    rw [bits₁] at same
    have one : k = 1 := by omega
    subst one
    rfl

theorem wellFormed_one {kind : CodeKind} {e₀ e₁ : Code} (bits₀ : e₀.bits = 1) (bits₁ : e₁.bits = 1)
    (code₀ : kind.code e₀) (code₁ : kind.code e₁) : WellFormed kind [e₀, e₁] 1 := by
  refine ⟨by decide, replicated_one rfl bits₀ bits₁, ?_⟩
  intro j inside e found
  have two : j = 0 ∨ j = 1 := by omega
  rcases two with rfl | rfl
  · cases found
    exact .inl code₀
  · cases found
    exact .inl code₁

theorem twoCodes_sound : twoCodes.context.Sound where
  lens := wellFormed_one rfl rfl (.literal rfl) (.endOfBlock rfl)
  dists := wellFormed_one rfl rfl (.invalid (by decide : 0 < 16) rfl)
    (.invalid (by decide : 0 < 16) rfl)
  window := Window.Holds.sound (.start rfl)
  sane := rfl

theorem inflateFast_agrees_iff_twoCodes :
    ∃ n fuel v how slow,
      LeavesIn (fastRound twoCodesMemory twoCodes fuel) n twoCodes.fastStart (some (v, how)) ∧
      inflateFast twoCodesMemory ⟨0, 0⟩ fuel twoCodes =
        some (fastReturn twoCodes ⟨0, 0⟩ v how) ∧
      Symbols twoCodesMemory n twoCodes slow ∧
      (Agrees (fastReturn twoCodes ⟨0, 0⟩ v how) slow ↔
        (⟨0, 0⟩ : Ptr).object = twoCodes.input.next.object) := by
  apply inflateFast_agrees_iff twoCodesMemory twoCodes twoCodesInput ⟨0, 0⟩ rfl (by decide)
    (by decide) twoCodes_sound _ rfl (by decide) (by decide)
  intro k inside
  have eight : k < 8 := inside
  interval_cases k <;> rfl

/-- Where the slow states leave `twoCodes` after one, two and three symbols. -/
def twoCodesAfter : Nat → State
  | 0 => twoCodes
  | 1 =>
    { twoCodes with
      input := ⟨⟨0, 0x1001⟩, 7, 2, 7⟩, out := [0x61], left := 299, length := 0x61, back := 1 }
  | 2 =>
    { twoCodes with
      input := ⟨⟨0, 0x1001⟩, 7, 1, 6⟩, out := [0x61, 0x61], left := 298, length := 0x61, back := 1 }
  | _ =>
    { twoCodes with
      mode := .type, input := ⟨⟨0, 0x1001⟩, 7, 0, 5⟩, out := [0x61, 0x61], left := 298, back := -1 }

theorem twoCodes_symbols : Symbols twoCodesMemory 3 twoCodes (twoCodesAfter 3) := by
  have symbol : ∀ k < 3, run (symbolRound twoCodesMemory) 2 (twoCodesAfter k) =
      some (some (twoCodesAfter (k + 1))) := by
    decide +kernel
  exact .next rfl ⟨2, symbol 0 (by decide)⟩ (.next rfl ⟨2, symbol 1 (by decide)⟩
    (.next rfl ⟨2, symbol 2 (by decide)⟩ (.none _)))

/-- The variables of `inflate_fast` before each of its rounds. -/
def twoCodesVars : Nat → FastVars
  | 0 => twoCodes.fastStart
  | 1 => ⟨⟨0, 0x1001⟩, 2, 15, [0x61]⟩
  | 2 => ⟨⟨0, 0x1001⟩, 1, 14, [0x61, 0x61]⟩
  | _ => ⟨⟨0, 0x1003⟩, 0, 29, [0x61, 0x61]⟩

/-- When `sin` happens to hold a capability for something else, `next_in` is left with it. -/
theorem sin_disagrees :
    ∃ fast, LeavesIn (fastRound twoCodesMemory twoCodes 4) 3 twoCodes.fastStart
        (some (twoCodesVars 3, ⟨.type, none⟩)) ∧
      inflateFast twoCodesMemory ⟨1, 0x2000⟩ 4 twoCodes = some fast ∧
      Symbols twoCodesMemory 3 twoCodes (twoCodesAfter 3) ∧ fast.input.next = ⟨1, 0x1001⟩ ∧
      ¬ Agrees fast (twoCodesAfter 3) := by
  have round : ∀ k < 2, fastRound twoCodesMemory twoCodes 4 (twoCodesVars k) =
      .again (twoCodesVars (k + 1)) := by
    decide +kernel
  have last : fastRound twoCodesMemory twoCodes 4 (twoCodesVars 2) =
      .leave (some (twoCodesVars 3, ⟨.type, none⟩)) := by
    decide +kernel
  have rounds : LeavesIn (fastRound twoCodesMemory twoCodes 4) 3 twoCodes.fastStart
      (some (twoCodesVars 3, ⟨.type, none⟩)) :=
    .again (round 0 (by decide)) (.again (round 1 (by decide)) (.last last))
  have ran := run_mono _ (by decide : 3 ≤ 4) rounds.run_eq
  refine ⟨fastReturn twoCodes ⟨1, 0x2000⟩ (twoCodesVars 3) ⟨.type, none⟩, rounds, ?_,
    twoCodes_symbols, by decide +kernel, ?_⟩
  · simp only [inflateFast, ran, Option.bind_eq_bind, Option.bind_some]
  · intro agrees
    have object := congrArg (fun i : Input => i.next.object) agrees.input
    revert object
    decide +kernel

end CheriGzip.Inflate
