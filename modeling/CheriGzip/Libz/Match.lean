import CheriGzip.Libz.InflateFast

/-!
# Copying a match

What a match stands for: bytes at a fixed distance behind the end of what is there, first in the
window and then in the output. Both copies of `libz_h2` put these bytes.
-/
namespace CheriGzip.Inflate

/-! ## What a match stands for -/

/-- The byte `dist` back. The window is before the output, and its newest byte before `wnext`. -/
def pastByte (w : Window) (dist : Nat) (out : Bytes) : Option UInt8 :=
  if dist ≤ out.length then out[out.length - dist]?
  else
    let back := dist - out.length
    w.window.bind fun bytes =>
      bytes[if back ≤ w.wnext then w.wnext - back else w.wsize + w.wnext - back]?

/-- The output with a match of `len` bytes `dist` back. -/
def copyMatch (w : Window) (dist : Nat) : (len : Nat) → Bytes → Option Bytes
  | 0, out => some out
  | len + 1, out => (pastByte w dist out).bind fun b => copyMatch w dist len (out ++ [b])

/-- The sizes in the state are those of a window, or nothing is in the window yet. -/
structure Window.Sound (w : Window) : Prop where
  whave_le : w.whave ≤ w.wsize
  wnext_le : w.wnext ≤ w.wsize
  sized : w.whave = 0 ∨ ∃ bytes, w.window = some bytes ∧ bytes.length = w.wsize

section

variable {w : Window} {dist limit n m : Nat} {src : Origin} {out out' : Bytes}

theorem copyMatch_add (w : Window) (dist n m : Nat) (out : Bytes) :
    copyMatch w dist (n + m) out = (copyMatch w dist n out).bind (copyMatch w dist m) := by
  induction n generalizing out with
  | zero =>
    rw [Nat.zero_add]
    rfl
  | succ n ih =>
    rw [Nat.succ_add, copyMatch, copyMatch, Option.bind_assoc]
    congr 1
    funext b
    exact ih _

theorem copyMatch_length (copied : copyMatch w dist n out = some out') :
    out'.length = out.length + n := by
  induction n generalizing out with
  | zero =>
    cases copied
    rfl
  | succ n ih =>
    obtain ⟨b, -, copied⟩ := Option.bind_eq_some_iff.mp copied
    rw [ih copied, List.length_append, List.length_singleton]
    omega

theorem pastByte_some (sound : w.Sound) (some : 0 < dist)
    (near : dist ≤ out.length + w.whave) : ∃ b, pastByte w dist out = .some b := by
  obtain ⟨whave_le, wnext_le, sized⟩ := sound
  unfold pastByte
  by_cases inside : dist ≤ out.length
  · rw [if_pos inside]
    exact ⟨_, List.getElem?_eq_getElem (by omega)⟩
  · rw [if_neg inside]
    obtain none | ⟨bytes, window, size⟩ := sized
    · omega
    · rw [window]
      refine ⟨_, List.getElem?_eq_getElem ?_⟩
      split <;> omega

/-- A match that does not reach too far back can be copied. -/
theorem copyMatch_some (sound : w.Sound) (some : 0 < dist) (near : dist ≤ out.length + w.whave)
    (n : Nat) : ∃ out', copyMatch w dist n out = .some out' := by
  induction n generalizing out with
  | zero => exact ⟨out, rfl⟩
  | succ n ih =>
    obtain ⟨b, past⟩ := pastByte_some sound some near
    rw [copyMatch, past]
    apply ih
    rw [List.length_append]
    omega

/-! ## Where the copies read -/

/-- The place `n` bytes on. -/
def Origin.add (n : Nat) : Origin → Origin
  | .window index => .window (index + n)
  | .output index => .output (index + n)

theorem Origin.add_zero (src : Origin) : src.add 0 = src := by
  cases src <;> simp [Origin.add]

theorem Origin.add_succ (src : Origin) (n : Nat) : src.add (n + 1) = src.next.add n := by
  cases src <;> simp [Origin.add, Origin.next] <;> omega

/-- For `n` bytes from `src` on, these are the bytes of the match. -/
def Tracks (w : Window) (dist n : Nat) (src : Origin) (out : Bytes) : Prop :=
  ∀ more : Bytes, more.length < n →
    (src.add more.length).load w (out ++ more) = pastByte w dist (out ++ more)

theorem Tracks.mono (tracks : Tracks w dist n src out) (le : m ≤ n) : Tracks w dist m src out :=
  fun more short => tracks more (Nat.lt_of_lt_of_le short le)

theorem Tracks.succ (tracks : Tracks w dist (n + 1) src out) (b : UInt8) :
    Tracks w dist n src.next (out ++ [b]) := by
  intro more short
  have past := tracks (b :: more) (Nat.succ_lt_succ short)
  rwa [List.length_cons, Origin.add_succ, List.append_cons] at past

theorem copyBytes_match (tracks : Tracks w dist n src out) (room : out.length + n ≤ limit) :
    copyBytes w limit n src out = (copyMatch w dist n out).map fun out => (src.add n, out) := by
  induction n generalizing src out with
  | zero => rw [copyBytes, copyMatch, Option.map_some, Origin.add_zero]
  | succ n ih =>
    have past := tracks [] (Nat.succ_pos n)
    rw [List.length_nil, Origin.add_zero, List.append_nil] at past
    rw [copyBytes, copyMatch, past]
    cases pastByte w dist out with
    | none => rfl
    | some b =>
      have fits : out.length < limit := by omega
      simp only [Option.bind_eq_bind, Option.bind_some, put, if_pos fits]
      rw [ih (tracks.succ b), Origin.add_succ]
      rw [List.length_append, List.length_singleton]
      omega

/-- The output from `dist` bytes before its end on. -/
theorem Tracks.output (inside : dist ≤ out.length) (n : Nat) :
    Tracks w dist n (fromOutput dist out) out := by
  intro more _
  have index : ¬ ((out.length : Int) - dist + more.length < 0) := by omega
  have same : ((out.length : Int) - dist + more.length).toNat = (out ++ more).length - dist := by
    rw [List.length_append]
    omega
  simp only [fromOutput, Origin.add, Origin.load, pastByte]
  rw [if_neg index, same, if_pos]
  rw [List.length_append]
  omega

/-- The window up to `wnext`. -/
theorem Tracks.contiguous {back : Nat} (reach : dist = out.length + back) (low : back ≤ w.wnext) :
    Tracks w dist back (.window ((w.wnext : Int) - back)) out := by
  intro more short
  have index : ¬ ((w.wnext : Int) - back + more.length < 0) := by omega
  have outside : ¬ dist ≤ (out ++ more).length := by
    rw [List.length_append]
    omega
  have same : ((w.wnext : Int) - back + more.length).toNat =
      w.wnext - (dist - (out ++ more).length) := by
    rw [List.length_append]
    omega
  have before : dist - (out ++ more).length ≤ w.wnext := by
    rw [List.length_append]
    omega
  simp only [Origin.add, Origin.load, pastByte]
  rw [if_neg index, same, if_neg outside, if_pos before]

/-- The end of the window, when the match begins there. -/
theorem Tracks.wrapped {back : Nat} (reach : dist = out.length + (w.wnext + back))
    (within : back ≤ w.wsize) :
    Tracks w dist back (.window ((w.wsize : Int) - back)) out := by
  intro more short
  have index : ¬ ((w.wsize : Int) - back + more.length < 0) := by omega
  have outside : ¬ dist ≤ (out ++ more).length := by
    rw [List.length_append]
    omega
  have same : ((w.wsize : Int) - back + more.length).toNat =
      w.wsize + w.wnext - (dist - (out ++ more).length) := by
    rw [List.length_append]
    omega
  have before : ¬ dist - (out ++ more).length ≤ w.wnext := by
    rw [List.length_append]
    omega
  simp only [Origin.add, Origin.load, pastByte]
  rw [if_neg index, same, if_neg outside, if_neg before]

/-! ## The copies of inflate_fast -/

/-- One byte and then more. -/
theorem copyBytes_succ (w : Window) (limit n : Nat) (src : Origin) (out : Bytes) :
    copyBytes w limit (n + 1) src out =
      (copyBytes w limit 1 src out).bind fun next => copyBytes w limit n next.1 next.2 := by
  simp only [copyBytes, Option.bind_eq_bind]
  cases src.load w out with
  | none => rfl
  | some b =>
    simp only [Option.bind_some]
    cases put limit out b <;> rfl

/-- Copying by three is copying. -/
theorem copyThrees_eq (w : Window) (limit : Nat) (len : Nat) (src : Origin) (out : Bytes) :
    copyThrees w limit len src out = (copyBytes w limit len src out).map Prod.snd := by
  induction len using Nat.strong_induction_on generalizing src out with
  | _ len ih =>
    match len with
    | 0 => rfl
    | 1 =>
      rw [copyThrees]
      cases copyBytes w limit 1 src out <;> rfl
    | 2 =>
      rw [copyThrees, copyBytes_succ w limit 1]
      cases copyBytes w limit 1 src out with
      | none => rfl
      | some next =>
        simp only [Option.bind_eq_bind, Option.bind_some]
        cases copyBytes w limit 1 next.1 next.2 <;> rfl
    | len + 3 =>
      rw [copyThrees, copyBytes_succ w limit (len + 2)]
      simp only [Option.bind_eq_bind, Option.map_bind]
      congr 1
      funext next
      rw [Function.comp_apply, copyBytes_succ w limit (len + 1), Option.map_bind]
      congr 1
      funext next
      rw [Function.comp_apply, copyBytes_succ w limit len, Option.map_bind]
      congr 1
      funext next
      exact ih len (by omega) _ _

theorem copyThrees_match (tracks : Tracks w dist n src out) (room : out.length + n ≤ limit) :
    copyThrees w limit n src out = copyMatch w dist n out := by
  rw [copyThrees_eq, copyBytes_match tracks room, Option.map_map]
  exact Option.map_id'

theorem copyDirect_match (tracks : Tracks w dist n src out) (room : out.length + n ≤ limit)
    (three : 3 ≤ n) (small : n < 2 ^ 32) :
    copyDirect w limit n src out = copyMatch w dist n out := by
  obtain ⟨k, rfl⟩ : ∃ k, n = k + 3 := ⟨n - 3, by omega⟩
  have rest : (k + 3 + (2 ^ 32 - 3)) % 2 ^ 32 = k := by omega
  rw [copyDirect, rest, ← copyThrees_match tracks room, copyThrees]

/-- A piece of the window that ends where the output begins, and then the output. -/
theorem fromPiece_match {op len : Nat} (reach : dist = out.length + op)
    (tracks : Tracks w dist op src out) (room : out.length + len ≤ limit) :
    ((fromPiece w limit dist op len src out).bind fun (src, len, out) =>
      copyThrees w limit len src out) = copyMatch w dist len out := by
  unfold fromPiece
  by_cases less : op < len
  · obtain ⟨rest, rfl⟩ : ∃ rest, len = op + rest := ⟨len - op, by omega⟩
    rw [if_pos less, copyBytes_match tracks (by omega), copyMatch_add]
    cases copied : copyMatch w dist op out with
    | none => rfl
    | some out' =>
      have length := copyMatch_length copied
      simp only [Option.map_some, Option.bind_eq_bind, Option.bind_some, Nat.add_sub_cancel_left]
      apply copyThrees_match
      · exact .output (by omega) _
      · omega
  · rw [if_neg less]
    exact copyThrees_match (tracks.mono (by omega)) room

/-- The three cases of `inflate_fast` put the bytes of the match. -/
theorem fromWindow_match (sound : w.Sound) {op len : Nat}
    (reach : dist = out.length + op) (near : op ≤ w.whave) (room : out.length + len ≤ limit) :
    ((fromWindow w limit dist op len out).bind fun (src, len, out) =>
      copyThrees w limit len src out) = copyMatch w dist len out := by
  have whave_le := sound.whave_le
  unfold fromWindow
  by_cases zero : w.wnext = 0
  · rw [if_pos zero]
    exact fromPiece_match reach (.wrapped (by omega) (by omega)) room
  · rw [if_neg zero]
    by_cases wraps : w.wnext < op
    · -- The match begins at the end of the window.
      obtain ⟨back, rfl⟩ : ∃ back, op = w.wnext + back := ⟨op - w.wnext, by omega⟩
      have start : (w.wsize : Int) + w.wnext - (w.wnext + back : Nat) = w.wsize - back := by omega
      have tracks : Tracks w dist back (.window ((w.wsize : Int) - back)) out :=
        .wrapped reach (by omega)
      rw [if_pos wraps, start, Nat.add_sub_cancel_left]
      by_cases less : back < len
      · obtain ⟨rest, rfl⟩ : ∃ rest, len = back + rest := ⟨len - back, by omega⟩
        rw [if_pos less, copyBytes_match tracks (by omega), copyMatch_add]
        cases copied : copyMatch w dist back out with
        | none => rfl
        | some out' =>
          have length := copyMatch_length copied
          have origin : Tracks w dist w.wnext (.window 0) out' := by
            have tracks' := @Tracks.contiguous w dist out' w.wnext (by omega) (Nat.le_refl _)
            rwa [Int.sub_self] at tracks'
          simp only [Option.map_some, Option.bind_eq_bind, Option.bind_some,
            Nat.add_sub_cancel_left]
          exact fromPiece_match (by omega) origin (by omega)
      · rw [if_neg less]
        exact copyThrees_match (tracks.mono (by omega)) room
    · rw [if_neg wraps]
      exact fromPiece_match reach (.contiguous reach (by omega)) room

/-- The copy of `inflate_fast`, for a match that does not reach too far back. -/
theorem fastMatch_near (s : State) (sound : s.window.Sound) {v : FastVars} {len : Nat}
    (near : dist ≤ v.out.length + s.window.whave) (three : 3 ≤ len)
    (small : len < 2 ^ 32) (room : v.out.length + len ≤ limit) :
    fastMatch s limit dist len v =
      (copyMatch s.window dist len v.out).map fun out => ({ v with out := out }, none) := by
  unfold fastMatch
  by_cases window : dist > v.out.length
  · have within : ¬ (dist - v.out.length > s.window.whave ∧ s.sane = true) := by omega
    rw [if_pos window, if_neg within,
      ← @fromWindow_match s.window dist limit v.out sound (dist - v.out.length) len (by omega)
        (by omega) room]
    simp only [Option.bind_eq_bind, Option.map_eq_bind, Option.bind_assoc]
    rfl
  · rw [if_neg window, copyDirect_match (.output (by omega) _) room three small]
    cases copyMatch s.window dist len v.out <;> rfl

theorem fastMatch_far (s : State) {v : FastVars} {len : Nat} (sane : s.sane = true)
    (far : v.out.length + s.window.whave < dist) :
    fastMatch s limit dist len v =
      some (v, some ⟨.bad, "invalid distance too far back"⟩) := by
  have outside : dist > v.out.length := by omega
  have too : dist - v.out.length > s.window.whave ∧ s.sane = true := ⟨by omega, sane⟩
  rw [fastMatch, if_pos outside, if_pos too]

end

end CheriGzip.Inflate
