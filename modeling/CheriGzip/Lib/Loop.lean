/-!
# Loops by fuel

A C loop is a body that maps the loop's state to another state or to the value the
loop is left with. `run` iterates the body a bounded number of times; `Leaves` says that
some bound is enough. The rules are the invariant rule, the variant rule and the
composition of a prefix of the iterations with what follows it.
-/
namespace CheriGzip.Loop

/-- What one round of a loop does: go round again, or leave with a value. -/
inductive Turn (σ ρ : Type) where
  | again (s : σ)
  | leave (r : ρ)
  deriving DecidableEq, Repr

variable {σ ρ : Type}

/-- At most `fuel` rounds of `body`; `none` when they were not enough. -/
def run (body : σ → Turn σ ρ) : Nat → σ → Option ρ
  | 0, _ => none
  | fuel + 1, s =>
    match body s with
    | .again s' => run body fuel s'
    | .leave r => some r

/-- The loop entered at `s` is left with `r`. -/
def Leaves (body : σ → Turn σ ρ) (s : σ) (r : ρ) : Prop :=
  ∃ fuel, run body fuel s = some r

/-- Finitely many rounds lead from one state to another. -/
inductive Goes (body : σ → Turn σ ρ) : σ → σ → Prop where
  | refl (s : σ) : Goes body s s
  | head {s mid t : σ} (turn : body s = .again mid) (rest : Goes body mid t) : Goes body s t

/-- The loop entered at `s` is left with `r` in its `n`th round. -/
inductive LeavesIn (body : σ → Turn σ ρ) : Nat → σ → ρ → Prop where
  | last {s : σ} {r : ρ} (turn : body s = .leave r) : LeavesIn body 1 s r
  | again {n : Nat} {s s' : σ} {r : ρ} (turn : body s = .again s')
      (rest : LeavesIn body n s' r) : LeavesIn body (n + 1) s r

/-- The loop entered at `s` comes to `t`, and to no state with the goal before it. -/
inductive First (body : σ → Turn σ ρ) (goal : σ → Prop) : σ → σ → Prop where
  | here {s : σ} (reached : goal s) : First body goal s s
  | later {s mid t : σ} (before : ¬ goal s) (turn : body s = .again mid)
      (rest : First body goal mid t) : First body goal s t

theorem LeavesIn.run_eq {body : σ → Turn σ ρ} {n : Nat} {s : σ} {r : ρ}
    (left : LeavesIn body n s r) : run body n s = some r := by
  induction left with
  | last turn => simp only [run, turn]
  | again turn _ ih => simp only [run, turn, ih]

theorem run_mono (body : σ → Turn σ ρ) {fuel more : Nat} (le : fuel ≤ more) {s : σ} {r : ρ}
    (ran : run body fuel s = some r) : run body more s = some r := by
  induction fuel generalizing s more with
  | zero => simp [run] at ran
  | succ fuel ih =>
    obtain ⟨more, rfl⟩ : ∃ k, more = k + 1 := ⟨more - 1, by omega⟩
    simp only [run] at ran ⊢
    cases turn : body s with
    | leave r' => simpa [turn] using ran
    | again s' =>
      simp only [turn] at ran ⊢
      exact ih (by omega) ran

theorem Leaves.unique {body : σ → Turn σ ρ} {s : σ} {r r' : ρ}
    (left : Leaves body s r) (right : Leaves body s r') : r = r' := by
  obtain ⟨n, hn⟩ := left
  obtain ⟨m, hm⟩ := right
  have hn' := run_mono body (Nat.le_max_left n m) hn
  have hm' := run_mono body (Nat.le_max_right n m) hm
  exact Option.some.inj (hn'.symm.trans hm')

theorem Leaves.of_leave {body : σ → Turn σ ρ} {s : σ} {r : ρ} (turn : body s = .leave r) :
    Leaves body s r :=
  ⟨1, by simp [run, turn]⟩

theorem leaves_again {body : σ → Turn σ ρ} {s s' : σ} {r : ρ} (turn : body s = .again s') :
    Leaves body s r ↔ Leaves body s' r := by
  constructor
  · rintro ⟨fuel, ran⟩
    cases fuel with
    | zero => simp [run] at ran
    | succ fuel => exact ⟨fuel, by simpa [run, turn] using ran⟩
  · rintro ⟨fuel, ran⟩
    exact ⟨fuel + 1, by simpa [run, turn] using ran⟩

theorem Goes.one {body : σ → Turn σ ρ} {s t : σ} (turn : body s = .again t) : Goes body s t :=
  .head turn (.refl t)

theorem Goes.trans {body : σ → Turn σ ρ} {s t u : σ} (first : Goes body s t)
    (second : Goes body t u) : Goes body s u := by
  induction first with
  | refl => exact second
  | head turn _ ih => exact .head turn (ih second)

/-- Two states that a loop comes to from one state come one after the other. -/
theorem Goes.comparable {body : σ → Turn σ ρ} {s t u : σ} (one : Goes body s t)
    (other : Goes body s u) : Goes body t u ∨ Goes body u t := by
  induction one with
  | refl => exact .inl other
  | head turn rest ih =>
    cases other with
    | refl => exact .inr (.head turn rest)
    | head turn' rest' =>
      rw [turn] at turn'
      cases turn'
      exact ih rest'

theorem Goes.leaves {body : σ → Turn σ ρ} {s t : σ} (goes : Goes body s t) {r : ρ} :
    Leaves body s r ↔ Leaves body t r := by
  induction goes with
  | refl => exact Iff.rfl
  | head turn _ ih => exact (leaves_again turn).trans ih

theorem First.unique {body : σ → Turn σ ρ} {goal : σ → Prop} {s t u : σ}
    (one : First body goal s t) (other : First body goal s u) : t = u := by
  induction one with
  | here reached =>
    cases other with
    | here => rfl
    | later before => exact absurd reached before
  | later before turn _ ih =>
    cases other with
    | here reached => exact absurd reached before
    | later _ turn' rest =>
      rw [turn] at turn'
      cases turn'
      exact ih rest

/-- A goal beyond another one. -/
theorem First.trans {body : σ → Turn σ ρ} {goal goal' : σ → Prop}
    (beyond : ∀ s, goal' s → goal s) {s t u : σ} (first : First body goal s t)
    (second : First body goal' t u) : First body goal' s u := by
  induction first with
  | here => exact second
  | later before turn _ ih => exact .later (fun reached => before (beyond _ reached)) turn (ih second)

/-- Simulation rule for the first state with a goal. -/
theorem First.simulate {σ' ρ' : Type} {body : σ → Turn σ ρ} {body' : σ' → Turn σ' ρ'}
    {goal : σ → Prop} {goal' : σ' → Prop} (R : σ' → σ → Prop)
    (goals : ∀ a s, R a s → (goal' a ↔ goal s))
    (turns : ∀ a s s', R a s → body s = .again s' → ∃ a', body' a = .again a' ∧ R a' s')
    {s t : σ} (first : First body goal s t) {a : σ'} (related : R a s) :
    ∃ b, First body' goal' a b ∧ R b t := by
  induction first generalizing a with
  | here reached => exact ⟨a, .here ((goals a _ related).mpr reached), related⟩
  | later before turn _ ih =>
    obtain ⟨a', turn', related'⟩ := turns a _ _ related turn
    obtain ⟨b, rest, last⟩ := ih related'
    exact ⟨b, .later (fun reached => before ((goals a _ related).mp reached)) turn' rest, last⟩

/-- Invariant rule: what every round keeps holds of the value the loop is left with. -/
theorem Leaves.invariant {body : σ → Turn σ ρ} (inv : σ → Prop) (post : ρ → Prop)
    (keeps : ∀ s s', inv s → body s = .again s' → inv s')
    (gives : ∀ s r, inv s → body s = .leave r → post r)
    {s : σ} {r : ρ} (left : Leaves body s r) (start : inv s) : post r := by
  obtain ⟨fuel, ran⟩ := left
  induction fuel generalizing s with
  | zero => simp [run] at ran
  | succ fuel ih =>
    simp only [run] at ran
    cases turn : body s with
    | again s' =>
      simp only [turn] at ran
      exact ih (keeps s s' start turn) ran
    | leave r' =>
      simp only [turn, Option.some.injEq] at ran
      exact ran ▸ gives s r' start turn

/-- What holds of the value a loop is left with, read off the states it goes through: each
round that goes on is `good`, and the last one is `good` when the value is as it should be. -/
theorem Leaves.iff_goes {body : σ → Turn σ ρ} (inv good : σ → Prop) (post : ρ → Prop)
    (keeps : ∀ s s', inv s → body s = .again s' → inv s' ∧ good s)
    (gives : ∀ s r, inv s → body s = .leave r → (post r ↔ good s))
    {s : σ} {r : ρ} (left : Leaves body s r) (start : inv s) :
    post r ↔ ∀ t, Goes body s t → good t := by
  obtain ⟨fuel, ran⟩ := left
  induction fuel generalizing s with
  | zero => simp [run] at ran
  | succ fuel ih =>
    simp only [run] at ran
    cases turn : body s with
    | again s' =>
      simp only [turn] at ran
      obtain ⟨kept, goodHere⟩ := keeps s s' start turn
      rw [ih kept ran]
      constructor
      · intro all t goes
        cases goes with
        | refl => exact goodHere
        | head turn' rest =>
          rw [turn] at turn'
          cases turn'
          exact all t rest
      · intro all t goes
        exact all t (.head turn goes)
    | leave r' =>
      simp only [turn, Option.some.injEq] at ran
      rw [← ran, gives s r' start turn]
      constructor
      · intro goodHere t goes
        cases goes with
        | refl => exact goodHere
        | head turn' =>
          rw [turn] at turn'
          cases turn'
      · intro all
        exact all s (.refl s)

/-- Variant rule: a loop whose rounds descend in a well-founded order is left. -/
theorem Leaves.exists_of_variant {α : Type} {body : σ → Turn σ ρ} (inv : σ → Prop)
    (measure : σ → α) {lt : α → α → Prop} (wf : WellFounded lt)
    (descends : ∀ s s', inv s → body s = .again s' → inv s' ∧ lt (measure s') (measure s))
    (s : σ) (start : inv s) : ∃ r, Leaves body s r := by
  induction h : measure s using wf.induction generalizing s with
  | _ m ih =>
    subst h
    cases turn : body s with
    | leave r => exact ⟨r, .of_leave turn⟩
    | again s' =>
      obtain ⟨kept, smaller⟩ := descends s s' start turn
      obtain ⟨r, left⟩ := ih _ smaller s' kept rfl
      exact ⟨r, (leaves_again turn).mpr left⟩

/-- Ghost rule: a ghost state that describes the loop's state at every round and descends in
a well-founded order, with a postcondition that each round carries back. -/
theorem Leaves.exists_of_ghost {ι : Type} {body : σ → Turn σ ρ} {lt : ι → ι → Prop}
    (wf : WellFounded lt) (inv : ι → σ → Prop) (post : ι → ρ → Prop)
    (goes : ∀ i s s', inv i s → body s = .again s' →
      ∃ j, lt j i ∧ inv j s' ∧ ∀ r, post j r → post i r)
    (gives : ∀ i s r, inv i s → body s = .leave r → post i r)
    (i : ι) (s : σ) (start : inv i s) : ∃ r, Leaves body s r ∧ post i r := by
  induction i using wf.induction generalizing s with
  | _ i ih =>
    cases turn : body s with
    | leave r => exact ⟨r, .of_leave turn, gives i s r start turn⟩
    | again s' =>
      obtain ⟨j, smaller, kept, back⟩ := goes i s s' start turn
      obtain ⟨r, left, holds⟩ := ih j smaller s' kept
      exact ⟨r, (leaves_again turn).mpr left, back r holds⟩

/-- Two turns that do the same, with related states and values. -/
inductive Turn.Rel {σ' ρ' : Type} (R : σ → σ' → Prop) (Q : ρ → ρ' → Prop) :
    Turn σ ρ → Turn σ' ρ' → Prop where
  | again {s : σ} {t : σ'} (states : R s t) : Rel R Q (.again s) (.again t)
  | leave {r : ρ} {q : ρ'} (values : Q r q) : Rel R Q (.leave r) (.leave q)

theorem Turn.Rel.ite {σ' ρ' : Type} {R : σ → σ' → Prop} {Q : ρ → ρ' → Prop} {c : Prop}
    [Decidable c] {a b : Turn σ ρ} {a' b' : Turn σ' ρ'} (pos : c → Turn.Rel R Q a a')
    (neg : ¬ c → Turn.Rel R Q b b') :
    Turn.Rel R Q (if c then a else b) (if c then a' else b') := by
  by_cases holds : c
  · rw [if_pos holds, if_pos holds]
    exact pos holds
  · rw [if_neg holds, if_neg holds]
    exact neg holds

/-- Simulation rule: loops whose bodies are related run for the same time, to related values. -/
theorem run_optionRel {σ' ρ' : Type} {R : σ → σ' → Prop} {Q : ρ → ρ' → Prop}
    {body : σ → Turn σ ρ} {body' : σ' → Turn σ' ρ'}
    (related : ∀ s t, R s t → Turn.Rel R Q (body s) (body' t)) (fuel : Nat) {s : σ} {t : σ'}
    (states : R s t) : Option.Rel Q (run body fuel s) (run body' fuel t) := by
  induction fuel generalizing s t with
  | zero => exact .none
  | succ fuel ih =>
    have turns := related s t states
    simp only [run]
    cases turn : body s with
    | again s' =>
      cases turn' : body' t with
      | again t' =>
        rw [turn, turn'] at turns
        cases turns with
        | again states' => exact ih states'
      | leave q =>
        rw [turn, turn'] at turns
        cases turns
    | leave r =>
      cases turn' : body' t with
      | again t' =>
        rw [turn, turn'] at turns
        cases turns
      | leave q =>
        rw [turn, turn'] at turns
        cases turns with
        | leave values => exact .some values

/-- A run that is left has a related one. -/
theorem run_rel {σ' ρ' : Type} {R : σ → σ' → Prop} {Q : ρ → ρ' → Prop} {body : σ → Turn σ ρ}
    {body' : σ' → Turn σ' ρ'} (related : ∀ s t, R s t → Turn.Rel R Q (body s) (body' t))
    {fuel : Nat} {s : σ} {t : σ'} (states : R s t) {r : ρ} (ran : run body fuel s = some r) :
    ∃ q, run body' fuel t = some q ∧ Q r q := by
  have runs := run_optionRel related fuel states
  rw [ran] at runs
  cases ran' : run body' fuel t with
  | none =>
    rw [ran'] at runs
    cases runs
  | some q =>
    rw [ran'] at runs
    cases runs with
    | some values => exact ⟨q, rfl, values⟩

end CheriGzip.Loop
