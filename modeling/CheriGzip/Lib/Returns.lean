import CheriGzip.Lib.Proc

/-!
# Runs that return

`Returns` is the big-step reading of a program: the values it can return and the states it
returns them in. `Always` is partial correctness over these runs, and `run` finds one of them
with an environment that computes its answers.
-/
namespace CheriGzip.Proc

open Loop (Turn)

variable {ε : Type} {κ : ε → Type} {α β σ ρ S : Type} {env : Env κ S}

/-- A run of the program from the first state returns the value in the second. -/
inductive Returns (env : Env κ S) : {α : Type} → Proc κ α → S → α → S → Prop where
  | ret {α : Type} (a : α) (s : S) : Returns env (.ret a) s a s
  | op {α : Type} {e : ε} {k : κ e → Proc κ α} {s s' s'' : S} {x : κ e} {a : α}
      (answered : env e s x s') (rest : Returns env (k x) s' a s'') :
      Returns env (.op e k) s a s''
  | loop {α σ ρ : Type} {body : σ → Proc κ (Turn σ ρ)} {k : ρ → Proc κ α} {x : σ}
      {t : Turn σ ρ} {s s' s'' : S} {a : α} (round : Returns env (body x) s t s')
      (rest : Returns env (next body k t) s' a s'') : Returns env (.loop body x k) s a s''

namespace Returns

theorem bind {p : Proc κ β} {f : β → Proc κ α} {s s' s'' : S} {b : β} {a : α}
    (first : Returns env p s b s') (second : Returns env (f b) s' a s'') :
    Returns env (p.bind f) s a s'' := by
  induction first with
  | ret => exact second
  | op answered _ ih => exact .op answered (ih second)
  | loop round _ _ ih =>
    refine .loop round ?_
    rw [← next_bind]
    exact ih second

/-- A run of two programs in sequence is a run of the one and then of the other. -/
theorem of_bind {p : Proc κ β} {f : β → Proc κ α} {s s'' : S} {a : α}
    (run : Returns env (p.bind f) s a s'') :
    ∃ b s', Returns env p s b s' ∧ Returns env (f b) s' a s'' := by
  generalize whole : p.bind f = q at run
  induction run generalizing p with
  | ret a s =>
    cases p with
    | ret b =>
      rw [ret_bind] at whole
      exact ⟨b, s, .ret b s, whole ▸ .ret a s⟩
    | op e k => cases whole
    | loop body x k => cases whole
  | op answered rest ih =>
    cases p with
    | ret b =>
      rw [ret_bind] at whole
      exact ⟨b, _, .ret b _, whole ▸ .op answered rest⟩
    | op e k =>
      cases whole
      obtain ⟨b, s', first, second⟩ := ih rfl
      exact ⟨b, s', .op answered first, second⟩
    | loop body x k => cases whole
  | loop round rest _ ih =>
    cases p with
    | ret b =>
      rw [ret_bind] at whole
      exact ⟨b, _, .ret b _, whole ▸ .loop round rest⟩
    | op e k => cases whole
    | loop body x k =>
      cases whole
      obtain ⟨b, s', first, second⟩ := ih (by rw [← next_bind])
      exact ⟨b, s', .loop round first, second⟩

end Returns

/-- What a run returns, read off the head of its program. -/
def Head.Returns (env : Env κ S) (s : S) (a : α) (s' : S) : Head κ α → Prop
  | .done b => b = a ∧ s = s'
  | .turn q => Proc.Returns env q s a s'
  | .waits e k => ∃ x mid, env e s x mid ∧ Proc.Returns env (k x) mid a s'

theorem Returns.head {p : Proc κ α} {s s' : S} {a : α} (run : Returns env p s a s') :
    p.head.Returns env s a s' := by
  induction run with
  | ret a s => exact ⟨rfl, rfl⟩
  | op answered rest => exact ⟨_, _, answered, rest⟩
  | @loop _ _ _ body k x t s mid s' a _ rest first second =>
    rw [head_loop]
    cases round : (body x).head with
    | done t' =>
      rw [round] at first
      obtain ⟨rfl, rfl⟩ := first
      cases t' with
      | again x' => exact rest
      | leave r => exact second
    | turn q =>
      rw [round] at first
      exact first.bind rest
    | waits e k' =>
      rw [round] at first
      obtain ⟨y, s₁, answered, first⟩ := first
      exact ⟨y, s₁, answered, first.bind rest⟩

/-- Every run that returns does so with `post`. -/
def Always (env : Env κ S) (post : α → S → Prop) (p : Proc κ α) (s : S) : Prop :=
  ∀ a s', Returns env p s a s' → post a s'

/-- Total correctness is partial correctness with an end to every run. -/
theorem Ensures.always {post : α → S → Prop} {p : Proc κ α} {s : S}
    (ensures : Ensures env post p s) : Always env post p s := by
  intro a s' run
  induction ensures with
  | done rests holds =>
    have last := run.head
    rw [rests] at last
    obtain ⟨rfl, rfl⟩ := last
    exact holds
  | turn rests _ ih =>
    have later := run.head
    rw [rests] at later
    exact ih later
  | op rests _ _ ih =>
    have later := run.head
    rw [rests] at later
    obtain ⟨x, mid, answered, later⟩ := later
    exact ih x mid answered later

namespace Always

variable {post : α → S → Prop}

theorem ret {a : α} {s : S} (holds : post a s) : Always env post (.ret a) s := by
  rintro _ _ ⟨⟩
  exact holds

theorem call {e : ε} {k : κ e → Proc κ α} {s : S}
    (later : ∀ x s', env e s x s' → Always env post (k x) s') :
    Always env post (.op e k) s := by
  intro a s' run
  cases run with
  | op answered rest => exact later _ _ answered _ _ rest

theorem mono {post' : α → S → Prop} {p : Proc κ α} {s : S} (always : Always env post p s)
    (weaker : ∀ a s', post a s' → post' a s') : Always env post' p s :=
  fun a s' run => weaker a s' (always a s' run)

/-- Sequencing rule. -/
theorem bind {mid : β → S → Prop} {p : Proc κ β} {f : β → Proc κ α} {s : S}
    (first : Always env mid p s) (second : ∀ b s', mid b s' → Always env post (f b) s') :
    Always env post (p.bind f) s := by
  intro a s'' run
  obtain ⟨b, s', run₁, run₂⟩ := run.of_bind
  exact second b s' (first b s' run₁) a s'' run₂

/-- Loop rule: an invariant. -/
theorem loop {body : σ → Proc κ (Turn σ ρ)} {k : ρ → Proc κ α} (inv : σ → S → Prop)
    (round : ∀ x s, inv x s → Always env (fun t s' => match t with
      | .again x' => inv x' s'
      | .leave r => Always env post (k r) s') (body x) s)
    {x : σ} {s : S} (start : inv x s) : Always env post (.loop body x k) s := by
  intro a s'' run
  generalize whole : Proc.loop body x k = p at run
  induction run generalizing x with
  | ret => cases whole
  | op => cases whole
  | @loop _ _ _ _ _ _ t _ _ _ _ first rest _ ih =>
    cases whole
    have after := round x _ start t _ first
    cases t with
    | again x' => exact ih round after rfl
    | leave r => exact after _ _ rest

end Always

/-! ## Running a program -/

/-- Run a program against an environment that computes its answers. -/
def run (answer : (e : ε) → S → Option (κ e × S)) :
    Nat → {α : Type} → Proc κ α → S → Option (α × S)
  | 0, _, _, _ => none
  | _ + 1, _, .ret a, s => some (a, s)
  | fuel + 1, _, .op e k, s => (answer e s).bind fun (x, s') => run answer fuel (k x) s'
  | fuel + 1, _, .loop body x k, s =>
    (run answer fuel (body x) s).bind fun (t, s') => run answer fuel (next body k t) s'

theorem run_returns {answer : (e : ε) → S → Option (κ e × S)}
    (sound : ∀ e s x s', answer e s = some (x, s') → env e s x s') {fuel : Nat} {p : Proc κ α}
    {s s' : S} {a : α} (found : run answer fuel p s = some (a, s')) : Returns env p s a s' := by
  induction fuel generalizing α p s s' with
  | zero => cases found
  | succ fuel ih =>
    cases p with
    | ret b =>
      cases found
      exact .ret _ _
    | op e k =>
      obtain ⟨⟨x, mid⟩, answered, rest⟩ := Option.bind_eq_some_iff.mp found
      simp only at rest
      exact .op (sound e s x mid answered) (ih rest)
    | loop body x k =>
      obtain ⟨⟨t, mid⟩, round, rest⟩ := Option.bind_eq_some_iff.mp found
      simp only at rest
      exact .loop (ih round) (ih rest)

end CheriGzip.Proc
