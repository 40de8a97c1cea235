import CheriGzip.Lib.Loop

/-!
# Programs that call their environment

A program is a tree of operations with explicit loops. `head` runs a program up to its next
operation. A run alternates operations, answered by the environment, with such heads;
`Ensures` says that every run ends and that the values it returns satisfy a postcondition.
-/
namespace CheriGzip

open Loop (Turn)

/-- Programs over the operations `ε`; an operation `e` is answered by a value of `κ e`. -/
inductive Proc {ε : Type} (κ : ε → Type) : Type → Type 1 where
  | ret {α : Type} (a : α) : Proc κ α
  | op {α : Type} (e : ε) (k : κ e → Proc κ α) : Proc κ α
  | loop {σ ρ α : Type} (body : σ → Proc κ (Turn σ ρ)) (s : σ) (k : ρ → Proc κ α) : Proc κ α

namespace Proc

variable {ε : Type} {κ : ε → Type} {α β γ σ ρ : Type}

/-- Sequencing. -/
def bind : Proc κ α → (α → Proc κ β) → Proc κ β
  | .ret a, f => f a
  | .op e k, f => .op e fun x => (k x).bind f
  | .loop body s k, f => .loop body s fun r => (k r).bind f

instance : Monad (Proc κ) where
  pure := .ret
  bind := bind

/-- A single operation. -/
def call (e : ε) : Proc κ (κ e) := .op e .ret

/-- `while (1) body`, left with the value of the round that leaves. -/
def iterate (body : σ → Proc κ (Turn σ ρ)) (s : σ) : Proc κ ρ := .loop body s .ret

/-- What follows a round of a loop. -/
def next (body : σ → Proc κ (Turn σ ρ)) (k : ρ → Proc κ α) : Turn σ ρ → Proc κ α
  | .again s => .loop body s k
  | .leave r => k r

/-- A program at rest: it has returned, it goes round a loop, or it waits for the answer to
an operation. -/
inductive Head (κ : ε → Type) (α : Type) : Type 1 where
  | done (a : α)
  | turn (p : Proc κ α)
  | waits (e : ε) (k : κ e → Proc κ α)

/-- The head of a program followed by `f`; `onDone` when the program has returned. -/
def Head.andThen (f : α → Proc κ β) (onDone : α → Head κ β) : Head κ α → Head κ β
  | .done a => onDone a
  | .turn p => .turn (p.bind f)
  | .waits e k => .waits e fun x => (k x).bind f

/-- Run up to the next operation or the next round of a loop. -/
def head : {α : Type} → Proc κ α → Head κ α
  | _, .ret a => .done a
  | _, .op e k => .waits e k
  | _, .loop body s k =>
    (head (body s)).andThen (next body k) fun
      | .again s' => .turn (.loop body s' k)
      | .leave r => head (k r)

@[simp] theorem pure_eq (a : α) : (pure a : Proc κ α) = .ret a := rfl
@[simp] theorem bind_eq (p : Proc κ α) (f : α → Proc κ β) : p >>= f = p.bind f := rfl
@[simp] theorem ret_bind (a : α) (f : α → Proc κ β) : (ret a : Proc κ α).bind f = f a := rfl
@[simp] theorem op_bind (e : ε) (k : κ e → Proc κ α) (f : α → Proc κ β) :
    (op e k).bind f = op e fun x => (k x).bind f := rfl
@[simp] theorem loop_bind (body : σ → Proc κ (Turn σ ρ)) (s : σ) (k : ρ → Proc κ α)
    (f : α → Proc κ β) : (loop body s k).bind f = loop body s fun r => (k r).bind f := rfl
@[simp] theorem call_bind (e : ε) (f : κ e → Proc κ β) : (call e).bind f = op e f := rfl
@[simp] theorem iterate_bind (body : σ → Proc κ (Turn σ ρ)) (s : σ) (f : ρ → Proc κ β) :
    (iterate body s).bind f = loop body s f := rfl
@[simp] theorem next_again (body : σ → Proc κ (Turn σ ρ)) (k : ρ → Proc κ α) (s : σ) :
    next body k (.again s) = loop body s k := rfl
@[simp] theorem next_leave (body : σ → Proc κ (Turn σ ρ)) (k : ρ → Proc κ α) (r : ρ) :
    next body k (.leave r) = k r := rfl

protected theorem bind_assoc (p : Proc κ α) (f : α → Proc κ β) (g : β → Proc κ γ) :
    (p.bind f).bind g = p.bind fun a => (f a).bind g := by
  induction p with
  | ret => rfl
  | op e k ih => simp only [op_bind, ih]
  | loop body s k _ ih => simp only [loop_bind, ih]

@[simp] theorem bind_ret (p : Proc κ α) : p.bind ret = p := by
  induction p with
  | ret => rfl
  | op e k ih => simp only [op_bind, ih]
  | loop body s k _ ih => simp only [loop_bind, ih]

@[simp] theorem head_ret (a : α) : (ret a : Proc κ α).head = .done a := rfl
@[simp] theorem head_op (e : ε) (k : κ e → Proc κ α) : (op e k).head = .waits e k := rfl

/-- The rounds of a loop after the first are the loop entered again. -/
theorem head_loop (body : σ → Proc κ (Turn σ ρ)) (s : σ) (k : ρ → Proc κ α) :
    (loop body s k).head = (body s).head.andThen (next body k) fun
      | .again s' => .turn (loop body s' k)
      | .leave r => (k r).head := by
  rw [head]

@[simp] theorem andThen_done (f : α → Proc κ β) (onDone : α → Head κ β) (a : α) :
    (Head.done a).andThen f onDone = onDone a := rfl
@[simp] theorem andThen_waits (f : α → Proc κ β) (onDone : α → Head κ β) (e : ε)
    (k : κ e → Proc κ α) :
    (Head.waits e k).andThen f onDone = .waits e fun x => (k x).bind f := rfl

theorem next_bind (body : σ → Proc κ (Turn σ ρ)) (k : ρ → Proc κ α) (f : α → Proc κ β) :
    (fun t => (next body k t).bind f) = next body fun r => (k r).bind f := by
  funext t
  cases t <;> rfl

theorem head_bind (p : Proc κ α) (f : α → Proc κ β) :
    (p.bind f).head = p.head.andThen f fun a => (f a).head := by
  induction p with
  | ret => rfl
  | op => rfl
  | loop body s k _ ih =>
    simp only [loop_bind, head_loop]
    cases (body s).head with
    | done t => cases t with
      | again s' => rfl
      | leave r => exact ih r f
    | turn p => simp only [Head.andThen, Proc.bind_assoc, next_bind]
    | waits e k' => simp only [Head.andThen, Proc.bind_assoc, next_bind]

/-- A loop whose round does not go round at once is that round and what follows it. -/
theorem head_unroll {body : σ → Proc κ (Turn σ ρ)} {s : σ} (k : ρ → Proc κ α)
    (never : ∀ s', (body s).head ≠ .done (.again s')) :
    (loop body s k).head = ((body s).bind (next body k)).head := by
  rw [head_loop, head_bind]
  cases round : (body s).head with
  | done t => cases t with
    | again s' => exact absurd round (never s')
    | leave r => rfl
  | turn => rfl
  | waits => rfl

/-- The answers an environment in a state may give, with the state it is in afterwards. -/
abbrev Env (κ : ε → Type) (S : Type) := (e : ε) → S → κ e → S → Prop

variable {S : Type}

/-- Every run of the program from the environment's state ends, none of them stuck at an
operation without an answer, and the values they return satisfy `post` with the state they
are returned in. -/
inductive Ensures (env : Env κ S) (post : α → S → Prop) : Proc κ α → S → Prop where
  | done {p : Proc κ α} {s : S} {a : α} (rests : p.head = .done a) (holds : post a s) :
      Ensures env post p s
  | turn {p q : Proc κ α} {s : S} (rests : p.head = .turn q) (later : Ensures env post q s) :
      Ensures env post p s
  | op {p : Proc κ α} {s : S} {e : ε} {k : κ e → Proc κ α} (rests : p.head = .waits e k)
      (answered : ∃ x s', env e s x s')
      (later : ∀ x s', env e s x s' → Ensures env post (k x) s') : Ensures env post p s

namespace Ensures

variable {env : Env κ S} {post : α → S → Prop}

theorem ret {a : α} {s : S} (holds : post a s) : Ensures env post (.ret a) s :=
  .done rfl holds

theorem call {e : ε} {k : κ e → Proc κ α} {s : S} (answered : ∃ x s', env e s x s')
    (later : ∀ x s', env e s x s' → Ensures env post (k x) s') :
    Ensures env post (.op e k) s :=
  .op rfl answered later

theorem of_head {p q : Proc κ α} {s : S} (same : p.head = q.head)
    (ensures : Ensures env post p s) : Ensures env post q s := by
  cases ensures with
  | done rests holds => exact .done (same ▸ rests) holds
  | turn rests later => exact .turn (same ▸ rests) later
  | op rests answered later => exact .op (same ▸ rests) answered later

theorem mono {post' : α → S → Prop} {p : Proc κ α} {s : S} (ensures : Ensures env post p s)
    (weaker : ∀ a s', post a s' → post' a s') : Ensures env post' p s := by
  induction ensures with
  | done rests holds => exact .done rests (weaker _ _ holds)
  | turn rests _ ih => exact .turn rests ih
  | op rests answered _ ih => exact .op rests answered ih

/-- Two postconditions hold together of some run, since no run is without an end. -/
theorem meet {post' : α → S → Prop} {p : Proc κ α} {s : S} (one : Ensures env post p s)
    (other : Ensures env post' p s) : ∃ a s', post a s' ∧ post' a s' := by
  induction one with
  | @done p s a rests holds =>
    cases other with
    | done rests' holds' =>
      cases rests.symm.trans rests'
      exact ⟨a, s, holds, holds'⟩
    | turn rests' => cases rests.symm.trans rests'
    | op rests' => cases rests.symm.trans rests'
  | turn rests _ ih =>
    cases other with
    | done rests' => cases rests.symm.trans rests'
    | turn rests' later =>
      cases rests.symm.trans rests'
      exact ih later
    | op rests' => cases rests.symm.trans rests'
  | op rests answered _ ih =>
    cases other with
    | done rests' => cases rests.symm.trans rests'
    | turn rests' => cases rests.symm.trans rests'
    | op rests' _ later =>
      cases rests.symm.trans rests'
      obtain ⟨x, s', answer⟩ := answered
      exact ih x s' answer (later x s' answer)

/-- Sequencing rule. -/
theorem bind {mid : β → S → Prop} {p : Proc κ β} {f : β → Proc κ α} {s : S}
    (first : Ensures env mid p s) (second : ∀ b s', mid b s' → Ensures env post (f b) s') :
    Ensures env post (p.bind f) s := by
  induction first with
  | done rests holds =>
    exact of_head (by rw [head_bind, rests, Head.andThen]) (second _ _ holds)
  | turn rests _ ih => exact .turn (by rw [head_bind, rests, Head.andThen]) ih
  | op rests answered _ ih => exact .op (by rw [head_bind, rests, Head.andThen]) answered ih

/-- One round of a loop. -/
theorem unroll {body : σ → Proc κ (Turn σ ρ)} {x : σ} {k : ρ → Proc κ α} {s : S}
    (round : Ensures env (fun t s' => Ensures env post (next body k t) s') (body x) s) :
    Ensures env post (.loop body x k) s := by
  generalize run : body x = p at round
  cases round with
  | @done _ _ t rests holds =>
    cases t with
    | again x' => exact .turn (by rw [head_loop, run, rests]; rfl) holds
    | leave r => exact of_head (by rw [head_loop, run, rests]; rfl) holds
  | turn rests later =>
    exact .turn (by rw [head_loop, run, rests, Head.andThen]) (later.bind fun _ _ h => h)
  | op rests answered later =>
    exact .op (by rw [head_loop, run, rests, Head.andThen]) answered
      fun x' s' answer => (later x' s' answer).bind fun _ _ h => h

/-- Loop rule: an invariant and a variant in the natural numbers. -/
theorem loop {body : σ → Proc κ (Turn σ ρ)} {k : ρ → Proc κ α} (inv : σ → S → Prop)
    (variant : σ → S → Nat)
    (round : ∀ x s, inv x s → Ensures env (fun t s' => match t with
      | .again x' => inv x' s' ∧ variant x' s' < variant x s
      | .leave r => Ensures env post (k r) s') (body x) s)
    {x : σ} {s : S} (start : inv x s) : Ensures env post (.loop body x k) s := by
  induction bound : variant x s using Nat.strongRecOn generalizing x s with
  | _ n ih =>
    subst bound
    refine unroll ((round x s start).mono ?_)
    intro t s' holds
    cases t with
    | again x' => exact ih _ holds.2 holds.1 rfl
    | leave r => exact holds

end Ensures

end Proc

end CheriGzip
