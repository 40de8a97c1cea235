import CheriGzip.Gzip.Failures
import CheriGzip.Gzip.Main

/-!
# The same process with another exit_value

A sandbox keeps its `exit_value` to itself. Apart from that, the process does what it does
without a sandbox, and it warns wherever it does itself.
-/
namespace CheriGzip.Gzip.Main

open Libcheri (Globals System)
open Capsicum (CName shown offT)

variable {σ τ α : Type}

def Process.exitWith (p : Process) (e : Nat) : Process := { p with exitValue := e }

/-- `q` is `p` with another `exit_value`; it is not 0 where that of `p` has `N`. -/
inductive Mirror (N : Nat → Prop) (p : Process) : Process → Prop where
  | intro (e : Nat) (noticed : N p.exitValue → e ≠ 0) : Mirror N p (Process.exitWith p e)

/-- Each failure of `p` is one of `q`. -/
def Failing (e : Nat) : Prop := e ≠ 0

/-- Two steps that end alike. -/
inductive Alike (N : Nat → Prop) {β : Type} (A : α → β → Prop) :
    Except Process α → Except Process β → Prop where
  | error {p q : Process} (mirror : Mirror N p q) : Alike N A (.error p) (.error q)
  | ok {a : α} {b : β} (same : A a b) : Alike N A (.ok a) (.ok b)

variable {N : Nat → Prop} {o : Options} {sys : Sys} {file outfile : Path} {i : Nat}
variable {p q : Process}

theorem Alike.ite {β : Type} {A : α → β → Prop} {d : Prop} [Decidable d]
    {x x' : Except Process α} {y y' : Except Process β} (pos : d → Alike N A x y)
    (neg : ¬ d → Alike N A x' y') : Alike N A (if d then x else x') (if d then y else y') := by
  by_cases holds : d
  · rw [if_pos holds, if_pos holds]
    exact pos holds
  · rw [if_neg holds, if_neg holds]
    exact neg holds

/-- The two ways to end alike, as equations. -/
theorem Alike.cases {β : Type} {A : α → β → Prop} {x : Except Process α} {y : Except Process β}
    (alike : Alike N A x y) :
    (∃ p q, x = .error p ∧ y = .error q ∧ Mirror N p q) ∨ ∃ a b, x = .ok a ∧ y = .ok b ∧ A a b := by
  cases alike with
  | error mirror => exact .inl ⟨_, _, rfl, rfl, mirror⟩
  | ok same => exact .inr ⟨_, _, rfl, rfl, same⟩

theorem Mirror.ite {d : Prop} [Decidable d] {p' q' : Process} (pos : d → Mirror N p q)
    (neg : ¬ d → Mirror N p' q') : Mirror N (if d then p else p') (if d then q else q') := by
  by_cases holds : d
  · rw [if_pos holds, if_pos holds]
    exact pos holds
  · rw [if_neg holds, if_neg holds]
    exact neg holds

theorem warned_nonzero (p : Process) (message : String) :
    (p.maybeWarn message).exitValue ≠ 0 := by
  show (if p.exitValue = 0 then 1 else p.exitValue) ≠ 0
  split
  next => decide
  next some => exact some

/-- A warning of the process itself is one of both. -/
theorem Mirror.maybeWarn (mirror : Mirror N p q) (message : String) {N' : Nat → Prop} :
    Mirror N' (p.maybeWarn message) (q.maybeWarn message) := by
  -- Whatever was noticed before, both have failed now.
  obtain ⟨e, -⟩ := mirror
  exact ⟨if e = 0 then 1 else e, fun _ => warned_nonzero (Process.exitWith p e) message⟩

theorem Mirror.settled (mirror : Mirror N p q) (failed : q.exitValue ≠ 0) {N' : Nat → Prop} :
    Mirror N' p q := by
  obtain ⟨e, -⟩ := mirror
  exact ⟨e, fun _ => failed⟩

end CheriGzip.Gzip.Main
