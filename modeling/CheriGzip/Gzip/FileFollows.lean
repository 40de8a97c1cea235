import CheriGzip.Gzip.Shows

/-!
# The failures of one job

A job that shows the failures of its codec fails in a sandboxed build wherever it does without a
sandbox.
-/
namespace CheriGzip.Gzip.Main

open Loop
open Libcheri (Globals System)
open Capsicum (CName shown offT)

variable {σ τ : Type}

/-! ## One step -/

/-- An end with a failure. -/
inductive Dooms {β : Type} : Option (Ran β Process) → Prop where
  | returns (b : β) {q : Process} (failed : q.exitValue ≠ 0) : Dooms (some (.returns b q))
  | exits {status : Nat} (q : Process) (failed : status ≠ 0) : Dooms (some (.exits status q))

/-- A sandboxed build ends as the other, or with a failure of its own that it does not forget. -/
inductive Follows (lost : Prop) {β : Type} : Ran β Process → Option (Ran β Process) → Prop where
  | returns (b : β) {p q : Process} (mirror : Mirror Failing p q) :
      Follows lost (.returns b p) (some (.returns b q))
  | exits (status : Nat) {status' : Nat} (p q : Process) (failed : status' ≠ 0) :
      Follows lost (.exits status p) (some (.exits status' q))
  | dooms (ran : Ran β Process) {ran' : Option (Ran β Process)} (isLost : lost)
      (dooms : Dooms ran') : Follows lost ran ran'

section

variable {sys : System σ τ} {globals : Globals} {build : Build} {fuel k : Nat} {lost : Prop}
variable {o : Options} {answers : Sys} {file : CName} {p q : Process}

theorem readRetry_exit (env : Env) (rounds left : Nat) (w : World) (e : Nat) :
    readRetry env rounds left (w.exitWith e) =
        ((readRetry env rounds left w).1, (readRetry env rounds left w).2.exitWith e) ∧
      (readRetry env rounds left w).2.exitValue = w.exitValue := by
  induction rounds generalizing left w with
  | zero => exact ⟨rfl, rfl⟩
  | succ rounds ih =>
    unfold readRetry
    -- A round reads the same whatever `exit_value` is, and does not change it.
    by_cases done : left = 0
    · rw [if_pos done, if_pos done]
      exact ⟨rfl, rfl⟩
    · rw [if_neg done, if_neg done, exitWith_read]
      rcases answer : w.read env left with ⟨_ | bytes, w'⟩
      · exact ⟨rfl, (read_exitValue answer).1⟩
      · have kept := (read_exitValue answer).1
        simp only
        by_cases none : bytes = []
        · rw [if_pos none, if_pos none]
          exact ⟨rfl, kept⟩
        · rw [if_neg none, if_neg none, (ih (left - bytes.length) w').1]
          have rest := (ih (left - bytes.length) w').2
          rcases retry : readRetry env rounds (left - bytes.length) w' with ⟨_ | more, w''⟩
          · rw [retry] at rest
            exact ⟨rfl, rest.trans kept⟩
          · rw [retry] at rest
            exact ⟨rfl, rest.trans kept⟩

variable {cmd : Command} {system : Answers} {others : Others}

/-- The name of standard input for `gz_compress`: there is none. -/
def noName : CName where
  bytes := []
  short := by decide
  text := List.not_mem_nil

end

end CheriGzip.Gzip.Main
