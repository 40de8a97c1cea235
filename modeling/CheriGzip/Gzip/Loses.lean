import CheriGzip.Gzip.FileFollows

/-!
# The failures that are lost

In a sandboxed build, a job that does not show the failures of its codec leaves `exit_value` as it
was.
-/
namespace CheriGzip.Gzip.Main

open Loop
open Libcheri (Globals System)
open Capsicum (CName shown offT)

variable {σ τ : Type}

section

variable {sys : System σ τ} {globals : Globals} {build : Build} {fuel k : Nat}
variable {o : Options} {answers : Sys} {file : CName} {found : Found} {p : Process}

theorem Dooms.returned {β : Type} {b : β} (dooms : Dooms (some (.returns b p))) :
    p.exitValue ≠ 0 := by
  cases dooms with
  | returns b failed => exact failed

theorem tested_calm (cmd : Command) {usize : Int} (some' : usize ≠ -1) :
    (tested cmd usize p).exitValue = p.exitValue := by
  unfold tested
  split
  · exact if_neg fun fails => some' (by simpa using fails.2)
  · rfl

/-! ## gz_compress -/

end

end CheriGzip.Gzip.Main
