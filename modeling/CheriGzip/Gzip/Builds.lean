import CheriGzip.Gzip.CompressSafe
import CheriGzip.Gzip.FileMirror

/-!
# The sandboxed builds

What the callers of the codecs get in the Capsicum and in the libcheri build.
-/
namespace CheriGzip.Gzip.Capsicum

theorem basename_short {path : Path} (short : path.length < pathMax) :
    (basename path).length < pathMax := by
  have sub (path : Path) : (afterSlash path).length ≤ path.length := by
    induction path with
    | nil => exact Nat.le_refl 0
    | cons c cs ih =>
      unfold afterSlash
      split
      · exact Nat.le_succ_of_le ih
      · split
        · exact Nat.le_succ _
        · exact Nat.le_refl _
  unfold basename
  split
  · decide
  · simp only
    split
    · decide
    · refine Nat.lt_of_le_of_lt (Nat.le_trans (sub _) ?_) short
      rw [List.length_reverse, ← @List.length_reverse _ path]
      exact (List.dropWhile_suffix _).length_le

/-- `basename(file)` is a name too. -/
def CName.basename (file : CName) : CName where
  bytes := Gzip.basename file.bytes
  short := basename_short file.short
  text := basename_nul file.text

end CheriGzip.Gzip.Capsicum

namespace CheriGzip.Gzip.Main

open Loop
open Libcheri (Globals System)
open Capsicum (CName shown offT)

variable {σ τ : Type}

/-! ## The builds -/

/-- A sandboxed build. What the host keeps from one job for the next does not matter, so that it
is any host for each. -/
inductive Build where
  | capsicum (calls : Capsicum.Calls) (hosts : Nat → Capsicum.Host)
  | libcheri (calls : Libcheri.Calls) (exited : World → Ran CResult) (hosts : Nat → Libcheri.Host)

def Build.codecs (sys : System σ τ) (fuel : Nat) : Build → Nat → Codecs
  | .capsicum calls hosts, k => capsicumCodecs sys calls (hosts k) fuel
  | .libcheri calls exited hosts, k => libcheriCodecs sys calls exited (hosts k) fuel

/-- The calls of the sandbox's library succeed, and main has set the globals. -/
def Build.Ready (globals : Globals) : Build → Prop
  | .capsicum calls hosts => calls.Succeed ∧ ∀ k, (hosts k).globals = globals
  | .libcheri calls _ hosts => calls.Succeed ∧ ∀ k, (hosts k).globals = globals

/-- The host ends with the sandbox. -/
def Build.Shared : Build → Prop
  | .capsicum _ _ => True
  | .libcheri _ _ _ => False

section

variable {sys : System σ τ} {globals : Globals} {build : Build} {fuel k : Nat}

end

end CheriGzip.Gzip.Main
