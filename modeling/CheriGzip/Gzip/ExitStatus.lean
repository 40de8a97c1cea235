import CheriGzip.Gzip.Loses

/-!
# The exit status of a sandboxed build

A run whose jobs all show the failures of their codecs fails in a sandboxed build wherever it does
without a sandbox. A job that fails without a sandbox fails in one only if it shows its failures.
-/
namespace CheriGzip.Gzip.Main

open Libcheri (Globals System)
open Capsicum (CName)

variable {σ τ : Type}

/-! ## The jobs -/

section

variable {sys : System σ τ} {globals : Globals} {build : Build} {fuel k : Nat}
variable {cmd : Command} {system : Answers} {others : Others} {p q : Process}

end

/-! ## The exit status -/

/-- A system that can open and name everything, with `env` for its reads and writes. -/
def Answers.good (env : Env) : Answers where
  sys _ := .good
  node _ := none
  stdinTty := false
  stdoutTty := false
  fstatStdin := true
  seekStdin := true
  sizeStdin := .upTo 8
  mtime := some 0
  env := env

/-- `gzip -d a.gz`, `gzip -c a` and `gzip -d`. -/
def Command.file : Command := ⟨.plain, true, false, false, [[0x61, 0x2e, 0x67, 0x7a]]⟩
def Command.fromStdin : Command := ⟨.plain, true, false, false, []⟩

/-- A system whose reads fail. -/
def System.unreadable : System StoredOut StoredIn :=
  { System.stored with env := { Env.steady 64 with reads := fun _ => .fails } }

/-- No other formats. -/
def Others.none : Others := fun _ _ w => .returns (-1) w

end CheriGzip.Gzip.Main
