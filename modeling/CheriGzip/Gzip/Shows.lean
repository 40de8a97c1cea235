import CheriGzip.Gzip.Builds

/-!
# Jobs that show their failures

The calls of the codecs that a job makes, and which of them show a failure to the process that
makes them.
-/
namespace CheriGzip.Gzip.Main

open Loop
open Libcheri (Globals System)
open Capsicum (CName shown)

variable {σ τ : Type}

/-! ## The calls of a job -/

section

variable (sys : System σ τ) (globals : Globals) (fuel : Nat)

end

/-- The exits whose `out_tot` is not the size of the file: it is -1, or some of the trailer is in
the file and does not count. -/
def Resizes : Site → Prop
  | .write => True
  | .finishWrite => True
  | .trailerWrite stored => 0 < stored
  | _ => False

/-- `gz_compress` came to its end, or ends the process, or the process has failed before. -/
def Build.Shows (build : Build) (e : Nat) : CEnd σ → Prop
  | .out site _ => site = .done ∨ Failing e
  | .exits _ _ => build.Shared

/-- The size fits in an `off_t`, and what the host gets of the end is known. -/
def Build.Fits (build : Build) : CEnd σ → Prop
  | .out _ s => s.outTot < 2 ^ 63
  | .exits _ _ => build.Shared

def UState.Fits (s : UState τ) : Prop := s.outTot < 2 ^ 63

end CheriGzip.Gzip.Main
