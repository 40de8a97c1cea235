import CheriGzip.Gzip.FileUncompress
import CheriGzip.Gzip.UncompressCorrect

/-!
# What file_uncompress deletes

`file_uncompress` takes a return value other than -1 for a complete decoding. With an empty
buffer `gz_uncompress` takes the first `read`, of no bytes, for the end of an empty input.
-/
namespace CheriGzip.Gzip

open Loop

variable {σ : Type} {F : Format} {cfg : UConfig σ}

/-! ## Buffers that are too small -/

/-- `gz_uncompress` writes a decoding of the file: nothing, when it has no buffer. -/
def Decodes (F : Format) (cfg : UConfig σ) (content : Bytes) : Prop :=
  if cfg.env.mallocs = false ∨ cfg.buflen.size = 0 then Accepts F content []
  else 4 ≤ cfg.buflen.size ∧ ∃ v, Accepts F content v

/-- How `gz_uncompress` can end for a gzip file. -/
def Outcome (F : Format) (cfg : UConfig σ) (content : Bytes) : Ran (UResult σ) → Prop
  | .exits _ w => cfg.env.mallocs = false ∧ w.output = []
  | .returns r w => cfg.env.mallocs = true ∧
      (r.outTot = -1 ∧ cfg.buflen.size ≠ 0 ∧ ¬ Decodes F cfg content ∨
        r.outTot = w.output.length ∧ (cfg.buflen.size = 0 ∧ w.output = [] ∨
          4 ≤ cfg.buflen.size ∧ Accepts F content w.output))

section

variable {w : World} {fuel : Nat} {ran : Ran (UResult σ)}

end

/-! ## What file_uncompress deletes -/

section

variable {o : Options} {sys : Sys} {others : OtherFn} {file : Path} {p q : Process}
  {found : Found} {fuel : Nat}

end

/-! ## A file that is lost -/

end CheriGzip.Gzip
