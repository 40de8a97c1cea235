import CheriGzip.Gzip.CompressCorrect
import CheriGzip.Gzip.UncompressCorrect

/-!
# gz_uncompress undoes gz_compress
-/
namespace CheriGzip.Gzip

variable {σ τ : Type} {F : Format}

/-- `gz_compress` on the whole input of `w` succeeds and writes `bytes`. -/
def Compresses (cfg : CConfig σ) (origname : Bytes) (mtime : UInt32) (w : World)
    (bytes : Bytes) : Prop :=
  ∃ fuel w', gzCompress cfg origname mtime w fuel =
      some (.returns ⟨w.input.length, bytes.length⟩ w') ∧
    w'.output = w.output ++ bytes ∧ w'.input = []

/-- `gz_uncompress` on `bytes`, wherever they are cut, succeeds, writes `payload` and
consumes all of them. -/
def Uncompresses (cfg : UConfig σ) (bytes payload : Bytes) : Prop :=
  ∀ pre w, pre.length < 2 ^ 32 → pre ++ w.input = bytes →
    ∃ fuel result w', gzUncompress cfg pre w fuel = some (.returns result w') ∧
      result.outTot = payload.length ∧ w'.output = w.output ++ payload ∧
      result.gsize = bytes.length ∧ w'.input = []

/-- What `gz_compress` writes is a member with its input as the payload. -/
theorem compresses_member {cfg : CConfig σ} (D : DeflatesAll F cfg.engine)
    (level : IsLevel cfg.numflag) (reliable : cfg.env.Reliable cfg.buflen) {origname : Bytes}
    (nul : 0 ∉ origname) (large : 11 + origname.length ≤ cfg.buflen.size) (mtime : UInt32) (w : World) :
    ∃ bytes, Compresses cfg origname mtime w bytes ∧ Member F bytes w.input := by
  have nul' : 0 ∉ cfg.name origname := by
    unfold CConfig.name
    split
    · exact List.not_mem_nil
    · exact nul
  -- The name is left out with `-n`, so that it fits in any case.
  have large' : 11 + (cfg.name origname).length ≤ cfg.buflen.size := by
    unfold CConfig.name
    split
    · rw [List.length_nil]
      omega
    · exact large
  obtain ⟨start, begins⟩ : ∃ start, outbufStart cfg (cfg.name origname) (cfg.time mtime) =
      some start := outbufStart_some large'
  obtain ⟨-, fits, header, -⟩ := outbufStart_spec nul' begins
  obtain ⟨fuel, s, ran⟩ := deflateFile_done D level reliable (by omega) fits w
  obtain ⟨outTot, inTot, ended, z, complete, payload, output⟩ :=
    deflateFile_sited D.toDeflates (by omega) fits ran
  -- Header, stream and trailer are what was written, and they make a member.
  refine ⟨start ++ (z ++ trailer w.input), ⟨fuel, s.world, ?_, output, ended⟩, ?_⟩
  · have length : s.outTot = (start ++ (z ++ trailer w.input)).length := by
      rw [output, List.length_append] at outTot
      omega
    rw [gzCompress, compressEnd_out.mpr ⟨reliable.mallocs, start, begins, ran⟩, Option.map_some,
      CEnd.ran, inTot, length]
  · exact ⟨start, z, header (by omega), complete, payload.symm, rfl⟩

/-- An input of the grammar without garbage is consumed whole. -/
theorem uncompresses_chain {cfg : UConfig τ} (C : Inflates F cfg.engine)
    (reliable : cfg.env.Reliable cfg.buflen) (large : 4 ≤ cfg.buflen.size)
    (writes : cfg.tflag = false) {bytes payload : Bytes} (chain : Chain F bytes payload []) :
    Uncompresses cfg bytes payload := by
  -- The grammar does not know where the prefix ends.
  rintro pre w short rfl
  obtain ⟨fuel, result, w', ran, accepts, -⟩ := gzUncompress_returns C reliable large short w
  obtain ⟨count, output, total, rest⟩ := accepts payload [] chain
  -- No garbage behind the chain: what is left of the input is a suffix of nothing.
  have nothing : w'.input = [] := List.suffix_nil.mp rest
  refine ⟨fuel, result, w', ran, count, ?_, ?_, nothing⟩
  · rw [output, UConfig.emitted, writes]
    rfl
  · rw [nothing] at total
    rw [List.length_append]
    simp only [List.length_nil] at total
    omega

theorem Chain.single {m v : Bytes} (member : Member F m v) : Chain F m v [] := by
  have empty : Garbage [] := by simp [Garbage]
  simpa using Chain.member member (.stop empty)

/-- Round trip, for one output and for the concatenation of two. -/
theorem compress_uncompress {cfg₁ cfg₂ : CConfig σ} {ucfg : UConfig τ}
    (D₁ : DeflatesAll F cfg₁.engine) (D₂ : DeflatesAll F cfg₂.engine)
    (level₁ : IsLevel cfg₁.numflag) (level₂ : IsLevel cfg₂.numflag)
    (C : Inflates F ucfg.engine) (reliable₁ : cfg₁.env.Reliable cfg₁.buflen)
    (reliable₂ : cfg₂.env.Reliable cfg₂.buflen) (reliable : ucfg.env.Reliable ucfg.buflen)
    {name₁ name₂ : Bytes} (nul₁ : 0 ∉ name₁) (nul₂ : 0 ∉ name₂)
    (large₁ : 11 + name₁.length ≤ cfg₁.buflen.size)
    (large₂ : 11 + name₂.length ≤ cfg₂.buflen.size) (large : 4 ≤ ucfg.buflen.size)
    (writes : ucfg.tflag = false) (mtime₁ mtime₂ : UInt32) (w₁ w₂ : World) :
    ∃ bytes₁ bytes₂,
      Compresses cfg₁ name₁ mtime₁ w₁ bytes₁ ∧ Compresses cfg₂ name₂ mtime₂ w₂ bytes₂ ∧
      Uncompresses ucfg bytes₁ w₁.input ∧
      Uncompresses ucfg (bytes₁ ++ bytes₂) (w₁.input ++ w₂.input) := by
  obtain ⟨bytes₁, compresses₁, member₁⟩ := compresses_member D₁ level₁ reliable₁ nul₁ large₁ mtime₁
    w₁
  obtain ⟨bytes₂, compresses₂, member₂⟩ := compresses_member D₂ level₂ reliable₂ nul₂ large₂ mtime₂
    w₂
  refine ⟨bytes₁, bytes₂, compresses₁, compresses₂, ?_, ?_⟩
  · exact uncompresses_chain C reliable large writes (.single member₁)
  · exact uncompresses_chain C reliable large writes (.member member₁ (.single member₂))

/-- Names of one byte, the smallest buffers for them, and a reader that gets one byte at a
time. -/
theorem compress_uncompress_small :
    ∃ bytes₁ bytes₂,
      Compresses ⟨storedDeflate, .steady 3, ⟨12, by decide⟩, 6, false⟩ [0x61] 7
        ⟨[1, 2, 3, 4, 5], [], 0, 0, 0, []⟩ bytes₁ ∧
      Compresses ⟨storedDeflate, .steady 1, ⟨12, by decide⟩, 9, false⟩ [0x62] 0
        ⟨[6], [], 0, 0, 0, []⟩ bytes₂ ∧
      Uncompresses ⟨storedInflate, .steady 1, ⟨12, by decide⟩, false, "a.gz"⟩ bytes₁
        [1, 2, 3, 4, 5] ∧
      Uncompresses ⟨storedInflate, .steady 1, ⟨12, by decide⟩, false, "a.gz"⟩ (bytes₁ ++ bytes₂)
        ([1, 2, 3, 4, 5] ++ [6]) :=
  compress_uncompress (F := storedFormat) storedDeflates storedDeflates ⟨by decide, by decide⟩
    ⟨by decide, by decide⟩ storedInflates (Env.steady_reliable _ _) (Env.steady_reliable _ _)
    (Env.steady_reliable _ _) (by decide) (by decide) (by decide) (by decide) (by decide) rfl 7 0
    ⟨[1, 2, 3, 4, 5], [], 0, 0, 0, []⟩ ⟨[6], [], 0, 0, 0, []⟩

end CheriGzip.Gzip
