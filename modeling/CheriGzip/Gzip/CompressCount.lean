import CheriGzip.Gzip.CompressCorrect

/-!
# What gz_compress returns

The value is the count of the bytes read, or -1 where an exit sets `in_tot`, whatever zlib
does.
-/
namespace CheriGzip.Gzip

open Loop

variable {σ : Type}

/-- The exits of `gz_compress` that set `in_tot` to -1. -/
def Site.setsInTot : Site → Bool
  | .write | .finishWrite | .done => false
  | _ => true

/-- `in_tot` counts the bytes taken from an input of `n` bytes. -/
def Counts (n : Nat) (s : CState σ) : Prop :=
  0 ≤ s.inTot ∧ s.inTot + s.world.input.length = n

/-- What an exit says of `in_tot`. -/
def Returned (n : Nat) (site : Site) (s : CState σ) : Prop :=
  if site.setsInTot then s.inTot = -1 else Counts n s

def LeftCounting (n : Nat) : CLeft σ → Prop
  | .ok s => Counts n s
  | .error (site, s) => Returned n site s

def RoundCounting (n : Nat) : CRound σ → Prop
  | .again s => Counts n s
  | .leave left => LeftCounting n left

section

variable {cfg : CConfig σ} {n : Nat} {s : CState σ}

theorem flushFull_counts (counts : Counts n s) : LeftCounting n (flushFull cfg s) := by
  unfold flushFull
  split
  · rcases answer : s.world.write cfg.env s.outbuf with ⟨count, w⟩
    obtain ⟨input, -, -⟩ := World.write_spec answer
    have kept : 0 ≤ s.inTot ∧ s.inTot + w.input.length = n := by
      rw [input]
      exact counts
    simp only
    split
    · exact kept
    · exact kept
  · exact counts

theorem feed_counts (counts : Counts n s) : RoundCounting n (feed cfg s) := by
  unfold feed
  simp only
  split
  · exact rfl
  · exact counts

theorem feedRound_counts (counts : Counts n s) : RoundCounting n (feedRound cfg s) := by
  have flushed : LeftCounting n (flushFull cfg s) := flushFull_counts counts
  unfold feedRound
  cases flush : flushFull cfg s with
  | error left =>
    rw [flush] at flushed
    exact flushed
  | ok s =>
    rw [flush] at flushed
    simp only
    split
    · rcases answer : s.world.read cfg.env cfg.buflen.size with ⟨_ | bytes, w⟩
      · exact rfl
      · obtain ⟨input, -, -⟩ := World.read_spec answer
        -- What is read goes from the input to the count.
        have moved : 0 ≤ s.inTot + bytes.length ∧
            s.inTot + bytes.length + w.input.length = n := by
          obtain ⟨positive, before⟩ : 0 ≤ s.inTot ∧ s.inTot + s.world.input.length = n := flushed
          rw [input, List.length_append] at before
          omega
        simp only
        split
        next nil =>
          rw [nil] at moved
          have same : 0 ≤ s.inTot ∧ s.inTot + w.input.length = n := by simpa using moved
          exact same
        · exact feed_counts moved
    · exact feed_counts flushed

theorem finishRound_counts (counts : Counts n s) : RoundCounting n (finishRound cfg s) := by
  unfold finishRound
  simp only
  split
  · exact rfl
  · generalize cfg.engine.deflate s.strm .finish s.nextIn
      (cfg.buflen.size - s.outbuf.length) = step
    rcases answer : s.world.write cfg.env (s.outbuf ++ step.out) with ⟨count, w⟩
    obtain ⟨input, -, -⟩ := World.write_spec answer
    have kept : 0 ≤ s.inTot ∧ s.inTot + w.input.length = n := by
      rw [input]
      exact counts
    simp only
    split
    · exact kept
    · split
      · exact kept
      · exact kept

theorem writeTrailer_returned (counts : Counts n s) {site : Site} {t : CState σ}
    (out : writeTrailer cfg s = .out site t) : Returned n site t := by
  unfold writeTrailer at out
  split at out
  · cases out
  · rcases answer : s.world.write cfg.env (le 4 s.crc.toNat ++ le 4 (s.inTot % 2 ^ 32).toNat) with
      ⟨count, w⟩
    obtain ⟨input, -, -⟩ := World.write_spec answer
    simp only [answer] at out
    split at out
    · cases out
      exact rfl
    · cases out
      have kept : 0 ≤ s.inTot ∧ s.inTot + w.input.length = n := by
        rw [input]
        exact counts
      exact kept

theorem loop_counts {round : CState σ → CRound σ}
    (keeps : ∀ s, Counts n s → RoundCounting n (round s)) (counts : Counts n s) {fuel : Nat}
    {left : CLeft σ} (ran : run round fuel s = some left) : LeftCounting n left := by
  apply Leaves.invariant (Counts n) (LeftCounting n) _ _ ⟨fuel, ran⟩ counts
  · intro s s' holds turn
    have spec := keeps s holds
    rwa [turn] at spec
  · intro s left holds turn
    have spec := keeps s holds
    rwa [turn] at spec

/-- At every exit the value is -1 or the number of bytes read. -/
theorem deflateFile_returned {start : Bytes} {w : World} {fuel : Nat} {site : Site}
    (ran : deflateFile cfg start w fuel = some (.out site s)) : Returned w.input.length site s := by
  unfold deflateFile at ran
  rcases init : cfg.engine.deflateInit2 cfg.engine.zero cfg.numflag with ⟨error, strm⟩
  simp only [init] at ran
  split at ran
  · cases ran
    exact rfl
  · obtain ⟨left, fed, ran⟩ := Option.bind_eq_some_iff.mp ran
    have begun : Counts w.input.length ⟨strm, [], start, crc32Null, 0, 0, w⟩ :=
      ⟨Int.le_refl 0, Int.zero_add _⟩
    have feeding := loop_counts (fun s => feedRound_counts) begun fed
    rcases left with ⟨site', s'⟩ | s'
    · cases ran
      exact feeding
    · obtain ⟨left, finished, ran⟩ := Option.bind_eq_some_iff.mp ran
      have closing := loop_counts (fun s => finishRound_counts) feeding finished
      rcases left with ⟨site', s''⟩ | s''
      · cases ran
        exact closing
      · rcases ends : cfg.engine.deflateEnd s''.strm with ⟨error, strm⟩
        simp only [ends] at ran
        split at ran
        · cases ran
          exact rfl
        · have counted : Counts w.input.length { s'' with strm := strm } := closing
          exact writeTrailer_returned counted (Option.some.inj ran)

theorem compressEnd_returned {origname : Bytes} {mtime : UInt32} {w : World} {fuel : Nat}
    {site : Site} (ran : compressEnd cfg origname mtime w fuel = some (.out site s)) :
    Returned w.input.length site s := by
  obtain ⟨-, start, -, ran⟩ := compressEnd_out.mp ran
  exact deflateFile_returned ran

end

end CheriGzip.Gzip
