import CheriGzip.Lib.Loop
import CheriGzip.Lib.Stream
import CheriGzip.Gzip.World

/-!
# zuncompress

The copy from the stream that `zread` fills to the stream of the output. `zread` itself comes in as
the answers that it gives one after the other.
-/
namespace CheriGzip.Gzip

open Loop

/-- `BUFSIZE` -/
def bufSize : Nat := 64 * 1024

/-- The next answer of `zread`: -1, some bytes, or none at the end. -/
def nextAnswer : List (Option Bytes) → Option Bytes × List (Option Bytes)
  | [] => (some [], [])
  | answer :: answers => (answer, answers)

/-- What the system answers to the calls on streams in FT_Z: whether `zdopen`, `dup`, `fdopen` and
`malloc` work, and how much each `fwrite` takes and `fclose(out)` gets rid of. -/
structure Zsys where
  zdopen : Bool
  dup : Bool
  fdopen : Bool
  malloc : Bool
  fwrites : Nat → Departure
  fclose : Departure

/-- The variables of the loop, with what `out` has taken. -/
structure Zcopy where
  inp : Stream (List (Option Bytes))
  out : Bytes
  writes : Nat
  bout : Nat

/-- The streams as they were opened. -/
def Zcopy.opens (answers : List (Option Bytes)) : Zcopy := ⟨.opens answers, [], 0, 0⟩

/-- One round of the loop. -/
def zuncompressBody (tflag : Bool) (z : Zsys) (s : Zcopy) : Turn Zcopy (Int × Zcopy) :=
  let (buf, inp) := s.inp.fread nextAnswer bufSize
  let s := { s with inp := inp }
  let bin := buf.length
  if bin = 0 then .leave (s.bout, s)
  else if tflag then .again { s with bout := s.bout + bin }
  else
    match z.fwrites s.writes with
    | .fails => .leave (-1, s)
    | .stores n =>
      let s := { s with out := s.out ++ buf.take n, writes := s.writes + 1 }
      if min n bin ≠ bin then .leave (-1, s) else .again { s with bout := s.bout + bin }

/-! ## The loop ends -/

/-- The bytes in some answers. -/
def answerBytes (answers : List (Option Bytes)) : Nat :=
  (answers.map fun answer => (answer.getD []).length).sum

theorem nextAnswer_shrinks : Stream.Shrinks nextAnswer answerBytes := by
  intro answers
  cases answers with
  | nil => exact Nat.le_refl _
  | cons answer answers => simp [nextAnswer, answerBytes]

/-- A round takes the bytes that it copies from what is left. -/
theorem zuncompressBody_again {tflag : Bool} {z : Zsys} {s s' : Zcopy}
    (turn : zuncompressBody tflag z s = .again s') :
    s'.inp.left answerBytes < s.inp.left answerBytes := by
  unfold zuncompressBody at turn
  rcases reads : s.inp.fread nextAnswer bufSize with ⟨buf, inp⟩
  have fewer := Stream.left_fread nextAnswer_shrinks reads
  simp only [reads] at turn
  -- The loop goes on with a test, or behind a write of all the bytes.
  split at turn
  · cases turn
  next some =>
    have less : inp.left answerBytes < s.inp.left answerBytes := by omega
    split at turn
    · cases turn
      exact less
    · split at turn
      · cases turn
      · split at turn
        · cases turn
        · cases turn
          exact less

theorem zuncompress_ends (tflag : Bool) (z : Zsys) (s : Zcopy) :
    (run (zuncompressBody tflag z) (s.inp.left answerBytes + 1) s).isSome := by
  -- By strong induction on the bytes still to come: each round takes some.
  induction left : s.inp.left answerBytes using Nat.strongRecOn generalizing s with
  | _ bytes ih =>
    subst left
    simp only [run]
    cases turn : zuncompressBody tflag z s with
    | leave r => rfl
    | again s' =>
      have less := zuncompressBody_again turn
      obtain ⟨r, ran⟩ := Option.isSome_iff_exists.mp (ih _ less s' rfl)
      exact Option.isSome_iff_exists.mpr ⟨r, run_mono _ less ran⟩

/-- `zuncompress(in, out, pre, prelen, …)`: what it returns, and the streams. -/
def zuncompress (tflag : Bool) (z : Zsys) (answers : List (Option Bytes)) : Int × Zcopy :=
  let s := Zcopy.opens answers
  if z.malloc = false then (-1, s)
  else (run (zuncompressBody tflag z) (s.inp.left answerBytes + 1) s).get (zuncompress_ends tflag z s)

theorem zuncompress_leaves {z : Zsys} (malloc : z.malloc = true) (tflag : Bool)
    (answers : List (Option Bytes)) :
    Leaves (zuncompressBody tflag z) (Zcopy.opens answers) (zuncompress tflag z answers) := by
  refine ⟨_, (Option.some_get (zuncompress_ends tflag z (Zcopy.opens answers))).symm.trans ?_⟩
  simp only [zuncompress, malloc, Bool.true_eq_false, if_false]

/-! ## What it comes to -/

/-- The count is the number of bytes that `out` took, unless they are not written. -/
structure Zcopy.Counts (tflag : Bool) (s : Zcopy) : Prop where
  honest : s.inp.Honest
  count : tflag = false → s.out.length = s.bout

/-- What the copy leaves behind: a true error flag, and a true count. -/
theorem zuncompress_counts (tflag : Bool) (z : Zsys) (answers : List (Option Bytes)) :
    (zuncompress tflag z answers).2.inp.Honest ∧
      (tflag = false → (zuncompress tflag z answers).1 ≠ -1 →
        ((zuncompress tflag z answers).2.out.length : Int) = (zuncompress tflag z answers).1) := by
  -- Without its buffer the loop is not begun.
  cases malloc : z.malloc with
  | false =>
    simp only [zuncompress, malloc, if_true]
    exact ⟨Stream.opens_honest _, fun _ good => absurd rfl good⟩
  | true =>
    refine (zuncompress_leaves malloc tflag answers).invariant (Zcopy.Counts tflag) (fun r =>
      r.2.inp.Honest ∧ (tflag = false → r.1 ≠ -1 → (r.2.out.length : Int) = r.1)) ?_ ?_ ?_
    · -- A round that goes on has written all of what it read.
      intro s s' counts turn
      unfold zuncompressBody at turn
      rcases reads : s.inp.fread nextAnswer bufSize with ⟨buf, inp⟩
      have honest := counts.honest.fread reads
      simp only [reads] at turn
      split at turn
      · cases turn
      · split at turn
        next test =>
          cases turn
          exact ⟨honest, fun writes => absurd test (by simp [writes])⟩
        · split at turn
          · cases turn
          · split at turn
            · cases turn
            next n answer whole =>
              cases turn
              refine ⟨honest, fun writes => ?_⟩
              have before := counts.count writes
              rw [Classical.not_not] at whole
              show (s.out ++ buf.take n).length = s.bout + buf.length
              rw [List.length_append, List.length_take, whole, before]
    · -- Every other way out gives -1, or stops where nothing more is read.
      intro s r counts turn
      unfold zuncompressBody at turn
      rcases reads : s.inp.fread nextAnswer bufSize with ⟨buf, inp⟩
      have honest := counts.honest.fread reads
      simp only [reads] at turn
      split at turn
      · cases turn
        exact ⟨honest, fun writes _ => congrArg Int.ofNat (counts.count writes)⟩
      · split at turn
        · cases turn
        · split at turn
          · cases turn
            exact ⟨honest, fun _ good => absurd rfl good⟩
          · split at turn
            · cases turn
              exact ⟨honest, fun _ good => absurd rfl good⟩
            · cases turn
    · exact ⟨Stream.opens_honest _, fun _ => rfl⟩

/-- A test writes nothing, so that it fails at the start or not at all. -/
theorem zuncompress_test (z : Zsys) (answers : List (Option Bytes)) :
    (zuncompress true z answers).1 = -1 → (zuncompress true z answers).2.inp.given = [] := by
  cases malloc : z.malloc with
  | false =>
    simp only [zuncompress, malloc, if_true]
    exact fun _ => rfl
  | true =>
    -- The one way out of the loop is the end of the input, with a count.
    have counts : 0 ≤ (zuncompress true z answers).1 := by
      refine (zuncompress_leaves malloc true answers).invariant (fun _ => True) (fun r => 0 ≤ r.1)
        (fun _ _ _ _ => trivial) ?_ trivial
      intro s r _ turn
      unfold zuncompressBody at turn
      simp only [if_true] at turn
      split at turn
      · cases turn
        exact Int.natCast_nonneg _
      · cases turn
    intro failed
    omega

end CheriGzip.Gzip
