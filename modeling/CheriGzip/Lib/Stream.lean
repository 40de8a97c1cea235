import CheriGzip.Lib.Bytes

/-!
# Streams over a reader

A stdio stream whose buffer is filled by a function of the program. Its error flag is never taken
back, and a failure of the reader does not keep the stream from asking it again.
-/
namespace CheriGzip

variable {σ : Type}

/-- The bytes in the buffer, the flags behind `feof` and `ferror`, the reader's state, and what the
reader has answered so far; `none` is -1. -/
structure Stream (σ : Type) where
  buf : Bytes
  eof : Bool
  err : Bool
  cookie : σ
  given : List (Option Bytes)
  deriving DecidableEq, Repr

namespace Stream

/-- `funopen` -/
def opens (cookie : σ) : Stream σ := ⟨[], false, false, cookie, []⟩

variable (read : σ → Option Bytes × σ)

/-- The buffer is filled, unless the end was seen before. -/
def refill (f : Stream σ) : Stream σ :=
  if f.eof then f
  else
    match read f.cookie with
    | (none, cookie) => { f with err := true, cookie := cookie, given := f.given ++ [none] }
    | (some bytes, cookie) =>
      { f with
        buf := bytes
        eof := bytes.isEmpty
        cookie := cookie
        given := f.given ++ [some bytes] }

/-- `fgetc`; `none` is `EOF`. -/
def fgetc (f : Stream σ) : Option UInt8 × Stream σ :=
  let f := if f.buf = [] then f.refill read else f
  match f.buf with
  | [] => (none, f)
  | b :: buf => (some b, { f with buf := buf })

/-- `fread` of up to so many bytes, by calls of `fgetc` -/
def fread : Nat → Stream σ → Bytes × Stream σ
  | 0, f => ([], f)
  | n + 1, f =>
    match f.fgetc read with
    | (none, f) => ([], f)
    | (some b, f) =>
      let (bytes, f) := fread n f
      (b :: bytes, f)

/-! ## The error flag -/

/-- The flag says whether the reader ever answered -1. -/
def Honest (f : Stream σ) : Prop := f.err = true ↔ none ∈ f.given

theorem opens_honest (cookie : σ) : (opens cookie).Honest := by simp [Honest, opens]

variable {read} {f f' : Stream σ}

theorem Honest.refill (honest : f.Honest) : (f.refill read).Honest := by
  unfold Stream.refill
  split
  · exact honest
  · split
    next cookie answer => simp [Honest]
    next bytes cookie answer =>
      rw [Honest] at honest
      simp [Honest, honest]

theorem Honest.fgetc (honest : f.Honest) {got : Option UInt8} (gets : f.fgetc read = (got, f')) :
    f'.Honest := by
  have filled : (if f.buf = [] then f.refill read else f).Honest := by
    split
    · exact honest.refill
    · exact honest
  unfold Stream.fgetc at gets
  simp only at gets
  split at gets
  · cases gets
    exact filled
  · cases gets
    exact filled

theorem Honest.fread {n : Nat} (honest : f.Honest) {bytes : Bytes}
    (reads : f.fread read n = (bytes, f')) : f'.Honest := by
  induction n generalizing f bytes with
  | zero =>
    cases reads
    exact honest
  | succ n ih =>
    rw [Stream.fread] at reads
    split at reads
    next mid gets =>
      cases reads
      exact honest.fgetc gets
    next b mid gets =>
      cases reads
      exact ih (honest.fgetc gets) rfl

/-! ## What is left -/

/-- A measure of the reader that each answer takes its bytes from. -/
def Shrinks (read : σ → Option Bytes × σ) (size : σ → Nat) : Prop :=
  ∀ s, ((read s).1.getD []).length + size (read s).2 ≤ size s

/-- The bytes that a stream can still give. -/
def left (size : σ → Nat) (f : Stream σ) : Nat := f.buf.length + size f.cookie

variable {size : σ → Nat}

theorem left_refill (shrinks : Shrinks read size) (empty : f.buf = []) :
    (f.refill read).left size ≤ f.left size := by
  have fewer := shrinks f.cookie
  unfold refill
  split
  · exact Nat.le_refl _
  · split
    next cookie answer =>
      rw [answer] at fewer
      simp only [left, empty]
      exact Nat.add_le_add_left (Nat.le_trans (Nat.le_add_left _ _) fewer) _
    next bytes cookie answer =>
      rw [answer] at fewer
      simp only [left, empty, List.length_nil, Nat.zero_add]
      exact fewer

theorem left_fgetc (shrinks : Shrinks read size) {got : Option UInt8}
    (gets : f.fgetc read = (got, f')) : got.toList.length + f'.left size ≤ f.left size := by
  have filled : (if f.buf = [] then f.refill read else f).left size ≤ f.left size := by
    split
    next empty => exact left_refill shrinks empty
    · exact Nat.le_refl _
  unfold fgetc at gets
  generalize (if f.buf = [] then f.refill read else f) = filling at filled gets
  simp only at gets
  split at gets
  next none =>
    cases gets
    simpa using filled
  next b buf more =>
    cases gets
    rw [left, more, List.length_cons] at filled
    show 1 + (buf.length + size filling.cookie) ≤ _
    omega

/-- What `fread` gives is taken from what is left. -/
theorem left_fread (shrinks : Shrinks read size) {n : Nat} {bytes : Bytes}
    (reads : f.fread read n = (bytes, f')) : bytes.length + f'.left size ≤ f.left size := by
  induction n generalizing f bytes with
  | zero =>
    cases reads
    simp
  | succ n ih =>
    rw [fread] at reads
    split at reads
    next mid gets =>
      cases reads
      have fewer := left_fgetc shrinks gets
      simpa using fewer
    next b mid gets =>
      have fewer := left_fgetc shrinks gets
      rcases rest : mid.fread read n with ⟨more, last⟩
      rw [rest] at reads
      cases reads
      have less := ih rest
      simp only [Option.toList_some, List.length_singleton] at fewer
      rw [List.length_cons]
      omega

end Stream

end CheriGzip
