import CheriGzip.Lib.Bytes

/-!
# What a codec sees of the system

The two descriptors a codec works on, the calls it makes on them, and the process state it
touches. How much each `read` and `write` moves, and which of them fail, is the
environment's choice for each call.
-/
namespace CheriGzip.Gzip

/-- The answer to a `read`: -1, or up to `n` bytes of what is left, at least one. -/
inductive Arrival where
  | fails
  | upTo (n : Nat)
  deriving DecidableEq, Repr

/-- The answer to a `write`: -1, or a count of at most `n`. -/
inductive Departure where
  | fails
  | stores (n : Nat)
  deriving DecidableEq, Repr

/-- The system's choices: the answer to the `k`-th `read` and to the `k`-th `write`, whether
`malloc` succeeds, and the first byte of a buffer fresh from `malloc`. -/
structure Env where
  reads : Nat → Arrival
  writes : Nat → Departure
  mallocs : Bool
  junk : UInt8

/-- The unread bytes of `in`, the bytes of `out`, the calls made so far, `exit_value` and
the warnings given. -/
structure World where
  input : Bytes
  output : Bytes
  reads : Nat
  writes : Nat
  exitValue : Nat
  warnings : List String
  deriving DecidableEq, Repr

/-- `BUFLEN` as main's `atoi` can set it; for a negative argument `malloc` fails. -/
structure Buflen where
  size : Nat
  fits : size < 2 ^ 31

/-- Room for one field of a trailer. -/
theorem Buflen.four_fits : 4 < 2 ^ 31 := by decide

/-- How a routine that may call `exit` ends, with the state that it leaves. -/
inductive Ran (α : Type) (S : Type := World) where
  | returns (a : α) (w : S)
  | exits (status : Nat) (w : S)

def Ran.state {α S : Type} : Ran α S → S
  | .returns _ s => s
  | .exits _ s => s

/-- The same end with another value. -/
def Ran.map {α β S : Type} (f : α → β) : Ran α S → Ran β S
  | .returns a s => .returns (f a) s
  | .exits status s => .exits status s

/-- `maybe_warn` and `maybe_warnx` -/
def World.maybeWarn (w : World) (message : String) : World :=
  { w with
    warnings := w.warnings ++ [message]
    exitValue := if w.exitValue = 0 then 1 else w.exitValue }

/-- `maybe_err` -/
def World.maybeErr {α : Type} (w : World) (message : String) : Ran α :=
  .exits 2 { w with warnings := w.warnings ++ [message] }

/-- `read(in, buf, len)`; `none` for -1. -/
def World.read (w : World) (env : Env) (len : Nat) : Option Bytes × World :=
  let w' := { w with reads := w.reads + 1 }
  match env.reads w.reads with
  | .fails => (none, w')
  | .upTo n =>
    let got := min (max n 1) len
    (some (w.input.take got), { w' with input := w.input.drop got })

/-- `write(out, bytes, len)`; `none` for -1. -/
def World.write (w : World) (env : Env) (bytes : Bytes) : Option Nat × World :=
  let w' := { w with writes := w.writes + 1 }
  match env.writes w.writes with
  | .fails => (none, w')
  | .stores n =>
    let count := min n bytes.length
    (some count, { w' with output := w.output ++ bytes.take count })

/-- Reads do not fail, and writes store what they are given. -/
structure Env.Reliable (env : Env) (buflen : Buflen) : Prop where
  reads : ∀ k, env.reads k ≠ .fails
  writes : ∀ k, ∃ n, env.writes k = .stores n ∧ buflen.size ≤ n
  mallocs : env.mallocs = true

section

variable {env : Env} {buflen : Buflen}

/-- A read that answers moves a beginning of the input, empty only at its end. -/
theorem World.read_spec {w w' : World} {len : Nat} {bytes : Bytes}
    (answer : w.read env len = (some bytes, w')) :
    w.input = bytes ++ w'.input ∧ w'.output = w.output ∧
      (0 < len → bytes = [] → w.input = []) := by
  unfold World.read at answer
  cases reads : env.reads w.reads with
  | fails => simp [reads] at answer
  | upTo n =>
    simp only [reads, Prod.mk.injEq, Option.some.injEq] at answer
    obtain ⟨rfl, rfl⟩ := answer
    refine ⟨(List.take_append_drop _ _).symm, rfl, ?_⟩
    intro some empty
    rw [List.take_eq_nil_iff] at empty
    rcases empty with zero | nil
    · omega
    · exact nil

theorem World.read_none {w w' : World} {len : Nat} (answer : w.read env len = (none, w')) :
    w'.output = w.output := by
  unfold World.read at answer
  cases reads : env.reads w.reads with
  | fails =>
    simp only [reads, Prod.mk.injEq, true_and] at answer
    rw [← answer]
  | upTo n => simp [reads] at answer

/-- A write adds a beginning of the bytes, as long as it says, to the output. -/
theorem World.write_spec {w w' : World} {bytes : Bytes} {count : Option Nat}
    (answer : w.write env bytes = (count, w')) :
    w'.input = w.input ∧ count.getD 0 ≤ bytes.length ∧
      w'.output = w.output ++ bytes.take (count.getD 0) := by
  unfold World.write at answer
  cases writes : env.writes w.writes with
  | fails =>
    simp only [writes, Prod.mk.injEq] at answer
    obtain ⟨rfl, rfl⟩ := answer
    simp
  | stores n =>
    simp only [writes, Prod.mk.injEq] at answer
    obtain ⟨rfl, rfl⟩ := answer
    exact ⟨rfl, Nat.min_le_right _ _, rfl⟩

/-- A read that does not fail moves a beginning of the input, which is empty only at its
end or when nothing was asked for. -/
theorem World.read_some (reliable : env.Reliable buflen) (w : World) (len : Nat) :
    ∃ got, w.read env len =
      (some (w.input.take got),
        { w with input := w.input.drop got, reads := w.reads + 1 }) ∧
      got ≤ len ∧ (w.input ≠ [] → 0 < len → w.input.take got ≠ []) := by
  unfold World.read
  cases answer : env.reads w.reads with
  | fails => exact absurd answer (reliable.reads _)
  | upTo n =>
    refine ⟨min (max n 1) len, rfl, Nat.min_le_right _ _, ?_⟩
    intro live some empty
    rw [List.take_eq_nil_iff] at empty
    rcases empty with zero | nil
    · omega
    · exact live nil

theorem World.write_some (reliable : env.Reliable buflen) (w : World) {bytes : Bytes}
    (short : bytes.length ≤ buflen.size) :
    w.write env bytes =
      (some bytes.length, { w with output := w.output ++ bytes, writes := w.writes + 1 }) := by
  unfold World.write
  obtain ⟨n, answer, enough⟩ := reliable.writes w.writes
  have all : min n bytes.length = bytes.length := Nat.min_eq_right (by omega)
  simp [answer, all]

end

/-- A system that reads at most `n` bytes at a time and writes everything. -/
def Env.steady (n : Nat) : Env where
  reads _ := .upTo n
  writes _ := .stores (2 ^ 31)
  mallocs := true
  junk := 0

theorem Env.steady_reliable (n : Nat) (buflen : Buflen) : (Env.steady n).Reliable buflen where
  reads _ := Arrival.noConfusion
  writes _ := ⟨2 ^ 31, rfl, Nat.le_of_lt buflen.fits⟩
  mallocs := rfl

end CheriGzip.Gzip
