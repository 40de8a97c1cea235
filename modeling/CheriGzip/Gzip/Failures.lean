import CheriGzip.Gzip.CompressCorrect

/-!
# What the callers of the codecs can tell

A codec that warns does not always say so by what it returns. These are the exits with the
marks that they leave: `exit_value`, the totals, and the bytes written.
-/
namespace CheriGzip.Gzip

open Loop

variable {σ : Type}

/-! ## gz_compress -/

/-- Nothing has failed: `exit_value` is as at the start, and `out_tot` counts what was written
behind the first `before` bytes. -/
structure Tally (before e : Nat) (s : CState σ) : Prop where
  exitValue : s.world.exitValue = e
  positive : 0 ≤ s.outTot
  written : (s.world.output.length : Int) = before + s.outTot

theorem write_exitValue {w w' : World} {env : Env} {bytes : Bytes} {count : Option Nat}
    (answer : w.write env bytes = (count, w')) : w'.exitValue = w.exitValue := by
  unfold World.write at answer
  cases writes : env.writes w.writes with
  | fails =>
    simp only [writes, Prod.mk.injEq] at answer
    rw [← answer.2]
  | stores n =>
    simp only [writes, Prod.mk.injEq] at answer
    rw [← answer.2]

theorem read_exitValue {w w' : World} {env : Env} {len : Nat} {bytes : Option Bytes}
    (answer : w.read env len = (bytes, w')) :
    w'.exitValue = w.exitValue ∧ w'.output = w.output := by
  unfold World.read at answer
  cases reads : env.reads w.reads with
  | fails =>
    simp only [reads, Prod.mk.injEq] at answer
    rw [← answer.2]
    exact ⟨rfl, rfl⟩
  | upTo n =>
    simp only [reads, Prod.mk.injEq] at answer
    rw [← answer.2]
    exact ⟨rfl, rfl⟩

section

variable {cfg : CConfig σ} {before e : Nat} {s : CState σ}

/-- A write that stored all its bytes. -/
theorem Tally.wrote (tally : Tally before e s) {bytes : Bytes} {w : World}
    (answer : s.world.write cfg.env bytes = (some bytes.length, w)) {t : CState σ}
    (world : t.world = w) (total : t.outTot = s.outTot + bytes.length) : Tally before e t where
  exitValue := by
    rw [world, write_exitValue answer, tally.exitValue]
  positive := by
    have positive := tally.positive
    omega
  written := by
    obtain ⟨-, -, output⟩ := World.write_spec answer
    have written := tally.written
    rw [world, total, output, Option.getD_some, List.take_length, List.length_append]
    omega

end

/-! ## gz_uncompress -/

/-- Nothing has failed, and without `-t` `out_tot` counts what was written behind the first
`before` bytes. -/
structure Calm (cfg : UConfig σ) (before e : Nat) (s : UState σ) : Prop where
  exitValue : s.world.exitValue = e
  positive : 0 ≤ s.outTot
  written : cfg.tflag = false → (s.world.output.length : Int) = before + s.outTot

/-- The loop is left in front of bytes that do not begin a member, and not for a failure. -/
structure UState.AtGarbage (s : UState σ) : Prop where
  state : s.state = .magic0
  behind : s.nextIn ≠ []
  returns : s.outTot ≠ -1

/-- How the loop is left. -/
inductive Stopped (cfg : UConfig σ) (before e : Nat) (s : UState σ) : Prop where
  | failed (total : s.outTot = -1)
  | calm (calm : Calm cfg before e s)
  | garbage (garbage : s.AtGarbage) (positive : 0 ≤ s.outTot)
    (written : cfg.tflag = false → (s.world.output.length : Int) = before + s.outTot)

def RoundCalm (cfg : UConfig σ) (before e : Nat) : URound σ → Prop
  | .again s => Calm cfg before e s
  | .leave s => Stopped cfg before e s

section

variable {cfg : UConfig σ} {before e : Nat} {s : UState σ}

theorem RoundCalm.ite {c : Prop} [Decidable c] {a b : URound σ} (pos : c → RoundCalm cfg before e a)
    (neg : ¬ c → RoundCalm cfg before e b) : RoundCalm cfg before e (if c then a else b) := by
  by_cases holds : c
  · rw [if_pos holds]
    exact pos holds
  · rw [if_neg holds]
    exact neg holds

end

end CheriGzip.Gzip
