import CheriGzip.Lib.Format

/-!
# Formats decoded a byte at a time

A machine that reads bytes and emits bytes, with a state that completes a stream and one
that no stream leaves. Every such machine is a format.
-/
namespace CheriGzip

/-- A byte decoder. After `done` any further byte is a mistake, and a mistake stays one. -/
structure Machine (τ : Type) where
  start : τ
  step : τ → UInt8 → τ × Bytes
  done : τ
  bad : τ
  done_ne_bad : done ≠ bad
  step_done : ∀ b, (step done b).1 = bad
  step_bad : ∀ b, (step bad b).1 = bad

namespace Machine

variable {τ : Type} (M : Machine τ)

/-- The state after some bytes. -/
def after (s : τ) : Bytes → τ
  | [] => s
  | b :: bs => after (M.step s b).1 bs

/-- What is emitted on the way. -/
def emits (s : τ) : Bytes → Bytes
  | [] => []
  | b :: bs => (M.step s b).2 ++ emits (M.step s b).1 bs

theorem after_append (s : τ) (u w : Bytes) : M.after s (u ++ w) = M.after (M.after s u) w := by
  induction u generalizing s with
  | nil => rfl
  | cons b u ih => exact ih _

theorem emits_append (s : τ) (u w : Bytes) :
    M.emits s (u ++ w) = M.emits s u ++ M.emits (M.after s u) w := by
  induction u generalizing s with
  | nil => rfl
  | cons b u ih => simp [emits, after, ih]

theorem after_bad (u : Bytes) : M.after M.bad u = M.bad := by
  induction u with
  | nil => rfl
  | cons b u ih => rwa [after, M.step_bad]

/-- A complete stream goes on only as a mistake. -/
theorem after_done {u : Bytes} (live : M.after M.done u ≠ M.bad) : u = [] := by
  cases u with
  | nil => rfl
  | cons b u => exact absurd (by rw [after, M.step_done, M.after_bad]) live

/-- The format of a machine: its output, and the strings that lead to `done`. -/
def format : Format where
  payload := M.emits M.start
  Ends u := M.after M.start u = M.done
  payload_mono := by
    rintro u _ ⟨w, rfl⟩
    rw [M.emits_append]
    exact List.prefix_append _ _
  ends_unique := by
    rintro u _ ends ends' ⟨w, rfl⟩
    rw [M.after_append, ends] at ends'
    have live : M.after M.done w ≠ M.bad := by
      rw [ends']
      exact M.done_ne_bad
    rw [M.after_done live, List.append_nil]

/-- A string that is not a mistake goes past no complete stream. -/
theorem inside {u z : Bytes} (live : M.after M.start u ≠ M.bad) (ends : M.format.Ends z)
    (less : z <+: u) : z = u := by
  obtain ⟨w, rfl⟩ := less
  rw [M.after_append, ends] at live
  rw [M.after_done live, List.append_nil]

/-- A mistake begins no complete stream. -/
theorem outside {u z t : Bytes} (stuck : M.after M.start u = M.bad) (ends : M.format.Ends z)
    (unended : ∀ z, M.format.Ends z → ¬ z <+: u) : ¬ z <+: u ++ t := by
  intro less
  rcases Format.comparable less (List.prefix_append u t) with more | ⟨w, rfl⟩
  · exact unended z ends more
  · apply M.done_ne_bad
    rw [← show M.after M.start (u ++ w) = M.done from ends, M.after_append, stuck, M.after_bad]

variable [DecidableEq τ]

/-- How many bytes are read: up to `done`, or to a mistake, or all. -/
def reads (s : τ) : Bytes → Nat
  | [] => 0
  | b :: bs => if s = M.done ∨ s = M.bad then 0 else reads (M.step s b).1 bs + 1

theorem reads_le (s : τ) (bs : Bytes) : M.reads s bs ≤ bs.length := by
  induction bs generalizing s with
  | nil => exact Nat.le_refl 0
  | cons b bs ih =>
    unfold reads
    split
    · exact Nat.zero_le _
    · have le := ih (M.step s b).1
      rw [List.length_cons]
      omega

/-- Reading stops early only at `done` or a mistake. -/
theorem reads_stop (s : τ) (bs : Bytes) :
    M.reads s bs = bs.length ∨ M.after s (bs.take (M.reads s bs)) = M.done ∨
      M.after s (bs.take (M.reads s bs)) = M.bad := by
  induction bs generalizing s with
  | nil => exact .inl rfl
  | cons b bs ih =>
    unfold reads
    split
    next stopped => exact .inr stopped
    · rcases ih (M.step s b).1 with all | stopped
      · left
        rw [all, List.length_cons]
      · right
        rwa [List.take_succ_cons, after]

/-- No complete stream ends before the last byte read. -/
theorem reads_unended {s : τ} (live : s ≠ M.bad) (bs : Bytes) {z : Bytes}
    (ended : M.after s z = M.done) (less : z <+: bs.take (M.reads s bs)) :
    z = bs.take (M.reads s bs) := by
  induction bs generalizing s z with
  | nil => simpa [reads] using less
  | cons b bs ih =>
    unfold reads at less ⊢
    split at less
    next stopped => simpa [stopped] using less
    next reading =>
      rw [if_neg reading, List.take_succ_cons]
      rw [List.take_succ_cons] at less
      cases z with
      | nil => exact absurd (.inl ended) reading
      | cons c z =>
        obtain ⟨rfl, less⟩ := List.cons_prefix_cons.mp less
        rw [after] at ended
        by_cases bad : (M.step s c).1 = M.bad
        · rw [bad, M.after_bad] at ended
          exact absurd ended.symm M.done_ne_bad
        · rw [ih bad ended less]

end Machine

end CheriGzip
