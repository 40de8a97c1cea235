import Mathlib.Data.List.Perm.Subperm
import Mathlib.Data.List.Count

/-!
# Descriptors

A process's table of open descriptors with a record of the calls on it. A record is tidy when what
was opened was closed, each descriptor once and after it was opened, and nothing else was.
-/
namespace CheriGzip

/-- A descriptor is opened or closed, or a stream of the standard ones is closed. -/
inductive FdCall where
  | opens (fd : Nat)
  | closes (fd : Nat)
  | closesStream
  deriving DecidableEq, Repr

/-- The numbers in use, and the calls made. -/
structure FdTable where
  used : List Nat
  calls : List FdCall
  deriving DecidableEq, Repr

/-- The lowest number that is not in use. -/
def lowest (used : List Nat) : Nat :=
  ((List.range (used.length + 1)).find? (· ∉ used)).getD 0

theorem lowest_unused (used : List Nat) : lowest used ∉ used := by
  unfold lowest
  cases found : (List.range (used.length + 1)).find? (· ∉ used) with
  | some fd =>
    have unused := List.find?_some found
    simpa using unused
  | none =>
    -- There are more numbers in the range than are in use.
    have all : List.range (used.length + 1) ⊆ used := by
      intro fd member
      simpa using List.find?_eq_none.mp found fd member
    have short := (List.nodup_range.subperm all).length_le
    rw [List.length_range] at short
    omega

namespace FdTable

/-- `open` and `dup` give the lowest number. -/
def opens (t : FdTable) : Nat × FdTable :=
  (lowest t.used, ⟨lowest t.used :: t.used, t.calls ++ [.opens (lowest t.used)]⟩)

/-- `close`, also of a number that is not in use. -/
def closes (t : FdTable) (fd : Nat) : FdTable := ⟨t.used.erase fd, t.calls ++ [.closes fd]⟩

/-- `fclose` of a standard stream -/
def closesStream (t : FdTable) (fd : Nat) : FdTable :=
  ⟨t.used.erase fd, t.calls ++ [.closesStream]⟩

end FdTable

/-! ## Tidy records -/

/-- The calls are tidy for a piece of a program that has these descriptors when it begins. -/
structure TidyFrom (mine : List Nat) (calls : List FdCall) : Prop where
  once : ∀ fd, calls.count (.closes fd) = calls.count (.opens fd) + mine.count fd
  ours : ∀ before fd after, calls = before ++ .closes fd :: after →
    before.count (.closes fd) < before.count (.opens fd) + mine.count fd
  streams : .closesStream ∉ calls

/-- What was opened was closed, and nothing else. -/
abbrev Tidy (calls : List FdCall) : Prop := TidyFrom [] calls

/-- The descriptors that are left to close; `none` when one was closed that was not there. -/
def settle : List Nat → List FdCall → Option (List Nat)
  | mine, [] => some mine
  | mine, .opens fd :: calls => settle (fd :: mine) calls
  | mine, .closes fd :: calls => if fd ∈ mine then settle (mine.erase fd) calls else none
  | _, .closesStream :: _ => none

section

variable {mine : List Nat} {calls : List FdCall} {fd : Nat}

theorem tidyFrom_nil : TidyFrom mine [] ↔ mine = [] := by
  constructor
  · intro tidy
    refine List.eq_nil_iff_forall_not_mem.mpr fun fd member => ?_
    have none := tidy.once fd
    have some := List.count_pos_iff.mpr member
    simp only [List.count_nil] at none
    omega
  · rintro rfl
    exact ⟨fun _ => rfl, by simp, by simp⟩

theorem tidyFrom_opens : TidyFrom mine (.opens fd :: calls) ↔ TidyFrom (fd :: mine) calls := by
  have moved (other : Nat) (rest : List FdCall) :
      (FdCall.opens fd :: rest).count (.opens other) + mine.count other =
        rest.count (.opens other) + (fd :: mine).count other := by
    simp only [List.count_cons, beq_iff_eq, FdCall.opens.injEq]
    omega
  have same (other : Nat) (rest : List FdCall) :
      (FdCall.opens fd :: rest).count (.closes other) = rest.count (.closes other) := by
    simp
  constructor
  · intro tidy
    refine ⟨fun other => ?_, fun before other after split => ?_, ?_⟩
    · rw [← moved, ← same]
      exact tidy.once other
    · rw [← moved, ← same]
      exact tidy.ours (.opens fd :: before) other after (by rw [split, List.cons_append])
    · exact fun member => tidy.streams (List.mem_cons_of_mem _ member)
  · intro tidy
    refine ⟨fun other => ?_, fun before other after split => ?_, ?_⟩
    · rw [moved, same]
      exact tidy.once other
    · cases before with
      | nil => cases split
      | cons first before =>
        obtain ⟨rfl, rest⟩ := List.cons.inj split
        rw [moved, same]
        exact tidy.ours before other after rest
    · exact List.not_mem_cons_of_ne_of_not_mem (by simp) tidy.streams

theorem tidyFrom_closes :
    TidyFrom mine (.closes fd :: calls) ↔ fd ∈ mine ∧ TidyFrom (mine.erase fd) calls := by
  have same (other : Nat) (rest : List FdCall) :
      (FdCall.closes fd :: rest).count (.opens other) = rest.count (.opens other) := by
    simp
  -- Closing a descriptor moves one from what is held to what is closed.
  have moved (held : fd ∈ mine) (other : Nat) (rest : List FdCall) :
      (FdCall.closes fd :: rest).count (.closes other) + (mine.erase fd).count other =
        rest.count (.closes other) + mine.count other := by
    have some := List.count_pos_iff.mpr held
    by_cases it : other = fd
    · subst it
      rw [List.count_cons_self, List.count_erase_self]
      omega
    · rw [List.count_erase_of_ne it, List.count_cons_of_ne]
      simpa using Ne.symm it
  constructor
  · intro tidy
    -- The first call closes what was held before it.
    have held : fd ∈ mine := by
      have some := tidy.ours [] fd calls rfl
      simpa using some
    refine ⟨held, fun other => ?_, fun before other after split => ?_, ?_⟩
    · have all := tidy.once other
      have moves := moved held other calls
      rw [same] at all
      omega
    · have all := tidy.ours (.closes fd :: before) other after (by rw [split, List.cons_append])
      have moves := moved held other before
      rw [same] at all
      omega
    · exact fun member => tidy.streams (List.mem_cons_of_mem _ member)
  · rintro ⟨held, tidy⟩
    refine ⟨fun other => ?_, fun before other after split => ?_, ?_⟩
    · have all := tidy.once other
      have moves := moved held other calls
      rw [same]
      omega
    · cases before with
      | nil =>
        cases split
        simpa using held
      | cons first before =>
        obtain ⟨rfl, rest⟩ := List.cons.inj split
        have all := tidy.ours before other after rest
        have moves := moved held other before
        rw [same]
        omega
    · exact List.not_mem_cons_of_ne_of_not_mem (by simp) tidy.streams

theorem tidyFrom_iff : TidyFrom mine calls ↔ settle mine calls = some [] := by
  induction calls generalizing mine with
  | nil => simp [tidyFrom_nil, settle]
  | cons call calls ih =>
    cases call with
    | opens fd => rw [tidyFrom_opens, ih, settle]
    | closes fd =>
      rw [tidyFrom_closes, ih, settle]
      by_cases held : fd ∈ mine
      · simp [held]
      · simp [held]
    | closesStream =>
      refine iff_of_false (fun tidy => tidy.streams List.mem_cons_self) ?_
      simp [settle]

/-- A record is tidy when settling it leaves nothing. -/
theorem tidy_settle : Tidy calls ↔ settle [] calls = some [] := tidyFrom_iff

theorem settle_append (more : List FdCall) :
    settle mine (calls ++ more) = (settle mine calls).bind (settle · more) := by
  induction calls generalizing mine with
  | nil => rfl
  | cons call calls ih =>
    cases call with
    | opens fd => exact ih
    | closes fd =>
      simp only [List.cons_append, settle]
      split
      · exact ih
      · rfl
    | closesStream => rfl

end

/-! ## What is left to close -/

/-- The descriptors that are left to close after the calls so far. -/
structure FdTable.Owns (t : FdTable) (mine : List Nat) : Prop where
  settles : settle [] t.calls = some mine
  used : ∀ fd ∈ mine, fd ∈ t.used
  distinct : mine.Nodup

namespace FdTable.Owns

variable {t : FdTable} {mine : List Nat} {fd : Nat}

theorem begins (used : List Nat) : (⟨used, []⟩ : FdTable).Owns [] where
  settles := rfl
  used := by simp
  distinct := List.nodup_nil

/-- A new descriptor is none of those that are open. -/
theorem opens (owns : t.Owns mine) : t.opens.2.Owns (t.opens.1 :: mine) where
  settles := by
    rw [FdTable.opens, settle_append, owns.settles]
    rfl
  used := by
    rintro fd (_ | ⟨_, member⟩)
    · exact List.mem_cons_self
    · exact List.mem_cons_of_mem _ (owns.used fd member)
  distinct := List.nodup_cons.mpr ⟨fun member => lowest_unused t.used (owns.used _ member),
    owns.distinct⟩

theorem closes (owns : t.Owns mine) (held : fd ∈ mine) : (t.closes fd).Owns (mine.erase fd) where
  settles := by
    rw [FdTable.closes, settle_append, owns.settles]
    simp [settle, held]
  used := by
    intro other member
    have kept := owns.distinct.mem_erase_iff.mp member
    exact (List.mem_erase_of_ne kept.1).mpr (owns.used other kept.2)
  distinct := owns.distinct.erase fd

theorem closes_first (owns : t.Owns (fd :: mine)) : (t.closes fd).Owns mine := by
  have closed := owns.closes List.mem_cons_self
  rwa [List.erase_cons_head] at closed

theorem closes_second {other : Nat} (owns : t.Owns (other :: fd :: mine)) :
    (t.closes fd).Owns (other :: mine) := by
  have ne : other ≠ fd := fun same =>
    (List.nodup_cons.mp owns.distinct).1 (same ▸ List.mem_cons_self)
  have closed := owns.closes (List.mem_cons_of_mem other List.mem_cons_self)
  rwa [List.erase_cons_tail (by simpa using ne), List.erase_cons_head] at closed

/-- Calls on what is not there any more cannot be made good. -/
theorem untidy (owns : t.Owns mine) (gone : fd ∉ mine) : ¬ Tidy (t.closes fd).calls := by
  rw [tidy_settle, FdTable.closes, settle_append, owns.settles]
  simp [settle, gone]

theorem untidy_twice (owns : t.Owns mine) (held : fd ∈ mine) :
    ¬ Tidy ((t.closes fd).closes fd).calls :=
  (owns.closes held).untidy owns.distinct.not_mem_erase

/-- A standard stream that was closed stays closed. -/
theorem untidy_stream (owns : t.Owns mine) (fd : Nat) : ¬ Tidy (t.closesStream fd).calls := by
  rw [tidy_settle, FdTable.closesStream, settle_append, owns.settles]
  simp [settle]

theorem tidy_iff (owns : t.Owns mine) : Tidy t.calls ↔ mine = [] := by
  rw [tidy_settle, owns.settles, Option.some.injEq]

end FdTable.Owns

end CheriGzip
