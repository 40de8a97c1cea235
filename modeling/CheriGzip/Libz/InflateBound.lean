import CheriGzip.Libz.InflateSessions

/-!
# How much inflate puts

A bit of the data gives 129 bytes at most: a length and a distance have at least a bit each, and 258
is the longest match. So the output is never more than 1032 times as long as the input.
-/
namespace CheriGzip.Inflate

open Loop

/-- What the symbol under way can still put. -/
def Decoder.owes (d : Decoder) : Nat :=
  match d.regs.block, d.regs.mode with
  | none, .lit => 1
  | none, .lenext => 129
  | none, .dist => 129
  | none, .distext => 258
  | none, .matching => d.pending.length
  | _, _ => 0

/-- What was put, with what is still to be put. -/
def Decoder.debt (d : Decoder) : Nat := d.out.length + d.owes

section

variable {lens : List Nat} {codes : List Code} {data out : Bytes} {consumed x : Nat} {s : Inflater}
  {d d' : Decoder} {r : Registers} {p : Pending} {pos : Nat}

theorem Decoder.owes_block {block : Block} (is : d.regs.block = some block) : d.owes = 0 := by
  simp only [Decoder.owes, is]

theorem Decoder.owes_mode (block : d.regs.block = none)
    (mode : d.regs.mode = .type ∨ d.regs.mode = .len ∨ d.regs.mode = .bad) : d.owes = 0 := by
  rcases mode with mode | mode | mode
  · simp only [Decoder.owes, block, mode]
  · simp only [Decoder.owes, block, mode]
  · simp only [Decoder.owes, block, mode]

theorem Registers.Reaches.owes {block : Block} (reaches : r.Reaches block) :
    Decoder.owes ⟨r, p, pos, out⟩ = 0 := by
  cases reaches with
  | bad none mode => exact Decoder.owes_mode none (.inr (.inr mode))
  | next is => exact Decoder.owes_block is

/-- A state that puts nothing, and behind which nothing is to be put. -/
theorem Decoder.debt_idle (le : d.pos ≤ d'.pos) (same : d'.out = d.out) (none : d'.owes = 0) :
    d'.debt + 129 * d.pos ≤ d.debt + 129 * d'.pos := by
  simp only [Decoder.debt, same, none]
  omega

theorem Registers.blockType_owes (bits : Nat) :
    Decoder.owes ⟨r.blockType bits, p, pos, out⟩ = 0 := by
  simp only [Registers.blockType]
  split
  · exact Decoder.owes_block rfl
  split
  · exact Decoder.owes_block rfl
  split
  · exact Decoder.owes_block rfl
  · exact Decoder.owes_mode rfl (.inr (.inr rfl))

/-- Between symbols. -/
theorem Decoder.block_debt {block : Block} (sound : d.Sound) (is : d.regs.block = some block)
    (step : d.step x = .again d') : d'.debt + 129 * d.pos ≤ d.debt + 129 * d'.pos := by
  have le := (sound.next step).pos
  have phase := sound.phase
  simp only [Registers.Phase, is] at phase
  simp only [Decoder.step, is] at step
  cases block with
  | head | copy_ | check | length =>
    cases step
    exact Decoder.debt_idle le rfl (Decoder.owes_block rfl)
  | len_ =>
    cases step
    exact Decoder.debt_idle le rfl (Decoder.owes_mode rfl (.inr (.inl rfl)))
  | typedo =>
    simp only [Decoder.typedo, Decoder.read] at step
    split at step
    · cases step
      exact Decoder.debt_idle le rfl (Decoder.owes_block rfl)
    · cases step
      exact Decoder.debt_idle le rfl (Registers.blockType_owes _)
  | stored =>
    simp only [Decoder.stored, Registers.storedLength] at step
    split at step
    · cases step
      exact Decoder.debt_idle le rfl (Decoder.owes_block is)
    · cases step
      refine Decoder.debt_idle le rfl ?_
      split
      · exact Decoder.owes_mode rfl (.inr (.inr rfl))
      · exact Decoder.owes_block rfl
  | copy =>
    simp only [Decoder.copy] at step
    split at step
    · -- A stored byte has eight bits.
      cases step
      have none : Decoder.owes { d with
          pending := { d.pending with length := d.pending.length - 1 }
          pos := d.pos + 8
          out := d.out ++ [UInt8.ofNat (bitField x d.pos 8)] } = 0 := Decoder.owes_block is
      simp only [Decoder.debt, none, List.length_append, List.length_singleton]
      omega
    · cases step
      exact Decoder.debt_idle le rfl (Decoder.owes_mode rfl (.inl rfl))
  | table =>
    simp only [Decoder.read, Registers.tableSizes] at step
    split at step
    · cases step
      exact Decoder.debt_idle le rfl (Decoder.owes_mode rfl (.inr (.inr rfl)))
    · cases step
      exact Decoder.debt_idle le rfl (Decoder.owes_block rfl)
  | lenlens =>
    obtain ⟨counts, few, placed⟩ := phase
    have ncode := counts.ncode
    simp only [Decoder.read, Decoder.goes] at step
    split at step
    · obtain ⟨place, -, puts⟩ := Registers.putOrder_spec (by omega : d.regs.got < 19)
        (by rw [sound.sized.lens]; decide) (bitField x d.pos 3)
      rw [puts] at step
      cases step
      exact Decoder.debt_idle le rfl (Decoder.owes_block is)
    · obtain ⟨r, builds, -, -, reaches⟩ :=
        Registers.buildCodes_spec sound.sized counts (by omega) placed
      rw [builds] at step
      cases step
      exact Decoder.debt_idle le rfl reaches.owes
  | codelens =>
    obtain ⟨counts, few, within, lens, finds⟩ := phase
    simp only [Decoder.codelens, Decoder.goes] at step
    split at step
    · rename_i more
      split at step
      · cases step
      · rename_i e _
        obtain ⟨r, puts, -, -, reaches⟩ := Registers.putLength_spec sound.sized counts more within
          finds is e.val (bitField x (d.pos + e.bits) (repeatBits e.val))
        rw [puts] at step
        cases step
        exact Decoder.debt_idle le rfl reaches.owes
    · rename_i all
      obtain ⟨r, builds, -, -, reaches⟩ := Registers.buildTables_spec sound.sized counts
        (by rwa [Nat.le_antisymm few (Nat.le_of_not_lt all)] at within)
      rw [builds] at step
      cases step
      exact Decoder.debt_idle le rfl reaches.owes
  | done | mem => cases step

/-- Within a symbol. -/
theorem Decoder.len_debt (tables : d.regs.Tables) (block : d.regs.block = none)
    (mode : d.regs.mode = .len) (step : d.len x = .again d') :
    d'.debt + 129 * d.pos ≤ d.debt + 129 * d'.pos := by
  obtain ⟨lens, dists, finds, -⟩ := tables
  obtain ⟨e, n, entryAt, -⟩ := finds.formed.entryAt x d.pos
  have some := finds.some entryAt
  have none : d.owes = 0 := Decoder.owes_mode block (.inr (.inl mode))
  simp only [Decoder.len, EntryAt.lookup lenTest entryAt] at step
  -- The code has a bit at least, and that is enough for what it owes.
  split at step
  · cases step
    rw [Decoder.debt, Decoder.debt, none]
    simp only [Decoder.mode, Decoder.owes, block]
    omega
  split at step
  · cases step
    exact Decoder.debt_idle (Nat.le_add_right _ _) rfl (Decoder.owes_mode block (.inl rfl))
  split at step
  · cases step
    exact Decoder.debt_idle (Nat.le_add_right _ _) rfl (Decoder.owes_mode block (.inr (.inr rfl)))
  · cases step
    rw [Decoder.debt, Decoder.debt, none]
    simp only [Decoder.mode, Decoder.owes, block]
    omega

theorem Decoder.dist_debt (tables : d.regs.Tables) (block : d.regs.block = none)
    (mode : d.regs.mode = .dist) (step : d.dist x = .again d') :
    d'.debt + 129 * d.pos ≤ d.debt + 129 * d'.pos := by
  obtain ⟨lens, dists, -, finds⟩ := tables
  obtain ⟨e, n, entryAt, -⟩ := finds.formed.entryAt x d.pos
  have some := finds.some entryAt
  simp only [Decoder.dist, EntryAt.lookup distTest entryAt] at step
  split at step
  · cases step
    exact Decoder.debt_idle (Nat.le_add_right _ _) rfl (Decoder.owes_mode block (.inr (.inr rfl)))
  · -- A code of the length and one of the distance.
    cases step
    simp only [Decoder.debt, Decoder.mode, Decoder.owes, block, mode]
    omega

theorem Decoder.matching_debt (sound : d.Sound) (block : d.regs.block = none)
    (mode : d.regs.mode = .matching) (step : d.matching = .again d') :
    d'.debt + 129 * d.pos ≤ d.debt + 129 * d'.pos := by
  have pends := sound.pends
  simp only [Decoder.Pends, block, mode] at pends
  simp only [Decoder.matching] at step
  split at step
  · cases step
    exact Decoder.debt_idle (Nat.le_refl _) rfl (Decoder.owes_mode block (.inr (.inr rfl)))
  split at step
  · cases step
  · -- What was put is no longer owed.
    have owed : d.owes = d.pending.length := by simp only [Decoder.owes, block, mode]
    cases step
    by_cases last : d.pending.length - 1 = 0
    · rw [if_pos last, Decoder.debt, Decoder.debt, owed]
      simp only [Decoder.mode, Decoder.owes, block, List.length_append, List.length_singleton]
      omega
    · rw [if_neg last, Decoder.debt, Decoder.debt, owed]
      simp only [Decoder.mode, Decoder.owes, block, List.length_append, List.length_singleton]
      omega

theorem Decoder.symbol_debt (sound : d.Sound) (block : d.regs.block = none)
    (step : d.step x = .again d') : d'.debt + 129 * d.pos ≤ d.debt + 129 * d'.pos := by
  have pends := sound.pends
  have tables : d.regs.mode ≠ .type → d.regs.mode ≠ .bad → d.regs.Tables := by
    have phase := sound.phase
    simp only [Registers.Phase, block] at phase
    exact fun type bad => (phase.resolve_left type).resolve_left bad
  simp only [Decoder.step, block] at step
  -- Only the codes of `len` and `dist` pay; the other modes put what is owed, or pass it on.
  cases mode : d.regs.mode with
  | type =>
    simp only [mode] at step
    cases step
    exact Decoder.debt_idle (Nat.le_refl _) rfl (Decoder.owes_block rfl)
  | bad =>
    simp only [mode] at step
    cases step
  | len =>
    simp only [mode] at step
    exact Decoder.len_debt (tables (by simp [mode]) (by simp [mode])) block mode step
  | lenext =>
    simp only [mode] at step
    cases step
    simp only [Decoder.debt, Decoder.mode, Decoder.owes, block, mode]
    omega
  | dist =>
    simp only [mode] at step
    exact Decoder.dist_debt (tables (by simp [mode]) (by simp [mode])) block mode step
  | distext =>
    simp only [mode] at step
    cases step
    simp only [Decoder.Pends, block, mode] at pends
    simp only [Decoder.debt, Decoder.mode, Decoder.owes, block, mode]
    omega
  | matching =>
    simp only [mode] at step
    exact Decoder.matching_debt sound block mode step
  | lit =>
    simp only [mode] at step
    cases step
    simp only [Decoder.debt, Decoder.mode, Decoder.owes, block, mode, List.length_append,
      List.length_singleton]
    omega

theorem Decoder.step_debt (sound : d.Sound) (step : d.step x = .again d') :
    d'.debt + 129 * d.pos ≤ d.debt + 129 * d'.pos := by
  cases block : d.regs.block with
  | some b => exact Decoder.block_debt sound block step
  | none => exact Decoder.symbol_debt sound block step

theorem Decoder.Sound.debt (sound : d.Sound) (goes : Goes (Decoder.step x) d d') :
    d'.debt + 129 * d.pos ≤ d.debt + 129 * d'.pos := by
  induction goes with
  | refl => exact Nat.le_refl _
  | head turn _ ih =>
    have first := Decoder.step_debt sound turn
    have rest := ih (sound.next turn).sound
    omega

/-- However the calls are made, no session puts more than 1032 bytes for each byte that it takes. -/
theorem session_bounded (session : Session lens codes data consumed out s)
    (sized : (Inflater.start 15 lens codes).regs.Sized) : out.length ≤ 1032 * consumed := by
  obtain ⟨-, d, goes, -, rfl, behind, -⟩ := session.comes sized
  have debt := (Decoder.start_sound sized).debt goes
  have owed : (Decoder.start lens codes).debt = 0 := rfl
  have start : (Decoder.start lens codes).pos = 0 := rfl
  have put : d.out.length ≤ d.debt := Nat.le_add_right _ _
  omega

end

theorem session_bounded_a : ([97] : Bytes).length ≤ 1032 * 3 := by
  obtain ⟨s, whole, -⟩ := aStream_whole
  exact session_bounded whole Inflater.zeros_sized

end CheriGzip.Inflate
