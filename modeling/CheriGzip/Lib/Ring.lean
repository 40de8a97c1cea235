import Mathlib.Data.List.DropRight

/-!
# Rings

A fixed number of cells that are written in turn, so that the oldest items make room for the
newest. What a ring holds is the end of everything that was put into it.
-/
namespace CheriGzip

section

variable {α : Type}

/-! ## The end of a list -/

theorem rtake_length (l : List α) (n : Nat) : (l.rtake n).length = min l.length n := by
  rw [List.rtake, List.length_drop]
  omega

theorem rtake_of_length_le {l : List α} {n : Nat} (short : l.length ≤ n) : l.rtake n = l := by
  rw [List.rtake, Nat.sub_eq_zero_of_le short, List.drop_zero]

theorem rtake_back {l : List α} {n back : Nat} (reach : back ≤ n) (inside : back ≤ l.length) :
    (l.rtake n)[(l.rtake n).length - back]? = l[l.length - back]? := by
  rw [rtake_length, List.rtake, List.getElem?_drop]
  congr 1
  omega

theorem rtake_append_of_le (l : List α) {m : List α} {n : Nat} (long : n ≤ m.length) :
    (l ++ m).rtake n = m.rtake n := by
  have past : (l ++ m).length - n = l.length + (m.length - n) := by
    rw [List.length_append]
    omega
  rw [List.rtake, past, List.drop_length_add_append, List.rtake]

theorem rtake_append_of_ge (l : List α) {m : List α} {n : Nat} (short : m.length ≤ n) :
    (l ++ m).rtake n = l.rtake (n - m.length) ++ m := by
  have inside : (l ++ m).length - n = l.length - (n - m.length) := by
    rw [List.length_append]
    omega
  rw [List.rtake, inside, List.drop_append_of_le_length (Nat.sub_le _ _), List.rtake]

/-- What is cut off first does not come back. -/
theorem rtake_append_rtake (l m : List α) (n : Nat) :
    (l.rtake n ++ m).rtake n = (l ++ m).rtake n := by
  by_cases long : n ≤ m.length
  · rw [rtake_append_of_le _ long, rtake_append_of_le _ long]
  · have short : m.length ≤ n := by omega
    rw [rtake_append_of_ge _ short, rtake_append_of_ge _ short, List.rtake, List.rtake, List.rtake,
      List.drop_drop, List.length_drop]
    congr 2
    omega

/-- Of the same length at the end, two lists are the same there if what was put behind is. -/
theorem rtake_append_iff (l : List α) {m m' : List α} {n : Nat}
    (length : m.length = min m'.length n) :
    (l ++ m).rtake n = (l ++ m').rtake n ↔ m = m'.rtake n := by
  have fits : m.length ≤ n := by omega
  by_cases long : n ≤ m'.length
  · have whole : n ≤ m.length := by omega
    rw [rtake_append_of_le _ long, rtake_append_of_le _ whole, rtake_of_length_le fits]
  · have short : m'.length ≤ n := by omega
    have same : m.length = m'.length := by omega
    rw [rtake_append_of_ge _ short, rtake_append_of_ge _ fits, rtake_of_length_le short, same]
    exact List.append_right_inj _

end

/-! ## Writing into cells -/

/-- The items from a cell on. -/
def overwrite {α : Type} (cells : List α) (offset : Nat) (items : List α) : List α :=
  cells.take offset ++ items ++ cells.drop (offset + items.length)

section

variable {α : Type} {cells items : List α} {offset : Nat}

theorem overwrite_length (fits : offset + items.length ≤ cells.length) :
    (overwrite cells offset items).length = cells.length := by
  simp only [overwrite, List.length_append, List.length_take, List.length_drop]
  omega

theorem overwrite_take (fits : offset ≤ cells.length) :
    (overwrite cells offset items).take (offset + items.length) = cells.take offset ++ items := by
  rw [overwrite, List.take_append_of_le_length]
  · apply List.take_of_length_le
    simp only [List.length_append, List.length_take]
    omega
  · simp only [List.length_append, List.length_take]
    omega

theorem overwrite_drop (fits : offset ≤ cells.length) :
    (overwrite cells offset items).drop (offset + items.length)
      = cells.drop (offset + items.length) := by
  have front : (cells.take offset ++ items).length = offset + items.length := by
    rw [List.length_append, List.length_take, Nat.min_eq_left fits]
  rw [overwrite, ← front, List.drop_left]

end

/-! ## The ring -/

/-- The cells, the one that is written next, and how many hold an item. They fill up from the
first on. -/
structure Ring (α : Type) where
  cells : List α
  next : Nat
  count : Nat
  next_lt : next < cells.length
  filled : count = cells.length ∨ count = next

namespace Ring

variable {α : Type} (r : Ring α)

/-- The items, the oldest first. -/
def contents : List α :=
  if r.count = r.cells.length then r.cells.drop r.next ++ r.cells.take r.next
  else r.cells.take r.next

/-- Empty cells. -/
def empty (cells : List α) (some : 0 < cells.length) : Ring α := ⟨cells, 0, 0, some, .inr rfl⟩

theorem contents_length : r.contents.length = r.count := by
  have next_lt := r.next_lt
  rw [contents]
  by_cases full : r.count = r.cells.length
  · rw [if_pos full, List.length_append, List.length_drop, List.length_take]
    omega
  · rw [if_neg full, List.length_take]
    have next := r.filled.resolve_left full
    omega

/-- The item `back` items before the end. -/
theorem back_getElem? {back : Nat} (some : 1 ≤ back) (reach : back ≤ r.count) :
    r.cells[if back ≤ r.next then r.next - back else r.cells.length + r.next - back]? =
      r.contents[r.contents.length - back]? := by
  have next_lt := r.next_lt
  rw [contents_length, contents]
  by_cases full : r.count = r.cells.length
  · rw [if_pos full, full]
    by_cases low : back ≤ r.next
    · rw [if_pos low, List.getElem?_append_right (by rw [List.length_drop]; omega),
        List.length_drop, List.getElem?_take_of_lt (by omega)]
      congr 1
      omega
    · rw [if_neg low, List.getElem?_append_left (by rw [List.length_drop]; omega),
        List.getElem?_drop]
      congr 1
      omega
  · have next := r.filled.resolve_left full
    rw [if_neg full, if_pos (by omega), next, List.getElem?_take_of_lt (by omega)]

theorem count_le : r.count ≤ r.cells.length := by
  have next_lt := r.next_lt
  rcases r.filled with full | next <;> omega

/-- Many items fill the ring anew. -/
def refill (items : List α) (long : r.cells.length ≤ items.length) : Ring α where
  cells := items.rtake r.cells.length
  next := 0
  count := r.cells.length
  next_lt := by
    have next_lt := r.next_lt
    rw [rtake_length]
    omega
  filled := by
    left
    rw [rtake_length]
    omega

/-- Few items are written up to the last cell. -/
def write (items : List α) (fits : r.next + items.length ≤ r.cells.length) : Ring α where
  cells := overwrite r.cells r.next items
  next := if r.next + items.length = r.cells.length then 0 else r.next + items.length
  count := if r.count < r.cells.length then r.count + items.length else r.count
  next_lt := by
    have next_lt := r.next_lt
    rw [overwrite_length fits]
    split <;> omega
  filled := by
    have next_lt := r.next_lt
    rw [overwrite_length fits]
    rcases r.filled with full | next <;> split <;> split <;> omega

/-- Items that do not fit behind `next` go on in the first cells. -/
def wrap (back front : List α) (fits : r.next + back.length = r.cells.length)
    (short : front.length < r.cells.length) : Ring α where
  cells := overwrite (overwrite r.cells r.next back) 0 front
  next := front.length
  count := r.cells.length
  next_lt := by
    rw [overwrite_length, overwrite_length (Nat.le_of_eq fits)]
    · exact short
    · rw [overwrite_length (Nat.le_of_eq fits)]
      omega
  filled := by
    left
    rw [overwrite_length, overwrite_length (Nat.le_of_eq fits)]
    rw [overwrite_length (Nat.le_of_eq fits)]
    omega

theorem contents_full {r : Ring α} (full : r.count = r.cells.length) :
    r.contents = r.cells.drop r.next ++ r.cells.take r.next :=
  if_pos full

theorem contents_filling {r : Ring α} (filling : r.count ≠ r.cells.length) :
    r.contents = r.cells.take r.next :=
  if_neg filling

@[simp] theorem empty_contents (cells : List α) (some : 0 < cells.length) :
    (empty cells some).contents = [] :=
  contents_filling (Nat.ne_of_lt some)

variable {r}

theorem refill_contents {items : List α} (long : r.cells.length ≤ items.length) :
    (r.refill items long).contents = (r.contents ++ items).rtake r.cells.length := by
  have full : (r.refill items long).count = (r.refill items long).cells.length :=
    (r.refill items long).filled.resolve_right (by
      have next_lt := r.next_lt
      show r.cells.length ≠ 0
      omega)
  rw [contents_full full, rtake_append_of_le _ long]
  exact List.append_nil _

theorem write_contents {items : List α} (fits : r.next + items.length ≤ r.cells.length) :
    (r.write items fits).contents = (r.contents ++ items).rtake r.cells.length := by
  have next_lt := r.next_lt
  have inside : r.next ≤ r.cells.length := Nat.le_of_lt next_lt
  have cells : (r.write items fits).cells = overwrite r.cells r.next items := rfl
  have length : (r.write items fits).cells.length = r.cells.length := overwrite_length fits
  have count : (r.write items fits).count
      = if r.count < r.cells.length then r.count + items.length else r.count := rfl
  have next : (r.write items fits).next
      = if r.next + items.length = r.cells.length then 0 else r.next + items.length := rfl
  have written := @overwrite_take α r.cells items r.next inside
  have behind := @overwrite_drop α r.cells items r.next inside
  by_cases full : r.count = r.cells.length
  · -- The items replace the oldest ones.
    have full' : (r.write items fits).count = (r.write items fits).cells.length := by
      rw [count, length, if_neg (by omega), full]
    have short : items.length ≤ r.cells.length := by omega
    have dropped : (r.cells.drop r.next ++ r.cells.take r.next).rtake
        (r.cells.length - items.length)
        = r.cells.drop (r.next + items.length) ++ r.cells.take r.next := by
      have past : (r.cells.drop r.next ++ r.cells.take r.next).length
          - (r.cells.length - items.length) = items.length := by
        rw [List.length_append, List.length_drop, List.length_take]
        omega
      rw [List.rtake, past, List.drop_append_of_le_length, List.drop_drop]
      rw [List.length_drop]
      omega
    rw [contents_full full', contents_full full, rtake_append_of_ge _ short, dropped, next, cells,
      List.append_assoc]
    -- The next cell wraps only if the items end at the last cell.
    by_cases ends : r.next + items.length = r.cells.length
    · rw [if_pos ends, List.drop_zero, List.take_zero, List.append_nil, ← written,
        List.take_of_length_le (by rw [overwrite_length fits]; omega),
        List.drop_of_length_le (by omega), List.nil_append]
    · rw [if_neg ends, written, behind]
  · -- The ring is still filling: the items come behind what is there, and may fill it.
    have filling : r.count = r.next := r.filled.resolve_left full
    have taken : r.contents = r.cells.take r.next := contents_filling full
    have total : (r.contents ++ items).length ≤ r.cells.length := by
      rw [List.length_append, contents_length]
      omega
    rw [rtake_of_length_le total, taken, ← written]
    by_cases ends : r.next + items.length = r.cells.length
    · have full' : (r.write items fits).count = (r.write items fits).cells.length := by
        rw [count, length, if_pos (by omega)]
        omega
      rw [contents_full full', next, if_pos ends, List.drop_zero, List.take_zero, List.append_nil,
        List.take_of_length_le (by rw [overwrite_length fits]; omega)]
      exact cells
    · have filling' : (r.write items fits).count ≠ (r.write items fits).cells.length := by
        rw [count, length, if_pos (by omega)]
        omega
      rw [contents_filling filling', next, if_neg ends]
      exact congrArg (List.take _) cells

theorem wrap_contents {back front : List α} (fits : r.next + back.length = r.cells.length)
    (short : front.length < r.cells.length) (once : back.length + front.length < r.cells.length) :
    (r.wrap back front fits short).contents
      = (r.contents ++ (back ++ front)).rtake r.cells.length := by
  have next_lt := r.next_lt
  have inside : r.next ≤ r.cells.length := Nat.le_of_lt next_lt
  have whole : overwrite r.cells r.next back = r.cells.take r.next ++ back := by
    rw [← overwrite_take inside, List.take_of_length_le]
    rw [overwrite_length (Nat.le_of_eq fits)]
    omega
  have cells : (r.wrap back front fits short).cells
      = overwrite (r.cells.take r.next ++ back) 0 front := by
    rw [← whole]
    rfl
  have full : (r.wrap back front fits short).count = (r.wrap back front fits short).cells.length := by
    rw [cells, overwrite_length]
    · rw [List.length_append, List.length_take, Nat.min_eq_left inside, fits]
      rfl
    · rw [List.length_append, List.length_take, Nat.min_eq_left inside]
      omega
  have written := @overwrite_take α (r.cells.take r.next ++ back) front 0 (Nat.zero_le _)
  have behind := @overwrite_drop α (r.cells.take r.next ++ back) front 0 (Nat.zero_le _)
  rw [Nat.zero_add] at written behind
  have next : (r.wrap back front fits short).next = front.length := rfl
  have few : (back ++ front).length ≤ r.cells.length := by
    rw [List.length_append]
    omega
  have first : front.length ≤ (r.cells.take r.next).length := by
    rw [List.length_take]
    omega
  -- What stays of the old items lies between the new ones.
  have kept : r.contents.rtake (r.cells.length - (back ++ front).length)
      = (r.cells.take r.next).drop front.length := by
    by_cases isFull : r.count = r.cells.length
    · have past : (r.cells.drop r.next ++ r.cells.take r.next).length
          - (r.cells.length - (back ++ front).length)
          = (r.cells.drop r.next).length + front.length := by
        simp only [List.length_append, List.length_drop, List.length_take]
        omega
      rw [contents_full isFull, List.rtake, past, List.drop_length_add_append]
    · have past : (r.cells.take r.next).length - (r.cells.length - (back ++ front).length)
          = front.length := by
        simp only [List.length_append, List.length_take]
        omega
      rw [contents_filling isFull, List.rtake, past]
  rw [contents_full full, rtake_append_of_ge _ few, kept, next, cells, written, behind,
    List.drop_append_of_le_length first, List.take_zero, List.nil_append, List.append_assoc]

end Ring

end CheriGzip
