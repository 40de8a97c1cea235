import CheriGzip.Lib.BitField
import Mathlib.Data.List.Basic

/-!
# Canonical prefix codes

A canonical code is given by the lengths of its codewords. Codewords are written with their highest
bit first into a stream that is read with the lowest bit first. Each of them stands for an interval
of the numbers that the next `m` bits of the stream can be, taken with the first bit highest; the
intervals follow one another in the order of the lengths.
-/
namespace CheriGzip

/-! ## Bits in the other order -/

/-- The low `n` bits, in the other order. -/
def reverseBits : (n x : Nat) → Nat
  | 0, _ => 0
  | n + 1, x => x % 2 * 2 ^ n + reverseBits n (x / 2)

section

variable {l m n x c i : Nat}

theorem reverseBits_lt (n x : Nat) : reverseBits n x < 2 ^ n := by
  induction n generalizing x with
  | zero => exact Nat.one_pos
  | succ n ih =>
    have rest := ih (x / 2)
    have bit : x % 2 * 2 ^ n ≤ 1 * 2 ^ n := Nat.mul_le_mul_right _ (by omega)
    rw [reverseBits, Nat.pow_succ]
    omega

theorem reverseBits_testBit (n x i : Nat) :
    (reverseBits n x).testBit i = (decide (i < n) && x.testBit (n - 1 - i)) := by
  induction n generalizing x i with
  | zero => simp [reverseBits]
  | succ n ih =>
    rw [reverseBits, Nat.mul_comm, Nat.testBit_two_pow_mul_add _ (reverseBits_lt n _), ih]
    rcases Nat.lt_trichotomy i n with less | rfl | more
    · have further : n + 1 - 1 - i = n - 1 - i + 1 := by omega
      rw [if_pos less, further, Nat.testBit_succ]
      simp [less, Nat.lt_succ_of_lt less]
    · rw [if_neg (Nat.lt_irrefl i), Nat.sub_self, Nat.add_sub_cancel, Nat.sub_self]
      simp
    · have none : ¬ i < n + 1 := by omega
      have high : (x % 2).testBit (i - n) = false := by
        apply Nat.testBit_lt_two_pow
        have two : 2 ^ 1 ≤ 2 ^ (i - n) := Nat.pow_le_pow_right (by decide) (by omega)
        omega
      rw [if_neg (by omega), high]
      simp [none]

/-- Of a number of `n` bits nothing is lost. -/
theorem reverseBits_reverseBits (small : x < 2 ^ n) : reverseBits n (reverseBits n x) = x := by
  apply Nat.eq_of_testBit_eq
  intro i
  rw [reverseBits_testBit, reverseBits_testBit]
  by_cases inside : i < n
  · have back : n - 1 - (n - 1 - i) = i := by omega
    have inside' : n - 1 - i < n := by omega
    simp [inside, inside', back]
  · have high : x.testBit i = false := by
      apply Nat.testBit_lt_two_pow
      exact Nat.lt_of_lt_of_le small (Nat.pow_le_pow_right (by decide) (Nat.le_of_not_lt inside))
    simp [inside, high]

/-- The first `l` bits that are read are the high ones. -/
theorem reverseBits_div (within : l ≤ m) (x : Nat) :
    reverseBits m x / 2 ^ (m - l) = reverseBits l x := by
  apply Nat.eq_of_testBit_eq
  intro i
  rw [Nat.testBit_div_two_pow, reverseBits_testBit, reverseBits_testBit]
  by_cases inside : i < l
  · have place : m - 1 - (i + (m - l)) = l - 1 - i := by omega
    have inside' : i + (m - l) < m := by omega
    simp [inside, inside', place]
  · have outside : ¬ i + (m - l) < m := by omega
    simp [inside, outside]

/-- A code that is filled up with zeros keeps its bits. -/
theorem reverseBits_mul (within : l ≤ m) (c : Nat) :
    reverseBits m (c * 2 ^ (m - l)) = reverseBits l c := by
  apply Nat.eq_of_testBit_eq
  intro i
  rw [reverseBits_testBit, reverseBits_testBit, Nat.testBit_mul_two_pow]
  by_cases inside : i < l
  · have reach : m - l ≤ m - 1 - i := by omega
    have place : m - 1 - i - (m - l) = l - 1 - i := by omega
    have inside' : i < m := by omega
    simp [inside, inside', reach, place]
  · by_cases inside' : i < m
    · have short : ¬ m - l ≤ m - 1 - i := by omega
      simp [inside, short]
    · simp [inside, inside']

theorem reverseBits_mod (within : l ≤ m) (x : Nat) :
    reverseBits l (x % 2 ^ m) = reverseBits l x := by
  apply Nat.eq_of_testBit_eq
  intro i
  rw [reverseBits_testBit, reverseBits_testBit, Nat.testBit_mod_two_pow]
  by_cases inside : i < l
  · have low : l - 1 - i < m := by omega
    simp [inside, low]
  · simp [inside]

/-- Two numbers with the same reversal have the same low bits. -/
theorem reverseBits_inj {y : Nat} (same : reverseBits n x = reverseBits n y) :
    x % 2 ^ n = y % 2 ^ n := by
  rw [← reverseBits_mod (Nat.le_refl n) x, ← reverseBits_mod (Nat.le_refl n) y] at same
  rw [← reverseBits_reverseBits (Nat.mod_lt x (Nat.two_pow_pos n)), same,
    reverseBits_reverseBits (Nat.mod_lt y (Nat.two_pow_pos n))]

/-- The low bits are a code exactly when the number lies in the interval of the code. -/
theorem mod_reverseBits_iff (within : l ≤ m) (small : c < 2 ^ l) :
    x % 2 ^ l = reverseBits l c ↔
      c * 2 ^ (m - l) ≤ reverseBits m x ∧ reverseBits m x < (c + 1) * 2 ^ (m - l) := by
  have positive := Nat.two_pow_pos (m - l)
  rw [← Nat.le_div_iff_mul_le positive, ← Nat.div_lt_iff_lt_mul positive, reverseBits_div within]
  constructor
  · intro same
    have code : reverseBits l x = c := by
      rw [← reverseBits_mod (Nat.le_refl l) x, same, reverseBits_reverseBits small]
    omega
  · rintro ⟨least, most⟩
    have code : reverseBits l x = c := by omega
    rw [← code, ← reverseBits_mod (Nat.le_refl l) x,
      reverseBits_reverseBits (Nat.mod_lt x (Nat.two_pow_pos l))]

end

/-! ## Lengths in order -/

/-- Where the interval of the `k`th codeword begins: the intervals before it are behind one
another, each of the size that its length leaves. -/
def place (m : Nat) (ls : List Nat) (k : Nat) : Nat := ((ls.take k).map fun l => 2 ^ (m - l)).sum

/-- The lengths of the codewords in their order. -/
structure Ordered (m : Nat) (ls : List Nat) : Prop where
  sorted : ls.Pairwise (· ≤ ·)
  least : ∀ l ∈ ls, 1 ≤ l
  most : ∀ l ∈ ls, l ≤ m

section

variable {m : Nat} {ls : List Nat} {k j l : Nat}

@[simp] theorem place_zero (m : Nat) (ls : List Nat) : place m ls 0 = 0 := rfl

theorem place_succ (inside : ls[k]? = some l) :
    place m ls (k + 1) = place m ls k + 2 ^ (m - l) := by
  rw [place, place, List.take_add_one, inside]
  simp

theorem place_mono (le : j ≤ k) : place m ls j ≤ place m ls k := by
  obtain ⟨d, rfl⟩ := Nat.exists_eq_add_of_le le
  rw [place, place, List.take_add, List.map_append, List.sum_append]
  exact Nat.le_add_right _ _

/-- Of two codewords the later one is not shorter. -/
theorem Ordered.le (ordered : Ordered m ls) {l' : Nat} (before : j ≤ k) (first : ls[j]? = some l)
    (second : ls[k]? = some l') : l ≤ l' := by
  obtain ⟨inside, is⟩ := List.getElem?_eq_some_iff.mp first
  obtain ⟨inside', is'⟩ := List.getElem?_eq_some_iff.mp second
  rw [← is, ← is']
  rcases Nat.eq_or_lt_of_le before with same | less
  · subst same
    exact Nat.le_refl _
  · exact List.pairwise_iff_getElem.mp ordered.sorted j k inside inside' less

/-- An interval begins at a multiple of its size. -/
theorem Ordered.dvd (ordered : Ordered m ls) (inside : ls[k]? = some l) (within : j ≤ k) :
    2 ^ (m - l) ∣ place m ls j := by
  induction j with
  | zero => exact Nat.dvd_zero _
  | succ j ih =>
    obtain ⟨below, -⟩ := List.getElem?_eq_some_iff.mp inside
    have there : ls[j]? = some ls[j] := List.getElem?_eq_getElem (by omega)
    rw [place_succ there]
    apply Nat.dvd_add (ih (by omega))
    have le := ordered.le (by omega : j ≤ k) there inside
    exact Nat.pow_dvd_pow 2 (by omega)

/-- The codewords of at most `l` bits take a multiple of the size for `l` bits. -/
theorem dvd_place (short : ∀ i < j, ∀ l', ls[i]? = some l' → l' ≤ l)
    (within : j ≤ ls.length) : 2 ^ (m - l) ∣ place m ls j := by
  induction j with
  | zero => exact Nat.dvd_zero _
  | succ j ih =>
    have there : ls[j]? = some ls[j] := List.getElem?_eq_getElem (by omega)
    rw [place_succ there]
    apply Nat.dvd_add (ih (fun i less => short i (by omega)) (by omega))
    exact Nat.pow_dvd_pow 2 (by have := short j (by omega) _ there; omega)

/-- A number below the end of the first `n` intervals is in one of them. -/
theorem exists_place {n v : Nat} (within : n ≤ ls.length) (below : v < place m ls n) :
    ∃ k l, k < n ∧ ls[k]? = some l ∧ place m ls k ≤ v ∧ v < place m ls (k + 1) := by
  induction n with
  | zero => exact absurd below (Nat.not_lt_zero v)
  | succ n ih =>
    by_cases before : v < place m ls n
    · obtain ⟨k, l, less, there, least, most⟩ := ih (by omega) before
      exact ⟨k, l, by omega, there, least, most⟩
    · exact ⟨n, ls[n], by omega, List.getElem?_eq_getElem (by omega), by omega, below⟩

/-- The intervals do not meet. -/
theorem place_unique {v : Nat} (least : place m ls k ≤ v) (most : v < place m ls (k + 1))
    (least' : place m ls j ≤ v) (most' : v < place m ls (j + 1)) : k = j := by
  rcases Nat.lt_trichotomy k j with less | same | more
  · have behind : place m ls (k + 1) ≤ place m ls j := place_mono less
    omega
  · exact same
  · have behind : place m ls (j + 1) ≤ place m ls k := place_mono more
    omega

end

/-! ## Intervals and bits -/

section

variable {m : Nat} {ls : List Nat} {k l x y : Nat}

/-- The low bits are the high ones in the other order. -/
theorem mod_eq_reverseBits (within : l ≤ m) (x : Nat) :
    x % 2 ^ l = reverseBits l (reverseBits m x / 2 ^ (m - l)) := by
  have low := reverseBits_reverseBits (Nat.mod_lt x (Nat.two_pow_pos l))
  rw [reverseBits_mod (Nat.le_refl l)] at low
  rw [reverseBits_div within, low]

theorem mod_eq_iff (within : l ≤ m) :
    x % 2 ^ l = y % 2 ^ l ↔ reverseBits m x / 2 ^ (m - l) = reverseBits m y / 2 ^ (m - l) := by
  rw [reverseBits_div within, reverseBits_div within]
  constructor
  · intro same
    rw [← reverseBits_mod (Nat.le_refl l) x, same, reverseBits_mod (Nat.le_refl l)]
  · exact reverseBits_inj

theorem mod_eq_reverseBits_iff {c : Nat} (within : l ≤ m) (small : c < 2 ^ l) :
    x % 2 ^ l = reverseBits l c ↔ reverseBits m x / 2 ^ (m - l) = c := by
  rw [mod_eq_reverseBits within]
  constructor
  · intro same
    have low := reverseBits_inj same
    have first := reverseBits_div within x
    rwa [Nat.mod_eq_of_lt (first ▸ reverseBits_lt l x), Nat.mod_eq_of_lt small] at low
  · intro same
    rw [same]

/-- The low bits of a number, in two parts. -/
theorem mod_two_pow_iff {d : Nat} (within : d ≤ l) :
    x % 2 ^ l = y ↔ x % 2 ^ d = y % 2 ^ d ∧ x / 2 ^ d % 2 ^ (l - d) = y / 2 ^ d := by
  have power : 2 ^ l = 2 ^ d * 2 ^ (l - d) := by
    rw [← Nat.pow_add, Nat.add_sub_cancel' within]
  rw [power, Nat.mod_mul]
  have parts := Nat.mod_add_div y (2 ^ d)
  have low := Nat.mod_lt x (Nat.two_pow_pos d)
  constructor
  · intro same
    rw [← same]
    refine ⟨?_, ?_⟩
    · rw [Nat.add_mul_mod_self_left, Nat.mod_mod]
    · rw [Nat.add_mul_div_left _ _ (Nat.two_pow_pos d), Nat.div_eq_of_lt low, Nat.zero_add]
  · rintro ⟨first, second⟩
    rw [first, second, parts]

/-- The code of an interval: where it begins and where it ends. -/
theorem Ordered.code (ordered : Ordered m ls) (fits : place m ls ls.length ≤ 2 ^ m)
    (inside : ls[k]? = some l) :
    ∃ c, c < 2 ^ l ∧ place m ls k = c * 2 ^ (m - l) ∧
      place m ls (k + 1) = (c + 1) * 2 ^ (m - l) := by
  obtain ⟨c, is⟩ := ordered.dvd inside (Nat.le_refl k)
  have next := place_succ (m := m) inside
  obtain ⟨below, value⟩ := List.getElem?_eq_some_iff.mp inside
  have few : l ≤ m := ordered.most l (value ▸ List.getElem_mem below)
  have last : place m ls (k + 1) ≤ place m ls ls.length := place_mono below
  rw [Nat.mul_comm] at is
  have succ : place m ls (k + 1) = (c + 1) * 2 ^ (m - l) := by
    rw [next, is, Nat.add_mul, Nat.one_mul]
  have bound : (c + 1) * 2 ^ (m - l) ≤ 2 ^ l * 2 ^ (m - l) := by
    rw [← Nat.pow_add, Nat.add_sub_cancel' few, ← succ]
    exact Nat.le_trans last fits
  exact ⟨c, Nat.le_of_mul_le_mul_right bound (Nat.two_pow_pos _), is, succ⟩

/-- A codeword has only the bits of its length. -/
theorem Ordered.reverseBits_lt (ordered : Ordered m ls) (fits : place m ls ls.length ≤ 2 ^ m)
    (inside : ls[k]? = some l) : reverseBits m (place m ls k) < 2 ^ l := by
  obtain ⟨c, -, is, -⟩ := ordered.code fits inside
  have few : l ≤ m := ordered.most l (List.mem_of_getElem? inside)
  rw [is, reverseBits_mul few]
  exact CheriGzip.reverseBits_lt l c

/-- Bits begin with a codeword exactly when they lie in its interval. -/
theorem Ordered.mod_iff (ordered : Ordered m ls) (fits : place m ls ls.length ≤ 2 ^ m)
    (inside : ls[k]? = some l) :
    x % 2 ^ l = reverseBits m (place m ls k) ↔
      place m ls k ≤ reverseBits m x ∧ reverseBits m x < place m ls (k + 1) := by
  obtain ⟨c, small, is, next⟩ := ordered.code fits inside
  have few : l ≤ m := ordered.most l (List.mem_of_getElem? inside)
  rw [next, is, reverseBits_mul few]
  exact mod_reverseBits_iff few small

end

/-! ## The code of a symbol -/

/-- The number of codewords of a length; symbols of length 0 have none. -/
def blCount (lens : List Nat) (l : Nat) : Nat := if l = 0 then 0 else lens.count l

/-- The smallest code of a length, as in 3.2.2 of RFC 1951. -/
def firstCode (lens : List Nat) : Nat → Nat
  | 0 => 0
  | l + 1 => (firstCode lens l + blCount lens l) * 2

/-- How many of the numbers of `l` bits begin with a codeword. -/
def taken (lens : List Nat) (l : Nat) : Nat := firstCode lens l + blCount lens l

/-- The code of a symbol: those of one length are consecutive. -/
def codeOf (lens : List Nat) (sym : Nat) : Nat :=
  firstCode lens (lens.getD sym 0) + (lens.take sym).count (lens.getD sym 0)

/-- The symbols of a length. -/
def ofLength (lens : List Nat) (l : Nat) : List Nat :=
  (List.range lens.length).filter fun sym => lens.getD sym 0 = l

/-- The symbols with codewords of at most `m` bits, in the order of their codes. -/
def inOrder (lens : List Nat) : (m : Nat) → List Nat
  | 0 => []
  | m + 1 => inOrder lens m ++ ofLength lens (m + 1)

/-- The lengths of these codewords. -/
def lengths (lens : List Nat) (m : Nat) : List Nat :=
  (inOrder lens m).map fun sym => lens.getD sym 0

section

variable {lens : List Nat} {l m k sym : Nat}

theorem mem_ofLength : sym ∈ ofLength lens l ↔ sym < lens.length ∧ lens.getD sym 0 = l := by
  simp [ofLength]

theorem mem_inOrder :
    sym ∈ inOrder lens m ↔ sym < lens.length ∧ 1 ≤ lens.getD sym 0 ∧ lens.getD sym 0 ≤ m := by
  induction m with
  | zero =>
    simp only [inOrder, List.not_mem_nil, false_iff]
    omega
  | succ m ih =>
    rw [inOrder, List.mem_append, ih, mem_ofLength]
    omega

theorem nodup_inOrder (lens : List Nat) (m : Nat) : (inOrder lens m).Nodup := by
  induction m with
  | zero => exact List.nodup_nil
  | succ m ih =>
    rw [inOrder, List.nodup_append]
    refine ⟨ih, List.nodup_range.filter _, fun a mem b mem' same => ?_⟩
    obtain ⟨-, -, few⟩ := mem_inOrder.mp mem
    rw [same, (mem_ofLength.mp mem').2] at few
    omega

theorem filter_range {p : Nat → Bool} {n i : Nat}
    (there : ((List.range n).filter p)[i]? = some sym) :
    p sym = true ∧ sym < n ∧ i = (List.range sym).countP p := by
  induction n with
  | zero => cases there
  | succ n ih =>
    rw [List.range_succ, List.filter_append] at there
    rcases Nat.lt_or_ge i ((List.range n).filter p).length with inside | behind
    · rw [List.getElem?_append_left inside] at there
      obtain ⟨holds, less, is⟩ := ih there
      exact ⟨holds, by omega, is⟩
    · rw [List.getElem?_append_right behind] at there
      have last : sym ∈ [n].filter p := List.mem_of_getElem? there
      obtain ⟨is, holds⟩ := List.mem_filter.mp last
      obtain rfl := List.mem_singleton.mp is
      have one : ([sym].filter p).length = 1 := by simp [holds]
      obtain ⟨first, -⟩ := List.getElem?_eq_some_iff.mp there
      refine ⟨holds, Nat.lt_succ_self sym, ?_⟩
      rw [List.countP_eq_length_filter]
      omega

theorem countP_range (l : Nat) (within : sym ≤ lens.length) :
    (List.range sym).countP (fun sym => lens.getD sym 0 = l) = (lens.take sym).count l := by
  induction sym with
  | zero => rfl
  | succ sym ih =>
    have there : lens[sym]? = some lens[sym] := List.getElem?_eq_getElem (by omega)
    have value : lens.getD sym 0 = lens[sym] := by rw [List.getD_eq_getElem?_getD, there]; rfl
    rw [List.range_succ, List.countP_append, ih (by omega), List.take_add_one, there,
      List.count_append, List.countP_singleton, value]
    simp [List.count_singleton]

theorem ofLength_index {i : Nat} (there : (ofLength lens l)[i]? = some sym) :
    lens.getD sym 0 = l ∧ sym < lens.length ∧ i = (lens.take sym).count l := by
  obtain ⟨holds, less, is⟩ := filter_range there
  rw [countP_range l (Nat.le_of_lt less)] at is
  exact ⟨of_decide_eq_true holds, less, is⟩

theorem length_ofLength : (ofLength lens l).length = lens.count l := by
  rw [ofLength, ← List.countP_eq_length_filter, countP_range l (Nat.le_refl _), List.take_length]

theorem sum_ofLength (n : Nat) (within : n ≤ lens.count l) :
    (((ofLength lens l).take n).map fun sym => 2 ^ (m - lens.getD sym 0)).sum =
      n * 2 ^ (m - l) := by
  have same : ∀ sym ∈ (ofLength lens l).take n, 2 ^ (m - lens.getD sym 0) = 2 ^ (m - l) := by
    intro sym mem
    rw [(mem_ofLength.mp (List.mem_of_mem_take mem)).2]
  rw [List.map_congr_left same, List.map_const', List.sum_replicate_nat, List.length_take,
    length_ofLength, Nat.min_eq_left within]

theorem taken_succ (lens : List Nat) (l : Nat) :
    taken lens (l + 1) = taken lens l * 2 + lens.count (l + 1) := by
  rw [taken, blCount, if_neg (Nat.succ_ne_zero l)]
  rfl

/-- The codewords of at most `l` bits take the intervals before the first code of `l + 1` bits. -/
theorem sum_inOrder (within : l ≤ m) :
    ((inOrder lens l).map fun sym => 2 ^ (m - lens.getD sym 0)).sum =
      taken lens l * 2 ^ (m - l) := by
  induction l with
  | zero => simp [inOrder, taken, firstCode, blCount]
  | succ l ih =>
    have all : (((ofLength lens (l + 1)).take (lens.count (l + 1))).map fun sym =>
        2 ^ (m - lens.getD sym 0)).sum = _ := sum_ofLength _ (Nat.le_refl _)
    rw [List.take_of_length_le (Nat.le_of_eq length_ofLength)] at all
    have size : 2 ^ (m - l) = 2 * 2 ^ (m - (l + 1)) := by
      rw [← Nat.pow_succ', show (m - (l + 1)).succ = m - l by omega]
    rw [inOrder, List.map_append, List.sum_append, ih (by omega), all, taken_succ, size,
      Nat.add_mul _ _ (2 ^ (m - (l + 1))), Nat.mul_assoc]

/-- The interval of the `k`th codeword is the one of its symbol's code. -/
theorem place_codeOf (there : (inOrder lens m)[k]? = some sym) :
    place m (lengths lens m) k = codeOf lens sym * 2 ^ (m - lens.getD sym 0) := by
  have general : ∀ l ≤ m, ∀ k, (inOrder lens l)[k]? = some sym →
      (((inOrder lens l).take k).map fun sym => 2 ^ (m - lens.getD sym 0)).sum =
        codeOf lens sym * 2 ^ (m - lens.getD sym 0) := by
    intro l
    induction l with
    | zero =>
      intro _ k there
      cases there
    | succ l ih =>
      intro within k there
      rw [inOrder] at there ⊢
      rcases Nat.lt_or_ge k (inOrder lens l).length with inside | behind
      · rw [List.getElem?_append_left inside] at there
        rw [List.take_append_of_le_length (Nat.le_of_lt inside)]
        exact ih (by omega) k there
      · rw [List.getElem?_append_right behind] at there
        obtain ⟨isLen, less, is⟩ := ofLength_index there
        have few : (lens.take sym).count (l + 1) ≤ lens.count (l + 1) :=
          (List.take_sublist sym lens).count_le _
        have size : 2 ^ (m - l) = 2 * 2 ^ (m - (l + 1)) := by
          rw [← Nat.pow_succ', show (m - (l + 1)).succ = m - l by omega]
        rw [List.take_append, List.take_of_length_le behind, List.map_append, List.sum_append,
          sum_inOrder (by omega), is, sum_ofLength _ few, codeOf, isLen, firstCode, size,
          Nat.add_mul _ _ (2 ^ (m - (l + 1))), Nat.mul_assoc]
        rfl
  rw [place, lengths, ← List.map_take, List.map_map]
  exact general m (Nat.le_refl m) k there

theorem ordered_lengths (lens : List Nat) (m : Nat) : Ordered m (lengths lens m) := by
  have bounds : ∀ l ∈ lengths lens m, 1 ≤ l ∧ l ≤ m := by
    intro l mem
    obtain ⟨sym, inside, rfl⟩ := List.mem_map.mp mem
    exact (mem_inOrder.mp inside).2
  refine ⟨?_, fun l mem => (bounds l mem).1, fun l mem => (bounds l mem).2⟩
  rw [lengths, List.pairwise_map]
  clear bounds
  induction m with
  | zero => exact .nil
  | succ m ih =>
    rw [inOrder, List.pairwise_append]
    refine ⟨ih, ?_, ?_⟩
    · apply List.pairwise_of_forall_mem_list
      intro a mem b mem'
      exact Nat.le_of_eq ((mem_ofLength.mp mem).2.trans (mem_ofLength.mp mem').2.symm)
    · intro a mem b mem'
      rw [(mem_ofLength.mp mem').2]
      exact Nat.le_succ_of_le (mem_inOrder.mp mem).2.2

theorem count_lengths (lens : List Nat) (m l : Nat) :
    (lengths lens m).count l = if 1 ≤ l ∧ l ≤ m then lens.count l else 0 := by
  induction m with
  | zero =>
    rw [if_neg (by omega)]
    rfl
  | succ m ih =>
    have last : ((ofLength lens (m + 1)).map fun sym => lens.getD sym 0) =
        List.replicate (lens.count (m + 1)) (m + 1) := by
      rw [← length_ofLength, ← List.map_const']
      exact List.map_congr_left fun sym mem => (mem_ofLength.mp mem).2
    have parts : lengths lens (m + 1) =
        lengths lens m ++ List.replicate (lens.count (m + 1)) (m + 1) := by
      rw [lengths, inOrder, List.map_append, last]
      rfl
    rw [parts, List.count_append, ih, List.count_replicate]
    rcases Nat.lt_trichotomy l (m + 1) with less | rfl | more
    · have other : ¬ (m + 1 == l) = true := by simpa using Nat.ne_of_gt less
      have same : (1 ≤ l ∧ l ≤ m) = (1 ≤ l ∧ l ≤ m + 1) := by
        rw [eq_iff_iff]
        omega
      simp only [if_neg other, same, Nat.add_zero]
    · have outside : ¬ (1 ≤ m + 1 ∧ m + 1 ≤ m) := by omega
      have inside : 1 ≤ m + 1 ∧ m + 1 ≤ m + 1 := by omega
      simp only [if_neg outside, if_pos inside, beq_self_eq_true, if_true, Nat.zero_add]
    · have other : ¬ (m + 1 == l) = true := by simpa using Nat.ne_of_lt more
      have outside : ¬ (1 ≤ l ∧ l ≤ m) := by omega
      have outside' : ¬ (1 ≤ l ∧ l ≤ m + 1) := by omega
      simp only [if_neg other, if_neg outside, if_neg outside', Nat.add_zero]

theorem mem_lengths (lens : List Nat) (m l : Nat) :
    l ∈ lengths lens m ↔ l ∈ lens ∧ 1 ≤ l ∧ l ≤ m := by
  rw [← List.count_pos_iff, ← List.count_pos_iff, count_lengths]
  split
  · simp [*]
  · simp [*]

/-- The intervals together. -/
theorem place_lengths (lens : List Nat) (m : Nat) :
    place m (lengths lens m) (lengths lens m).length = taken lens m := by
  rw [place, List.take_length, lengths, List.map_map]
  have all : ((inOrder lens m).map fun sym => 2 ^ (m - lens.getD sym 0)).sum = _ :=
    sum_inOrder (Nat.le_refl m)
  rw [Nat.sub_self, Nat.pow_zero, Nat.mul_one] at all
  exact all

end

end CheriGzip
