import CheriGzip.Lib.Bytes
import CheriGzip.Lib.Loop
import Mathlib.Data.List.Basic

/-!
# prepend_gzip

`$GZIP` is split at its blanks, and the words go between the program name and the arguments. The
words are found twice: once in the environment, to count them, and once in a copy, in which the
blank behind each word is overwritten by a NUL, and into which the new vector points.
-/
namespace CheriGzip.PrependGzip

open Loop

/-! ## The function -/

def blank (c : UInt8) : Bool := c = 32 ∨ c = 9

/-- `while (*s == ' ' || *s == '\t') s++;`, with no result where `s` leaves the string. -/
def skipBlanks (mem : Bytes) (s : Nat) : Option Nat :=
  if inside : s < mem.length then
    if blank mem[s] then skipBlanks mem (s + 1) else some s
  else none
termination_by mem.length - s

/-- Where the scan of a word stops: at a blank, or behind the NUL. -/
inductive Stop where
  | blank (s : Nat)
  | nul

/-- `while (*s != ' ' && *s != '\t') if (*s++ == 0) goto done;` -/
def wordEnd (mem : Bytes) (s : Nat) : Option Stop :=
  if inside : s < mem.length then
    if blank mem[s] then some (.blank s)
    else if mem[s] = 0 then some .nul
    else wordEnd mem (s + 1)
  else none
termination_by mem.length - s

/-- A round of the loop that counts, on `s` and `nenvarg`. -/
def countRound (mem : Bytes) : Nat × Nat → Turn (Nat × Nat) (Option Nat)
  | (s, nenvarg) =>
    match skipBlanks mem s with
    | none => .leave none
    | some s =>
      if mem[s]? = some 0 then .leave (some nenvarg)
      else
        match wordEnd mem s with
        | none => .leave none
        | some (.blank s) => .again (s, nenvarg + 1)
        | some .nul => .leave (some (nenvarg + 1))

/-- A pointer in the new vector: one of the caller's, one into the copy of `$GZIP`, or NULL. -/
inductive Entry where
  | arg (chars : Bytes)
  | env (offset : Nat)
  | null
  deriving DecidableEq, Repr

/-- The slots that `malloc` gave; `none` is one that is not written. -/
abbrev Slots := List (Option Entry)

/-- `nargv[i] = e`, with no result where there is no such slot. -/
def Slots.put (nargv : Slots) (i : Nat) (e : Entry) : Option Slots :=
  if i < nargv.length then some (nargv.set i (some e)) else none

/-- The copy of `$GZIP`, where the scan of it is, and the vector. -/
structure Copying where
  mem : Bytes
  s : Nat
  i : Nat
  nargv : Slots
  deriving DecidableEq, Repr

/-- A round of the loop that copies. -/
def copyRound (c : Copying) : Turn Copying (Option Copying) :=
  match skipBlanks c.mem c.s with
  | none => .leave none
  | some s =>
    if c.mem[s]? = some 0 then .leave (some { c with s := s })
    else
      match c.nargv.put c.i (.env s) with
      | none => .leave none
      | some nargv =>
        match wordEnd c.mem s with
        | none => .leave none
        | some .nul => .leave (some { c with i := c.i + 1, nargv := nargv })
        -- The blank that ends the word becomes its NUL.
        | some (.blank s) => .again ⟨c.mem.set s 0, s + 1, c.i + 1, nargv⟩

/-- `while (*ac) nargv[i++] = *(ac++); nargv[i] = NULL;`, with no result where `ac` leaves the
vector. -/
def copyArgs : List (Option Bytes) → Nat → Slots → Option Slots
  | [], _, _ => none
  | none :: _, i, nargv => nargv.put i .null
  | some a :: ac, i, nargv => (nargv.put i (.arg a)).bind (copyArgs ac (i + 1))

/-- Whether `malloc` and `strdup` have memory. -/
structure Allocs where
  malloc : Bool
  strdup : Bool

inductive Outcome where
  /-- `*argc` and `*argv` are as they were. -/
  | punted
  /-- `maybe_err`. -/
  | exits
  /-- The new `*argc` and `*argv`, and the copy of `$GZIP`. -/
  | prepended (argc : Nat) (nargv : Slots) (mem : Bytes)
  deriving DecidableEq, Repr

/-- The copying half, with `nenvarg` words counted. -/
def prepend (allocs : Allocs) (gzip : Bytes) (nenvarg argc : Nat) (argv : List (Option Bytes)) :
    Option Outcome :=
  let argc := argc + nenvarg
  if allocs.malloc = false then some .exits
  else
    let nargv : Slots := List.replicate (argc + 1) none
    match argv with
    | some name :: ac =>
      (nargv.put 0 (.arg name)).bind fun nargv =>
        if allocs.strdup = false then some .exits
        else
          (run copyRound gzip.length ⟨gzip, 0, 1, nargv⟩).bind fun copied =>
            copied.bind fun c =>
              (copyArgs ac c.i c.nargv).map fun nargv => .prepended argc nargv c.mem
    -- Without a program name `ac` would be behind the NULL.
    | _ => none

/-- `prepend_gzip(gzip, argc, argv)`, with the characters and the NUL of `gzip`. Each round of its
loops goes past a character. -/
def prependGzip (allocs : Allocs) (gzip : Bytes) (argc : Nat) (argv : List (Option Bytes)) :
    Option Outcome :=
  (run (countRound gzip) gzip.length (0, 0)).bind fun counted =>
    counted.bind fun nenvarg =>
      if nenvarg = 0 then some .punted else prepend allocs gzip nenvarg argc argv

/-! ## What is to come of it -/

/-- The characters of a C string. -/
structure CString where
  chars : Bytes
  noNul : ∀ c ∈ chars, c ≠ 0

/-- The string in memory. -/
def CString.mem (s : CString) : Bytes := s.chars ++ [0]

/-- The words between the blanks. -/
def words (text : Bytes) : List Bytes := (text.splitOnP blank).filter (· ≠ [])

/-- The string at an offset of a copy. -/
def stringAt (mem : Bytes) (offset : Nat) : Bytes := (mem.drop offset).takeWhile (· ≠ 0)

/-- The string that an entry points to; `none` is NULL. -/
def Entry.resolve (mem : Bytes) : Entry → Option Bytes
  | .arg chars => some chars
  | .env offset => some (stringAt mem offset)
  | .null => none

/-! ## Words -/

theorem words_append_blank {c : UInt8} (sep : blank c) (front text : Bytes) :
    words (front ++ c :: text) = words front ++ words text := by
  rw [words, List.splitOnP_append_cons front text sep, List.filter_append]
  rfl

theorem words_blanks {sp : Bytes} (blanks : ∀ c ∈ sp, blank c) : words sp = [] := by
  induction sp with
  | nil => rfl
  | cons c sp ih =>
    have split := words_append_blank (blanks c List.mem_cons_self) [] sp
    rw [List.nil_append] at split
    rw [split, ih fun d hd => blanks d (List.mem_cons_of_mem _ hd)]
    rfl

theorem words_skip {sp : Bytes} (blanks : ∀ c ∈ sp, blank c) (text : Bytes) :
    words (sp ++ text) = words text := by
  induction sp with
  | nil => rfl
  | cons c sp ih =>
    have split := words_append_blank (blanks c List.mem_cons_self) [] (sp ++ text)
    rw [List.nil_append] at split
    rw [List.cons_append, split, ih fun d hd => blanks d (List.mem_cons_of_mem _ hd)]
    rfl

/-- Characters that are a word when a blank or the end follows. -/
structure Word (w : Bytes) : Prop where
  nonempty : w ≠ []
  solid : ∀ c ∈ w, blank c = false

theorem words_word {w : Bytes} (word : Word w) : words w = [w] := by
  rw [words, List.splitOnP_eq_singleton word.solid, List.filter_singleton]
  simp only [word.nonempty, ne_eq, not_false_eq_true, decide_true, cond_true]

/-- A text is over after some blanks, or begins with a word, which is the last one or has a blank
behind it. -/
inductive Begins : Bytes → Prop where
  | blanks {sp : Bytes} (skip : ∀ c ∈ sp, blank c) : Begins sp
  | last {sp w : Bytes} (skip : ∀ c ∈ sp, blank c) (word : Word w) : Begins (sp ++ w)
  | more {sp w text : Bytes} {c : UInt8} (skip : ∀ c ∈ sp, blank c) (word : Word w)
      (sep : blank c) : Begins (sp ++ (w ++ c :: text))

/-- The longest beginning of one kind. -/
theorem exists_run (p : UInt8 → Bool) (text : Bytes) :
    ∃ front rest, text = front ++ rest ∧ (∀ c ∈ front, p c) ∧
      (rest = [] ∨ ∃ c tail, rest = c :: tail ∧ p c = false) := by
  induction text with
  | nil => exact ⟨[], [], rfl, by simp, .inl rfl⟩
  | cons c text ih =>
    by_cases kind : p c
    · obtain ⟨front, rest, rfl, all, stop⟩ := ih
      exact ⟨c :: front, rest, rfl, List.forall_mem_cons.mpr ⟨kind, all⟩, stop⟩
    · exact ⟨[], c :: text, rfl, by simp, .inr ⟨c, text, rfl, by simpa using kind⟩⟩

theorem begins (text : Bytes) : Begins text := by
  obtain ⟨sp, rest, rfl, skip, nothing | ⟨c, tail, start, solid⟩⟩ := exists_run blank text
  · rw [nothing, List.append_nil]
    exact .blanks skip
  · obtain ⟨w, rest', split, letters, stop⟩ := exists_run (fun c => !blank c) rest
    have word : Word w := by
      refine ⟨?_, fun d hd => by simpa using letters d hd⟩
      rintro rfl
      -- The run is empty, but `c` belongs to it.
      obtain rfl | ⟨d, tail', rfl, isBlank⟩ := stop
      · rw [start] at split
        cases split
      · rw [start] at split
        obtain ⟨rfl, _⟩ := List.cons.inj split
        simp only [solid, Bool.not_false, Bool.true_eq_false] at isBlank
    obtain rfl | ⟨d, tail', rfl, isBlank⟩ := stop
    · rw [split, List.append_nil]
      exact .last skip word
    · rw [split]
      exact .more skip word (by simpa using isBlank)

/-! ## The two scans -/

theorem at_front (front : Bytes) (c : UInt8) (tail : Bytes) :
    (front ++ c :: tail)[front.length]? = some c := by
  rw [List.getElem?_append_right (Nat.le_refl _), Nat.sub_self, List.getElem?_cons_zero]

theorem skipBlanks_eq {sp : Bytes} (skip : ∀ c ∈ sp, blank c) {c : UInt8}
    (solid : blank c = false) (front tail : Bytes) :
    skipBlanks (front ++ (sp ++ c :: tail)) front.length = some (front.length + sp.length) := by
  induction sp generalizing front with
  | nil =>
    have inside : front.length < (front ++ c :: tail).length := by simp
    rw [List.nil_append, skipBlanks, dif_pos inside]
    simp [solid]
  | cons d sp ih =>
    have inside : front.length < (front ++ (d :: sp ++ c :: tail)).length := by simp
    have next := ih (fun e he => skip e (List.mem_cons_of_mem _ he)) (front ++ [d])
    rw [skipBlanks, dif_pos inside]
    simp only [List.append_assoc, List.singleton_append, List.length_append,
      List.length_singleton] at next
    simp only [List.cons_append, List.getElem_append_right (Nat.le_refl _), Nat.sub_self,
      List.getElem_cons_zero, skip d List.mem_cons_self, if_true, next, List.length_cons]
    congr 1
    omega

theorem wordEnd_eq {w : Bytes} (solid : ∀ c ∈ w, blank c = false) (noNul : ∀ c ∈ w, c ≠ 0)
    {c : UInt8} {stop : Stop} (front tail : Bytes)
    (stops : wordEnd (front ++ w ++ c :: tail) (front ++ w).length = some stop) :
    wordEnd (front ++ w ++ c :: tail) front.length = some stop := by
  induction w generalizing front with
  | nil => simpa using stops
  | cons d w ih =>
    have inside : front.length < (front ++ d :: w ++ c :: tail).length := by simp
    have next := ih (fun e he => solid e (List.mem_cons_of_mem _ he))
      (fun e he => noNul e (List.mem_cons_of_mem _ he)) (front ++ [d]) (by simpa using stops)
    simp only [List.append_assoc, List.singleton_append, List.length_append,
      List.length_singleton] at next
    rw [wordEnd, dif_pos inside]
    simp only [List.append_assoc, List.cons_append, List.getElem_append_right (Nat.le_refl _),
      Nat.sub_self, List.getElem_cons_zero, solid d List.mem_cons_self,
      noNul d List.mem_cons_self, if_false, Bool.false_eq_true]
    exact next

theorem wordEnd_blank {c : UInt8} (sep : blank c) (front tail : Bytes) :
    wordEnd (front ++ c :: tail) front.length = some (.blank front.length) := by
  have inside : front.length < (front ++ c :: tail).length := by simp
  rw [wordEnd, dif_pos inside]
  simp only [List.getElem_append_right (Nat.le_refl _), Nat.sub_self, List.getElem_cons_zero, sep,
    if_true]

theorem wordEnd_nul (front tail : Bytes) :
    wordEnd (front ++ 0 :: tail) front.length = some .nul := by
  have inside : front.length < (front ++ 0 :: tail).length := by simp
  have solid : blank 0 = false := by decide
  rw [wordEnd, dif_pos inside]
  simp only [List.getElem_append_right (Nat.le_refl _), Nat.sub_self, List.getElem_cons_zero, solid,
    if_true, if_false, Bool.false_eq_true]

/-! ## Counting -/

/-- The scans at a word: the blanks lead to it, and the word to what stops it. -/
theorem scan_word {sp w : Bytes} (skip : ∀ c ∈ sp, blank c) (word : Word w)
    (noNul : ∀ c ∈ w, c ≠ 0) (front tail : Bytes) (c : UInt8) {stop : Stop}
    (stops : wordEnd (front ++ sp ++ w ++ c :: tail) (front ++ sp ++ w).length = some stop) :
    skipBlanks (front ++ (sp ++ (w ++ c :: tail))) front.length =
        some (front ++ sp).length ∧
      (front ++ (sp ++ (w ++ c :: tail)))[(front ++ sp).length]? ≠ some 0 ∧
      wordEnd (front ++ (sp ++ (w ++ c :: tail))) (front ++ sp).length = some stop := by
  obtain ⟨d, w, rfl⟩ := List.exists_cons_of_ne_nil word.nonempty
  refine ⟨?_, ?_, ?_⟩
  · rw [List.length_append]
    exact skipBlanks_eq skip (word.solid d List.mem_cons_self) front (w ++ c :: tail)
  · have first := at_front (front ++ sp) d (w ++ c :: tail)
    rw [← List.append_assoc, List.cons_append, first]
    exact fun same => noNul d List.mem_cons_self (Option.some.inj same)
  · have found := wordEnd_eq word.solid noNul (front ++ sp) tail stops
    simpa only [List.append_assoc] using found

/-- The scan at the end of the text. -/
theorem scan_end {sp : Bytes} (skip : ∀ c ∈ sp, blank c) (front : Bytes) :
    skipBlanks (front ++ (sp ++ [0])) front.length = some (front ++ sp).length ∧
      (front ++ (sp ++ [0]))[(front ++ sp).length]? = some 0 := by
  constructor
  · rw [List.length_append]
    exact skipBlanks_eq skip (by decide) front []
  · rw [← List.append_assoc]
    exact at_front (front ++ sp) 0 []

/-- The loop counts the words that are ahead of it. -/
theorem count_run (text : Bytes) (noNul : ∀ c ∈ text, c ≠ 0) (front : Bytes) (n fuel : Nat)
    (enough : text.length < fuel) :
    run (countRound (front ++ (text ++ [0]))) fuel (front.length, n) =
      some (some (n + (words text).length)) := by
  induction fuel generalizing text front n with
  | zero => omega
  | succ fuel ih =>
    rw [run]
    cases begins text with
    | blanks skip =>
      obtain ⟨found, nul⟩ := scan_end skip front
      rw [countRound, found]
      simp only [nul, if_true, words_blanks skip, List.length_nil, Nat.add_zero]
    | @last sp w skip word =>
      have letters : ∀ c ∈ w, c ≠ 0 := fun c hc => noNul c (List.mem_append_right _ hc)
      obtain ⟨found, letter, stop⟩ :=
        scan_word skip word letters front [] 0 (wordEnd_nul (front ++ sp ++ w) [])
      rw [List.append_assoc, countRound, found]
      simp only [letter, if_false, stop, words_skip skip, words_word word, List.length_singleton]
    | @more sp w text c skip word sep =>
      have letters : ∀ c ∈ w, c ≠ 0 := fun d hd =>
        noNul d (List.mem_append_right _ (List.mem_append_left _ hd))
      obtain ⟨found, letter, stop⟩ := scan_word skip word letters front (text ++ [0]) c
        (wordEnd_blank sep (front ++ sp ++ w) (text ++ [0]))
      have round : countRound (front ++ (sp ++ (w ++ c :: (text ++ [0])))) (front.length, n) =
          .again ((front ++ sp ++ w).length, n + 1) := by
        rw [countRound, found]
        simp only [letter, if_false, stop]
      have shorter : 0 < w.length := List.length_pos_of_ne_nil word.nonempty
      simp only [List.length_append, List.length_cons] at enough
      -- The next round begins at the blank behind the word.
      have ahead := ih (c :: text)
        (fun d hd => noNul d (List.mem_append_right _ (List.mem_append_right _ hd)))
        (front ++ sp ++ w) (n + 1) (by rw [List.length_cons]; omega)
      have behind : words (c :: text) = words text := words_append_blank sep [] text
      simp only [List.append_assoc, List.cons_append] at ahead round ⊢
      rw [round]
      simp only [ahead]
      rw [behind, words_skip skip, words_append_blank sep, words_word word, List.length_append,
        List.length_singleton, Nat.add_assoc]

/-! ## Copying -/

theorem put_next (done : Slots) (slot : Option Entry) (room : Slots) (e : Entry) :
    Slots.put (done ++ slot :: room) done.length e = some (done ++ [some e] ++ room) := by
  have inside : done.length < (done ++ slot :: room).length := by simp
  rw [Slots.put, if_pos inside, List.set_append_right _ _ (Nat.le_refl _), Nat.sub_self,
    List.set_cons_zero, List.append_assoc, List.singleton_append]

theorem stringAt_word {w : Bytes} (noNul : ∀ c ∈ w, c ≠ 0) (front tail : Bytes) :
    stringAt (front ++ w ++ 0 :: tail) front.length = w := by
  rw [stringAt, List.append_assoc, List.drop_left,
    List.takeWhile_append_of_pos (fun c hc => by simpa using noNul c hc)]
  simp

/-- The vector behind the words of a text, with `room` for them and what follows: the offsets point
to the words, and what was behind the scan in the copy is as it was. -/
structure Copied (text front : Bytes) (done room : Slots) (c : Copying) : Prop where
  front : front <+: c.mem
  i : c.i = done.length + (words text).length
  nargv : ∃ offsets : List Nat, offsets.map (stringAt c.mem) = words text ∧
    c.nargv = done ++ offsets.map (fun o => some (.env o)) ++ room.drop (words text).length

theorem copy_run (text : Bytes) (noNul : ∀ c ∈ text, c ≠ 0) (front : Bytes) (done room : Slots)
    (fuel : Nat) (enough : text.length < fuel) (fits : (words text).length ≤ room.length) :
    ∃ c, run copyRound fuel
        ⟨front ++ (text ++ [0]), front.length, done.length, done ++ room⟩ = some (some c) ∧
      Copied text front done room c := by
  induction fuel generalizing text front done room with
  | zero => omega
  | succ fuel ih =>
    rw [run]
    cases begins text with
    | blanks skip =>
      obtain ⟨found, nul⟩ := scan_end skip front
      refine ⟨⟨front ++ (text ++ [0]), (front ++ text).length, done.length, done ++ room⟩, ?_, ?_⟩
      · rw [copyRound]
        simp only [found, nul, if_true]
      · refine ⟨⟨_, rfl⟩, ?_, [], ?_, ?_⟩
        · rw [words_blanks skip, List.length_nil, Nat.add_zero]
        · rw [words_blanks skip, List.map_nil]
        · rw [words_blanks skip, List.map_nil, List.append_nil, List.length_nil, List.drop_zero]
    | @last sp w skip word =>
      have letters : ∀ c ∈ w, c ≠ 0 := fun c hc => noNul c (List.mem_append_right _ hc)
      have one : words (sp ++ w) = [w] := by rw [words_skip skip, words_word word]
      obtain ⟨found, letter, stop⟩ :=
        scan_word skip word letters front [] 0 (wordEnd_nul (front ++ sp ++ w) [])
      rw [one, List.length_singleton] at fits
      obtain ⟨slot, room, rfl⟩ := List.exists_cons_of_length_pos fits
      have string := stringAt_word letters (front ++ sp) []
      simp only [List.append_assoc] at found letter stop string ⊢
      refine ⟨⟨front ++ (sp ++ (w ++ [0])), front.length, done.length + 1,
        done ++ ([some (.env (front ++ sp).length)] ++ room)⟩, ?_, ?_⟩
      · rw [copyRound]
        simp only [found, letter, if_false, put_next, stop, List.append_assoc]
      · refine ⟨⟨_, rfl⟩, ?_, [(front ++ sp).length], ?_, ?_⟩
        · rw [one, List.length_singleton]
        · rw [one, List.map_singleton]
          exact congrArg (· :: []) string
        · rw [one, List.append_assoc]
          rfl
    | @more sp w text c skip word sep =>
      have letters : ∀ d ∈ w, d ≠ 0 := fun d hd =>
        noNul d (List.mem_append_right _ (List.mem_append_left _ hd))
      have first : words (sp ++ (w ++ c :: text)) = w :: words text := by
        rw [words_skip skip, words_append_blank sep, words_word word, List.singleton_append]
      obtain ⟨found, letter, stop⟩ := scan_word skip word letters front (text ++ [0]) c
        (wordEnd_blank sep (front ++ sp ++ w) (text ++ [0]))
      rw [first, List.length_cons] at fits
      obtain ⟨slot, room, rfl⟩ := List.exists_cons_of_length_pos (by omega : 0 < room.length)
      simp only [List.length_append, List.length_cons] at enough fits
      -- The next round begins behind the NUL that the blank has become.
      obtain ⟨next, ran, copied⟩ := ih text
        (fun d hd => noNul d (List.mem_append_right _
          (List.mem_append_right _ (List.mem_cons_of_mem _ hd))))
        (front ++ sp ++ w ++ [0]) (done ++ [some (.env (front ++ sp).length)]) room (by omega)
        (by omega)
      have overwrite : (front ++ (sp ++ (w ++ c :: (text ++ [0])))).set
          (front ++ (sp ++ w)).length 0 = front ++ (sp ++ (w ++ 0 :: (text ++ [0]))) := by
        have set := List.set_append_right (s := front ++ sp ++ w) (t := c :: (text ++ [0]))
          (front ++ sp ++ w).length (0 : UInt8) (Nat.le_refl _)
        rw [Nat.sub_self, List.set_cons_zero] at set
        simpa only [List.append_assoc] using set
      simp only [List.append_assoc, List.cons_append] at found letter stop ⊢
      refine ⟨next, ?_, ?_⟩
      · rw [copyRound]
        simp only [found, letter, if_false, put_next, stop, overwrite]
        simpa [Nat.add_assoc] using ran
      · obtain ⟨⟨tail, mem⟩, i, offsets, strings, nargv⟩ := copied
        have string := stringAt_word letters (front ++ sp) tail
        refine ⟨⟨sp ++ (w ++ 0 :: tail), ?_⟩, ?_, (front ++ sp).length :: offsets, ?_, ?_⟩
        · rw [← mem]
          simp
        · rw [i, first]
          simp [Nat.add_assoc, Nat.add_comm]
        · rw [List.map_cons, strings, first, ← mem]
          congr 1
          simpa using string
        · rw [nargv, first]
          simp

theorem copyArgs_eq (args : List Bytes) (done room : Slots)
    (fits : room.length = args.length + 1) :
    copyArgs (args.map some ++ [none]) done.length (done ++ room) =
      some (done ++ args.map (fun a => some (.arg a)) ++ [some .null]) := by
  induction args generalizing done room with
  | nil =>
    obtain ⟨slot, rfl⟩ := List.length_eq_one_iff.mp fits
    rw [List.map_nil, List.nil_append, copyArgs, put_next, List.append_nil, List.map_nil,
      List.append_nil]
  | cons a args ih =>
    obtain ⟨slot, room, rfl⟩ := List.exists_cons_of_length_pos (by omega : 0 < room.length)
    have next := ih (done ++ [some (.arg a)]) room (by simpa using fits)
    rw [List.length_append, List.length_singleton] at next
    rw [List.map_cons, List.cons_append, copyArgs, put_next, Option.bind_some, next]
    simp

/-! ## The new vector -/

/-- The vector that is to come of `$GZIP` and the arguments: as many slots as were allocated, all
of them written, the program name, the words and the arguments, and NULL. -/
structure Extends (gzip : CString) (name : Bytes) (args : List Bytes) (nargv : Slots)
    (mem : Bytes) : Prop where
  slots : nargv.length = (args.length + 1) + (words gzip.chars).length + 1
  entries : ∃ entries : List Entry, nargv = entries.map some ∧
    entries.map (Entry.resolve mem) =
      (name :: (words gzip.chars ++ args)).map some ++ [none]

/-- `prepend_gzip` with memory: nothing for blanks, and the new vector for words. Every store has a
slot, or there would be no result. -/
theorem prepend_gzip_correct (gzip : CString) (name : Bytes) (args : List Bytes) :
    let ran := prependGzip ⟨true, true⟩ gzip.mem (args.length + 1)
      ((name :: args).map some ++ [none])
    if words gzip.chars = [] then ran = some .punted
    else ∃ nargv mem,
      ran = some (.prepended (args.length + 1 + (words gzip.chars).length) nargv mem) ∧
      Extends gzip name args nargv mem := by
  have length : gzip.mem.length = gzip.chars.length + 1 := by simp [CString.mem]
  have counted : run (countRound gzip.mem) gzip.mem.length (0, 0) =
      some (some (words gzip.chars).length) := by
    have counts := count_run gzip.chars gzip.noNul [] 0 gzip.mem.length (by omega)
    rwa [List.nil_append, List.length_nil, Nat.zero_add] at counts
  intro ran
  split
  next no =>
    show prependGzip _ _ _ _ = _
    rw [prependGzip, counted, no]
    rfl
  next found =>
    have positive : (words gzip.chars).length ≠ 0 := fun zero =>
      found (List.length_eq_zero_iff.mp zero)
    -- The slots behind the program name.
    let room : Slots := List.replicate (args.length + 1 + (words gzip.chars).length) none
    obtain ⟨c, copies, copied⟩ := copy_run gzip.chars gzip.noNul [] [some (.arg name)] room
      gzip.mem.length (by omega) (by simp only [room, List.length_replicate]; omega)
    obtain ⟨_, i, offsets, strings, nargv⟩ := copied
    have count : offsets.length = (words gzip.chars).length := by
      rw [← strings, List.length_map]
    have left : (room.drop (words gzip.chars).length).length = args.length + 1 := by
      simp only [room, List.length_drop, List.length_replicate]
      omega
    let entries : List Entry := .arg name :: (offsets.map .env ++ args.map .arg ++ [.null])
    have rest : copyArgs (args.map some ++ [none]) c.i c.nargv = some (entries.map some) := by
      have argsCopied := copyArgs_eq args
        ([some (.arg name)] ++ offsets.map (fun o => some (.env o)))
        (room.drop (words gzip.chars).length) left
      rw [List.length_append, List.length_map, count, ← i, ← nargv] at argsCopied
      rw [argsCopied]
      simp [entries, Function.comp_def]
    have first : Slots.put (none :: room) 0 (.arg name) = some ([some (.arg name)] ++ room) :=
      put_next [] none room (.arg name)
    have copies : run copyRound gzip.mem.length ⟨gzip.mem, 0, 1, [some (.arg name)] ++ room⟩ =
      some (some c) := copies
    refine ⟨entries.map some, c.mem, ?_, ?_, entries, rfl, ?_⟩
    · show prependGzip _ _ _ _ = _
      rw [prependGzip, counted, Option.bind_some, Option.bind_some, if_neg positive, prepend]
      simp only [Bool.true_eq_false, if_false, List.map_cons, List.cons_append,
        List.replicate_succ]
      rw [first, Option.bind_some, copies, Option.bind_some, Option.bind_some, rest]
      rfl
    · simp only [entries, List.length_map, List.length_cons, List.length_append, count,
        List.length_nil]
      omega
    · rw [← strings]
      simp [entries, Entry.resolve, Function.comp_def]

end CheriGzip.PrependGzip
