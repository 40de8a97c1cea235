import CheriGzip.Gzip.ZreadFailed

/-!
# zread comes to the end of every file

A round of `zread` takes bits from the file or a byte from the stack. So a file is read to its end,
or to the call that returns -1.
-/
namespace CheriGzip.Zread

open Loop

/-- What a stream with a buffer of `num` bytes gets from `zread`, up to the end of the file. The
call that follows a failure takes a byte from below the stack, so nothing is said of what it gives. -/
inductive Gives (num : Nat) : Zstate → List (Option Bytes) → Prop where
  | ends {zs zs' : Zstate} (call : ZreadCall zs num (.bytes [], zs')) : Gives num zs [some []]
  | more {zs zs' : Zstate} {out : Bytes} {answers : List (Option Bytes)}
      (call : ZreadCall zs num (.bytes out, zs')) (nonempty : out ≠ []) (rest : Gives num zs' answers) :
      Gives num zs (some out :: answers)
  | fails {zs zs' : Zstate} {ret : Ret} (call : ZreadCall zs num (ret, zs')) (failed : ret.Failed)
      {later : List (Option Bytes)} (fits : ∀ out, some out ∈ later → out.length ≤ num) :
      Gives num zs (none :: later)

/-! ## The bits that are left -/

/-- The bits of the group that are not yet taken, with more than the bits of the file, and the bytes
on the stack. -/
def Zstate.todo (zs : Zstate) : Nat × Nat :=
  (16 * zs.rest.length + (zs.size - zs.roffset).toNat, zs.stack.length)

/-- There is less to do. -/
def Less (zs' zs : Zstate) : Prop := Prod.Lex (· < ·) (· < ·) zs'.todo zs.todo

theorem less_wf : WellFounded Less :=
  InvImage.wf Zstate.todo (Prod.lex Nat.lt_wfRel Nat.lt_wfRel).wf

section

variable {zs zs' : Zstate}

theorem Less.trans {zs'' : Zstate} (second : Less zs'' zs') (first : Less zs' zs) :
    Less zs'' zs := by
  unfold Less at *
  rcases Prod.lex_def.mp first with less | ⟨same, less⟩
  · rcases Prod.lex_def.mp second with less' | ⟨same', -⟩
    · exact Prod.lex_def.mpr (.inl (Nat.lt_trans less' less))
    · exact Prod.lex_def.mpr (.inl (same' ▸ less))
  · rcases Prod.lex_def.mp second with less' | ⟨same', less'⟩
    · exact Prod.lex_def.mpr (.inl (same ▸ less'))
    · exact Prod.lex_def.mpr (.inr ⟨same'.trans same, Nat.lt_trans less' less⟩)

/-- A code takes its bits from the group, or a group from the file. -/
theorem getcode_less (sound : Sound zs) {code : Nat} (gets : getcode zs = (some code, zs')) :
    zs'.todo.1 < zs.todo.1 := by
  have least := sound.least
  unfold getcode at gets
  by_cases due : zs.Due
  · rw [if_pos due] at gets
    have left := fetch_rest zs.resize zs.resize.nBits
    have taken := fetch_fst zs.resize zs.resize.nBits
    rw [(resize_kept zs).2.1] at left taken
    rcases fetched : zs.resize.fetch zs.resize.nBits with ⟨got, mid⟩
    rw [fetched] at left taken
    simp only at left taken
    unfold Zstate.refill at gets
    simp only [fetched] at gets
    by_cases ended : got.length = 0
    · rw [if_pos ended] at gets
      cases gets
    · rw [if_neg ended] at gets
      cases gets
      have fewer : got.length + mid.rest.length = zs.rest.length := by
        rw [left, taken, List.length_take, List.length_drop]
        omega
      show 16 * mid.rest.length +
          ((8 * got.length - (mid.nBits - 1) : Int) - (0 + mid.nBits : Nat)).toNat <
        16 * zs.rest.length + (zs.size - zs.roffset).toNat
      omega
  · rw [if_neg due] at gets
    cases gets
    have more : (zs.roffset : Int) < zs.size := by
      unfold Zstate.Due at due
      omega
    show 16 * zs.rest.length + (zs.size - (zs.roffset + zs.nBits : Nat)).toNat <
      16 * zs.rest.length + (zs.size - zs.roffset).toNat
    omega

theorem push_todo {code : Nat} (pushed : zs.push code = .ok zs') : zs'.todo.1 = zs.todo.1 := by
  unfold Zstate.push at pushed
  simp only at pushed
  split at pushed
  · split at pushed
    · cases pushed
    · split at pushed
      · cases pushed
      · split at pushed
        · cases pushed
        · cases pushed
          rfl
  · split at pushed
    · cases pushed
    · cases pushed
      rfl

/-- Every round that goes on has less to do. -/
theorem zreadBody_less {s s' : Zloop} (holds : At s.place s.zs) (turn : zreadBody s = .again s') :
    Less s'.zs s.zs := by
  obtain ⟨place, zs, count, out⟩ := s
  cases place with
  | top =>
    obtain ⟨sound, -⟩ := holds
    generalize gets : getcode zs = got at turn
    obtain ⟨read, zs'⟩ := got
    simp only [zreadBody, gets] at turn
    cases read with
    | none => cases turn
    | some code =>
      have less := getcode_less sound gets
      simp only at turn
      split at turn
      · -- A code was taken out of the file, and the stack does not count then.
        cases turn
        exact Prod.lex_def.mpr (.inl less)
      · split at turn
        · cases turn
        next zs'' pushed =>
          cases turn
          exact Prod.lex_def.mpr (.inl (push_todo pushed ▸ less))
  | middle =>
    cases count with
    | zero => cases turn
    | succ count =>
      cases isStack : zs.stack with
      | nil =>
        simp only [zreadBody, isStack] at turn
        cases turn
      | cons c stack =>
        -- Nothing is taken out of the file, and the stack has one character less.
        have fewer : stack.length < zs.stack.length := by
          rw [isStack, List.length_cons]
          exact Nat.lt_succ_self _
        simp only [zreadBody, isStack] at turn
        split at turn
        · cases turn
          obtain ⟨isStack', -, -, -, -, -, size, roffset, rest⟩ :=
            enter_kept { zs with stack := stack }
          refine Prod.lex_def.mpr (.inr ⟨?_, ?_⟩)
          · simp only [Zstate.todo, rest, size, roffset]
            rfl
          · simp only [Zstate.todo, isStack']
            exact fewer
        · cases turn
          exact Prod.lex_def.mpr (.inr ⟨rfl, fewer⟩)

/-- A call is left with a failure, at the end of the file, or with some of the stack. -/
theorem zreadBody_leaves {s : Zloop} {r : Ret × Zstate} (holds : At s.place s.zs)
    (turn : zreadBody s = .leave r) :
    r.1.Failed ∨ ∃ out, r.1 = .bytes out ∧ (r.2.state = .eof ∨ Spelled r.2 ∧ r.2 = s.zs) := by
  obtain ⟨place, zs, count, out⟩ := s
  cases place with
  | top =>
    obtain ⟨sound, empty⟩ := holds
    generalize gets : getcode zs = got at turn
    obtain ⟨read, zs'⟩ := got
    obtain ⟨sound', kept, small⟩ := sound.getcode gets
    simp only [zreadBody, gets] at turn
    cases read with
    | none =>
      cases turn
      exact .inr ⟨out, rfl, .inl rfl⟩
    | some code =>
      simp only at turn
      split at turn
      · cases turn
      · rcases sound'.push (kept.stack.trans empty) (small code rfl) with refused | ⟨_, pushed, -⟩
        · rw [refused] at turn
          cases turn
          exact .inl (.inr rfl)
        · rw [pushed] at turn
          cases turn
  | middle =>
    have spelled : Spelled zs := holds
    cases count with
    | zero =>
      cases turn
      exact .inr ⟨out, rfl, .inr ⟨spelled, rfl⟩⟩
    | succ count =>
      cases isStack : zs.stack with
      | nil => exact absurd isStack spelled.filled
      | cons c stack =>
        simp only [zreadBody, isStack] at turn
        split at turn <;> cases turn

/-! ## Calls -/

/-- The ways to leave the loop: a failure, the end of the file, or with as much or less to do. -/
def Ended (zs : Zstate) (r : Ret × Zstate) : Prop :=
  r.1.Failed ∨ ∃ out, r.1 = .bytes out ∧
    (r.2.state = .eof ∨ (Spelled r.2 ∧ r.2.state = .middle) ∧ (r.2 = zs ∨ Less r.2 zs))

theorem loop_ends {s : Zloop} (state : s.zs.state = .middle) (holds : At s.place s.zs) :
    ∃ r, Leaves zreadBody s r ∧ Ended s.zs r := by
  have keeps {s s' : Zloop} (inv : s.zs.state = .middle ∧ At s.place s.zs)
      (turn : zreadBody s = .again s') : s'.zs.state = .middle ∧ At s'.place s'.zs :=
    (Step.round turn).holds (p := .inside s) inv
  obtain ⟨r, left⟩ := Leaves.exists_of_variant (fun s => s.zs.state = .middle ∧ At s.place s.zs)
    Zloop.zs less_wf (fun s s' inv turn => ⟨keeps inv turn, zreadBody_less inv.2 turn⟩)
    s ⟨state, holds⟩
  refine ⟨r, left, left.invariant
    (fun t => (t.zs.state = .middle ∧ At t.place t.zs) ∧ (t.zs = s.zs ∨ Less t.zs s.zs))
    (Ended s.zs) ?_ ?_ ⟨⟨state, holds⟩, .inl rfl⟩⟩
  · rintro t t' ⟨inv, less⟩ turn
    refine ⟨keeps inv turn, .inr ?_⟩
    have round := zreadBody_less inv.2 turn
    rcases less with same | less
    · rwa [same] at round
    · exact round.trans less
  · rintro t r ⟨inv, less⟩ turn
    rcases zreadBody_leaves inv.2 turn with failed | ⟨out, isOut, eof | ⟨spelled, same⟩⟩
    · exact .inl failed
    · exact .inr ⟨out, isOut, .inl eof⟩
    · exact .inr ⟨out, isOut, .inr ⟨⟨spelled, same ▸ inv.1⟩, same ▸ less⟩⟩

variable {num : Nat}

/-- What a call gives that ends in one of these ways, when the calls from there on do. -/
theorem gives_of_call {r : Ret × Zstate} {start : Zstate} (some : num ≠ 0) (call : ZreadCall zs num r)
    (ended : Ended start r)
    (rest : ∀ zs', Spelled zs' → zs'.state = .middle → (zs' = start ∨ Less zs' start) →
      ∃ answers, Gives num zs' answers) : ∃ answers, Gives num zs answers := by
  obtain ⟨ret, zs'⟩ := r
  rcases ended with failed | ⟨out, isOut, ended⟩
  · exact ⟨_, @Gives.fails num zs zs' ret call failed [] (by simp)⟩
  · have isOut : ret = .bytes out := isOut
    subst isOut
    by_cases empty : out = []
    · subst empty
      exact ⟨_, .ends call⟩
    · rcases ended with eof | ⟨⟨spelled, state⟩, less⟩
      · have last : ZreadCall zs' num (.bytes [], zs') := by
          rw [ZreadCall, if_neg some]
          simp only [show zs'.state = .eof from eof]
        exact ⟨_, .more call empty (.ends last)⟩
      · obtain ⟨answers, gives⟩ := rest zs' spelled state less
        exact ⟨_, .more call empty gives⟩

/-- The calls of a stream in the middle of a file. -/
theorem gives_middle (some : num ≠ 0) (spelled : Spelled zs) (state : zs.state = .middle) :
    ∃ answers, Gives num zs answers := by
  induction zs using less_wf.induction with
  | _ zs ih =>
    obtain ⟨n, rfl⟩ := Nat.exists_eq_succ_of_ne_zero some
    -- The first round takes a byte from the stack.
    obtain ⟨s, turn⟩ : ∃ s, zreadBody ⟨.middle, zs, n + 1, []⟩ = .again s := by
      cases isStack : zs.stack with
      | nil => exact absurd isStack spelled.filled
      | cons c stack =>
        simp only [zreadBody, isStack]
        split
        · exact ⟨_, rfl⟩
        · exact ⟨_, rfl⟩
    have less := zreadBody_less (s := ⟨.middle, zs, n + 1, []⟩) spelled turn
    have inv := (Step.round turn).holds (p := .inside ⟨.middle, zs, n + 1, []⟩) ⟨state, spelled⟩
    obtain ⟨r, left, ended⟩ := loop_ends inv.1 inv.2
    have call : ZreadCall zs (n + 1) r := by
      rw [ZreadCall, if_neg (Nat.succ_ne_zero n)]
      simp only [state]
      exact (leaves_again turn).mpr left
    refine gives_of_call (Nat.succ_ne_zero n) call ended fun zs' spelled' state' closer => ?_
    refine ih zs' ?_ spelled' state'
    rcases closer with same | closer
    · rw [same]
      exact less
    · exact closer.trans less

end

/-- The first call reads the header. -/
theorem zread_start {zs : Zstate} {num : Nat} {r : Ret × Zstate} (start : zs.state = .start)
    (some : num ≠ 0)
    (ends : match { zs with state := .middle }.open with
      | (Option.some ret, zs) => r = (ret, zs)
      | (none, zs) => Leaves zreadBody ⟨.top, zs, num, []⟩ r) : ZreadCall zs num r := by
  rw [ZreadCall, if_neg some, start]
  exact ends

/-- Every file has answers for a stream over it. -/
theorem zread_gives {num : Nat} (some : num ≠ 0) (pre file : Bytes) :
    ∃ answers, Gives num (zdopen pre file) answers := by
  rcases opens : { zdopen pre file with state := .middle }.open with ⟨_ | refusal, zs⟩
  · obtain ⟨sound, empty, state⟩ :=
      @open_sound { zdopen pre file with state := .middle } zs (fun _ => rfl) opens
    obtain ⟨r, left, ended⟩ := @loop_ends ⟨.top, zs, num, []⟩ state ⟨sound, empty⟩
    refine gives_of_call some (zread_start rfl some ?_) ended fun zs' spelled state' _ =>
      gives_middle some spelled state'
    rw [opens]
    exact left
  · obtain ⟨isRet, -, -⟩ :=
      @open_refused { zdopen pre file with state := .middle } zs refusal rfl opens
    refine ⟨_, @Gives.fails num _ zs refusal (zread_start rfl some ?_) (.inl isRet) [] (by simp)⟩
    rw [opens]

end CheriGzip.Zread
