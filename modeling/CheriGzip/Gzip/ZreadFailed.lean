import CheriGzip.Gzip.ZreadSafe

/-!
# zread behind a failure

`zs_state` is `S_MIDDLE` from the first call on, also where that call refuses the header or a later
one refuses a code. The next call goes on at the label `middle`, with nothing on the stack.
-/
namespace CheriGzip.Zread

open Loop

/-- A call of a sequence, with the state it finds. -/
structure Call where
  before : Zstate
  num : Nat
  ret : Ret

/-- A sequence of calls, whatever they return. -/
inductive Calls : Zstate → List Call → Prop where
  | nil (zs : Zstate) : Calls zs []
  | cons {zs zs' : Zstate} {num : Nat} {ret : Ret} {calls : List Call}
      (first : ZreadCall zs num (ret, zs')) (rest : Calls zs' calls) :
      Calls zs (⟨zs, num, ret⟩ :: calls)

/-- The call returned -1. -/
def Ret.Failed (ret : Ret) : Prop := ret = .eftype ∨ ret = .einval

/-- The call returned no data, and the stack pointer stayed in `de_stack`. -/
def Ret.Idle (ret : Ret) : Prop := ret = .bytes [] ∨ ret.Failed

/-- Behind a call that returned -1, every call is idle. -/
def StaysFailed (calls : List Call) : Prop :=
  calls.Pairwise fun call later => call.ret.Failed → later.ret.Idle

/-- `S_MIDDLE` with nothing on the stack. -/
def Zstate.Drained (zs : Zstate) : Prop := zs.state = .middle ∧ zs.stack = []

/-! ## One call -/

section

variable {zs zs' : Zstate} {num : Nat} {ret : Ret}

/-- A header that is refused has already changed `zs_state`. -/
theorem open_refused {ret : Ret} (empty : zs.stack = []) (opens : zs.open = (some ret, zs')) :
    ret = .eftype ∧ zs'.state = zs.state ∧ zs'.stack = [] := by
  unfold Zstate.open at opens
  generalize fetched : zs.fetch 3 = got at opens
  obtain ⟨header, mid⟩ := got
  -- Reading the three bytes touches neither the stack nor `zs_state`.
  have same : mid.stack = zs.stack ∧ mid.state = zs.state := by
    cases fetched
    exact ⟨rfl, rfl⟩
  simp only at opens
  -- Both checks fail in the same way: nothing but the bytes has gone.
  split at opens
  next bad =>
    cases opens
    exact ⟨rfl, same.2, same.1.trans empty⟩
  next magic =>
    split at opens
    next bad =>
      cases opens
      exact ⟨rfl, same.2, same.1.trans empty⟩
    next sizes => cases opens

/-- What a call leaves the loop with, when the invariant holds where it enters. -/
def After (r : Ret × Zstate) : Prop :=
  (∃ out, r.1 = .bytes out ∧ (Point.between r.2).Holds) ∨ r.1.Failed ∧ r.2.Drained

theorem leaves_after {s : Zloop} {r : Ret × Zstate} (state : s.zs.state = .middle)
    (holds : At s.place s.zs) (left : Leaves zreadBody s r) : After r := by
  refine left.invariant (fun s => s.zs.state = .middle ∧ At s.place s.zs) After ?_ ?_ ⟨state, holds⟩
  · intro s s' inv turn
    exact (Step.round turn).holds (p := .inside s) inv
  · intro s r inv turn
    -- The loop is left with a full buffer, or by a code that is refused.
    rcases zreadBody_holds inv.1 inv.2 with ⟨s', again, _⟩ | ⟨out, zs, leaves, between⟩ |
      ⟨zs, leaves, state, empty⟩
    · rw [turn] at again
      cases again
    · rw [turn] at leaves
      cases leaves
      exact .inl ⟨out, rfl, between⟩
    · rw [turn] at leaves
      cases leaves
      exact .inr ⟨.inr rfl, state, empty⟩

theorem call_after (holds : (Point.between zs).Holds) (call : ZreadCall zs num (ret, zs')) :
    After (ret, zs') := by
  rw [ZreadCall] at call
  split at call
  next none =>
    cases call
    exact .inl ⟨[], rfl, holds⟩
  next some =>
    -- By the state that the call finds, as the switch does.
    cases state : zs.state with
    | start =>
      simp only [state] at call
      simp only [Point.Holds, state] at holds
      generalize opens : { zs with state := .middle }.open = opened at call
      obtain ⟨refused, zs''⟩ := opened
      cases refused with
      | some refusal =>
        cases call
        obtain ⟨isRet, state', empty⟩ := @open_refused { zs with state := .middle } _ _ holds.2 opens
        exact .inr ⟨.inl isRet, state', empty⟩
      | none =>
        obtain ⟨sound, empty, state'⟩ := @open_sound { zs with state := .middle } zs'' holds.1 opens
        exact @leaves_after ⟨.top, zs'', num, []⟩ _ state' ⟨sound, empty⟩ call
    | middle =>
      simp only [state] at call
      simp only [Point.Holds, state] at holds
      exact @leaves_after ⟨.middle, zs, num, []⟩ _ state holds call
    | eof =>
      simp only [state] at call
      cases call
      exact .inl ⟨[], rfl, holds⟩

/-- Behind a failure, a request for bytes takes one from below `de_stack`. -/
theorem Zstate.Drained.call (drained : zs.Drained) (call : ZreadCall zs num (ret, zs')) :
    zs' = zs ∧ ret = if num = 0 then .bytes [] else .outside := by
  rw [ZreadCall] at call
  split at call
  next none =>
    cases call
    exact ⟨rfl, (if_pos none).symm⟩
  next some =>
    obtain ⟨n, rfl⟩ := Nat.exists_eq_succ_of_ne_zero some
    simp only [drained.1] at call
    -- At the label `middle` a byte is popped before anything is looked at.
    have turn : zreadBody ⟨.middle, zs, n + 1, []⟩ = .leave (.outside, zs) := by
      simp only [zreadBody, drained.2]
    cases call.unique (.of_leave turn)
    exact ⟨rfl, (if_neg some).symm⟩

/-! ## A sequence of calls -/

theorem Zstate.Drained.calls {calls : List Call} (run : Calls zs calls) (drained : zs.Drained) :
    ∀ call ∈ calls, call.before.Drained ∧
      call.ret = if call.num = 0 then .bytes [] else .outside := by
  -- A call behind a failure leaves the state as it was, so the next one is behind it too.
  induction run with
  | nil => simp
  | @cons zs zs' num ret calls first rest ih =>
    obtain ⟨rfl, isRet⟩ := drained.call first
    intro call member
    rcases List.mem_cons.mp member with rfl | later
    · exact ⟨drained, isRet⟩
    · exact ih drained call later

/-- A call behind a failure is idle if and only if it asks for nothing. -/
theorem idle_iff {call : Call} (isRet : call.ret = if call.num = 0 then .bytes [] else .outside) :
    call.ret.Idle ↔ call.num = 0 := by
  rw [isRet]
  by_cases none : call.num = 0
  · rw [if_pos none]
    exact iff_of_true (.inl rfl) none
  · rw [if_neg none]
    refine iff_of_false ?_ none
    rintro (data | eftype | einval)
    · cases data
    · cases eftype
    · cases einval

theorem Point.Holds.not_drained (holds : (Point.between zs).Holds) : ¬ zs.Drained := by
  intro drained
  simp only [Point.Holds, drained.1] at holds
  exact holds.filled drained.2

theorem staysFailed_iff {calls : List Call} (run : Calls zs calls)
    (holds : (Point.between zs).Holds) :
    StaysFailed calls ↔ ∀ call ∈ calls, call.before.Drained → call.num = 0 := by
  -- By induction on the calls, up to the first that fails; behind it all states are drained.
  induction run with
  | nil => simp [StaysFailed]
  | @cons zs zs' num ret calls first rest ih =>
    rw [StaysFailed, List.pairwise_cons, List.forall_mem_cons]
    have begins : zs.Drained → num = 0 := fun drained => absurd drained holds.not_drained
    rcases call_after holds first with ⟨out, isRet, holds'⟩ | ⟨failed, drained⟩
    · have isRet : ret = .bytes out := isRet
      -- A call with data asks nothing of the later ones.
      have good : ¬ ret.Failed := by
        rw [isRet]
        rintro (eftype | einval)
        · cases eftype
        · cases einval
      rw [← ih holds']
      exact ⟨fun stays => ⟨begins, stays.2⟩, fun stays => ⟨fun _ _ bad => absurd bad good, stays.2⟩⟩
    · have later := drained.calls rest
      constructor
      · rintro ⟨idle, -⟩
        refine ⟨begins, ?_⟩
        intro call member _
        exact (idle_iff (later call member).2).mp (idle call member failed)
      · rintro ⟨-, asks⟩
        have idle : ∀ call ∈ calls, call.ret.Idle := by
          intro call member
          have none := asks call member (later call member).1
          exact (idle_iff (later call member).2).mpr none
        refine ⟨fun call member _ => idle call member, ?_⟩
        exact List.pairwise_of_forall_mem_list fun _ _ call member _ => idle call member

end

/-- A failed file stays failed exactly when nothing is asked of it in the state that the failure
left behind. -/
theorem zread_staysFailed (pre file : Bytes) (calls : List Call)
    (run : Calls (zdopen pre file) calls) :
    StaysFailed calls ↔ ∀ call ∈ calls, call.before.Drained → call.num = 0 :=
  staysFailed_iff run ⟨fun _ => rfl, rfl⟩

/-- The bytes 31 157 140 65 2 178 4: the codes 65 and 257, and 300, which is not in the table. -/
def badCode : Bytes := [0x1f, 0x9d, 0x8c, 0x41, 0x02, 0xb2, 0x04]

/-- The first two of the three bytes, the failure, and one request more. -/
theorem badCode_calls : ∃ zs zs' zs'',
    Calls (zdopen [] badCode)
      [⟨zs, 2, .bytes [0x41, 0x41]⟩, ⟨zs', 2, .einval⟩, ⟨zs'', 2, .outside⟩] ∧ zs''.Drained := by
  refine ⟨_, _, _, .cons ⟨7, rfl⟩ (.cons ⟨4, rfl⟩ (.cons ⟨1, rfl⟩ (.nil _))), rfl, rfl⟩

theorem zread_staysFailed_bad : ∃ calls : List Call, Calls (zdopen [] badCode) calls ∧
    (StaysFailed calls ↔ ∀ call ∈ calls, call.before.Drained → call.num = 0) ∧
      ¬ StaysFailed calls := by
  obtain ⟨zs, zs', zs'', run, drained⟩ := badCode_calls
  have exact' := zread_staysFailed [] badCode _ run
  refine ⟨_, run, exact', ?_⟩
  rw [exact']
  intro asks
  have two : 2 = 0 := asks ⟨zs'', 2, .outside⟩ (by simp) drained
  exact absurd two (by decide)

/-- The third request gets a byte that lies below the stack. -/
theorem failed_not_idle : ¬ ∀ (pre file : Bytes) (calls : List Call),
    Calls (zdopen pre file) calls → StaysFailed calls := by
  intro stays
  obtain ⟨zs, zs', zs'', run, -⟩ := badCode_calls
  have idle := List.rel_of_pairwise_cons (List.pairwise_cons.mp (stays [] badCode _ run)).2
    (List.mem_singleton_self _) (.inr rfl)
  rcases idle with data | eftype | einval
  · cases data
  · cases eftype
  · cases einval

end CheriGzip.Zread
