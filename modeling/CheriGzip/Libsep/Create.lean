import CheriGzip.Libsep.Wire

/-!
# Creating sandboxes

`sandbox_create` and `lch_startfn` of `sandbox.c`, with the descriptor tables that `fork`
copies, and `lzsandbox_initialize`, which decides how many sandboxes there are.
-/
namespace CheriGzip.Libsep.Create

/-- What a descriptor refers to: an end of the `pair`-th socket pair, or something else. -/
inductive Desc where
  | hostEnd (pair : Nat)
  | sandboxEnd (pair : Nat)
  | other (id : Nat)
  deriving DecidableEq, Repr

/-- A descriptor table: what each number refers to. -/
abbrev Table := List (Option Desc)

/-- A new descriptor gets the lowest number that is free. -/
def Table.alloc : Table → Desc → Nat × Table
  | [], d => (0, [some d])
  | none :: t, d => (0, some d :: t)
  | some e :: t, d => ((alloc t d).1 + 1, some e :: (alloc t d).2)

def Table.close (t : Table) (fd : Nat) : Table := t.set fd none

def Table.Has (t : Table) (d : Desc) : Prop := ∃ fd : Nat, t[fd]? = some (some d)

/-- What the system answers to a call: whether each step works. -/
structure Answers where
  calloc : Bool
  socketpair : Bool
  fork : Bool
  capEnter : Bool
  deriving DecidableEq, Repr

/-- `struct sandbox_cb` -/
structure Scb where
  fdHostEnd : Nat
  fdSandboxEnd : Nat
  sandboxPid : Nat
  deriving DecidableEq, Repr

/-- A sandbox whose main function has started, with its table at that moment. -/
structure Child where
  pair : Nat
  table : Table
  deriving DecidableEq, Repr

/-- The host process: its table, the number of socket pairs that a sandbox was forked for,
its control blocks, the sandboxes that have started, and whether it has exited. -/
structure Host where
  table : Table
  pairs : Nat
  scbs : List Scb
  children : List Child
  exited : Bool
  deriving DecidableEq, Repr

/-- `sandbox_create(scb, sandbox_mainfn, context)` -/
def sandboxCreate (a : Answers) (h : Host) : Host :=
  if a.socketpair = false then
    { h with exited := true }
  else
    let (fdHostEnd, t) := h.table.alloc (.hostEnd h.pairs)
    let (fdSandboxEnd, t) := Table.alloc t (.sandboxEnd h.pairs)
    if a.fork = false then
      { h with exited := true }
    else
      -- The child has a copy of the table; a failing `cap_enter` ends it.
      let children := if a.capEnter then [⟨h.pairs, t.close fdHostEnd⟩] else []
      { h with
        table := t.close fdSandboxEnd
        pairs := h.pairs + 1
        scbs := h.scbs ++ [⟨fdHostEnd, fdSandboxEnd, h.pairs⟩]
        children := h.children ++ children }

/-- `lch_startfn(fn_sandbox, context, flags, lcsp)` -/
def lchStartfn (a : Answers) (h : Host) : Int × Host :=
  if a.calloc = false then (-1, h) else (0, sandboxCreate a h)

/-- A call of one of the two routines, and what it meets. -/
inductive Call where
  | sandboxCreate (a : Answers)
  | lchStartfn (a : Answers)
  deriving DecidableEq, Repr

/-- One call; nothing happens after an `exit`. -/
def Host.step (h : Host) (c : Call) : Host :=
  if h.exited then h
  else
    match c with
    | .sandboxCreate a => Create.sandboxCreate a h
    | .lchStartfn a => (Create.lchStartfn a h).2

def Host.run (h : Host) (calls : List Call) : Host := calls.foldl Host.step h

/-- A host before its first call. -/
def Host.init (table : Table) : Host := ⟨table, 0, [], [], false⟩

/-- No sandbox started with the host's end of any socket pair. -/
def Isolated (h : Host) : Prop :=
  ∀ c ∈ h.children, ∀ pair, ¬ c.table.Has (.hostEnd pair)

/-! ## Tables -/

section

variable {t : Table} {d e : Desc}

theorem alloc_get (fd : Nat) :
    (t.alloc d).2[fd]? = if fd = (t.alloc d).1 then some (some d) else t[fd]? := by
  induction t generalizing fd with
  | nil => cases fd <;> simp [Table.alloc]
  | cons o t ih =>
    cases o with
    | none => cases fd <;> simp [Table.alloc]
    | some e =>
      cases fd with
      | zero => simp [Table.alloc]
      | succ fd => simp [Table.alloc, ih]

theorem alloc_free : t[(t.alloc d).1]? ≠ some (some e) := by
  induction t with
  | nil => simp [Table.alloc]
  | cons o t ih =>
    cases o with
    | none => simp [Table.alloc]
    | some e => simpa [Table.alloc] using ih

theorem has_alloc : Table.Has (t.alloc d).2 e ↔ e = d ∨ t.Has e := by
  constructor
  · rintro ⟨fd, here⟩
    rw [alloc_get] at here
    split at here
    · cases here
      exact .inl rfl
    · exact .inr ⟨fd, here⟩
  · rintro (rfl | ⟨fd, here⟩)
    · exact ⟨_, by rw [alloc_get, if_pos rfl]⟩
    · refine ⟨fd, ?_⟩
      rw [alloc_get, if_neg]
      · exact here
      · rintro rfl
        exact alloc_free here

theorem close_get {fd k : Nat} :
    (t.close fd)[k]? = some (some e) ↔ k ≠ fd ∧ t[k]? = some (some e) := by
  unfold Table.close
  rw [List.getElem?_set]
  by_cases same : fd = k
  · rw [if_pos same]
    split <;> simp [same]
  · rw [if_neg same]
    simp [Ne.symm same]

variable {n : Nat}

/-- What a child gets: the ends that were there before. -/
theorem has_child (q : Nat) :
    Table.Has (Table.close (Table.alloc (t.alloc (.hostEnd n)).2 (.sandboxEnd n)).2
      (t.alloc (.hostEnd n)).1) (.hostEnd q) ↔ t.Has (.hostEnd q) := by
  constructor
  · rintro ⟨fd, here⟩
    obtain ⟨ne, here⟩ := close_get.mp here
    rw [alloc_get] at here
    split at here
    · cases here
    · rw [alloc_get, if_neg ne] at here
      exact ⟨fd, here⟩
  · rintro ⟨fd, here⟩
    have kept : fd ≠ (t.alloc (.hostEnd n)).1 := by
      rintro rfl
      exact alloc_free here
    have there : (t.alloc (.hostEnd n)).2[fd]? = some (some (.hostEnd q)) := by
      rw [alloc_get, if_neg kept]
      exact here
    refine ⟨fd, close_get.mpr ⟨kept, ?_⟩⟩
    rw [alloc_get, if_neg]
    · exact there
    · rintro rfl
      exact alloc_free there

/-- What the host keeps: its new end too. -/
theorem has_host (q : Nat) :
    Table.Has (Table.close (Table.alloc (t.alloc (.hostEnd n)).2 (.sandboxEnd n)).2
      (Table.alloc (t.alloc (.hostEnd n)).2 (.sandboxEnd n)).1) (.hostEnd q) ↔
      q = n ∨ t.Has (.hostEnd q) := by
  have both : Table.Has (t.alloc (.hostEnd n)).2 (.hostEnd q) ↔ q = n ∨ t.Has (.hostEnd q) := by
    rw [has_alloc, Desc.hostEnd.injEq]
  rw [← both]
  constructor
  · rintro ⟨fd, here⟩
    obtain ⟨ne, here⟩ := close_get.mp here
    rw [alloc_get, if_neg ne] at here
    exact ⟨fd, here⟩
  · rintro ⟨fd, here⟩
    have kept : fd ≠ (Table.alloc (t.alloc (.hostEnd n)).2 (.sandboxEnd n)).1 := by
      rintro rfl
      exact alloc_free here
    refine ⟨fd, close_get.mpr ⟨kept, ?_⟩⟩
    rw [alloc_get, if_neg kept]
    exact here

end

/-! ## Runs -/

/-- The host has its end of every pair, and each child the ends of the pairs before its own. -/
structure Shared (h : Host) : Prop where
  table : ∀ q, h.table.Has (.hostEnd q) ↔ q < h.pairs
  children : ∀ c ∈ h.children, ∀ q, c.table.Has (.hostEnd q) ↔ q < c.pair

def Call.answers : Call → Answers
  | .sandboxCreate a => a
  | .lchStartfn a => a

/-- The call gets to `sandbox_create`. -/
def Call.Creates : Call → Prop
  | .sandboxCreate _ => True
  | .lchStartfn a => a.calloc = true

instance (c : Call) : Decidable c.Creates := by
  cases c <;> unfold Call.Creates <;> infer_instance

/-- The call forks a sandbox. -/
def Call.Forks (c : Call) : Prop :=
  c.Creates ∧ c.answers.socketpair = true ∧ c.answers.fork = true

/-- The call ends the host. -/
def Call.Exits (c : Call) : Prop :=
  c.Creates ∧ (c.answers.socketpair = false ∨ c.answers.fork = false)

/-- The main function of the call's sandbox starts. -/
def Call.Starts (c : Call) : Prop := c.Forks ∧ c.answers.capEnter = true

theorem shared_init {table : Table} (clean : ∀ q, ¬ table.Has (.hostEnd q)) :
    Shared (.init table) where
  table q := by simp [clean, Host.init]
  children := by simp [Host.init]

/-- What a call does: nothing, an exit, or a fork with the child's table. -/
theorem step_cases {h : Host} (live : h.exited = false) (shared : Shared h) (c : Call) :
    (¬ c.Creates ∧ h.step c = h) ∨ (c.Exits ∧ h.step c = { h with exited := true }) ∨
      (c.Forks ∧ Shared (h.step c) ∧ (h.step c).exited = false ∧
        (h.step c).pairs = h.pairs + 1 ∧ ∃ table,
          (h.step c).children =
            h.children ++ if c.answers.capEnter then [⟨h.pairs, table⟩] else []) := by
  -- both calls come to the same function; a failing socketpair or fork is fatal to the host
  have creates : ∀ a : Answers,
      ((a.socketpair = false ∨ a.fork = false) ∧ sandboxCreate a h = { h with exited := true }) ∨
        ((a.socketpair = true ∧ a.fork = true) ∧ Shared (sandboxCreate a h) ∧
          (sandboxCreate a h).exited = false ∧ (sandboxCreate a h).pairs = h.pairs + 1 ∧
          ∃ table, (sandboxCreate a h).children =
            h.children ++ if a.capEnter then [⟨h.pairs, table⟩] else []) := by
    intro a
    unfold sandboxCreate
    cases socketpair : a.socketpair with
    | false => exact .inl ⟨.inl rfl, rfl⟩
    | true =>
      cases fork : a.fork with
      | false => exact .inl ⟨.inr rfl, rfl⟩
      | true =>
        refine .inr ⟨⟨rfl, rfl⟩, ⟨?_, ?_⟩, live, rfl, _, rfl⟩
        · -- the host keeps one end of every pair, the new one included
          intro q
          refine (has_host q).trans ?_
          rw [shared.table]
          exact Or.comm.trans Nat.lt_succ_iff_lt_or_eq.symm
        · -- a child only has what the host had when it was forked
          intro c mem q
          rcases List.mem_append.mp mem with old | new
          · exact shared.children c old q
          · split at new
            · cases List.mem_singleton.mp new
              exact (has_child q).trans (shared.table q)
            · cases new
  cases c with
  | sandboxCreate a =>
    have step : h.step (.sandboxCreate a) = sandboxCreate a h := by simp [Host.step, live]
    rw [step]
    rcases creates a with ⟨fails, same⟩ | ⟨works, rest⟩
    · exact .inr (.inl ⟨⟨trivial, fails⟩, same⟩)
    · exact .inr (.inr ⟨⟨trivial, works⟩, rest⟩)
  | lchStartfn a =>
    cases calloc : a.calloc with
    | false =>
      left
      simp [Call.Creates, Host.step, live, lchStartfn, calloc]
    | true =>
      have step : h.step (.lchStartfn a) = sandboxCreate a h := by
        simp [Host.step, live, lchStartfn, calloc]
      rw [step]
      rcases creates a with ⟨fails, same⟩ | ⟨works, rest⟩
      · exact .inr (.inl ⟨⟨calloc, fails⟩, same⟩)
      · exact .inr (.inr ⟨⟨calloc, works⟩, rest⟩)

theorem run_exited {h : Host} (exited : h.exited = true) (calls : List Call) :
    h.run calls = h := by
  induction calls with
  | nil => rfl
  | cons c calls ih =>
    have stays : h.step c = h := by simp [Host.step, exited]
    exact (congrArg (Host.run · calls) stays).trans ih

/-- Until the host exits, no main function starts behind a fork. -/
def Alone : (forked : Prop) → List Call → Prop
  | _, [] => True
  | forked, c :: calls => c.Exits ∨ (c.Starts → ¬ forked) ∧ Alone (forked ∨ c.Forks) calls

theorem isolated_iff {h : Host} (shared : Shared h) :
    Isolated h ↔ ∀ c ∈ h.children, c.pair = 0 := by
  constructor
  · intro isolated c mem
    apply Nat.eq_zero_of_not_pos
    intro pos
    exact isolated c mem 0 ((shared.children c mem 0).mpr pos)
  · intro first c mem pair has
    have less := (shared.children c mem pair).mp has
    rw [first c mem] at less
    cases less

/-- What a run adds to the sandboxes that there are. -/
theorem run_isolated {h : Host} (shared : Shared h) (live : h.exited = false)
    (calls : List Call) :
    Isolated (h.run calls) ↔ Isolated h ∧ Alone (0 < h.pairs) calls := by
  induction calls generalizing h with
  | nil => simp [Host.run, Alone]
  | cons c calls ih =>
    have unfolded : h.run (c :: calls) = (h.step c).run calls := rfl
    rw [unfolded]
    rcases step_cases live shared c with
      ⟨none, same⟩ | ⟨exits, same⟩ | ⟨forks, shared', live', pairs, table, children⟩
    · have notForks : ¬ c.Forks := fun forks => none forks.1
      have notStarts : ¬ c.Starts := fun starts => none starts.1.1
      have notExits : ¬ c.Exits := fun exits => none exits.1
      rw [same, ih shared live]
      simp [Alone, notForks, notStarts, notExits]
    · rw [same, run_exited rfl]
      simp [Alone, exits, Isolated]
    · have notExits : ¬ c.Exits := by
        rintro ⟨-, fails⟩
        simp [forks.2.1, forks.2.2] at fails
      have starts : c.Starts ↔ c.answers.capEnter = true := by simp [Call.Starts, forks]
      have here : Isolated (h.step c) ↔ Isolated h ∧ (c.Starts → ¬ 0 < h.pairs) := by
        rw [isolated_iff shared', isolated_iff shared, children, starts]
        cases c.answers.capEnter with
        | false => simp
        | true =>
          constructor
          · intro first
            refine ⟨fun c mem => first c (List.mem_append_left _ mem), ?_⟩
            intro _ pos
            have new := first ⟨h.pairs, table⟩ (by simp)
            exact absurd new (Nat.ne_of_gt pos)
          · rintro ⟨first, none⟩ c mem
            rcases List.mem_append.mp mem with old | new
            · exact first c old
            · cases List.mem_singleton.mp new
              exact Nat.eq_zero_of_not_pos (none rfl)
      have forked : (0 < h.pairs ∨ c.Forks) = (0 < h.pairs + 1) := by
        simp [forks]
      rw [ih shared' live', here, Alone, pairs, forked]
      simp [notExits, and_assoc]

/-- In every sequence of calls the sandboxes are isolated if and only if no main function
starts after a fork. -/
theorem run_isolated_iff {table : Table} (clean : ∀ q, ¬ table.Has (.hostEnd q))
    (calls : List Call) : Isolated ((Host.init table).run calls) ↔ Alone False calls := by
  have start : Isolated (.init table) := by simp [Isolated, Host.init]
  have unforked : (0 < (Host.init table).pairs) = False := eq_false (Nat.lt_irrefl 0)
  rw [run_isolated (shared_init clean) rfl, unforked]
  exact and_iff_right start

/-- The answers when everything works. -/
def Answers.good : Answers := ⟨true, true, true, true⟩

/-- Standard input, output and error. -/
def standard : Table := [some (.other 0), some (.other 1), some (.other 2)]

theorem standard_clean (q : Nat) : ¬ standard.Has (.hostEnd q) := by
  rintro ⟨_ | _ | _ | fd, here⟩ <;> simp [standard] at here

/-- The second sandbox has the host's end to the first. -/
theorem run_two :
    ¬ Isolated ((Host.init standard).run [.lchStartfn .good, .lchStartfn .good]) := by
  intro isolated
  exact isolated ⟨1, [some (.other 0), some (.other 1), some (.other 2), some (.hostEnd 0), none,
    some (.sandboxEnd 1)]⟩ (by decide) 0 ⟨3, rfl⟩

/-- One sandbox, after a call that found no memory. -/
theorem run_isolated_iff_one :
    Isolated ((Host.init standard).run
      [.lchStartfn { Answers.good with calloc := false }, .sandboxCreate .good]) ↔
    Alone False [.lchStartfn { Answers.good with calloc := false }, .sandboxCreate .good] :=
  run_isolated_iff standard_clean _

/-! ## The sandboxes of zlib -/

/-- The host, and which streams have a sandbox; with `LZ_SINGLE_SANDBOX` the static
`lzsandbox_initialized` stands for all of them. -/
structure LzHost where
  host : Host
  initialized : Bool
  started : List Nat

/-- `lzsandbox_initialize(strm)`; `lch_startfn` failing is `err(-1, ...)`. -/
def lzsandboxInitialize (single : Bool) (s : LzHost) (strm : Nat) (a : Answers) : LzHost :=
  if (if single then s.initialized else s.started.contains strm) then s
  else
    let rc := (lchStartfn a s.host).1
    let host := s.host.step (.lchStartfn a)
    { host := if rc < 0 then { host with exited := true } else host
      initialized := true
      started := strm :: s.started }

def LzHost.run (single : Bool) (s : LzHost) (calls : List (Nat × Answers)) : LzHost :=
  calls.foldl (fun s c => lzsandboxInitialize single s c.1 c.2) s

/-- A build with one sandbox for all streams keeps it apart, however many streams there are
and whatever fails. -/
theorem lz_single_isolated {table : Table} (clean : ∀ q, ¬ table.Has (.hostEnd q))
    (calls : List (Nat × Answers)) :
    Isolated (LzHost.run true ⟨.init table, false, []⟩ calls).host := by
  have stays : ∀ (calls : List (Nat × Answers)) (s : LzHost), s.initialized = true →
      LzHost.run true s calls = s := by
    intro calls
    induction calls with
    | nil => exact fun _ _ => rfl
    | cons c calls ih =>
      intro s once
      have same : lzsandboxInitialize true s c.1 c.2 = s := by simp [lzsandboxInitialize, once]
      exact (congrArg (LzHost.run true · calls) same).trans (ih s once)
  cases calls with
  | nil => simp [LzHost.run, Isolated, Host.init]
  | cons c calls =>
    -- Only the first call gets to `lch_startfn`.
    have first : LzHost.run true ⟨.init table, false, []⟩ (c :: calls) =
        lzsandboxInitialize true ⟨.init table, false, []⟩ c.1 c.2 :=
      stays calls _ rfl
    have alone := (run_isolated_iff clean [.lchStartfn c.2]).mpr (by simp [Alone])
    rw [first]
    simp only [lzsandboxInitialize, if_true, Bool.false_eq_true, if_false]
    split
    · exact alone
    · exact alone

end CheriGzip.Libsep.Create
