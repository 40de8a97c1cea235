import CheriGzip.Lib.Socket

/-!
# Two programs over one stream socket pair

A link holds the two programs at rest and the bytes in flight in each direction. The kernel
interleaves the two sides freely, accepts and delivers any positive number of bytes at a
time, and may interrupt a call a bounded number of times.

`Legs` describes a dialogue in which the sides take turns to send. `legs_run` is the rule
for it: every run makes the marks of the dialogue in order, each with both directions
drained, cannot stop before the last of them, and has a bounded number of steps.
-/
namespace CheriGzip.Socket

open Proc (Head)

variable {χ ν α β : Type}

/-- The two ends of a socket pair. A mark in `noted` records whether both directions were
empty when it was made. -/
structure Link (χ ν α β : Type) where
  left : Socket.Head χ ν α
  right : Socket.Head χ ν β
  toRight : List χ
  toLeft : List χ
  noted : List (ν × Bool)
  interrupts : Nat

def Link.swap (c : Link χ ν α β) : Link χ ν β α :=
  { left := c.right, right := c.left, toRight := c.toLeft, toLeft := c.toRight,
    noted := c.noted, interrupts := c.interrupts }

@[simp] theorem Link.swap_swap (c : Link χ ν α β) : c.swap.swap = c := rfl

/-- One step of the left side, whose end of the pair is `fd`. -/
inductive Acts (fd : Int) : Link χ ν α β → Link χ ν α β → Prop where
  | send {c : Link χ ν α β} {bytes k} {n : Nat} (rests : c.left = .waits (.send fd bytes) k)
      (some : 0 < n) (most : n ≤ bytes.length) :
      Acts fd c { c with left := (k (.ok n)).head, toRight := c.toRight ++ bytes.take n }
  | recv {c : Link χ ν α β} {len k} {n : Nat} (rests : c.left = .waits (.recv fd len) k)
      (some : 0 < n) (most : n ≤ len) (there : n ≤ c.toLeft.length) :
      Acts fd c { c with left := (k (.ok (c.toLeft.take n))).head, toLeft := c.toLeft.drop n }
  | sendIntr {c : Link χ ν α β} {bytes k} {i : Nat} (rests : c.left = .waits (.send fd bytes) k)
      (may : c.interrupts = i + 1) :
      Acts fd c { c with left := (k (.error .eintr)).head, interrupts := i }
  | recvIntr {c : Link χ ν α β} {len k} {i : Nat} (rests : c.left = .waits (.recv fd len) k)
      (may : c.interrupts = i + 1) :
      Acts fd c { c with left := (k (.error .eintr)).head, interrupts := i }
  | note {c : Link χ ν α β} {what k} (rests : c.left = .waits (.note what) k) :
      Acts fd c { c with
        left := (k ()).head
        noted := c.noted ++ [(what, c.toRight.isEmpty && c.toLeft.isEmpty)] }
  | turn {c : Link χ ν α β} {p} (rests : c.left = .turn p) : Acts fd c { c with left := p.head }

/-- Either side takes a step. -/
def Step (lfd rfd : Int) (c c' : Link χ ν α β) : Prop :=
  Acts lfd c c' ∨ Acts rfd c.swap c'.swap

theorem Step.right {lfd rfd : Int} {c : Link χ ν α β} {d : Link χ ν β α}
    (acts : Acts rfd c.swap d) : Step lfd rfd c d.swap :=
  .inr acts

/-- Runs of a given number of steps. -/
inductive Runs (lfd rfd : Int) : Nat → Link χ ν α β → Link χ ν α β → Prop where
  | refl (c) : Runs lfd rfd 0 c c
  | tail {n c mid c'} (earlier : Runs lfd rfd n c mid) (step : Step lfd rfd mid c') :
      Runs lfd rfd (n + 1) c c'

/-- Where no run is longer than a bound, one gets to a state in which nothing can happen. -/
theorem Runs.exhausts {lfd rfd : Int} {c : Link χ ν α β} {most : Nat}
    (bound : ∀ {n c'}, Runs lfd rfd n c c' → n ≤ most) :
    ∃ n c', Runs lfd rfd n c c' ∧ ∀ c'', ¬ Step lfd rfd c' c'' := by
  apply Classical.byContradiction
  intro never
  -- If every run could go on, there would be one longer than the bound.
  have live {n c'} (runs : Runs lfd rfd n c c') : ∃ c'', Step lfd rfd c' c'' := by
    apply Classical.byContradiction
    intro stuck
    exact never ⟨n, c', runs, fun c'' step => stuck ⟨c'', step⟩⟩
  have long (n : Nat) : ∃ c', Runs lfd rfd n c c' := by
    induction n with
    | zero => exact ⟨c, .refl c⟩
    | succ n ih =>
      obtain ⟨c', runs⟩ := ih
      obtain ⟨c'', step⟩ := live runs
      exact ⟨c'', .tail runs step⟩
  obtain ⟨c', runs⟩ := long (most + 1)
  have within := bound runs
  omega

/-- The head sends exactly `bytes` and is then `h'`, however much each call accepts. -/
inductive Sends (fd : Int) : Socket.Head χ ν α → List χ → Socket.Head χ ν α → Prop where
  | nil (h) : Sends fd h [] h
  | send {bytes k rest h'} (live : bytes ≠ []) (again : (k (.error .eintr)).head =
        .waits (.send fd bytes) k)
      (later : ∀ n, 0 < n → n ≤ bytes.length →
        Sends fd (k (.ok n)).head (bytes.drop n ++ rest) h') :
      Sends fd (.waits (.send fd bytes) k) (bytes ++ rest) h'

theorem Sends.of_nil {fd : Int} {h h' : Socket.Head χ ν α} (sends : Sends fd h [] h') :
    h = h' := by
  generalize empty : ([] : List χ) = bytes at sends
  -- A send has bytes, so that nothing is left to send only where nothing is sent.
  cases sends with
  | nil => rfl
  | send live => simp [live] at empty

/-- The head is at a receive, and an interrupted call leaves it there. -/
def Awaits (fd : Int) (h : Socket.Head χ ν α) : Prop :=
  ∃ len k, h = .waits (.recv fd len) k ∧ 0 < len ∧ (k (.error .eintr)).head = h

/-- The head receives exactly `bytes` and is then `h'`, however they are cut. -/
inductive Feeds (fd : Int) : Socket.Head χ ν α → List χ → Socket.Head χ ν α → Prop where
  | nil (h) : Feeds fd h [] h
  | recv {len k bytes h'} (live : bytes ≠ []) (some : 0 < len)
      (again : (k (.error .eintr)).head = .waits (.recv fd len) k)
      (later : ∀ n, 0 < n → n ≤ len → n ≤ bytes.length →
        Feeds fd (k (.ok (bytes.take n))).head (bytes.drop n) h') :
      Feeds fd (.waits (.recv fd len) k) bytes h'

theorem Feeds.awaits {fd : Int} {h h' : Socket.Head χ ν α} {bytes : List χ}
    (feeds : Feeds fd h bytes h') (live : bytes ≠ []) : Awaits fd h := by
  cases feeds with
  | nil => exact absurd rfl live
  | recv _ some again _ => exact ⟨_, _, rfl, some, again⟩

/-- A dialogue by turns. On each leg the sender passes some bytes, the receiver takes them
in and makes a mark, and becomes the sender. The last argument bounds the steps of the
transfers. -/
inductive Legs (χ ν : Type) : {α β : Type} → Int → Int → Socket.Head χ ν α →
    Socket.Head χ ν β → List ν → Nat → Prop where
  | ended {α β : Type} {sfd rfd a} {receiver : Socket.Head χ ν β} (waiting : Awaits rfd receiver) :
      Legs χ ν sfd rfd (.done a : Socket.Head χ ν α) receiver [] 0
  | leg {α β : Type} {sfd rfd bytes what k log volume}
      {sender sender' : Socket.Head χ ν α} {receiver : Socket.Head χ ν β}
      (live : bytes ≠ [])
      (sends : Sends sfd sender bytes sender') (waiting : Awaits sfd sender')
      (feeds : Feeds rfd receiver bytes (.waits (.note what) k))
      (later : Legs χ ν rfd sfd (k ()).head sender' log volume) :
      Legs χ ν sfd rfd sender receiver (what :: log) (2 * bytes.length + 1 + volume)

/-- A link in a dialogue of which `log` remains, in a leg from left to right: `rest` is
still to be sent. -/
inductive Leg (lfd rfd : Int) : Link χ ν α β → List ν → Nat → Prop where
  | ended {c : Link χ ν α β} {a} (left : c.left = .done a) (right : Awaits rfd c.right)
      (toRight : c.toRight = []) (toLeft : c.toLeft = []) : Leg lfd rfd c [] 0
  | under {c : Link χ ν α β} {rest sender' what k log volume}
      (sends : Sends lfd c.left rest sender') (waiting : Awaits lfd sender')
      (feeds : Feeds rfd c.right (c.toRight ++ rest) (.waits (.note what) k))
      (later : Legs χ ν rfd lfd (k ()).head sender' log volume) (toLeft : c.toLeft = []) :
      Leg lfd rfd c (what :: log) (2 * rest.length + c.toRight.length + 1 + volume)

/-- Some leg of a dialogue, in either direction. -/
def Talks (lfd rfd : Int) (c : Link χ ν α β) (log : List ν) (volume : Nat) : Prop :=
  Leg lfd rfd c log volume ∨ Leg rfd lfd c.swap log volume

theorem Legs.start {lfd rfd : Int} {c : Link χ ν α β} {log : List ν} {volume : Nat}
    (legs : Legs χ ν lfd rfd c.left c.right log volume) (toRight : c.toRight = [])
    (toLeft : c.toLeft = []) : Leg lfd rfd c log volume := by
  generalize left : c.left = sender at legs
  generalize right : c.right = receiver at legs
  cases legs with
  | ended waiting => exact .ended left (right ▸ waiting) toRight toLeft
  | @leg _ _ _ _ bytes what k log volume sender sender' receiver live sends waiting feeds later =>
    have leg : Leg lfd rfd c (what :: log)
        (2 * bytes.length + c.toRight.length + 1 + volume) :=
      .under (left ▸ sends) waiting (by rw [toRight, right]; exact feeds) later toLeft
    simpa [toRight] using leg

/-- The state of a dialogue after one step: the marks still to come, those made, and a
measure that went down. -/
def Advances (lfd rfd : Int) (c' : Link χ ν α β) (noted : List (ν × Bool)) (log : List ν)
    (bound : Nat) : Prop :=
  ∃ log' volume', Talks lfd rfd c' log' volume' ∧
    c'.noted ++ log'.map (·, true) = noted ++ log.map (·, true) ∧
    volume' + c'.interrupts < bound

/-- A step of a side that waits for bytes that are not there can only be an interrupt. -/
theorem awaits_acts {lfd : Int} {c c' : Link χ ν α β} (waiting : Awaits lfd c.left)
    (empty : c.toLeft = []) (acts : Acts lfd c c') :
    ∃ i, c.interrupts = i + 1 ∧ c' = { c with interrupts := i } := by
  obtain ⟨len, k, rests, some, again⟩ := waiting
  -- The only calls of a head at a receive are receives.
  cases acts with
  | send rests' | sendIntr rests' | note rests' => rw [rests] at rests'; cases rests'
  | turn rests' => rw [rests] at rests'; cases rests'
  | recv _ some _ there =>
    rw [empty, List.length_nil] at there
    omega
  | recvIntr rests' may =>
    rw [rests] at rests'
    cases rests'
    exact ⟨_, may, by rw [again]⟩

theorem leg_interrupted {lfd rfd : Int} {c : Link χ ν α β} {log : List ν} {volume i : Nat}
    (leg : Leg lfd rfd c log volume) : Leg lfd rfd { c with interrupts := i } log volume := by
  cases leg with
  | ended left right toRight toLeft => exact .ended left right toRight toLeft
  | under sends waiting feeds later toLeft => exact .under sends waiting feeds later toLeft

/-- The sending side takes a step. -/
theorem leg_sender {lfd rfd : Int} {c c' : Link χ ν α β} {log : List ν} {volume : Nat}
    (leg : Leg lfd rfd c log volume) (acts : Acts lfd c c') :
    Advances lfd rfd c' c.noted log (volume + c.interrupts) := by
  cases leg with
  | ended left =>
    cases acts with
    | send rests | recv rests | sendIntr rests | recvIntr rests | note rests | turn rests =>
      rw [left] at rests
      cases rests
  | @under rest sender' what k log volume sends waiting feeds later toLeft =>
    generalize left : c.left = h at sends
    cases sends with
    | nil =>
      -- everything was sent: the sender waits for an answer that is not there yet
      have leg : Leg lfd rfd c (what :: log) (2 * 0 + c.toRight.length + 1 + volume) :=
        .under (left ▸ .nil _) waiting feeds later toLeft
      obtain ⟨i, may, rfl⟩ := awaits_acts (left ▸ waiting) toLeft acts
      exact ⟨_, _, .inl (leg_interrupted leg), rfl, by simp [may]⟩
    | @send bytes k' rest _ live again more =>
      cases acts with
      | recv rests | recvIntr rests | note rests | turn rests => rw [left] at rests; cases rests
      -- The bytes have moved from the sender to those in flight; the receiver sees no difference.
      | @send _ _ n rests some most =>
        rw [left] at rests
        cases rests
        refine ⟨_, _, .inl (.under (more n some most) waiting ?_ later toLeft), rfl, ?_⟩
        · have whole : c.toRight ++ bytes.take n ++ (bytes.drop n ++ rest) =
              c.toRight ++ (bytes ++ rest) := by
            rw [List.append_assoc, ← List.append_assoc (bytes.take n), List.take_append_drop]
          exact whole ▸ feeds
        · simp only [List.length_append, List.length_take, List.length_drop]
          omega
      | sendIntr rests may =>
        rw [left] at rests
        cases rests
        refine ⟨_, _, .inl (.under ?_ waiting feeds later toLeft), rfl, by simp [may]⟩
        simp only [again]
        exact .send live again more

/-- The receiving side takes a step. -/
theorem leg_receiver {lfd rfd : Int} {c c' : Link χ ν α β} {log : List ν} {volume : Nat}
    (leg : Leg lfd rfd c log volume) (acts : Acts rfd c.swap c'.swap) :
    Advances lfd rfd c' c.noted log (volume + c.interrupts) := by
  have back : c' = c'.swap.swap := rfl
  rw [back]
  generalize c'.swap = d at acts
  cases leg with
  | ended left right toRight toLeft =>
    obtain ⟨i, may, rfl⟩ := awaits_acts (c := c.swap) right toRight acts
    refine ⟨[], 0, .inl (.ended left right toRight toLeft), rfl, ?_⟩
    simp only [Link.swap] at may ⊢
    omega
  | @under rest sender' what k log volume sends waiting feeds later toLeft =>
    generalize right : c.right = h at feeds
    generalize pending : c.toRight ++ rest = bytes at feeds
    cases feeds with
    | nil =>
      -- the whole leg has arrived: the receiver makes its mark and becomes the sender
      obtain ⟨toRight, rfl⟩ := List.append_eq_nil_iff.mp pending
      obtain rfl := sends.of_nil
      cases acts with
      | send rests | recv rests | sendIntr rests | recvIntr rests | turn rests =>
        simp only [Link.swap, right] at rests
        cases rests
      | note rests =>
        simp only [Link.swap, right] at rests
        cases rests
        refine ⟨log, volume, .inr (Legs.start later toLeft toRight), ?_, ?_⟩
        · simp [Link.swap, toRight, toLeft]
        · simp [Link.swap, toRight]
    | @recv len k' _ _ live some again more =>
      cases acts with
      | send rests | sendIntr rests | note rests | turn rests =>
        simp only [Link.swap, right] at rests
        cases rests
      | @recv _ _ n rests some most there =>
        simp only [Link.swap, right] at rests
        cases rests
        simp only [Link.swap] at there
        have short : n ≤ bytes.length := by
          rw [← pending, List.length_append]
          omega
        have arrived := more n some most short
        rw [← pending, List.take_append_of_le_length there,
          List.drop_append_of_le_length there] at arrived
        -- What was in flight has arrived, in whatever pieces.
        have leg := @Leg.under _ _ _ _ lfd rfd { c with
          right := (k' (.ok (c.toRight.take n))).head, toRight := c.toRight.drop n }
          _ _ _ _ _ _ sends waiting arrived later toLeft
        refine ⟨_, _, .inl leg, rfl, ?_⟩
        simp only [Link.swap, List.length_drop]
        omega
      | recvIntr rests may =>
        simp only [Link.swap, right] at rests
        cases rests
        have unchanged : Feeds rfd (k' (.error .eintr)).head (c.toRight ++ rest)
            (.waits (.note what) k) := by
          rw [again, pending]
          exact .recv live some again more
        refine ⟨_, _, .inl (.under sends waiting unchanged later toLeft), rfl, ?_⟩
        simp only [Link.swap] at may ⊢
        omega

theorem advances_swap {lfd rfd : Int} {c' : Link χ ν α β} {noted : List (ν × Bool)}
    {log : List ν} {bound : Nat} (advances : Advances rfd lfd c'.swap noted log bound) :
    Advances lfd rfd c' noted log bound := by
  obtain ⟨log', volume', talks, marks, less⟩ := advances
  exact ⟨log', volume', talks.symm, marks, less⟩

/-- What one step of either side preserves. -/
theorem talks_step {lfd rfd : Int} {c c' : Link χ ν α β} {log : List ν} {volume : Nat}
    (talks : Talks lfd rfd c log volume) (step : Step lfd rfd c c') :
    Advances lfd rfd c' c.noted log (volume + c.interrupts) := by
  -- Each side is the sender in one direction and the receiver in the other.
  rcases talks with leg | leg <;> rcases step with acts | acts
  · exact leg_sender leg acts
  · exact leg_receiver leg acts
  · exact advances_swap (leg_receiver (c := c.swap) leg acts)
  · exact advances_swap (leg_sender leg acts)

/-- A dialogue that is not over can go on. -/
theorem leg_live {lfd rfd : Int} {c : Link χ ν α β} {what : ν} {log : List ν} {volume : Nat}
    (leg : Leg lfd rfd c (what :: log) volume) : ∃ c', Step lfd rfd c c' := by
  cases leg with
  | @under rest _ _ _ _ _ sends _ feeds =>
    generalize right : c.right = h at feeds
    generalize pending : c.toRight ++ rest = bytes at feeds
    cases feeds with
    | nil => exact ⟨_, .right (.note (c := c.swap) right)⟩
    | @recv len k' _ _ live some _ _ =>
      -- Bytes in flight can arrive, and without any the sender has some left.
      by_cases flight : c.toRight = []
      · generalize left : c.left = h at sends
        cases sends with
        | nil =>
          rw [flight] at pending
          exact absurd pending.symm live
        | send sendLive =>
          exact ⟨_, .inl (.send left Nat.one_pos (List.length_pos_iff.mpr sendLive))⟩
      · exact ⟨_, .right (.recv (c := c.swap) right Nat.one_pos some
          (List.length_pos_iff.mpr flight))⟩

/-- Run rule for dialogues. -/
theorem legs_run {lfd rfd : Int} {c c' : Link χ ν α β} {log : List ν} {volume n : Nat}
    (legs : Legs χ ν lfd rfd c.left c.right log volume) (toRight : c.toRight = [])
    (toLeft : c.toLeft = []) (fresh : c.noted = []) (runs : Runs lfd rfd n c c') :
    ∃ log' volume', Talks lfd rfd c' log' volume' ∧
      c'.noted ++ log'.map (·, true) = log.map (·, true) ∧
      volume' + c'.interrupts + n ≤ volume + c.interrupts := by
  -- By induction on the steps; the measure pays for each of them.
  induction runs with
  | refl => exact ⟨log, volume, .inl (legs.start toRight toLeft), by simp [fresh], Nat.le_refl _⟩
  | tail _ step ih =>
    obtain ⟨log₁, volume₁, talks, marks, less⟩ := ih legs toRight toLeft fresh
    obtain ⟨log₂, volume₂, talks₂, marks₂, less₂⟩ := talks_step talks step
    exact ⟨log₂, volume₂, talks₂, marks₂.trans marks, by omega⟩

/-- A run of a dialogue that cannot go on has made all the marks and left nothing unread. -/
theorem talks_stuck {lfd rfd : Int} {c : Link χ ν α β} {log : List ν} {volume : Nat}
    (talks : Talks lfd rfd c log volume) (stuck : ∀ c', ¬ Step lfd rfd c c') :
    log = [] ∧ c.toRight = [] ∧ c.toLeft = [] := by
  rcases talks with leg | leg
  -- A leg with a mark to come could go on.
  · cases log with
    | cons => exact (leg_live leg).elim fun c' step => absurd step (stuck c')
    | nil => cases leg with | ended _ _ toRight toLeft => exact ⟨rfl, toRight, toLeft⟩
  · cases log with
    | cons => exact (leg_live leg).elim fun c' step => absurd step.symm (stuck c'.swap)
    | nil => cases leg with | ended _ _ toRight toLeft => exact ⟨rfl, toLeft, toRight⟩

end CheriGzip.Socket
