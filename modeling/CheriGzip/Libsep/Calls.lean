import CheriGzip.Lib.Returns
import CheriGzip.Libsep.Rpc

/-!
# Rules for the calls of the RPC layer

The retry around an interrupted call and the disposal of descriptors, over any environment.
-/
namespace CheriGzip.Libsep

open Socket Proc Loop

variable {S : Type} {env : Env (@Answer UInt8 Event) S}

section

variable {α : Type} {call : Prog α} {retlen : α → Except Errno Nat} {post : α → S → Prop}

/-- A retry ends when each interrupted call uses something up. -/
theorem ensures_untilNoEintr (inv : S → Prop) (variant : S → Nat)
    (round : ∀ now, inv now → Ensures env (fun r later =>
      (retlen r = .error .eintr → inv later ∧ variant later < variant now) ∧
      (retlen r ≠ .error .eintr → post r later)) call now)
    {s : S} (start : inv s) : Ensures env post (untilNoEintr call retlen) s := by
  refine .loop (fun _ => inv) (fun _ => variant) ?_ start
  intro _ now holds
  refine (round now holds).bind ?_
  intro r later after
  rcases code : retlen r with errno | n
  · cases errno with
    | eintr => exact .ret (by simpa [code] using after)
    | _ => exact .ret (.ret (by simpa [code] using after))
  · exact .ret (.ret (by simpa [code] using after))

/-- What a retry returns when nothing bounds the interrupts. -/
theorem always_untilNoEintr (inv : S → Prop)
    (round : ∀ now, inv now → Always env (fun r later =>
      (retlen r = .error .eintr → inv later) ∧
      (retlen r ≠ .error .eintr → post r later)) call now)
    {s : S} (start : inv s) : Always env post (untilNoEintr call retlen) s := by
  refine .loop (fun _ => inv) ?_ start
  intro _ now holds
  refine (round now holds).bind ?_
  intro r later after
  rcases code : retlen r with errno | n
  · cases errno with
    | eintr => exact .ret (by simpa [code] using after)
    | _ => exact .ret (.ret (by simpa [code] using after))
  · exact .ret (.ret (by simpa [code] using after))

end

/-- The descriptors are closed one after the other. -/
theorem ensures_sandboxDisposeRights (shut : S → Int → S)
    (closes : ∀ fd s s', env (.close fd) s () s' ↔ s' = shut s fd) (fds : List Int) (s : S) :
    Ensures env (fun _ s' => s' = fds.foldl shut s) (sandboxDisposeRights fds) s := by
  induction fds generalizing s with
  | nil => exact .ret rfl
  | cons fd fds ih =>
    refine .call ⟨(), shut s fd, (closes fd s _).mpr rfl⟩ ?_
    rintro ⟨⟩ s' closed
    rw [(closes fd s s').mp closed]
    exact ih _

end CheriGzip.Libsep
