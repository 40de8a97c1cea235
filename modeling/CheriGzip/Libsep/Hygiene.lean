import CheriGzip.Libsep.Calls
import CheriGzip.Libsep.Wire
import Mathlib.Data.List.Basic

/-!
# The descriptors of a failed RPC

Descriptors arrive with a header, and a return of -1 has to close them. The ledger of a call
records what arrived and what was closed while the kernel answers as it likes.
-/
namespace CheriGzip.Libsep

open Socket Proc Loop

/-- What a call did with descriptors, and whether a `recv` failed under it. -/
structure Ledger where
  received : List Int
  closed : List Int
  broken : Bool
  deriving DecidableEq

/-- The ledger on entry to a call. -/
def Ledger.empty : Ledger := ⟨[], [], false⟩

/-- The descriptors that control messages carry. -/
def descriptors (control : List Cmsg) : List Int :=
  (control.filter (·.rights)).flatMap Cmsg.data

/-- A control message as the kernel delivers it: its length is `CMSG_LEN` of what it holds. -/
def Delivered (cmsg : Cmsg) : Prop :=
  cmsg.rights = true → cmsg.cmsgLen = cmsgLen (4 * cmsg.data.length)

/-- Every answer of the kernel, with any descriptors beside a header. -/
def delivering : Env (@Answer UInt8 Event) Ledger
  | .send _ _, l, _, l' => l' = l
  | .recv _ len, l, answer, l' =>
    match answer with
    | .ok bytes => bytes.length ≤ len ∧ l' = l
    | .error .eintr => l' = l
    | .error _ => l' = { l with broken := true }
  | .sendmsg _ _ _, l, _, l' => l' = l
  | .recvmsg _ len, l, answer, l' =>
    match answer with
    | .ok (bytes, control) => bytes.length ≤ len ∧ (∀ cmsg ∈ control, Delivered cmsg) ∧
        l' = { l with received := l.received ++ descriptors control }
    | .error _ => l' = l
  | .close fd, l, _, l' => l' = { l with closed := l.closed ++ [fd] }
  | .note _, l, _, l' => l' = l
  | .undefined, _, _, _ => False

/-- A return of -1 closed each descriptor it received once, and a return of 0 closed none. -/
def Hygienic {α : Type} : Except Errno α → Ledger → Prop
  | .error _, l => l.closed.Perm l.received
  | .ok _, l => l.closed = []

variable {fd : Int}

/-! ## Calls that receive no descriptor -/

theorem always_sendEverything (buf : Bytes) (l : Ledger) :
    Always delivering (fun _ l' => l' = l) (sendEverything fd buf) l := by
  refine .loop (fun _ now => now = l) ?_ rfl
  rintro ⟨buf, totlen⟩ now rfl
  by_cases empty : buf.length = 0
  · simp only [sendRound, empty, if_true]
    exact .ret (.ret rfl)
  · simp only [sendRound, empty, if_false, bind_eq, send_bind]
    refine .call ?_
    rintro (errno | n) _ rfl
    · cases errno with
      | eintr => exact .ret rfl
      | _ => exact .ret (.ret rfl)
    · exact .ret rfl

/-- Nothing is sent on a descriptor that stands for a sandbox that is gone. -/
theorem always_sandboxRpcSend (msg : Bytes) (l : Ledger) :
    Always delivering (fun r l' => l' = l ∧ ((fd = -1 ∨ fd = 0) → r = .error .echild))
      (sandboxRpcSend fd msg) l := by
  unfold sandboxRpcSend
  split
  next gone => exact .ret ⟨rfl, fun _ => rfl⟩
  next usable =>
    refine always_untilNoEintr (· = l) ?_ rfl
    rintro _ rfl
    refine (always_sendEverything msg _).mono ?_
    rintro r _ rfl
    exact ⟨fun _ => rfl, fun _ => ⟨rfl, fun gone => absurd gone usable⟩⟩

theorem always_sandboxRpcSendRights (msg : Bytes) (fdp : List Int) (l : Ledger) :
    Always delivering (fun r l' => l' = l ∧ ((fd = -1 ∨ fd = 0) → r = .error .echild))
      (sandboxRpcSendRights fd msg fdp) l := by
  unfold sandboxRpcSendRights
  split
  · exact always_sandboxRpcSend msg l
  split
  next gone => exact .ret ⟨rfl, fun _ => rfl⟩
  next usable =>
    split
    · exact .call fun x => x.elim
    · refine always_untilNoEintr (· = l) ?_ rfl
      rintro _ rfl
      refine .call ?_
      rintro r _ rfl
      exact .ret ⟨fun _ => rfl, fun _ => ⟨rfl, fun gone => absurd gone usable⟩⟩

theorem always_sendIovecs (short : Errno) (iov : List Bytes) (l : Ledger) :
    Always delivering (fun _ l' => l' = l) (sendIovecs fd short iov) l := by
  induction iov with
  | nil => exact .ret rfl
  | cons v iov ih =>
    refine (always_sandboxRpcSend v l).bind ?_
    rintro (errno | len) _ ⟨rfl, -⟩
    · exact .ret rfl
    · simp only
      split
      · exact .ret rfl
      · exact ih

/-- A request that went out leaves no descriptor behind, and it went out on a socket. -/
theorem always_hostSendRequest (params : HostRpcParams) (l : Ledger) :
    Always delivering (fun r l' => l' = l ∧
        (r = .ok () → ¬ (params.scb.fdHostEnd = -1 ∨ params.scb.fdHostEnd = 0)))
      (hostSendRequest params) l := by
  have header : Always delivering
      (fun r l' => l' = l ∧ ((params.scb.fdHostEnd = -1 ∨ params.scb.fdHostEnd = 0) →
        r = .error .echild)) (sendHdr params.scb.fdHostEnd params.reqHdr.bytes params.reqFdp) l := by
    cases params.reqFdp with
    | none => exact always_sandboxRpcSend _ l
    | some fdp => exact always_sandboxRpcSendRights _ fdp l
  refine header.bind ?_
  rintro (errno | len) _ ⟨rfl, sent⟩
  · exact .ret ⟨rfl, by simp⟩
  · have usable : ¬ (params.scb.fdHostEnd = -1 ∨ params.scb.fdHostEnd = 0) :=
      fun gone => nomatch sent gone
    simp only
    split
    · exact .ret ⟨rfl, by simp⟩
    · exact (always_sendIovecs _ _ _).mono fun _ _ same => ⟨same, fun _ => usable⟩

/-- The ledger after a receive of plain bytes. -/
def Heard (fd : Int) (l : Ledger) : Except Errno Nat → Ledger → Prop
  | .ok _, l' => l' = l
  | .error _, l' => l' = { l with broken := true } ∨ (fd = -1 ∨ fd = 0) ∧ l' = l

theorem always_recvEverything (len : Nat) (l : Ledger) :
    Always delivering (fun r l' => r.retlen ≠ .error .eintr ∧ Heard fd l r.retlen l')
      (recvEverything fd len) l := by
  refine .loop (fun _ now => now = l) ?_ rfl
  rintro ⟨left, buf⟩ _ rfl
  by_cases empty : left = 0
  · simp only [recvRound, empty, if_true]
    exact .ret (.ret ⟨by simp, rfl⟩)
  · simp only [recvRound, empty, if_false, bind_eq, recv_bind]
    refine .call ?_
    rintro (errno | bytes) _ answer
    · cases errno with
      | eintr => exact .ret answer
      | _ => exact .ret (.ret ⟨by simp, .inl answer⟩)
    · obtain ⟨-, rfl⟩ := answer
      simp only
      split
      · exact .ret (.ret ⟨by simp, rfl⟩)
      · exact .ret rfl

theorem always_sandboxRpcRecv (len : Nat) (l : Ledger) :
    Always delivering (fun r l' => Heard fd l r.retlen l') (sandboxRpcRecv fd len) l := by
  unfold sandboxRpcRecv
  split
  next gone => exact .ret (.inr ⟨gone, rfl⟩)
  next usable =>
    refine always_untilNoEintr (· = l) ?_ rfl
    rintro _ rfl
    refine (always_recvEverything len _).mono ?_
    rintro r l' ⟨settled, heard⟩
    exact ⟨fun interrupted => absurd interrupted settled, fun _ => heard⟩

/-! ## Calls that receive or close descriptors -/

theorem always_sandboxDisposeRights (fds : List Int) (l : Ledger) :
    Always delivering (fun _ l' => l' = { l with closed := l.closed ++ fds })
      (sandboxDisposeRights fds) l := by
  let shut (l : Ledger) (fd : Int) : Ledger := { l with closed := l.closed ++ [fd] }
  have all : ∀ l, fds.foldl shut l = { l with closed := l.closed ++ fds } := by
    induction fds with
    | nil => simp
    | cons fd fds ih => simp [ih, shut]
  rw [← all]
  exact (@ensures_sandboxDisposeRights Ledger delivering shut (fun _ _ _ => .rfl) fds l).always

/-- The count the code computes is the number of descriptors the kernel delivered. -/
theorem Delivered.fdcount {cmsg : Cmsg} (delivered : Delivered cmsg)
    (rights : cmsg.rights = true) : Cmsg.fdcount cmsg = cmsg.data.length := by
  simp only [Cmsg.fdcount, delivered rights, cmsgLen]
  omega

/-- The descriptors that are closed are those the messages carry. -/
theorem disposed_eq {control : List Cmsg} (delivered : ∀ cmsg ∈ control, Delivered cmsg) :
    (control.filter (·.rights)).flatMap (fun cmsg => cmsg.data.take (Cmsg.fdcount cmsg)) =
      descriptors control := by
  apply List.flatMap_congr
  intro cmsg mem
  obtain ⟨mem, rights⟩ := List.mem_filter.mp mem
  rw [(delivered cmsg mem).fdcount rights, List.take_length]

/-- So are those that a single message hands over. -/
theorem copied_eq {control : List Cmsg} (delivered : ∀ cmsg ∈ control, Delivered cmsg)
    (single : (control.filter (·.rights)).length ≤ 1) :
    (control.filter (·.rights)).flatMap (fun cmsg =>
        cmsg.data.take ((control.filter (·.rights)).map Cmsg.fdcount).sum) =
      descriptors control := by
  rw [← disposed_eq delivered]
  generalize control.filter (·.rights) = rights at single
  match rights, single with
  | [], _ => rfl
  | [cmsg], _ => simp

theorem always_sandboxRpcReceiveRights {control : List Cmsg}
    (delivered : ∀ cmsg ∈ control, Delivered cmsg) (fdcount : Nat) (l : Ledger) :
    Always delivering (fun r l' => match r with
        | .error _ => l' = { l with closed := l.closed ++ descriptors control }
        | .ok fds => l' = l ∧ fds = descriptors control)
      (sandboxRpcReceiveRights control fdcount) l := by
  unfold sandboxRpcReceiveRights
  simp only
  split
  · rw [disposed_eq delivered]
    refine (always_sandboxDisposeRights _ l).bind ?_
    rintro _ _ rfl
    exact .ret rfl
  next few =>
    exact .ret ⟨rfl, copied_eq delivered (by omega)⟩

/-- The ledger of a call after its header: a header that came in left its descriptors to the
caller, and a failure left none open. -/
def Arrived (r : Received × List Int) (l : Ledger) : Prop :=
  match r.1.retlen with
  | .ok _ => l = ⟨r.2, [], false⟩
  | .error _ => l.closed = l.received ∧ (l.broken = true → l.received = [])

theorem Heard.arrived {r : Received} {l : Ledger} (heard : Heard fd .empty r.retlen l) :
    Arrived (r, []) l := by
  unfold Arrived
  rcases code : r.retlen with errno | n
  · rw [code] at heard
    rcases heard with rfl | ⟨-, rfl⟩ <;> exact ⟨rfl, fun _ => rfl⟩
  · rw [code] at heard
    exact heard

/-- The ledger of one `recvmsg`: nothing came, or the descriptors of the message did. -/
def Came : Except Errno (Bytes × List Cmsg) → Ledger → Prop
  | .error _, l => l = .empty
  | .ok (_, control), l =>
    (∀ cmsg ∈ control, Delivered cmsg) ∧ l = ⟨descriptors control, [], false⟩

theorem always_recvmsg :
    Always delivering Came
      (untilNoEintr (recvmsg fd sizeofHdr) (fun r => r.map fun m => m.1.length)) .empty := by
  refine always_untilNoEintr (· = .empty) ?_ rfl
  rintro _ rfl
  refine .call ?_
  rintro (errno | ⟨bytes, control⟩) l answer
  · exact .ret ⟨fun _ => answer, fun _ => answer⟩
  · obtain ⟨-, delivered, rfl⟩ := answer
    exact .ret ⟨by simp [Except.map], fun _ => ⟨delivered, rfl⟩⟩

theorem always_recvHdr (fdcount : Option Nat) :
    Always delivering Arrived (recvHdr fd fdcount) .empty := by
  cases fdcount with
  | none => exact (always_sandboxRpcRecv sizeofHdr _).bind fun _ _ heard => .ret heard.arrived
  | some fdcount =>
    simp only [recvHdr, sandboxRpcRecvRights]
    split
    · exact (always_sandboxRpcRecv sizeofHdr _).bind fun _ _ heard => .ret heard.arrived
    split
    · exact .ret ⟨rfl, fun _ => rfl⟩
    split
    · exact .ret ⟨rfl, fun _ => rfl⟩
    refine always_recvmsg.bind ?_
    rintro (errno | ⟨bytes, control⟩) l holds
    · obtain rfl : l = .empty := holds
      exact .ret ⟨rfl, fun _ => rfl⟩
    · obtain ⟨delivered, rfl⟩ := holds
      refine (always_sandboxRpcReceiveRights delivered fdcount _).bind ?_
      rintro (errno | fds) l after
      · obtain rfl := after
        exact .ret ⟨rfl, Bool.noConfusion⟩
      · obtain ⟨rfl, rfl⟩ := after
        exact .ret rfl

/-! ## host_rpc -/

/-- The ledger after the data of a reply: a socket error closes nothing, and any other failure
closes what came with the header. -/
def Scattered {α : Type} (fds : List Int) (l : Ledger) : Except Errno α → Ledger → Prop
  | .ok _, l' => l' = l
  | .error _, l' => l' = { l with broken := true } ∨ l' = { l with closed := l.closed ++ fds }

theorem always_scatterEntry (usable : ¬ (fd = -1 ∨ fd = 0)) (datalen : UInt64) (fds : List Int)
    (s : Filling) (l : Ledger) :
    Always delivering (fun out => Scattered fds l out.1)
      (iterate (scatterRound fd datalen fds) s) l := by
  refine .loop (fun _ now => now = l) ?_ rfl
  rintro s _ rfl
  unfold scatterRound
  split
  · simp only [bind_eq, pure_eq]
    generalize (if datalen - s.totlen < UInt64.ofNat s.base.length - s.off then
      datalen - s.totlen else UInt64.ofNat s.base.length - s.off) = want
    refine (always_sandboxRpcRecv _ _).bind ?_
    intro received l' heard
    simp only [store]
    split
    · rcases code : received.retlen with errno | len
      · rw [code] at heard
        rcases heard with rfl | ⟨gone, -⟩
        · exact .ret (.ret (.inl rfl))
        · exact absurd gone usable
      · rw [code] at heard
        obtain rfl := heard
        simp only
        split
        · refine (always_sandboxDisposeRights fds _).bind ?_
          rintro _ _ rfl
          exact .ret (.ret (.inr rfl))
        · split
          · exact .ret (.ret rfl)
          · exact .ret rfl
    · exact .call fun x => x.elim
  · exact .ret (.ret rfl)

theorem always_scatter (usable : ¬ (fd = -1 ∨ fd = 0)) (datalen : UInt64) (fds : List Int)
    (rep : List Bytes) (totlen : UInt64) (l : Ledger) :
    Always delivering (fun out => Scattered fds l out.1) (scatter fd datalen fds rep totlen) l := by
  induction rep generalizing totlen with
  | nil => exact .ret rfl
  | cons v rep ih =>
    refine (always_scatterEntry usable datalen fds ⟨v, 0, totlen⟩ l).bind ?_
    rintro ⟨errno | ⟨⟨⟩⟩, s⟩ l' scattered
    · exact .ret scattered
    · obtain rfl := scattered
      simp only
      split
      · exact .ret rfl
      · exact (ih s.totlen).bind fun _ _ rest => .ret rest

/-- A return is hygienic unless descriptors came with the header and a `recv` failed. -/
def HygienicUnlessBroken {α : Type} (rc : Except Errno α) (l : Ledger) : Prop :=
  Hygienic rc l ↔ ¬ (l.broken = true ∧ l.received ≠ [])

/-- A return of -1 that closed what it received, under a socket that did not fail. -/
theorem HygienicUnlessBroken.closed {α : Type} {errno : Errno} {l : Ledger}
    (closed : l.closed = l.received) (broken : l.broken = true → l.received = []) :
    HygienicUnlessBroken (.error errno : Except Errno α) l :=
  iff_of_true (.of_eq closed) fun fails => fails.2 (broken fails.1)

theorem always_hostReceiveReply {params : HostRpcParams}
    (usable : ¬ (params.scb.fdHostEnd = -1 ∨ params.scb.fdHostEnd = 0)) :
    Always delivering (fun r => HygienicUnlessBroken r.rc) (hostReceiveReply params) .empty := by
  refine (always_recvHdr params.repFdp).bind ?_
  rintro ⟨received, fds⟩ l arrived
  unfold Arrived at arrived
  rcases code : received.retlen with errno | len
  · simp only [code] at arrived ⊢
    exact .ret (.closed arrived.1 arrived.2)
  · simp only [code] at arrived ⊢
    obtain rfl := arrived
    have disposed : ∀ errno, Always delivering (fun r => HygienicUnlessBroken r.rc)
        (do sandboxDisposeRights fds; pure (params.fail errno) : Prog HostRpcResult)
        ⟨fds, [], false⟩ := by
      intro errno
      refine (always_sandboxDisposeRights fds _).bind ?_
      rintro _ _ rfl
      exact .ret (.closed rfl nofun)
    split
    · exact disposed .echild
    split
    · exact disposed .ebadrpc
    · refine (always_scatter usable _ fds params.rep 0 _).bind ?_
      rintro ⟨errno | totlen, rep⟩ l scattered
      · refine .ret ?_
        rcases scattered with rfl | rfl
        · -- the exit of the socket error: everything received is still open
          simp [HygienicUnlessBroken, Hygienic, Except.map]
        · exact .closed rfl nofun
      · obtain rfl := scattered
        exact .ret (iff_of_true rfl nofun)

theorem always_hostRpcInternalFix (params : HostRpcParams) :
    Always delivering (fun r => HygienicUnlessBroken r.rc) (hostRpcInternalFix params) .empty := by
  refine (always_hostSendRequest params _).bind ?_
  rintro (errno | ⟨⟨⟩⟩) _ ⟨rfl, sent⟩
  · exact .ret (.closed rfl nofun)
  · exact always_hostReceiveReply (sent rfl)

/-! ## sandbox_recvrpc -/

theorem always_payload (reqHdr : RequestHdr) (fds : List Int) (buffer : Bytes) :
    Always delivering Hygienic (iterate (payloadRound fd reqHdr fds) buffer)
      ⟨fds, [], false⟩ := by
  refine .loop (fun _ now => now = ⟨fds, [], false⟩) ?_ rfl
  rintro buffer _ rfl
  unfold payloadRound
  split
  · refine (always_sandboxRpcRecv _ _).bind ?_
    intro received l heard
    rcases code : received.retlen with errno | len
    · rw [code] at heard
      refine (always_sandboxDisposeRights fds l).bind ?_
      rintro _ _ rfl
      rcases heard with rfl | ⟨-, rfl⟩ <;> exact .ret (.ret (.refl _))
    · rw [code] at heard
      obtain rfl := heard
      simp only
      split
      · refine (always_sandboxDisposeRights fds _).bind ?_
        rintro _ _ rfl
        exact .ret (.ret (.refl _))
      · exact .ret rfl
  · exact .ret (.ret rfl)

theorem always_sandboxRecvrpcInternal (scb : SandboxCb) (mallocs : Nat → Bool)
    (fdp : Option Nat) :
    Always delivering Hygienic (sandboxRecvrpcInternal scb mallocs fdp) .empty := by
  refine (always_recvHdr fdp).bind ?_
  rintro ⟨received, fds⟩ l arrived
  unfold Arrived at arrived
  rcases code : received.retlen with errno | len
  · simp only [code] at arrived ⊢
    exact .ret (.of_eq arrived.1)
  · simp only [code] at arrived ⊢
    obtain rfl := arrived
    have disposed : ∀ errno, Always delivering Hygienic
        (do sandboxDisposeRights fds; pure (.error errno) : Prog (Except Errno Request))
        ⟨fds, [], false⟩ := by
      intro errno
      refine (always_sandboxDisposeRights fds _).bind ?_
      rintro _ _ rfl
      exact .ret (.refl _)
    split
    · exact disposed .epipe
    split
    · exact disposed .ebadmsg
    split
    · exact disposed .ebadmsg
    split
    · exact disposed .enomem
    · exact always_payload _ fds []

/-- The sandbox closes what it received on every return of -1. The host does so unless a
socket error cuts off the data of a reply whose header brought descriptors; then it closes
none of them. -/
theorem rpc_hygienic (params : HostRpcParams) (scb : SandboxCb) (mallocs : Nat → Bool)
    (fdp : Option Nat) :
    Always delivering (fun r l => Hygienic r.rc l ↔ ¬ (l.broken = true ∧ l.received ≠ []))
      (hostRpcInternalFix params) .empty ∧
    Always delivering Hygienic (sandboxRecvrpcInternal scb mallocs fdp) .empty :=
  ⟨always_hostRpcInternalFix params, always_sandboxRecvrpcInternal scb mallocs fdp⟩

/-- A reply header for one byte of data and a descriptor beside it, and then a reset. -/
def resetAfterHeader : (e : Op UInt8 Event) → Ledger → Option (Answer e × Ledger)
  | .send _ bytes, l => some (.ok bytes.length, l)
  | .recv _ _, l => some (.error (.other 54), { l with broken := true })
  | .recvmsg _ len, l =>
    if sizeofHdr ≤ len then
      some (.ok (ReplyHdr.bytes ⟨replyHdrMagic, 0, 1, 1⟩, [⟨true, cmsgLen 4, [7]⟩]),
        { l with received := l.received ++ [7] })
    else
      none
  | _, _ => none

theorem resetAfterHeader_sound (e : Op UInt8 Event) (l : Ledger) (x : Answer e) (l' : Ledger)
    (answered : resetAfterHeader e l = some (x, l')) : delivering e l x l' := by
  cases e with
  | send fd bytes =>
    cases answered
    rfl
  | recv fd len =>
    cases answered
    rfl
  | recvmsg fd len =>
    simp only [resetAfterHeader] at answered
    split at answered
    next room =>
      cases answered
      refine ⟨by simpa using room, ?_, rfl⟩
      simp [Delivered]
    next short => cases answered
  | sendmsg fd bytes control => cases answered
  | close fd => cases answered
  | note what => cases answered
  | undefined => cases answered

/-- The host returns -1 for the reset with descriptor 7 open. -/
theorem hostRpcInternalFix_leaks :
    ¬ ∀ params, Always delivering (fun r l => Hygienic r.rc l) (hostRpcInternalFix params)
      .empty := by
  intro hygienic
  let params : HostRpcParams := ⟨⟨3, 4⟩, 1, [], none, [[0]], some 1⟩
  have found : (run resetAfterHeader 40 (hostRpcInternalFix params) .empty).map
      (fun out => (out.1.rc, out.2)) = some (.error (.other 54), ⟨[7], [], true⟩) := by
    decide +kernel
  obtain ⟨⟨r, l⟩, ran, out⟩ := Option.map_eq_some_iff.mp found
  have closed : Hygienic r.rc l := hygienic params r l (run_returns resetAfterHeader_sound ran)
  simp only [Prod.mk.injEq] at out
  rw [out.1, out.2] at closed
  simp [Hygienic] at closed

end CheriGzip.Libsep
