import CheriGzip.Lib.Duplex
import CheriGzip.Libsep.Wire

/-!
# Framing of the RPC layer

Both endpoints over a socket pair. Each routine is described once by the bytes it sends or
takes in, whatever the kernel does to its calls; a sequence of RPCs is then a dialogue, and
the run rule for dialogues gives the results of every call.
-/
namespace CheriGzip.Libsep

open Socket Proc Loop

variable {α : Type} {fd : Int} {h' : Socket.Head UInt8 Event α}

/-! ## Sending -/

/-- `send_everything` at its next call, and where each answer leads. -/
theorem head_sendRound (fd : Int) {buf : Bytes} (more : buf.length ≠ 0) (totlen : Nat)
    (f : Except Errno Nat → Prog α) :
    (loop (sendRound fd) (buf, totlen) f).head =
      .waits (Op.send fd (buf.take sendMax)) fun
        | .error .eintr => loop (sendRound fd) (buf, totlen) f
        | .error errno => f (.error errno)
        | .ok retlen => loop (sendRound fd) (buf.drop retlen, totlen + retlen) f := by
  simp only [head_loop, sendRound, more, if_false, bind_eq, pure_eq, send_bind, head_op,
    andThen_waits]
  congr 1
  funext x
  rcases x with errno | retlen
  · cases errno <;> rfl
  · rfl

theorem sends_sendLoop {buf rest : Bytes} {f : Except Errno Nat → Prog α} (totlen : Nat)
    (later : Sends fd (f (.ok (totlen + buf.length))).head rest h') :
    Sends fd (loop (sendRound fd) (buf, totlen) f).head (buf ++ rest) h' := by
  induction size : buf.length using Nat.strongRecOn generalizing buf totlen with
  | _ size ih =>
  subst size
  by_cases empty : buf.length = 0
  · have nothing := List.length_eq_zero_iff.mp empty
    subst nothing
    simpa [head_loop, sendRound] using later
  · have entry := head_sendRound fd empty totlen f
    have cut : buf ++ rest = buf.take sendMax ++ (buf.drop sendMax ++ rest) := by
      rw [← List.append_assoc, List.take_append_drop]
    rw [entry, cut]
    refine .send ?_ entry ?_
    · rw [← List.length_pos_iff, List.length_take]
      simp only [sendMax, soSndbuf]
      omega
    · intro n some most
      have short : n ≤ buf.length := by
        rw [List.length_take] at most
        omega
      have left : (buf.take sendMax).drop n ++ (buf.drop sendMax ++ rest) =
          buf.drop n ++ rest := by
        rw [← List.append_assoc, ← List.drop_append_of_le_length most, List.take_append_drop]
      rw [left]
      refine ih _ ?_ (totlen + n) ?_ rfl
      · rw [List.length_drop]
        omega
      · rw [List.length_drop]
        have total : totlen + n + (buf.length - n) = totlen + buf.length := by omega
        rwa [total]

/-- The retry around a call that does not fail with `EINTR` at once. -/
theorem head_untilNoEintr {β : Type} {call : Prog α} {retlen : α → Except Errno Nat}
    (f : α → Prog β) (settled : ∀ r, call.head = .done r → retlen r ≠ .error .eintr) :
    ((untilNoEintr call retlen).bind f).head =
      (call.bind fun r => match retlen r with
        | .error .eintr => (untilNoEintr call retlen).bind f
        | _ => f r).head := by
  unfold untilNoEintr
  rw [iterate_bind, head_unroll]
  · simp only [bind_eq, Proc.bind_assoc]
    congr 2
    funext r
    rcases retlen r with errno | n
    · cases errno <;> rfl
    · rfl
  · intro s' round
    rw [bind_eq, head_bind] at round
    cases at_ : call.head with
    | done r =>
      have quiet := settled r at_
      rw [at_, andThen_done] at round
      rcases code : retlen r with errno | n
      · rw [code] at round quiet
        cases errno <;> simp at round quiet
      · rw [code] at round
        simp at round
    | turn | waits =>
      rw [at_] at round
      cases round

theorem sends_sandboxRpcSend {msg rest : Bytes} {f : Except Errno Nat → Prog α}
    (wired : fd ≠ -1 ∧ fd ≠ 0) (later : Sends fd (f (.ok msg.length)).head rest h') :
    Sends fd ((sandboxRpcSend fd msg).bind f).head (msg ++ rest) h' := by
  have settled : ∀ r, (sendEverything fd msg).head = .done r → id r ≠ .error .eintr := by
    intro r done
    by_cases empty : msg.length = 0
    · simp [sendEverything, iterate, head_loop, sendRound, empty] at done
      simp [← done]
    · rw [sendEverything, iterate, head_sendRound fd empty] at done
      cases done
  simp only [sandboxRpcSend, wired, or_self, if_false]
  rw [head_untilNoEintr f settled, sendEverything, iterate_bind]
  refine sends_sendLoop 0 ?_
  simpa using later

theorem sends_sendIovecs {short : Errno} {iov : List Bytes} {rest : Bytes}
    {f : Except Errno Unit → Prog α} (wired : fd ≠ -1 ∧ fd ≠ 0)
    (later : Sends fd (f (.ok ())).head rest h') :
    Sends fd ((sendIovecs fd short iov).bind f).head (iov.flatten ++ rest) h' := by
  induction iov with
  | nil => exact later
  | cons v iov ih =>
    simp only [sendIovecs, bind_eq, Proc.bind_assoc, List.flatten_cons, List.append_assoc]
    refine sends_sandboxRpcSend wired ?_
    simpa using ih

/-! ## Receiving -/

/-- `recv_everything` at its next call, and where each answer leads. -/
theorem head_recvRound (fd : Int) {len : Nat} (more : len ≠ 0) (buf : Bytes)
    (f : Received → Prog α) :
    (loop (recvRound fd) (len, buf) f).head =
      .waits (Op.recv fd (min len sendMax)) fun
        | .error .eintr => loop (recvRound fd) (len, buf) f
        | .error errno => f ⟨.error errno, buf⟩
        | .ok bytes =>
          if bytes.length = 0 then f ⟨.ok 0, buf⟩
          else loop (recvRound fd) (len - bytes.length, buf ++ bytes) f := by
  simp only [head_loop, recvRound, more, if_false, bind_eq, pure_eq, recv_bind, head_op,
    andThen_waits]
  congr 1
  funext x
  rcases x with errno | bytes
  · cases errno <;> rfl
  · by_cases none : bytes.length = 0 <;> simp [none]

theorem feeds_recvLoop {buf bytes rest : Bytes} {f : Received → Prog α}
    (later : Feeds fd (f ⟨.ok (buf ++ bytes).length, buf ++ bytes⟩).head rest h') :
    Feeds fd (loop (recvRound fd) (bytes.length, buf) f).head (bytes ++ rest) h' := by
  induction size : bytes.length using Nat.strongRecOn generalizing bytes buf with
  | _ size ih =>
  subst size
  by_cases empty : bytes.length = 0
  · have nothing := List.length_eq_zero_iff.mp empty
    subst nothing
    simpa [head_loop, recvRound] using later
  · have entry := head_recvRound fd empty buf f
    have live : bytes ≠ [] := fun nil => empty (by rw [nil, List.length_nil])
    rw [entry]
    refine .recv (by simp [live]) ?_ entry ?_
    · simp only [sendMax, soSndbuf]
      omega
    · intro n some most there
      have short : n ≤ bytes.length := by omega
      have length : (bytes.take n).length = n := by
        rw [List.length_take]
        omega
      have nonzero : n ≠ 0 := by omega
      simp only [List.take_append_of_le_length short, List.drop_append_of_le_length short, length,
        nonzero, if_false]
      have remaining : bytes.length - n = (bytes.drop n).length := by rw [List.length_drop]
      rw [remaining]
      refine ih _ ?_ ?_ rfl
      · rw [List.length_drop]
        omega
      · rwa [List.append_assoc, List.take_append_drop]

theorem recvEverything_settled (len : Nat) (r : Received)
    (done : (recvEverything fd len).head = .done r) : r.retlen ≠ .error .eintr := by
  by_cases empty : len = 0
  · simp [recvEverything, iterate, head_loop, recvRound, empty] at done
    simp [← done]
  · rw [recvEverything, iterate, head_recvRound fd empty] at done
    cases done

theorem feeds_sandboxRpcRecv {bytes rest : Bytes} {f : Received → Prog α}
    (wired : fd ≠ -1 ∧ fd ≠ 0) (later : Feeds fd (f ⟨.ok bytes.length, bytes⟩).head rest h') :
    Feeds fd ((sandboxRpcRecv fd bytes.length).bind f).head (bytes ++ rest) h' := by
  simp only [sandboxRpcRecv, wired, or_self, if_false]
  rw [head_untilNoEintr f (recvEverything_settled _), recvEverything, iterate_bind]
  refine feeds_recvLoop ?_
  simpa using later

/-- A receive of something waits for it. -/
theorem sandboxRpcRecv_waits {len : Nat} (wired : fd ≠ -1 ∧ fd ≠ 0) (some : 0 < len)
    (f : Received → Prog α) : ∃ e k, ((sandboxRpcRecv fd len).bind f).head = .waits e k := by
  simp only [sandboxRpcRecv, wired, or_self, if_false]
  rw [head_untilNoEintr f (recvEverything_settled _), recvEverything, iterate_bind,
    head_recvRound fd (by omega)]
  exact ⟨_, _, rfl⟩

theorem sandboxRpcRecv_zero {f : Received → Prog α} (wired : fd ≠ -1 ∧ fd ≠ 0) :
    ((sandboxRpcRecv fd 0).bind f).head = (f ⟨.ok 0, []⟩).head := by
  simp only [sandboxRpcRecv, wired, or_self, if_false]
  rw [head_untilNoEintr f (recvEverything_settled _), recvEverything, iterate_bind]
  simp [head_loop, recvRound]

/-! ## The scatter loop -/

theorem feeds_scatterEntry {datalen totlen : UInt64} {fds : List Int} {v piece rest : Bytes}
    {f : Except Errno Unit × Filling → Prog α} (wired : fd ≠ -1 ∧ fd ≠ 0)
    (fits : v.length < 2 ^ 64) (more : totlen < datalen)
    (size : piece.length = min (datalen.toNat - totlen.toNat) v.length)
    (later : Feeds fd (f (.ok (), ⟨piece ++ v.drop piece.length, .ofNat piece.length,
      totlen + .ofNat piece.length⟩)).head rest h') :
    Feeds fd (loop (scatterRound fd datalen fds) ⟨v, 0, totlen⟩ f).head (piece ++ rest) h' := by
  have want := scatter_want fits more
  generalize asked : (if datalen - totlen < UInt64.ofNat v.length - 0 then datalen - totlen
      else UInt64.ofNat v.length - 0) = w at want
  have wsize : w.toNat = piece.length := by omega
  have whole : UInt64.ofNat piece.length = w := by rw [← wsize, UInt64.ofNat_toNat]
  have stored : ∀ g : Bytes → Prog α, (store v 0 piece).bind g =
      g (piece ++ v.drop piece.length) := by
    intro g
    have inside : piece.length ≤ v.length := by omega
    simp [store, inside]
  rw [head_unroll]
  · simp only [scatterRound, more, if_true, bind_eq, Proc.bind_assoc, asked, wsize]
    refine feeds_sandboxRpcRecv wired ?_
    simp only [UInt64.toNat_zero, stored, whole, ne_eq, not_true_eq_false,
      if_false, pure_eq, UInt64.zero_add]
    by_cases full : UInt64.ofNat v.length = w
    · simpa only [full, if_true, ret_bind, next_leave, whole] using later
    · -- the entry has room left, so this was all of the data
      have partly : piece.length ≠ v.length := fun same => full (by rw [← same, whole])
      have last : totlen + w = datalen := by
        apply UInt64.toNat_inj.mp
        have less := UInt64.lt_iff_toNat_lt.mp more
        have bound := datalen.toNat_lt
        rw [UInt64.toNat_add, want, Nat.mod_eq_of_lt] <;> omega
      have spent : ¬ totlen + w < datalen := by rw [last]; exact UInt64.lt_irrefl _
      simp only [full, if_false, ret_bind, next_again]
      simpa only [head_loop, scatterRound, spent, if_false, pure_eq, head_ret, andThen_done,
        whole] using later
  · -- a round that goes on has taken bytes, because it waits for some
    intro s' round
    simp only [scatterRound, more, if_true, bind_eq, asked] at round
    by_cases none : w.toNat = 0
    · have nothing : v.length = 0 := by
        have less := UInt64.lt_iff_toNat_lt.mp more
        omega
      have zero : w = 0 := UInt64.toNat_inj.mp none
      rw [none, sandboxRpcRecv_zero wired] at round
      simp [store, nothing, zero] at round
    · obtain ⟨e, k, waits⟩ := sandboxRpcRecv_waits (f := _) wired (Nat.pos_of_ne_zero none)
      rw [waits] at round
      cases round

theorem feeds_scatter {datalen : UInt64} {fds : List Int} {rep : List Bytes}
    {data rest : Bytes} {f : Except Errno UInt64 × List Bytes → Prog α} {totlen : UInt64}
    (wired : fd ≠ -1 ∧ fd ≠ 0) (fits : ∀ v ∈ rep, v.length < 2 ^ 64)
    (room : data.length ≤ rep.flatten.length)
    (count : totlen.toNat + data.length = datalen.toNat)
    (later : Feeds fd (f (.ok datalen, fill rep data)).head rest h') :
    Feeds fd ((scatter fd datalen fds rep totlen).bind f).head (data ++ rest) h' := by
  induction rep generalizing data totlen f with
  | nil =>
    obtain rfl : data = [] := by simpa using room
    obtain rfl : totlen = datalen := UInt64.toNat_inj.mp (by simpa using count)
    exact later
  | cons v rep ih =>
    have fits' : v.length < 2 ^ 64 := fits v (by simp)
    simp only [scatter, bind_eq, iterate_bind, loop_bind]
    by_cases spent : totlen = datalen
    · -- nothing is left: the round leaves at once and so does the loop
      obtain rfl : data = [] := List.length_eq_zero_iff.mp (by rw [spent] at count; omega)
      simp only [head_loop, scatterRound, spent, UInt64.lt_irrefl, if_false, pure_eq, head_ret,
        andThen_done, if_true, ret_bind]
      simpa using later
    · have more : totlen < datalen := by
        have differ : totlen.toNat ≠ datalen.toNat := fun same => spent (UInt64.toNat_inj.mp same)
        rw [UInt64.lt_iff_toNat_lt]
        omega
      have size : (data.take v.length).length =
          min (datalen.toNat - totlen.toNat) v.length := by
        rw [List.length_take]
        omega
      have cut : data ++ rest = data.take v.length ++ (data.drop v.length ++ rest) := by
        rw [← List.append_assoc, List.take_append_drop]
      rw [cut]
      refine feeds_scatterEntry wired fits' more size ?_
      have bound := datalen.toNat_lt
      -- the count cannot wrap: it is bounded by `datalen`
      have advanced : (totlen + UInt64.ofNat (data.take v.length).length).toNat =
          totlen.toNat + (data.take v.length).length := by
        rw [UInt64.toNat_add, UInt64.toNat_ofNat', Nat.add_mod_mod, Nat.mod_eq_of_lt]
        rw [size]
        omega
      have tail : v.drop (data.take v.length).length = v.drop data.length := by
        rw [List.length_take]
        by_cases long : v.length ≤ data.length
        · rw [Nat.min_eq_left long, List.drop_length, List.drop_eq_nil_of_le long]
        · rw [Nat.min_eq_right (by omega)]
      have size' := List.length_drop (i := v.length) (l := data)
      rw [List.length_take] at advanced tail
      simp only [List.length_take, tail]
      -- the entry took the last byte, or it is full and the next entry goes on
      by_cases done : totlen + UInt64.ofNat (min v.length data.length) = datalen
      · have nothing : data.drop v.length = [] := by
          rw [← List.length_eq_zero_iff]
          rw [done] at advanced
          omega
        simpa [done, nothing, fill] using later
      · simp only [done, if_false, Proc.bind_assoc]
        refine ih (fun w mem => fits w (List.mem_cons_of_mem v mem)) ?_ ?_ ?_
        · rw [List.flatten_cons, List.length_append] at room
          omega
        · omega
        · simpa [fill] using later

end CheriGzip.Libsep
