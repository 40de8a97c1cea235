import CheriGzip.Gzip.Crc32
import CheriGzip.Libz.Transparent

/-!
# Shared memory and copying

With `GZ_SHMEM` the wrapper copies at most `buflen` bytes to the shared region, and passes on
the caller's counts. Whether the two ways agree is decided by how far zlib goes.
-/
namespace CheriGzip.Libz

variable {σ : Type} {E : Deflate σ} {abi : Abi} {place : Place} {shm : Shm} {strm : ZStream σ}
  {flush : Int} {mem : Mem}

/-! ## The shared regions -/

/-- The stream in the sandbox, with the pointers to the shared regions. -/
def Shm.moved (shm : Shm) (strm : ZStream σ) : ZStream σ :=
  { strm with nextIn := shm.inbuf.base, nextOut := shm.outbuf.base }

theorem Shm.fill_length (shm : Shm) {data : Bytes} (fits : data.length ≤ buflen) :
    (shm.fill data).bytes.length = buflen := by
  have inside : 0 + data.length ≤ shm.inbuf.bytes.length := by
    rw [shm.inbuf_length, Nat.zero_add]
    exact fits
  rw [Shm.fill, written_length inside, shm.inbuf_length]

/-- The region shows the input as far as it goes. -/
theorem Shm.shows (shm : Shm) (input : Bytes) :
    Shows (shm.fill (input.take (min input.length buflen))) 0 input := by
  have fits : (input.take (min input.length buflen)).length ≤ buflen := by
    rw [List.length_take]
    omega
  unfold Shows
  rw [shm.fill_length fits, Nat.sub_zero, List.drop_zero]
  simp only [Shm.fill, written, List.take_zero, List.nil_append, Nat.zero_add]
  by_cases short : input.length ≤ buflen
  · rw [Nat.min_eq_left short, List.take_length, List.take_left, List.take_of_length_le short]
  · -- The copy fills the region.
    have full : (input.take buflen).length = buflen := by
      rw [List.length_take]
      omega
    have behind : shm.inbuf.bytes.drop (input.take buflen).length = [] := by
      rw [full, ← shm.inbuf_length, List.drop_length]
    rw [Nat.min_eq_right (by omega), behind, List.append_nil, List.take_of_length_le (by omega)]

/-- Two places with pointers that are not `Z_NULL` make no difference. -/
theorem shm_effect (input : Bytes) :
    deflateEffect E (shm.moved strm) flush input =
      deflateEffect E (place.moved abi strm) flush input := by
  have same : refusal E (shm.moved strm) flush = refusal E (place.moved abi strm) flush := by
    by_cases refused : RefusedAnyway E strm flush
    · have here : RefusedAnyway E (shm.moved strm) flush := refused
      have there : RefusedAnyway E (place.moved abi strm) flush := refused
      rw [refusal_anyway here, refusal_anyway there]
    · have here : ¬ RefusedAnyway E (shm.moved strm) flush := refused
      have there : ¬ RefusedAnyway E (place.moved abi strm) flush := refused
      have pointers : ¬ ((shm.moved strm).nextOut = 0 ∨
          ((shm.moved strm).nextIn = 0 ∧ (shm.moved strm).availIn ≠ 0)) := by
        rintro (null | ⟨null, -⟩)
        · exact shm.outbuf_ne null
        · exact shm.inbuf_ne null
      have pointers' : ¬ ((place.moved abi strm).nextOut = 0 ∨
          ((place.moved abi strm).nextIn = 0 ∧ (place.moved abi strm).availIn ≠ 0)) := by
        have positive := place.buffer_pos
        rintro (null | ⟨null, -⟩)
        · exact place.malloc_ne null
        · simp only [Place.moved] at null
          omega
      rw [refusal_pointers here, refusal_pointers there, if_neg pointers, if_neg pointers']
      rfl
  unfold deflateEffect
  rw [same]
  rfl

/-! ## One call of deflate -/

/-- Two answers with the same value, the same stream and the same bytes between the caller's
`next_out` and the new one; or both no answer, without an access outside of the regions. -/
inductive SameAnswer (nextOut : Int) : Answer σ → Answer σ → Prop where
  | err : SameAnswer nextOut (.error .err) (.error .err)
  | ok (ret : Int) (strm : ZStream σ) {mem mem' : Mem}
      (produced : mem.output.bytes.take (strm.nextOut - nextOut).toNat =
        mem'.output.bytes.take (strm.nextOut - nextOut).toNat) :
      SameAnswer nextOut (.ok (ret, strm, mem)) (.ok (ret, strm, mem'))

theorem SameAnswer.inside {nextOut : Int} {a b : Answer σ} (same : SameAnswer nextOut a b) :
    b ≠ .error .outside := by
  cases same <;> nofun

/-- zlib takes and makes no more than a region holds. -/
def Effect.Small (e : Effect σ) : Prop := e.consumed ≤ buflen ∧ e.produced.length ≤ buflen

theorem shm_at (owns : Owns mem strm) (readable : strm.nextIn = 0 → strm.availIn = 0) :
    At (shm.moved strm)
      ⟨shm.fill (mem.input.bytes.take (min mem.input.bytes.length buflen)), shm.outbuf⟩ 0 0
      mem.input.bytes where
  length := (owns.at readable).length
  nextIn := (Int.add_zero _).symm
  nextOut := (Int.add_zero _).symm
  insideIn := Nat.zero_le _
  insideOut := Nat.zero_le _
  shows := shm.shows mem.input.bytes

theorem shm_fits (e : Effect σ) (data : Bytes) (fits : data.length ≤ buflen) :
    e.Fits ⟨shm.fill data, shm.outbuf⟩ 0 0 ↔ e.Small := by
  simp only [Effect.Fits, Effect.Small, shm.fill_length fits, shm.outbuf_length, Nat.zero_add]

/-- The bytes that are copied to the region. -/
theorem shm_load (owns : Owns mem strm) (readable : strm.nextIn = 0 → strm.availIn = 0) :
    mem.input.load strm.nextIn (min strm.availIn buflen) =
      some (mem.input.bytes.take (min mem.input.bytes.length buflen)) := by
  have length := (owns.at readable).length
  have loaded := mem.input.load_base (k := 0) (Nat.zero_le _) (min strm.availIn buflen)
  rw [if_pos (by omega), List.drop_zero] at loaded
  rw [← owns.inBase, length]
  simpa using loaded

/-- The produced bytes are the first in what was written. -/
theorem written_take {bytes p : Bytes} : (written bytes 0 p).take p.length = p := by
  simp [written]

/-- The copy from the region to the caller's buffer. -/
theorem shm_store (owns : Owns mem strm) (writable : strm.nextOut = 0 → strm.availOut = 0)
    {bytes : Bytes} (length : bytes.length = buflen) :
    mem.output.store strm.nextOut (bytes.take (min strm.availOut buflen)) =
      some ⟨mem.output.base, written mem.output.bytes 0 (bytes.take (min strm.availOut buflen))⟩ := by
  have room : mem.output.bytes.length = strm.availOut := by
    rw [owns.output]
    split
    next null => exact (writable null).symm
    · rfl
  have count : (bytes.take (min strm.availOut buflen)).length = min strm.availOut buflen := by
    rw [List.length_take, length]
    omega
  have stored := mem.output.store_base (k := 0) (Nat.zero_le _)
    (bytes.take (min strm.availOut buflen))
  have start : mem.output.base + ((0 : Nat) : Int) = strm.nextOut := by
    rw [← owns.outBase]
    exact Int.add_zero _
  rw [if_pos (by omega), start] at stored
  exact stored

/-- What the caller finds in its buffer. -/
theorem shm_produced {outbuf bytes p : Bytes} {n : Nat} (within : p.length ≤ n) :
    (written bytes 0 ((written outbuf 0 p).take n)).take p.length = p := by
  have most : p.length ≤ (written outbuf 0 p).length := by
    simp only [written, List.length_append]
    omega
  have first : p.length ≤ ((written outbuf 0 p).take n).length := by
    rw [List.length_take]
    omega
  have whole : (written bytes 0 ((written outbuf 0 p).take n)).take p.length =
      ((written outbuf 0 p).take n).take p.length := by
    rw [written, List.take_zero, List.nil_append, List.take_append_of_le_length first]
  rw [whole, List.take_take, Nat.min_eq_left within, written_take]

/-- The reply comes back: the pointers are taken from the regions to the caller's buffers. -/
theorem shm_answer (owns : Owns mem strm) (takes : TakesReply place strm) {e : Effect σ}
    (small : e.Small) {data : Bytes}
    (loaded : mem.input.load strm.nextIn (min strm.availIn buflen) = some data)
    (ran : zlibDeflate E { strm with nextIn := shm.inbuf.base, nextOut := shm.outbuf.base } flush
      ⟨shm.fill data, shm.outbuf⟩ = some (e.ret, e.strm (shm.moved strm),
        Mem.put ⟨shm.fill data, shm.outbuf⟩ 0 e.produced)) :
    lzDeflateShmem E abi place shm strm flush mem = .ok (e.ret, e.strm strm,
      { mem with output := ⟨mem.output.base, written mem.output.bytes 0
        ((written shm.outbuf.bytes 0 e.produced).take (min strm.availOut buflen))⟩ }) := by
  obtain ⟨repsz, -, writable⟩ := takes
  have length : (written shm.outbuf.bytes 0 e.produced).length = buflen := by
    have inside : 0 + e.produced.length ≤ shm.outbuf.bytes.length := by
      rw [shm.outbuf_length, Nat.zero_add]
      exact small.2
    rw [written_length inside, shm.outbuf_length]
  have stored := shm_store owns writable length
  have count : ¬ UInt64.ofNat abi.sizeofRep ≠ place.repsz + UInt64.ofNat abi.sizeofRep := by
    rw [repsz, UInt64.zero_add]
    exact fun differs => differs rfl
  have back (base q : Int) (n : Nat) : base + n - base + q = q + n := by omega
  unfold lzDeflateShmem
  simp only [loaded, ran, Mem.put, if_neg count, stored, Effect.strm, Shm.moved, back]

/-- A reply that is not taken in does not come back either way. -/
theorem shm_lost (owns : Owns mem strm) (readable : strm.nextIn = 0 → strm.availIn = 0)
    (lost : ¬ TakesReply place strm) {e : Effect σ} (small : e.Small) {data : Bytes}
    (loaded : mem.input.load strm.nextIn (min strm.availIn buflen) = some data)
    (ran : zlibDeflate E { strm with nextIn := shm.inbuf.base, nextOut := shm.outbuf.base } flush
      ⟨shm.fill data, shm.outbuf⟩ = some (e.ret, e.strm (shm.moved strm),
        Mem.put ⟨shm.fill data, shm.outbuf⟩ 0 e.produced)) :
    lzDeflateShmem E abi place shm strm flush mem = .error .err := by
  unfold lzDeflateShmem
  simp only [loaded, ran, Mem.put]
  by_cases repsz : place.repsz = 0
  · -- `next_out` is `Z_NULL` with room behind it, and `memcpy` faults.
    have writable : ¬ (strm.nextOut = 0 → strm.availOut = 0) :=
      fun writable => lost ⟨repsz, readable, writable⟩
    obtain ⟨null, some⟩ := Classical.not_imp.mp writable
    have empty := owns.output
    rw [if_pos null] at empty
    have inside : 0 + e.produced.length ≤ shm.outbuf.bytes.length := by
      rw [shm.outbuf_length, Nat.zero_add]
      exact small.2
    have count : ((written shm.outbuf.bytes 0 e.produced).take (min strm.availOut buflen)).length =
        min strm.availOut buflen := by
      rw [List.length_take, written_length inside, shm.outbuf_length]
      omega
    have positive : 0 < min strm.availOut buflen := by
      unfold buflen
      omega
    have stored : mem.output.store strm.nextOut
        ((written shm.outbuf.bytes 0 e.produced).take (min strm.availOut buflen)) = none := by
      have outside := mem.output.store_base (k := 0) (Nat.zero_le _)
        ((written shm.outbuf.bytes 0 e.produced).take (min strm.availOut buflen))
      rw [if_neg (by omega)] at outside
      rw [← owns.outBase]
      simpa using outside
    simp only [stored, ite_self]
  · have count : UInt64.ofNat abi.sizeofRep ≠ place.repsz + UInt64.ofNat abi.sizeofRep := by
      intro same
      exact repsz (UInt64.right_eq_add.mp same)
    rw [if_pos count]

/-- With an input at the pointer, the two ways agree exactly when zlib keeps small. -/
theorem shmem_readable (owns : Owns mem strm) (readable : strm.nextIn = 0 → strm.availIn = 0) :
    SameAnswer strm.nextOut (lzDeflateInsandbox E abi place strm flush mem)
        (lzDeflateShmem E abi place shm strm flush mem) ↔
      (sandboxEffect E abi place strm flush mem).Small := by
  obtain ⟨e, isE⟩ : ∃ e, e = sandboxEffect E abi place strm flush mem := ⟨_, rfl⟩
  have same : deflateEffect E (shm.moved strm) flush mem.input.bytes = e := by
    rw [isE]
    exact shm_effect mem.input.bytes
  obtain ⟨data, isData⟩ : ∃ data, data = mem.input.bytes.take (min mem.input.bytes.length buflen) :=
    ⟨_, rfl⟩
  have short : data.length ≤ buflen := by
    rw [isData, List.length_take]
    omega
  have loaded := shm_load owns readable
  have here : At (shm.moved strm) ⟨shm.fill data, shm.outbuf⟩ 0 0 mem.input.bytes := by
    rw [isData]
    exact shm_at owns readable
  rw [← isData] at loaded
  rw [← isE]
  by_cases small : e.Small
  · -- zlib stays inside of both buffers.
    have fits : e.Fits ⟨shm.fill data, shm.outbuf⟩ 0 0 := (shm_fits e data short).mpr small
    have ran : zlibDeflate E { strm with nextIn := shm.inbuf.base, nextOut := shm.outbuf.base }
        flush ⟨shm.fill data, shm.outbuf⟩ = some (e.ret, e.strm (shm.moved strm),
          Mem.put ⟨shm.fill data, shm.outbuf⟩ 0 e.produced) := by
      rw [← same] at fits ⊢
      exact zlibDeflate_fits here fits
    refine ⟨fun _ => small, fun _ => ?_⟩
    by_cases takes : TakesReply place strm
    · have bounds := deflateEffect_bounds E (place.moved abi strm) flush mem.input.bytes
      have made : e.produced.length ≤ min strm.availOut buflen := by
        rw [isE]
        rw [isE] at small
        exact Nat.le_min.mpr ⟨bounds.2, small.2⟩
      rw [lzDeflateInsandbox_ok owns takes, ← isE, shm_answer owns takes small loaded ran]
      apply SameAnswer.ok
      have moved : ((e.strm strm).nextOut - strm.nextOut).toNat = e.produced.length := by
        simp only [Effect.strm]
        omega
      simp only [moved, sentBack, ← isE]
      rw [written_take, shm_produced made]
    · -- Neither way gets its reply.
      rw [lzDeflateInsandbox_error owns takes, shm_lost owns readable takes small loaded ran]
      exact SameAnswer.err
  · -- zlib would leave a buffer, and the call over shared memory faults.
    have outside : ¬ e.Fits ⟨shm.fill data, shm.outbuf⟩ 0 0 := mt (shm_fits e data short).mp small
    have ran : zlibDeflate E { strm with nextIn := shm.inbuf.base, nextOut := shm.outbuf.base }
        flush ⟨shm.fill data, shm.outbuf⟩ = none := by
      apply zlibDeflate_outside here
      rw [same]
      exact outside
    unfold lzDeflateShmem
    simp only [loaded, ran]
    constructor
    · intro answers
      exact absurd rfl answers.inside
    · intro small'
      exact absurd small' small

/-- Without an input at `Z_NULL` neither way reaches zlib. -/
theorem shmem_unreadable (owns : Owns mem strm) (null : strm.nextIn = 0)
    (some : strm.availIn ≠ 0) :
    SameAnswer strm.nextOut (lzDeflateInsandbox E abi place strm flush mem)
      (lzDeflateShmem E abi place shm strm flush mem) := by
  have lost : ¬ TakesReply place strm := fun takes => some (takes.2.1 null)
  have empty := owns.input
  rw [if_pos null] at empty
  have positive : 0 < min strm.availIn buflen := by
    unfold buflen
    omega
  have loaded : mem.input.load strm.nextIn (min strm.availIn buflen) = none := by
    have outside := mem.input.load_base (k := 0) (Nat.zero_le _) (min strm.availIn buflen)
    rw [if_neg (by omega)] at outside
    rw [← owns.inBase]
    simpa using outside
  have faults : lzDeflateShmem E abi place shm strm flush mem = .error .err := by
    unfold lzDeflateShmem
    simp only [loaded]
  rw [lzDeflateInsandbox_error owns lost, faults]
  exact SameAnswer.err

/-- When `GZ_SHMEM` makes no difference to a call of `deflate_wrapper`. -/
def ShmemSmall (E : Deflate σ) (abi : Abi) (place : Place) (strm : ZStream σ) (flush : Int)
    (mem : Mem) : Prop :=
  (strm.nextIn = 0 ∧ strm.availIn ≠ 0) ∨ (sandboxEffect E abi place strm flush mem).Small

theorem shmem_iff (owns : Owns mem strm) :
    SameAnswer strm.nextOut (deflateWrapper E abi place strm flush mem)
        (lzDeflateShmem E abi place shm strm flush mem) ↔
      ShmemSmall E abi place strm flush mem := by
  unfold ShmemSmall deflateWrapper
  by_cases readable : strm.nextIn = 0 → strm.availIn = 0
  · rw [shmem_readable owns readable]
    constructor
    · exact Or.inr
    · rintro (⟨null, some⟩ | small)
      · exact absurd (readable null) some
      · exact small
  · obtain ⟨null, some⟩ := Classical.not_imp.mp readable
    exact ⟨fun _ => .inl ⟨null, some⟩, fun _ => shmem_unreadable owns null some⟩

/-! ## One call of crc32 -/

/-- A call of `crc32`, with what lies at `buf`: nothing at `Z_NULL`, else `len` bytes. -/
structure Crc32Call where
  crc : UInt64
  buf : Int
  len : Nat
  caller : Region
  base : caller.base = buf
  length : caller.bytes.length = if buf = 0 then 0 else len

section

variable (crc32 : UInt64 → Bytes → UInt64) (call : Crc32Call)

/-- Both ways of a call that has its bytes. -/
theorem crc32_readable (readable : call.buf = 0 → call.len = 0) :
    crc32Wrapper crc32 call.caller call.crc call.buf call.len =
        .ok (crc32 call.crc call.caller.bytes) ∧
      crc32Shmem crc32 shm call.caller call.crc call.buf call.len =
        if call.len ≤ buflen then .ok (crc32 call.crc call.caller.bytes)
        else .error .outside := by
  obtain ⟨crc, buf, len, caller, base, size⟩ := call
  simp only at readable ⊢
  have length : caller.bytes.length = len := by
    rw [size]
    split
    next null => exact (readable null).symm
    · rfl
  have whole : caller.load buf len = some caller.bytes := by
    rw [← base, ← length]
    exact caller.load_whole
  have copied : caller.load buf (min len buflen) = some (caller.bytes.take (min len buflen)) := by
    have loaded := caller.load_base (k := 0) (Nat.zero_le _) (min len buflen)
    rw [if_pos (by omega), List.drop_zero] at loaded
    rw [← base]
    simpa using loaded
  have filled : (shm.fill (caller.bytes.take (min len buflen))).bytes.length = buflen := by
    apply shm.fill_length
    rw [List.length_take]
    omega
  -- The region shows the bytes that were copied in, and its own behind them.
  have shown : Shows (shm.fill (caller.bytes.take (min len buflen))) 0 caller.bytes := by
    have shows := shm.shows caller.bytes
    rwa [length] at shows
  have there := (shm.fill (caller.bytes.take (min len buflen))).load_base (k := 0)
    (Nat.zero_le _) len
  have start : (shm.fill (caller.bytes.take (min len buflen))).base + ((0 : Nat) : Int) =
      shm.inbuf.base := Int.add_zero _
  rw [filled, Nat.zero_add, start] at there
  -- The wrapper looks at the caller's memory, the other way only at the region.
  constructor
  · simp only [crc32Wrapper, whole]
  · simp only [crc32Shmem, copied, there]
    by_cases small : len ≤ buflen
    · -- The region shows all `len` bytes.
      have same := shown.take (Nat.le_of_eq length.symm) (by rw [filled, Nat.zero_add]; exact small)
      have all : caller.bytes.take len = caller.bytes := by
        rw [← length, List.take_length]
      rw [if_pos small, if_pos small]
      simp only [same, all]
    · rw [if_neg small, if_neg small]

/-- `memcpy` from `Z_NULL`, or `lch_rpc` with an iovec there. -/
theorem crc32_unreadable (null : call.buf = 0) (some : call.len ≠ 0) :
    crc32Wrapper crc32 call.caller call.crc call.buf call.len = .error .err ∧
      crc32Shmem crc32 shm call.caller call.crc call.buf call.len = .error .err := by
  obtain ⟨crc, buf, len, caller, base, size⟩ := call
  simp only at null some ⊢
  rw [if_pos null] at size
  have missing (n : Nat) (positive : 0 < n) : caller.load buf n = none := by
    have outside := caller.load_base (k := 0) (Nat.zero_le _) n
    rw [if_neg (by omega)] at outside
    rw [← base]
    simpa using outside
  have positive : 0 < min len buflen := by
    unfold buflen
    omega
  constructor
  · simp only [crc32Wrapper, missing len (by omega)]
  · simp only [crc32Shmem, missing _ positive]

theorem crc32Shmem_iff :
    crc32Shmem crc32 shm call.caller call.crc call.buf call.len =
        crc32Wrapper crc32 call.caller call.crc call.buf call.len ↔
      (call.buf = 0 ∧ call.len ≠ 0) ∨ call.len ≤ buflen := by
  by_cases readable : call.buf = 0 → call.len = 0
  · obtain ⟨copying, sharing⟩ := @crc32_readable shm crc32 call readable
    rw [copying, sharing]
    constructor
    · intro same
      by_cases small : call.len ≤ buflen
      · exact .inr small
      · rw [if_neg small] at same
        cases same
    · rintro (⟨null, some⟩ | small)
      · exact absurd (readable null) some
      · rw [if_pos small]
  · obtain ⟨null, some⟩ := Classical.not_imp.mp readable
    obtain ⟨copying, sharing⟩ := @crc32_unreadable shm crc32 call null some
    rw [copying, sharing]
    exact ⟨fun _ => .inl ⟨null, some⟩, fun _ => rfl⟩

end

/-! ## Both -/

/-- `GZ_SHMEM` makes no difference to `deflate_wrapper` if and only if zlib neither takes nor
makes more than `buflen` bytes, and none to `crc32_wrapper` if and only if `len` is at most
`buflen`; a call with its input at `Z_NULL` comes back neither way. -/
theorem shmem_agrees_iff (E : Deflate σ) (abi : Abi) (shm : Shm) (strm : ZStream σ) (call : Call)
    (crc32 : UInt64 → Bytes → UInt64) (sum : Crc32Call) :
    (SameAnswer call.nextOut
        (deflateWrapper E abi call.place (call.passed strm) call.flush call.mem)
        (lzDeflateShmem E abi call.place shm (call.passed strm) call.flush call.mem) ↔
      ShmemSmall E abi call.place (call.passed strm) call.flush call.mem) ∧
    (crc32Shmem crc32 shm sum.caller sum.crc sum.buf sum.len =
        crc32Wrapper crc32 sum.caller sum.crc sum.buf sum.len ↔
      (sum.buf = 0 ∧ sum.len ≠ 0) ∨ sum.len ≤ buflen) :=
  ⟨shmem_iff (call.owns strm), crc32Shmem_iff crc32 sum⟩

/-- Calls with counters of at most `buflen` are small. -/
theorem ShmemSmall.of_counters (availIn : strm.availIn ≤ buflen)
    (availOut : strm.availOut ≤ buflen) :
    ShmemSmall E abi place strm flush mem := by
  have bounds := deflateEffect_bounds E (place.moved abi strm) flush mem.input.bytes
  exact .inr ⟨Nat.le_trans bounds.1 availIn, Nat.le_trans bounds.2 availOut⟩

/-- One byte more than a region holds. -/
def Crc32Call.long : Crc32Call where
  crc := 0
  buf := 1000
  len := 65537
  caller := ⟨1000, List.replicate 65537 0⟩
  base := rfl
  length := List.length_replicate

/-- Two regions of zeros. -/
def Shm.zeros : Shm where
  inbuf := ⟨100000, List.replicate buflen 0⟩
  outbuf := ⟨200000, List.replicate buflen 0⟩
  inbuf_length := List.length_replicate
  outbuf_length := List.length_replicate
  inbuf_ne := by decide
  outbuf_ne := by decide

/-- `zlib_crc32` on what the two ways hand to it. -/
def zlibCrc32 (crc : UInt64) (data : Bytes) : UInt64 :=
  (Gzip.crc32 crc.toUInt32 data).toUInt64

/-- The sandbox reads a byte behind its region. -/
theorem long_outside :
    crc32Wrapper zlibCrc32 Crc32Call.long.caller 0 1000 65537 =
        .ok (zlibCrc32 0 Crc32Call.long.caller.bytes) ∧
      crc32Shmem zlibCrc32 Shm.zeros Crc32Call.long.caller 0 1000 65537 = .error .outside := by
  obtain ⟨copying, sharing⟩ := @crc32_readable Shm.zeros zlibCrc32 Crc32Call.long (by decide)
  refine ⟨copying, sharing.trans ?_⟩
  rw [if_neg (by decide)]

end CheriGzip.Libz
