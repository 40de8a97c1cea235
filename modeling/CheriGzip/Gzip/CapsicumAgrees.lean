import CheriGzip.Gzip.Capsicum

/-!
# The wrappers against the codecs

What goes into a request comes out of it, and so does a reply. The wrapper of `gz_compress` is
the codec, and that of `gz_uncompress` is as long as nothing was read before.
-/
namespace CheriGzip.Gzip.Capsicum

open Libcheri (Globals System)

variable {σ τ : Type} {forked : Globals}

/-! ## Round trips -/

theorem strlcpy_length (name : Path) : (strlcpy name).length = pathMax := by
  rw [strlcpy, List.length_append, List.length_take, List.length_replicate]
  unfold pathMax
  omega

theorem cstring_strlcpy (name : CName) : cstring (strlcpy name.bytes) = name.bytes := by
  have short := name.short
  have whole : name.bytes.take (pathMax - 1) = name.bytes :=
    List.take_of_length_le (by omega)
  have some : 0 < pathMax - min (pathMax - 1) name.bytes.length := by omega
  obtain ⟨zeros, isZeros⟩ : ∃ k, pathMax - min (pathMax - 1) name.bytes.length = k + 1 :=
    ⟨_, (Nat.succ_pred_eq_of_pos some).symm⟩
  have plain : ∀ b ∈ name.bytes, (decide (b ≠ 0)) = true := by
    intro b inside
    apply decide_eq_true
    rintro rfl
    exact name.text inside
  rw [cstring, strlcpy, whole, isZeros, List.takeWhile_append_of_pos plain, List.replicate_succ,
    List.takeWhile_cons_of_neg (by decide), List.append_nil]

theorem ofOffTBytes_offTBytes (x : Int) : ofOffTBytes (offTBytes x) = offT x := by
  have small : (x % 2 ^ 64).toNat < 256 ^ 8 := by omega
  have value : ((x % 2 ^ 64).toNat : Int) = x % 2 ^ 64 := by omega
  rw [ofOffTBytes, offTBytes, ofLe_le, Nat.mod_eq_of_lt small, value, offT, offT]
  exact Int.emod_bmod x (2 ^ 64)

theorem Rep.encode_length (rep : Rep) : rep.encode.length = Rep.size := by
  rw [Rep.encode, List.length_append, offTBytes, offTBytes, le_length, le_length]
  rfl

theorem Rep.decode_encode (rep : Rep) :
    Rep.decode rep.encode = ⟨offT rep.gsize, offT rep.retval⟩ := by
  have size (x : Int) : (offTBytes x).length = 8 := le_length 8 _
  have gsize : slice rep.encode 0 8 = offTBytes rep.gsize := slice_first (size _)
  have retval : slice rep.encode 8 8 = offTBytes rep.retval := slice_last (size _) (size _)
  rw [Rep.decode, gsize, retval, ofOffTBytes_offTBytes, ofOffTBytes_offTBytes]

theorem CompressReq.encode_length (req : CompressReq) : req.encode.length = CompressReq.size := by
  rw [CompressReq.encode, List.length_append, List.length_append, strlcpy_length, le_length,
    le_length]
  rfl

theorem CompressReq.decode_encode (origname : CName) {level : Nat} (fits : level < 2 ^ 32)
    (mtime : UInt32) :
    CompressReq.decode (CompressReq.encode ⟨origname.bytes, level, mtime⟩) =
      ⟨origname.bytes, level, mtime⟩ := by
  have name := strlcpy_length origname.bytes
  have whole : CompressReq.encode ⟨origname.bytes, level, mtime⟩ =
      strlcpy origname.bytes ++ (le 4 level ++ le 4 mtime.toNat) := List.append_assoc _ _ _
  have both : (strlcpy origname.bytes ++ le 4 level).length = pathMax + 4 := by
    rw [List.length_append, name, le_length]
  have level' : level < 256 ^ 4 := fits
  have small : mtime.toNat < 256 ^ 4 := mtime.toNat_lt
  rw [CompressReq.decode, whole, slice_first name, slice_field name (le_length 4 _),
    ← List.append_assoc, slice_last both (le_length 4 _), cstring_strlcpy, ofLe_le, ofLe_le,
    Nat.mod_eq_of_lt level', Nat.mod_eq_of_lt small, UInt32.ofNat_toNat]

theorem UncompressReq.encode_length (req : UncompressReq) :
    req.encode.length = UncompressReq.size := by
  rw [UncompressReq.encode, List.length_append, strlcpy_length, le_length]
  rfl

theorem UncompressReq.decode_encode (filename : CName) {prelen : Nat} (fits : prelen < 2 ^ 64) :
    UncompressReq.decode (UncompressReq.encode ⟨prelen, filename.bytes⟩) =
      ⟨prelen, filename.bytes⟩ := by
  have size : (le 8 prelen).length = 8 := le_length 8 _
  have prelen' : prelen < 256 ^ 8 := fits
  have whole : UncompressReq.encode ⟨prelen, filename.bytes⟩ =
      le 8 prelen ++ strlcpy filename.bytes := rfl
  rw [UncompressReq.decode, whole, slice_first size, slice_last size (strlcpy_length _),
    cstring_strlcpy, ofLe_le, Nat.mod_eq_of_lt prelen']

/-! ## The codecs behind the wrappers -/

/-- A wrapper ends as the codec does: with the codec's values as `off_t`s, or by `exit`. The
descriptors and the warnings are as the codec leaves them. -/
inductive Mirrors (w : World) : Ran Result → End → Prop where
  | returns (r : Result) {w' w'' : World} (twin : WTwin w' w'')
      (kept : w''.exitValue = w.exitValue) :
      Mirrors w (.returns r w') (.returns ⟨offT r.retval, offT r.gsize⟩ w'')
  | exits (status : Nat) {w' w'' : World} (twin : WTwin w' w'') :
      Mirrors w (.exits status w') (.exits 255 w'')

/-- The results of `gz_compress` for its caller. -/
def compressResult (r : CResult) : Result := ⟨r.inTot, r.outTot⟩

def uncompressResult (r : UResult τ) : Result := ⟨r.outTot, r.gsize⟩

/-- What the host makes of an answer. -/
def Answer.ended : Answer forked → End
  | .sends rep _ w =>
    if rep.length ≠ Rep.size then .exits 255 w
    else .returns ⟨(Rep.decode rep).retval, (Rep.decode rep).gsize⟩ w
  | .exits _ w => .exits 255 w
  | .outside => .outside

theorem rpc_ended (sys : System σ τ) (sandbox : Sandbox forked) (op : Op) (req : List Bytes)
    (reqcount : Nat) (w : World) (fuel : Nat) :
    (rpc sys sandbox op req reqcount w fuel).1 =
      (gzsandbox sys sandbox op (req.take reqcount).flatten w fuel).map Answer.ended := by
  unfold rpc
  cases gzsandbox sys sandbox op (req.take reqcount).flatten w fuel with
  | none => rfl
  | some answer =>
    cases answer with
    | sends rep sandbox w =>
      by_cases short : rep.length ≠ Rep.size
      · simp only [Option.map_some, Answer.ended, if_pos short]
      · simp only [Option.map_some, Answer.ended, if_neg short]
    | exits status w => rfl
    | outside => rfl

/-- The codec in the sandbox ended as the codec in the host would have. -/
theorem answer_mirrors {α : Type} (result : α → Result) (sandbox : Sandbox forked) (w : World)
    {ran ran' : Option (Ran α)} (twins : Option.Rel Ran.Twin ran ran') :
    Option.Rel (Mirrors w) (ran.map (Ran.map result))
      ((ran'.map fun ran => sandbox.answer w
        (ran.map fun a => ⟨(result a).gsize, (result a).retval⟩)).map Answer.ended) := by
  cases twins with
  | none => exact .none
  | some twin =>
    refine .some ?_
    cases twin with
    | exits status twin =>
      obtain ⟨e⟩ := twin
      exact .exits status ⟨w.exitValue⟩
    | returns a twin =>
      obtain ⟨e⟩ := twin
      have whole : ¬ (Rep.encode ⟨(result a).gsize, (result a).retval⟩).length ≠ Rep.size :=
        not_not_intro (Rep.encode_length _)
      simp only [Ran.map, Sandbox.answer, Answer.ended, if_neg whole, Rep.decode_encode]
      exact .returns (result a) ⟨w.exitValue⟩ rfl

section

variable {sys : System σ τ} {calls : Calls}

theorem gzsandboxInitialize_some (succeed : calls.Succeed) (host : Host) (w : World) :
    ∃ sandbox, gzsandboxInitialize calls host w = some sandbox := by
  unfold gzsandboxInitialize
  cases host.sandbox with
  | some sandbox => exact ⟨sandbox, rfl⟩
  | none =>
    have started := succeed.lchStartfn
    rw [if_neg (by omega)]
    exact ⟨_, rfl⟩

theorem capNew_works (succeed : calls.Succeed) :
    ¬ (calls.capNew .infd = -1 ∨ calls.capNew .outfd = -1) := by
  rintro (failed | failed)
  · exact succeed.capNew _ failed
  · exact succeed.capNew _ failed

/-- `gz_compress_wrapper` is `gz_compress`. -/
theorem gzCompressWrapper_mirrors (succeed : calls.Succeed) (host : Host)
    (fits : host.globals.numflag < 2 ^ 31) (origname : CName) (mtime : UInt32) (w : World)
    (fuel : Nat) :
    Option.Rel (Mirrors w)
      ((gzCompress (sys.compress host.globals) origname.bytes mtime w fuel).map
        (Ran.map compressResult))
      (gzCompressWrapper sys calls host origname.bytes mtime w fuel).1 := by
  obtain ⟨sandbox, initialized⟩ := gzsandboxInitialize_some succeed host w
  have sent : CompressReq.encode ⟨origname.bytes, host.globals.numflag, mtime⟩ ++ [] =
      CompressReq.encode ⟨origname.bytes, host.globals.numflag, mtime⟩ := List.append_nil _
  have whole : ¬ (CompressReq.encode ⟨origname.bytes, host.globals.numflag, mtime⟩).length ≠
      CompressReq.size := not_not_intro (CompressReq.encode_length _)
  have taken := CompressReq.decode_encode origname (by omega : host.globals.numflag < 2 ^ 32) mtime
  have twins := @gzCompress_exit σ (sys.compress host.globals) origname.bytes mtime w
    sandbox.exitValue fuel
  unfold gzCompressWrapper
  simp only [initialized, gzCompressInsandbox, if_neg (capNew_works succeed), rpc_ended, gzsandbox,
    sandboxGzCompressBuffer, List.take_succ_cons, List.take_zero, List.flatten_cons,
    List.flatten_nil, sent, if_neg whole, taken]
  exact answer_mirrors compressResult _ w twins

/-- `gz_uncompress` with bytes of a prefix that it does not look at. -/
theorem gzUncompress_unread {cfg : UConfig τ} {pre : Bytes} (w : World) (fuel : Nat)
    (unread : pre.length % 2 ^ 32 = 0 ∨ cfg.env.mallocs = false) :
    gzUncompress cfg pre w fuel = gzUncompress cfg (List.replicate pre.length 0) w fuel := by
  unfold gzUncompress
  by_cases mallocs : cfg.env.mallocs = false
  · rw [if_pos mallocs, if_pos mallocs]
  · have none : pre.length % 2 ^ 32 = 0 := unread.resolve_right mallocs
    have same : uncompressStart cfg pre w = uncompressStart cfg (List.replicate pre.length 0) w := by
      unfold uncompressStart
      rw [List.length_replicate, none, List.take_zero, List.take_zero]
    rw [if_neg mallocs, if_neg mallocs, same]

/-- What `gz_uncompress_wrapper` makes of a request. -/
theorem gzUncompressWrapper_ended (succeed : calls.Succeed) (host : Host) {pre : Bytes}
    (size : pre.length < 2 ^ 64) (filename : CName) (w : World) (fuel : Nat) :
    ∃ sandbox : Sandbox host.globals,
      (gzUncompressWrapper sys calls host pre filename.bytes w fuel).1 =
        if sys.env.mallocs = true ∧ pre.length % 2 ^ 32 ≠ 0 then some .outside
        else
          ((gzUncompress (sys.uncompress sandbox.globals (shown filename.bytes))
            (List.replicate pre.length 0) (sandbox.world w) fuel).map fun ran =>
              sandbox.answer w (ran.map fun r => ⟨r.gsize, r.outTot⟩)).map Answer.ended := by
  obtain ⟨sandbox, initialized⟩ := gzsandboxInitialize_some succeed host w
  have sent : UncompressReq.encode ⟨pre.length, filename.bytes⟩ ++ [] =
      UncompressReq.encode ⟨pre.length, filename.bytes⟩ := List.append_nil _
  have whole : ¬ (UncompressReq.encode ⟨pre.length, filename.bytes⟩).length ≠
      UncompressReq.size := not_not_intro (UncompressReq.encode_length _)
  have taken := UncompressReq.decode_encode filename size
  refine ⟨sandbox, ?_⟩
  unfold gzUncompressWrapper
  simp only [initialized, gzUncompressInsandbox, if_neg (capNew_works succeed), rpc_ended, gzsandbox,
    sandboxGzUncompressBuffer, List.take_succ_cons, List.take_zero, List.flatten_cons,
    List.flatten_nil, sent, if_neg whole, taken]
  split
  · rfl
  · rfl

/-- `gz_uncompress_wrapper` is `gz_uncompress`, as long as nothing of a prefix is read. -/
theorem gzUncompressWrapper_mirrors (succeed : calls.Succeed) (host : Host) {pre : Bytes}
    (size : pre.length < 2 ^ 64) (filename : CName) (w : World) (fuel : Nat)
    (unread : pre.length % 2 ^ 32 = 0 ∨ sys.env.mallocs = false) :
    Option.Rel (Mirrors w)
      ((gzUncompress (sys.uncompress host.globals (shown filename.bytes)) pre w fuel).map
        (Ran.map uncompressResult))
      (gzUncompressWrapper sys calls host pre filename.bytes w fuel).1 := by
  obtain ⟨sandbox, ended⟩ := gzUncompressWrapper_ended succeed host size filename w fuel
  have inside : ¬ (sys.env.mallocs = true ∧ pre.length % 2 ^ 32 ≠ 0) := by
    rintro ⟨mallocs, some⟩
    rcases unread with none | failing
    · exact some none
    · rw [mallocs] at failing
      cases failing
  rw [ended, if_neg inside, gzUncompress_unread w fuel unread]
  have twins := @gzUncompress_exit τ (sys.uncompress host.globals (shown filename.bytes))
    (List.replicate pre.length 0) w sandbox.exitValue fuel
  exact answer_mirrors uncompressResult sandbox w twins

end

/-! ## Transparency -/

/-- A call of one of the codecs, with what its C types allow. -/
inductive Call where
  | compress (origname : CName) (mtime : UInt32)
  | uncompress (pre : Bytes) (size : pre.length < 2 ^ 64) (filename : CName)

/-- The values are `off_t`s. -/
def Result.wrap (r : Result) : Result := ⟨offT r.retval, offT r.gsize⟩

/-- The call of the codec itself. -/
def Call.direct (sys : System σ τ) (globals : Globals) (w : World) (fuel : Nat) :
    Call → Option (Ran Result)
  | .compress origname mtime =>
    (gzCompress (sys.compress globals) origname.bytes mtime w fuel).map
      (Ran.map fun r => (compressResult r).wrap)
  | .uncompress pre _ filename =>
    (gzUncompress (sys.uncompress globals (shown filename.bytes)) pre w fuel).map
      (Ran.map fun r => (uncompressResult r).wrap)

/-- The call of its wrapper. -/
def Call.wrapped (sys : System σ τ) (calls : Calls) (host : Host) (w : World) (fuel : Nat) :
    Call → Option End
  | .compress origname mtime => (gzCompressWrapper sys calls host origname.bytes mtime w fuel).1
  | .uncompress pre _ filename =>
    (gzUncompressWrapper sys calls host pre filename.bytes w fuel).1

/-- The same value, the same `*gsizep` and the same bytes in `out`; where the codec calls `exit`,
the wrapper does. -/
inductive Agrees : Ran Result → End → Prop where
  | returns (r : Result) {w w' : World} (output : w'.output = w.output) :
      Agrees (.returns r w) (.returns r w')
  | exits (status status' : Nat) {w w' : World} (output : w'.output = w.output) :
      Agrees (.exits status w) (.exits status' w')

theorem WTwin.output {w w' : World} (twin : WTwin w w') : w'.output = w.output := by
  cases twin
  rfl

theorem Mirrors.agrees {w : World} {ran : Ran Result} {ended : End}
    (mirrors : Mirrors w ran ended) :
    Agrees (ran.map Result.wrap) ended := by
  cases mirrors with
  | returns r twin kept => exact .returns r.wrap (WTwin.output twin)
  | exits status twin => exact .exits status 255 (WTwin.output twin)

theorem mirrors_agrees {α : Type} {w : World} (result : α → Result) {ran : Option (Ran α)}
    {ended : Option End} (mirrors : Option.Rel (Mirrors w) (ran.map (Ran.map result)) ended) :
    Option.Rel Agrees (ran.map (Ran.map fun a => (result a).wrap)) ended := by
  cases ran with
  | none =>
    cases mirrors
    exact .none
  | some ran =>
    cases mirrors with
    | some mirrors =>
      refine .some ?_
      have agrees := mirrors.agrees
      cases ran with
      | returns a w' => exact agrees
      | exits status w' => exact agrees

/-- The request says all that the codec looks at: there is no prefix, or one whose length
`avail_in` takes for 0, or nothing is looked at. -/
def Call.Carried (sys : System σ τ) : Call → Prop
  | .compress _ _ => True
  | .uncompress pre _ _ => pre.length % 2 ^ 32 = 0 ∨ sys.env.mallocs = false

/-- A prefix that is not sent is read where the sandbox has no such bytes. -/
theorem wrapped_outside {sys : System σ τ} {calls : Calls} (succeed : calls.Succeed) (host : Host)
    {call : Call} (left : ¬ call.Carried sys) (w : World) (fuel : Nat) :
    call.wrapped sys calls host w fuel = some .outside := by
  cases call with
  | compress => exact absurd trivial left
  | uncompress pre size filename =>
    rw [Call.Carried, not_or, Bool.not_eq_false] at left
    obtain ⟨sandbox, ended⟩ := gzUncompressWrapper_ended succeed host size filename w fuel
    exact ended.trans (if_pos ⟨left.2, left.1⟩)

theorem outside_disagrees {ran : Option (Ran Result)}
    (agree : Option.Rel Agrees ran (some .outside)) :
    False := by
  cases agree with
  | some agrees => cases agrees

/-- The wrappers are transparent for the calls without a prefix. -/
theorem wrappers_transparent_iff (sys : System σ τ) {calls : Calls} (succeed : calls.Succeed)
    (host : Host) (fits : host.globals.numflag < 2 ^ 31) (call : Call) (w : World) (fuel : Nat) :
    Option.Rel Agrees (call.direct sys host.globals w fuel) (call.wrapped sys calls host w fuel) ↔
      call.Carried sys := by
  constructor
  · intro agree
    apply Classical.byContradiction
    intro left
    rw [wrapped_outside succeed host left] at agree
    exact outside_disagrees agree
  · intro carried
    cases call with
    | compress origname mtime =>
      exact mirrors_agrees compressResult
        (gzCompressWrapper_mirrors succeed host fits origname mtime w fuel)
    | uncompress pre size filename =>
      exact mirrors_agrees uncompressResult
        (gzUncompressWrapper_mirrors succeed host size filename w fuel carried)

/-- A system where the calls succeed. -/
def Calls.zero : Calls where
  lchStartfn := 0
  capNew _ := 3

theorem Calls.zero_succeed : Calls.zero.Succeed where
  lchStartfn := Int.le_refl 0
  capNew _ := (by decide : (3 : Int) ≠ -1)

/-- The name of standard input. -/
def CName.stdin : CName where
  bytes := [0x28, 0x73, 0x74, 0x64, 0x69, 0x6e, 0x29]
  short := by decide
  text := by decide

/-- A file by its name, without a prefix. -/
theorem wrappers_transparent_iff_file :
    Option.Rel Agrees
      (Call.direct System.stored .plain ⟨storedHi, [], 0, 0, 0, []⟩ 99
        (.uncompress [] (by decide) .stdin))
      (Call.wrapped System.stored .zero (.start .plain) ⟨storedHi, [], 0, 0, 0, []⟩ 99
        (.uncompress [] (by decide) .stdin)) :=
  (wrappers_transparent_iff System.stored Calls.zero_succeed (.start .plain) (by decide) _ _ _).mpr
    (.inl rfl)

/-- Standard input, whose first four bytes `handle_stdin` has read. -/
theorem stdin_outside :
    Call.wrapped System.stored .zero (.start .plain) ⟨storedHi.drop 4, [], 0, 0, 0, []⟩ 99
        (.uncompress (storedHi.take 4) (by decide) .stdin) = some .outside ∧
      ¬ Option.Rel Agrees
        (Call.direct System.stored .plain ⟨storedHi.drop 4, [], 0, 0, 0, []⟩ 99
          (.uncompress (storedHi.take 4) (by decide) .stdin))
        (Call.wrapped System.stored .zero (.start .plain) ⟨storedHi.drop 4, [], 0, 0, 0, []⟩ 99
          (.uncompress (storedHi.take 4) (by decide) .stdin)) := by
  have left : ¬ (Call.uncompress (storedHi.take 4) (by decide) .stdin).Carried System.stored := by
    rintro (none | failing)
    · exact absurd none (by decide)
    · cases failing
  have outside := wrapped_outside Calls.zero_succeed (.start .plain) left
    ⟨storedHi.drop 4, [], 0, 0, 0, []⟩ 99
  refine ⟨outside, ?_⟩
  intro agree
  rw [outside] at agree
  exact outside_disagrees agree

end CheriGzip.Gzip.Capsicum
