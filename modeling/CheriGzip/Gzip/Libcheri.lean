import CheriGzip.Gzip.CompressCount
import CheriGzip.Gzip.Helper
import CheriGzip.Gzip.RoundTrip

/-!
# gzsandbox_h.c

The libcheri build: the host's wrappers, and `cheri_gzip_invoke` of the helper that they call.
The value of a codec is an `off_t`; on its way to the caller it is the `int` that
`cheri_gzip_invoke` returns and the `int rc` of the wrapper.
-/
namespace CheriGzip.Gzip.Libcheri

open Loop

/-- Conversion of an `off_t` to `int`. -/
def toCInt (x : Int) : Int := x.bmod (2 ^ 32)

theorem toCInt_of_fits {x : Int} (low : -2 ^ 31 ≤ x) (high : x < 2 ^ 31) : toCInt x = x := by
  unfold toCInt
  apply Int.bmod_eq_of_le
  · omega
  · omega

/-- An `int` is less than `2 ^ 31`. -/
theorem toCInt_lt (x : Int) : toCInt x < 2 ^ 31 := by
  have bound := Int.bmod_lt (x := x) (m := 2 ^ 32) (by decide)
  unfold toCInt
  omega

/-! ## The helper -/

/-- `struct gz_init_params` without the capabilities. -/
structure Globals where
  numflag : Nat
  nflag : Bool
  qflag : Bool
  tflag : Bool
  buflen : Buflen

/-- The helper's statics: the flags, once `initialized`. -/
abbrev Helper := Option Globals

/-- `op`, with what `vparams` points to. -/
inductive Invocation where
  | init (params : Globals)
  | gzCompress (origname : Bytes) (mtime : UInt32)
  | gzUncompress (pre : Bytes) (filename : String)

/-- What an invocation gives back: the `int`, and the value stored through `gsizep`. -/
structure Reply where
  rc : Int
  gsize : Option Int

/-- The two sides of zlib, and the system behind the descriptors. -/
structure System (σ τ : Type) where
  deflate : DeflateEngine σ
  inflate : InflateEngine τ
  env : Env

variable {σ τ : Type}

def System.compress (sys : System σ τ) (g : Globals) : CConfig σ where
  engine := sys.deflate
  env := sys.env
  buflen := g.buflen
  numflag := g.numflag
  nflag := g.nflag

def System.uncompress (sys : System σ τ) (g : Globals) (filename : String) : UConfig τ where
  engine := sys.inflate
  env := sys.env
  buflen := g.buflen
  tflag := g.tflag
  filename := filename

/-- `cheri_gzip_invoke` -/
def cheriGzipInvoke (sys : System σ τ) (helper : Helper) (call : Invocation) (w : World)
    (fuel : Nat) : Option (Ran Reply) × Helper :=
  match helper, call with
  | none, .init params => (some (.returns ⟨0, none⟩ w), some params)
  | some g, .gzCompress origname mtime =>
    let ran := Helper.gzCompress (sys.compress g) origname mtime w fuel
    (ran.map (Ran.map fun r => ⟨toCInt r.inTot, some r.outTot⟩), some g)
  | some g, .gzUncompress pre filename =>
    let ran := Helper.gzUncompress (sys.uncompress g filename) pre w fuel
    (ran.map (Ran.map fun r => ⟨toCInt r.outTot, some r.gsize⟩), some g)
  | helper, _ => (some (.returns ⟨0, none⟩ w), helper)

/-! ## The host -/

/-- The descriptors that `cheri_fd_new` is called on. -/
inductive Fd where
  | stderrfd
  | infd
  | outfd
  deriving DecidableEq, Repr

/-- The answers of libcheri. -/
structure Calls where
  sandboxClassNew : Int
  sandboxObjectNew : Int
  cheriFdNew : Fd → Int

/-- The calls of libcheri succeed. -/
structure Calls.Succeed (calls : Calls) : Prop where
  sandboxClassNew : calls.sandboxClassNew = 0
  sandboxObjectNew : calls.sandboxObjectNew = 0
  cheriFdNew : ∀ fd, 0 ≤ calls.cheriFdNew fd

/-- The globals of gzip, which main sets before the first file, and the sandbox, once
`gzsandbox_initialized`; its helper was given these globals. -/
structure Host where
  globals : Globals
  sandbox : Option Helper
  given : ∀ helper, sandbox = some helper → helper = some globals

/-- Before the first file. -/
def Host.start (globals : Globals) : Host where
  globals := globals
  sandbox := none
  given _ absurd := nomatch absurd

/-- `gzsandbox_initialize`; `none` for `err(-1, …)`. -/
def gzsandboxInitialize (calls : Calls) (host : Host) : Option Host :=
  match host.sandbox with
  | some _ => some host
  | none =>
    if calls.sandboxClassNew ≠ 0 then none
    else if calls.sandboxObjectNew ≠ 0 then none
    else if calls.cheriFdNew .stderrfd < 0 then none
    -- The helper is fresh, so that `GZSANDBOX_HELPER_OP_INIT` stores the globals and gives 0.
    else some ⟨host.globals, some (some host.globals), fun _ same => (Option.some.inj same).symm⟩

/-- `gz_compress_wrapper` -/
def gzCompressWrapper (sys : System σ τ) (calls : Calls) (host : Host) (origname : Bytes)
    (mtime : UInt32) (w : World) (fuel : Nat) : Option (Ran CResult) × Host :=
  match gzsandboxInitialize calls host with
  | none => (some (.exits 255 w), host)
  | some host =>
    if calls.cheriFdNew .infd < 0 then (some (.exits 255 w), host)
    else if calls.cheriFdNew .outfd < 0 then (some (.exits 255 w), host)
    else
      -- `gz_compress` stores through `gsizep` whenever it returns.
      let (ran, _) :=
        cheriGzipInvoke sys (host.sandbox.getD none) (.gzCompress origname mtime) w fuel
      (ran.map (Ran.map fun reply => ⟨reply.rc, reply.gsize.getD 0⟩), host)

section

variable {sys : System σ τ} {calls : Calls} {host : Host}

theorem gzsandboxInitialize_ready (succeed : calls.Succeed) (host : Host) :
    ∃ ready, gzsandboxInitialize calls host = some ready ∧ ready.globals = host.globals ∧
      ready.sandbox = some (some host.globals) := by
  have opened : ¬ calls.cheriFdNew .stderrfd < 0 := by
    have := succeed.cheriFdNew .stderrfd
    omega
  unfold gzsandboxInitialize
  -- A sandbox of an earlier call was given the same globals.
  split
  next helper sandbox =>
    exact ⟨host, rfl, rfl, host.given helper sandbox ▸ sandbox⟩
  · rw [if_neg (not_not_intro succeed.sandboxClassNew),
      if_neg (not_not_intro succeed.sandboxObjectNew), if_neg opened]
    exact ⟨_, rfl, rfl, rfl⟩

/-- The wrapper's result is that of `gz_compress`, with the value turned into an `int`. -/
theorem gzCompressWrapper_eq (succeed : calls.Succeed) (origname : Bytes) (mtime : UInt32)
    (w : World) (fuel : Nat) :
    (gzCompressWrapper sys calls host origname mtime w fuel).1 =
      (gzCompress (sys.compress host.globals) origname mtime w fuel).map
        (Ran.map fun r => ⟨toCInt r.inTot, r.outTot⟩) := by
  obtain ⟨ready, initialized, globals, sandbox⟩ := gzsandboxInitialize_ready succeed host
  have infd : ¬ calls.cheriFdNew .infd < 0 := by
    have := succeed.cheriFdNew .infd
    omega
  have outfd : ¬ calls.cheriFdNew .outfd < 0 := by
    have := succeed.cheriFdNew .outfd
    omega
  unfold gzCompressWrapper
  rw [initialized]
  simp only [if_neg infd, if_neg outfd, sandbox, Option.getD_some, cheriGzipInvoke,
    Helper.gzCompress_agrees]
  -- The helper's own `gz_compress` is the same function, so only the `int` is left.
  rcases gzCompress (sys.compress host.globals) origname mtime w fuel with
    _ | ⟨r, w'⟩ | ⟨status, w'⟩
  · rfl
  · rfl
  · rfl

end

/-! ## The proxy -/

/-- The wrapper returns what `gz_compress` returns, with the same `*gsizep`, and -1 only where
`gz_compress` does. -/
def Exact (wrapper direct : Option (Ran CResult)) : Prop :=
  (∀ r w, direct = some (.returns r w) → wrapper = some (.returns r w)) ∧
    ∀ r w, wrapper = some (.returns r w) → r.inTot = -1 →
      ∃ r', direct = some (.returns r' w) ∧ r'.inTot = -1

/-- An end of `gz_compress` on `n` bytes that set `in_tot` to -1, or came before `2 ^ 31` bytes
were read. -/
def Fits (n : Nat) : CEnd σ → Prop
  | .out site s => site.setsInTot ∨ n - s.world.input.length < 2 ^ 31
  | .exits _ _ => True

section

variable {cfg : CConfig σ} {n : Nat} {s : CState σ} {site : Site}

/-- The value survives the `int` exactly when the end fits. -/
theorem fits_iff (returned : Returned n site s) :
    Fits n (.out site s) ↔ toCInt s.inTot = s.inTot := by
  -- An exit gives -1, which an `int` holds, or the count.
  cases sets : site.setsInTot with
  | true =>
    have value : s.inTot = -1 := by simpa [Returned, sets] using returned
    rw [value]
    simp [Fits, sets, toCInt]
  | false =>
    obtain ⟨positive, counts⟩ : 0 ≤ s.inTot ∧ s.inTot + s.world.input.length = n := by
      simpa [Returned, sets, Counts] using returned
    simp only [Fits, sets, Bool.false_eq_true, false_or]
    constructor
    · intro short
      apply toCInt_of_fits
      · omega
      · omega
    · intro same
      have bound := toCInt_lt s.inTot
      omega

end

/-- The libcheri wrapper is exact for those runs of `gz_compress` whose value is -1 or a count
of fewer than `2 ^ 31` bytes. -/
theorem proxy_exact_iff (sys : System σ τ) {calls : Calls} (succeed : calls.Succeed)
    (host : Host) (origname : Bytes) (mtime : UInt32) (w : World) (fuel : Nat) :
    Exact (gzCompressWrapper sys calls host origname mtime w fuel).1
        (gzCompress (sys.compress host.globals) origname mtime w fuel) ↔
      ∀ ended, compressEnd (sys.compress host.globals) origname mtime w fuel = some ended →
        Fits w.input.length ended := by
  rw [gzCompressWrapper_eq succeed, gzCompress]
  cases ran : compressEnd (sys.compress host.globals) origname mtime w fuel with
  | none => simp [Exact]
  | some ended =>
    cases ended with
    | exits status w' => simp [Exact, CEnd.ran, Ran.map, Fits]
    | out site s =>
      have fits := fits_iff (compressEnd_returned ran)
      simp only [Option.map_some, CEnd.ran, Ran.map, Option.some.injEq, forall_eq', fits]
      -- Exact on the run means that the value comes back, and then -1 is not made up either.
      constructor
      · rintro ⟨same, -⟩
        have values := same _ _ rfl
        rw [Option.some.injEq, Ran.returns.injEq, CResult.mk.injEq] at values
        exact values.1.1
      · intro same
        rw [same]
        exact ⟨fun r w' => id, fun r w' returns value => ⟨r, returns, value⟩⟩

/-- zlib with stored blocks, and a system without failures. -/
def System.stored : System StoredOut StoredIn where
  deflate := storedDeflate
  inflate := storedInflate
  env := .steady 4096

/-- libcheri without failures. -/
def Calls.zero : Calls where
  sandboxClassNew := 0
  sandboxObjectNew := 0
  cheriFdNew _ := 0

theorem Calls.zero_succeed : Calls.zero.Succeed where
  sandboxClassNew := rfl
  sandboxObjectNew := rfl
  cheriFdNew _ := Int.le_refl 0

/-- `gzip` without options. -/
def Globals.plain : Globals where
  numflag := 6
  nflag := false
  qflag := false
  tflag := false
  buflen := ⟨65536, by decide⟩

/-- `gz_compress` returns from an input of any size, and with what the wrapper returns. -/
theorem plain_returns (w : World) : ∃ fuel gsize w',
    gzCompress (System.stored.compress .plain) [] 0 w fuel =
        some (.returns ⟨w.input.length, gsize⟩ w') ∧
      (gzCompressWrapper System.stored .zero (.start .plain) [] 0 w fuel).1 =
        some (.returns ⟨toCInt w.input.length, gsize⟩ w') := by
  have reliable : (System.stored.compress .plain).env.Reliable
      (System.stored.compress .plain).buflen := Env.steady_reliable _ _
  have D : DeflatesAll storedFormat (System.stored.compress .plain).engine := storedDeflates
  obtain ⟨bytes, ⟨fuel, w', ran, -, -⟩, -⟩ := compresses_member D ⟨by decide, by decide⟩ reliable
    List.not_mem_nil (by decide) 0 w
  refine ⟨fuel, bytes.length, w', ran, ?_⟩
  rw [gzCompressWrapper_eq Calls.zero_succeed]
  exact congrArg _ ran

/-- Three bytes. -/
theorem proxy_exact_iff_three :
    Exact (gzCompressWrapper System.stored .zero (.start .plain) [] 0 ⟨[1, 2, 3], [], 0, 0, 0, []⟩
        9).1
        (gzCompress (System.stored.compress .plain) [] 0 ⟨[1, 2, 3], [], 0, 0, 0, []⟩ 9) ↔
      ∀ ended, compressEnd (System.stored.compress .plain) [] 0 ⟨[1, 2, 3], [], 0, 0, 0, []⟩ 9 =
        some ended → Fits 3 ended :=
  proxy_exact_iff System.stored Calls.zero_succeed (.start .plain) [] 0
    ⟨[1, 2, 3], [], 0, 0, 0, []⟩ 9

/-- An input of `2 ^ 32 - 1` bytes is compressed, and the wrapper says that it failed. -/
theorem proxy_four_gigabytes : ∃ fuel gsize w',
    gzCompress (System.stored.compress .plain) [] 0
        ⟨List.replicate (2 ^ 32 - 1) 0, [], 0, 0, 0, []⟩ fuel =
      some (.returns ⟨4294967295, gsize⟩ w') ∧
    (gzCompressWrapper System.stored .zero (.start .plain) [] 0
        ⟨List.replicate (2 ^ 32 - 1) 0, [], 0, 0, 0, []⟩ fuel).1 =
      some (.returns ⟨-1, gsize⟩ w') ∧
    ¬ Exact
      (gzCompressWrapper System.stored .zero (.start .plain) [] 0
        ⟨List.replicate (2 ^ 32 - 1) 0, [], 0, 0, 0, []⟩ fuel).1
      (gzCompress (System.stored.compress .plain) [] 0
        ⟨List.replicate (2 ^ 32 - 1) 0, [], 0, 0, 0, []⟩ fuel) := by
  obtain ⟨fuel, gsize, w', direct, wrapper⟩ :=
    plain_returns ⟨List.replicate (2 ^ 32 - 1) 0, [], 0, 0, 0, []⟩
  have value : toCInt (4294967295 : Int) = -1 := by decide
  simp only [List.length_replicate] at direct wrapper
  have failed := wrapper.trans (congrArg (fun v => some (Ran.returns (CResult.mk v gsize) w')) value)
  refine ⟨fuel, gsize, w', direct, failed, ?_⟩
  rintro ⟨same, -⟩
  have returned := failed.symm.trans (same _ _ direct)
  rw [Option.some.injEq, Ran.returns.injEq, CResult.mk.injEq] at returned
  exact absurd returned.1.1 (by decide)

end CheriGzip.Gzip.Libcheri
