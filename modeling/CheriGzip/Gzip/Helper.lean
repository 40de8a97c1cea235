import CheriGzip.Gzip.Compress
import CheriGzip.Gzip.Uncompress

/-!
# gzsandbox-helper_h.c

The copies of `gz_compress` and `gz_uncompress` in the helper that runs in the libcheri
sandbox. They were forked from `gzip.c` and edited: the header is built with `strlen_c` and
`memcpy_c`, and the descriptors are objects that `read_c` and `write_c` call.
-/
namespace CheriGzip.Gzip.Helper

open Loop

/-! ## Calls out of the sandbox -/

/-- `cheri_fd_read_c`: `cfr_retval0` and the bytes at the capability. -/
def cheriFdRead (env : Env) (w : World) (len : Nat) : Int × Bytes × World :=
  match w.read env len with
  | (none, w) => (-1, [], w)
  | (some bytes, w) => (bytes.length, bytes, w)

/-- `cheri_fd_write_c` -/
def cheriFdWrite (env : Env) (w : World) (bytes : Bytes) : Int × World :=
  match w.write env bytes with
  | (none, w) => (-1, w)
  | (some count, w) => (count, w)

def readC (env : Env) (w : World) (nbytes : Nat) : Int × Bytes × World := cheriFdRead env w nbytes

def writeC (env : Env) (w : World) (bytes : Bytes) : Int × World := cheriFdWrite env w bytes

variable {σ : Type}

/-! ## gz_compress -/

/-- A buffer with some bytes stored from an index on. -/
def store (buf : Bytes) (at' : Nat) (bytes : Bytes) : Bytes :=
  buf.take at' ++ bytes ++ buf.drop (at' + bytes.length)

/-- The ten stores to `outbufp`. -/
def fixedHeader (numflag : Nat) (origname : Bytes) (mtime : UInt32) : Bytes :=
  [0x1f, 0x8b, 8, if origname ≠ [] then 0x08 else 0] ++ le 4 mtime.toNat ++
    [if numflag = 1 then 4 else if numflag = 9 then 2 else 0, osCode]

/-- `outbufp` fresh from `malloc`; only its first byte can be seen later. -/
def freshBuffer (cfg : CConfig σ) : Bytes := List.replicate cfg.buflen.size cfg.env.junk

/-- `outbufp` and `i` behind the header, before the test of `i`. -/
def buildHeader (cfg : CConfig σ) (origname : Bytes) (mtime : UInt32) : Bytes × Nat :=
  let outbufp := freshBuffer cfg
  if cfg.buflen.size ≥ 10 then
    let outbufp := store outbufp 0 (fixedHeader cfg.numflag origname mtime)
    let len := origname.length
    -- `memcpy_c` copies the name with its NUL, when there is room for both.
    let outbufp :=
      if cfg.buflen.size ≥ 10 + len + 1 then store outbufp 10 (origname ++ [0]) else outbufp
    (outbufp, 10 + len)
  else
    (outbufp, 0)

/-- What lies before `next_out`; `none` for `maybe_err`. -/
def outbufStart (cfg : CConfig σ) (origname : Bytes) (mtime : UInt32) : Option Bytes :=
  let (outbufp, i) := buildHeader cfg origname mtime
  if i ≥ cfg.buflen.size then none
  else
    let i := if origname ≠ [] then i + 1 else i
    some (outbufp.take i)

def flushFull (cfg : CConfig σ) (s : CState σ) : CLeft σ :=
  if s.outbuf.length = cfg.buflen.size then
    let (w, world) := writeC cfg.env s.world s.outbuf
    let s := { s with world := world }
    if w ≠ (cfg.buflen.size : Int) then
      .error (.write, s.failOut "write")
    else
      .ok { s with outTot := s.outTot + cfg.buflen.size, outbuf := [] }
  else
    .ok s

def feed (cfg : CConfig σ) (s : CState σ) : CRound σ :=
  let step := cfg.engine.deflate s.strm .noFlush s.nextIn (cfg.buflen.size - s.outbuf.length)
  let s := { s with
    strm := step.strm
    nextIn := s.nextIn.drop step.consumed
    outbuf := s.outbuf ++ step.out }
  if step.code ≠ .ok ∧ step.code ≠ .streamEnd then
    .leave (.error (.deflate, s.failIn "deflate failed"))
  else
    .again s

/-- One round of the first `for (;;)`. -/
def feedRound (cfg : CConfig σ) (s : CState σ) : CRound σ :=
  match flushFull cfg s with
  | .error left => .leave (.error left)
  | .ok s =>
    if s.nextIn = [] then
      let (inSize, bytes, w) := readC cfg.env s.world cfg.buflen.size
      let s := { s with world := w }
      if inSize < 0 then
        .leave (.error (.read, s.failIn "read"))
      else if inSize = 0 then
        .leave (.ok s)
      else
        feed cfg { s with
          crc := crc32 s.crc bytes
          inTot := s.inTot + inSize
          nextIn := bytes }
    else
      feed cfg s

/-- One round of the second `for (;;)`. -/
def finishRound (cfg : CConfig σ) (s : CState σ) : CRound σ :=
  let step := cfg.engine.deflate s.strm .finish s.nextIn (cfg.buflen.size - s.outbuf.length)
  let s := { s with
    strm := step.strm
    nextIn := s.nextIn.drop step.consumed
    outbuf := s.outbuf ++ step.out }
  if step.code ≠ .ok ∧ step.code ≠ .streamEnd then
    .leave (.error (.finish, s.failIn "deflate failed"))
  else
    let len := s.outbuf.length
    let (w, world) := writeC cfg.env s.world s.outbuf
    let s := { s with world := world }
    if w = -1 ∨ w ≠ (len : Int) then
      .leave (.error (.finishWrite, s.failOut "write"))
    else
      let s := { s with outTot := s.outTot + len, outbuf := [] }
      if step.code = .streamEnd then .leave (.ok s) else .again s

/-- The trailer and its `write_c`. -/
def writeTrailer (cfg : CConfig σ) (s : CState σ) : CEnd σ :=
  let (bytes, i) :=
    if cfg.buflen.size ≥ 8 then (le 4 s.crc.toNat ++ le 4 (s.inTot % 2 ^ 32).toNat, 8)
    else ([], 0)
  if i ≠ 8 then
    .exits 2 { s.world with warnings := s.world.warnings ++ ["snprintf"] }
  else
    let (w, world) := writeC cfg.env s.world bytes
    let s := { s with world := world }
    if w ≠ 8 then .out (.trailerWrite w.toNat) (s.failIn "write")
    else .out .done { s with outTot := s.outTot + 8 }

def deflateFile (cfg : CConfig σ) (outbuf : Bytes) (w : World) (fuel : Nat) :
    Option (CEnd σ) :=
  let (error, strm) := cfg.engine.deflateInit2 cfg.engine.zero cfg.numflag
  let s : CState σ :=
    { strm := strm, nextIn := [], outbuf := outbuf, crc := 0, inTot := 0, outTot := 0, world := w }
  if error ≠ .ok then
    some (.out .deflateInit2 (s.failIn "deflateInit2 failed"))
  else do
    match ← run (feedRound cfg) fuel { s with crc := crc32Null } with
    | .error (site, s) => some (.out site s)
    | .ok s =>
      match ← run (finishRound cfg) fuel s with
      | .error (site, s) => some (.out site s)
      | .ok s =>
        let (error, strm) := cfg.engine.deflateEnd s.strm
        let s := { s with strm := strm }
        if error ≠ .ok then some (.out .deflateEnd (s.failIn "deflateEnd failed"))
        else some (writeTrailer cfg s)

/-- `gz_compress(in, out, gsizep, origname, mtime)` of the helper. -/
def gzCompress (cfg : CConfig σ) (origname : Bytes) (mtime : UInt32) (w : World) (fuel : Nat) :
    Option (Ran CResult) :=
  if cfg.env.mallocs = false then
    some (.exits 2 { w with warnings := w.warnings ++ ["malloc failed"] })
  else
    let (mtime, origname) := if cfg.nflag then (0, []) else (mtime, origname)
    match outbufStart cfg origname mtime with
    | none => some (.exits 2 { w with warnings := w.warnings ++ ["snprintf"] })
    | some outbuf => (deflateFile cfg outbuf w fuel).map CEnd.ran

/-! ## gz_uncompress -/

/-- The refill at the head of the loop; the error is `goto stop_and_fail`. -/
def refill (cfg : UConfig σ) (s : UState σ) : Except (UState σ) (UState σ) :=
  if (s.nextIn = [] ∨ s.needmore) ∧ s.doneReading = false then
    let (inSize, bytes, w) := readC cfg.env s.world (cfg.buflen.size - s.nextIn.length)
    let s := { s with world := w }
    if inSize = -1 then
      .error (s.fail "failed to read stdin")
    else
      .ok { s with
        nextIn := s.nextIn ++ bytes
        doneReading := if inSize = 0 then true else s.doneReading
        needmore := false
        inTot := s.inTot + inSize }
  else
    .ok s

/-- The end of `case GZSTATE_READ`. -/
def settle (cfg : UConfig σ) (s : UState σ) : UState σ :=
  { s with
    strm := if s.error = .streamEnd then cfg.engine.inflateEnd s.strm else s.strm
    state := if s.error = .streamEnd then .crc else s.state
    outbuf := [] }

/-- `case GZSTATE_READ` after the inner switch. -/
def drain (cfg : UConfig σ) (s : UState σ) : URound σ :=
  let wr := s.outbuf.length
  if wr ≠ 0 then
    let s := { s with crc := crc32 s.crc s.outbuf }
    let written := if cfg.tflag then ((wr : Int), s.world) else writeC cfg.env s.world s.outbuf
    let s := { s with world := written.2 }
    if cfg.tflag = false ∧ written.1 ≠ (wr : Int) then
      .leave (s.fail "error writing to output")
    else
      .again (settle cfg
        { s with outTot := s.outTot + wr, outSubTot := s.outSubTot + UInt32.ofNat wr })
  else
    .again (settle cfg s)

/-- `case GZSTATE_READ` -/
def readState (cfg : UConfig σ) (s : UState σ) : URound σ :=
  let s := s.inflated
    (cfg.engine.inflate s.strm .finish s.nextIn (cfg.buflen.size - s.outbuf.length))
  match s.error with
  | .bufError =>
    if s.outbuf.length < cfg.buflen.size ∧ s.doneReading = false then .again s else drain cfg s
  | .streamEnd => drain cfg s
  | .ok => drain cfg s
  | .needDict => .leave (s.fail "Z_NEED_DICT error")
  | .dataError => .leave (s.fail "data stream error")
  | .streamError => .leave (s.fail "internal stream error")
  | .memError => .leave (s.fail "memory allocation error")
  | error =>
    drain cfg { s with
      world := s.world.maybeWarn ("unknown error from inflate(): " ++ toString error.toInt) }

/-- The switch, for a nonempty input with first byte `b`. -/
def dispatch (cfg : UConfig σ) (s : UState σ) (b : UInt8) (rest : Bytes) : URound σ :=
  -- `ADVANCE()`
  let adv := { s with nextIn := rest }
  match s.state with
  | .magic0 =>
    if b ≠ gzipMagic0 then
      if s.inTot > 0 then
        .leave { s with
          world := s.world.maybeWarn (cfg.filename ++ ": trailing garbage ignored") }
      else
        .leave (s.fail "input not gziped (MAGIC0)")
    else
      .again { adv with state := .magic1, outSubTot := 0, crc := crc32Null }
  | .magic1 =>
    if b ≠ gzipMagic1 ∧ b ≠ gzipOmagic1 then
      .leave (s.fail "input not gziped (MAGIC1)")
    else
      .again { adv with state := .method }
  | .method =>
    if b ≠ zDeflated then
      .leave (s.fail "unknown compression method")
    else
      .again { adv with state := .flags }
  | .flags => .again { adv with flags := b, skipCount := 6, state := .skipping }
  | .skipping =>
    if s.skipCount > 0 then .again { adv with skipCount := s.skipCount - 1 }
    else .again { s with state := .extra }
  | .extra =>
    if s.flags &&& extraFieldFlag = 0 then .again { s with state := .origname }
    else .again { adv with skipCount := b.toNat, state := .extra2 }
  | .extra2 => .again { adv with skipCount := s.skipCount ||| b.toNat <<< 8, state := .extra3 }
  | .extra3 =>
    if s.skipCount > 0 then .again { adv with skipCount := s.skipCount - 1 }
    else .again { s with state := .origname }
  | .origname =>
    if s.flags &&& orignameFlag = 0 then .again { s with state := .comment }
    else .again { adv with state := if b = 0 then .comment else .origname }
  | .comment =>
    if s.flags &&& commentFlag = 0 then .again { s with state := .headCrc1 }
    else .again { adv with state := if b = 0 then .headCrc1 else .comment }
  | .headCrc1 =>
    .again { s with
      skipCount := if s.flags &&& headCrcFlag ≠ 0 then 2 else 0
      state := .headCrc2 }
  | .headCrc2 =>
    if s.skipCount > 0 then .again { adv with skipCount := s.skipCount - 1 }
    else .again { s with state := .init }
  | .init =>
    match cfg.engine.inflateInit2 s.strm with
    | (.ok, strm) => .again { s with strm := strm, state := .read }
    | (_, strm) => .leave ({ s with strm := strm }.fail "failed to inflateInit")
  | .read => readState cfg s
  | .crc =>
    if s.nextIn.length < 4 then
      if s.doneReading = false then .again { s with needmore := true }
      else .leave (s.fail "truncated input")
    else if s.word ≠ s.crc.toNat then
      .leave (s.fail "invalid compressed data--crc error")
    else
      let s := { s with nextIn := s.nextIn.drop 4 }
      if s.nextIn = [] ∧ s.doneReading = true then .leave s
      else .again { s with state := .len }
  | .len =>
    if s.nextIn.length < 4 then
      if s.doneReading = false then .again { s with needmore := true }
      else .leave (s.fail "truncated input")
    else if s.word ≠ s.outSubTot.toNat then
      .leave (s.fail "invalid compressed data--length error")
    else
      let s := { s with nextIn := s.nextIn.drop 4 }
      if s.error.toInt < (0 : Int) then .leave (s.fail "decompression error")
      else .again { s with state := .magic0 }

/-- One round of `for (;;)`. -/
def uncompressRound (cfg : UConfig σ) (s : UState σ) : URound σ :=
  match refill cfg s with
  | .error s => .leave s
  | .ok s =>
    match s.nextIn with
    | [] =>
      if s.doneReading = true ∧ s.state ≠ .magic0 then
        .leave (s.fail (cfg.filename ++ ": unexpected end of file"))
      else
        .leave s
    | b :: rest => dispatch cfg s b rest

/-- `gz_uncompress(in, out, pre, prelen, gsizep, filename)` of the helper; `pre` holds the bytes
that the sandbox reads where the cast of the capability `pre` points. -/
def gzUncompress (cfg : UConfig σ) (pre : Bytes) (w : World) (fuel : Nat) :
    Option (Ran (UResult σ)) :=
  if cfg.env.mallocs = false then
    some (w.maybeErr "malloc failed")
  else do
    let s ← run (uncompressRound cfg) fuel (uncompressStart cfg pre w)
    let strm := if s.state.toNat > GzState.init.toNat then cfg.engine.inflateEnd s.strm else s.strm
    some (.returns ⟨s.outTot, s.inTot, strm⟩ s.world)

/-! ## Agreement -/

section

variable {cfg : CConfig σ} {ucfg : UConfig σ}

theorem readC_some {env : Env} {w w' : World} {n : Nat} {bytes : Bytes}
    (answer : w.read env n = (some bytes, w')) :
    readC env w n = ((bytes.length : Int), bytes, w') := by
  simp only [readC, cheriFdRead, answer]

theorem readC_none {env : Env} {w w' : World} {n : Nat} (answer : w.read env n = (none, w')) :
    readC env w n = (-1, [], w') := by
  simp only [readC, cheriFdRead, answer]

/-- The count that `write_c` gives, against a count that is wanted. -/
theorem writeC_spec (env : Env) (w : World) (bytes : Bytes) :
    (writeC env w bytes).2 = (w.write env bytes).2 ∧
      (∀ n : Nat, (writeC env w bytes).1 = n ↔ (w.write env bytes).1 = some n) ∧
      (writeC env w bytes).1.toNat = (w.write env bytes).1.getD 0 := by
  rcases answer : w.write env bytes with ⟨_ | count, w'⟩
  · have returned : writeC env w bytes = (-1, w') := by simp only [writeC, cheriFdWrite, answer]
    rw [returned]
    refine ⟨rfl, ?_, rfl⟩
    intro n
    constructor
    · intro same
      simp only at same
      omega
    · intro same
      cases same
  · have returned : writeC env w bytes = ((count : Int), w') := by
      simp only [writeC, cheriFdWrite, answer]
    rw [returned]
    refine ⟨rfl, ?_, rfl⟩
    intro n
    rw [Option.some.injEq, Int.ofNat_inj]

theorem fixedHeader_length (numflag : Nat) (origname : Bytes) (mtime : UInt32) :
    (fixedHeader numflag origname mtime).length = 10 := by
  simp [fixedHeader, le_length]

theorem headerBytes_fixed (numflag : Nat) (origname : Bytes) (mtime : UInt32) :
    headerBytes numflag origname mtime = fixedHeader numflag origname mtime ++ origname := rfl

/-- Where the two `gz_compress` differ in text: the header, and how it fits the buffer. -/
theorem outbufStart_agrees (origname : Bytes) (mtime : UInt32) :
    outbufStart cfg origname mtime = Gzip.outbufStart cfg origname mtime := by
  have ten := fixedHeader_length cfg.numflag origname mtime
  unfold outbufStart Gzip.outbufStart buildHeader
  by_cases large : cfg.buflen.size ≥ 10
  · simp only [large, if_true, ge_iff_le]
    by_cases full : cfg.buflen.size ≤ 10 + origname.length
    · rw [if_pos full, if_pos full]
    · -- There is room for the name and its NUL, so `memcpy_c` copies both.
      have room : 10 + origname.length + 1 ≤ cfg.buflen.size := by omega
      rw [if_neg full, if_neg full, if_pos room, headerBytes_fixed]
      have stored : store (store (freshBuffer cfg) 0 (fixedHeader cfg.numflag origname mtime)) 10
          (origname ++ [0]) = fixedHeader cfg.numflag origname mtime ++ (origname ++ [0]) ++
          (store (freshBuffer cfg) 0 (fixedHeader cfg.numflag origname mtime)).drop
            (10 + (origname ++ [0]).length) := by
        have first : (store (freshBuffer cfg) 0
            (fixedHeader cfg.numflag origname mtime)).take 10 =
            fixedHeader cfg.numflag origname mtime := by
          simp [store, ten]
        rw [store, first]
      rw [stored]
      by_cases nil : origname = []
      · simp [nil, fixedHeader_length]
      · have whole : (fixedHeader cfg.numflag origname mtime ++ (origname ++ [0])).length =
            10 + origname.length + 1 := by
          simp [ten]
          omega
        simp only [nil, ne_eq, not_false_eq_true, if_true]
        rw [List.take_append_of_le_length (by omega), List.take_of_length_le (by omega),
          List.append_assoc]
  · simp only [large, if_false, ge_iff_le, Nat.le_zero_eq]
    by_cases none : cfg.buflen.size = 0
    · rw [if_pos none, if_pos none]
    · obtain ⟨n, size⟩ := Nat.exists_eq_succ_of_ne_zero none
      rw [if_neg none, if_neg none]
      by_cases nil : origname = []
      · simp [nil]
      · simp [nil, freshBuffer, size, List.replicate_succ]

/-! ### The rounds -/

theorem flushFull_agrees (s : CState σ) : flushFull cfg s = Gzip.flushFull cfg s := by
  obtain ⟨world, count, -⟩ := writeC_spec cfg.env s.world s.outbuf
  unfold flushFull Gzip.flushFull
  simp only [world, ne_eq, count]

theorem feed_agrees (s : CState σ) : feed cfg s = Gzip.feed cfg s := rfl

theorem feedRound_agrees (s : CState σ) : feedRound cfg s = Gzip.feedRound cfg s := by
  unfold feedRound Gzip.feedRound
  rw [flushFull_agrees]
  rcases Gzip.flushFull cfg s with left | s
  · rfl
  · simp only
    split
    · rcases answer : s.world.read cfg.env cfg.buflen.size with ⟨_ | bytes, w⟩
      · rw [readC_none answer]
        rfl
      · have count : ¬ (bytes.length : Int) < 0 := by omega
        rw [readC_some answer]
        simp only [count, if_false, Int.natCast_eq_zero, List.length_eq_zero_iff, feed_agrees]
    · rfl

theorem finishRound_agrees (s : CState σ) : finishRound cfg s = Gzip.finishRound cfg s := by
  unfold finishRound Gzip.finishRound
  simp only
  split
  · rfl
  · generalize cfg.engine.deflate s.strm .finish s.nextIn
      (cfg.buflen.size - s.outbuf.length) = step
    obtain ⟨world, count, -⟩ := writeC_spec cfg.env s.world (s.outbuf ++ step.out)
    have wrong : ((writeC cfg.env s.world (s.outbuf ++ step.out)).1 = -1 ∨
        (writeC cfg.env s.world (s.outbuf ++ step.out)).1 ≠ ((s.outbuf ++ step.out).length : Int)) ↔
        (s.world.write cfg.env (s.outbuf ++ step.out)).1 ≠
          some (s.outbuf ++ step.out).length := by
      rw [ne_eq, ne_eq, count]
      constructor
      · rintro (failed | short)
        · rw [← count, failed]
          omega
        · exact short
      · exact .inr
    simp only [world, wrong]

theorem writeTrailer_agrees (s : CState σ) : writeTrailer cfg s = Gzip.writeTrailer cfg s := by
  unfold writeTrailer Gzip.writeTrailer
  by_cases large : cfg.buflen.size ≥ 8
  · have small : ¬ cfg.buflen.size < 8 := by omega
    obtain ⟨world, count, stored⟩ := writeC_spec cfg.env s.world
      (le 4 s.crc.toNat ++ le 4 (s.inTot % 2 ^ 32).toNat)
    have eight : (writeC cfg.env s.world (le 4 s.crc.toNat ++ le 4 (s.inTot % 2 ^ 32).toNat)).1 = 8 ↔
        (s.world.write cfg.env (le 4 s.crc.toNat ++ le 4 (s.inTot % 2 ^ 32).toNat)).1 = some 8 :=
      count 8
    simp only [large, small, if_true, if_false, ne_eq, not_true, world, stored]
    simp only [eight]
  · have small : cfg.buflen.size < 8 := by omega
    simp [large, small]

theorem deflateFile_agrees (outbuf : Bytes) (w : World) (fuel : Nat) :
    deflateFile cfg outbuf w fuel = Gzip.deflateFile cfg outbuf w fuel := by
  have feeds : feedRound cfg = Gzip.feedRound cfg := funext feedRound_agrees
  have finishes : finishRound cfg = Gzip.finishRound cfg := funext finishRound_agrees
  unfold deflateFile Gzip.deflateFile
  rw [feeds, finishes]
  rcases cfg.engine.deflateInit2 cfg.engine.zero cfg.numflag with ⟨error, strm⟩
  by_cases failed : error ≠ .ok
  · simp only [if_pos failed]
  · simp only [if_neg failed]
    cases run (Gzip.feedRound cfg) fuel _ with
    | none => rfl
    | some left =>
      cases left with
      | error out => rfl
      | ok s =>
        simp only [Option.bind_eq_bind, Option.bind_some]
        cases run (Gzip.finishRound cfg) fuel s with
        | none => rfl
        | some left =>
          cases left with
          | error out => rfl
          | ok s =>
            simp only [Option.bind_some, writeTrailer_agrees]

/-- The helper's `gz_compress` does what the one in `gzip.c` does. -/
theorem gzCompress_agrees (origname : Bytes) (mtime : UInt32) (w : World) (fuel : Nat) :
    gzCompress cfg origname mtime w fuel = Gzip.gzCompress cfg origname mtime w fuel := by
  unfold gzCompress Gzip.gzCompress compressEnd
  cases mallocs : cfg.env.mallocs with
  | false => rfl
  | true =>
    have args : (if cfg.nflag = true then ((0 : UInt32), ([] : Bytes)) else (mtime, origname)) =
        (cfg.time mtime, cfg.name origname) := by
      unfold CConfig.time CConfig.name
      split <;> rfl
    simp only [args, outbufStart_agrees, Bool.true_eq_false, if_false]
    cases Gzip.outbufStart cfg (cfg.name origname) (cfg.time mtime) with
    | none => rfl
    | some outbuf => simp only [deflateFile_agrees]

theorem refill_agrees (s : UState σ) : refill ucfg s = Gzip.refill ucfg s := by
  unfold refill Gzip.refill
  split
  next reads =>
    rcases answer : s.world.read ucfg.env (ucfg.buflen.size - s.nextIn.length) with ⟨_ | bytes, w⟩
    · rw [readC_none answer]
      rfl
    · have count : ¬ (bytes.length : Int) = -1 := by omega
      have ended : (if (bytes.length : Int) = 0 then true else s.doneReading) = bytes.isEmpty := by
        cases bytes with
        | nil => rfl
        | cons b bytes =>
          have some : ¬ ((b :: bytes).length : Int) = 0 := by
            simp only [List.length_cons]
            omega
          rw [if_neg some, reads.2]
          rfl
      rw [readC_some answer]
      simp only [count, if_false, ended]
  · rfl

theorem drain_agrees (s : UState σ) : drain ucfg s = Gzip.drain ucfg s := by
  unfold drain Gzip.drain
  simp only
  split
  · obtain ⟨world, count, -⟩ := writeC_spec ucfg.env s.world s.outbuf
    cases tflag : ucfg.tflag with
    | true => simp [settle, Gzip.settle]
    | false =>
      simp only [Bool.false_eq_true, if_false, world, true_and, ne_eq, count]
      rfl
  · rfl

theorem readState_agrees (s : UState σ) : readState ucfg s = Gzip.readState ucfg s := by
  unfold readState Gzip.readState
  generalize s.inflated _ = t
  simp only
  cases t.error with
  | bufError => rw [drain_agrees]
  | streamEnd => exact drain_agrees _
  | ok => exact drain_agrees _
  | errno => exact drain_agrees _
  | versionError => exact drain_agrees _
  | _ => rfl

theorem dispatch_agrees (s : UState σ) (b : UInt8) (rest : Bytes) :
    dispatch ucfg s b rest = Gzip.dispatch ucfg s b rest := by
  unfold dispatch Gzip.dispatch
  cases s.state with
  | read => exact readState_agrees _
  | _ => rfl

theorem uncompressRound_agrees (s : UState σ) :
    uncompressRound ucfg s = Gzip.uncompressRound ucfg s := by
  unfold uncompressRound Gzip.uncompressRound
  rw [refill_agrees]
  cases Gzip.refill ucfg s with
  | error t => rfl
  | ok t =>
    simp only
    cases t.nextIn with
    | nil => rfl
    | cons b rest => exact dispatch_agrees _ _ _

/-- The helper's `gz_uncompress` does what the one in `gzip.c` does. -/
theorem gzUncompress_agrees (pre : Bytes) (w : World) (fuel : Nat) :
    gzUncompress ucfg pre w fuel = Gzip.gzUncompress ucfg pre w fuel := by
  have rounds : uncompressRound ucfg = Gzip.uncompressRound ucfg := funext uncompressRound_agrees
  unfold gzUncompress Gzip.gzUncompress
  rw [rounds]

/-- The two functions of the helper and of `gzip.c` agree on every input and every run: in what
they write, in `*gsizep`, in what they return, and in whether they leave through `exit`. -/
theorem helper_agrees (cfg : CConfig σ) (ucfg : UConfig σ) (origname : Bytes) (mtime : UInt32)
    (pre : Bytes) (w : World) (fuel : Nat) :
    gzCompress cfg origname mtime w fuel = Gzip.gzCompress cfg origname mtime w fuel ∧
      gzUncompress ucfg pre w fuel = Gzip.gzUncompress ucfg pre w fuel := by
  constructor
  · exact gzCompress_agrees origname mtime w fuel
  · exact gzUncompress_agrees pre w fuel

end

end CheriGzip.Gzip.Helper
