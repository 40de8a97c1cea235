import CheriGzip.Lib.Format

/-!
# zlib as gzip uses it

The calls of `zlib.h` on raw streams, as functions on the stream's state, and the streaming
contract of `zlib.h` for them: what a stream that was fed and drained so far stands for, and
what each return code means.
-/
namespace CheriGzip.Gzip

/-- The return codes of `zlib.h`. -/
inductive ZCode where
  | ok
  | streamEnd
  | needDict
  | errno
  | streamError
  | dataError
  | memError
  | bufError
  | versionError
  deriving DecidableEq, Repr

def ZCode.toInt : ZCode → Int
  | .ok => 0
  | .streamEnd => 1
  | .needDict => 2
  | .errno => -1
  | .streamError => -2
  | .dataError => -3
  | .memError => -4
  | .bufError => -5
  | .versionError => -6

/-- The flush values gzip passes. -/
inductive ZFlush where
  | noFlush
  | finish
  deriving DecidableEq, Repr

/-- What a call of `deflate` or `inflate` does: how many of the `avail_in` bytes it takes,
the bytes it puts at `next_out`, and what it returns. -/
structure ZStep (σ : Type) where
  strm : σ
  consumed : Nat
  out : Bytes
  code : ZCode

/-- The inflate side of zlib on raw streams (`-MAX_WBITS`), over a stream state `σ`. -/
structure InflateEngine (σ : Type) where
  /-- `memset(&z, 0, sizeof z)` -/
  zero : σ
  inflateInit2 : σ → ZCode × σ
  /-- `inflate(&z, flush)` with these input bytes and this much room. -/
  inflate : σ → ZFlush → Bytes → Nat → ZStep σ
  inflateEnd : σ → σ

/-- The deflate side of zlib on raw streams. -/
structure DeflateEngine (σ : Type) where
  zero : σ
  /-- `deflateInit2` at a compression level. -/
  deflateInit2 : σ → Nat → ZCode × σ
  deflate : σ → ZFlush → Bytes → Nat → ZStep σ
  deflateEnd : σ → ZCode × σ

/-- The call keeps to its buffers. -/
def ZStep.Within {σ : Type} (step : ZStep σ) (input : Bytes) (room : Nat) : Prop :=
  step.consumed ≤ input.length ∧ step.out.length ≤ room

/-- The streaming contract of `inflate` with `Z_FINISH`. `Live s u v` says that the stream
has taken `u` and produced `v` since it was initialised, and has not ended. -/
structure Inflates {σ : Type} (F : Format) (E : InflateEngine σ) where
  Live : σ → Bytes → Bytes → Prop
  /-- `inflateInit2` succeeds and starts a stream. -/
  init : ∀ s, (E.inflateInit2 s).1 = .ok ∧ Live (E.inflateInit2 s).2 [] []
  /-- What was produced is determined by what was taken. -/
  produced : ∀ {s u v}, Live s u v → v <+: F.payload u
  /-- A live stream has not gone past the end of a complete stream. -/
  inside : ∀ {s u v z}, Live s u v → F.Ends z → z <+: u → z = u
  within : ∀ {s u v} {input room}, Live s u v →
    (E.inflate s .finish input room).Within input room
  /-- Progress: without the end of the stream, all input was taken or all room was used. -/
  goes : ∀ {s u v input room}, Live s u v → input ≠ [] → 0 < room →
    let step := E.inflate s .finish input room
    (step.code = .ok ∨ step.code = .bufError) →
      Live step.strm (u ++ input.take step.consumed) (v ++ step.out) ∧
        (step.consumed = input.length ∨ step.out.length = room)
  /-- `Z_STREAM_END` comes exactly at the end of a complete stream, with all its output. -/
  ends : ∀ {s u v input room}, Live s u v → input ≠ [] → 0 < room →
    let step := E.inflate s .finish input room
    step.code = .streamEnd →
      F.Ends (u ++ input.take step.consumed) ∧
        F.payload (u ++ input.take step.consumed) = v ++ step.out
  /-- Another code means that the input is not a stream, whatever follows it. -/
  fails : ∀ {s u v input room}, Live s u v → input ≠ [] → 0 < room →
    let step := E.inflate s .finish input room
    step.code ≠ .ok → step.code ≠ .bufError → step.code ≠ .streamEnd →
      (step.code = .needDict ∨ step.code = .dataError ∨ step.code = .streamError ∨
        step.code = .memError) ∧
      ∀ z t, F.Ends z → ¬ z <+: u ++ input ++ t

/-- What holds of a `deflate` that may fail at any call: as long as its calls succeed,
`Fed s flush x z` says that it has taken `x` and produced `z` since it was initialised, the
last call with `flush`. Once it was told to finish it takes no more input. -/
structure Deflates {σ : Type} (F : Format) (E : DeflateEngine σ) where
  Fed : σ → ZFlush → Bytes → Bytes → Prop
  init : ∀ {s level}, (E.deflateInit2 s level).1 = .ok →
    Fed (E.deflateInit2 s level).2 .noFlush [] []
  /-- What was produced begins some complete stream. -/
  begins : ∀ {s last x z}, Fed s last x z → ∃ w, F.Ends w ∧ z <+: w
  within : ∀ {s last x z} {flush input room}, Fed s last x z →
    (E.deflate s flush input room).Within input room
  feeds : ∀ {s x z input room}, Fed s .noFlush x z →
    let step := E.deflate s .noFlush input room
    step.code ≠ .streamEnd ∧ (step.code = .ok →
      Fed step.strm .noFlush (x ++ input.take step.consumed) (z ++ step.out))
  closes : ∀ {s last x z room}, Fed s last x z →
    let step := E.deflate s .finish [] room
    step.code = .ok → Fed step.strm .finish x (z ++ step.out)
  /-- `Z_STREAM_END` completes a stream of all the input. -/
  ends : ∀ {s last x z room}, Fed s last x z →
    let step := E.deflate s .finish [] room
    step.code = .streamEnd → F.Ends (z ++ step.out) ∧ F.payload (z ++ step.out) = x

/-- The levels that `-1` to `-9` give `numflag`. -/
def IsLevel (level : Nat) : Prop := 1 ≤ level ∧ level ≤ 9

/-- A `deflate` that does not fail: with room, and input or `Z_FINISH`, each call succeeds
and uses up its input or its room, and the output for a given input is bounded. -/
structure DeflatesAll {σ : Type} (F : Format) (E : DeflateEngine σ) extends Deflates F E where
  initOk : ∀ s {level}, IsLevel level → (E.deflateInit2 s level).1 = .ok
  bound : Nat → Nat
  bounded : ∀ {s last x z}, Fed s last x z → z.length ≤ bound x.length
  feedsAll : ∀ {s x z input room}, Fed s .noFlush x z → input ≠ [] → 0 < room →
    let step := E.deflate s .noFlush input room
    step.code = .ok ∧ (step.consumed = input.length ∨ step.out.length = room)
  closesAll : ∀ {s last x z room}, Fed s last x z → 0 < room →
    let step := E.deflate s .finish [] room
    step.code = .streamEnd ∨ step.code = .ok ∧ step.out.length = room
  /-- `deflateEnd` succeeds after `Z_STREAM_END`. -/
  endOk : ∀ {s last x z room}, Fed s last x z →
    let step := E.deflate s .finish [] room
    step.code = .streamEnd → (E.deflateEnd step.strm).1 = .ok

end CheriGzip.Gzip
