import CheriGzip.Lib.Region
import CheriGzip.Lib.Ring

/-!
# The sliding window of inflate

`updatewindow` of libz_h2 and of libz_u. They differ in where they read the piece that they put
into the window: the one of libz_u takes a pointer to its end, the one of libz_h2 a pointer to its
start, and the callers give both the end.
-/
namespace CheriGzip.Inflate

/-- The window in `struct inflate_state`. -/
structure Window where
  wbits : Nat
  wsize : Nat
  whave : Nat
  wnext : Nat
  window : Option Bytes
  deriving DecidableEq, Repr

/-- After `inflateInit2`. -/
def Window.start (wbits : Nat) : Window := ⟨wbits, 0, 0, 0, none⟩

/-- The window, allocated if it is not there yet; `alloc` is what `ZALLOC` gives. -/
def Window.allocate (alloc : Option (Nat → UInt8)) (s : Window) : Option Bytes :=
  match s.window with
  | some window => some window
  | none => alloc.map fun fresh => (List.range (2 ^ s.wbits)).map fresh

/-- The sizes, if the window is not in use yet. -/
def Window.inUse (s : Window) : Window :=
  if s.wsize = 0 then { s with wsize := 2 ^ s.wbits, wnext := 0, whave := 0 } else s

/-- `zmemcpy_c(window + offset, src, n)`; `none` where one of the two is outside its memory. -/
def zmemcpy (window : Bytes) (offset : Nat) (mem : Region) (src : Int) (n : Nat) : Option Bytes :=
  match mem.load src n with
  | none => none
  | some bytes =>
    if offset + n ≤ window.length then some (overwrite window offset bytes) else none

/-- Where the three copies of `updatewindow` read, from its pointer on: the one of a whole window
of `wsize` bytes, the one up to the end of the window (`dist` of `copy` bytes), and the one of the
rest. -/
structure Sources where
  whole : (copy wsize : Nat) → Int
  first : (copy dist : Nat) → Int
  second : (copy dist : Nat) → Int

/-- `updatewindow` with the return value; `none` where it reads or writes outside of memory. -/
def Window.update (sources : Sources) (alloc : Option (Nat → UInt8)) (s : Window) (mem : Region)
    (data : Int) (copy : Nat) : Option (Int × Window) :=
  match s.allocate alloc with
  | none => some (1, s)
  | some window =>
    let s := s.inUse
    if copy ≥ s.wsize then
      (zmemcpy window 0 mem (data + sources.whole copy s.wsize) s.wsize).map fun window =>
        (0, { s with window := some window, wnext := 0, whave := s.wsize })
    else
      let dist := min (s.wsize - s.wnext) copy
      match zmemcpy window s.wnext mem (data + sources.first copy dist) dist with
      | none => none
      | some window =>
        if copy - dist ≠ 0 then
          (zmemcpy window 0 mem (data + sources.second copy dist) (copy - dist)).map fun window =>
            (0, { s with window := some window, wnext := copy - dist, whave := s.wsize })
        else
          some (0, { s with
            window := some window
            wnext := if s.wnext + dist = s.wsize then 0 else s.wnext + dist
            whave := if s.whave < s.wsize then s.whave + dist else s.whave })

/-- libz_h2 reads from the pointer on. -/
def fromData : Sources where
  whole copy wsize := copy - wsize
  first copy dist := copy - dist
  second _ _ := 0

/-- libz_u reads back from the pointer. -/
def fromEnd : Sources where
  whole _ wsize := -wsize
  first copy _ := -copy
  second copy dist := -(copy - dist)

/-- `updatewindow(strm, data, copy)` of libz_h2. -/
def updatewindow : Option (Nat → UInt8) → Window → Region → Int → Nat → Option (Int × Window) :=
  Window.update fromData

/-- `updatewindow(strm, end, copy)` of libz_u. -/
def updatewindowU : Option (Nat → UInt8) → Window → Region → Int → Nat → Option (Int × Window) :=
  Window.update fromEnd

/-- `inflateGetDictionary`: the dictionary and its length. -/
def inflateGetDictionary (s : Window) : Bytes × Nat :=
  match s.window with
  | some window =>
    if s.whave ≠ 0 then
      ((window.drop s.wnext).take (s.whave - s.wnext) ++ window.take s.wnext, s.whave)
    else ([], s.whave)
  | none => ([], s.whave)

/-- A piece of output or a dictionary, in the memory that can be read around it. -/
structure Piece where
  base : Int
  before : Bytes
  bytes : Bytes
  behind : Bytes

/-- The memory, which for `next_out` goes on behind the piece with what is left of the caller's
buffer. A dictionary's capability ends where it ends. -/
def Piece.mem (p : Piece) : Region := ⟨p.base, p.before ++ p.bytes ++ p.behind⟩

/-- `strm->next_out` when `inflate_c` has put the piece there, or `dictionary + dictLength`. -/
def Piece.nextOut (p : Piece) : Int := p.base + p.before.length + p.bytes.length

/-- A call of `updatewindow` at the end of `inflate_c` or in `inflateSetDictionary_c`. -/
structure Call where
  piece : Piece
  alloc : Option (Nat → UInt8)

def Call.run (update : Option (Nat → UInt8) → Window → Region → Int → Nat → Option (Int × Window))
    (s : Window) (c : Call) : Option (Int × Window) :=
  update c.alloc s c.piece.mem c.piece.nextOut c.piece.bytes.length

end CheriGzip.Inflate
