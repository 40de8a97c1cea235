import CheriGzip.Lib.Bits

/-!
# unpack.c

`unpack` on the bytes that a descriptor has to read. `fdopen`, `dup` and `calloc` succeed, and
what is written to the output comes out.
-/
namespace CheriGzip.Unpack

def packHeaderLength : Nat := 7
def htreeMaxlevel : Nat := 24

/-- How `unpack` does not return: `maybe_err` or `maybe_errx` with this text, or an access
outside of the symbol table. -/
inductive Stop where
  | maybeErr (text : String)
  | maybeErrx (text : String)
  | outside
  deriving DecidableEq, Repr

/-- `unpack_descriptor_t`; the pointers into `symbol` are offsets. -/
structure Descriptor where
  symbolSize : Nat
  treelevels : Nat
  symbolsin : List Nat
  inodesin : List Nat
  symbol : Bytes
  symbolEob : Nat
  tree : List Nat
  uncompressedSize : Nat
  deriving DecidableEq, Repr

/-- The descriptor `in`: what is left to read there, and what the first `read` returns, `none`
for -1. -/
structure Input where
  file : Bytes
  count : Option Nat

/-! ## The header -/

/-- `unpackd_fill_inodesin` from a level on. -/
def fillInodesin : List Nat → List Nat
  | [] => []
  | [_] => [0]
  | _ :: symbols :: rest =>
    let below := fillInodesin (symbols :: rest)
    (below.headD 0 + symbols) / 2 :: below

/-- `symbolsin[treelevels]++` -/
def bumpLast : List Nat → List Nat
  | [] => []
  | [count] => [count + 1]
  | count :: next :: rest => count :: bumpLast (next :: rest)

/-- The counts of the levels. -/
def readCounts : Nat → Bytes → Except Stop (List Nat × Bytes)
  | 0, rest => .ok ([], rest)
  | _ + 1, [] => .error (.maybeErr "File appears to be truncated")
  | levels + 1, b :: rest => do
    let (counts, rest) ← readCounts levels rest
    .ok (b.toNat :: counts, rest)

/-- The symbols of one level. -/
def readSymbols : Nat → Bytes → Except Stop (Bytes × Bytes)
  | 0, rest => .ok ([], rest)
  | _ + 1, [] => .error (.maybeErrx "Symbol table truncated")
  | count + 1, b :: rest => do
    let (symbols, rest) ← readSymbols count rest
    .ok (b :: symbols, rest)

/-- The symbol table from `symbol_eob` on: where each level begins, and the symbols. -/
def readTable : List Nat → Nat → Bytes → Except Stop (List Nat × Bytes × Bytes)
  | [], _, rest => .ok ([], [], rest)
  | count :: counts, symbolEob, rest => do
    let (level, rest) ← readSymbols count rest
    let (tree, symbols, rest) ← readTable counts (symbolEob + count) rest
    .ok (symbolEob :: tree, level ++ symbols, rest)

/-- `unpack_parse_header`: the descriptor, what is left to read, and `bytes_in`. `fresh` is what
`hdr` holds before anything is copied there. -/
def parseHeader (pre : Bytes) (fresh : Bytes) (input : Input) :
    Except Stop (Descriptor × Bytes × Nat) :=
  match input.count with
  | none => .error (.maybeErr "Error reading pack header")
  | some count => do
    let got := pre ++ input.file.take count
    let hdr := got ++ fresh.drop got.length
    let byte (i : Nat) : Nat := (hdr.getD i 0).toNat
    let uncompressedSize := [2, 3, 4, 5].foldl (fun size i => size * 256 + byte i) 0
    let levels := byte 6
    if levels > htreeMaxlevel ∨ levels < 1 then
      .error (.maybeErrx "Huffman tree has insane levels")
    else
      let (counts, rest) ← readCounts levels (input.file.drop count)
      let symbolSize := 1 + counts.sum
      if symbolSize > 256 then .error (.maybeErrx "Bad symbol table")
      else
        -- EOB is not in the table; its level is counted up before and after.
        let counts := bumpLast counts
        let (tree, symbol, rest) ← readTable counts 0 rest
        let symbolsin := bumpLast counts
        .ok ({ symbolSize := symbolSize
               treelevels := levels - 1
               symbolsin := symbolsin
               inodesin := fillInodesin symbolsin
               symbol := symbol
               symbolEob := symbol.length
               tree := tree
               uncompressedSize := uncompressedSize },
          rest, packHeaderLength + (levels - 1) + counts.sum)

/-! ## The codes -/

/-- `thislevel`, `thiscode`, and what is written so far. -/
structure Decoder where
  level : Nat
  code : Nat
  out : Bytes
  deriving DecidableEq, Repr

/-- One bit of `unpack_decode`, and whether it is `finished`. -/
def feed (unpackd : Descriptor) (d : Decoder) (bit : Bool) : Except Stop (Decoder × Bool) :=
  let code := 2 * d.code + bit.toNat
  let inodes := unpackd.inodesin.getD d.level 0
  if code ≥ inodes then
    let inlevelindex := code - inodes
    if inlevelindex > unpackd.symbolsin.getD d.level 0 then .error (.maybeErrx "File corrupt")
    else
      let thissymbol := unpackd.tree.getD d.level 0 + inlevelindex
      if thissymbol = unpackd.symbolEob ∧ d.out.length = unpackd.uncompressedSize then
        .ok ({ d with code := code }, true)
      else
        match unpackd.symbol[thissymbol]? with
        | none => .error .outside
        | some b => .ok (⟨0, 0, d.out ++ [b]⟩, false)
  else if d.level + 1 > unpackd.treelevels then .error (.maybeErrx "File corrupt")
  else .ok ({ d with level := d.level + 1, code := code }, false)

/-- The bits of one byte, or of several. -/
def feedBits (unpackd : Descriptor) : Decoder → List Bool → Except Stop (Decoder × Bool)
  | d, [] => .ok (d, false)
  | d, bit :: bits =>
    match feed unpackd d bit with
    | .error stop => .error stop
    | .ok (d, true) => .ok (d, true)
    | .ok (d, false) => feedBits unpackd d bits

/-- The loop of `unpack_decode` over the bytes of the file. -/
def decodeBytes (unpackd : Descriptor) : Decoder → Nat → Bytes → Except Stop (Decoder × Nat)
  | d, bytesIn, [] => .ok (d, bytesIn)
  | d, bytesIn, thisbyte :: rest =>
    match feedBits unpackd d (msb 8 thisbyte.toNat) with
    | .error stop => .error stop
    | .ok (d, true) => .ok (d, bytesIn + 1)
    | .ok (d, false) => decodeBytes unpackd d (bytesIn + 1) rest

/-- `unpack_decode`: what is written, and `bytes_in`. -/
def unpackDecode (unpackd : Descriptor) (bytesIn : Nat) (file : Bytes) :
    Except Stop (Bytes × Nat) := do
  let (d, bytesIn) ← decodeBytes unpackd ⟨0, 0, []⟩ bytesIn file
  if d.out.length ≠ unpackd.uncompressedSize then .error (.maybeErrx "Premature EOF")
  else .ok (d.out, bytesIn)

/-- What `unpack` leaves behind: its output, its value and `bytes_in`. -/
structure Unpacked where
  out : Bytes
  size : Nat
  bytesIn : Nat
  deriving DecidableEq, Repr

/-- `unpack` -/
def unpack (pre fresh : Bytes) (input : Input) : Except Stop Unpacked := do
  let (unpackd, file, bytesIn) ← parseHeader pre fresh input
  let (out, bytesIn) ← unpackDecode unpackd bytesIn file
  .ok ⟨out, unpackd.uncompressedSize, bytesIn⟩

end CheriGzip.Unpack
