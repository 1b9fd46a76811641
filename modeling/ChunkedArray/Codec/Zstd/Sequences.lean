import ChunkedArray.Codec.Zstd.Literals

/-!
# Compressed blocks

A compressed block holds literal bytes and a list of sequences. A sequence appends some literals and
then repeats a stretch of what came before. Its three numbers are written in finite-state codes: the
predefined ones, ones described in the block, or those of an earlier block. What is written here has
plain literals and uses the predefined codes.
-/

namespace ChunkedArray.Zstd

/-- A step of a compressed block. -/
structure Sequence where
  /-- How many literals are appended first. -/
  literals : Nat
  /-- How many bytes are repeated after them. -/
  length : Nat
  /-- The number that stands for the distance of the repetition. -/
  offset : Nat
deriving DecidableEq, Repr

/-- The three distances used last. -/
structure Recent where
  /-- The last distance. -/
  first : Nat := 1
  /-- The distance before it. -/
  second : Nat := 4
  /-- The distance before that. -/
  third : Nat := 8
deriving DecidableEq, Repr

/-- The distance that an offset number stands for: small numbers name recent distances, counted one
further when no literals come first. -/
def Recent.resolve (r : Recent) (literals offset : Nat) : Nat × Recent :=
  if 3 < offset then (offset - 3, ⟨offset - 3, r.first, r.second⟩)
  else
    match if literals = 0 then offset + 1 else offset with
    | 1 => (r.first, r)
    | 2 => (r.second, ⟨r.second, r.first, r.third⟩)
    | 3 => (r.third, ⟨r.third, r.first, r.second⟩)
    | _ => (r.first - 1, ⟨r.first - 1, r.first, r.second⟩)

/-- Appends `length` bytes, each the one `distance` before it. -/
def repeatBytes (distance : Nat) (out : Bytes) : (length : Nat) → Bytes
  | 0 => out
  | n + 1 => repeatBytes distance (out.push (out.getD (out.size - distance) 0)) n

/-- The place that a block has. -/
structure Room where
  /-- The largest content of a block. -/
  block : Nat
  /-- The bytes that are left for content. -/
  space : Nat
  /-- The first byte of the content that can still be repeated. -/
  reach : Nat
  /-- Whether the block belongs to a frame that is read at once. -/
  atOnce : Bool

namespace Room

/-- The largest number of literals. -/
def literalLimit (room : Room) : Nat :=
  min room.block room.space

/-- The largest content. In a frame read at once, literals that do not stay in place are kept 32
bytes behind the largest block if there is space for that, and the content may come up to them. -/
def contentLimit (room : Room) (literals : Nat) (inPlace : Bool) : Nat :=
  if room.atOnce then
    if inPlace ∨ room.space ≤ room.block + literals + 64 then room.space else room.block + 32
  else min room.block room.space

end Room

/-- Carries sequences out, up to `limit` bytes of content; the literals left over at the end are
appended. Bytes before `reach` cannot be repeated. -/
def execute (reach limit : Nat) (literals : Bytes) (pos : Nat) (recent : Recent) (out : Bytes) :
    List Sequence → Option (Bytes × Recent)
  | [] =>
    if limit < out.size + (literals.size - pos) then none
    else some (out ++ literals.extract pos, recent)
  | s :: rest =>
    let (distance, recent) := recent.resolve s.literals s.offset
    let next := pos + s.literals
    let start := out.size + s.literals
    if literals.size < next ∨ distance = 0 ∨ start < reach + distance ∨
        limit < start + s.length then none
    else
      execute reach limit literals next recent
        (repeatBytes distance (out ++ literals.extract pos next) s.length) rest

/-- Reads a number in a number code, its symbol given. -/
def readNumber (code : NumberCode) (symbol : Nat) (bits : List Bool) : Option (Nat × List Bool) :=
  do
    let (base, width) ← code[symbol]?
    let (n, bits) ← takeBits width bits
    some (base + n, bits)

/-- The codes of the three numbers of a sequence. -/
structure SequenceTables where
  /-- The code of literal lengths. -/
  literals : StateTable
  /-- The code of offset values. -/
  offsets : StateTable
  /-- The code of match lengths. -/
  lengths : StateTable

/-- Reads `count` sequences, given the states of the three codes. They take all the bits. -/
def readSequences (t : SequenceTables) (l o m : Nat) (done : List Sequence) : (count : Nat) →
    List Bool → Option (List Sequence)
  | 0, bits => if bits.isEmpty then some done.reverse else none
  | count + 1, bits => do
    let (offset, bits) ← readNumber offsetCode (t.offsets.symbol o) bits
    let (length, bits) ← readNumber matchLengthCode (t.lengths.symbol m) bits
    let (literals, bits) ← readNumber literalLengthCode (t.literals.symbol l) bits
    let done := ⟨literals, length, offset⟩ :: done
    if count = 0 then readSequences t l o m done count bits
    else
      let (l, bits) ← t.literals.advance l bits
      let (m, bits) ← t.lengths.advance m bits
      let (o, bits) ← t.offsets.advance o bits
      readSequences t l o m done count bits

/-- Reads the number of sequences at `pos`. Gives it and the position behind it. -/
def readCount (b : Bytes) (pos : Nat) : Option (Nat × Nat) :=
  let x := (b.getD pos 0).toNat
  let y := (b.getD (pos + 1) 0).toNat
  let z := (b.getD (pos + 2) 0).toNat
  let (count, pos) :=
    if x < 128 then (x, pos + 1)
    else if x < 255 then ((x - 128) * 256 + y, pos + 2)
    else (y + z * 256 + 0x7f00, pos + 3)
  if pos ≤ b.size then some (count, pos) else none

/-- A number of a sequence: the codes in which it may be written. -/
structure SequenceNumber where
  /-- The numbers that the symbols stand for. -/
  code : NumberCode
  /-- The predefined table. -/
  predefined : StateTable
  /-- The binary logarithm of the size of the largest table that a block may describe. -/
  maxLog : Nat

/-- Reads a table at `pos`: the predefined one, one with a single symbol, one that is described, or
the one of an earlier block. Gives it and the position behind it. -/
def readTable (n : SequenceNumber) (former : Option StateTable) (mode : Nat) (b : Bytes)
    (pos : Nat) : Option (StateTable × Nat) :=
  match mode with
  | 0 => some (n.predefined, pos)
  | 1 =>
    let symbol := (b.getD pos 0).toNat
    if b.size ≤ pos ∨ n.code.size ≤ symbol then none else some (.single symbol, pos + 1)
  | 2 => do
    let (w, used) ← readDescription (b.extract pos) n.code.size
    if n.maxLog < w.log then none else some (.ofWeights w.log w.weights, pos + used)
  | _ => former.map fun t => (t, pos)

/-- Reads the tables behind the byte at `pos` that says how each is given. Gives them and the
position behind them. -/
def readTables (former : Option SequenceTables) (b : Bytes) (pos : Nat) :
    Option (SequenceTables × Nat) := do
  let modes := (b.getD pos 0).toNat
  if b.size ≤ pos ∨ modes % 4 ≠ 0 then none
  else
    let (literals, pos) ← readTable ⟨literalLengthCode, literalLengthTable, 9⟩
      (former.map (·.literals)) (modes / 64) b (pos + 1)
    let (offsets, pos) ← readTable ⟨offsetCode, offsetTable, 8⟩
      (former.map (·.offsets)) (modes / 16 % 4) b pos
    let (lengths, pos) ← readTable ⟨matchLengthCode, matchLengthTable, 9⟩
      (former.map (·.lengths)) (modes / 4 % 4) b pos
    some (⟨literals, offsets, lengths⟩, pos)

/-- What a compressed block leaves to the later blocks of its frame. -/
structure Memory where
  /-- The distances used last. -/
  recent : Recent := {}
  /-- The prefix code described last. -/
  code : Option PrefixCode := none
  /-- The codes of sequences used last. -/
  tables : Option SequenceTables := none

/-- Decodes a compressed block behind what a frame holds so far. -/
def decodeCompressed (room : Room) (memory : Memory) (out b : Bytes) : Option (Bytes × Memory) := do
  let head := LiteralHead.read b
  if room.literalLimit < head.count then none
  else
    let (literals, code) ← readLiterals memory.code head b
    let (count, pos) ← readCount b head.stop
    let limit := out.size + room.contentLimit literals.size (head.staysInPlace b)
    if count = 0 then
      if pos ≠ b.size ∨ limit < out.size + literals.size then none
      else some (out ++ literals, { memory with code })
    else
      let (t, pos) ← readTables memory.tables b pos
      let bits ← unpackBits (b.extract pos)
      let (l, bits) ← takeBits t.literals.log bits
      let (o, bits) ← takeBits t.offsets.log bits
      let (m, bits) ← takeBits t.lengths.log bits
      let sequences ← readSequences t l o m [] count bits
      let (out, recent) ← execute room.reach limit literals 0 memory.recent out sequences
      some (out, ⟨recent, code, some t⟩)

/-- The states that a list of symbols passes through in a table. -/
def statePath (t : StateTable) : List Nat → Option (List Nat)
  | [] => some []
  | s :: rest => do
    let path ← statePath t rest
    let state ← t.before? s path.head?
    some (state :: path)

/-- The bits of a number in a number code, its symbol given. -/
def numberBits (code : NumberCode) (symbol n : Nat) : List Bool :=
  let p := code.getD symbol (0, 0)
  bitsOf p.2 (n - p.1)

/-- One sequence with the states of its three codes. -/
structure CodedSequence where
  /-- The sequence. -/
  sequence : Sequence
  /-- The state of the literal length. -/
  literalState : Nat
  /-- The state of the offset. -/
  offsetState : Nat
  /-- The state of the match length. -/
  matchState : Nat

/-- The bits of coded sequences behind the first states. -/
def codedBits : List CodedSequence → List Bool
  | [] => []
  | c :: rest =>
    let s := c.sequence
    numberBits offsetCode (offsetTable.symbol c.offsetState) s.offset ++
      numberBits matchLengthCode (matchLengthTable.symbol c.matchState) s.length ++
      numberBits literalLengthCode (literalLengthTable.symbol c.literalState) s.literals ++
      (match rest with
        | [] => []
        | next :: _ =>
          literalLengthTable.bitsTo c.literalState next.literalState ++
            matchLengthTable.bitsTo c.matchState next.matchState ++
            offsetTable.bitsTo c.offsetState next.offsetState) ++
      codedBits rest

/-- The bit stream of a list of sequences. -/
def sequenceBits (sequences : List Sequence) : Option (List Bool) := do
  let ls ← statePath literalLengthTable
    (← sequences.mapM fun s => literalLengthCode.symbolOf? s.literals)
  let os ← statePath offsetTable (← sequences.mapM fun s => offsetCode.symbolOf? s.offset)
  let ms ← statePath matchLengthTable
    (← sequences.mapM fun s => matchLengthCode.symbolOf? s.length)
  let coded := List.zipWith (fun s p => CodedSequence.mk s p.1 p.2.1 p.2.2) sequences
    (ls.zip (os.zip ms))
  some (bitsOf literalLengthTable.log (ls.headD 0) ++ bitsOf offsetTable.log (os.headD 0) ++
    bitsOf matchLengthTable.log (ms.headD 0) ++ codedBits coded)

/-- A compressed block of fewer than `0x7f00` sequences. -/
def encodeCompressed (literals : Bytes) (sequences : List Sequence) : Option Bytes := do
  let count := sequences.length
  let countBytes ←
    if count = 0 then none
    else if count < 128 then some #[UInt8.ofNat count]
    else if count < 0x7f00 then some #[UInt8.ofNat (count / 256 + 128), UInt8.ofNat (count % 256)]
    else none
  let bits ← sequenceBits sequences
  some (LittleEndian.bytes 3 (literals.size * 16 + 12) ++ literals ++ countBytes ++ #[0] ++
    packBits bits)

end ChunkedArray.Zstd
