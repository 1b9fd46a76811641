import ChunkedArray.Bytes.LittleEndian
import ChunkedArray.Codec.Config

/-!
# Frame headers

Everything of a frame but its chunks. A prefix of twelve bytes holds the magic number, the version,
the flags and the length of the rest; the rest holds the codec parameters as JSON, the sizes of the
store, the metadata in stored form, and a row of two sizes for every chunk. Reading checks each
length against what is left before it is used, and the total of the index against the declared one.
-/

namespace ChunkedArray

/-- The sizes of a chunk in the index of a frame. -/
structure IndexEntry where
  /-- The size of the serialized form. -/
  cbytes : Nat
  /-- The size of the raw bytes. -/
  nbytes : Nat
deriving DecidableEq, Repr

/-- The header of a frame. -/
structure FrameHeader where
  /-- The version of the format. -/
  version : Nat
  /-- The flags; the lowest bit says that the chunks lie in files of their own. -/
  flags : UInt16
  /-- The codec parameters of the store. -/
  codec : CodecConfig
  /-- The nominal chunk size. -/
  chunkSize : Nat
  /-- The size of the content. -/
  nbytes : Nat
  /-- Whether chunks of other sizes are allowed. -/
  allowResize : Bool
  /-- The metadata entries in stored form. -/
  metadata : List (String × Bytes)
  /-- The sizes of the chunks. -/
  index : List IndexEntry
  /-- The size of prefix and header; the chunks of a contiguous frame start here. -/
  headerSize : Nat := 0
deriving DecidableEq, Repr

namespace FrameHeader

/-- The four letters that start a frame. -/
def magic : Bytes := #[0x54, 0x42, 0x4b, 0x46]

/-- The version that is written, and the latest that is read. -/
def formatVersion : Nat := 1

/-- The size of the prefix. -/
def prefixSize : Nat := 12

/-- The flag of the layout with a file for every chunk. -/
def sparseFlag : UInt16 := 1

/-- The longest field that is written behind a length of four bytes. -/
def maxFieldLength : Nat := 16 * 1024 * 1024

/-- Whether the chunks lie in files of their own. -/
def isSparse (h : FrameHeader) : Bool := h.flags &&& sparseFlag != 0

/-- A sum of sizes that must fit a word. -/
def checkedTotal (what : String) (sizes : List Nat) : Result Nat :=
  if sizes.sum < 2 ^ 64 then .ok sizes.sum else .error (.format (.sizesOverflow what))

/-- The size of all chunks in serialized form. -/
def payloadSize (h : FrameHeader) : Result Nat :=
  checkedTotal "compressed" (h.index.map IndexEntry.cbytes)

/-! ## Writing -/

/-- A field behind its length in two bytes. -/
def shortField (b : Bytes) : Result Bytes :=
  if b.size < 2 ^ 16 then .ok (LittleEndian.bytes 2 b.size ++ b)
  else .error (.format (.fieldLength b.size 2))

/-- A field behind its length in four bytes. -/
def longField (b : Bytes) : Result Bytes :=
  if b.size ≤ maxFieldLength then .ok (LittleEndian.bytes 4 b.size ++ b)
  else .error (.format (.fieldLength b.size 4))

/-- The metadata entries, each a short key and a long value. -/
def metadataBytes : List (String × Bytes) → Result (List Bytes)
  | [] => .ok []
  | (key, value) :: rest => do
    let key ← shortField key.toUTF8.data
    let value ← longField value
    let rest ← metadataBytes rest
    pure (key :: value :: rest)

/-- The row of a chunk. -/
def rowBytes (e : IndexEntry) : Bytes :=
  LittleEndian.bytes 8 e.cbytes ++ LittleEndian.bytes 8 e.nbytes

/-- Prefix and header. The length of the header is written in four bytes. -/
def toBytes (h : FrameHeader) : Result Bytes := do
  let codec ← longField h.codec.toJson.render.toArray
  let metadata ← metadataBytes h.metadata
  let body := Bytes.concat (
    [codec, LittleEndian.bytes 8 h.chunkSize, LittleEndian.bytes 8 h.nbytes,
      #[if h.allowResize then 1 else 0], LittleEndian.bytes 4 h.metadata.length] ++
    metadata ++
    LittleEndian.bytes 8 h.index.length :: h.index.map rowBytes)
  pure (magic ++ LittleEndian.bytes 2 formatVersion ++ LittleEndian.bytes 2 h.flags.toNat ++
    LittleEndian.bytes 4 body.size ++ body)

/-! ### Piece by piece -/

/-- A field of at most `limit` bytes behind its length in `width` bytes, as two pieces. -/
def fieldPieces (width limit : Nat) (b : Bytes) : Result (List Bytes) :=
  if b.size ≤ limit then .ok [LittleEndian.bytes width b.size, b]
  else .error (.format (.fieldLength b.size width))

/-- The metadata entries in pieces. -/
def metadataPieces : List (String × Bytes) → Result (List Bytes)
  | [] => .ok []
  | (key, value) :: rest => do
    let key ← fieldPieces 2 (2 ^ 16 - 1) key.toUTF8.data
    let value ← fieldPieces 4 maxFieldLength value
    let rest ← metadataPieces rest
    pure (key ++ value ++ rest)

/-- Prefix and header in pieces, among them the values as the header holds them: of a header with long
values no copy has to be made to see what is written. -/
def pieces (h : FrameHeader) : Result (List Bytes) := do
  let codec ← fieldPieces 4 maxFieldLength h.codec.toJson.render.toArray
  let metadata ← metadataPieces h.metadata
  let body := codec ++ [LittleEndian.bytes 8 h.chunkSize, LittleEndian.bytes 8 h.nbytes,
      #[if h.allowResize then 1 else 0], LittleEndian.bytes 4 h.metadata.length] ++
    metadata ++
    LittleEndian.bytes 8 h.index.length :: h.index.map rowBytes
  pure (magic :: LittleEndian.bytes 2 formatVersion :: LittleEndian.bytes 2 h.flags.toNat ::
    LittleEndian.bytes 4 (body.map Array.size).sum :: body)

/-! ## Reading -/

/-- Reads fields off the front of a byte string. -/
abbrev FieldReader (α : Type) := StateT (List UInt8) Result α

/-- Reads the next `n` bytes. -/
def take (n : Nat) : FieldReader (List UInt8) := fun s =>
  let taken := s.take n
  if taken.length = n then .ok (taken, s.drop n) else .error (.format .endOfHeader)

/-- Reads a number of `width` bytes. -/
def number (width : Nat) : FieldReader Nat := do
  pure (LittleEndian.toNat (← take width))

/-- Reads a field behind its length in `width` bytes. -/
def field (width : Nat) : FieldReader (List UInt8) := do
  let n ← number width
  fun s =>
    let taken := s.take n
    if taken.length = n then .ok (taken, s.drop n)
    else .error (.format (.declaredLength n s.length))

/-- Reads the codec parameters and checks them. -/
def codecField : FieldReader CodecConfig := do
  let text ← field 4
  liftM (n := FieldReader) (CodecConfig.load text)

/-- Reads `count` metadata entries behind those in `done`, the last one first. -/
def metadataFields (done : List (String × Bytes)) : (count : Nat) →
    FieldReader (List (String × Bytes))
  | 0 => pure done.reverse
  | count + 1 => do
    let key ← field 2
    let key ← liftM (n := FieldReader)
      ((Utf8.decode key).mapError fun fault => Error.format (.keyEncoding fault))
    let value ← field 4
    metadataFields ((key, value.toArray) :: done) count

/-- Reads `count` rows of the index behind those in `done`, the last one first. -/
def rows (done : List IndexEntry) : (count : Nat) → FieldReader (List IndexEntry)
  | 0 => pure done.reverse
  | count + 1 => do
    let cbytes ← number 8
    let nbytes ← number 8
    rows (⟨cbytes, nbytes⟩ :: done) count

/-- Reads a header of `length` bytes behind the prefix. -/
def body (version : Nat) (flags : UInt16) (length : Nat) : FieldReader FrameHeader := do
  let codec ← codecField
  let chunkSize ← number 8
  let nbytes ← number 8
  let resize ← number 1
  let entries ← number 4
  let metadata ← metadataFields [] entries
  let nchunks ← number 8
  if length / 16 < nchunks then throw (.format (.chunkCount nchunks length))
  let index ← rows [] nchunks
  let declared ← liftM (n := FieldReader)
    (checkedTotal "uncompressed" (index.map IndexEntry.nbytes))
  if declared ≠ nbytes then throw (.format (.indexTotal declared nbytes))
  pure {
    version, flags, codec, chunkSize, nbytes, metadata, index
    allowResize := resize ≠ 0
    headerSize := prefixSize + length }

/-- Reads prefix and header at the front of a byte string. -/
def peek (b : Bytes) : Result FrameHeader :=
  if b.size < prefixSize then .error (.format (.frameTooSmall prefixSize b.size))
  else if b.slice 0 4 ≠ magic then .error (.format .magic)
  else
    let version := LittleEndian.readAt b 4 2
    let flags := UInt16.ofNat (LittleEndian.readAt b 6 2)
    let length := LittleEndian.readAt b 8 4
    if formatVersion < version then .error (.version version formatVersion)
    else if version = 0 then .error (.format .versionZero)
    else if b.size < prefixSize + length then .error (.format .headerLength)
    else do
      let (header, _) ← (body version flags length).run (b.slice prefixSize length).toList
      pure header

end FrameHeader

end ChunkedArray
