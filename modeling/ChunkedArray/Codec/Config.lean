import ChunkedArray.Error
import ChunkedArray.Json.Reader

/-!
# Codec parameters

Which codec and which filters a store uses for the blocks of its chunks. Parameters read from JSON
take defaults for missing members and are not checked; `validate` is called where they are bound to
a store.
-/

namespace ChunkedArray

/-- The entropy coder of a block. -/
inductive CodecId where
  /-- Zstandard frames. -/
  | zstd
  /-- The filtered block as it is. -/
  | noop
deriving DecidableEq, Repr

namespace CodecId

/-- The number of a codec in a chunk header. -/
def toByte : CodecId → UInt8
  | zstd => 1
  | noop => 0

/-- The codec with a given number. -/
def ofByte (b : UInt8) : Result CodecId :=
  if b = 0 then .ok noop
  else if b = 1 then .ok zstd
  else .error (.format (.unknownCodec b.toNat))

/-- The name of a codec. -/
def name : CodecId → String
  | zstd => "zstd"
  | noop => "noop"

/-- Reads a codec name. -/
def ofJson? (j : Json) : Option CodecId :=
  match Json.variantName? j with
  | some "zstd" => some zstd
  | some "noop" => some noop
  | _ => none

theorem ofByte_toByte (id : CodecId) : ofByte id.toByte = .ok id := by
  cases id <;> rfl

end CodecId

/-- A rearrangement of the bytes of a block before it is coded. -/
inductive Filter where
  /-- Groups the bytes of the elements by significance. -/
  | shuffle
  /-- Replaces every element by its difference to the one before. -/
  | delta
deriving DecidableEq, Repr

namespace Filter

/-- The bit of a filter in the mask of a chunk header. -/
def bit : Filter → UInt8
  | shuffle => 1
  | delta => 2

/-- The name of a filter. -/
def name : Filter → String
  | shuffle => "shuffle"
  | delta => "delta"

/-- Reads a filter name. -/
def ofJson? (j : Json) : Option Filter :=
  match Json.variantName? j with
  | some "shuffle" => some shuffle
  | some "delta" => some delta
  | _ => none

/-- The mask of a list of filters. -/
def mask (filters : List Filter) : UInt8 :=
  filters.foldl (fun m f => m ||| f.bit) 0

/-- The filters of a mask in the order in which they are applied: differences are taken between
whole elements, so they come first. -/
def ofMask (mask : UInt8) : List Filter :=
  [delta, shuffle].filter fun f => mask &&& f.bit != 0

end Filter

/-- The parameters by which the chunks of a store are compressed. -/
structure CodecConfig where
  /-- The codec of every block. -/
  codec : CodecId := .zstd
  /-- The compression level; level zero stores blocks as they are. -/
  level : Nat := 5
  /-- The filters. -/
  filters : List Filter := [.shuffle]
  /-- The size of a block in bytes; zero means one block for the chunk. -/
  blockSize : Nat := 0
  /-- The width of the elements that the filters see. -/
  typesize : Nat := 1
deriving DecidableEq, Repr

namespace CodecConfig

/-- Checks the ranges of the parameters. -/
def validate (c : CodecConfig) : Result Unit :=
  if 9 < c.level then .error (.parameter (.level c.level))
  else if c.typesize = 0 ∨ 255 < c.typesize then .error (.parameter (.typesize c.typesize))
  else .ok ()

/-- The member names of codec parameters. -/
def memberNames : List String := ["codec", "level", "filters", "block_size", "typesize"]

/-- Reads codec parameters without checking their ranges. -/
def ofJson? (j : Json) : Option CodecConfig := do
  match ← Json.structure? memberNames j with
  | [codec, level, filters, blockSize, typesize] =>
    let codec ← Json.orDefault .zstd CodecId.ofJson? codec
    let level ← Json.orDefault 5 (Json.natBelow? (2 ^ 8)) level
    let filters ← Json.orDefault [.shuffle] (Json.list? Filter.ofJson?) filters
    let blockSize ← Json.orDefault 0 (Json.natBelow? (2 ^ 64)) blockSize
    let typesize ← Json.orDefault 1 (Json.natBelow? (2 ^ 64)) typesize
    some { codec, level, filters, blockSize, typesize }
  | _ => none

/-- A member of a JSON object. -/
def jsonMember (name : String) (item : Json) : List UInt8 × Json :=
  (Utf8.encode name, item)

/-- Codec parameters as a JSON object with every member. -/
def toJson (c : CodecConfig) : Json :=
  .object [
    jsonMember "codec" (Json.ofText c.codec.name),
    jsonMember "level" (Json.ofInt c.level),
    jsonMember "filters" (.array (c.filters.map fun f => Json.ofText f.name)),
    jsonMember "block_size" (Json.ofInt c.blockSize),
    jsonMember "typesize" (Json.ofInt c.typesize)]

/-- Reads codec parameters from a JSON text. -/
def ofText (text : List UInt8) : Result CodecConfig :=
  match (Json.parse? text).bind ofJson? with
  | some c => .ok c
  | none => .error .json

/-- Reads codec parameters from a JSON text and checks them. -/
def load (text : List UInt8) : Result CodecConfig := do
  let c ← ofText text
  c.validate
  pure c

end CodecConfig

end ChunkedArray
