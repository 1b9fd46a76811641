import ChunkedArray.Codec.Config

/-!
# Parameters of arrays, evaluations and packed tensors

Each group of parameters is read from JSON with defaults for missing members. Only the codec
parameters of packed tensors are checked on reading.
-/

namespace ChunkedArray

/-- The geometry and compression of a new array. -/
structure ArrayParams where
  /-- The chunk shape; derived from the array if absent. -/
  chunks : Option Shape := none
  /-- The block shape; derived from the chunks if absent. -/
  blocks : Option Shape := none
  /-- The codec parameters. -/
  codec : CodecConfig := {}
deriving DecidableEq, Repr

/-- The parameters of one evaluation. What is absent is taken from the first array operand. -/
structure EvalParams where
  /-- The chunk shape of the result. -/
  chunks : Option Shape := none
  /-- The block shape of the result. -/
  blocks : Option Shape := none
  /-- The codec parameters of the result. -/
  codec : Option CodecConfig := none
  /-- The number of workers. -/
  nthreads : Option Nat := none
deriving DecidableEq, Repr

/-- The parameters of a packed tensor. -/
structure PackParams where
  /-- The codec parameters. -/
  codec : CodecConfig := {}
  /-- The size aimed at for a chunk, in bytes. -/
  chunkSize : Nat := 4 * 1024 * 1024
  /-- Whether the tensor is saved as one file rather than as a directory. -/
  contiguous : Bool := true
deriving DecidableEq, Repr

/-- Reads a shape that may be absent. -/
def shapeOrNull? : Json → Option (Option Shape) :=
  Json.nullable (Json.list? (Json.natBelow? (2 ^ 64)))

/-- A shape as a JSON list. -/
def shapeJson (shape : Shape) : Json :=
  .array (shape.map fun (n : Nat) => Json.ofInt n)

/-- A value that may be absent as JSON. -/
def orNull {α : Type} (f : α → Json) : Option α → Json
  | some a => f a
  | none => .null

namespace ArrayParams

/-- Reads array parameters. -/
def ofJson? (j : Json) : Option ArrayParams := do
  match ← Json.structure? ["chunks", "blocks", "codec"] j with
  | [chunks, blocks, codec] =>
    let chunks ← Json.orDefault none shapeOrNull? chunks
    let blocks ← Json.orDefault none shapeOrNull? blocks
    let codec ← Json.orDefault {} CodecConfig.ofJson? codec
    some { chunks, blocks, codec }
  | _ => none

/-- Array parameters as a JSON object with every member. -/
def toJson (p : ArrayParams) : Json :=
  .object [
    CodecConfig.jsonMember "chunks" (orNull shapeJson p.chunks),
    CodecConfig.jsonMember "blocks" (orNull shapeJson p.blocks),
    CodecConfig.jsonMember "codec" p.codec.toJson]

/-- Reads array parameters from a JSON text. -/
def load (text : List UInt8) : Result ArrayParams :=
  match (Json.parse? text).bind ofJson? with
  | some p => .ok p
  | none => .error .json

end ArrayParams

namespace EvalParams

/-- Reads evaluation parameters. -/
def ofJson? (j : Json) : Option EvalParams := do
  match ← Json.structure? ["chunks", "blocks", "codec", "nthreads"] j with
  | [chunks, blocks, codec, nthreads] =>
    let chunks ← Json.orDefault none shapeOrNull? chunks
    let blocks ← Json.orDefault none shapeOrNull? blocks
    let codec ← Json.orDefault none (Json.nullable CodecConfig.ofJson?) codec
    let nthreads ← Json.orDefault none (Json.nullable (Json.natBelow? (2 ^ 64))) nthreads
    some { chunks, blocks, codec, nthreads }
  | _ => none

/-- Evaluation parameters as a JSON object with every member. -/
def toJson (p : EvalParams) : Json :=
  .object [
    CodecConfig.jsonMember "chunks" (orNull shapeJson p.chunks),
    CodecConfig.jsonMember "blocks" (orNull shapeJson p.blocks),
    CodecConfig.jsonMember "codec" (orNull CodecConfig.toJson p.codec),
    CodecConfig.jsonMember "nthreads" (orNull (fun n : Nat => Json.ofInt n) p.nthreads)]

/-- Reads evaluation parameters from a JSON text. -/
def load (text : List UInt8) : Result EvalParams :=
  match (Json.parse? text).bind ofJson? with
  | some p => .ok p
  | none => .error .json

end EvalParams

namespace PackParams

/-- Reads packing parameters. -/
def ofJson? (j : Json) : Option PackParams := do
  match ← Json.structure? ["codec", "chunk_nbytes", "contiguous"] j with
  | [codec, chunkSize, contiguous] =>
    let codec ← Json.orDefault {} CodecConfig.ofJson? codec
    let chunkSize ← Json.orDefault (4 * 1024 * 1024) (Json.natBelow? (2 ^ 64)) chunkSize
    let contiguous ← Json.orDefault true Json.bool? contiguous
    some { codec, chunkSize, contiguous }
  | _ => none

/-- Packing parameters as a JSON object with every member. -/
def toJson (p : PackParams) : Json :=
  .object [
    CodecConfig.jsonMember "codec" p.codec.toJson,
    CodecConfig.jsonMember "chunk_nbytes" (Json.ofInt p.chunkSize),
    CodecConfig.jsonMember "contiguous" (.bool p.contiguous)]

/-- Reads packing parameters from a JSON text and checks the codec parameters. -/
def load (text : List UInt8) : Result PackParams :=
  match (Json.parse? text).bind ofJson? with
  | some p => do
    p.codec.validate
    pure p
  | none => .error .json

end PackParams

end ChunkedArray
