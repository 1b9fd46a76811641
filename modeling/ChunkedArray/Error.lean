import ChunkedArray.DType.Basic
import ChunkedArray.Metadata.Value
import ChunkedArray.Shape.Basic
import ChunkedArray.Text.Hex

/-!
# Errors

Every way in which an operation of the library is refused. The causes are grouped by what they
concern; each group has one function that words its causes, and `Error.message` puts the heading of
the group in front. Faults of shapes, item types and indices are found before any chunk is read.
-/

namespace ChunkedArray

/-- Sizes and shapes that do not fit together. -/
inductive ShapeFault where
  /-- The output buffer is not as long as the chunk. -/
  | outputLength (given held : Nat)
  /-- The data of a buffer has the wrong length. -/
  | bufferLength (length : Nat) (shape : Shape) (dtype : DType)
  /-- The data of a new array has the wrong length. -/
  | arrayLength (length : Nat) (shape : Shape) (dtype : DType) (expected : Nat)
  /-- The data of a tensor has the wrong length. -/
  | tensorLength (shape : Shape) (dtype : DType) (expected length : Nat)
  /-- The chunk shape has another rank than the array. -/
  | chunkRank (chunks : Shape) (rank : Nat)
  /-- The value written has neither one element nor as many as the region. -/
  | regionLength (length : Nat) (region : Shape) (dtype : DType)
  /-- The typed value written has neither one element nor the shape of the region. -/
  | regionShape (values region : Shape)
  /-- There are fewer elements than the shape needs. -/
  | tooFewElements
  /-- There are more elements than the shape holds. -/
  | tooManyElements
  /-- There are more elements in the shape than a signed word counts. -/
  | uncountable
  /-- Two shapes have no common broadcast. -/
  | notBroadcastable (a b : Shape)
  /-- An operand cannot be stretched to a shape. -/
  | notStretchable (operand target : Shape)
  /-- Two operands have too large a common shape. -/
  | notCombinable (a b : Shape)

/-- Item layouts that an operation does not accept. -/
inductive DTypeFault where
  /-- A record without fields. -/
  | noFields
  /-- A record that uses a name twice. -/
  | duplicateField (name : String)
  /-- A layout without the field asked for. -/
  | noField (dtype : DType) (name : String)
  /-- A record descriptor that is no JSON list of pairs of strings. -/
  | malformedRecord
  /-- A descriptor that names no layout. -/
  | unrecognized (descriptor : String)
  /-- Data of another layout than the kind asked for. -/
  | kindMismatch (requested : ScalarKind) (held : DType)
  /-- A tensor of another layout than the kind asked for. -/
  | tensorKind (held : DType) (requested : ScalarKind)
  /-- An operand of the arithmetic that is no scalar array. -/
  | notArithmetic (dtype : DType)
  /-- A field used as an operand that is no scalar. -/
  | fieldNotNumeric (name : String) (dtype : DType)
  /-- The negative of a truth value. -/
  | negatedBool
  /-- The complement of a floating-point number. -/
  | complementOfFloat (kind : ScalarKind)
  /-- A bitwise operator between floating-point numbers. -/
  | bitwiseOfFloat (op : String) (kind : ScalarKind)

/-- Positions outside what they index. -/
inductive IndexFault where
  /-- A single position outside its axis. -/
  | axis (index : Int) (length : Nat)
  /-- A bound of a strict slice outside its axis. -/
  | sliceBound (bound : Int) (length : Nat)
  /-- A region with more dimensions than the array. -/
  | rank (region array : Nat)
  /-- A byte range outside a chunk. -/
  | chunkRange (start stop size : Nat)
  /-- A byte range outside a store. -/
  | storeRange (start stop size : Nat)
  /-- A chunk index outside the table. -/
  | chunk (index count : Nat)
  /-- A chunk that was reserved and never written. -/
  | reserved (index : Nat)

/-- Parameters outside their range. -/
inductive ParameterFault where
  /-- A compression level above nine. -/
  | level (level : Nat)
  /-- An element width that is zero or does not fit a byte. -/
  | typesize (typesize : Nat)
  /-- A nominal chunk size of zero. -/
  | emptyChunks
  /-- A block too large for its field in the chunk header. -/
  | blockSize (size : Nat)
  /-- An appended chunk that is empty or larger than the nominal size. -/
  | appendLength (limit length : Nat)
  /-- An append after a chunk shorter than the nominal size. -/
  | afterShortChunk (index length nominal : Nat)
  /-- An inserted chunk of another size than the nominal one. -/
  | insertLength (index length expected : Nat)
  /-- A replacement of another size than the chunk it replaces. -/
  | replaceLength (index length expected : Nat)
  /-- A slice with step zero. -/
  | zeroStep
  /-- A chunk shape with an axis of length zero. -/
  | emptyChunkShape (chunks : Shape)
  /-- A block shape that is empty or larger than the chunk. -/
  | blockShape (blocks chunks : Shape)
  /-- An item layout of size zero. -/
  | emptyItem (dtype : DType)
  /-- A projection that reaches beyond the item. -/
  | projection (start stop itemsize : Nat)
  /-- A user function without inputs. -/
  | noInputs (name : String)
  /-- A worker pool without workers. -/
  | noThreads
  /-- A cause worded by the caller. -/
  | custom (text : String)

/-- Blocks that cannot be decoded. -/
inductive CodecFault where
  /-- A stored block of the wrong length. -/
  | storedLength (length expected : Nat)
  /-- A compressed block that holds another number of bytes than expected. -/
  | contentLength (expected length : Nat)
  /-- A compressed block that is no sequence of whole frames. -/
  | malformed
  /-- A block whose end lies before its start or outside the chunk. -/
  | blockOffsets (block : Nat)

/-- Serialized forms that cannot be read, or cannot be written. -/
inductive FormatFault where
  /-- A codec number that names no codec. -/
  | unknownCodec (id : Nat)
  /-- A chunk shorter than its header. -/
  | chunkTooSmall (minimum length : Nat)
  /-- A chunk shorter than its header says. -/
  | chunkTruncated (minimum length : Nat)
  /-- Block count, block size and chunk size that contradict each other. -/
  | blockLayout (count size total : Nat)
  /-- A block table longer than its chunk. -/
  | blockTable (count length : Nat)
  /-- A metadata value that is no list. -/
  | notAList (value : MetaValue)
  /-- A metadata list item that is no axis length. -/
  | notAnAxis (value : MetaValue)
  /-- A frame shorter than its prefix. -/
  | frameTooSmall (minimum length : Nat)
  /-- A frame without the magic number. -/
  | magic
  /-- A frame of version zero. -/
  | versionZero
  /-- A header longer than the frame. -/
  | headerLength
  /-- A header that ends inside a field. -/
  | endOfHeader
  /-- A metadata key that is not UTF-8. -/
  | keyEncoding (fault : Utf8.Fault)
  /-- A declared length beyond the rest of the header. -/
  | declaredLength (length remaining : Nat)
  /-- More chunks than rows fit the header. -/
  | chunkCount (count headerLength : Nat)
  /-- An index whose sizes do not fit a word. -/
  | sizesOverflow (what : String)
  /-- An index whose sizes do not add up to the declared total. -/
  | indexTotal (covered declared : Nat)
  /-- A field too long for its length field. -/
  | fieldLength (length width : Nat)
  /-- A chunk of another size than its index row says. -/
  | chunkSize (index length expected : Nat)
  /-- A sparse header where a whole frame is expected. -/
  | sparseHeader
  /-- A frame whose end does not fit a word. -/
  | payloadOverflow
  /-- A frame without its last chunks. -/
  | frameTruncated (expected length : Nat)
  /-- A header file of a whole frame. -/
  | notSparse (path : String)
  /-- A chunk file of another length than its index row says. -/
  | chunkFile (index length expected : Nat)
  /-- A chunk fetched late whose size is not the announced one. -/
  | lateChunk (index length expected : Nat)
  /-- Array metadata that is no map. -/
  | geometryNotMap
  /-- Array metadata without one of its entries. -/
  | geometryMissing (key : String)
  /-- Array metadata whose descriptor is no text. -/
  | geometryDType
  /-- A store whose chunks do not make up the array. -/
  | geometryChunks (count size neededCount neededSize : Nat)
  /-- Tensor metadata whose descriptor is no text. -/
  | tensorDType
  /-- Tensor metadata that contradicts the data. -/
  | tensorInconsistent (fault : ShapeFault)
  /-- A single-chunk frame with several chunks. -/
  | notSingleChunk (count : Nat)

/-- Failures of user functions. -/
inductive UserFault where
  /-- The function failed with an error of another group. -/
  | failed (name reason : String)
  /-- The function left another buffer than it was given. -/
  | replacedOutput (name : String) (kind : ScalarKind) (shape : Shape)
  /-- The function reported its own failure. -/
  | custom (text : String)

/-- Broken invariants. -/
inductive InternalFault where
  /-- A slot was filled a second time. -/
  | filledTwice (index : Nat)
  /-- A chunk is pending and nothing can fetch it. -/
  | noSource (index : Nat)
  /-- An operator met a representation that typing excludes. -/
  | unsupported (op : String) (kind : ScalarKind)
  /-- An expression refers to an array that is not there. -/
  | noArray (name : String)

/-- Failures of the file system. -/
inductive IoFault where
  /-- There is no such file or directory. -/
  | notFound
  /-- The path leads through a file. -/
  | notADirectory
  /-- A directory stands where a file is expected. -/
  | isADirectory
  /-- Something stands where a directory is to be made. -/
  | alreadyExists
  /-- A name or a path is too long. -/
  | nameTooLong
  /-- The NUL character occurs in a path. -/
  | nulInName
  /-- A path that ends by staying in place is to be removed. -/
  | invalidArgument
deriving DecidableEq, Repr

/-- Computations that break off. -/
inductive Breakdown where
  /-- Items were to be cut into parts of no bytes. -/
  | emptyParts

/-- The reason why an operation was refused, or did not come to its end. -/
inductive Error where
  /-- Sizes or shapes do not fit together. -/
  | shape (fault : ShapeFault)
  /-- An item layout is not accepted. -/
  | dtype (fault : DTypeFault)
  /-- A position lies outside. -/
  | index (fault : IndexFault)
  /-- A parameter is out of range. -/
  | parameter (fault : ParameterFault)
  /-- A block of a chunk cannot be decoded. -/
  | codec (chunk : Nat) (fault : CodecFault)
  /-- The bytes of a chunk are not those that were written. -/
  | checksum (chunk : Nat) (stored computed : UInt32)
  /-- A store changed while it was in use. -/
  | modified (expected found : Nat)
  /-- A metadata key is not present. -/
  | metadataKey (key : String)
  /-- A serialized form is broken or cannot be made. -/
  | format (fault : FormatFault)
  /-- A frame has a later version. -/
  | version (found supported : Nat)
  /-- A buffer is too large for the single-chunk form. -/
  | tooLarge (size limit : Nat)
  /-- A user function failed. -/
  | user (fault : UserFault)
  /-- An invariant is broken. -/
  | internal (fault : InternalFault)
  /-- The file system refused. -/
  | io (fault : IoFault)
  /-- A JSON text is malformed or holds the wrong values. -/
  | json
  /-- The computation breaks off, and with it everything that waits for its result. -/
  | breakdown (cause : Breakdown)

namespace ShapeFault

/-- The wording of a fault of shapes. -/
def message : ShapeFault → String
  | outputLength given held => s!"output buffer is {given} bytes but chunk holds {held}"
  | bufferLength length shape dtype =>
    s!"buffer of {length} bytes does not hold shape {shape.text} of {dtype.descriptor}"
  | arrayLength length shape dtype expected =>
    s!"buffer of {length} bytes does not match shape {shape.text} of {dtype.descriptor} " ++
      s!"({expected} bytes)"
  | tensorLength shape dtype expected length =>
    s!"tensor of shape {shape.text} and dtype {dtype.descriptor} needs {expected} bytes, " ++
      s!"got {length}"
  | chunkRank chunks rank => s!"chunk shape {chunks.text} does not match array rank {rank}"
  | regionLength length region dtype =>
    s!"value of {length} bytes does not match region {region.text} of {dtype.descriptor}"
  | regionShape values region =>
    s!"values of shape {values.text} do not match region {region.text}"
  | tooFewElements => "ShapeError/OutOfBounds: out of bounds indexing"
  | tooManyElements => "ShapeError/IncompatibleShape: incompatible shapes"
  | uncountable => "ShapeError/Overflow: arithmetic overflow"
  | notBroadcastable a b => s!"shapes {a.text} and {b.text} cannot be broadcast together"
  | notStretchable operand target => s!"cannot broadcast {operand.text} to {target.text}"
  | notCombinable a b => s!"operands {a.text} and {b.text} do not broadcast"

end ShapeFault

namespace DTypeFault

/-- The wording of a fault of layouts. -/
def message : DTypeFault → String
  | noFields => "structured dtype needs at least one field"
  | duplicateField name => s!"duplicate field name '{name}'"
  | noField dtype name => s!"dtype {dtype.descriptor} has no field '{name}'"
  | malformedRecord => "malformed structured descriptor"
  | unrecognized descriptor => s!"unrecognized dtype descriptor '{descriptor}'"
  | kindMismatch requested held =>
    s!"requested {requested.name} but the data is {held.descriptor}"
  | tensorKind held requested => s!"tensor holds {held.descriptor}, requested {requested.name}"
  | notArithmetic dtype =>
    s!"arithmetic is not defined for {dtype.descriptor}; select a field first"
  | fieldNotNumeric name dtype => s!"field '{name}' of type {dtype.descriptor} is not numeric"
  | negatedBool => "negation is not defined for booleans; use Not"
  | complementOfFloat kind => s!"logical/bitwise not is not defined for {kind.name}"
  | bitwiseOfFloat op kind => s!"{op} is not defined for {kind.name}"

end DTypeFault

namespace IndexFault

/-- The wording of a fault of positions. -/
def message : IndexFault → String
  | axis index length => s!"index {index} out of bounds for axis of length {length}"
  | sliceBound bound length => s!"slice bound {bound} out of bounds for axis of length {length}"
  | rank region array => s!"region has {region} dimensions but the array has {array}"
  | chunkRange start stop size => s!"byte range {start}..{stop} outside chunk of {size} bytes"
  | storeRange start stop size => s!"byte range {start}..{stop} outside store of {size} bytes"
  | chunk index count => s!"chunk index {index} out of range for {count} chunks"
  | reserved index => s!"chunk {index} has been reserved but not written"

end IndexFault

namespace ParameterFault

/-- The wording of a fault of parameters. -/
def message : ParameterFault → String
  | level given => s!"compression level must be in 0..=9, got {given}"
  | typesize given => s!"typesize must be in 1..=255, got {given}"
  | emptyChunks => "chunk size must be greater than zero"
  | blockSize size =>
    s!"block size {size} does not fit the chunk header; set a smaller block_size"
  | appendLength limit length => s!"appended chunk must hold 1..={limit} bytes, got {length}"
  | afterShortChunk index length nominal =>
    s!"cannot append after short chunk {index} ({length} of {nominal} bytes)"
  | insertLength index length expected =>
    s!"chunk {index} holds {length} bytes, store expects {expected}"
  | replaceLength index length expected =>
    s!"replacement for chunk {index} is {length} bytes, expected {expected}"
  | zeroStep => "slice step cannot be zero"
  | emptyChunkShape chunks => s!"chunk shape {chunks.text} has a zero dimension"
  | blockShape blocks chunks =>
    s!"block shape {blocks.text} must satisfy 1 <= block <= chunk {chunks.text}"
  | emptyItem dtype => s!"dtype {dtype.descriptor} has zero item size"
  | projection start stop itemsize =>
    s!"projection {start}..{stop} exceeds the {itemsize} byte item"
  | noInputs name => s!"user function '{name}' needs at least one input"
  | noThreads => "nthreads must be at least 1"
  | custom text => text

end ParameterFault

namespace CodecFault

/-- The wording of a fault of a block. -/
def message : CodecFault → String
  | storedLength length expected => s!"noop: stored block is {length} bytes, expected {expected}"
  | contentLength expected length =>
    s!"zstd: decompressed size does not match header. Expected {expected}, got {length}."
  | malformed => "zstd"
  | blockOffsets block => s!"block {block} offsets are corrupt"

end CodecFault

namespace FormatFault

/-- The wording of a fault of a serialized form. -/
def message : FormatFault → String
  | unknownCodec id => s!"Unknown codec id {id}"
  | chunkTooSmall minimum length =>
    s!"Chunk is too small to be valid. Minimum size: {minimum}, got: {length}"
  | chunkTruncated minimum length =>
    s!"Chunk is truncated: need at least {minimum} bytes, got {length}"
  | blockLayout count size total =>
    s!"Inconsistent block layout: {count} blocks of {size} bytes for {total} bytes"
  | blockTable count length =>
    s!"Block index of {count} entries does not fit in a {length} byte chunk"
  | notAList value => s!"expected a list of integers, got {value.text}"
  | notAnAxis value => s!"shape entries must be non-negative integers, got {value.text}"
  | frameTooSmall minimum length =>
    s!"Frame is too small to be valid. Minimum size: {minimum}, got: {length}"
  | magic => "Invalid frame magic number"
  | versionZero => "Frame version 0 is invalid"
  | headerLength => "Header length exceeds buffer size"
  | endOfHeader => "failed to fill whole buffer"
  | keyEncoding fault => fault.message
  | declaredLength length remaining =>
    s!"Declared length ({length}) exceeds the remaining header ({remaining})"
  | chunkCount count length =>
    s!"Chunk count {count} does not fit a header of {length} bytes"
  | sizesOverflow what => s!"Chunk index {what} sizes overflow"
  | indexTotal covered declared =>
    s!"Chunk index covers {covered} bytes but the frame declares {declared}"
  | fieldLength length width =>
    s!"Field of {length} bytes does not fit a {width}-byte length prefix"
  | chunkSize index length expected =>
    s!"chunk {index} declares {length} bytes but the index says {expected}"
  | sparseHeader => "frame header belongs to a sparse layout; open it with open_sparse"
  | payloadOverflow => "frame payload size overflows"
  | frameTruncated expected length =>
    s!"frame is truncated: need {expected} bytes, got {length}"
  | notSparse path => s!"{path} is not a sparse frame header"
  | chunkFile index length expected =>
    s!"chunk file {index} holds {length} bytes, index says {expected}"
  | lateChunk index length expected =>
    s!"chunk {index} holds {length} bytes, index says {expected}"
  | geometryNotMap => "ndarray metadata must be a map"
  | geometryMissing key => s!"ndarray metadata is missing '{key}'"
  | geometryDType => "ndarray dtype must be a string"
  | geometryChunks count size neededCount neededSize =>
    s!"store holds {count} chunks of {size} bytes, geometry needs {neededCount} of {neededSize}"
  | tensorDType => "tensor dtype must be a string"
  | tensorInconsistent fault =>
    s!"stored tensor is inconsistent: Shape mismatch: {fault.message}"
  | notSingleChunk count => s!"single-blob frame holds {count} chunks"

end FormatFault

namespace UserFault

/-- The wording of a failure of a user function. -/
def message : UserFault → String
  | failed name reason => s!"'{name}' failed: {reason}"
  | replacedOutput name kind shape =>
    s!"'{name}' replaced its output buffer; expected {kind.name} of shape {shape.text}"
  | custom text => text

end UserFault

namespace InternalFault

/-- The wording of a broken invariant. -/
def message : InternalFault → String
  | filledTwice index => s!"chunk slot {index} was written twice"
  | noSource index => s!"chunk {index} is pending but the store has no source"
  | unsupported op kind => s!"{op} reached the kernels with {kind.name}"
  | noArray name => s!"array {name} is not in the workspace"

end InternalFault

namespace IoFault

/-- The wording of a failure of the file system. -/
def message : IoFault → String
  | notFound => "No such file or directory (os error 2)"
  | notADirectory => "Not a directory (os error 20)"
  | isADirectory => "Is a directory (os error 21)"
  | alreadyExists => "File exists (os error 17)"
  | nameTooLong => "File name too long (os error 36)"
  | nulInName => "file name contained an unexpected NUL byte"
  | invalidArgument => "Invalid argument (os error 22)"

end IoFault

namespace Breakdown

/-- The wording of a breakdown. -/
def message : Breakdown → String
  | emptyParts => "chunk size must be non-zero"

end Breakdown

namespace Error

/-- A checksum in messages: eight digits in lower-case hexadecimal behind `0x`. -/
def hexWord (w : UInt32) : String :=
  "0x" ++ Text.fixedHex w.toNat 8

/-- The full text of an error. -/
def message : Error → String
  | shape fault => s!"Shape mismatch: {fault.message}"
  | dtype fault => s!"Data type mismatch: {fault.message}"
  | index fault => s!"Index out of range: {fault.message}"
  | parameter fault => s!"Invalid parameter: {fault.message}"
  | codec chunk fault => s!"Codec failure on chunk {chunk}: {fault.message}"
  | checksum chunk stored computed =>
    s!"Checksum mismatch on chunk {chunk}: stored {hexWord stored}, computed {hexWord computed}"
  | modified expected found =>
    s!"Chunk store was modified concurrently: expected revision {expected}, found {found}"
  | metadataKey key => s!"Metadata key not found: '{key}'"
  | format fault => s!"Frame serialization/deserialization failed: {fault.message}"
  | version found supported =>
    s!"Frame version {found} is newer than the supported version {supported}"
  | tooLarge size limit =>
    s!"Buffer of {size} bytes exceeds the {limit} byte limit of the single-blob path"
  | user fault => s!"User-defined function failed: {fault.message}"
  | internal fault => s!"Internal logic error (this is a bug): {fault.message}"
  | io fault => s!"I/O error: {fault.message}"
  | json => "Serde JSON error"
  | breakdown cause => cause.message

/-- Names the chunk that an error of a single chunk concerns; other errors stay as they are. -/
def atChunk (i : Nat) : Error → Error
  | codec _ fault => codec i fault
  | checksum _ stored computed => checksum i stored computed
  | e => e

@[simp] theorem atChunk_atChunk (i j : Nat) (e : Error) : (e.atChunk i).atChunk j = e.atChunk j := by
  cases e <;> rfl

end Error

/-- The outcome of an operation. -/
abbrev Result (α : Type) := Except Error α

end ChunkedArray
