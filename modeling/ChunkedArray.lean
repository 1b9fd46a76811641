import ChunkedArray.Arithmetic
import ChunkedArray.Array.Basic
import ChunkedArray.Array.Buffer
import ChunkedArray.Array.Geometry
import ChunkedArray.Array.Read
import ChunkedArray.Array.Typed
import ChunkedArray.Array.Write
import ChunkedArray.Bytes
import ChunkedArray.Bytes.LittleEndian
import ChunkedArray.Checksum.Crc32
import ChunkedArray.Checksum.XxHash64
import ChunkedArray.Chunk.Basic
import ChunkedArray.Chunk.Read
import ChunkedArray.Codec.Block
import ChunkedArray.Codec.Config
import ChunkedArray.Codec.Params
import ChunkedArray.Codec.Shuffle
import ChunkedArray.Codec.XorDelta
import ChunkedArray.Codec.Zstd.Bits
import ChunkedArray.Codec.Zstd.Frame
import ChunkedArray.Codec.Zstd.Literals
import ChunkedArray.Codec.Zstd.Matches
import ChunkedArray.Codec.Zstd.PrefixCode
import ChunkedArray.Codec.Zstd.Sequences
import ChunkedArray.Codec.Zstd.StateTable
import ChunkedArray.Codec.Zstd.Weights
import ChunkedArray.DType.Basic
import ChunkedArray.DType.Descriptor
import ChunkedArray.Decimal.FloatText
import ChunkedArray.Decimal.Numeral
import ChunkedArray.Decimal.Shortest
import ChunkedArray.Error
import ChunkedArray.Expr.Basic
import ChunkedArray.Expr.Dense
import ChunkedArray.Expr.Evaluate
import ChunkedArray.Expr.Functions
import ChunkedArray.Expr.Kernel
import ChunkedArray.Expr.Operand
import ChunkedArray.Expr.Typing
import ChunkedArray.Files
import ChunkedArray.Files.Path
import ChunkedArray.Frame.Contiguous
import ChunkedArray.Frame.Header
import ChunkedArray.Frame.Source
import ChunkedArray.Frame.Sparse
import ChunkedArray.Frame.StoredForm
import ChunkedArray.Json.Number
import ChunkedArray.Json.Parser
import ChunkedArray.Json.Reader
import ChunkedArray.Json.Text
import ChunkedArray.Json.Token
import ChunkedArray.Json.Value
import ChunkedArray.Metadata.Json
import ChunkedArray.Metadata.Store
import ChunkedArray.Metadata.Value
import ChunkedArray.Proofs.Action
import ChunkedArray.Proofs.Array.Build
import ChunkedArray.Proofs.Array.Built
import ChunkedArray.Proofs.Array.Damage
import ChunkedArray.Proofs.Array.Field
import ChunkedArray.Proofs.Array.Formed
import ChunkedArray.Proofs.Array.Frame
import ChunkedArray.Proofs.Array.Gather
import ChunkedArray.Proofs.Array.History
import ChunkedArray.Proofs.Array.HitSpan
import ChunkedArray.Proofs.Array.Interrupted
import ChunkedArray.Proofs.Array.Opened
import ChunkedArray.Proofs.Array.Padded
import ChunkedArray.Proofs.Array.Read
import ChunkedArray.Proofs.Array.Region
import ChunkedArray.Proofs.Array.Sound
import ChunkedArray.Proofs.Array.Write
import ChunkedArray.Proofs.Bytes.Copy
import ChunkedArray.Proofs.Bytes.LittleEndian
import ChunkedArray.Proofs.Chunk.Compress
import ChunkedArray.Proofs.Chunk.ElementWidth
import ChunkedArray.Proofs.Chunk.Lossless
import ChunkedArray.Proofs.Chunk.Made
import ChunkedArray.Proofs.Chunk.Read
import ChunkedArray.Proofs.Chunk.Serialized
import ChunkedArray.Proofs.Chunk.WellFormed
import ChunkedArray.Proofs.Codec.Block
import ChunkedArray.Proofs.Codec.Config
import ChunkedArray.Proofs.Codec.Filters
import ChunkedArray.Proofs.Codec.InPlace
import ChunkedArray.Proofs.Codec.Pipeline
import ChunkedArray.Proofs.Codec.Zstd
import ChunkedArray.Proofs.DType.Descriptor
import ChunkedArray.Proofs.DType.Normal
import ChunkedArray.Proofs.DType.Packed
import ChunkedArray.Proofs.Decimal.Numeral
import ChunkedArray.Proofs.Expr.Chunkwise
import ChunkedArray.Proofs.Expr.Comparison
import ChunkedArray.Proofs.Expr.Conversion
import ChunkedArray.Proofs.Expr.Damage
import ChunkedArray.Proofs.Expr.Dense
import ChunkedArray.Proofs.Expr.Elements
import ChunkedArray.Proofs.Expr.Evaluate
import ChunkedArray.Proofs.Expr.Exact
import ChunkedArray.Proofs.Expr.Functions
import ChunkedArray.Proofs.Expr.Integral
import ChunkedArray.Proofs.Expr.Kernel
import ChunkedArray.Proofs.Expr.Local
import ChunkedArray.Proofs.Expr.Materialize
import ChunkedArray.Proofs.Expr.Nodes
import ChunkedArray.Proofs.Expr.Operands
import ChunkedArray.Proofs.Expr.Pointwise
import ChunkedArray.Proofs.Expr.Power
import ChunkedArray.Proofs.Expr.Progress
import ChunkedArray.Proofs.Expr.Range
import ChunkedArray.Proofs.Expr.Slice
import ChunkedArray.Proofs.Expr.Soundness
import ChunkedArray.Proofs.Expr.Typing
import ChunkedArray.Proofs.Expr.Value
import ChunkedArray.Proofs.Files.Contents
import ChunkedArray.Proofs.Files.Faults
import ChunkedArray.Proofs.Files.Follow
import ChunkedArray.Proofs.Files.Tree
import ChunkedArray.Proofs.Files.Written
import ChunkedArray.Proofs.Frame.Contiguous
import ChunkedArray.Proofs.Frame.Cut
import ChunkedArray.Proofs.Frame.Header
import ChunkedArray.Proofs.Frame.Length
import ChunkedArray.Proofs.Frame.Rewritten
import ChunkedArray.Proofs.Frame.Sparse
import ChunkedArray.Proofs.Guarded.Array
import ChunkedArray.Proofs.Guarded.Basic
import ChunkedArray.Proofs.Guarded.Chunk
import ChunkedArray.Proofs.Guarded.Frame
import ChunkedArray.Proofs.Guarded.Grid
import ChunkedArray.Proofs.Guarded.Opened
import ChunkedArray.Proofs.Guarded.Region
import ChunkedArray.Proofs.Guarded.Store
import ChunkedArray.Proofs.Json.Lengths
import ChunkedArray.Proofs.Json.Nesting
import ChunkedArray.Proofs.Json.Quoted
import ChunkedArray.Proofs.Json.RoundTrip
import ChunkedArray.Proofs.Json.Scan
import ChunkedArray.Proofs.Json.Text
import ChunkedArray.Proofs.Metadata.Exact
import ChunkedArray.Proofs.Metadata.Marks
import ChunkedArray.Proofs.Metadata.Restored
import ChunkedArray.Proofs.Metadata.Value
import ChunkedArray.Proofs.Scalar.Element
import ChunkedArray.Proofs.Scalar.Word
import ChunkedArray.Proofs.Shape.Boxes
import ChunkedArray.Proofs.Shape.Broadcast
import ChunkedArray.Proofs.Shape.Common
import ChunkedArray.Proofs.Shape.Coords
import ChunkedArray.Proofs.Shape.Grid
import ChunkedArray.Proofs.Shape.Hits
import ChunkedArray.Proofs.Shape.Layout
import ChunkedArray.Proofs.Shape.Odometer
import ChunkedArray.Proofs.Shape.Runs
import ChunkedArray.Proofs.Shape.Selection
import ChunkedArray.Proofs.Shape.Stepping
import ChunkedArray.Proofs.Shape.Tile
import ChunkedArray.Proofs.SortedMap
import ChunkedArray.Proofs.Store.Answers
import ChunkedArray.Proofs.Store.Corrupt
import ChunkedArray.Proofs.Store.Faults
import ChunkedArray.Proofs.Store.Fetch
import ChunkedArray.Proofs.Store.Filled
import ChunkedArray.Proofs.Store.Mirror
import ChunkedArray.Proofs.Store.Offsets
import ChunkedArray.Proofs.Store.Placement
import ChunkedArray.Proofs.Store.Reachable
import ChunkedArray.Proofs.Store.Refinement
import ChunkedArray.Proofs.Store.Revision
import ChunkedArray.Proofs.Store.Rewrite
import ChunkedArray.Proofs.Store.ShortChunk
import ChunkedArray.Proofs.Store.SlotList
import ChunkedArray.Proofs.Store.Spanning
import ChunkedArray.Proofs.Store.Starts
import ChunkedArray.Proofs.Tensor.Loaded
import ChunkedArray.Proofs.Tensor.Pack
import ChunkedArray.Proofs.Tensor.Saved
import ChunkedArray.Proofs.Text.Utf8
import ChunkedArray.Proofs.Workspace
import ChunkedArray.Scalar.Element
import ChunkedArray.Scalar.FloatWord
import ChunkedArray.Scalar.Kind
import ChunkedArray.Shape.Basic
import ChunkedArray.Shape.Broadcast
import ChunkedArray.Shape.Grid
import ChunkedArray.Shape.Region
import ChunkedArray.Shape.Runs
import ChunkedArray.Shape.Tile
import ChunkedArray.SortedMap
import ChunkedArray.Store.Basic
import ChunkedArray.Store.Read
import ChunkedArray.Tensor.Basic
import ChunkedArray.Tensor.Saved
import ChunkedArray.Text.Blank
import ChunkedArray.Text.Hex
import ChunkedArray.Text.Quoted
import ChunkedArray.Text.Unprintable
import ChunkedArray.Text.Utf8
import ChunkedArray.Workspace
