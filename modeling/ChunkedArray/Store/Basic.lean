import ChunkedArray.Frame.Source
import ChunkedArray.Metadata.Store

/-!
# Chunk stores

An ordered table of chunks with metadata attached. A slot of the table holds a chunk, is reserved
for one, or is pending: its sizes are known, and the chunk is fetched from a source when it is first
needed. Next to the slots the table keeps the byte offset of every chunk and the total, a reserved
slot counting as one of nominal size.

Operations are actions on a store: they may fail, and what they changed before a failure stays.
Every change of content raises the revision by one; fetching a pending chunk is no change.
-/

namespace ChunkedArray

/-- A place for a chunk. -/
inductive Slot where
  /-- Reserved and not written. -/
  | reserved
  /-- Filled. -/
  | loaded (chunk : Chunk)
  /-- Described by an index and not fetched. -/
  | pending (nbytes cbytes : Nat)

namespace Slot

/-- The size of the raw bytes, unless the slot is reserved. -/
def nbytes? : Slot → Option Nat
  | reserved => none
  | loaded chunk => some chunk.nbytes
  | pending nbytes _ => some nbytes

/-- The size of the serialized form. -/
def cbytes : Slot → Nat
  | reserved => 0
  | loaded chunk => chunk.cbytes
  | pending _ cbytes => cbytes

/-- Whether the chunk is in memory. -/
def isLoaded : Slot → Bool
  | loaded _ => true
  | _ => false

end Slot

/-- The table of a store: the slots, the byte offset of every slot and the total size. -/
structure ChunkTable where
  /-- The slots. -/
  slots : Array Slot := #[]
  /-- The sum of the sizes before each slot. -/
  starts : Array Nat := #[]
  /-- The sum of all sizes. -/
  nbytes : Nat := 0

namespace ChunkTable

/-- The offsets of slots from `offset` on, and the offset behind them. -/
def offsets (nominal offset : Nat) : List Slot → List Nat × Nat
  | [] => ([], offset)
  | slot :: rest =>
    let (starts, stop) := offsets nominal (offset + slot.nbytes?.getD nominal) rest
    (offset :: starts, stop)

/-- A table with the given slots and fresh offsets. -/
def ofSlots (nominal : Nat) (slots : Array Slot) : ChunkTable :=
  let (starts, nbytes) := offsets nominal 0 slots.toList
  ⟨slots, starts.toArray, nbytes⟩

/-- Adds a chunk at the end. -/
def push (t : ChunkTable) (chunk : Chunk) : ChunkTable :=
  ⟨t.slots.push (.loaded chunk), t.starts.push t.nbytes, t.nbytes + chunk.nbytes⟩

/-- Fills a slot without touching the offsets. -/
def fill (t : ChunkTable) (i : Nat) (chunk : Chunk) : ChunkTable :=
  { t with slots := t.slots.setIfInBounds i (.loaded chunk) }

end ChunkTable

/-- A chunk store. -/
structure Store where
  /-- The parameters by which chunks are compressed. -/
  codec : CodecConfig
  /-- The nominal size of a chunk. -/
  chunkSize : Nat
  /-- Whether chunks of other sizes are allowed. -/
  allowResize : Bool := false
  /-- The table of chunks. -/
  table : ChunkTable := {}
  /-- The number of changes so far. -/
  revision : Nat := 0
  /-- The metadata. -/
  metadata : Metadata := {}
  /-- The sparse frame that pending chunks come from. -/
  source : Option SparseFrame := none

/-- Where pending chunks come from: gives the chunk of a slot, or fails. -/
abbrev ChunkSource := Nat → Result Chunk

/-- An action on a store. -/
abbrev StoreM (α : Type) := ExceptT Error (StateM Store) α

namespace Store

/-- Runs an action. What it changed before a failure stays. -/
def run {α : Type} (s : Store) (act : StoreM α) : Result α × Store :=
  StateT.run (ExceptT.run act) s

/-- Runs an action whose changes count only if it succeeds. -/
def exec {α : Type} (s : Store) (act : StoreM α) : Result (α × Store) :=
  match s.run act with
  | (.ok a, s) => .ok (a, s)
  | (.error e, _) => .error e

/-- The source of pending chunks: the sparse frame that the store was opened from. -/
def chunkSource (s : Store) (fs : Files) : ChunkSource := fun i =>
  match s.source with
  | some frame => frame.readChunk fs i
  | none => .error (.internal (.noSource i))

/-- A new store without chunks. -/
def new (codec : CodecConfig) (chunkSize : Nat) (allowResize : Bool := false) : Result Store := do
  codec.validate
  if chunkSize = 0 then .error (.parameter .emptyChunks)
  else pure { codec, chunkSize, allowResize }

/-- The number of slots. -/
def nchunks (s : Store) : Nat := s.table.slots.size

/-- The size of the content. -/
def nbytes (s : Store) : Nat := s.table.nbytes

/-- The size of all written chunks in serialized form. -/
def cbytes (s : Store) : Nat :=
  (s.table.slots.toList.map Slot.cbytes).sum

/-- The number of chunks in memory. -/
def nloaded (s : Store) : Nat :=
  s.table.slots.toList.countP Slot.isLoaded

/-- Fails if the store changed since a revision. -/
def checkRevision (s : Store) (expected : Nat) : Result Unit :=
  if s.revision = expected then .ok () else .error (.modified expected s.revision)

/-- A store with the given chunks in memory. -/
def ofChunks (codec : CodecConfig) (chunkSize : Nat) (allowResize : Bool) (chunks : List Chunk)
    (metadata : Metadata) : Result Store := do
  let s ← new codec chunkSize allowResize
  pure { s with
    table := .ofSlots chunkSize (chunks.map Slot.loaded).toArray
    metadata }

/-- A store whose chunks stay in a sparse frame until they are needed. -/
def ofSource (frame : SparseFrame) (metadata : Metadata) : Result Store := do
  let h := frame.header
  let s ← new h.codec h.chunkSize h.allowResize
  pure { s with
    table := .ofSlots h.chunkSize (h.index.map fun e => Slot.pending e.nbytes e.cbytes).toArray
    metadata
    source := some frame }

/-- Changes the table and raises the revision. -/
def commit (f : ChunkTable → ChunkTable) : StoreM Unit :=
  modify fun s => { s with table := f s.table, revision := s.revision + 1 }

/-- Fills a pending slot; the revision stays. -/
def publish (i : Nat) (chunk : Chunk) : StoreM Unit :=
  modify fun s => { s with table := s.table.fill i chunk }

/-- The chunk of a slot; a pending one is fetched and kept. -/
def chunk (source : ChunkSource) (i : Nat) : StoreM Chunk := do
  let s ← get
  match s.table.slots[i]? with
  | none => throw (.index (.chunk i s.nchunks))
  | some .reserved => throw (.index (.reserved i))
  | some (.loaded chunk) => pure chunk
  | some (.pending nbytes _) =>
    let chunk ← liftM (n := StoreM) ((source i).mapError (Error.atChunk i))
    if chunk.nbytes = nbytes then
      publish i chunk
      pure chunk
    else throw (.format (.lateChunk i chunk.nbytes nbytes))

/-- Adds a compressed chunk at the end. Gives its index. -/
def appendChunk (chunk : Chunk) : StoreM Nat := do
  let s ← get
  match s.table.slots.back?.bind Slot.nbytes? with
  | some last =>
    if last ≠ s.chunkSize ∧ !s.allowResize then
      throw (.parameter (.afterShortChunk (s.nchunks - 1) last s.chunkSize))
  | none => pure ()
  commit fun t => t.push chunk
  pure s.nchunks

/-- Compresses a byte string and adds it at the end. Gives the index of the chunk. -/
def append (raw : Bytes) : StoreM Nat := do
  let s ← get
  if raw.isEmpty ∨ s.chunkSize < raw.size then
    throw (.parameter (.appendLength s.chunkSize raw.size))
  let chunk ← liftM (n := StoreM) ((Chunk.compress raw s.codec).mapError (Error.atChunk s.nchunks))
  appendChunk chunk

/-- Adds compressed chunks at the end. -/
def appendChunks : List Chunk → StoreM Unit
  | [] => pure ()
  | chunk :: rest => do
    let _ ← appendChunk chunk
    appendChunks rest

/-- Adds reserved slots at the end. Gives the index of the first. -/
def reserve (count : Nat) : StoreM Nat := do
  let s ← get
  commit fun t => .ofSlots s.chunkSize (t.slots ++ Array.replicate count Slot.reserved)
  pure s.nchunks

/-- Places a compressed chunk into a reserved slot. -/
def insertChunk (i : Nat) (chunk : Chunk) : StoreM Unit := do
  let s ← get
  if chunk.nbytes ≠ s.chunkSize ∧ !s.allowResize then
    throw (.parameter (.insertLength i chunk.nbytes s.chunkSize))
  match s.table.slots[i]? with
  | none => throw (.index (.chunk i s.nchunks))
  | some .reserved =>
    commit fun t =>
      if s.allowResize then .ofSlots s.chunkSize (t.fill i chunk).slots else t.fill i chunk
  | some _ => throw (.internal (.filledTwice i))

/-- Overwrites the chunk of a slot. -/
def replace (source : ChunkSource) (i : Nat) (raw : Bytes) : StoreM Unit := do
  let old ← chunk source i
  let s ← get
  let resized := old.nbytes ≠ raw.size
  if resized ∧ !s.allowResize then
    throw (.parameter (.replaceLength i raw.size old.nbytes))
  let chunk ← liftM (n := StoreM) ((Chunk.compress raw s.codec).mapError (Error.atChunk i))
  commit fun t => if resized then .ofSlots s.chunkSize (t.fill i chunk).slots else t.fill i chunk

end Store

end ChunkedArray
