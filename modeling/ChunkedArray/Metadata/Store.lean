import ChunkedArray.Chunk.Read
import ChunkedArray.Metadata.Json

/-!
# Metadata stores

Values by key, each encoded and compressed on its own, so that an update touches no other entry. A
deleted key leaves a mark behind until the store is compacted; no reading operation shows the mark.
-/

namespace ChunkedArray

/-- Values by key. A key without a chunk has been deleted. -/
structure Metadata where
  /-- The entries, deleted ones included, in order of their keys. -/
  entries : SortedMap (Option Chunk) := []
  /-- The parameters by which values are compressed. -/
  codec : CodecConfig := { filters := [] }

namespace Metadata

/-- The stored form of a live entry. -/
def entry? (m : Metadata) (key : String) : Option Chunk :=
  (m.entries.find? key).join

/-- Sets the value of a key. -/
def set (m : Metadata) (key : String) (value : MetaValue) : Result Metadata := do
  let chunk ← Chunk.compress value.encode m.codec
  pure { m with entries := m.entries.insert key (some chunk) }

/-- Sets the value of a key; a value that takes blocks too long for a chunk is refused before its text is
written. -/
def setSized (m : Metadata) (key : String) (value : MetaValue) : Result Metadata :=
  let blockSize := Chunk.effectiveBlockSize value.textSize m.codec.blockSize (max m.codec.typesize 1)
  if 2 ^ 32 ≤ blockSize then .error (.parameter (.blockSize blockSize)) else m.set key value

/-- The value of a key. -/
def get (m : Metadata) (key : String) : Result MetaValue :=
  match m.entry? key with
  | none => .error (.metadataKey key)
  | some chunk => do
    let text ← chunk.decompress
    MetaValue.decode text

/-- Whether a key is present. -/
def contains (m : Metadata) (key : String) : Bool :=
  (m.entry? key).isSome

/-- Deletes a key that is present. -/
def delete (m : Metadata) (key : String) : Result Metadata :=
  if m.contains key then .ok { m with entries := m.entries.insert key none }
  else .error (.metadataKey key)

/-- The live entries in order of their keys. -/
def live (m : Metadata) : List (String × Chunk) :=
  m.entries.filterMap fun e => e.2.map fun chunk => (e.1, chunk)

/-- Drops the marks of deleted keys; gives their number. -/
def compact (m : Metadata) : Nat × Metadata :=
  let kept := m.entries.filter fun e => e.2.isSome
  (m.entries.length - kept.length, { m with entries := kept })

/-- The keys that are present, in order. -/
def keys (m : Metadata) : List String :=
  m.live.map Prod.fst

/-- The number of keys that are present. -/
def size (m : Metadata) : Nat := m.live.length

/-- Whether no key is present. -/
def isEmpty (m : Metadata) : Bool := m.size == 0

/-- The live entries in their stored form. -/
def rawEntries (m : Metadata) : List (String × Bytes) :=
  m.live.map fun e => (e.1, e.2.data)

/-- Restores an entry from its stored form. -/
def insertRaw (m : Metadata) (key : String) (data : Bytes) : Result Metadata := do
  let chunk ← Chunk.ofBytes data
  pure { m with entries := m.entries.insert key (some chunk) }

/-- Restores entries from their stored form, later ones replacing earlier ones of the same key. -/
def insertAll (m : Metadata) : List (String × Bytes) → Result Metadata
  | [] => .ok m
  | (key, data) :: rest => do
    let m ← m.insertRaw key data
    insertAll m rest

end Metadata

end ChunkedArray
