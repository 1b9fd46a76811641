import ChunkedArray.Proofs.Chunk.Made
import ChunkedArray.Store.Read

/-!
# Plain lists of slots

The specification of a chunk store: a list whose members are byte strings or reserved, with no
offsets, no chunks and no compression. A command is refused for a stated reason and changes nothing,
or it changes the list in one place. What can be asked of a store is asked of the list: its length,
its total size, its members, parts of them, and parts of all members joined.
-/

namespace ChunkedArray

/-- A command that changes a store; a chunk is handed over in the form `χ`. -/
inductive StoreCommand (χ : Type) where
  /-- Compress a byte string and add it at the end. -/
  | append (raw : Bytes)
  /-- Add a chunk at the end. -/
  | appendChunk (chunk : χ)
  /-- Reserve slots at the end. -/
  | reserve (count : Nat)
  /-- Fill a reserved slot with a chunk. -/
  | insertChunk (i : Nat) (chunk : χ)
  /-- Overwrite a slot with a byte string. -/
  | replace (i : Nat) (raw : Bytes)

/-- Two forms of a command: the chunk in the first decompresses to the byte string in the second. -/
inductive StoreCommand.Decodes : StoreCommand Chunk → StoreCommand Bytes → Prop where
  | append {raw : Bytes} (hsize : raw.size < 2 ^ 63) : Decodes (.append raw) (.append raw)
  | appendChunk {c : Chunk} {content : Bytes} (hmade : c.Made) (h : c.decompress = .ok content)
      (hsize : content.size < 2 ^ 63) : Decodes (.appendChunk c) (.appendChunk content)
  | reserve {count : Nat} : Decodes (.reserve count) (.reserve count)
  | insertChunk {i : Nat} {c : Chunk} {content : Bytes} (hmade : c.Made)
      (h : c.decompress = .ok content) (hsize : content.size < 2 ^ 63) :
      Decodes (.insertChunk i c) (.insertChunk i content)
  | replace {i : Nat} {raw : Bytes} (hsize : raw.size < 2 ^ 63) :
      Decodes (.replace i raw) (.replace i raw)

namespace Store

/-- Performs a command. Gives the index of the slot that was added, if one was. -/
def perform (source : ChunkSource) : StoreCommand Chunk → StoreM (Option Nat)
  | .append raw => some <$> append raw
  | .appendChunk c => some <$> appendChunk c
  | .reserve count => some <$> reserve count
  | .insertChunk i c => (fun _ => none) <$> insertChunk i c
  | .replace i raw => (fun _ => none) <$> replace source i raw

/-- Performs commands one after the other, going on behind a refused one. Gives all answers. -/
def performAll (source : ChunkSource) (s : Store) :
    List (StoreCommand Chunk) → List (Result (Option Nat)) × Store
  | [] => ([], s)
  | cmd :: rest =>
    let (answer, s) := s.run (perform source cmd)
    let (answers, s) := performAll source s rest
    (answer :: answers, s)

end Store

/-- A list of slots, each a byte string or reserved, under the parameters of a store. -/
structure SlotList where
  /-- The parameters of compression. -/
  codec : CodecConfig
  /-- The nominal size. -/
  chunkSize : Nat
  /-- Whether other sizes are allowed. -/
  allowResize : Bool
  /-- The slots. -/
  slots : List (Option Bytes)

namespace SlotList

/-- The number of slots. -/
def nchunks (p : SlotList) : Nat := p.slots.length

/-- The sizes of the slots; a reserved one counts with the nominal size. -/
def sizes (p : SlotList) : List Nat :=
  p.slots.map fun slot => (slot.map Array.size).getD p.chunkSize

/-- The sum of the sizes in front of a slot. -/
def start (p : SlotList) (i : Nat) : Nat := (p.sizes.take i).sum

/-- The sum of all sizes. -/
def nbytes (p : SlotList) : Nat := p.sizes.sum

/-- The slots joined; a reserved one stands there as zero bytes. -/
def content (p : SlotList) : Bytes :=
  Bytes.concat (p.slots.map fun slot => slot.getD (Bytes.zeros p.chunkSize))

/-! ## Commands -/

/-- Why a byte string is not compressed: its blocks are too large for a chunk. -/
def compressionFault? (p : SlotList) (raw : Bytes) : Option Error :=
  let blockSize := Chunk.chosenBlockSize raw.size p.codec
  if 2 ^ 32 ≤ blockSize then some (.parameter (.blockSize blockSize)) else none

/-- Why nothing is added at the end: sizes are fixed, and the last slot is short. -/
def appendFault? (p : SlotList) : Option Error :=
  match p.slots.getLast?.join with
  | some last =>
    if last.size ≠ p.chunkSize ∧ !p.allowResize then
      some (.parameter (.afterShortChunk (p.nchunks - 1) last.size p.chunkSize))
    else none
  | none => none

/-- Why a command is refused, if it is. -/
def refusal? (p : SlotList) : StoreCommand Bytes → Option Error
  | .append raw =>
    if raw.isEmpty ∨ p.chunkSize < raw.size then
      some (.parameter (.appendLength p.chunkSize raw.size))
    else (p.compressionFault? raw).or p.appendFault?
  | .appendChunk _ => p.appendFault?
  | .reserve _ => none
  | .insertChunk i content =>
    if content.size ≠ p.chunkSize ∧ !p.allowResize then
      some (.parameter (.insertLength i content.size p.chunkSize))
    else
      match p.slots[i]? with
      | none => some (.index (.chunk i p.nchunks))
      | some none => none
      | some (some _) => some (.internal (.filledTwice i))
  | .replace i raw =>
    match p.slots[i]? with
    | none => some (.index (.chunk i p.nchunks))
    | some none => some (.index (.reserved i))
    | some (some old) =>
      if old.size ≠ raw.size ∧ !p.allowResize then
        some (.parameter (.replaceLength i raw.size old.size))
      else p.compressionFault? raw

/-- The index that a command gives: that of the first slot it adds. -/
def answer (p : SlotList) : StoreCommand Bytes → Option Nat
  | .append _ | .appendChunk _ | .reserve _ => some p.nchunks
  | .insertChunk _ _ | .replace _ _ => none

/-- The slots behind a command. -/
def changed (slots : List (Option Bytes)) : StoreCommand Bytes → List (Option Bytes)
  | .append content | .appendChunk content => slots ++ [some content]
  | .reserve count => slots ++ List.replicate count none
  | .insertChunk i content | .replace i content => slots.set i (some content)

/-- Performs a command. -/
def perform (p : SlotList) (cmd : StoreCommand Bytes) : Result (Option Nat) × SlotList :=
  match p.refusal? cmd with
  | some e => (.error e, p)
  | none => (.ok (p.answer cmd), { p with slots := changed p.slots cmd })

/-- Performs commands one after the other, going on behind a refused one. Gives all answers. -/
def performAll (p : SlotList) : List (StoreCommand Bytes) → List (Result (Option Nat)) × SlotList
  | [] => ([], p)
  | cmd :: rest =>
    let (answer, p) := p.perform cmd
    let (answers, p) := performAll p rest
    (answer :: answers, p)

/-! ## Questions -/

/-- The content of a slot. -/
def getChunk (p : SlotList) (i : Nat) : Result Bytes :=
  match p.slots[i]? with
  | none => .error (.index (.chunk i p.nchunks))
  | some none => .error (.index (.reserved i))
  | some (some content) => .ok content

/-- The content of a slot for a buffer of `length` bytes. -/
def getInto (p : SlotList) (i length : Nat) : Result Bytes := do
  let content ← p.getChunk i
  if length = content.size then pure content
  else throw (.shape (.outputLength length content.size))

/-- The bytes `start … start + length` of a slot. -/
def getRange (p : SlotList) (i start length : Nat) : Result Bytes := do
  let content ← p.getChunk i
  if start + length ≤ content.size then pure (content.slice start length)
  else throw (.index (.chunkRange start (Chunk.saturatingAdd start length) content.size))

/-- Whether a slot is reserved and shares a byte with `start … stop`. -/
def isMissing (p : SlotList) (start stop i : Nat) : Bool :=
  p.slots[i]? = some none && max start (p.start i) < min stop (p.start (i + 1))

/-- The bytes `start … start + length` of the slots joined, with a sum of positions held at the
greatest word. -/
def readBytes (p : SlotList) (start length : Nat) : Result Bytes :=
  let stop := Chunk.saturatingAdd start length
  if p.nbytes < stop then .error (.index (.storeRange start stop p.nbytes))
  else
    match (List.range p.nchunks).find? (p.isMissing start stop) with
    | some i => .error (.index (.reserved i))
    | none => .ok (p.content.extract start stop)

end SlotList

end ChunkedArray
