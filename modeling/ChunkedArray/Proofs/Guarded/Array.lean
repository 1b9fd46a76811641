import ChunkedArray.Proofs.Array.Frame
import ChunkedArray.Proofs.Array.Opened
import ChunkedArray.Proofs.Guarded.Store

/-!
# Reading and writing arrays under guards

Opening an array compares the nominal size of a chunk with the geometry, not the sizes that the slots of
the store declare. Reading takes the span of the hits from its chunk as a range, which a shorter chunk
refuses, so reads stay inside whatever the slots declare. Writing patches the decompressed chunk at the
places of the geometry, so it stays inside if every slot declares the size that the geometry needs, and
a store with a shorter chunk is opened and patched outside of it.
-/

namespace ChunkedArray.Guarded

open StoreAction

/-! ## Stores -/

/-- Overwrites the chunk of a slot. -/
def replace (source : ChunkSource) (i : Nat) (raw : Bytes) : StoreAction Unit := do
  let old ← chunk source i
  let s ← get
  if old.nbytes ≠ raw.size ∧ (!s.allowResize) = true then
    throw (.parameter (.replaceLength i raw.size old.nbytes))
  else
    let c ← lift (atChunk i (ofResult (Chunk.compress raw s.codec)))
    lift (require (i < s.table.slots.size))
    modify fun s' => { s' with
      table := if old.nbytes ≠ raw.size then .ofSlots s.chunkSize (s'.table.fill i c).slots
        else s'.table.fill i c
      revision := s'.revision + 1 }

/-- A store with a number of slots, every one of which answers with chunks that satisfy `P`. -/
structure Intact (source : ChunkSource) (n : Nat) (P : Chunk → Prop) (s : Store) : Prop where
  nchunks : s.nchunks = n
  chunks : ∀ i c, s.fetch source i = .ok c → P c

section Store

variable {source : ChunkSource} {n : Nat} {P : Chunk → Prop}

/-- A slot that is filled answers with its chunk, and the other ones answer as before. -/
theorem Intact.fill {s s' : Store} (h : Intact source n P s) {i : Nat} {c : Chunk} (hc : P c)
    (hslots : s'.table.slots = s.table.slots.setIfInBounds i (.loaded c)) :
    Intact source n P s' := by
  refine ⟨?_, fun j d hd => ?_⟩
  · rw [Store.nchunks, hslots, Array.size_setIfInBounds]
    exact h.nchunks
  · obtain ⟨slot, hslot, hanswer⟩ := Store.exists_slot_of_fetch hd
    rw [hslots, Array.getElem?_setIfInBounds] at hslot
    split at hslot
    · split at hslot
      · cases hslot
        cases hanswer
        exact hc
      · cases hslot
    · refine h.chunks j d ?_
      rw [Store.fetch, hslot]
      exact hanswer

end Store

/-! ## Reading -/

/-- Copies a part of the items of a run from the span that starts at item `low` of its chunk. -/
def copyRun (itemsize : Nat) (part : Projection) (low : Nat) (data out : Bytes) (r : Run) :
    Guarded Bytes := do
  let first ← sub r.inner low
  require ((first + r.length) * itemsize ≤ data.size)
  require ((r.output + r.length) * part.width ≤ out.size)
  require (part.offset + part.width ≤ itemsize)
  pure (Geometry.copyParts itemsize part data out r.output first r.length)

/-- Copies what the chunks in the list hold of a selection over `out`. -/
def gatherChunks (g : Geometry) (source : ChunkSource) (sel : Selection) (part : Projection)
    (out : Bytes) : List Nat → StoreAction Bytes
  | [] => pure out
  | i :: rest =>
    match sel.hits (g.grid.chunkBox i) with
    | none => gatherChunks g source sel part out rest
    | some hits => do
      let low := (Geometry.hitSpan hits g.chunks.strides).1
      let count ← lift (sub (Geometry.hitSpan hits g.chunks.strides).2 low)
      let data ← getRange source i (low * g.itemsize) (count * g.itemsize)
      let out ← lift ((Run.ofHits hits sel.shape.strides g.chunks.strides).foldlM
        (copyRun g.itemsize part low data) out)
      gatherChunks g source sel part out rest

/-- The given part of every selected item, in C order. -/
def readParts (g : Geometry) (source : ChunkSource) (sel : Selection) (part : Projection) :
    StoreAction Bytes :=
  if g.itemsize < part.offset + part.width then
    throw (.parameter (.projection part.offset (part.offset + part.width) g.itemsize))
  else if sel.isEmpty then pure (Bytes.zeros (sel.size * part.width))
  else gatherChunks g source sel part (Bytes.zeros (sel.size * part.width))
    (g.grid.intersecting sel.boundingBox)

/-- The items of a region. -/
def readRegion (g : Geometry) (source : ChunkSource) (region : Region) : StoreAction Buffer := do
  let sel ← lift (ofResult (region.resolve g.shape))
  let data ← readParts g source sel g.wholeItem
  lift (ofResult (Buffer.new sel.shape g.dtype data))

section Reads

variable {g : Geometry} {source : ChunkSource} {n : Nat} {P : Chunk → Prop} {sel : Selection}
  {part : Projection}

end Reads

/-! ## Writing -/

/-- Writes the items of a run over the raw bytes of its chunk. -/
def patchRun (itemsize : Nat) (fill : Bool) (value raw : Bytes) (r : Run) : Guarded Bytes := do
  require ((r.inner + r.length) * itemsize ≤ raw.size)
  if fill then do
    require (value.size = itemsize)
    pure (Geometry.fillItems itemsize value raw r.inner r.length)
  else do
    require ((r.output + r.length) * itemsize ≤ value.size)
    pure (raw.blit (r.inner * itemsize) value (r.output * itemsize) (r.length * itemsize))

/-- Writes what the chunks in the list hold of a selection. -/
def patchChunks (g : Geometry) (source : ChunkSource) (sel : Selection) (fill : Bool)
    (value : Bytes) : List Nat → StoreAction Unit
  | [] => pure ()
  | i :: rest =>
    match sel.hits (g.grid.chunkBox i) with
    | none => patchChunks g source sel fill value rest
    | some hits => do
      let raw ← getChunk source i
      let raw ← lift ((Run.ofHits hits sel.shape.strides g.chunks.strides).foldlM
        (patchRun g.itemsize fill value) raw)
      replace source i raw
      patchChunks g source sel fill value rest

/-- Writes a value over a region. -/
def writeRegion (g : Geometry) (source : ChunkSource) (region : Region) (value : Bytes) :
    StoreAction Unit := do
  let sel ← lift (ofResult (region.resolveStrict g.shape))
  let fill := value.size == g.itemsize
  if value.size ≠ sel.size * g.itemsize ∧ !fill then
    throw (.shape (.regionLength value.size sel.shape g.dtype))
  if !sel.isEmpty then
    patchChunks g source sel fill value (g.grid.intersecting sel.boundingBox)

section Writes

variable {g : Geometry} {source : ChunkSource} {n : Nat} {sel : Selection} {fill : Bool}
  {value : Bytes}

end Writes

/-! ## Opened arrays -/

/-- A call on an array. -/
inductive ArrayCall where
  /-- Reads a region. -/
  | read (region : Region)
  /-- Writes a value over a region. -/
  | write (region : Region) (value : Bytes)

namespace ArrayCall

/-- Performs a call; a read gives what it read. -/
def perform (g : Geometry) (source : ChunkSource) : ArrayCall → StoreM (Option Buffer)
  | read region => do
    let b ← g.readRegion source region
    pure (some b)
  | write region value => do
    g.writeRegion source region value
    pure none

section Calls

variable {g : Geometry} {source : ChunkSource}

end Calls

end ArrayCall

/-- The chunks that the slots of a store hold, or that come for them, are in memory. -/
def InMemory (source : ChunkSource) (s : Store) : Prop :=
  ∀ i c, s.fetch source i = .ok c → c.data.size < 2 ^ 63

/-- The chunks of a store were checked. -/
theorem wellFormed_of_reachable {s : Store} (hs : s.Reachable) {fs : Files}
    (hmemory : InMemory (s.chunkSource fs) s) {i : Nat} {c : Chunk}
    (hc : s.fetch (s.chunkSource fs) i = .ok c) : c.WellFormed :=
  (hs.wellKept.kept_of_fetch (Store.faithful_chunkSource s fs) hc).wellFormed (hmemory i c hc)

/-- Four bytes in chunks of two. -/
def pairGeometry : Geometry := ⟨[4], .scalar .uint8, [2], [2]⟩

/-- The bytes 1 and 2, stored as they are. -/
def firstPair : Chunk where
  data := #[1, 1, 0, 0, 0, 0, 0, 0, 0, 0, 0, 0, 2, 0, 0, 0, 0, 0, 0, 0, 146, 66, 204, 182, 1, 2]
  header := ⟨1, 1, 0, .noop, 0, 0, 2, 0xb6cc4292⟩

/-- A store of two bytes and another chunk behind them, that carries the geometry of four bytes. -/
def pairStore (metadata : Metadata) (last : Chunk) : Store where
  codec := pairGeometry.chunkCodec { codec := .noop }
  chunkSize := 2
  table := ⟨#[.loaded firstPair, .loaded last], #[0, 2], 2 + last.nbytes⟩
  revision := 2
  metadata

theorem eq_of_mem_pairStore {metadata : Metadata} {last : Chunk} {slot : Slot}
    (h : slot ∈ (pairStore metadata last).table.slots) :
    slot = .loaded firstPair ∨ slot = .loaded last := by
  have hmem : slot ∈ [Slot.loaded firstPair, .loaded last] := Array.mem_toList_iff.2 h
  simpa only [List.mem_cons, List.not_mem_nil, or_false] using hmem

/-- Two bytes and a chunk of any size behind them are opened as an array of four bytes. -/
theorem exists_pairStore {last : Chunk} (h : last.Made) :
    ∃ metadata, (pairStore metadata last).Reachable ∧
      NDArray.ofStore (pairStore metadata last) = .ok ⟨pairGeometry, pairStore metadata last⟩ := by
  obtain ⟨metadata, hopen, hnew⟩ := NDArray.exists_reachable_carrying pairGeometry
    { codec := .noop } (by decide) (by decide) rfl (by decide) (.scalar _) rfl (by decide +kernel)
  have hdata : Chunk.ofBytes firstPair.data = .ok firstPair := rfl
  have hfirst : firstPair.Made := .parsed (by decide) hdata
  have hs := (hnew.perform {} (.appendChunk hfirst)).perform {} (.appendChunk h)
  exact ⟨metadata, hs, NDArray.ofStore_of_readGeometry hopen rfl rfl⟩

theorem inMemory_pairStore {metadata : Metadata} {last : Chunk} (h : last.data.size < 2 ^ 63)
    (source : ChunkSource) : InMemory source (pairStore metadata last) := by
  intro i c hc
  obtain ⟨slot, hslot, hanswer⟩ := Store.exists_slot_of_fetch hc
  obtain rfl | rfl := eq_of_mem_pairStore (Array.mem_of_getElem? hslot)
  · cases hanswer
    decide
  · cases hanswer
    exact h

end ChunkedArray.Guarded
