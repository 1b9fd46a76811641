import ChunkedArray.Frame.Contiguous
import ChunkedArray.Proofs.Store.Reachable

/-!
# Stores that load late

A store mirrors another one if it is the same up to chunks that it has not loaded yet: where the other
store has a chunk in memory, it may know the sizes only and have a source that gives the chunk. Whatever
is asked of both, and in whatever order, they give the same answers. Sizes, offsets and the revision are
the same all the time, so no load in the middle of an operation can be told from outside, except by the
number of chunks in memory.
-/

namespace ChunkedArray

/-- A slot mirrors another one: it is the same, or its chunk is still at the source. -/
inductive Slot.Mirrors (source : ChunkSource) (i : Nat) : Slot → Slot → Prop where
  | reserved : Mirrors source i .reserved .reserved
  | loaded (c : Chunk) : Mirrors source i (.loaded c) (.loaded c)
  | pending {c : Chunk} (h : source i = .ok c) :
      Mirrors source i (.pending c.nbytes c.cbytes) (.loaded c)

namespace Slot.Mirrors

variable {source : ChunkSource} {i : Nat} {slot slot' : Slot}

theorem nbytes?_eq (h : Mirrors source i slot slot') : slot.nbytes? = slot'.nbytes? := by
  cases h <;> rfl

theorem cbytes_eq (h : Mirrors source i slot slot') : slot.cbytes = slot'.cbytes := by
  cases h <;> rfl

theorem fetch_eq (h : Mirrors source i slot slot') (source' : ChunkSource) :
    slot.fetch source i = slot'.fetch source' i := by
  cases h with
  | reserved => rfl
  | loaded c => rfl
  | pending h => simp [fetch, h, Except.mapError]

end Slot.Mirrors

/-- The slots of a table mirror those of another one, each in its place. -/
def SlotsMirror (source : ChunkSource) (slots slots' : Array Slot) : Prop :=
  ∀ i : Nat, Option.Rel (Slot.Mirrors source i) slots[i]? slots'[i]?

namespace SlotsMirror

variable {source : ChunkSource} {slots slots' : Array Slot}

/-- There is no slot on either side, or there is one on both sides. -/
theorem at_place (h : SlotsMirror source slots slots') (i : Nat) :
    slots[i]? = none ∧ slots'[i]? = none ∨ ∃ slot slot', slots[i]? = some slot ∧
      slots'[i]? = some slot' ∧ Slot.Mirrors source i slot slot' := by
  have hrel := h i
  generalize slots[i]? = left at hrel ⊢
  generalize slots'[i]? = right at hrel ⊢
  cases hrel with
  | none => exact .inl ⟨rfl, rfl⟩
  | some hslot => exact .inr ⟨_, _, rfl, rfl, hslot⟩

/-- What is the same in slots that mirror each other is the same all along. -/
theorem map_eq (h : SlotsMirror source slots slots') {α : Type} {f : Slot → α}
    (hf : ∀ {i slot slot'}, Slot.Mirrors source i slot slot' → f slot = f slot') :
    slots.toList.map f = slots'.toList.map f := by
  refine List.ext_getElem? fun i => ?_
  rw [List.getElem?_map, List.getElem?_map, Array.getElem?_toList, Array.getElem?_toList]
  obtain ⟨hnone, hnone'⟩ | ⟨slot, slot', hsome, hsome', hslot⟩ := h.at_place i
  · rw [hnone, hnone']
  · rw [hsome, hsome', Option.map_some, Option.map_some, hf hslot]

theorem size_eq (h : SlotsMirror source slots slots') : slots.size = slots'.size := by
  simpa using congrArg List.length (h.map_eq Slot.Mirrors.nbytes?_eq)

theorem back_eq (h : SlotsMirror source slots slots') :
    slots.back?.bind Slot.nbytes? = slots'.back?.bind Slot.nbytes? := by
  rw [Array.back?_eq_getElem?, Array.back?_eq_getElem?, h.size_eq]
  obtain ⟨hnone, hnone'⟩ | ⟨slot, slot', hsome, hsome', hslot⟩ := h.at_place (slots'.size - 1)
  · rw [hnone, hnone']
  · rw [hsome, hsome', Option.bind_some, Option.bind_some, hslot.nbytes?_eq]

theorem push (h : SlotsMirror source slots slots') (c : Chunk) :
    SlotsMirror source (slots.push (.loaded c)) (slots'.push (.loaded c)) := by
  intro i
  rw [Array.getElem?_push, Array.getElem?_push, h.size_eq]
  split
  · exact .some (.loaded c)
  · exact h i

theorem setIfInBounds (h : SlotsMirror source slots slots') (i : Nat) (c : Chunk) :
    SlotsMirror source (slots.setIfInBounds i (.loaded c)) (slots'.setIfInBounds i (.loaded c)) := by
  intro j
  rw [Array.getElem?_setIfInBounds, Array.getElem?_setIfInBounds, h.size_eq]
  split
  · split
    · exact .some (.loaded c)
    · exact .none
  · exact h j

theorem reserve (h : SlotsMirror source slots slots') (count : Nat) :
    SlotsMirror source (slots ++ Array.replicate count Slot.reserved)
      (slots' ++ Array.replicate count Slot.reserved) := by
  intro i
  rw [Array.getElem?_append, Array.getElem?_append, h.size_eq]
  split
  · exact h i
  · rw [Array.getElem?_replicate]
    split
    · exact .some .reserved
    · exact .none

end SlotsMirror

/-- A table mirrors another one, with the same offsets and the same total. -/
structure ChunkTable.Mirrors (source : ChunkSource) (t t' : ChunkTable) : Prop where
  starts : t.starts = t'.starts
  nbytes : t.nbytes = t'.nbytes
  slots : SlotsMirror source t.slots t'.slots

namespace ChunkTable.Mirrors

variable {source : ChunkSource} {t t' : ChunkTable}

/-- Offsets that are computed afresh are the same. -/
theorem ofSlots {slots slots' : Array Slot} (h : SlotsMirror source slots slots') (nominal : Nat) :
    Mirrors source (.ofSlots nominal slots) (.ofSlots nominal slots') := by
  have hextents : slots.toList.map (Slot.extent nominal) = slots'.toList.map (Slot.extent nominal) :=
    h.map_eq fun hslot => by rw [Slot.extent, Slot.extent, hslot.nbytes?_eq]
  have hoffsets := offsets_congr hextents 0
  exact ⟨congrArg (fun o => o.1.toArray) hoffsets, congrArg Prod.snd hoffsets, h⟩

theorem push (h : t.Mirrors source t') (c : Chunk) : (t.push c).Mirrors source (t'.push c) := by
  refine ⟨?_, ?_, h.slots.push c⟩
  · rw [ChunkTable.push, ChunkTable.push, h.starts, h.nbytes]
  · rw [ChunkTable.push, ChunkTable.push, h.nbytes]

theorem fill (h : t.Mirrors source t') (i : Nat) (c : Chunk) :
    (t.fill i c).Mirrors source (t'.fill i c) :=
  ⟨h.starts, h.nbytes, h.slots.setIfInBounds i c⟩

end ChunkTable.Mirrors

namespace Store

/-- A store mirrors another one: they differ at most in chunks that are still at the source. -/
structure Mirrors (source : ChunkSource) (s s' : Store) : Prop where
  codec : s.codec = s'.codec
  chunkSize : s.chunkSize = s'.chunkSize
  allowResize : s.allowResize = s'.allowResize
  revision : s.revision = s'.revision
  metadata : s.metadata = s'.metadata
  table : s.table.Mirrors source s'.table

namespace Mirrors

variable {source : ChunkSource} {s s' : Store}

theorem nchunks_eq (h : Mirrors source s s') : s.nchunks = s'.nchunks :=
  h.table.slots.size_eq

theorem cbytes_eq (h : Mirrors source s s') : s.cbytes = s'.cbytes :=
  congrArg List.sum (h.table.slots.map_eq Slot.Mirrors.cbytes_eq)

theorem fetch_eq (h : Mirrors source s s') (source' : ChunkSource) (i : Nat) :
    s.fetch source i = s'.fetch source' i := by
  rw [fetch, fetch, h.nchunks_eq]
  obtain ⟨hnone, hnone'⟩ | ⟨slot, slot', hsome, hsome', hslot⟩ := h.table.slots.at_place i
  · rw [hnone, hnone']
  · rw [hsome, hsome']
    exact hslot.fetch_eq source'

theorem withTable (h : Mirrors source s s') {t t' : ChunkTable} (ht : t.Mirrors source t')
    {revision revision' : Nat} (hrevision : revision = revision') :
    Mirrors source { s with table := t, revision } { s' with table := t', revision := revision' } :=
  ⟨h.codec, h.chunkSize, h.allowResize, hrevision, h.metadata, ht⟩

theorem withAllowResize (h : Mirrors source s s') (allowed : Bool) :
    Mirrors source { s with allowResize := allowed } { s' with allowResize := allowed } :=
  ⟨h.codec, h.chunkSize, rfl, h.revision, h.metadata, h.table⟩

theorem withMetadata (h : Mirrors source s s') (metadata : Metadata) :
    Mirrors source { s with metadata } { s' with metadata } :=
  ⟨h.codec, h.chunkSize, h.allowResize, h.revision, rfl, h.table⟩

end Mirrors

/-! ## Actions in lockstep -/

/-- Two actions give the same outcome on stores that mirror each other, and leave such stores. What the
one store was opened from stays. -/
def Lockstep {α : Type} (source : ChunkSource) (act act' : StoreM α) : Prop :=
  ∀ s s', Mirrors source s s' → (Action.run act s).1 = (Action.run act' s').1 ∧
    Mirrors source (Action.run act s).2 (Action.run act' s').2 ∧
    (Action.run act s).2.source = s.source

section Lockstep

variable {α β : Type} {source source' : ChunkSource}

theorem lockstep_pure (a : α) : Lockstep source (pure a) (pure a) :=
  fun _ _ h => ⟨rfl, h, rfl⟩

theorem lockstep_throw (e : Error) : Lockstep source (throw e : StoreM α) (throw e) :=
  fun _ _ h => ⟨rfl, h, rfl⟩

theorem lockstep_liftM (r : Result α) : Lockstep source (liftM r : StoreM α) (liftM r) := by
  intro s s' h
  rw [Action.run_liftM, Action.run_liftM]
  exact ⟨rfl, h, rfl⟩

theorem lockstep_modify {f f' : Store → Store}
    (hf : ∀ s s', Mirrors source s s' → Mirrors source (f s) (f' s'))
    (hkeep : ∀ s, (f s).source = s.source) :
    Lockstep source (modify f : StoreM Unit) (modify f') :=
  fun s s' h => ⟨rfl, hf s s' h, hkeep s⟩

theorem Lockstep.bind {act act' : StoreM α} {next next' : α → StoreM β}
    (hact : Lockstep source act act') (hnext : ∀ a, Lockstep source (next a) (next' a)) :
    Lockstep source (act >>= next) (act' >>= next') := by
  intro s s' h
  obtain ⟨hanswer, hmirror, hkeep⟩ := hact s s' h
  rw [Action.run_bind, Action.run_bind]
  revert hanswer hmirror hkeep
  cases Action.run act s with
  | mk answer s₁ =>
    cases Action.run act' s' with
    | mk answer' s₁' =>
      rintro rfl hmirror hkeep
      cases answer with
      | error e => exact ⟨rfl, hmirror, hkeep⟩
      | ok a =>
        obtain ⟨hanswer, hmirror', hkeep'⟩ := hnext a s₁ s₁' hmirror
        exact ⟨hanswer, hmirror', hkeep'.trans hkeep⟩

theorem Lockstep.map {act act' : StoreM α} (hact : Lockstep source act act') (f : α → β) :
    Lockstep source (f <$> act) (f <$> act') := by
  rw [map_eq_pure_bind, map_eq_pure_bind]
  exact hact.bind fun a => lockstep_pure (f a)

/-- What is done with the stores themselves is in lockstep if it is for stores that mirror each other. -/
theorem lockstep_get_bind {next next' : Store → StoreM β}
    (hnext : ∀ s s', Mirrors source s s' → Lockstep source (next s) (next' s')) :
    Lockstep source (get >>= next) (get >>= next') := by
  intro s s' h
  rw [Action.run_bind_of_ok (Action.run_get s), Action.run_bind_of_ok (Action.run_get s')]
  exact hnext s s' h s s' h

/-- What is the same in stores that mirror each other is told in lockstep. -/
theorem lockstep_map_get {f : Store → α} (hf : ∀ s s', Mirrors source s s' → f s = f s') :
    Lockstep source (f <$> get) (f <$> get) := by
  intro s s' h
  rw [Action.run_map, Action.run_map, Action.run_get, Action.run_get]
  exact ⟨congrArg Except.ok (hf s s' h), h, rfl⟩

/-! ## Commands -/

/-- The use of a chunk loads it in the one store, if need be, and changes nothing in the other. -/
theorem lockstep_chunk (i : Nat) : Lockstep source (chunk source i) (chunk source' i) := by
  intro s s' h
  rw [run_chunk_eq_fill, run_chunk_eq_fill, h.fetch_eq source' i]
  cases s'.fetch source' i with
  | error e => exact ⟨rfl, h, rfl⟩
  | ok c => exact ⟨rfl, h.withTable (h.table.fill i c) h.revision, rfl⟩

theorem lockstep_commit {f f' : ChunkTable → ChunkTable}
    (hf : ∀ t t', t.Mirrors source t' → (f t).Mirrors source (f' t')) :
    Lockstep source (commit f) (commit f') :=
  lockstep_modify (fun _ _ h => h.withTable (hf _ _ h.table) (congrArg (· + 1) h.revision))
    fun _ => rfl

theorem lockstep_appendChunk (c : Chunk) :
    Lockstep source (appendChunk c) (appendChunk c) := by
  refine lockstep_get_bind fun s s' h => ?_
  rw [h.table.slots.back_eq, h.chunkSize, h.allowResize, h.nchunks_eq]
  have hpush : Lockstep source (do commit fun t => t.push c; pure s'.nchunks)
      (do commit fun t => t.push c; pure s'.nchunks) :=
    (lockstep_commit fun _ _ ht => ht.push c).bind fun _ => lockstep_pure _
  split
  · split
    · exact lockstep_throw _
    · exact hpush
  · exact hpush

theorem lockstep_append (raw : Bytes) : Lockstep source (append raw) (append raw) := by
  refine lockstep_get_bind fun s s' h => ?_
  rw [h.chunkSize, h.codec, h.nchunks_eq]
  split
  · exact lockstep_throw _
  · exact (lockstep_liftM _).bind fun c => lockstep_appendChunk c

theorem lockstep_reserve (count : Nat) : Lockstep source (reserve count) (reserve count) := by
  refine lockstep_get_bind fun s s' h => ?_
  rw [h.chunkSize, h.nchunks_eq]
  exact (lockstep_commit fun _ _ ht => .ofSlots (ht.slots.reserve count) _).bind fun _ =>
    lockstep_pure _

/-- A slot is filled in place, or all offsets are computed afresh. -/
theorem lockstep_commit_fill (nominal i : Nat) (c : Chunk) (fresh : Prop) [Decidable fresh] :
    Lockstep source
      (commit fun t => if fresh then .ofSlots nominal (t.fill i c).slots else t.fill i c)
      (commit fun t => if fresh then .ofSlots nominal (t.fill i c).slots else t.fill i c) := by
  refine lockstep_commit fun t t' ht => ?_
  split
  · exact .ofSlots (ht.fill i c).slots nominal
  · exact ht.fill i c

theorem lockstep_insertChunk (i : Nat) (c : Chunk) :
    Lockstep source (insertChunk i c) (insertChunk i c) := by
  refine lockstep_get_bind fun s s' h => ?_
  rw [h.chunkSize, h.allowResize, h.nchunks_eq]
  dsimp only
  split
  · exact lockstep_throw _
  · obtain ⟨hnone, hnone'⟩ | ⟨slot, slot', hsome, hsome', hslot⟩ := h.table.slots.at_place i
    · rw [hnone, hnone']
      exact lockstep_throw _
    · rw [hsome, hsome']
      cases hslot with
      | reserved => exact lockstep_commit_fill s'.chunkSize i c _
      | loaded c' => exact lockstep_throw _
      | pending hsource => exact lockstep_throw _

theorem lockstep_replace (i : Nat) (raw : Bytes) :
    Lockstep source (replace source i raw) (replace source' i raw) := by
  refine (lockstep_chunk i).bind fun old => lockstep_get_bind fun s s' h => ?_
  rw [h.chunkSize, h.allowResize, h.codec]
  dsimp only
  split
  · exact lockstep_throw _
  · exact (lockstep_liftM _).bind fun c => lockstep_commit_fill s'.chunkSize i c _

theorem lockstep_perform (cmd : StoreCommand Chunk) :
    Lockstep source (perform source cmd) (perform source' cmd) := by
  cases cmd with
  | append raw => exact (lockstep_append raw).map _
  | appendChunk c => exact (lockstep_appendChunk c).map _
  | reserve count => exact (lockstep_reserve count).map _
  | insertChunk i c => exact (lockstep_insertChunk i c).map _
  | replace i raw => exact (lockstep_replace i raw).map _

/-! ## Reads -/

theorem lockstep_readWith (i : Nat) (read : Chunk → Result Bytes) :
    Lockstep source (readWith source i read) (readWith source' i read) :=
  (lockstep_chunk i).bind fun _ => lockstep_liftM _

/-- A read that spans slots looks at the offsets before each of them, and loads do not move these. -/
theorem lockstep_readFrom (start stop : Nat) (out : Bytes) (i slots : Nat) :
    Lockstep source (readFrom source start stop out i slots)
      (readFrom source' start stop out i slots) := by
  induction slots generalizing out i with
  | zero => exact lockstep_pure out
  | succ slots ih =>
    rw [readFrom, readFrom]
    split
    · exact lockstep_pure out
    · refine lockstep_get_bind fun s s' h => ?_
      rw [h.table.starts]
      refine (lockstep_chunk i).bind fun c => ?_
      dsimp only
      split
      · exact (lockstep_liftM _).bind fun piece => ih _ _
      · exact (lockstep_pure _).bind fun piece => ih _ _

theorem lockstep_readBytes (start length : Nat) :
    Lockstep source (readBytes source start length) (readBytes source' start length) := by
  refine lockstep_get_bind fun s s' h => ?_
  rw [nbytes, nbytes, h.table.nbytes, h.table.starts, h.nchunks_eq]
  dsimp only
  split
  · exact lockstep_throw _
  · exact lockstep_readFrom _ _ _ _ _

theorem lockstep_chunksFrom (i count : Nat) :
    Lockstep source (chunksFrom source i count) (chunksFrom source' i count) := by
  induction count generalizing i with
  | zero => exact lockstep_pure _
  | succ count ih =>
    exact (lockstep_chunk i).bind fun c => (ih (i + 1)).bind fun rest => lockstep_pure _

theorem lockstep_toFrame : Lockstep source (toFrame source) (toFrame source') := by
  have hall : Lockstep source (allChunks source) (allChunks source') := by
    refine lockstep_get_bind fun s s' h => ?_
    rw [h.nchunks_eq]
    exact lockstep_chunksFrom 0 _
  have hcompact : Lockstep source
      (modify fun s => { s with metadata := s.metadata.compact.2 } : StoreM Unit)
      (modify fun s => { s with metadata := s.metadata.compact.2 }) := by
    refine lockstep_modify (fun s s' h => ?_) fun _ => rfl
    rw [h.metadata]
    exact h.withMetadata _
  have hparts : Lockstep source (frameParts source 0) (frameParts source' 0) := by
    refine hall.bind fun chunks => hcompact.bind fun _ => lockstep_get_bind fun s s' h => ?_
    rw [nbytes, nbytes, h.codec, h.chunkSize, h.table.nbytes, h.allowResize, h.metadata]
    exact lockstep_pure _
  exact hparts.bind fun parts => (lockstep_liftM _).bind fun head =>
    (lockstep_liftM _).bind fun _ => lockstep_pure _

end Lockstep

end Store

/-! ## Calls -/

/-- What can be asked of a store in memory, and what can be done to it. -/
inductive StoreCall where
  /-- Add, place or overwrite a chunk, or reserve slots. -/
  | perform (cmd : StoreCommand Chunk)
  /-- The chunk of a slot. -/
  | chunk (i : Nat)
  /-- The content of a chunk. -/
  | getChunk (i : Nat)
  /-- The content of a chunk for a buffer of a given length. -/
  | getInto (i length : Nat)
  /-- A range of a chunk. -/
  | getRange (i start length : Nat)
  /-- A range of the whole. -/
  | readBytes (start length : Nat)
  /-- The contiguous frame. -/
  | toFrame
  /-- Set a metadata key. -/
  | setKey (key : String) (value : MetaValue)
  /-- Delete a metadata key. -/
  | deleteKey (key : String)
  /-- Drop the marks of deleted metadata keys. -/
  | compact
  /-- Start the metadata anew. -/
  | clearKeys (codec : CodecConfig)
  /-- Allow other sizes, or do not any more. -/
  | allowResize (allowed : Bool)
  /-- The value of a metadata key. -/
  | getKey (key : String)
  /-- Whether a metadata key is present. -/
  | hasKey (key : String)
  /-- The metadata keys. -/
  | keys
  /-- The number of metadata keys. -/
  | keyCount
  /-- Whether there are no metadata keys. -/
  | noKeys
  /-- The number of slots. -/
  | nchunks
  /-- The size of the content. -/
  | nbytes
  /-- The size of the chunks in serialized form. -/
  | cbytes
  /-- The number of changes. -/
  | revision
  /-- Check the number of changes. -/
  | checkRevision (expected : Nat)

/-- The answer to a call that succeeds. -/
inductive StoreAnswer where
  | done
  | slot (i : Option Nat)
  | chunk (c : Chunk)
  | bytes (b : Bytes)
  | value (v : MetaValue)
  | flag (b : Bool)
  | names (keys : List String)
  | number (n : Nat)

namespace Store

/-- Answers a call. -/
def ask (source : ChunkSource) : StoreCall → StoreM StoreAnswer
  | .perform cmd => .slot <$> perform source cmd
  | .chunk i => .chunk <$> chunk source i
  | .getChunk i => .bytes <$> getChunk source i
  | .getInto i length => .bytes <$> getInto source i length
  | .getRange i start length => .bytes <$> getRange source i start length
  | .readBytes start length => .bytes <$> readBytes source start length
  | .toFrame => .bytes <$> toFrame source
  | .setKey key value => do
    let metadata ← liftM (n := StoreM) ((← get).metadata.set key value)
    modify fun s => { s with metadata }
    pure .done
  | .deleteKey key => do
    let metadata ← liftM (n := StoreM) ((← get).metadata.delete key)
    modify fun s => { s with metadata }
    pure .done
  | .compact => do
    let (dropped, metadata) := (← get).metadata.compact
    modify fun s => { s with metadata }
    pure (.number dropped)
  | .clearKeys codec => do
    modify fun s => { s with metadata := { codec } }
    pure .done
  | .allowResize allowed => do
    modify fun s => { s with allowResize := allowed }
    pure .done
  | .getKey key => do
    .value <$> liftM (n := StoreM) ((← get).metadata.get key)
  | .hasKey key => (fun s => .flag (s.metadata.contains key)) <$> get
  | .keys => (fun s => .names s.metadata.keys) <$> get
  | .keyCount => (fun s => .number s.metadata.size) <$> get
  | .noKeys => (fun s => .flag s.metadata.isEmpty) <$> get
  | .nchunks => (fun s => .number s.nchunks) <$> get
  | .nbytes => (fun s => .number s.nbytes) <$> get
  | .cbytes => (fun s => .number s.cbytes) <$> get
  | .revision => (fun s => .number s.revision) <$> get
  | .checkRevision expected => do
    (fun () => .done) <$> liftM (n := StoreM) ((← get).checkRevision expected)

/-- Answers calls one after the other, going on behind one that fails. Gives all answers. -/
def askAll (fs : Files) (s : Store) : List StoreCall → List (Result StoreAnswer)
  | [] => []
  | call :: rest =>
    let (answer, s) := s.run (ask (s.chunkSource fs) call)
    answer :: askAll fs s rest

variable {source : ChunkSource} {s s' : Store}

theorem lockstep_ask (source' : ChunkSource) (call : StoreCall) :
    Lockstep source (ask source call) (ask source' call) := by
  have hmetadata (metadata : Metadata) : Lockstep source
      (modify fun s => { s with metadata } : StoreM Unit) (modify fun s => { s with metadata }) :=
    lockstep_modify (fun _ _ h => h.withMetadata metadata) fun _ => rfl
  -- Calls on chunks go slot by slot; all others read what mirrored stores have in common.
  cases call with
  | perform cmd => exact (lockstep_perform cmd).map _
  | chunk i => exact (lockstep_chunk i).map _
  | getChunk i => exact (lockstep_readWith i _).map _
  | getInto i length => exact (lockstep_readWith i _).map _
  | getRange i start length => exact (lockstep_readWith i _).map _
  | readBytes start length => exact (lockstep_readBytes start length).map _
  | toFrame => exact lockstep_toFrame.map _
  | setKey key value =>
    refine lockstep_get_bind fun s s' h => ?_
    rw [h.metadata]
    exact (lockstep_liftM _).bind fun m => (hmetadata m).bind fun _ => lockstep_pure _
  | deleteKey key =>
    refine lockstep_get_bind fun s s' h => ?_
    rw [h.metadata]
    exact (lockstep_liftM _).bind fun m => (hmetadata m).bind fun _ => lockstep_pure _
  | compact =>
    refine lockstep_get_bind fun s s' h => ?_
    rw [h.metadata]
    exact (hmetadata _).bind fun _ => lockstep_pure _
  | clearKeys codec => exact (hmetadata { codec }).bind fun _ => lockstep_pure _
  | allowResize allowed =>
    have hallow : Lockstep source (modify fun s => { s with allowResize := allowed } : StoreM Unit)
        (modify fun s => { s with allowResize := allowed }) :=
      lockstep_modify (fun _ _ h => h.withAllowResize allowed) fun _ => rfl
    exact hallow.bind fun _ => lockstep_pure _
  | getKey key =>
    refine lockstep_get_bind fun s s' h => ?_
    rw [h.metadata]
    exact (lockstep_liftM _).map _
  | hasKey key => exact lockstep_map_get fun s s' h => by rw [h.metadata]
  | keys => exact lockstep_map_get fun s s' h => by rw [h.metadata]
  | keyCount => exact lockstep_map_get fun s s' h => by rw [h.metadata]
  | noKeys => exact lockstep_map_get fun s s' h => by rw [h.metadata]
  | nchunks => exact lockstep_map_get fun s s' h => by rw [h.nchunks_eq]
  | nbytes => exact lockstep_map_get fun s s' h => by rw [nbytes, nbytes, h.table.nbytes]
  | cbytes => exact lockstep_map_get fun s s' h => by rw [h.cbytes_eq]
  | revision => exact lockstep_map_get fun s s' h => by rw [h.revision]
  | checkRevision expected =>
    refine lockstep_get_bind fun s s' h => ?_
    rw [checkRevision, checkRevision, h.revision]
    exact (lockstep_liftM _).map _

/-- Stores that mirror each other give the same answers to all calls, in whatever order they come. -/
theorem Mirrors.askAll_eq {fs : Files} (h : Mirrors source s s') (hsource : s.chunkSource fs = source)
    (fs' : Files) (calls : List StoreCall) : askAll fs s calls = askAll fs' s' calls := by
  induction calls generalizing s s' with
  | nil => rfl
  | cons call rest ih =>
    rw [askAll, askAll, hsource]
    obtain ⟨hanswer, hmirror, hkeep⟩ := lockstep_ask (s'.chunkSource fs') call s s' h
    have hothers := ih hmirror ((chunkSource_congr hkeep fs).trans hsource)
    exact congrArg₂ List.cons hanswer hothers

end Store

end ChunkedArray
