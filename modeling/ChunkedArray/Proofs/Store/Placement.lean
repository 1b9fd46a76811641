import ChunkedArray.Proofs.Chunk.Compress
import ChunkedArray.Proofs.Store.Offsets
import Mathlib.Data.List.Nodup

/-!
# Placing chunks in any order

Workers place the chunks of a store into slots that were reserved for them, each when it is done. Where
sizes are fixed an insertion leaves the offsets alone, where they are not it computes them afresh, with the
slots that are still empty at the nominal size. Either way the offsets are those of the slots as they are,
so all orders end in one store, and an insertion that comes too late or misses the table changes nothing.
-/

namespace ChunkedArray

namespace Store

variable {s : Store} {slots : Array Slot} {order : List (Chunk × Nat)} {c : Chunk} {i : Nat}

/-- A chunk that may be placed: it has the nominal size, or the store allows other sizes. -/
def Accepts (s : Store) (c : Chunk) : Prop :=
  c.nbytes = s.chunkSize ∨ s.allowResize = true

/-- Places chunks into slots, one after the other. -/
def placeAll : List (Chunk × Nat) → StoreM Unit
  | [] => pure ()
  | (c, i) :: rest => do
    insertChunk i c
    placeAll rest

/-- The slots with chunks placed into them. -/
def placed (slots : Array Slot) (order : List (Chunk × Nat)) : Array Slot :=
  order.foldl (fun slots p => slots.setIfInBounds p.2 (.loaded p.1)) slots

/-- The store with chunks placed into its slots, each of which counts as a change. -/
def withPlaced (s : Store) (order : List (Chunk × Nat)) : Store :=
  { s with
    table := .ofSlots s.chunkSize (placed s.table.slots order)
    revision := s.revision + order.length }

/-- The store with slots reserved at the end. -/
def withReserved (s : Store) (count : Nat) : Store :=
  { s with
    table := .ofSlots s.chunkSize (s.table.slots ++ Array.replicate count Slot.reserved)
    revision := s.revision + 1 }

/-- The store with chunks at the end, for which slots were reserved. -/
def filledWith (s : Store) (chunks : List Chunk) : Store :=
  { s with
    table := .ofSlots s.chunkSize (s.table.slots ++ (chunks.map Slot.loaded).toArray)
    revision := s.revision + 1 + chunks.length }

/-- Why a chunk cannot be placed into a slot that is not reserved. -/
def insertFault (s : Store) (i : Nat) (c : Chunk) : Error :=
  if c.nbytes ≠ s.chunkSize ∧ !s.allowResize then
    .parameter (.insertLength i c.nbytes s.chunkSize)
  else if i < s.nchunks then .internal (.filledTwice i)
  else .index (.chunk i s.nchunks)

/-! ## The slots -/

@[simp] theorem size_placed (slots : Array Slot) (order : List (Chunk × Nat)) :
    (placed slots order).size = slots.size := by
  induction order generalizing slots with
  | nil => rfl
  | cons p rest ih => exact (ih _).trans Array.size_setIfInBounds

/-- A slot into which nothing is placed stays as it is. -/
theorem getElem?_placed_of_notMem (h : i ∉ order.map Prod.snd) :
    (placed slots order)[i]? = slots[i]? := by
  induction order generalizing slots with
  | nil => rfl
  | cons p rest ih =>
    rw [List.map_cons, List.mem_cons, not_or] at h
    exact (ih h.2).trans (Array.getElem?_setIfInBounds_ne (Ne.symm h.1))

/-- A slot into which one chunk is placed holds it. -/
theorem getElem?_placed_of_mem (hdistinct : (order.map Prod.snd).Nodup) (h : (c, i) ∈ order)
    (hlt : i < slots.size) : (placed slots order)[i]? = some (.loaded c) := by
  induction order generalizing slots with
  | nil => cases h
  | cons p rest ih =>
    obtain ⟨hnew, hdistinct⟩ := List.nodup_cons.1 hdistinct
    rcases List.mem_cons.1 h with rfl | h
    · exact (getElem?_placed_of_notMem hnew).trans (Array.getElem?_setIfInBounds_self_of_lt hlt)
    · exact ih hdistinct h (by rwa [Array.size_setIfInBounds])

/-- Placements into different slots can be made in any order. -/
theorem placed_perm {order' : List (Chunk × Nat)} (h : order.Perm order')
    (hdistinct : (order.map Prod.snd).Nodup) : placed slots order = placed slots order' := by
  refine h.foldl_eq' (fun p hp q hq slots => ?_) slots
  by_cases hpq : p.2 = q.2
  · rw [List.inj_on_of_nodup_map hdistinct hp hq hpq]
  · exact Array.setIfInBounds_comm _ _ hpq

/-- Chunks placed in a row into the slots that were reserved for them follow the other slots. -/
theorem placed_zipIdx (slots : Array Slot) (chunks : List Chunk) :
    placed (slots ++ Array.replicate chunks.length Slot.reserved) (chunks.zipIdx slots.size) =
      slots ++ (chunks.map Slot.loaded).toArray := by
  induction chunks generalizing slots with
  | nil => simp [placed]
  | cons c rest ih =>
    have hfirst : (slots ++ Array.replicate (rest.length + 1) Slot.reserved).setIfInBounds slots.size
        (.loaded c) = slots.push (.loaded c) ++ Array.replicate rest.length Slot.reserved := by
      apply Array.ext'
      simp [List.replicate_succ]
    have hrest := ih (slots.push (.loaded c))
    rw [Array.size_push] at hrest
    rw [List.zipIdx_cons, placed, List.foldl_cons, List.length_cons, hfirst]
    exact hrest.trans (by simp)

/-! ## One insertion -/

/-- An acceptable chunk is placed into a reserved slot, and the offsets are those of the new slots. -/
theorem run_insertChunk_of_reserved (h : s.Tallied) (hslot : s.table.slots[i]? = some .reserved)
    (hc : s.Accepts c) : Action.run (insertChunk i c) s = (.ok (), s.withPlaced [(c, i)]) := by
  have hfits : ¬ (c.nbytes ≠ s.chunkSize ∧ (!s.allowResize) = true) := by
    rcases hc with hc | hc <;> simp [hc]
  have htable : (if s.allowResize then ChunkTable.ofSlots s.chunkSize (s.table.fill i c).slots
      else s.table.fill i c) =
      .ofSlots s.chunkSize (s.table.slots.setIfInBounds i (.loaded c)) := by
    by_cases hresize : s.allowResize = true
    · rw [if_pos hresize]
      rfl
    · have hnominal : c.nbytes = s.chunkSize := hc.resolve_right hresize
      have hextent (slot : Slot) (h : s.table.slots[i]? = some slot) :
          slot.extent s.chunkSize = c.nbytes := by
        obtain rfl : Slot.reserved = slot := Option.some.inj (hslot.symm.trans h)
        exact hnominal.symm
      rw [if_neg hresize, ← ChunkTable.fill_ofSlots hextent, ← h]
  rw [insertChunk, Action.run_bind_of_ok (Action.run_get s), if_neg hfits, hslot]
  dsimp only
  rw [commit, Action.run_modify, htable]
  rfl

/-- A chunk is not placed into a slot that is not reserved, nor where there is none. -/
theorem run_insertChunk_of_not_reserved (s : Store) (c : Chunk)
    (hslot : s.table.slots[i]? ≠ some .reserved) :
    Action.run (insertChunk i c) s = (.error (s.insertFault i c), s) := by
  rw [insertChunk, Action.run_bind_of_ok (Action.run_get s), insertFault]
  by_cases hsize : c.nbytes ≠ s.chunkSize ∧ (!s.allowResize) = true
  · rw [if_pos hsize, if_pos hsize]
    rfl
  · rw [if_neg hsize, if_neg hsize]
    by_cases hlt : i < s.table.slots.size
    · rw [Array.getElem?_eq_getElem hlt] at hslot ⊢
      rw [if_pos (show i < s.nchunks from hlt)]
      generalize s.table.slots[i] = slot at hslot ⊢
      cases slot with
      | reserved => exact absurd rfl hslot
      | loaded => rfl
      | pending => rfl
    · rw [Array.getElem?_eq_none (Nat.le_of_not_lt hlt), if_neg (show ¬ i < s.nchunks from hlt)]
      rfl

/-! ## Runs -/

/-- Placements that a store has room for: acceptable chunks for different reserved slots. -/
structure Placeable (s : Store) (order : List (Chunk × Nat)) : Prop where
  distinct : (order.map Prod.snd).Nodup
  reserved : ∀ p ∈ order, s.table.slots[p.2]? = some .reserved
  accepted : ∀ p ∈ order, s.Accepts p.1

theorem Placeable.of_append {done rest : List (Chunk × Nat)} (h : s.Placeable (done ++ rest)) :
    s.Placeable done := by
  have hdistinct := h.distinct
  rw [List.map_append] at hdistinct
  exact ⟨hdistinct.of_append_left, fun p hp => h.reserved p (List.mem_append_left rest hp),
    fun p hp => h.accepted p (List.mem_append_left rest hp)⟩

/-- Room for several placements is room for the first, and then still for the others. -/
theorem Placeable.tail (h : s.Placeable ((c, i) :: order)) :
    (s.withPlaced [(c, i)]).Placeable order := by
  obtain ⟨hnew, hdistinct⟩ := List.nodup_cons.1 h.distinct
  refine ⟨hdistinct, fun p hp => ?_, fun p hp => h.accepted p (List.mem_cons_of_mem _ hp)⟩
  have hother : p.2 ∉ [(c, i)].map Prod.snd := fun hmem =>
    hnew (List.mem_singleton.1 hmem ▸ List.mem_map_of_mem hp)
  exact (getElem?_placed_of_notMem hother).trans (h.reserved p (List.mem_cons_of_mem _ hp))

theorem tallied_withPlaced (s : Store) (order : List (Chunk × Nat)) : (s.withPlaced order).Tallied :=
  rfl

/-- Chunks are placed one after the other where there is room for them. -/
theorem Placeable.run_placeAll (h : s.Placeable order) (htallied : s.Tallied) :
    Action.run (placeAll order) s = (.ok (), s.withPlaced order) := by
  induction order generalizing s with
  | nil => exact congrArg (fun table => (Except.ok (), { s with table })) htallied
  | cons p rest ih =>
    obtain ⟨c, i⟩ := p
    have hfirst := run_insertChunk_of_reserved htallied (h.reserved _ List.mem_cons_self)
      (h.accepted _ List.mem_cons_self)
    rw [placeAll, Action.run_bind_of_ok hfirst, ih h.tail (s.tallied_withPlaced _)]
    simp [withPlaced, placed, Nat.add_assoc, Nat.add_comm 1]

/-- The chunks that are placed are in their slots. -/
theorem Placeable.getElem?_withPlaced (h : s.Placeable order) {p : Chunk × Nat} (hp : p ∈ order) :
    (s.withPlaced order).table.slots[p.2]? = some (.loaded p.1) := by
  obtain ⟨hlt, -⟩ := Array.getElem?_eq_some_iff.1 (h.reserved p hp)
  exact getElem?_placed_of_mem h.distinct hp hlt

/-- A run that is broken off goes on where it stood. -/
theorem run_placeAll_append {done : List (Chunk × Nat)} {s₁ : Store}
    (h : Action.run (placeAll done) s = (.ok (), s₁)) (rest : List (Chunk × Nat)) :
    Action.run (placeAll (done ++ rest)) s = Action.run (placeAll rest) s₁ := by
  induction done generalizing s with
  | nil =>
    obtain rfl : s = s₁ := congrArg Prod.snd h
    rfl
  | cons p done ih =>
    obtain ⟨c, i⟩ := p
    obtain ⟨⟨⟩, s', hfirst, hdone⟩ := Action.exists_of_run_bind_eq_ok h
    rw [List.cons_append, placeAll, Action.run_bind_of_ok hfirst, ih hdone]

/-! ## All orders -/

/-- The slots that are reserved for chunks have room for them, in whatever order. -/
theorem placeable_of_perm {chunks : List Chunk} (hall : ∀ c ∈ chunks, s.Accepts c)
    (h : order.Perm (chunks.zipIdx s.nchunks)) :
    (s.withReserved chunks.length).Placeable order := by
  refine ⟨?_, fun p hp => ?_, fun p hp => ?_⟩
  · rw [(h.map Prod.snd).nodup_iff, List.zipIdx_map_snd]
    exact List.nodup_range'
  · obtain ⟨hle, hlt, -⟩ := List.mem_zipIdx (h.mem_iff.1 hp)
    have hle : s.table.slots.size ≤ p.2 := hle
    have hlt : p.2 < s.table.slots.size + chunks.length := hlt
    simp only [withReserved, ChunkTable.slots_ofSlots, Array.getElem?_append_right hle]
    rw [Array.getElem?_replicate, if_pos (by omega)]
  · exact hall p.1 (List.fst_mem_of_mem_zipIdx (h.mem_iff.1 hp))

/-- Once all chunks are placed, in whatever order, the store is filled with them. -/
theorem withPlaced_of_perm {chunks : List Chunk} (hall : ∀ c ∈ chunks, s.Accepts c)
    (h : order.Perm (chunks.zipIdx s.nchunks)) :
    (s.withReserved chunks.length).withPlaced order = s.filledWith chunks := by
  have hslots : placed (s.withReserved chunks.length).table.slots order =
      s.table.slots ++ (chunks.map Slot.loaded).toArray :=
    (placed_perm h (placeable_of_perm hall h).distinct).trans (placed_zipIdx s.table.slots chunks)
  have hlength : order.length = chunks.length := by rw [h.length_eq, List.length_zipIdx]
  rw [withPlaced, hslots, hlength]
  rfl

/-- Acceptable chunks can be placed in any order into the slots that were reserved for them: every
insertion succeeds, and the store is the same in the end. Wherever such a run stands, the slots that it has
filled hold their chunks, and an insertion into a slot that is not reserved, or where there is none, is
refused and changes nothing, so that the rest of the run ends as it would have ended. -/
theorem placeAll_perm (s : Store) {chunks : List Chunk} (hall : ∀ c ∈ chunks, s.Accepts c) :
    ∃ s₀, Action.run (reserve chunks.length) s = (.ok s.nchunks, s₀) ∧
      ∀ order : List (Chunk × Nat), order.Perm (chunks.zipIdx s.nchunks) →
        Action.run (placeAll order) s₀ = (.ok (), s.filledWith chunks) ∧
        ∀ done rest, order = done ++ rest → ∃ s₁,
          Action.run (placeAll done) s₀ = (.ok (), s₁) ∧
          (∀ p ∈ done, s₁.table.slots[p.2]? = some (.loaded p.1)) ∧
          (∀ i c, s₁.table.slots[i]? ≠ some .reserved →
            Action.run (insertChunk i c) s₁ = (.error (s₁.insertFault i c), s₁)) ∧
          Action.run (placeAll rest) s₁ = (.ok (), s.filledWith chunks) := by
  refine ⟨s.withReserved chunks.length, rfl, fun order horder => ?_⟩
  have htallied : (s.withReserved chunks.length).Tallied := rfl
  have hplaceable := placeable_of_perm hall horder
  have hrun : Action.run (placeAll order) (s.withReserved chunks.length) =
      (.ok (), s.filledWith chunks) := by
    rw [hplaceable.run_placeAll htallied, withPlaced_of_perm hall horder]
  refine ⟨hrun, ?_⟩
  rintro done rest rfl
  have hdone := hplaceable.of_append.run_placeAll htallied
  exact ⟨_, hdone, fun p => hplaceable.of_append.getElem?_withPlaced,
    fun i c => run_insertChunk_of_not_reserved _ c, (run_placeAll_append hdone rest).symm.trans hrun⟩

/-- A store that allows other sizes takes a chunk of three bytes and then, in front of it, one of a
single byte. -/
theorem placeAll_backwards :
    let s : Store := { codec := { codec := .noop }, chunkSize := 2, allowResize := true }
    ∃ c₀ c₁ s₀, Chunk.compress #[1] s.codec = .ok c₀ ∧ Chunk.compress #[1, 2, 3] s.codec = .ok c₁ ∧
      s.Accepts c₀ ∧ s.Accepts c₁ ∧ Action.run (reserve 2) s = (.ok 0, s₀) ∧
      Action.run (placeAll [(c₁, 1), (c₀, 0)]) s₀ = (.ok (), s.filledWith [c₀, c₁]) ∧
      (s.filledWith [c₀, c₁]).table.starts = #[0, 1] ∧ (s.filledWith [c₀, c₁]).nbytes = 4 := by
  intro s
  obtain ⟨c₀, hc₀⟩ : ∃ c, Chunk.compress #[1] s.codec = .ok c :=
    Chunk.exists_compress_eq_ok (by decide)
  obtain ⟨c₁, hc₁⟩ : ∃ c, Chunk.compress #[1, 2, 3] s.codec = .ok c :=
    Chunk.exists_compress_eq_ok (by decide)
  have hsize₀ : c₀.nbytes = 1 := Chunk.nbytes_of_compress hc₀
  have hsize₁ : c₁.nbytes = 3 := Chunk.nbytes_of_compress hc₁
  have haccepts (c : Chunk) : s.Accepts c := .inr rfl
  obtain ⟨s₀, hreserve, horders⟩ := placeAll_perm s fun c (_ : c ∈ [c₀, c₁]) => haccepts c
  refine ⟨c₀, c₁, s₀, hc₀, hc₁, haccepts c₀, haccepts c₁, hreserve, (horders _ (.swap _ _ [])).1, ?_, ?_⟩
  · simp [filledWith, ChunkTable.ofSlots, ChunkTable.offsets, Slot.nbytes?, s, hsize₀]
  · simp [filledWith, nbytes, ChunkTable.nbytes_ofSlots, s, hsize₀, hsize₁]

end Store

end ChunkedArray
