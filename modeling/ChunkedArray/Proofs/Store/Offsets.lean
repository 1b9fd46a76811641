import ChunkedArray.Proofs.Action
import ChunkedArray.Store.Basic

/-!
# The offsets of a table

The offsets of a table are the running sums of the sizes of its slots. Adding a chunk at the end
continues the sums, and filling a slot with a chunk of the size that it counted for keeps them, so a
table that is changed in place has the offsets that would be computed afresh.
-/

namespace ChunkedArray

/-- The size for which a slot counts: its own, or the nominal one if it is reserved. -/
def Slot.extent (nominal : Nat) (slot : Slot) : Nat :=
  slot.nbytes?.getD nominal

@[simp] theorem Slot.extent_reserved (nominal : Nat) : reserved.extent nominal = nominal := rfl

@[simp] theorem Slot.extent_loaded (nominal : Nat) (c : Chunk) :
    (loaded c).extent nominal = c.nbytes := rfl

@[simp] theorem Slot.extent_pending (nominal nbytes cbytes : Nat) :
    (pending nbytes cbytes).extent nominal = nbytes := rfl

namespace ChunkTable

variable {nominal : Nat}

/-- The total is the sum of all sizes. -/
theorem snd_offsets (start : Nat) (slots : List Slot) :
    (offsets nominal start slots).2 = start + (slots.map (Slot.extent nominal)).sum := by
  induction slots generalizing start with
  | nil => simp [offsets]
  | cons slot rest ih => simp [offsets, ih, Slot.extent, Nat.add_assoc]

/-- Every offset is the sum of the sizes in front of it. -/
theorem fst_offsets (start : Nat) (slots : List Slot) :
    (offsets nominal start slots).1 =
      (List.range slots.length).map fun i =>
        start + ((slots.map (Slot.extent nominal)).take i).sum := by
  induction slots generalizing start with
  | nil => simp [offsets]
  | cons slot rest ih =>
    simp [offsets, ih, List.range_succ_eq_map, Function.comp_def, Slot.extent, Nat.add_assoc]

/-- Offsets depend on the sizes alone. -/
theorem offsets_congr {slots slots' : List Slot}
    (h : slots.map (Slot.extent nominal) = slots'.map (Slot.extent nominal)) (start : Nat) :
    offsets nominal start slots = offsets nominal start slots' := by
  have hlength : slots.length = slots'.length := by simpa using congrArg List.length h
  apply Prod.ext
  · rw [fst_offsets, fst_offsets, h, hlength]
  · rw [snd_offsets, snd_offsets, h]

theorem offsets_concat (start : Nat) (slots : List Slot) (last : Slot) :
    offsets nominal start (slots ++ [last]) =
      ((offsets nominal start slots).1 ++ [(offsets nominal start slots).2],
        (offsets nominal start slots).2 + last.extent nominal) := by
  induction slots generalizing start with
  | nil => simp [offsets, Slot.extent]
  | cons slot rest ih => simp [offsets, ih]

@[simp] theorem slots_ofSlots (slots : Array Slot) : (ofSlots nominal slots).slots = slots := rfl

/-- The total of a table is the sum of its sizes. -/
theorem nbytes_ofSlots (slots : Array Slot) :
    (ofSlots nominal slots).nbytes = (slots.toList.map (Slot.extent nominal)).sum := by
  simp [ofSlots, snd_offsets]

/-- The offsets of a table are the sums of the sizes in front. -/
theorem starts_ofSlots (slots : Array Slot) :
    (ofSlots nominal slots).starts.toList =
      (List.range slots.size).map fun i =>
        ((slots.toList.map (Slot.extent nominal)).take i).sum := by
  simp [ofSlots, fst_offsets]

/-- A chunk at the end continues the sums. -/
theorem push_ofSlots (slots : Array Slot) (c : Chunk) :
    (ofSlots nominal slots).push c = ofSlots nominal (slots.push (.loaded c)) := by
  simp [ofSlots, push, offsets_concat]

/-- A slot that is filled with a chunk of the size for which it counted leaves the sizes alone. -/
theorem map_extent_setIfInBounds {slots : Array Slot} {i : Nat} {c : Chunk}
    (h : ∀ slot, slots[i]? = some slot → slot.extent nominal = c.nbytes) :
    (slots.setIfInBounds i (.loaded c)).toList.map (Slot.extent nominal) =
      slots.toList.map (Slot.extent nominal) := by
  apply List.ext_getElem?
  intro j
  rw [Array.toList_setIfInBounds, List.map_set, List.getElem?_set]
  by_cases hij : i = j
  · subst hij
    by_cases hlt : i < slots.size
    · simp [hlt, h _ (Array.getElem?_eq_getElem hlt)]
    · simp [hlt]
  · simp [hij]

/-- A slot that is filled with a chunk of the size for which it counted leaves the sums alone. -/
theorem fill_ofSlots {slots : Array Slot} {i : Nat} {c : Chunk}
    (h : ∀ slot, slots[i]? = some slot → slot.extent nominal = c.nbytes) :
    (ofSlots nominal slots).fill i c = ofSlots nominal (slots.setIfInBounds i (.loaded c)) := by
  simp [ofSlots, fill, offsets_congr (map_extent_setIfInBounds h).symm]

end ChunkTable

namespace Store

/-- The table of a store has the offsets that would be computed afresh from its slots. -/
def Tallied (s : Store) : Prop :=
  s.table = .ofSlots s.chunkSize s.table.slots

/-! ## Stores at their start -/

/-- A new store has the parameters that it was given, and they are valid. -/
theorem new_eq_ok {codec : CodecConfig} {chunkSize : Nat} {allowResize : Bool} {s : Store}
    (h : new codec chunkSize allowResize = .ok s) :
    codec.validate = .ok () ∧ 0 < chunkSize ∧ s = { codec, chunkSize, allowResize } := by
  obtain ⟨⟨⟩, hvalid, h⟩ := bind_eq_ok.1 h
  by_cases hzero : chunkSize = 0
  · rw [if_pos hzero] at h
    cases h
  · rw [if_neg hzero] at h
    cases h
    exact ⟨hvalid, Nat.pos_of_ne_zero hzero, rfl⟩

/-- A restored store has the parameters and the chunks that it was given. -/
theorem ofChunks_eq_ok {codec : CodecConfig} {chunkSize : Nat} {allowResize : Bool}
    {chunks : List Chunk} {metadata : Metadata} {s : Store}
    (h : ofChunks codec chunkSize allowResize chunks metadata = .ok s) :
    codec.validate = .ok () ∧ 0 < chunkSize ∧
      s = { codec, chunkSize, allowResize, metadata
            table := .ofSlots chunkSize (chunks.map Slot.loaded).toArray } := by
  obtain ⟨s₀, hnew, h⟩ := bind_eq_ok.1 h
  obtain ⟨hvalid, hpos, rfl⟩ := new_eq_ok hnew
  cases h
  exact ⟨hvalid, hpos, rfl⟩

end Store

end ChunkedArray
