import ChunkedArray.Proofs.Array.Built
import ChunkedArray.Proofs.Array.Opened
import ChunkedArray.Proofs.Guarded.Array
import ChunkedArray.Proofs.Store.Rewrite

/-!
# Writes that break off

A region is written chunk by chunk, and a chunk that cannot be read, decoded or compressed ends the write.
The chunks in front of it then hold the value, each of them completely, and it and the chunks behind it hold
what they held: no chunk is written in part. The revision counts the chunks that were written, and the error
is the one of the chunk at which the write ended.
-/

namespace ChunkedArray

open ChunkedArray.Action

/-- Content that is decoded is given out if it matches its checksum. -/
theorem Chunk.decompress_of_content {c : Chunk} {out : Bytes} (h : c.content = .ok out) :
    c.decompress = if Crc32.checksum out = c.header.checksum then .ok out
      else .error (.checksum 0 c.header.checksum (Crc32.checksum out)) := by
  rw [decompress, h]
  rfl

namespace Geometry

variable {g : Geometry} {source : ChunkSource} {s : Store} {sel : Selection} {fill : Bool}
  {value : Bytes}

/-! ## Patched chunks -/

/-- The chunks that hold a selected element, in the order of the grid. -/
def holders (g : Geometry) (sel : Selection) : List Nat :=
  (List.range g.nchunks).filter fun i =>
    sel.coords.any fun c => decide ((g.grid.chunkBox i).Holds c)

/-- What a write does to the bytes of a chunk: the places of the selected elements in it take their items
from the value, each from its own place in the selection, or all of them are the value. The other places
stay. -/
structure Patches (g : Geometry) (sel : Selection) (value : Bytes) (i : Nat) (old new : Bytes) :
    Prop where
  size : new.size = old.size
  selected : value.size = sel.size * g.itemsize →
    ∀ q, sel.shape.Holds q → g.grid.chunkOf (sel.position q) = i →
      new.item g.itemsize (g.placeOf (sel.position q)) = value.item g.itemsize (sel.shape.flatten q)
  filled : value.size = g.itemsize →
    ∀ q, sel.shape.Holds q → g.grid.chunkOf (sel.position q) = i →
      new.item g.itemsize (g.placeOf (sel.position q)) = value
  other : ∀ p < g.chunks.size,
    (∀ q, sel.shape.Holds q → g.grid.chunkOf (sel.position q) = i → g.placeOf (sel.position q) ≠ p) →
      new.item g.itemsize p = old.item g.itemsize p

/-- The bytes of a chunk with a value written over what it holds of a selection. -/
def overwrite (g : Geometry) (sel : Selection) (fill : Bool) (value : Bytes) (i : Nat) (raw : Bytes) :
    Bytes :=
  g.patched sel fill value (fun _ => raw) i

theorem size_overwrite (i : Nat) (raw : Bytes) : (g.overwrite sel fill value i raw).size = raw.size :=
  size_patched i

theorem holders_eq (hg : g.Regular) (hsel : sel.Fits g.shape) :
    g.holders sel = (List.range g.nchunks).filter (g.isHit sel) :=
  List.filter_congr fun _ hi => any_holds_eq_isHit hg hsel (List.mem_range.1 hi)

theorem lt_of_mem_holders {i : Nat} (h : i ∈ g.holders sel) : i < g.nchunks :=
  List.mem_range.1 (List.mem_filter.1 h).1

/-- A place without a selected element keeps its bytes. -/
theorem getD_overwrite_of_miss (hg : g.Regular) (hsel : sel.Fits g.shape) {i : Nat} (hi : i < g.nchunks)
    (raw : Bytes) {p k : Nat} (hp : p < g.chunks.size) (hk : k < g.itemsize)
    (hmiss : ∀ q, sel.shape.Holds q → g.grid.chunkOf (sel.position q) = i →
      g.placeOf (sel.position q) ≠ p) :
    (g.overwrite sel fill value i raw).getD (p * g.itemsize + k) 0 =
      raw.getD (p * g.itemsize + k) 0 := by
  have hlen := (length_chunkBox hg hsel hi).1
  rw [overwrite, patched]
  cases hhits : sel.hits (g.grid.chunkBox i) with
  | none => rfl
  | some hits =>
    obtain ⟨rfl, -⟩ := Selection.eq_of_hits_eq_some hhits
    have hmiss' (q : List Nat) (hq : sel.shape.Holds q)
        (hbox : (g.grid.chunkBox i).Holds (sel.position q)) :
        (g.grid.chunkBox i).toLocal (sel.position q) ≠ g.chunks.unflatten p := by
      intro hlocal
      have hposition := Selection.holds_position hsel hq
      have hchunk := (ChunkGrid.holds_chunkBox_iff hg.grid hi hposition).1 hbox
      refine hmiss q hq hchunk ?_
      rw [placeOf, hchunk, hlocal, Shape.flatten_unflatten _ _ hp]
    have hkept := Selection.getD_copyIn_hits_of_miss hlen (chunkBox_fits hg hi) hk value raw
      (g.valueStart fill) (Shape.holds_unflatten hp) hmiss'
    rw [Shape.flatten_unflatten _ _ hp] at hkept
    dsimp only
    rw [patch_eq_copyItems, hkept]

/-- No more than the places of selected elements is written. -/
theorem patches_overwrite (hg : g.Regular) (hsel : sel.Fits g.shape) {i : Nat} (hi : i < g.nchunks)
    {raw : Bytes} (hraw : raw.size = g.chunkSize) :
    g.Patches sel value i raw (g.overwrite sel (value.size == g.itemsize) value i raw) := by
  have hover := @overwrites_patched g sel value (fun _ => raw) hg hsel fun _ _ => hraw
  refine ⟨size_overwrite i raw, ?_, ?_, fun p hp hmiss => ?_⟩
  · rintro hvalue q hq rfl
    exact hover.selected hvalue q hq
  · rintro hvalue q hq rfl
    exact hover.filled hvalue q hq
  · have hend : (p + 1) * g.itemsize ≤ raw.size := hraw ▸ Nat.mul_le_mul_right _ hp
    have hitem := Bytes.size_item raw g.itemsize p hend
    have hitem' := Bytes.size_item (g.overwrite sel (value.size == g.itemsize) value i raw) g.itemsize p
      (by rwa [size_overwrite])
    refine Bytes.ext_getD (hitem'.trans hitem.symm) fun k hk => ?_
    rw [hitem'] at hk
    rw [Bytes.getD_item _ _ _ _ hk, Bytes.getD_item _ _ _ _ hk]
    exact getD_overwrite_of_miss hg hsel hi raw hp hk hmiss

/-! ## Runs -/

theorem patchChunks_cons_of_isHit {i : Nat} (h : g.isHit sel i = true) (rest : List Nat) :
    g.patchChunks source sel fill value (i :: rest) = (do
      Store.rewrite source i (g.overwrite sel fill value i)
      g.patchChunks source sel fill value rest) := by
  obtain ⟨hits, hhits⟩ := Option.isSome_iff_exists.1 h
  rw [patchChunks, hhits, Store.rewrite, bind_assoc]
  simp only [overwrite, patched, hhits]

theorem patchChunks_cons_of_not_isHit {i : Nat} (h : g.isHit sel i = false) (rest : List Nat) :
    g.patchChunks source sel fill value (i :: rest) = g.patchChunks source sel fill value rest := by
  rw [isHit, Option.isSome_eq_false_iff, Option.isNone_iff_eq_none] at h
  rw [patchChunks, h]

/-- The chunks of a list that hold something are rewritten in order, up to the first one that cannot be
rewritten. -/
theorem run_patchChunks_cases {chunks : List Nat} (hnodup : chunks.Nodup)
    (hall : ∀ i ∈ chunks, ∀ c, s.fetch source i = .ok c → c.WellFormed ∧ c.nbytes = g.chunkSize) :
    (∃ s', Action.run (g.patchChunks source sel fill value chunks) s = (.ok (), s') ∧
      Store.Rewritten source (g.overwrite sel fill value) g.chunkSize (chunks.filter (g.isHit sel)) s s') ∨
    ∃ e s' done i rest, Action.run (g.patchChunks source sel fill value chunks) s = (.error e, s') ∧
      chunks.filter (g.isHit sel) = done ++ i :: rest ∧
      Store.Rewritten source (g.overwrite sel fill value) g.chunkSize done s s' ∧
      s.RewriteFault source i (g.overwrite sel fill value i) e := by
  induction chunks generalizing s with
  | nil => exact .inl ⟨s, rfl, (Store.Alike.refl s).rewritten _ _⟩
  | cons i chunks ih =>
    obtain ⟨hfresh, hnodup⟩ := List.nodup_cons.1 hnodup
    obtain ⟨hi, hall⟩ := List.forall_mem_cons.1 hall
    cases hhit : g.isHit sel i with
    | false =>
      rw [patchChunks_cons_of_not_isHit hhit, List.filter_cons_of_neg (by simp [hhit])]
      exact ih hnodup hall
    | true =>
      rw [patchChunks_cons_of_isHit hhit, List.filter_cons_of_pos hhit]
      obtain ⟨e, s', hrun, hnone, hfault⟩ | ⟨s₁, hrun, hfirst⟩ :=
        Store.run_rewrite (size_overwrite i) hi
      · refine .inr ⟨e, s', [], i, chunks.filter (g.isHit sel), ?_, rfl, hnone, hfault⟩
        rw [Action.run_bind, hrun]
      -- The chunks that come later answer as they did.
      have hkept (j : Nat) (hj : j ∈ chunks) : s₁.fetch source j = s.fetch source j :=
        hfirst.kept j fun h => hfresh (List.mem_singleton.1 h ▸ hj)
      have hfilter (j : Nat) (hj : j ∈ chunks.filter (g.isHit sel)) : j ∈ chunks :=
        List.mem_of_mem_filter hj
      rw [Action.run_bind_of_ok hrun]
      obtain ⟨s', hrest, hdone⟩ | ⟨e, s', done, k, rest, hrest, hchunks, hdone, hfault⟩ :=
        @ih s₁ hnodup fun j hj c hc => hall j hj c ((hkept j hj).symm.trans hc)
      · refine .inl ⟨s', hrest, hfirst.trans hdone fun j hj hmem => ?_⟩
        exact hfresh (List.mem_singleton.1 hj ▸ hfilter j hmem)
      · have hmem (j : Nat) (hj : j ∈ done ++ k :: rest) : j ∈ chunks := hfilter j (hchunks ▸ hj)
        refine .inr ⟨e, s', i :: done, k, rest, hrest, by rw [hchunks]; rfl,
          hfirst.trans hdone fun j hj hdone => ?_, hfault.congr (hkept k ?_) ?_⟩
        · exact hfresh (List.mem_singleton.1 hj ▸ hmem j (List.mem_append_left _ hdone))
        · exact hmem k (List.mem_append_right _ List.mem_cons_self)
        · exact (congrArg Store.codec hfirst.rest :)

end Geometry

namespace NDArray

variable {a a' : NDArray} {fs : Files} {region : Region} {sel : Selection} {value : Bytes}

/-! ## Arrays -/

/-- What an array answers for the bytes of a chunk. -/
def chunkContent (a : NDArray) (fs : Files) (i : Nat) : Result Bytes :=
  outcome (Store.getChunk (a.store.chunkSource fs) i) a.store

/-- An array whose chunks, as far as they are there at all, have the size that its geometry needs. They may
be damaged. -/
structure Uniform (a : NDArray) (fs : Files) : Prop where
  regular : a.geometry.Regular
  valid : a.store.codec.validate = .ok ()
  memory : a.geometry.FitsMemory
  chunks : ∀ i c, a.store.fetch (a.store.chunkSource fs) i = .ok c →
    c.WellFormed ∧ c.nbytes = a.geometry.chunkSize

/-- An array in which the chunks of a list were patched, and no others. -/
structure WrittenTo (a : NDArray) (fs : Files) (sel : Selection) (value : Bytes) (done : List Nat)
    (a' : NDArray) : Prop where
  geometry : a'.geometry = a.geometry
  rest : { a'.store with table := a.store.table, revision := a.store.revision } = a.store
  revision : a'.store.revision = a.store.revision + done.length
  patched : ∀ j ∈ done, ∃ old new, a.chunkContent fs j = .ok old ∧ a'.chunkContent fs j = .ok new ∧
    a.geometry.Patches sel value j old new
  kept : ∀ j ∉ done, a'.store.fetch (a'.store.chunkSource fs) j =
    a.store.fetch (a.store.chunkSource fs) j

/-- The error of a chunk that cannot be patched: its bytes cannot be read, or the patched ones cannot be
compressed. -/
def WriteFault (a : NDArray) (fs : Files) (sel : Selection) (value : Bytes) (i : Nat) (e : Error) : Prop :=
  a.chunkContent fs i = .error e ∨
    ∃ old new, a.chunkContent fs i = .ok old ∧ a.geometry.Patches sel value i old new ∧
      (Chunk.compress new a.store.codec).mapError (Error.atChunk i) = .error e

/-- An array in memory is uniform. -/
theorem Sound.uniform {contents : Nat → Bytes} (h : a.Sound contents) (hmemory : a.geometry.FitsMemory)
    (fs : Files) : a.Uniform fs := by
  refine ⟨h.regular, h.grown.exact.kept.valid, hmemory, fun i c hfetch => ?_⟩
  obtain ⟨slot, hslot, hanswer⟩ := Store.exists_slot_of_fetch hfetch
  have hmem := Array.mem_of_getElem? hslot
  obtain ⟨c', rfl, hsize⟩ := h.exists_of_mem hmem
  cases hanswer
  obtain ⟨raw, hraw, hcompress⟩ := h.grown.exact.packed c hmem
  exact ⟨Chunk.wellFormed_compress hraw hcompress, hsize⟩

/-- An array that was found in a store is uniform if the slots count with the size that the geometry
needs. -/
theorem uniform_of_ofStore {s : Store} (hs : s.Reachable)
    (hmemory : Guarded.InMemory (s.chunkSource fs) s) (h : ofStore s = .ok a)
    (hfits : a.geometry.FitsMemory)
    (hslots : ∀ slot ∈ s.table.slots, slot.extent s.chunkSize = a.geometry.chunkSize) :
    a.Uniform fs := by
  have hregular := regular_of_ofStore hs.wellKept.chunkSize h
  obtain ⟨rfl, -⟩ := ofStore_eq_ok h
  refine ⟨hregular, hs.wellKept.valid, hfits, fun i c hfetch => ?_⟩
  obtain ⟨slot, hslot, hanswer⟩ := Store.exists_slot_of_fetch hfetch
  refine ⟨Guarded.wellFormed_of_reachable hs hmemory hfetch, ?_⟩
  rw [← Slot.extent_of_fetch hanswer a.store.chunkSize]
  exact hslots slot (Array.mem_of_getElem? hslot)

theorem WrittenTo.nil (a : NDArray) (fs : Files) (sel : Selection) (value : Bytes) :
    a.WrittenTo fs sel value [] a :=
  ⟨rfl, rfl, rfl, by simp, fun _ _ => rfl⟩

namespace Uniform

/-- What is read of a chunk has the size of a chunk. -/
theorem size_chunkContent (h : a.Uniform fs) {i : Nat} {raw : Bytes}
    (hread : a.chunkContent fs i = .ok raw) : raw.size = a.geometry.chunkSize := by
  rw [chunkContent, Store.outcome_getChunk] at hread
  obtain ⟨c, hfetch, hread⟩ := bind_eq_ok.1 hread
  obtain ⟨hformed, hsize⟩ := h.chunks i c hfetch
  rw [hformed.size_of_decompress (mapError_eq_ok.1 hread), hsize]

variable {done : List Nat} {s' : Store}

/-- The chunks that were rewritten hold their patched bytes. -/
theorem writtenTo (h : a.Uniform fs) (hsel : sel.Fits a.shape) (hlt : ∀ j ∈ done, j < a.geometry.nchunks)
    (hdone : Store.Rewritten (a.store.chunkSource fs)
      (a.geometry.overwrite sel (value.size == a.geometry.itemsize) value) a.geometry.chunkSize done
      a.store s') : a.WrittenTo fs sel value done { a with store := s' } := by
  have hsource : s'.chunkSource fs = a.store.chunkSource fs := hdone.chunkSource fs
  have htypesize := (CodecConfig.validate_eq_ok_iff.1 h.valid).2.1
  refine ⟨rfl, hdone.rest, hdone.revision, fun j hj => ?_, fun j hj => ?_⟩
  · obtain ⟨old, c, hold, hsize, hcompress, hfetch⟩ := hdone.written j hj
    have hj := hlt j hj
    have hnew : (a.geometry.overwrite sel (value.size == a.geometry.itemsize) value j old).size =
        old.size := Geometry.size_overwrite j old
    have hmemory := h.memory (by omega)
    have hholds := Chunk.holds_compress htypesize (by omega) hcompress
    refine ⟨old, _, hold, ?_, Geometry.patches_overwrite h.regular hsel hj hsize⟩
    rw [chunkContent, hsource, Store.outcome_getChunk, hfetch]
    exact congrArg (Except.mapError (Error.atChunk j)) hholds.decompress
  · rw [hsource]
    exact hdone.kept j hj

/-- What keeps a chunk from being rewritten keeps it from being patched. -/
theorem writeFault (h : a.Uniform fs) (hsel : sel.Fits a.shape) {i : Nat} (hi : i < a.geometry.nchunks)
    {e : Error} (hfault : a.store.RewriteFault (a.store.chunkSource fs) i
      (a.geometry.overwrite sel (value.size == a.geometry.itemsize) value i) e) :
    a.WriteFault fs sel value i e := by
  obtain hread | ⟨old, hold, hcompress⟩ := hfault
  · exact .inl hread
  · exact .inr ⟨old, _, hold,
      Geometry.patches_overwrite h.regular hsel hi (h.size_chunkContent hold), hcompress⟩

/-- Rewritten chunks have the size of a chunk. -/
theorem rewritten {f : Nat → Bytes → Bytes} (h : a.Uniform fs) (hf : ∀ j raw, (f j raw).size = raw.size)
    (hlt : ∀ j ∈ done, j < a.geometry.nchunks)
    (hdone : Store.Rewritten (a.store.chunkSource fs) f a.geometry.chunkSize done a.store s') :
    Uniform { a with store := s' } fs := by
  refine ⟨h.regular, hdone.codec ▸ h.valid, h.memory, fun i c hfetch => ?_⟩
  have hfetch : s'.fetch (s'.chunkSource fs) i = .ok c := hfetch
  rw [hdone.chunkSource fs] at hfetch
  by_cases hi : i ∈ done
  · obtain ⟨old, c', -, hsize, hcompress, hfetch'⟩ := hdone.written i hi
    have hmemory := h.memory (by have := hlt i hi; omega)
    have hnew := hf i old
    obtain rfl : c' = c := Except.ok.inj (hfetch'.symm.trans hfetch)
    exact ⟨Chunk.wellFormed_compress (by omega) hcompress,
      (Chunk.nbytes_of_compress hcompress).trans (hnew.trans hsize)⟩
  · rw [hdone.kept i hi] at hfetch
    exact h.chunks i c hfetch

/-- A value with the items of a region, or a single one, is written to the chunks that hold a selected
element, in the order of the grid, up to the first of them that cannot be patched. -/
theorem writeRegion_cases (h : a.Uniform fs) (hsel : region.resolveStrict a.shape = .ok sel)
    (hvalue : value.size = sel.size * a.geometry.itemsize ∨ value.size = a.geometry.itemsize) :
    (∃ a', a.writeRegion fs region value = (.ok (), a') ∧ a'.Uniform fs ∧
      a.WrittenTo fs sel value (a.geometry.holders sel) a') ∨
    ∃ e a' done i rest, a.writeRegion fs region value = (.error e, a') ∧ a'.Uniform fs ∧
      a.geometry.holders sel = done ++ i :: rest ∧ a.WrittenTo fs sel value done a' ∧
      a.WriteFault fs sel value i e ∧ e.atChunk i = e := by
  have hfits : sel.Fits a.geometry.shape := Region.fits_of_resolveWith hsel
  have hwrite : a.writeRegion fs region value = a.run (if (!sel.isEmpty) = true then
      a.geometry.patchChunks (a.store.chunkSource fs) sel (value.size == a.geometry.itemsize) value
        (a.geometry.grid.intersecting sel.boundingBox) else pure ()) :=
    congrArg (fun r => (r.1, { a with store := r.2 }))
      (run_writeRegion_eq (a.store.chunkSource fs) a.store hsel hvalue)
  rcases Nat.eq_zero_or_pos sel.size with hempty | hpos
  · -- Nothing is selected, so no chunk holds anything.
    have hholders : a.geometry.holders sel = [] := by
      rw [Geometry.holders_eq h.regular hfits, List.filter_eq_nil_iff]
      intro i hi
      simp [Geometry.isHit_eq_false h.regular hfits hempty (List.mem_range.1 hi)]
    rw [if_neg (by simp [Selection.isEmpty, hempty])] at hwrite
    rw [hwrite, hholders]
    exact .inl ⟨a, rfl, h, .nil a fs sel value⟩
  · rw [if_pos (by simp [Selection.isEmpty]; omega)] at hwrite
    have hnodup := (ChunkGrid.pairwise_intersecting h.regular.grid
      (Selection.boundingBox_inside hfits hpos)).imp fun h => h.ne
    have hholders := (Geometry.filter_intersecting h.regular hfits hpos).trans
      (Geometry.holders_eq h.regular hfits).symm
    have hlt (j : Nat) (hj : j ∈ a.geometry.holders sel) : j < a.geometry.nchunks :=
      Geometry.lt_of_mem_holders hj
    obtain ⟨s', hrun, hdone⟩ | ⟨e, s', done, i, rest, hrun, hchunks, hdone, hfault⟩ :=
      @Geometry.run_patchChunks_cases a.geometry (a.store.chunkSource fs) a.store sel
        (value.size == a.geometry.itemsize) value _ hnodup fun i _ => h.chunks i
    · rw [hholders] at hdone
      refine .inl ⟨{ a with store := s' }, ?_, h.rewritten Geometry.size_overwrite hlt hdone,
        h.writtenTo hfits hlt hdone⟩
      rw [hwrite]
      exact congrArg (fun r => (r.1, { a with store := r.2 })) hrun
    · rw [hholders] at hchunks
      have hltDone (j : Nat) (hj : j ∈ done) : j < a.geometry.nchunks :=
        hlt j (hchunks ▸ List.mem_append_left _ hj)
      have hi : i < a.geometry.nchunks :=
        hlt i (hchunks ▸ List.mem_append_right _ List.mem_cons_self)
      refine .inr ⟨e, { a with store := s' }, done, i, rest, ?_,
        h.rewritten Geometry.size_overwrite hltDone hdone, hchunks, h.writtenTo hfits hltDone hdone,
        h.writeFault hfits hi hfault, hfault.atChunk⟩
      rw [hwrite]
      exact congrArg (fun r => (r.1, { a with store := r.2 })) hrun

end Uniform

/-- A write that fails changes nothing if the region reaches outside of the array or the value has neither
the items of the region nor a single one. Otherwise it fails at a chunk: the chunks with selected elements in
front of it, in the order of the grid, are patched, the revision has counted them, no other chunk has
changed, and the error is the one of that chunk and names it if it names a chunk. -/
theorem writeRegion_interrupted (h : a.Uniform fs) {e : Error}
    (hfail : a.writeRegion fs region value = (.error e, a')) :
    (region.resolveStrict a.shape = .error e ∧ a' = a) ∨
    ∃ sel, region.resolveStrict a.shape = .ok sel ∧
      ((value.size ≠ sel.size * a.geometry.itemsize ∧ value.size ≠ a.geometry.itemsize ∧
          e = .shape (.regionLength value.size sel.shape a.dtype) ∧ a' = a) ∨
        ((value.size = sel.size * a.geometry.itemsize ∨ value.size = a.geometry.itemsize) ∧
          ∃ done i rest, a.geometry.holders sel = done ++ i :: rest ∧
            a.WrittenTo fs sel value done a' ∧ a.WriteFault fs sel value i e ∧
            (∀ k fault, e = .codec k fault → k = i) ∧
            ∀ k stored computed, e = .checksum k stored computed → k = i)) := by
  cases hsel : region.resolveStrict a.shape with
  | error e' =>
    rw [writeRegion_of_unresolved fs value hsel] at hfail
    cases hfail
    exact .inl ⟨rfl, rfl⟩
  | ok sel =>
    refine .inr ⟨sel, rfl, ?_⟩
    by_cases hvalue : value.size = sel.size * a.geometry.itemsize ∨ value.size = a.geometry.itemsize
    · obtain ⟨a', hrun, -⟩ | ⟨e', a', done, i, rest, hrun, -, hholders, hdone, hfault, hnamed⟩ :=
        h.writeRegion_cases hsel hvalue
      · rw [hrun] at hfail
        cases hfail
      · rw [hrun] at hfail
        cases hfail
        exact .inr ⟨hvalue, done, i, rest, hholders, hdone, hfault, Error.eq_of_atChunk_eq hnamed⟩
    · rw [writeRegion_of_length fs hsel hvalue] at hfail
      cases hfail
      rw [not_or] at hvalue
      exact .inl ⟨hvalue.1, hvalue.2, rfl, rfl⟩

/-- The bytes 3 and 4 with the checksum of others. -/
def mismatchedPair : Chunk where
  data := #[1, 1, 0, 0, 0, 0, 0, 0, 0, 0, 0, 0, 2, 0, 0, 0, 0, 0, 0, 0, 0, 0, 0, 0, 3, 4]
  header := ⟨1, 1, 0, .noop, 0, 0, 2, 0⟩

/-- A byte that is written over the whole of two chunks, the second of which is damaged, is written to the
first one. -/
theorem writeRegion_interrupted_mismatched :
    ∃ (a a' : NDArray) (sel : Selection), a.Uniform {} ∧ Region.resolveStrict [] a.shape = .ok sel ∧
      a.writeRegion {} [] #[9] = (.error (.checksum 1 0 (Crc32.checksum #[3, 4])), a') ∧
      a.geometry.holders sel = [0] ++ 1 :: [] ∧ a.WrittenTo {} sel #[9] [0] a' := by
  have hdata : Chunk.ofBytes mismatchedPair.data = .ok mismatchedPair := rfl
  obtain ⟨metadata, hs, hopen⟩ := Guarded.exists_pairStore (.parsed (by decide) hdata)
  have hmemory : Guarded.InMemory ((Guarded.pairStore metadata mismatchedPair).chunkSource {})
      (Guarded.pairStore metadata mismatchedPair) := Guarded.inMemory_pairStore (by decide) _
  have hfits : Guarded.pairGeometry.FitsMemory := fun _ => by decide
  let a : NDArray := ⟨Guarded.pairGeometry, Guarded.pairStore metadata mismatchedPair⟩
  have huniform : a.Uniform {} := by
    refine uniform_of_ofStore hs hmemory hopen hfits fun slot hslot => ?_
    obtain rfl | rfl := Guarded.eq_of_mem_pairStore hslot <;> rfl
  have hsel : Region.resolveStrict [] a.shape = .ok [⟨0, 4, 1⟩] := rfl
  have hholders : a.geometry.holders [⟨0, 4, 1⟩] = [0, 1] :=
    (by decide : Guarded.pairGeometry.holders [⟨0, 4, 1⟩] = [0, 1])
  have hfirst : a.chunkContent {} 0 = .ok #[1, 2] := by
    have hfetch : a.store.fetch (a.store.chunkSource {}) 0 = .ok Guarded.firstPair := rfl
    have hcontent : Guarded.firstPair.content = .ok #[1, 2] := rfl
    rw [chunkContent, Store.outcome_getChunk, hfetch]
    simp only [bind, Except.bind]
    rw [Chunk.decompress_of_content hcontent, if_pos (by decide +kernel)]
    rfl
  have hsecond : a.chunkContent {} 1 = .error (.checksum 1 0 (Crc32.checksum #[3, 4])) := by
    have hfetch : a.store.fetch (a.store.chunkSource {}) 1 = .ok mismatchedPair := rfl
    have hcontent : mismatchedPair.content = .ok #[3, 4] := rfl
    rw [chunkContent, Store.outcome_getChunk, hfetch]
    simp only [bind, Except.bind]
    rw [Chunk.decompress_of_content hcontent, if_neg (by decide +kernel)]
    rfl
  have hvalue : Array.size (#[9] : Bytes) = 4 * 1 ∨ Array.size (#[9] : Bytes) = a.geometry.itemsize :=
    .inr rfl
  obtain ⟨a', -, -, hall⟩ | ⟨e, a', -, -, -, hfail, -⟩ := huniform.writeRegion_cases hsel hvalue
  · -- The write cannot succeed, since the second chunk is not read.
    obtain ⟨old, -, hold, -⟩ := hall.patched 1 (by rw [hholders]; decide)
    rw [hsecond] at hold
    cases hold
  obtain ⟨hrefused, -⟩ | ⟨sel, hsel', hcase⟩ := writeRegion_interrupted huniform hfail
  · rw [hsel] at hrefused
    cases hrefused
  obtain rfl : _ = sel := Except.ok.inj (hsel.symm.trans hsel')
  obtain ⟨-, hsize, -⟩ | ⟨-, done, i, rest, hsplit, hdone, hfault, -⟩ := hcase
  · exact absurd rfl hsize
  rw [hholders] at hsplit
  have hi : i = 0 ∨ i = 1 := by
    have hmem : i ∈ [0, 1] := hsplit ▸ List.mem_append_right done List.mem_cons_self
    simpa using hmem
  obtain rfl | rfl := hi
  · -- The first chunk is read, and its patched bytes are compressed.
    obtain hread | ⟨old, new, hold, hnew, hcompress⟩ := hfault
    · rw [hfirst] at hread
      cases hread
    · obtain rfl : _ = old := Except.ok.inj (hfirst.symm.trans hold)
      obtain ⟨c, hc⟩ : ∃ c, Chunk.compress new a.store.codec = .ok c :=
        Chunk.exists_compress_eq_ok (by
          rw [hnew.size]
          exact (by decide : Chunk.chosenBlockSize 2 (Guarded.pairGeometry.chunkCodec
            { codec := .noop }) < 2 ^ 32))
      rw [hc] at hcompress
      cases hcompress
  obtain rfl : done = [0] := by
    match done, hsplit with
    | [0], _ => rfl
    | _ :: _ :: _, hsplit => simp at hsplit
  obtain rfl : rest = [] := by simpa using hsplit
  obtain hread | ⟨old, -, hold, -⟩ := hfault
  · obtain rfl := Except.error.inj (hsecond.symm.trans hread)
    exact ⟨a, a', _, huniform, hsel, hfail, hholders, hdone⟩
  · rw [hsecond] at hold
    cases hold

end NDArray

end ChunkedArray
