import ChunkedArray.Proofs.Array.Region
import ChunkedArray.Proofs.Store.Filled

/-!
# Arrays as functions of coordinates

An array that was built in memory keeps the bytes of every chunk in its slot. Such an array is, for
everyone who reads it, a function from coordinates to items: whatever region is read, the result
joins the items at the selected coordinates in C order.
-/

namespace ChunkedArray

open ChunkedArray.Action

namespace Bytes

/-- The first items of a row, joined. -/
theorem concat_map_item (b : Bytes) (width n : Nat) :
    concat ((List.range n).map (b.item width)) = b.extract 0 (n * width) := by
  induction n with
  | zero => simp [concat]
  | succ n ih =>
    rw [List.range_succ, List.map_append, concat_append, ih, List.map_singleton, concat_singleton,
      item, slice, Array.extract_append_extract, Nat.zero_min, Nat.max_eq_right (Nat.le_add_right _ _),
      Nat.succ_mul]

/-- Items of one width that show the bytes of a row join to it. -/
theorem eq_concat_map_range {b : Bytes} {width n : Nat} {item : Nat → Bytes}
    (hsize : b.size = n * width) (hitem : ∀ i < n, (item i).size = width)
    (hbyte : ∀ i < n, ∀ k < width, b.getD (i * width + k) 0 = (item i).getD k 0) :
    b = concat ((List.range n).map item) := by
  have hitems : (List.range n).map item = (List.range n).map (b.item width) := by
    refine List.map_congr_left fun i hi => ?_
    have hlt : i < n := List.mem_range.1 hi
    have hsize' : (b.item width i).size = width := by
      refine size_item b width i ?_
      rw [hsize]
      exact Nat.mul_le_mul_right _ hlt
    refine ext_getD ((hitem i hlt).trans hsize'.symm) fun k hk => ?_
    rw [hitem i hlt] at hk
    rw [getD_item _ _ _ _ hk, hbyte i hlt k hk]
  rw [hitems, concat_map_item, ← hsize, Array.extract_size]

end Bytes

/-- A function from coordinates to items that gives the bytes of every selected item joins to them. -/
theorem Selection.concat_map_coords {sel : Selection} {width : Nat} {data : Bytes}
    {item : List Nat → Bytes} (hsize : data.size = sel.size * width)
    (hitem : ∀ q, sel.shape.Holds q → (item (sel.position q)).size = width)
    (hbyte : ∀ q k, sel.shape.Holds q → k < width →
      data.getD (sel.shape.flatten q * width + k) 0 = (item (sel.position q)).getD k 0) :
    data = Bytes.concat (sel.coords.map item) := by
  rw [coords_eq_map, List.map_map]
  refine Bytes.eq_concat_map_range hsize (fun i hi => ?_) fun i hi k hk => ?_
  · exact hitem _ (Shape.holds_unflatten hi)
  · have hi' : i < sel.shape.size := hi
    rw [Function.comp_apply, ← hbyte _ k (Shape.holds_unflatten hi') hk,
      Shape.flatten_unflatten _ _ hi']

namespace Geometry

variable {g : Geometry}

/-- The item at some coordinates of an array whose chunks have the given bytes. -/
def itemAt (g : Geometry) (contents : Nat → Bytes) (c : List Nat) : Bytes :=
  (contents (g.grid.chunkOf c)).item g.itemsize (g.placeOf c)

/-- The chunks fit into memory: the size of a byte string in memory is a signed word. An array without
chunks takes no memory for them. -/
def FitsMemory (g : Geometry) : Prop :=
  0 < g.nchunks → g.chunkSize < 2 ^ 63

/-- The box of a chunk fits the chunk shape. -/
theorem chunkBox_fits (hg : g.Regular) {i : Nat} (hi : i < g.nchunks) :
    List.Forall₂ (fun (s : Span) n => s.stop ≤ s.start + n) (g.grid.chunkBox i) g.chunks :=
  (ChunkGrid.chunkBox_layout hg.grid hi).imp fun _ _ h => h.2

/-- Of a chunk that can be read from end to end, the span of the hits can be read. -/
theorem hitsReadable_of_readable (hg : g.Regular) {s : Store} {source : ChunkSource}
    {sel : Selection} (hsel : sel.Fits g.shape) {i : Nat} (hi : i < g.nchunks)
    (h : s.Readable source i 0 g.chunkSize) : g.HitsReadable s source sel i := by
  intro hits hhits
  obtain ⟨hlen, hlayout⟩ := length_chunkBox hg hsel hi
  have horder := Selection.hitSpan_lt hlen hlayout hhits
  have hinside := Selection.hitSpan_le hlen (chunkBox_fits hg hi) hhits
  refine h.sub (Nat.mul_pos (by omega) hg.itemsize_pos) (Nat.zero_le _) ?_
  rw [Nat.zero_add, ← Nat.add_mul, chunkSize]
  exact Nat.mul_le_mul_right _ (by omega)

/-- The part of an array in a chunk is no longer than the chunk along any axis. -/
theorem shape_chunkBox_fitsIn (hg : g.Regular) {i : Nat} (hi : i < g.nchunks) :
    Shape.FitsIn (Box.shape (g.grid.chunkBox i)) g.chunks := by
  rw [Shape.FitsIn, Box.shape, List.forall₂_map_left_iff]
  exact (chunkBox_fits hg hi).imp fun s n hs => by
    rw [Span.length]
    omega

theorem holds_chunkOf (hg : g.Regular) {c : List Nat} (hc : g.shape.Holds c) :
    g.grid.chunkOf c < g.nchunks ∧ (g.grid.chunkBox (g.grid.chunkOf c)).Holds c := by
  have hlt := ChunkGrid.chunkOf_lt hg.grid hc
  exact ⟨hlt, (ChunkGrid.holds_chunkBox_iff hg.grid hlt hc).2 rfl⟩

/-- An element lies inside its chunk. -/
theorem placeOf_lt (hg : g.Regular) {c : List Nat} (hc : g.shape.Holds c) :
    g.placeOf c < g.chunks.size := by
  obtain ⟨hlt, hbox⟩ := holds_chunkOf hg hc
  exact Shape.flatten_lt (Box.holds_layout (chunkBox_fits hg hlt) hbox)

theorem size_itemAt (hg : g.Regular) {contents : Nat → Bytes}
    (hsize : ∀ i < g.nchunks, (contents i).size = g.chunkSize) {c : List Nat}
    (hc : g.shape.Holds c) : (g.itemAt contents c).size = g.itemsize := by
  refine Bytes.size_item _ _ _ ?_
  rw [hsize _ (holds_chunkOf hg hc).1, chunkSize]
  exact Nat.mul_le_mul_right _ (placeOf_lt hg hc)

end Geometry

namespace NDArray

/-- The array is a function from coordinates to items for everyone who reads it. -/
structure Shows (a : NDArray) (item : List Nat → Bytes) : Prop where
  size : ∀ c, a.shape.Holds c → (item c).size = a.geometry.itemsize
  read : ∀ (fs : Files) (region : Region) (sel : Selection), region.resolve a.shape = .ok sel →
    (a.readRegion fs region).1 =
      .ok ⟨sel.shape, a.dtype, Bytes.concat (sel.coords.map item)⟩

/-- Reading a region fails exactly if it cannot be resolved. -/
theorem Shows.readRegion_eq {a : NDArray} {item : List Nat → Bytes} (h : a.Shows item) (fs : Files)
    (region : Region) : (a.readRegion fs region).1 = (region.resolve a.shape).map fun sel =>
      ⟨sel.shape, a.dtype, Bytes.concat (sel.coords.map item)⟩ := by
  cases hsel : region.resolve a.shape with
  | ok sel => exact h.read fs region sel hsel
  | error e =>
    have hrun : (a.readRegion fs region).1 =
        outcome (a.geometry.readRegion (a.store.chunkSource fs) region) a.store := rfl
    have hsel' : region.resolve a.geometry.shape = .error e := hsel
    rw [hrun, Geometry.outcome_readRegion, hsel']
    rfl

/-- A region that was read shows the items of its own selection. -/
theorem Shows.eq_of_readRegion {a : NDArray} {item : List Nat → Bytes} (h : a.Shows item) {fs : Files}
    {region : Region} {b : Buffer} (hread : (a.readRegion fs region).1 = .ok b) :
    ∃ sel, region.resolve a.shape = .ok sel ∧
      b = ⟨sel.shape, a.dtype, Bytes.concat (sel.coords.map item)⟩ := by
  rw [h.readRegion_eq] at hread
  obtain ⟨sel, hsel, rfl⟩ := map_eq_ok.1 hread
  exact ⟨sel, hsel, rfl⟩

/-- Only the items inside the array count. -/
theorem Shows.congr {a : NDArray} {item item' : List Nat → Bytes} (h : a.Shows item)
    (heq : ∀ c, a.shape.Holds c → item c = item' c) : a.Shows item' := by
  refine ⟨fun c hc => heq c hc ▸ h.size c hc, fun fs region sel hsel => ?_⟩
  have hitems : sel.coords.map item = sel.coords.map item' := by
    refine List.map_congr_left fun c hc => heq c ?_
    obtain ⟨q, hq, rfl⟩ := Selection.mem_coords.1 hc
    exact Selection.holds_position (Region.fits_of_resolveWith hsel) hq
  rw [h.read fs region sel hsel, hitems]

/-! ## Arrays in memory -/

/-- The geometry of an array was resolved, and its store was allocated for it and has since been
filled and overwritten only. -/
def Grown (a : NDArray) : Prop :=
  ∃ chunks blocks codec new, Geometry.resolve a.shape a.dtype chunks blocks = .ok a.geometry ∧
    allocate a.geometry codec = .ok new ∧ new.store.SameKind a.store

theorem Grown.of_sameKind {a : NDArray} (h : a.Grown) {s : Store} (hkind : a.store.SameKind s) :
    Grown { a with store := s } := by
  obtain ⟨chunks, blocks, codec, new, hresolve, hnew, hold⟩ := h
  exact ⟨chunks, blocks, codec, new, hresolve, hnew, hold.trans hkind⟩

/-- An array in memory: there is a slot for every chunk, it holds the bytes of the chunk, and a chunk
can be compressed again. -/
structure Sound (a : NDArray) (contents : Nat → Bytes) : Prop where
  regular : a.geometry.Regular
  grown : a.Grown
  nchunks : a.store.nchunks = a.geometry.nchunks
  typesize : 0 < a.store.codec.typesize
  block : 0 < a.geometry.nchunks →
    Chunk.chosenBlockSize a.geometry.chunkSize a.store.codec < 2 ^ 32
  holds : ∀ i < a.geometry.nchunks, a.store.SlotHolds i (contents i)
  size : ∀ i < a.geometry.nchunks, (contents i).size = a.geometry.chunkSize

namespace Sound

variable {a : NDArray} {contents : Nat → Bytes}

/-- The span of the hits of a chunk lies inside the chunk. -/
theorem hitsReadable (h : a.Sound contents) {source : ChunkSource} {sel : Selection}
    (hsel : sel.Fits a.shape) {i : Nat} (hi : i < a.geometry.nchunks) :
    a.geometry.HitsReadable a.store source sel i := by
  refine Geometry.hitsReadable_of_readable h.regular hsel hi ((h.holds i hi).readable ?_)
  rw [h.size i hi, Nat.zero_add]

/-- An array in memory is the function that takes every item out of its chunk. -/
theorem shows (h : a.Sound contents) : a.Shows (a.geometry.itemAt contents) := by
  refine ⟨fun c hc => Geometry.size_itemAt h.regular h.size hc, fun fs region sel hsel => ?_⟩
  have hfits : sel.Fits a.shape := Region.fits_of_resolveWith hsel
  have hread : ∀ i < a.geometry.nchunks,
      a.geometry.HitsReadable a.store (a.store.chunkSource fs) sel i := fun i hi =>
    h.hitsReadable hfits hi
  obtain ⟨b, hb, hshape, hdtype, hshows⟩ := Geometry.readRegion_of_readable h.regular hsel hread
  have hdata : b.data = Bytes.concat (sel.coords.map (a.geometry.itemAt contents)) := by
    refine Selection.concat_map_coords hshows.size (fun q hq => ?_) fun q k hq hk => ?_
    · exact Geometry.size_itemAt h.regular h.size (Selection.holds_position hfits hq)
    · have hlt := (Geometry.holds_chunkOf h.regular (Selection.holds_position hfits hq)).1
      have hk' : k < a.geometry.itemsize := hk
      rw [hshows.byte q k hq hk, Geometry.partByte, (h.holds _ hlt).raw, Geometry.itemAt,
        Bytes.getD_item _ _ _ _ hk']
      rfl
  have hrun : (a.readRegion fs region).1 =
      outcome (a.geometry.readRegion (a.store.chunkSource fs) region) a.store := rfl
  have hdtype' : b.dtype = a.dtype := hdtype
  rw [hrun, hb, ← hshape, ← hdata, ← hdtype']

end Sound

end NDArray

end ChunkedArray
