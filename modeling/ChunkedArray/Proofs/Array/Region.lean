import ChunkedArray.Proofs.Array.Read
import ChunkedArray.Proofs.Shape.Boxes

/-!
# Regions and boxes

The bytes that a reading shows are those of the selected elements, each at the place of its number in
C order. Whether a reading succeeds is a matter of every chunk on its own, so a reading that
succeeds does so for every part of its selection too.
-/

namespace ChunkedArray

open ChunkedArray.Action

/-- Data that fill a shape are a buffer. -/
theorem Buffer.new_of_size {shape : Shape} {dtype : DType} {data : Bytes}
    (h : data.size = expectedSize shape dtype) : new shape dtype data = .ok ⟨shape, dtype, data⟩ :=
  if_pos h

namespace Geometry

variable {g : Geometry} {source : ChunkSource} {s : Store} {sel : Selection} {part : Projection}

/-- A byte string that shows a part of every selected element in C order. -/
structure Shows (g : Geometry) (s : Store) (source : ChunkSource) (sel : Selection)
    (part : Projection) (data : Bytes) : Prop where
  size : data.size = sel.size * part.width
  byte : ∀ q k, sel.shape.Holds q → k < part.width →
    data.getD (sel.shape.flatten q * part.width + k) 0 =
      g.partByte s source part (sel.position q) k

theorem item_lt {shape : Shape} {q : List Nat} {width k : Nat} (hq : shape.Holds q)
    (hk : k < width) : shape.flatten q * width + k < shape.size * width := by
  calc shape.flatten q * width + k < (shape.flatten q + 1) * width := by
        rw [Nat.succ_mul]
        omega
    _ ≤ shape.size * width := Nat.mul_le_mul_right _ (Shape.flatten_lt hq)

/-- Whole items are copied in one piece. -/
theorem cuts_wholeItem : g.wholeItem.Cuts g.itemsize :=
  .inl rfl

theorem wholeItem_le : g.wholeItem.offset + g.wholeItem.width ≤ g.itemsize := by
  simp [wholeItem]

/-! ## Selections -/

theorem isQuery_readParts : IsQuery (Store.Alike source) (readParts g source sel part) := by
  rw [readParts]
  split
  · exact isQuery_throw Store.Alike.refl _
  · split
    · exact isQuery_pure Store.Alike.refl _
    · exact isQuery_gatherChunks _ _

/-- The chunks that are visited are those of the grid. -/
theorem lt_of_mem_intersecting (hg : g.Regular) (hsel : sel.Fits g.shape) (hpos : 0 < sel.size)
    {i : Nat} (hi : i ∈ g.grid.intersecting sel.boundingBox) : i < g.nchunks :=
  ((ChunkGrid.mem_intersecting_iff hg.grid (Selection.boundingBox_inside hsel hpos)).1 hi).1

/-- A chunk that holds a selected element is visited. -/
theorem mem_intersecting_of_hits (hg : g.Regular) (hsel : sel.Fits g.shape) {i : Nat}
    (hi : i < g.nchunks) {hits : List (List (Nat × Nat))}
    (h : sel.hits (g.grid.chunkBox i) = some hits) :
    0 < sel.size ∧ i ∈ g.grid.intersecting sel.boundingBox := by
  obtain ⟨q, hq, hbox⟩ := Selection.exists_of_hits_eq_some (length_chunkBox hg hsel hi).1 h
  have hpos : 0 < sel.size := Shape.size_pos_of_holds hq
  refine ⟨hpos, (ChunkGrid.mem_intersecting_iff hg.grid ?_).2
    ⟨hi, _, Selection.holds_boundingBox hsel hq, hbox⟩⟩
  exact Selection.boundingBox_inside hsel hpos

/-- The chunk of a selected element is visited. -/
theorem chunkOf_mem_intersecting (hg : g.Regular) (hsel : sel.Fits g.shape) {q : List Nat}
    (hq : sel.shape.Holds q) :
    g.grid.chunkOf (sel.position q) ∈ g.grid.intersecting sel.boundingBox := by
  have hpos : 0 < sel.size := Shape.size_pos_of_holds hq
  have hholds := Selection.holds_position hsel hq
  have hlt := ChunkGrid.chunkOf_lt hg.grid hholds
  exact (ChunkGrid.mem_intersecting_iff hg.grid (Selection.boundingBox_inside hsel hpos)).2
    ⟨hlt, _, Selection.holds_boundingBox hsel hq,
      (ChunkGrid.holds_chunkBox_iff hg.grid hlt hholds).2 rfl⟩

/-- A selection with elements hits a chunk that is visited. -/
theorem exists_hit (hg : g.Regular) (hsel : sel.Fits g.shape) (hpos : 0 < sel.size) :
    ∃ i ∈ g.grid.intersecting sel.boundingBox, sel.hits (g.grid.chunkBox i) ≠ none := by
  have hq : sel.shape.Holds (sel.shape.unflatten 0) := Shape.holds_unflatten hpos
  have hholds := Selection.holds_position hsel hq
  have hlt := ChunkGrid.chunkOf_lt hg.grid hholds
  refine ⟨_, chunkOf_mem_intersecting hg hsel hq, fun hnone => ?_⟩
  exact Selection.not_holds_of_hits_eq_none hnone hq
    ((ChunkGrid.holds_chunkBox_iff hg.grid hlt hholds).2 rfl)

/-- A selection without elements is read without a look at the chunks. -/
theorem readParts_of_isEmpty (hpart : part.offset + part.width ≤ g.itemsize)
    (hempty : sel.isEmpty = true) :
    readParts g source sel part = pure (Bytes.zeros (sel.size * part.width)) := by
  rw [readParts, if_neg (Nat.not_lt.2 hpart), if_pos hempty]

/-- If everything selected can be read, reading shows it. -/
theorem readParts_of_readable (hg : g.Regular) (hsel : sel.Fits g.shape)
    (hcuts : 0 < sel.size → part.Cuts g.itemsize) (hpart : part.offset + part.width ≤ g.itemsize)
    (hread : ∀ i < g.nchunks, g.HitsReadable s source sel i) :
    ∃ data, outcome (readParts g source sel part) s = .ok data ∧ g.Shows s source sel part data := by
  by_cases hempty : sel.isEmpty = true
  · rw [readParts_of_isEmpty hpart hempty]
    refine ⟨_, rfl, by simp, fun q k hq _ => ?_⟩
    exact absurd hempty (Selection.size_pos_iff.1 (Shape.size_pos_of_holds hq))
  · rw [readParts, if_neg (Nat.not_lt.2 hpart), if_neg hempty]
    have hpos : 0 < sel.size := Selection.size_pos_iff.2 hempty
    have hlt : ∀ i ∈ g.grid.intersecting sel.boundingBox, i < g.nchunks := fun i hi =>
      lt_of_mem_intersecting hg hsel hpos hi
    obtain ⟨data, hdata, hsize, hbyte⟩ := gatherChunks_of_readable
      (Bytes.zeros (sel.size * part.width)) hg hsel (hcuts hpos) hlt hpart
        fun i hi => hread i (hlt i hi)
    rw [Bytes.size_zeros] at hsize hbyte
    refine ⟨data, hdata, hsize, fun q k hq hk => ?_⟩
    rw [hbyte q k hq hk (item_lt hq hk), if_pos (chunkOf_mem_intersecting hg hsel hq)]

/-- If a selection is read, everything selected can be read, and its items can be cut unless it has
none. -/
theorem readable_of_readParts (hg : g.Regular) (hsel : sel.Fits g.shape) {data : Bytes}
    (h : outcome (readParts g source sel part) s = .ok data) :
    part.offset + part.width ≤ g.itemsize ∧ (0 < sel.size → part.Cuts g.itemsize) ∧
      ∀ i < g.nchunks, g.HitsReadable s source sel i := by
  rw [readParts] at h
  by_cases hpart : g.itemsize < part.offset + part.width
  · rw [if_pos hpart] at h
    cases h
  rw [if_neg hpart] at h
  refine ⟨Nat.le_of_not_lt hpart, fun hpos => ?_, fun i hi hits hhits => ?_⟩
  · rw [if_neg (Selection.size_pos_iff.1 hpos)] at h
    obtain ⟨i, hi, hhit⟩ := exists_hit hg hsel hpos
    exact (readable_of_gatherChunks h i hi).2 hhit
  · obtain ⟨hpos, hmem⟩ := mem_intersecting_of_hits hg hsel hi hhits
    rw [if_neg (Selection.size_pos_iff.1 hpos)] at h
    exact (readable_of_gatherChunks h i hmem).1 hits hhits

/-- A selection that was read shows its elements. -/
theorem shows_of_readParts (hg : g.Regular) (hsel : sel.Fits g.shape) {data : Bytes}
    (h : outcome (readParts g source sel part) s = .ok data) : g.Shows s source sel part data := by
  obtain ⟨hpart, hcuts, hread⟩ := readable_of_readParts hg hsel h
  obtain ⟨data', hdata', hshows⟩ := readParts_of_readable hg hsel hcuts hpart hread
  rw [h] at hdata'
  cases hdata'
  exact hshows

/-- What can be read of a selection can be read of every part of it. -/
theorem HitsReadable.sub (hg : g.Regular) (hsel : sel.Fits g.shape) {sel' : Selection}
    (hsel' : sel'.Fits g.shape) {i : Nat} (hi : i < g.nchunks)
    (hsub : ∀ q', sel'.shape.Holds q' → ∃ q, sel.shape.Holds q ∧ sel.position q = sel'.position q')
    (h : g.HitsReadable s source sel i) : g.HitsReadable s source sel' i := by
  intro hits' hhits'
  obtain ⟨hlen, hlayout⟩ := length_chunkBox hg hsel hi
  obtain ⟨hlen', -⟩ := length_chunkBox hg hsel' hi
  obtain ⟨⟨a', ha', habox', hlow'⟩, ⟨b', hb', hbbox', hhigh'⟩⟩ :=
    Selection.exists_hitSpan hlen' hlayout hhits'
  obtain ⟨a, ha, hapos⟩ := hsub a' ha'
  obtain ⟨b, hb, hbpos⟩ := hsub b' hb'
  cases hhits : sel.hits (g.grid.chunkBox i) with
  | none =>
    rw [← hapos] at habox'
    exact absurd habox' (Selection.not_holds_of_hits_eq_none hhits ha)
  | some hits =>
    have hlow := (Selection.hitSpan_bounds hlen hlayout hhits ha (by rwa [hapos])).1
    have hhigh := (Selection.hitSpan_bounds hlen hlayout hhits hb (by rwa [hbpos])).2
    have horder := (Selection.hitSpan_bounds hlen' hlayout hhits' ha' habox').2
    rw [hapos, hlow'] at hlow
    rw [hbpos] at hhigh
    rw [hlow'] at horder
    have hspan := h hits hhits
    generalize hitSpan hits g.chunks.strides = span at *
    generalize hitSpan hits' g.chunks.strides = span' at *
    refine hspan.sub (Nat.mul_pos (by omega) hg.itemsize_pos) (Nat.mul_le_mul_right _ hlow) ?_
    rw [← Nat.add_mul, ← Nat.add_mul]
    exact Nat.mul_le_mul_right _ (by omega)

/-! ## Regions -/

/-- The buffer of a selection that was read: its shape, the layout of the parts and their bytes. -/
def ShowsBuffer (g : Geometry) (s : Store) (source : ChunkSource) (sel : Selection)
    (dtype : DType) (part : Projection) (b : Buffer) : Prop :=
  b.shape = sel.shape ∧ b.dtype = dtype ∧ g.Shows s source sel part b.data

theorem outcome_readRegionAs (dtype : DType) (part : Projection) (region : Region) :
    outcome (readRegionAs g source dtype part region) s =
      region.resolve g.shape >>= fun sel =>
        outcome (readParts g source sel part) s >>= fun data => Buffer.new sel.shape dtype data := by
  have hbuffer (sel : Selection) (data : Bytes) :
      IsQuery (Store.Alike source) (liftM (Buffer.new sel.shape dtype data) : StoreM Buffer) :=
    isQuery_liftM Store.Alike.refl _
  rw [readRegionAs, outcome_bind (isQuery_liftM Store.Alike.refl _) fun sel =>
    isQuery_readParts.bind (fun _ _ _ h h' => h.trans h') (hbuffer sel), outcome_liftM]
  congr 1
  funext sel
  rw [outcome_bind isQuery_readParts (hbuffer sel)]
  simp only [outcome_liftM]

theorem outcome_readRegion (region : Region) :
    outcome (readRegion g source region) s =
      region.resolve g.shape >>= fun sel =>
        outcome (readParts g source sel g.wholeItem) s >>= fun data =>
          Buffer.new sel.shape g.dtype data :=
  outcome_readRegionAs g.dtype g.wholeItem region

/-- A region is read if what every chunk holds of it can be read. -/
theorem readRegion_of_readable (hg : g.Regular) {region : Region}
    (hsel : region.resolve g.shape = .ok sel)
    (hread : ∀ i < g.nchunks, g.HitsReadable s source sel i) :
    ∃ b, outcome (readRegion g source region) s = .ok b ∧
      g.ShowsBuffer s source sel g.dtype g.wholeItem b := by
  have hfits : sel.Fits g.shape := Region.fits_of_resolveWith hsel
  obtain ⟨data, hdata, hshows⟩ :=
    readParts_of_readable hg hfits (fun _ => cuts_wholeItem) wholeItem_le hread
  refine ⟨⟨sel.shape, g.dtype, data⟩, ?_, rfl, rfl, hshows⟩
  rw [outcome_readRegion]
  exact bind_eq_ok.2 ⟨sel, hsel, bind_eq_ok.2 ⟨data, hdata, Buffer.new_of_size hshows.size⟩⟩

/-- A region that was read shows its elements. -/
theorem shows_of_readRegion (hg : g.Regular) {region : Region} {b : Buffer}
    (h : outcome (readRegion g source region) s = .ok b) :
    ∃ sel, region.resolve g.shape = .ok sel ∧
      g.ShowsBuffer s source sel g.dtype g.wholeItem b := by
  rw [outcome_readRegion] at h
  obtain ⟨sel, hsel, h⟩ := bind_eq_ok.1 h
  obtain ⟨data, hdata, h⟩ := bind_eq_ok.1 h
  have hshows := shows_of_readParts hg (Region.fits_of_resolveWith hsel) hdata
  rw [Buffer.new_of_size hshows.size] at h
  cases h
  exact ⟨sel, hsel, rfl, rfl, hshows⟩

/-! ## Boxes -/

theorem isQuery_readBox (box : Box) : IsQuery (Store.Alike source) (readBox g source part box) :=
  (isQuery_liftM Store.Alike.refl _).bind (fun _ _ _ h h' => h.trans h') fun _ => isQuery_readParts

theorem outcome_readBox (box : Box) :
    outcome (readBox g source part box) s =
      (Region.ofBox box).resolve g.shape >>= fun sel => outcome (readParts g source sel part) s := by
  rw [readBox, outcome_bind (isQuery_liftM Store.Alike.refl _) fun _ => isQuery_readParts,
    outcome_liftM]

/-- A byte string that shows a part of every element of a box in C order. -/
structure ShowsBox (g : Geometry) (s : Store) (source : ChunkSource) (box : Box)
    (part : Projection) (data : Bytes) : Prop where
  size : data.size = box.shape.size * part.width
  byte : ∀ c k, box.Holds c → k < part.width →
    data.getD (box.shape.flatten (box.toLocal c) * part.width + k) 0 =
      g.partByte s source part c k

theorem Shows.showsBox {box : Box} {data : Bytes} (h : g.Shows s source (.ofBox box) part data) :
    g.ShowsBox s source box part data := by
  have hshape := Selection.shape_ofBox box
  refine ⟨by rw [h.size, Selection.size, hshape], fun c k hc hk => ?_⟩
  have hbyte := h.byte (box.toLocal c) k (by rw [hshape]; exact Box.holds_toLocal hc) hk
  rwa [hshape, Selection.position_ofBox, Box.toGlobal_toLocal hc] at hbyte

/-- What is read of a box is a row of parts. -/
theorem exists_size_of_readBox (hg : g.Regular) {box : Box} {data : Bytes}
    (h : outcome (readBox g source part box) s = .ok data) : ∃ n, data.size = n * part.width := by
  rw [outcome_readBox] at h
  obtain ⟨sel, hsel, hdata⟩ := bind_eq_ok.1 h
  exact ⟨sel.size, (shows_of_readParts hg (Region.fits_of_resolveWith hsel) hdata).size⟩

/-- If a box was read in full, every box inside it can be read, and it shows its own elements. -/
theorem readBox_sub (hg : g.Regular) {box box' : Box} (hinside : box.Inside g.shape)
    (hne : box.Nonempty) (hwidth : 0 < part.width) {data : Bytes}
    (h : outcome (readBox g source part box) s = .ok data)
    (hsize : data.size = box.shape.size * part.width) (hwithin : box'.Within box)
    (hne' : box'.Nonempty) :
    ∃ data', outcome (readBox g source part box') s = .ok data' ∧
      g.ShowsBox s source box' part data' := by
  rw [outcome_readBox] at h
  cases hresolve : (Region.ofBox box).resolve g.shape with
  | error e =>
    rw [hresolve] at h
    cases h
  | ok sel =>
    rw [hresolve] at h
    have hfits : sel.Fits g.shape := Region.fits_of_resolveWith hresolve
    have hshows := shows_of_readParts hg hfits h
    have hcount : sel.size = box.shape.size :=
      Nat.eq_of_mul_eq_mul_right hwidth (hshows.size.symm.trans hsize)
    have haddress := Region.addressable_of_size_eq hinside.length_eq hne hresolve hcount
    rw [Region.resolve_ofBox haddress hne] at hresolve
    cases hresolve
    obtain ⟨hpart, -, hread⟩ := readable_of_readParts hg hfits h
    have hfits' := Selection.fits_ofBox (hwithin.inside hinside)
    -- Every element of the inner box is one of the outer box, whose chunks could be read.
    have hread' (i : Nat) (hi : i < g.nchunks) :
        g.HitsReadable s source (.ofBox box') i := by
      refine (hread i hi).sub hg hfits hfits' hi fun q' hq' => ?_
      rw [Selection.shape_ofBox] at hq'
      have hc := hwithin.holds (Box.holds_toGlobal hq')
      refine ⟨box.toLocal (box'.toGlobal q'), ?_, ?_⟩
      · rw [Selection.shape_ofBox]
        exact Box.holds_toLocal hc
      · rw [Selection.position_ofBox, Selection.position_ofBox, Box.toGlobal_toLocal hc]
    obtain ⟨data', hdata', hshows'⟩ :=
      readParts_of_readable hg hfits' (fun _ => .inr hwidth) hpart hread'
    refine ⟨data', ?_, hshows'.showsBox⟩
    rw [outcome_readBox, Region.resolve_ofBox (hwithin.addressable haddress) hne']
    exact hdata'

end Geometry

end ChunkedArray
