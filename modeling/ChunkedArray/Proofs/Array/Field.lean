import ChunkedArray.Proofs.Array.Formed
import ChunkedArray.Proofs.Array.Gather

/-!
# Fields of records

To read a field of a region is to read the region and to keep, of every item, the bytes of the field.
Both readings fetch the same spans of the same chunks, so they fail alike, and where they succeed the
one shows bytes `offset + k` of the items that the other shows. Only a field without bytes is
different: its parts have no end inside of an item, and the reading breaks off in the first chunk with
a selected item.
-/

namespace ChunkedArray

open ChunkedArray.Action

/-- The given part of each of `n` items, one behind the other. -/
def Projection.cut (part : Projection) (itemsize n : Nat) (data : Bytes) : Bytes :=
  Bytes.concat ((List.range n).map fun i => (data.item itemsize i).slice part.offset part.width)

/-- A field of every item of a buffer. -/
def Buffer.project (b : Buffer) (field : Field) : Buffer :=
  ⟨b.shape, field.dtype, (Geometry.fieldPart field).cut b.dtype.itemsize b.length b.data⟩

namespace Geometry

variable {g : Geometry} {source : ChunkSource} {s : Store} {sel : Selection} {part : Projection}

/-! ## Parts of items -/

/-- The part of every selected element is cut out of the elements. -/
theorem Shows.eq_cut (hpart : part.offset + part.width ≤ g.itemsize) {data items : Bytes}
    (h : g.Shows s source sel part data) (hitems : g.Shows s source sel g.wholeItem items) :
    data = part.cut g.itemsize sel.size items := by
  have hwhole : items.size = sel.size * g.itemsize := hitems.size
  have hitem {i : Nat} (hi : i < sel.size) : (items.item g.itemsize i).size = g.itemsize := by
    refine Bytes.size_item _ _ _ ?_
    rw [hwhole]
    exact Nat.mul_le_mul_right _ hi
  refine Bytes.eq_concat_map_range h.size (fun i hi => ?_) fun i hi k hk => ?_
  · rw [Bytes.size_slice, hitem hi]
    omega
  · have hi' : i < sel.shape.size := hi
    have hq := Shape.holds_unflatten hi'
    have hbyte := h.byte _ k hq hk
    have hbyte' := hitems.byte _ (part.offset + k) hq (show _ < g.itemsize by omega)
    rw [Shape.flatten_unflatten _ _ hi'] at hbyte hbyte'
    calc data.getD (i * part.width + k) 0
        = items.getD (i * g.itemsize + (part.offset + k)) 0 := by
          rw [hbyte, partByte, Nat.add_assoc]
          exact hbyte'.symm
      _ = ((items.item g.itemsize i).slice part.offset part.width).getD k 0 := by
          rw [Bytes.getD_slice, if_pos hk, Bytes.getD_item _ _ _ _ (by omega)]

/-- Whatever part is read, the same chunks are fetched, and the first fault among them ends it. -/
theorem map_outcome_gatherChunks {part' : Projection} (hcuts : part.Cuts g.itemsize)
    (hcuts' : part'.Cuts g.itemsize) (out out' : Bytes) (chunks : List Nat) :
    (outcome (gatherChunks g source sel part out chunks) s).map (fun _ => ()) =
      (outcome (gatherChunks g source sel part' out' chunks) s).map (fun _ => ()) := by
  induction chunks generalizing out out' with
  | nil => rfl
  | cons i rest ih =>
    cases hhits : sel.hits (g.grid.chunkBox i) with
    | none =>
      rw [gatherChunks_cons, gatherChunks_cons, hhits]
      exact ih out out'
    | some hits =>
      rw [outcome_gatherChunks_hit out rest hhits, outcome_gatherChunks_hit out' rest hhits]
      generalize outcome (Store.getRange source i _ _) s = data
      cases data with
      | error e => rfl
      | ok data =>
        simp only [bind, Except.bind, if_pos hcuts, if_pos hcuts']
        exact ih _ _

/-- The parts of a selection are the parts of its items, and both cannot be read for the same reason. -/
theorem outcome_readParts_eq_map (hg : g.Regular) (hsel : sel.Fits g.shape)
    (hpart : part.offset + part.width ≤ g.itemsize)
    (hcuts : 0 < sel.size → part.Cuts g.itemsize) :
    outcome (readParts g source sel part) s =
      (outcome (readParts g source sel g.wholeItem) s).map (part.cut g.itemsize sel.size) := by
  have hsame : (outcome (readParts g source sel part) s).map (fun _ => ()) =
      (outcome (readParts g source sel g.wholeItem) s).map (fun _ => ()) := by
    by_cases hempty : sel.isEmpty = true
    · rw [readParts_of_isEmpty hpart hempty, readParts_of_isEmpty wholeItem_le hempty]
      rfl
    · rw [readParts, readParts, if_neg (Nat.not_lt.2 hpart), if_neg (Nat.not_lt.2 wholeItem_le),
        if_neg hempty, if_neg hempty]
      exact map_outcome_gatherChunks (hcuts (Selection.size_pos_iff.2 hempty)) cuts_wholeItem _ _ _
  obtain ⟨e, he, he'⟩ | ⟨data, items, hdata, hitems, -⟩ := cases_of_map_eq hsame
  · rw [he, he']
    rfl
  · have hshows := shows_of_readParts hg hsel hdata
    rw [hdata, hitems, hshows.eq_cut hpart (shows_of_readParts hg hsel hitems)]
    rfl

/-! ## Parts without bytes -/

/-- Items that cannot be cut break the reading off in the first chunk that is hit. -/
theorem outcome_gatherChunks_of_not_cuts (hg : g.Regular) (hsel : sel.Fits g.shape)
    (hcuts : ¬ part.Cuts g.itemsize) (out : Bytes) {chunks : List Nat}
    (hlt : ∀ i ∈ chunks, i < g.nchunks) (hread : ∀ i ∈ chunks, g.HitsReadable s source sel i)
    (hhit : ∃ i ∈ chunks, sel.hits (g.grid.chunkBox i) ≠ none) :
    outcome (gatherChunks g source sel part out chunks) s = .error (.breakdown .emptyParts) := by
  -- On the chunks: those without a hit are passed, and at the first other one the cutting breaks off.
  induction chunks with
  | nil =>
    obtain ⟨i, hi, -⟩ := hhit
    exact absurd hi List.not_mem_nil
  | cons i rest ih =>
    obtain ⟨hi, hlt⟩ := List.forall_mem_cons.1 hlt
    obtain ⟨hreadi, hread⟩ := List.forall_mem_cons.1 hread
    cases hhits : sel.hits (g.grid.chunkBox i) with
    | none =>
      rw [gatherChunks_cons, hhits]
      refine ih hlt hread ?_
      obtain ⟨j, hj, hne⟩ := hhit
      obtain rfl | hj := List.mem_cons.1 hj
      · exact absurd hhits hne
      · exact ⟨j, hj, hne⟩
    | some hits =>
      obtain ⟨hlen, hlayout⟩ := length_chunkBox hg hsel hi
      rw [outcome_gatherChunks_cons out rest hg hlen hlayout hhits hreadi, if_neg hcuts]

/-- Items that cannot be cut break the reading off, if one is selected and the chunks can be read. -/
theorem outcome_readParts_of_not_cuts (hg : g.Regular) (hsel : sel.Fits g.shape)
    (hpart : part.offset + part.width ≤ g.itemsize) (hcuts : ¬ part.Cuts g.itemsize)
    (hpos : 0 < sel.size) (hread : ∀ i < g.nchunks, g.HitsReadable s source sel i) :
    outcome (readParts g source sel part) s = .error (.breakdown .emptyParts) := by
  have hlt (i : Nat) (hi : i ∈ g.grid.intersecting sel.boundingBox) : i < g.nchunks :=
    lt_of_mem_intersecting hg hsel hpos hi
  rw [readParts, if_neg (Nat.not_lt.2 hpart), if_neg (Selection.size_pos_iff.1 hpos)]
  exact outcome_gatherChunks_of_not_cuts hg hsel hcuts _ hlt (fun i hi => hread i (hlt i hi))
    (exists_hit hg hsel hpos)

/-! ## Fields -/

section Field

variable {field : Field} {region : Region}

/-- A field with bytes is cut out of the items of the region, and a region without items has nothing
to cut. -/
theorem outcome_readField_eq_map (hg : g.Regular) (hfield : field ∈ g.dtype.fields)
    (hwidth : ∀ sel, region.resolve g.shape = .ok sel → 0 < sel.size → 0 < field.dtype.itemsize) :
    outcome (readField g source field region) s =
      (outcome (readRegion g source region) s).map (·.project field) := by
  rw [readField, outcome_readRegionAs, outcome_readRegion]
  cases hsel : region.resolve g.shape with
  | error e => rfl
  | ok sel =>
    have hfits : sel.Fits g.shape := Region.fits_of_resolveWith hsel
    have hparts := @outcome_readParts_eq_map g source s sel (fieldPart field) hg hfits
      (DType.end_le_itemsize hfield) fun hpos => .inr (hwidth sel hsel hpos)
    cases hitems : outcome (readParts g source sel g.wholeItem) s with
    | error e =>
      rw [hitems] at hparts
      simp only [bind, Except.bind, hitems, hparts]
      rfl
    | ok items =>
      rw [hitems] at hparts
      have hsize := (shows_of_readParts hg hfits hparts).size
      have hwhole := (shows_of_readParts hg hfits hitems).size
      simp only [bind, Except.bind, hitems, hparts, Except.map]
      rw [Buffer.new_of_size hsize, Buffer.new_of_size hwhole]
      rfl

/-- A field without bytes cannot be read where an item is selected. -/
theorem outcome_readField_of_itemsize_eq_zero (hg : g.Regular) (hfield : field ∈ g.dtype.fields)
    (hwidth : field.dtype.itemsize = 0) (hsel : region.resolve g.shape = .ok sel)
    (hpos : 0 < sel.size) (hread : ∀ i < g.nchunks, g.HitsReadable s source sel i) :
    outcome (readField g source field region) s = .error (.breakdown .emptyParts) := by
  have hcuts : ¬ (fieldPart field).Cuts g.itemsize := by
    rintro (hwhole | hpositive)
    · -- An item has bytes, so the field is not all of it.
      have hsame : field.dtype.itemsize = g.itemsize := congrArg Projection.width hwhole
      exact hg.itemsize_pos.ne' (hsame.symm.trans hwidth)
    · exact hpositive.ne' hwidth
  rw [readField, outcome_readRegionAs, hsel]
  simp only [bind, Except.bind, outcome_readParts_of_not_cuts hg (Region.fits_of_resolveWith hsel)
    (DType.end_le_itemsize hfield) hcuts hpos hread]

end Field

end Geometry

namespace NDArray

variable {a : NDArray} {fs : Files} {field : Field} {region : Region} {sel : Selection}

/-- An array whose chunks can all be read from end to end. -/
def Readable (a : NDArray) (fs : Files) : Prop :=
  ∀ i < a.geometry.nchunks,
    a.store.Readable (a.store.chunkSource fs) i 0 a.geometry.chunkSize

/-- An array in memory can be read. -/
theorem Sound.readable {contents : Nat → Bytes} (h : a.Sound contents) (fs : Files) : a.Readable fs :=
  fun i hi => (h.holds i hi).readable (by rw [h.size i hi, Nat.zero_add])

/-- A field is read as the projection of its records. In an array whose chunks can be read, every
region that resolves is read, and reading a field of it gives the shape of the selection and the bytes
of the field out of every record, in C order; but if the field has no bytes and a record is selected,
the reading breaks off. -/
theorem readField_projects (hg : a.geometry.Regular) (hread : a.Readable fs)
    (hfield : field ∈ a.dtype.fields) (hsel : region.resolve a.shape = .ok sel) :
    ∃ b, (a.readRegion fs region).1 = .ok b ∧ b.shape = sel.shape ∧ b.dtype = a.dtype ∧
      (a.readField fs field region).1 =
        if sel.size = 0 ∨ 0 < field.dtype.itemsize then .ok (b.project field)
        else .error (.breakdown .emptyParts) := by
  have hhits (i : Nat) (hi : i < a.geometry.nchunks) : a.geometry.HitsReadable a.store
      (a.store.chunkSource fs) sel i :=
    Geometry.hitsReadable_of_readable hg (Region.fits_of_resolveWith hsel) hi (hread i hi)
  obtain ⟨b, hb, hshape, hdtype, -⟩ := Geometry.readRegion_of_readable hg hsel hhits
  refine ⟨b, hb, hshape, hdtype, ?_⟩
  change outcome (a.geometry.readField (a.store.chunkSource fs) field region) a.store = _
  split
  · rename_i hwidth
    rw [Geometry.outcome_readField_eq_map hg hfield, hb]
    · rfl
    · intro sel' hsel' hpos
      cases hsel.symm.trans hsel'
      exact hwidth.resolve_left hpos.ne'
  · rename_i hnone
    rw [not_or, Nat.not_lt] at hnone
    exact Geometry.outcome_readField_of_itemsize_eq_zero hg hfield (Nat.le_zero.1 hnone.2) hsel
      (Nat.pos_of_ne_zero hnone.1) hhits

/-- Records of two bytes, with both of them as one field and the second as another. -/
def overlapping : DType :=
  .record [⟨"last", .scalar .uint8, 1⟩, ⟨"both", .bytes 2, 0⟩]

/-- The second bytes of two records in two chunks, read backwards. -/
theorem readField_projects_overlapping :
    ∃ a, ofBytes #[1, 2, 3, 4] [2] overlapping { chunks := some [1] } = .ok a ∧ ∀ fs,
      (a.readField fs ⟨"last", .scalar .uint8, 1⟩ [.range none none (-1)]).1 =
        .ok ⟨[2], .scalar .uint8, #[4, 2]⟩ := by
  obtain ⟨a, ha, hgeometry, -⟩ := @exists_ofBytes #[1, 2, 3, 4] [2] overlapping
    { chunks := some [1] } ⟨[2], overlapping, [1], [1]⟩ (by decide) (by rfl) (by rfl) (by rfl)
    (by decide) (by decide +kernel)
  have hmemory : a.geometry.FitsMemory := fun _ => by
    rw [hgeometry]
    decide
  obtain ⟨hshape, hdtype, -, hsound⟩ := sound_of_ofBytes ha hmemory
  have hsel : Region.resolve [.range none none (-1)] a.shape = .ok [⟨1, 2, -1⟩] := by
    rw [hshape]
    rfl
  refine ⟨a, ha, fun fs => ?_⟩
  have hfield : (⟨"last", .scalar .uint8, 1⟩ : Field) ∈ a.dtype.fields := by
    rw [hdtype]
    exact List.mem_cons_self
  obtain ⟨b, hb, -, -, hproject⟩ :=
    readField_projects hsound.regular (hsound.readable fs) hfield hsel
  have hitems := (shows_of_ofBytes ha hmemory).read fs _ _ hsel
  rw [hb, hdtype] at hitems
  cases hitems
  have hdata : Bytes.concat ((Selection.coords [⟨1, 2, -1⟩]).map fun c =>
      Bytes.item #[1, 2, 3, 4] overlapping.itemsize (Shape.flatten [2] c)) = #[3, 4, 1, 2] := by
    decide +kernel
  rw [hproject, if_pos (.inr (by decide)), hdata]
  rfl

/-- Records of one byte behind a field without bytes. -/
def behindNothing : DType :=
  .record [⟨"empty", .bytes 0, 0⟩, ⟨"byte", .scalar .uint8, 0⟩]

/-- Of two records in memory the field without bytes cannot be read, though the records can. -/
theorem readField_breaks_off :
    ∃ a, ofBytes #[7, 8] [2] behindNothing {} = .ok a ∧ ∀ fs,
      (a.readRegion fs []).1 = .ok ⟨[2], behindNothing, #[7, 8]⟩ ∧
      (a.readField fs ⟨"empty", .bytes 0, 0⟩ []).1 = .error (.breakdown .emptyParts) := by
  obtain ⟨a, ha, hgeometry, -⟩ := @exists_ofBytes #[7, 8] [2] behindNothing {}
    ⟨[2], behindNothing, [2], [2]⟩ (by decide) (by rfl) (by rfl) (by rfl) (by decide)
    (by decide +kernel)
  have hmemory : a.geometry.FitsMemory := fun _ => by
    rw [hgeometry]
    decide
  obtain ⟨hshape, hdtype, -, hsound⟩ := sound_of_ofBytes ha hmemory
  have hsel : Region.resolve [] a.shape = .ok [⟨0, 2, 1⟩] := by
    rw [hshape]
    rfl
  refine ⟨a, ha, fun fs => ⟨?_, ?_⟩⟩
  · have hdata : Bytes.concat ((Selection.coords [⟨0, 2, 1⟩]).map fun c =>
        Bytes.item #[7, 8] behindNothing.itemsize (Shape.flatten [2] c)) = #[7, 8] := by
      decide +kernel
    rw [(shows_of_ofBytes ha hmemory).read fs _ _ hsel, hdtype, hdata]
    rfl
  · refine Geometry.outcome_readField_of_itemsize_eq_zero hsound.regular ?_ rfl hsel (by decide)
      fun i hi => hsound.hitsReadable (Region.fits_of_resolveWith hsel) hi
    rw [show a.geometry.dtype = behindNothing from hdtype]
    exact List.mem_cons_self

end NDArray

end ChunkedArray
