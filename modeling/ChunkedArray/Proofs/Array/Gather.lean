import ChunkedArray.Proofs.Array.Build

/-!
# Reading an array of given items

The composition of the whole way from a buffer into chunks and back: reading a region of an array
that was built from a buffer gathers the items of the buffer at the product of the resolved index
progressions, in C order, and reading the whole array gives the buffer.
-/

namespace ChunkedArray

/-! ## The whole array -/

/-- The positions of an axis that are signed words. -/
def Slice.wholeAxis (n : Nat) : Progression :=
  ⟨0, (Slice.signedLength n).toNat, 1⟩

theorem Slice.resolve_full (n : Nat) : Slice.full.resolve false n = .ok (wholeAxis n) := by
  have hcount : strideCount 0 (signedLength n) 1 = (signedLength n).toNat := by
    rw [strideCount]
    split <;> omega
  simp [full, resolve, wholeAxis, hcount]

/-- A region without requests selects every axis. -/
theorem Region.resolve_nil (shape : Shape) :
    resolve [] shape = .ok (shape.map Slice.wholeAxis) := by
  rw [resolve, resolveWith, if_neg (by simp)]
  induction shape with
  | nil => rfl
  | cons n shape ih =>
    rw [resolveAxes, List.head?_nil, Option.getD_none, Slice.resolve_full, List.tail_nil, ih]
    rfl

/-- Axes that are signed words are selected from end to end. -/
theorem wholeAxis_eq_ofBox {shape : Shape} (h : ∀ n ∈ shape, n < 2 ^ 63) :
    shape.map Slice.wholeAxis = Selection.ofBox shape.wholeBox := by
  rw [Selection.ofBox, Shape.wholeBox, List.map_map]
  refine List.map_congr_left fun n hn => ?_
  have hlength : Slice.signedLength n = n := if_pos (h n hn)
  simp [Slice.wholeAxis, hlength, Span.length]

/-- The items at all coordinates, joined, are the row of items. -/
theorem concat_map_wholeBox {shape : Shape} {width : Nat} {data : Bytes}
    (hsize : data.size = shape.size * width) :
    Bytes.concat ((Selection.ofBox shape.wholeBox).coords.map fun c =>
      data.item width (shape.flatten c)) = data := by
  have hshape : Selection.shape (Selection.ofBox shape.wholeBox) = shape := by simp
  have hposition {q : List Nat} (hq : shape.Holds q) :
      (Selection.ofBox shape.wholeBox).position q = q := by
    rw [Selection.position_ofBox, Shape.toGlobal_wholeBox hq]
  symm
  refine Selection.concat_map_coords (by rw [Selection.size, hshape, hsize]) ?_ ?_
  · intro q hq
    rw [hshape] at hq
    rw [hposition hq]
    refine Bytes.size_item _ _ _ ?_
    rw [hsize]
    exact Nat.mul_le_mul_right _ (Shape.flatten_lt hq)
  · intro q k hq hk
    rw [hshape] at hq ⊢
    rw [hposition hq, Bytes.getD_item _ _ _ _ hk]

/-- An array that shows the items of a buffer gives the buffer back when it is read whole. -/
theorem NDArray.Shows.readRegion_nil {a : NDArray} {data : Bytes}
    (h : a.Shows fun c => data.item a.geometry.itemsize (a.shape.flatten c))
    (hitem : 0 < a.geometry.itemsize) (hdata : data.size = a.shape.size * a.geometry.itemsize)
    (hsize : data.size < 2 ^ 63) (fs : Files) :
    ∃ b, (a.readRegion fs []).1 = .ok b ∧ b.dtype = a.dtype ∧ b.data = data ∧
      ((∀ n ∈ a.shape, n < 2 ^ 63) → b.shape = a.shape) := by
  refine ⟨_, h.read fs [] _ (Region.resolve_nil _), rfl, ?_, fun hdims => ?_⟩
  · by_cases hempty : a.shape.size = 0
    · -- An axis without positions leaves nothing to select.
      have hnone : Selection.size (a.shape.map Slice.wholeAxis) = 0 := by
        by_contra hpos
        have hcounts := Shape.size_pos_iff.1 (Nat.pos_of_ne_zero hpos)
        refine absurd (Shape.size_pos_iff.2 fun n hn => ?_) (Nat.not_lt.2 hempty.le)
        have hcount := hcounts _ (List.mem_map_of_mem (List.mem_map_of_mem hn))
        have hle := Slice.signedLength_le n
        simp only [Slice.wholeAxis] at hcount
        omega
      have hdata0 : data = #[] := Array.eq_empty_of_size_eq_zero (by rw [hdata, hempty, Nat.zero_mul])
      rw [Selection.coords_eq_map, hnone, hdata0]
      rfl
    · have hpos := Nat.pos_of_ne_zero hempty
      have hlt : a.shape.size < 2 ^ 63 := by
        refine lt_of_le_of_lt ?_ hsize
        rw [hdata]
        exact Nat.le_mul_of_pos_right _ hitem
      rw [wholeAxis_eq_ofBox (Shape.lt_of_size_lt hpos hlt), concat_map_wholeBox hdata]
  · rw [wholeAxis_eq_ofBox hdims]
    simp

/-! ## Gathering -/

namespace NDArray

/-- An array of given items shows them. -/
theorem shows_of_ofBytes {data : Bytes} {shape : Shape} {dtype : DType} {params : ArrayParams}
    {a : NDArray} (h : ofBytes data shape dtype params = .ok a)
    (hmemory : a.geometry.FitsMemory) :
    a.Shows fun c => data.item dtype.itemsize (shape.flatten c) := by
  obtain ⟨hshape, hdtype, hdata, hsound⟩ := sound_of_ofBytes h hmemory
  have hitem : a.geometry.itemsize = dtype.itemsize := congrArg DType.itemsize hdtype
  refine hsound.shows.congr fun c hc => ?_
  have hdata' : data.size = a.geometry.shape.size * a.geometry.itemsize := by
    rw [hdata, hitem, ← hshape]
    rfl
  rw [itemAt_cutChunk hsound.regular hdata' hc, hitem, ← hshape]
  rfl

/-- Every array that can be built from a buffer is built, and every region of it that resolves is
read: the result joins the items of the buffer at the product of the resolved progressions. Read
whole, the array gives the buffer back. -/
theorem readRegion_ofBytes {data : Bytes} {shape : Shape} {dtype : DType} {params : ArrayParams}
    {g : Geometry} (hitem : 0 < dtype.itemsize)
    (hresolve : Geometry.resolve shape dtype params.chunks params.blocks = .ok g)
    (hcodec : params.codec.validate = .ok ()) (hdata : data.size = shape.size * dtype.itemsize)
    (hchunk : g.chunkSize < 2 ^ 32) (hmeta : g.toMeta.encode.size < 2 ^ 32) :
    ∃ a, ofBytes data shape dtype params = .ok a ∧
      (∀ fs region sel, region.resolve shape = .ok sel →
        (a.readRegion fs region).1 =
          .ok ⟨sel.shape, dtype, Bytes.concat ((cartesian (sel.map Progression.indices)).map
            fun c => data.item dtype.itemsize (shape.flatten c))⟩) ∧
      (data.size < 2 ^ 63 → ∀ fs, ∃ b, (a.readRegion fs []).1 = .ok b ∧ b.dtype = dtype ∧
        b.data = data ∧ ((∀ n ∈ shape, n < 2 ^ 63) → b.shape = shape)) := by
  obtain ⟨a, ha, hgeometry, -⟩ := exists_ofBytes hitem hresolve hcodec hdata hchunk hmeta
  have hmemory : a.geometry.FitsMemory := fun _ => by
    rw [hgeometry]
    omega
  obtain ⟨hshape, hdtype, -, -⟩ := sound_of_ofBytes ha hmemory
  have hshows := shows_of_ofBytes ha hmemory
  have hwidth : a.geometry.itemsize = dtype.itemsize := congrArg DType.itemsize hdtype
  refine ⟨a, ha, fun fs region sel hsel => ?_, fun hsize fs => ?_⟩
  · have hread := hshows.read fs region sel (by rwa [hshape])
    rwa [hdtype] at hread
  · rw [← hshape, ← hwidth] at hshows hdata
    rw [← hdtype]
    have hwhole := hshows.readRegion_nil (by rwa [hwidth]) hdata hsize fs
    rwa [hshape] at hwhole

/-- Three bytes in two chunks, the whole array read backwards. -/
theorem readRegion_ofBytes_reversed :
    ∃ a, ofBytes #[1, 2, 3] [3] (.scalar .uint8) { chunks := some [2] } = .ok a ∧
      ∀ fs, (a.readRegion fs [.range none none (-1)]).1 =
        .ok ⟨[3], .scalar .uint8, #[3, 2, 1]⟩ := by
  obtain ⟨a, ha, hread, -⟩ := @readRegion_ofBytes #[1, 2, 3] [3] (.scalar .uint8)
    { chunks := some [2] } ⟨[3], .scalar .uint8, [2], [2]⟩ (by decide) (by rfl) (by rfl) (by rfl)
    (by decide) (by decide +kernel)
  have hdata : Bytes.concat ((cartesian ([⟨2, 3, -1⟩].map Progression.indices)).map fun c =>
      Bytes.item #[1, 2, 3] 1 (Shape.flatten [3] c)) = #[3, 2, 1] := by decide +kernel
  refine ⟨a, ha, fun fs => ?_⟩
  rw [hread fs [.range none none (-1)] [⟨2, 3, -1⟩] (by rfl), ← hdata]
  rfl

end NDArray

end ChunkedArray
