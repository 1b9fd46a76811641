import ChunkedArray.Proofs.Array.Write
import ChunkedArray.Proofs.Expr.Materialize

/-!
# Padding

A chunk at the far edge of an array is longer than the part of the array in it. Zeros fill the rest
when a chunk is made, and a write patches the places of selected elements only, so they stay. No read
shows the padding, but it is a part of what is compressed: only with padding that is always the same
do the items of an array determine the bytes of its chunks (`Padded.eq_of_itemAt`).
-/

namespace ChunkedArray

namespace Geometry

variable {g : Geometry} {contents contents' : Nat → Bytes}

/-- Every chunk shows zeros outside of its part of the array. -/
def Padded (g : Geometry) (contents : Nat → Bytes) : Prop :=
  ∀ i < g.nchunks, ∀ c, g.chunks.Holds c → ¬ Shape.Holds (Box.shape (g.grid.chunkBox i)) c →
    ∀ k < g.itemsize, (contents i).getD (g.chunks.flatten c * g.itemsize + k) 0 = 0

theorem padded_zeros (g : Geometry) (n : Nat) : g.Padded fun _ => Bytes.zeros n :=
  fun _ _ _ _ _ _ _ => Bytes.getD_zeros _ _

/-- Parts of an array that are laid into chunks are padded. -/
theorem padded_padToLayout (hg : g.Regular) (parts : Nat → Bytes) :
    g.Padded fun i => padToLayout (parts i) (Box.shape (g.grid.chunkBox i)) g.chunks g.itemsize := by
  intro i hi c hc hout k hk
  rw [getD_padToLayout (shape_chunkBox_fitsIn hg hi) hk hc, if_neg hout]

/-- A patch leaves the padding, since every selected element is an element of the array. -/
theorem Padded.patched (h : g.Padded contents) (hg : g.Regular) {sel : Selection}
    (hsel : sel.Fits g.shape) (fill : Bool) (value : Bytes) :
    g.Padded (g.patched sel fill value contents) := by
  intro i hi c hc hout k hk
  rw [Geometry.patched]
  cases hhits : sel.hits (g.grid.chunkBox i) with
  | none => exact h i hi c hc hout k hk
  | some hits =>
    obtain ⟨rfl, -⟩ := Selection.eq_of_hits_eq_some hhits
    dsimp only
    rw [patch_eq_copyItems, Selection.getD_copyIn_hits_of_miss (length_chunkBox hg hsel hi).1
      (chunkBox_fits hg hi) hk _ _ (g.valueStart fill) hc, h i hi c hc hout k hk]
    rintro q hq hbox rfl
    exact hout (Box.holds_toLocal hbox)

theorem getD_itemAt {c : List Nat} {k : Nat} (hk : k < g.itemsize) :
    (g.itemAt contents c).getD k 0 =
      (contents (g.grid.chunkOf c)).getD (g.placeOf c * g.itemsize + k) 0 := by
  rw [itemAt, Bytes.getD_item _ _ _ _ hk]

/-- Coordinates in the part of the array in a chunk are those of an element of that chunk. -/
theorem chunkOf_toGlobal (hg : g.Regular) {i : Nat} (hi : i < g.nchunks) {c : List Nat}
    (hc : Shape.Holds (Box.shape (g.grid.chunkBox i)) c) :
    g.shape.Holds ((g.grid.chunkBox i).toGlobal c) ∧
      g.grid.chunkOf ((g.grid.chunkBox i).toGlobal c) = i ∧
      g.placeOf ((g.grid.chunkBox i).toGlobal c) = g.chunks.flatten c := by
  have hbox := Box.holds_toGlobal hc
  have hinside : Box.Inside (g.grid.chunkBox i) g.shape := ChunkGrid.chunkBox_inside hg.grid hi
  have hglobal := hinside.holds hbox
  have hchunk := (ChunkGrid.holds_chunkBox_iff hg.grid hi hglobal).1 hbox
  refine ⟨hglobal, hchunk, ?_⟩
  rw [placeOf, hchunk, Box.toLocal_toGlobal hc]

/-- Padded chunks that show the same items are the same. -/
theorem Padded.eq_of_itemAt (h : g.Padded contents) (h' : g.Padded contents') (hg : g.Regular)
    (hitem : ∀ c, g.shape.Holds c → g.itemAt contents c = g.itemAt contents' c) {i : Nat}
    (hi : i < g.nchunks) (hsize : (contents i).size = g.chunkSize)
    (hsize' : (contents' i).size = g.chunkSize) : contents i = contents' i := by
  refine Bytes.ext_getD (hsize.trans hsize'.symm) fun p hp => ?_
  -- Every position is byte `k` of the item at some coordinates `c` of the chunk.
  have hk : p % g.itemsize < g.itemsize := Nat.mod_lt _ hg.itemsize_pos
  have hplace : p / g.itemsize < g.chunks.size := by
    rw [hsize, chunkSize] at hp
    exact (Nat.div_lt_iff_lt_mul hg.itemsize_pos).2 hp
  have hc := Shape.holds_unflatten hplace
  have hp' : g.chunks.flatten (g.chunks.unflatten (p / g.itemsize)) * g.itemsize + p % g.itemsize =
      p := by
    rw [Shape.flatten_unflatten _ _ hplace, Nat.div_add_mod']
  rw [← hp']
  generalize g.chunks.unflatten (p / g.itemsize) = c at hc
  by_cases hin : Shape.Holds (Box.shape (g.grid.chunkBox i)) c
  · obtain ⟨hglobal, hchunk, hflat⟩ := chunkOf_toGlobal hg hi hin
    have hsame := congrArg (fun item : Bytes => item.getD (p % g.itemsize) 0) (hitem _ hglobal)
    simp only [getD_itemAt hk, hchunk, hflat] at hsame
    exact hsame
  · rw [h i hi c hc hin _ hk, h' i hi c hc hin _ hk]

end Geometry

end ChunkedArray
