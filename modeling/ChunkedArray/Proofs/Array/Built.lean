import ChunkedArray.Proofs.Array.Gather
import ChunkedArray.Proofs.Array.Padded

/-!
# Arrays under writes

Whatever is done to an array that was built in memory, it stays a function from coordinates to items,
and a write changes that function at the selected coordinates and nowhere else.
-/

namespace ChunkedArray

/-- What a write does to a function from coordinates to items: the selected items come from the
value, each from its own place in the selection, or all of them are the value; the others stay. -/
structure Selection.Overwrites (sel : Selection) (shape : Shape) (width : Nat) (value : Bytes)
    (item item' : List Nat → Bytes) : Prop where
  unique : ∀ q r, sel.shape.Holds q → sel.shape.Holds r → sel.position q = sel.position r → q = r
  selected : value.size = sel.size * width →
    ∀ q, sel.shape.Holds q → item' (sel.position q) = value.item width (sel.shape.flatten q)
  filled : value.size = width → ∀ q, sel.shape.Holds q → item' (sel.position q) = value
  other : ∀ c, shape.Holds c → (∀ q, sel.shape.Holds q → sel.position q ≠ c) → item' c = item c

namespace Geometry

variable {g : Geometry} {sel : Selection} {value : Bytes} {contents : Nat → Bytes}

/-- The patched chunks show the items of the array with the value written over the selection. -/
theorem overwrites_patched (hg : g.Regular) (hsel : sel.Fits g.shape)
    (hsize : ∀ i < g.nchunks, (contents i).size = g.chunkSize) :
    sel.Overwrites g.shape g.itemsize value (g.itemAt contents)
      (g.itemAt (g.patched sel (value.size == g.itemsize) value contents)) := by
  constructor
  · exact fun q r hq hr heq => Selection.position_inj hsel hq hr heq
  · intro hvalue q hq
    have hlt : sel.shape.flatten q < sel.size := Shape.flatten_lt hq
    have hend : (sel.shape.flatten q + 1) * g.itemsize ≤ sel.size * g.itemsize :=
      Nat.mul_le_mul_right _ hlt
    rw [Nat.succ_mul] at hend
    by_cases hone : value.size = g.itemsize
    · -- The value has a single item, so the selection has a single element.
      have hfill : (value.size == g.itemsize) = true := beq_iff_eq.2 hone
      have hfirst : sel.shape.flatten q = 0 := by
        have hsingle : sel.size = 1 :=
          Nat.eq_of_mul_eq_mul_right hg.itemsize_pos (by rw [← hvalue, hone, Nat.one_mul])
        omega
      rw [hfill, itemAt_patched hg hsel hsize hq (by rw [valueStart, if_pos rfl]; omega), valueItem,
        valueStart, if_pos rfl, hfirst, Bytes.item, Nat.zero_mul]
    · have hfill : (value.size == g.itemsize) = false := beq_eq_false_iff_ne.2 hone
      rw [hfill, itemAt_patched hg hsel hsize hq (by
        rw [valueStart, if_neg Bool.false_ne_true]
        omega), valueItem, valueStart, if_neg Bool.false_ne_true, Bytes.item]
  · intro hone q hq
    have hfill : (value.size == g.itemsize) = true := beq_iff_eq.2 hone
    rw [hfill, itemAt_patched hg hsel hsize hq (by rw [valueStart, if_pos rfl]; omega), valueItem,
      valueStart, if_pos rfl, Bytes.slice, ← hone, Nat.zero_add, Array.extract_size]
  · exact fun c hc hmiss => itemAt_patched_of_not_selected hg hsel hsize hc hmiss

end Geometry

namespace NDArray

/-- The arrays that are built in memory: zeros, given items, materialized expressions, and what
writes, also refused ones, make of them. -/
inductive Built : NDArray → Prop where
  | zeros {shape : Shape} {dtype : DType} {params : ArrayParams} {a : NDArray} :
    NDArray.zeros shape dtype params = .ok a → Built a
  | ofBytes {data : Bytes} {shape : Shape} {dtype : DType} {params : ArrayParams} {a : NDArray} :
    NDArray.ofBytes data shape dtype params = .ok a → Built a
  | materialize {params : EvalParams} {root : Expr} {w w' : Workspace} {a : NDArray} :
    Action.run (Expr.materialize params root) w = (.ok a, w') → Built a
  | writeRegion {a : NDArray} (fs : Files) (region : Region) (value : Bytes) :
    Built a → Built (a.writeRegion fs region value).2
  | writeTyped {a : NDArray} (fs : Files) (region : Region) (values : TypedArray) :
    Built a → Built (a.writeTyped fs region values).2

/-- A write to an array in memory whose chunks are padded leaves such an array. -/
theorem Sound.exists_padded_writeRegion {a : NDArray} {contents : Nat → Bytes} (h : a.Sound contents)
    (hpadded : a.geometry.Padded contents) (fs : Files) (region : Region) (value : Bytes) :
    ∃ contents', (a.writeRegion fs region value).2.Sound contents' ∧
      (a.writeRegion fs region value).2.geometry.Padded contents' := by
  obtain hsame | ⟨sel, hsel, hsound⟩ := h.writeRegion_cases fs region value
  · rw [hsame]
    exact ⟨contents, h, hpadded⟩
  · exact ⟨_, hsound, hpadded.patched h.regular hsel _ value⟩

/-- An array that is built in memory is in memory, and its chunks are padded. -/
theorem Built.exists_padded {a : NDArray} (h : a.Built) (hmemory : a.geometry.FitsMemory) :
    ∃ contents, a.Sound contents ∧ a.geometry.Padded contents := by
  -- On how the array was built: chunks are padded when made, and writes leave the padding alone.
  induction h with
  | zeros h => exact ⟨_, sound_of_zeros h hmemory, Geometry.padded_zeros _ _⟩
  | ofBytes h =>
    obtain ⟨-, -, -, hsound⟩ := sound_of_ofBytes h hmemory
    exact ⟨_, hsound, Geometry.padded_padToLayout hsound.regular _⟩
  | materialize h =>
    obtain ⟨-, _, -, hsound⟩ := Expr.sound_of_materialize (fun _ => True) (fun _ _ => True)
      (fun _ _ _ _ _ _ => ⟨trivial, trivial⟩) trivial h hmemory
    exact ⟨_, hsound, Geometry.padded_padToLayout hsound.regular _⟩
  | writeRegion fs region value _ ih =>
    obtain ⟨contents, hsound, hpadded⟩ := ih hmemory
    exact hsound.exists_padded_writeRegion hpadded fs region value
  | @writeTyped a fs region values _ ih =>
    obtain ⟨contents, hsound, hpadded⟩ := ih hmemory
    obtain hsame | hbytes := a.writeTyped_cases fs region values
    · rw [hsame]
      exact ⟨contents, hsound, hpadded⟩
    · rw [hbytes]
      exact hsound.exists_padded_writeRegion hpadded fs region values.toBytes

end NDArray

end ChunkedArray
