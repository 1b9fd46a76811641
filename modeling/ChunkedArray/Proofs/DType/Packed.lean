import Mathlib.Data.List.Nodup
import ChunkedArray.Proofs.Array.Build
import ChunkedArray.Proofs.DType.Descriptor

/-!
# Packed layouts

A descriptor names the fields of a record and says nothing of their offsets, and to read it is to pack
them. So every descriptor that can be read describes a packed layout: its records have fields, the names
in a record differ, each field begins where the one in front of it ends, and no byte string is empty. A
layout is read back from its own descriptor exactly if it is packed, which the size of its items does
not tell.
-/

namespace ChunkedArray.DType

/-- Every field begins where the fields in front of it end, if the first one begins at `start`. -/
def BackToBack (start : Nat) (fields : List Field) : Prop :=
  ∀ front f back, fields = front ++ f :: back →
    f.offset = start + (front.map fun f => f.dtype.itemsize).sum

/-- Layouts in which every record has fields of different names back to back, and every byte string has
a positive width of 64 bits. -/
inductive Packed : DType → Prop where
  | scalar (kind : ScalarKind) : Packed (scalar kind)
  | bytes {width : Nat} (hpos : 0 < width) (hword : width < 2 ^ 64) : Packed (bytes width)
  | record {fields : List Field} (hfields : fields ≠ []) (hnames : (fields.map FieldOf.name).Nodup)
      (hplaced : BackToBack 0 fields) (hmembers : ∀ f ∈ fields, Packed f.dtype) :
      Packed (record fields)

/-! ## Fields -/

theorem backToBack_cons_iff {start : Nat} {f : Field} {fields : List Field} :
    BackToBack start (f :: fields) ↔
      f.offset = start ∧ BackToBack (start + f.dtype.itemsize) fields := by
  constructor
  · intro h
    refine ⟨h [] f fields rfl, fun front g back hsplit => ?_⟩
    rw [h (f :: front) g back (by rw [hsplit, List.cons_append]), List.map_cons, List.sum_cons,
      Nat.add_assoc]
  · rintro ⟨hfirst, hrest⟩ front g back hsplit
    cases front with
    | nil =>
      cases hsplit
      exact hfirst
    | cons g' front =>
      obtain ⟨rfl, htail⟩ := List.cons.inj hsplit
      rw [hrest front g back htail, List.map_cons, List.sum_cons, Nat.add_assoc]

/-- The names and layouts of the fields. -/
def pairs (fields : List Field) : List (String × DType) :=
  fields.map fun f => (f.name, f.dtype)

theorem pairs_packFrom (start : Nat) (list : List (String × DType)) :
    pairs (packFrom start list) = list := by
  induction list generalizing start with
  | nil => rfl
  | cons p rest ih => exact congrArg (p :: ·) (ih _)

/-- To pack fields moves none of them exactly if they are back to back. -/
theorem packFrom_pairs_eq_iff {start : Nat} {fields : List Field} :
    packFrom start (pairs fields) = fields ↔ BackToBack start fields := by
  induction fields generalizing start with
  | nil => simp [pairs, packFrom, BackToBack]
  | cons f rest ih =>
    rw [backToBack_cons_iff, ← ih]
    change ⟨f.name, f.dtype, start⟩ :: packFrom (start + f.dtype.itemsize) (pairs rest) = f :: rest ↔ _
    rw [List.cons.injEq]
    refine and_congr_left fun _ => ?_
    constructor
    · intro h
      rw [← h]
    · rintro rfl
      rfl

theorem firstDuplicate?_eq_none_iff {seen names : List String} :
    firstDuplicate? seen names = none ↔ names.Nodup ∧ ∀ name ∈ names, name ∉ seen := by
  induction names generalizing seen with
  | nil => simp [firstDuplicate?]
  | cons name rest ih =>
    rw [firstDuplicate?, List.nodup_cons, List.forall_mem_cons]
    by_cases hseen : name ∈ seen
    · simp [hseen]
    · rw [if_neg hseen, ih]
      simp only [List.mem_cons, not_or, forall_and]
      constructor
      · rintro ⟨hnodup, hfirst, hrest⟩
        exact ⟨⟨fun hmem => hfirst _ hmem rfl, hnodup⟩, hseen, hrest⟩
      · rintro ⟨⟨hfirst, hnodup⟩, -, hrest⟩
        refine ⟨hnodup, ?_, hrest⟩
        rintro other hmem rfl
        exact hfirst hmem

/-- Fields make a record if there are any and their names differ. -/
theorem ofFields_eq_ok_iff {list : List (String × DType)} {dtype : DType} :
    ofFields list = .ok dtype ↔
      list ≠ [] ∧ (list.map Prod.fst).Nodup ∧ dtype = .record (packFrom 0 list) := by
  rw [ofFields]
  by_cases hempty : list = []
  · simp [hempty]
  · rw [if_neg (by simpa using hempty)]
    have hnone := @firstDuplicate?_eq_none_iff [] (list.map Prod.fst)
    simp only [List.not_mem_nil, not_false_eq_true, implies_true, and_true] at hnone
    cases hfirst : firstDuplicate? [] (list.map Prod.fst) with
    | none =>
      have hnodup := hnone.1 hfirst
      simp [hempty, hnodup, eq_comm]
    | some name =>
      have hnodup : ¬ (list.map Prod.fst).Nodup := by simp [← hnone, hfirst]
      simp [hnodup]

/-! ## Descriptors -/

/-- What is composed by packing records is packed, and nothing else is. -/
theorem composed_iff_packed {dtype : DType} : dtype.Composed ↔ dtype.Packed := by
  -- A record is composed of its named fields, and packing decides where they stand.
  constructor
  · intro h
    induction h with
    | scalar kind => exact .scalar kind
    | bytes hpos hword => exact .bytes hpos hword
    | @record list dtype _ hfields ih =>
      obtain ⟨hempty, hnodup, rfl⟩ := ofFields_eq_ok_iff.1 hfields
      have hpairs := pairs_packFrom 0 list
      refine .record ?_ ?_ (packFrom_pairs_eq_iff.1 (by rw [hpairs])) fun f hf => ?_
      · intro hnil
        rw [hnil] at hpairs
        exact hempty hpairs.symm
      · rw [← hpairs, pairs, List.map_map] at hnodup
        exact hnodup
      · refine ih (f.name, f.dtype) ?_
        rw [← hpairs]
        exact List.mem_map_of_mem hf
  · intro h
    induction h with
    | scalar kind => exact .scalar kind
    | bytes hpos hword => exact .bytes hpos hword
    | @record fields hfields hnames hplaced _ ih =>
      have hpacked : ofFields (pairs fields) = .ok (.record fields) := by
        refine ofFields_eq_ok_iff.2 ⟨?_, ?_, ?_⟩
        · simpa [pairs] using hfields
        · rw [pairs, List.map_map]
          exact hnames
        · rw [packFrom_pairs_eq_iff.2 hplaced]
      refine .record (fun p hp => ?_) hpacked
      obtain ⟨f, hf, rfl⟩ := List.mem_map.1 hp
      exact ih f hf

theorem lt_of_width?_eq_some {text : List Char} {n : Nat} (h : width? text = some n) :
    n < 2 ^ 64 := by
  unfold width? at h
  simp only [Option.ite_none_left_eq_some, Option.ite_none_right_eq_some, Option.some.injEq] at h
  obtain ⟨-, hlt, rfl⟩ := h
  exact hlt

theorem composed_of_ofAtom? {text : List Char} {dtype : DType} (h : ofAtom? text = some dtype) :
    dtype.Composed := by
  rw [ofAtom?] at h
  split at h
  · cases h
    exact .scalar _
  · split at h
    · split at h
      · split at h
        · cases h
          exact .bytes ‹_› (lt_of_width?_eq_some ‹_›)
        · cases h
      · cases h
    · cases h

/-- Every descriptor that can be read describes a composed layout. -/
theorem composed_of_ofDescriptorWithin {levels : Nat} {text : String} {dtype : DType}
    (h : ofDescriptorWithin levels text = .ok dtype) : dtype.Composed := by
  -- On the levels left, one of which every record takes for its fields.
  induction levels generalizing text dtype with
  | zero => cases h
  | succ levels ih =>
    rw [ofDescriptorWithin] at h
    split at h
    · split at h
      · cases h
      · obtain ⟨list, hlist, hfields⟩ := bind_eq_ok.1 h
        refine .record (fun p hp => ?_) hfields
        obtain ⟨i, hi, rfl⟩ := List.getElem_of_mem hp
        have hall := forall₂_of_mapM_eq_ok hlist
        obtain ⟨member, hmember, hpair⟩ := bind_eq_ok.1 (hall.get (by rwa [hall.length_eq]) hi)
        have hsame : member = list[i].2 := congrArg Prod.snd (Except.ok.inj hpair)
        rw [← hsame]
        exact ih hmember
    · split at h
      · cases h
        exact composed_of_ofAtom? ‹_›
      · cases h

/-- A layout is read back from its descriptor, with the names, the order and the offsets of its fields,
exactly if it is packed. -/
theorem ofDescriptor_descriptor_eq_iff (dtype : DType) :
    ofDescriptor dtype.descriptor = .ok dtype ↔ dtype.Packed := by
  rw [← composed_iff_packed]
  exact ⟨composed_of_ofDescriptorWithin, Composed.ofDescriptor_descriptor⟩

/-- A record of an empty byte string and a number has items of one byte, and arrays are made of it, but it
is not read back from its descriptor. -/
theorem ofDescriptor_descriptor_ne :
    ∃ dtype, ofFields [("a", .bytes 0), ("b", .scalar .int8)] = .ok dtype ∧ dtype.itemsize = 1 ∧
      (∃ a, NDArray.allocate ⟨[1], dtype, [1], [1]⟩ { codec := .noop } = .ok a) ∧
      ofDescriptor dtype.descriptor ≠ .ok dtype := by
  refine ⟨_, rfl, rfl, ?_, fun h => ?_⟩
  · exact NDArray.exists_allocate (by decide) (by decide) rfl (by decide +kernel)
  · -- The width of the first member is not positive.
    cases composed_iff_packed.1 (composed_of_ofDescriptorWithin h) with
    | record _ _ _ hmembers =>
      cases hmembers _ List.mem_cons_self with
      | bytes hpos _ => cases hpos

end ChunkedArray.DType
