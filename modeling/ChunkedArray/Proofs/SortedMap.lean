import ChunkedArray.SortedMap

/-!
# Maps stay sorted

An insertion keeps the keys strictly ascending, and with every key behind the others it adds its
pair at the end. Pairs that are sorted already are therefore the map that is made from them.
-/

namespace ChunkedArray.SortedMap

variable {α : Type} {m : SortedMap α}

/-- The keys are strictly ascending. -/
def Sorted (m : SortedMap α) : Prop :=
  m.Pairwise fun p q => p.1 < q.1

theorem sorted_nil : Sorted ([] : SortedMap α) := .nil

theorem sorted_cons {p : String × α} :
    Sorted (p :: m) ↔ (∀ q ∈ m, p.1 < q.1) ∧ Sorted m :=
  List.pairwise_cons

theorem Sorted.filter (h : Sorted m) (keep : String × α → Bool) :
    Sorted (List.filter keep m) :=
  List.Pairwise.filter keep h

/-! ## Insertions -/

/-- A pair behind an insertion is the new one or an old one. -/
theorem eq_or_mem_of_mem_insert {key : String} {value : α} {p : String × α}
    (h : p ∈ m.insert key value) : p = (key, value) ∨ p ∈ m := by
  induction m with
  | nil => simpa [insert] using h
  | cons q rest ih =>
    rw [insert] at h
    split at h
    · simpa using h
    · split at h
      · obtain rfl | hrest := List.mem_cons.1 h
        · exact .inl rfl
        · exact .inr (List.mem_cons_of_mem _ hrest)
      · obtain rfl | hrest := List.mem_cons.1 h
        · exact .inr List.mem_cons_self
        · exact (ih hrest).imp_right (List.mem_cons_of_mem _)

theorem Sorted.insert (h : Sorted m) (key : String) (value : α) : Sorted (m.insert key value) := by
  -- The key goes in front of the first greater one, or takes the place of its own entry.
  induction m with
  | nil => exact List.pairwise_singleton _ _
  | cons q rest ih =>
    obtain ⟨hfront, hrest⟩ := sorted_cons.1 h
    rw [SortedMap.insert]
    split
    · rename_i hbefore
      refine sorted_cons.2 ⟨fun p hp => ?_, h⟩
      obtain rfl | hp := List.mem_cons.1 hp
      · exact hbefore
      · exact String.lt_trans hbefore (hfront p hp)
    · rename_i hbefore
      split
      · rename_i hsame
        subst hsame
        exact sorted_cons.2 ⟨hfront, hrest⟩
      · rename_i hother
        have hbehind : q.1 < key := by
          apply Decidable.byContradiction
          intro hnot
          exact hother (String.le_antisymm (String.not_lt.1 hnot) (String.not_lt.1 hbefore))
        refine sorted_cons.2 ⟨fun p hp => ?_, ih hrest⟩
        obtain rfl | hp := eq_or_mem_of_mem_insert hp
        · exact hbehind
        · exact hfront p hp

/-- A pair behind all others is added at the end. -/
theorem insert_eq_append {key : String} (h : ∀ p ∈ m, p.1 < key) (value : α) :
    m.insert key value = m ++ [(key, value)] := by
  induction m with
  | nil => rfl
  | cons q rest ih =>
    have hq := h q List.mem_cons_self
    have hne : key ≠ q.1 := by
      rintro rfl
      exact String.lt_irrefl _ hq
    rw [insert, if_neg (String.lt_asymm hq), if_neg hne,
      ih fun p hp => h p (List.mem_cons_of_mem _ hp)]
    rfl

/-- Sorted pairs behind a map are added at its end one after the other. -/
theorem foldl_insert_of_sorted (m pairs : SortedMap α) (h : Sorted (m ++ pairs)) :
    pairs.foldl (fun m p => m.insert p.1 p.2) m = m ++ pairs := by
  induction pairs generalizing m with
  | nil => simp
  | cons p rest ih =>
    have hbehind : ∀ q ∈ m, q.1 < p.1 := fun q hq =>
      (List.pairwise_append.1 h).2.2 q hq p List.mem_cons_self
    rw [List.foldl_cons, insert_eq_append hbehind, ih _ (by simpa using h), List.append_assoc]
    rfl

/-- Sorted pairs are the map that is made from them. -/
theorem ofList_of_sorted (h : Sorted m) : ofList m = m := by
  simpa [ofList] using foldl_insert_of_sorted [] m (by simpa using h)

/-! ## Finding keys -/

/-- A key that is found stands in the map. -/
theorem mem_of_find?_eq_some {key : String} {value : α} (h : m.find? key = some value) :
    (key, value) ∈ m := by
  induction m with
  | nil => cases h
  | cons p rest ih =>
    rw [find?] at h
    split at h
    · rename_i hkey
      cases h
      subst hkey
      exact List.mem_cons_self
    · exact List.mem_cons_of_mem _ (ih h)

/-- A pair of a sorted map is what is found under its key. -/
theorem Sorted.find?_eq_some_iff (h : Sorted m) {key : String} {value : α} :
    m.find? key = some value ↔ (key, value) ∈ m := by
  refine ⟨mem_of_find?_eq_some, fun hmem => ?_⟩
  induction m with
  | nil => cases hmem
  | cons p rest ih =>
    obtain ⟨hbehind, hrest⟩ := sorted_cons.1 h
    rw [find?]
    obtain rfl | hmem := List.mem_cons.1 hmem
    · exact if_pos rfl
    · rw [if_neg (String.ne_of_lt (hbehind _ hmem))]
      exact ih hrest hmem

/-- A key in front of all others is not found. -/
theorem find?_eq_none_of_forall_lt {key : String} (h : ∀ p ∈ m, key < p.1) :
    m.find? key = none := by
  cases hfind : m.find? key with
  | none => rfl
  | some value => exact absurd (h _ (mem_of_find?_eq_some hfind)) (String.lt_irrefl key)

end ChunkedArray.SortedMap
