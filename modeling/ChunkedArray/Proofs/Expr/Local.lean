import ChunkedArray.Expr.Evaluate
import ChunkedArray.Proofs.Shape.Boxes
import ChunkedArray.Proofs.Shape.Broadcast

/-!
# Parts of operands

Over a box of the domain an operand is read over the box that is stretched to it: the whole axis
where its length is one, the span of the box elsewhere. Such local boxes broadcast among each other
as the operands do, also where the box is a single element long, and the local coordinates of a
projected element are its projected local coordinates.
-/

namespace ChunkedArray.Expr

open ChunkedArray.Shape

/-- The span of an axis of an operand. -/
def operandSpan (n : Nat) (s : Span) : Span :=
  if n = 1 then ⟨0, 1⟩ else s

variable {a b s t shape : Shape} {box inner front back : Box} {c : List Nat}

theorem operandBox_eq (shape : Shape) (box : Box) :
    operandBox shape box = List.zipWith operandSpan shape (box.drop (box.length - shape.length)) :=
  rfl

theorem operandBox_append (h : back.length = shape.length) :
    operandBox shape (front ++ back) = List.zipWith operandSpan shape back := by
  rw [operandBox_eq, List.length_append, h, Nat.add_sub_cancel, List.drop_left]

/-! ## Shapes -/

/-- The local part of an operand stretches to the box. -/
theorem operandBox_stretches (h : shape.length ≤ box.length) :
    (operandBox shape box).shape.Stretches box.shape := by
  obtain ⟨front, back, rfl, hback⟩ := exists_append_of_length_le h
  rw [operandBox_append hback, Box.shape, Box.shape, List.map_append]
  refine ⟨front.map Span.length, back.map Span.length, rfl, ?_⟩
  clear h
  induction shape generalizing back with
  | nil =>
    obtain rfl := List.length_eq_zero_iff.1 hback
    exact List.Forall₂.nil
  | cons n shape ih =>
    obtain ⟨span, back, rfl⟩ := List.exists_cons_of_length_eq_add_one hback
    refine List.Forall₂.cons ?_ (ih _ (by simpa using hback))
    rw [operandSpan]
    split
    · exact .inr rfl
    · exact .inl rfl

/-- Local parts stretch to each other as the operands do. -/
theorem stretches_operandBox (h : a.Stretches b) (hlen : b.length ≤ box.length) :
    (operandBox a box).shape.Stretches (operandBox b box).shape := by
  obtain ⟨front, back, rfl, hback⟩ := h
  obtain ⟨box₀, box₁, rfl, hbox₁⟩ := exists_append_of_length_le hlen
  rw [operandBox_append hbox₁]
  rw [List.length_append] at hbox₁
  obtain ⟨box₂, box₃, rfl, hbox₃⟩ := exists_append_of_length_le (l := back) (r := box₁) (by omega)
  rw [List.length_append] at hbox₁
  rw [List.zipWith_append (by omega), ← List.append_assoc,
    operandBox_append (by rw [hbox₃, hback.length_eq]), Box.shape, Box.shape, List.map_append]
  refine ⟨_, _, rfl, ?_⟩
  clear hbox₁ hlen
  induction hback generalizing box₃ with
  | nil => exact List.Forall₂.nil
  | cons hm _ ih =>
    obtain ⟨span, box₃, rfl⟩ := List.exists_cons_of_length_eq_add_one hbox₃
    refine List.Forall₂.cons ?_ (ih _ (by simpa using hbox₃))
    rcases hm with rfl | rfl
    · exact .inl rfl
    · exact .inr rfl

/-- Spans behind as many as there are axes do not count. -/
theorem zipWith_operandSpan_append {l : List Nat} {x : Box} (hl : x.length = l.length) (y : Box) :
    List.zipWith (fun n s => (operandSpan n s).length) l (x ++ y) =
      List.zipWith (fun n s => (operandSpan n s).length) l x := by
  induction l generalizing x with
  | nil => rfl
  | cons n l ih =>
    obtain ⟨span, x, rfl⟩ := List.exists_cons_of_length_eq_add_one hl
    rw [List.cons_append, List.zipWith_cons_cons, List.zipWith_cons_cons, ih (by simpa using hl)]

theorem reverse_shape_operandBox (h : shape.length ≤ box.length) :
    (operandBox shape box).shape.reverse =
      List.zipWith (fun n s => (operandSpan n s).length) shape.reverse box.reverse := by
  obtain ⟨front, back, rfl, hback⟩ := exists_append_of_length_le h
  rw [operandBox_append hback, Box.shape, List.map_zipWith, List.reverse_zipWith hback.symm,
    List.reverse_append, zipWith_operandSpan_append (by simpa using hback)]

/-- Aligned at the start, the common shape of spans of operands is that of the span of the common
shape. -/
theorem broadcastReversed_operandSpan (h : broadcastReversed a b = some s)
    (hlen : s.length ≤ box.length) :
    broadcastReversed (List.zipWith (fun n s => (operandSpan n s).length) a box)
        (List.zipWith (fun n s => (operandSpan n s).length) b box) =
      some (List.zipWith (fun n s => (operandSpan n s).length) s box) := by
  have haxis {m n k : Nat} (hk : broadcastAxis m n = some k) (span : Span) :
      broadcastAxis (operandSpan m span).length (operandSpan n span).length =
        some (operandSpan k span).length := by
    have hone : Span.length ⟨0, 1⟩ = 1 := rfl
    unfold broadcastAxis operandSpan at *
    grind
  induction a generalizing b s box with
  | nil =>
    cases h
    rfl
  | cons m a ih =>
    cases b with
    | nil =>
      cases h
      cases box <;> rfl
    | cons n b =>
      simp only [broadcastReversed, Option.bind_eq_bind, Option.bind_eq_some_iff] at h
      obtain ⟨k, hk, rest, hrest, h⟩ := h
      cases h
      cases box with
      | nil => cases hlen
      | cons span box =>
        have htail := ih hrest (Nat.le_of_succ_le_succ hlen)
        simp only [List.zipWith_cons_cons, broadcastReversed, haxis hk span, htail,
          Option.bind_eq_bind, Option.bind_some]

/-- Local parts have the local part of the common shape as their common shape. -/
theorem broadcast_operandBox (h : broadcast a b = .ok s) (hlen : s.length ≤ box.length) :
    broadcast (operandBox a box).shape (operandBox b box).shape = .ok (operandBox s box).shape := by
  obtain ⟨ha, hb⟩ := stretches_of_broadcast h
  have hreversed : broadcastReversed a.reverse b.reverse = some s.reverse := by
    unfold broadcast broadcast? at h
    generalize broadcastReversed a.reverse b.reverse = r at h ⊢
    cases r with
    | none => cases h
    | some r =>
      cases h
      rw [List.reverse_reverse]
  have hlength : s.reverse.length ≤ box.reverse.length := by simpa using hlen
  have hlocal := broadcastReversed_operandSpan hreversed hlength
  rw [← reverse_shape_operandBox (ha.length_le.trans hlen),
    ← reverse_shape_operandBox (hb.length_le.trans hlen), ← reverse_shape_operandBox hlen] at hlocal
  rw [broadcast, broadcast?, hlocal, Option.map_some, List.reverse_reverse]

/-! ## Boxes -/

/-- The local part of an operand lies inside it. -/
theorem inside_operandBox (h : a.Stretches t) (hbox : box.Inside t) : (operandBox a box).Inside a := by
  obtain ⟨front, back, rfl, hback⟩ := h
  obtain ⟨box₁, box₂, rfl, -, hbox₂⟩ := exists_append_of_forall₂ (List.Forall₂.flip hbox)
  rw [operandBox_append (by rw [← hbox₂.length_eq, hback.length_eq])]
  clear hbox
  induction hback generalizing box₂ with
  | nil => exact List.Forall₂.nil
  | cons hm _ ih =>
    cases hbox₂ with
    | cons hs hrest =>
      refine List.Forall₂.cons ?_ (ih _ hrest)
      rw [operandSpan]
      split
      · next hone => exact hone.ge
      · next hone => exact hs.trans_eq (hm.resolve_right hone).symm

theorem nonempty_operandBox (h : box.Nonempty) : (operandBox shape box).Nonempty := by
  have hdrop : Box.Nonempty (box.drop (box.length - shape.length)) :=
    fun s hs => h s (List.mem_of_mem_drop hs)
  rw [operandBox_eq]
  generalize List.drop (box.length - shape.length) box = back at hdrop
  induction shape generalizing back with
  | nil => exact List.forall_mem_nil _
  | cons n shape ih =>
    cases back with
    | nil => exact List.forall_mem_nil _
    | cons s back =>
      obtain ⟨hs, hrest⟩ := Box.nonempty_cons.1 hdrop
      refine Box.nonempty_cons.2 ⟨?_, ih _ hrest⟩
      rw [operandSpan]
      split
      · exact Nat.one_pos
      · exact hs

/-- The local part of a smaller box lies in that of the box. -/
theorem within_operandBox (h : inner.Within box) :
    (operandBox shape inner).Within (operandBox shape box) := by
  have hdrop := List.forall₂_drop (box.length - shape.length) h
  rw [operandBox_eq, operandBox_eq, h.length_eq]
  generalize List.drop (box.length - shape.length) inner = back at hdrop
  generalize List.drop (box.length - shape.length) box = back' at hdrop
  induction shape generalizing back back' with
  | nil => exact List.Forall₂.nil
  | cons n shape ih =>
    cases hdrop with
    | nil => exact List.Forall₂.nil
    | cons hs hrest =>
      refine List.Forall₂.cons ?_ (ih _ _ hrest)
      unfold operandSpan
      split
      · exact ⟨Nat.le_refl 0, Nat.le_refl 1⟩
      · exact hs

/-- A box that is not empty can be counted exactly if it has fewer elements than a signed word. -/
theorem isCountable_iff (hne : box.Nonempty) :
    box.shape.isCountable = true ↔ box.shape.size < 2 ^ 63 := by
  have hfilter : box.shape.filter (· ≠ 0) = box.shape := by
    refine List.filter_eq_self.2 fun n hn => ?_
    obtain ⟨s, hs, rfl⟩ := List.mem_map.1 hn
    exact decide_eq_true (Nat.sub_ne_zero_of_lt (hne s hs))
  rw [isCountable, decide_eq_true_eq, hfilter]

/-- A box inside a box that can be counted can be counted. -/
theorem isCountable_of_within (h : inner.Within box) (hne : inner.Nonempty)
    (hcount : box.shape.isCountable = true) : inner.shape.isCountable = true := by
  rw [isCountable_iff (h.nonempty hne)] at hcount
  rw [isCountable_iff hne]
  exact (size_le_of_fitsIn h.fitsIn).trans_lt hcount

/-- A box inside a shape that can be counted can be counted. -/
theorem isCountable_of_inside (h : box.Inside t) (hne : box.Nonempty) (hsize : t.size < 2 ^ 63) :
    box.shape.isCountable = true := by
  rw [isCountable_iff hne]
  exact (size_le_of_fitsIn h.fitsIn).trans_lt hsize

/-- The local part of a box that can be counted can be counted. -/
theorem isCountable_operandBox (hlen : shape.length ≤ box.length) (hne : box.Nonempty)
    (hsize : box.shape.size < 2 ^ 63) : (operandBox shape box).shape.isCountable = true := by
  rw [isCountable_iff (nonempty_operandBox hne)]
  refine ((operandBox_stretches hlen).size_le fun n hn => ?_).trans_lt hsize
  exact size_pos_iff.1 (Box.size_pos hne) n hn

/-- Elements of a joined box are joined from elements of its parts. -/
theorem exists_append_of_holds (h : Box.Holds (front ++ back) c) :
    ∃ c₁ c₂, c = c₁ ++ c₂ ∧ front.Holds c₁ ∧ back.Holds c₂ := by
  obtain ⟨c₁, c₂, hc, hfront, hback⟩ := exists_append_of_forall₂ (List.Forall₂.flip h)
  exact ⟨c₁, c₂, hc, List.Forall₂.flip hfront, List.Forall₂.flip hback⟩

/-- A box holds an element only if the local part of an operand holds its projection. -/
theorem holds_operandBox (hlen : shape.length ≤ box.length) (hc : box.Holds c) :
    (operandBox shape box).Holds (project shape c) := by
  obtain ⟨front, back, rfl, hback⟩ := exists_append_of_length_le hlen
  obtain ⟨c₁, c₂, rfl, -, hc₂⟩ := exists_append_of_holds hc
  rw [operandBox_append hback, project_append (by rw [List.Forall₂.length_eq hc₂, hback])]
  clear hlen hc
  induction shape generalizing back c₂ with
  | nil =>
    obtain rfl := List.length_eq_zero_iff.1 hback
    exact List.Forall₂.nil
  | cons n shape ih =>
    cases hc₂ with
    | nil => cases hback
    | cons hi hrest =>
      refine List.Forall₂.cons ?_ (ih _ (by simpa using hback) _ hrest)
      unfold operandSpan projectAxis
      split
      · exact ⟨Nat.le_refl 0, Nat.one_pos⟩
      · exact hi

/-- The local coordinates of a projected element are its projected local coordinates. -/
theorem toLocal_project (hlen : shape.length ≤ box.length) (hc : box.Holds c) :
    (operandBox shape box).toLocal (project shape c) =
      project (operandBox shape box).shape (box.toLocal c) := by
  obtain ⟨front, back, rfl, hback⟩ := exists_append_of_length_le hlen
  obtain ⟨c₁, c₂, rfl, hc₁, hc₂⟩ := exists_append_of_holds hc
  have hlocal : Box.toLocal (front ++ back) (c₁ ++ c₂) = Box.toLocal front c₁ ++ Box.toLocal back c₂ :=
    List.zipWith_append (List.Forall₂.length_eq hc₁)
  rw [hlocal, operandBox_append hback, project_append (by rw [List.Forall₂.length_eq hc₂, hback]),
    project_append (by simp [Box.toLocal, Box.shape, hback, List.Forall₂.length_eq hc₂])]
  clear hlen hc hlocal
  induction shape generalizing back c₂ with
  | nil => rfl
  | cons n shape ih =>
    cases hc₂ with
    | nil => cases hback
    | @cons span i back c₂ hi hrest =>
      have htail := ih _ (by simpa using hback) _ hrest
      simp only [Box.toLocal, Box.shape, List.zipWith_cons_cons, List.map_cons] at htail ⊢
      rw [htail]
      congr 1
      unfold operandSpan projectAxis Span.length
      split
      · rfl
      · split <;> omega

/-- Along the axes of an operand every position of its local part is that of an element of the box. -/
theorem exists_zipWith_projectAxis {back : Box} (hback : back.length = shape.length)
    (hne : back.Nonempty) (hc : Box.Holds (List.zipWith operandSpan shape back) c) :
    ∃ c', Box.Holds back c' ∧ List.zipWith projectAxis shape c' = c := by
  induction shape generalizing back c with
  | nil =>
    obtain rfl := List.length_eq_zero_iff.1 hback
    cases hc
    exact ⟨[], List.Forall₂.nil, rfl⟩
  | cons n shape ih =>
    obtain ⟨s, back, rfl⟩ := List.exists_cons_of_length_eq_add_one hback
    obtain ⟨hs, hne⟩ := Box.nonempty_cons.1 hne
    cases hc with
    | @cons i _ c _ hi hrest =>
      obtain ⟨c₂, hc₂, hproject⟩ := ih (by simpa using hback) hne hrest
      by_cases hn : n = 1
      · -- Along a stretched axis every position is projected to the origin.
        rw [operandSpan, if_pos hn] at hi
        refine ⟨s.start :: c₂, List.Forall₂.cons ⟨Nat.le_refl _, hs⟩ hc₂, ?_⟩
        rw [List.zipWith_cons_cons, hproject, projectAxis, if_pos hn, Nat.lt_one_iff.1 hi.2]
      · rw [operandSpan, if_neg hn] at hi
        refine ⟨i :: c₂, List.Forall₂.cons hi hc₂, ?_⟩
        rw [List.zipWith_cons_cons, hproject, projectAxis, if_neg hn]

/-- Every element of the local part of an operand is the projection of an element of the box. -/
theorem exists_project (hlen : shape.length ≤ box.length) (hne : box.Nonempty)
    (hc : (operandBox shape box).Holds c) : ∃ c', box.Holds c' ∧ project shape c' = c := by
  obtain ⟨front, back, rfl, hback⟩ := exists_append_of_length_le hlen
  rw [operandBox_append hback] at hc
  obtain ⟨hfront, hne'⟩ := List.forall_mem_append.1 hne
  obtain ⟨c₂, hc₂, hproject⟩ := exists_zipWith_projectAxis hback hne' hc
  have horigin := Box.holds_origin hfront
  refine ⟨Box.origin front ++ c₂, List.rel_append horigin hc₂, ?_⟩
  rw [project_append ((List.Forall₂.length_eq hc₂).trans hback), hproject]

end ChunkedArray.Expr
