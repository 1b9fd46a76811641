import ChunkedArray.Bytes
import Mathlib.Tactic.Linarith

/-!
# Copies between byte strings

Byte strings are compared position by position, a position past the end reading as zero. A copy of
many bytes is a row of copies of single items; `copyItems` carries such a row out, and two lemmas
say what it leaves at an item: the last copied content, or what stood there before. Every copying
loop of the library is brought to this form.
-/

namespace ChunkedArray.Bytes

/-- Byte strings of one size that agree at every position are equal. -/
theorem ext_getD {a b : Bytes} (hsize : a.size = b.size)
    (h : ∀ i < a.size, a.getD i 0 = b.getD i 0) : a = b := by
  apply Array.ext hsize
  intro i ha hb
  have hi := h i ha
  rwa [Array.getD_eq_getD_getElem?, Array.getD_eq_getD_getElem?,
    Array.getElem?_eq_getElem ha, Array.getElem?_eq_getElem hb] at hi

/-- A position past the end reads as zero. -/
theorem getD_of_size_le {b : Bytes} {i : Nat} (h : b.size ≤ i) : b.getD i 0 = 0 := by
  rw [Array.getD_eq_getD_getElem?, Array.getElem?_eq_none h]
  rfl

/-- A string given by its bytes shows them. -/
theorem getD_ofFn {n : Nat} (f : Fin n → UInt8) {i : Nat} (hi : i < n) :
    Array.getD (Array.ofFn f) i 0 = f ⟨i, hi⟩ := by
  rw [Array.getD_eq_getD_getElem?, Array.getElem?_ofFn, dif_pos hi]
  rfl

/-- Inside a string a position shows its byte. -/
theorem getD_eq_getElem {b : Bytes} {i : Nat} (hi : i < b.size) : b.getD i 0 = b[i] := by
  rw [Array.getD_eq_getD_getElem?, Array.getElem?_eq_getElem hi]
  rfl

/-- Every position of a run of zeros reads as zero. -/
theorem getD_zeros (n i : Nat) : (zeros n).getD i 0 = 0 := by
  rw [zeros, Array.getD_eq_getD_getElem?, Array.getElem?_replicate]
  split <;> rfl

/-- A part of a byte string shows the bytes behind its start. -/
theorem getD_extract (b : Bytes) (start stop i : Nat) :
    (b.extract start stop).getD i 0 = if i < stop - start then b.getD (start + i) 0 else 0 := by
  simp only [Array.getD_eq_getD_getElem?, Array.getElem?_extract]
  by_cases hi : i < stop - start
  · by_cases hb : start + i < b.size
    · rw [if_pos (by omega), if_pos hi]
    · rw [if_neg (by omega), if_pos hi, Array.getElem?_eq_none (by omega)]
  · rw [if_neg (by omega), if_neg hi]
    rfl

/-- A slice shows the bytes behind its start. -/
theorem getD_slice (b : Bytes) (start len i : Nat) :
    (b.slice start len).getD i 0 = if i < len then b.getD (start + i) 0 else 0 := by
  rw [slice, getD_extract, Nat.add_sub_cancel_left]

/-- A joined string shows its first part and then its second. -/
theorem getD_append (a b : Bytes) (i : Nat) :
    (a ++ b).getD i 0 = if i < a.size then a.getD i 0 else b.getD (i - a.size) 0 := by
  simp only [Array.getD_eq_getD_getElem?, Array.getElem?_append]
  split <;> rfl

/-- A part between two others is found at its place. -/
theorem extract_middle (front b back : Bytes) :
    (front ++ (b ++ back)).extract front.size (front.size + b.size) = b := by
  refine ext_getD ?_ fun i hi => ?_
  · simp only [Array.size_extract, Array.size_append]
    omega
  · simp only [Array.size_extract, Array.size_append] at hi
    rw [getD_extract, if_pos (by omega), getD_append, if_neg (by omega), getD_append,
      if_pos (by omega), Nat.add_sub_cancel_left]

/-- A copy shows the source where it was made and leaves every other position. -/
theorem getD_blit (dst : Bytes) (pos : Nat) (src : Bytes) (start len i : Nat) (hi : i < dst.size) :
    (blit dst pos src start len).getD i 0 =
      if pos ≤ i ∧ i < pos + len then src.getD (start + (i - pos)) 0 else dst.getD i 0 := by
  simp only [Array.getD_eq_getD_getElem?]
  rw [getElem?_blit _ _ _ _ _ _ hi]
  split
  · rw [Array.getD_eq_getD_getElem?]
    rfl
  · rfl

/-- A copy is made in two parts. -/
theorem blit_add (dst : Bytes) (pos : Nat) (src : Bytes) (start m n : Nat) :
    blit dst pos src start (m + n) =
      blit (blit dst pos src start m) (pos + m) src (start + m) n := by
  induction m generalizing dst pos start with
  | zero => simp [blit]
  | succ m ih =>
    rw [Nat.add_right_comm, blit, ih, blit]
    congr 1 <;> omega

/-! ## Items -/

/-- The item number `i` of a row of items of one width. -/
def item (b : Bytes) (width i : Nat) : Bytes :=
  b.slice (i * width) width

/-- Copies single items: every move names the number of the item that is overwritten and the
position in the source where the new content starts. -/
def copyItems (width : Nat) (src out : Bytes) (moves : List (Nat × Nat)) : Bytes :=
  moves.foldl (fun out m => out.blit (m.1 * width) src m.2 width) out

/-- A byte of an item shows the byte of the row. -/
theorem getD_item (b : Bytes) (width i k : Nat) (hk : k < width) :
    (b.item width i).getD k 0 = b.getD (i * width + k) 0 := by
  rw [item, getD_slice, if_pos hk]

/-- An item inside the row has the full width. -/
theorem size_item (b : Bytes) (width i : Nat) (h : (i + 1) * width ≤ b.size) :
    (b.item width i).size = width := by
  have hmul : (i + 1) * width = i * width + width := Nat.succ_mul i width
  rw [item, size_slice]
  omega

/-- Items are equal when they agree byte by byte. -/
theorem item_congr {a b : Bytes} {width i j : Nat} (ha : (i + 1) * width ≤ a.size)
    (hb : (j + 1) * width ≤ b.size)
    (h : ∀ k < width, a.getD (i * width + k) 0 = b.getD (j * width + k) 0) :
    a.item width i = b.item width j := by
  apply ext_getD
  · rw [size_item a width i ha, size_item b width j hb]
  · intro k hk
    rw [size_item a width i ha] at hk
    rw [getD_item a width i k hk, getD_item b width j k hk, h k hk]

/-- A position lies in the item whose number is the quotient. -/
theorem mem_item_iff {width m o k : Nat} (hk : k < width) :
    (m * width ≤ o * width + k ∧ o * width + k < m * width + width) ↔ m = o := by
  constructor
  · rintro ⟨hlow, hhigh⟩
    have hmo : m ≤ o := by
      by_contra h
      have : (o + 1) * width ≤ m * width := Nat.mul_le_mul_right width (by omega)
      rw [Nat.succ_mul] at this
      omega
    have hom : o ≤ m := by
      by_contra h
      have : (m + 1) * width ≤ o * width := Nat.mul_le_mul_right width (by omega)
      rw [Nat.succ_mul] at this
      omega
    exact Nat.le_antisymm hmo hom
  · rintro rfl
    omega

/-- The byte `k` of item `o` after one item was copied. -/
theorem getD_blit_item (out : Bytes) (width m : Nat) (src : Bytes) (start o k : Nat)
    (hk : k < width) (ho : o * width + k < out.size) :
    (out.blit (m * width) src start width).getD (o * width + k) 0 =
      if m = o then src.getD (start + k) 0 else out.getD (o * width + k) 0 := by
  rw [getD_blit _ _ _ _ _ _ ho]
  by_cases hm : m = o
  · rw [if_pos ((mem_item_iff hk).2 hm), if_pos hm, hm, Nat.add_sub_cancel_left]
  · rw [if_neg (fun h => hm ((mem_item_iff hk).1 h)), if_neg hm]

@[simp] theorem copyItems_nil (width : Nat) (src out : Bytes) :
    copyItems width src out [] = out := rfl

@[simp] theorem copyItems_cons (width : Nat) (src out : Bytes) (m : Nat × Nat)
    (moves : List (Nat × Nat)) :
    copyItems width src out (m :: moves) =
      copyItems width src (out.blit (m.1 * width) src m.2 width) moves := rfl

theorem copyItems_append (width : Nat) (src out : Bytes) (moves more : List (Nat × Nat)) :
    copyItems width src out (moves ++ more) =
      copyItems width src (copyItems width src out moves) more :=
  List.foldl_append

@[simp] theorem size_copyItems (width : Nat) (src out : Bytes) (moves : List (Nat × Nat)) :
    (copyItems width src out moves).size = out.size := by
  induction moves generalizing out with
  | nil => rfl
  | cons m moves ih => rw [copyItems_cons, ih, size_blit]

/-- An item that no move names stays as it is. -/
theorem getD_copyItems_of_forall_ne {width : Nat} {src out : Bytes} {moves : List (Nat × Nat)}
    {o k : Nat} (hk : k < width) (hmoves : ∀ m ∈ moves, m.1 ≠ o) :
    (copyItems width src out moves).getD (o * width + k) 0 = out.getD (o * width + k) 0 := by
  by_cases ho : o * width + k < out.size
  · induction moves generalizing out with
    | nil => rfl
    | cons m moves ih =>
      have hne : m.1 ≠ o := hmoves m List.mem_cons_self
      rw [copyItems_cons, ih (fun m' h => hmoves m' (List.mem_cons_of_mem m h)) (by simpa using ho),
        getD_blit_item _ _ _ _ _ _ _ hk ho, if_neg hne]
  · rw [getD_of_size_le (by simpa using ho), getD_of_size_le (by simpa using ho)]

/-- An item shows the content of the moves that name it, if they agree on where it comes from. -/
theorem getD_copyItems_of_mem {width : Nat} {src out : Bytes} {moves : List (Nat × Nat)}
    {o s k : Nat} (hk : k < width) (ho : o * width + k < out.size) (hmem : (o, s) ∈ moves)
    (hsame : ∀ m ∈ moves, m.1 = o → m.2 = s) :
    (copyItems width src out moves).getD (o * width + k) 0 = src.getD (s + k) 0 := by
  -- On the moves: the last one that names the item decides, and all agree on where it comes from.
  induction moves generalizing out with
  | nil => simp at hmem
  | cons m moves ih =>
    rw [copyItems_cons]
    have hrest : ∀ m' ∈ moves, m'.1 = o → m'.2 = s :=
      fun m' h => hsame m' (List.mem_cons_of_mem m h)
    by_cases hlater : ∃ m' ∈ moves, m'.1 = o
    · obtain ⟨m', hm', rfl⟩ := hlater
      have hsrc : m'.2 = s := hrest m' hm' rfl
      exact ih (by simpa using ho) (hsrc ▸ hm') hrest
    · -- No later move names the item, so the first one is the move in question.
      have hne : ∀ m' ∈ moves, m'.1 ≠ o := fun m' hm' h => hlater ⟨m', hm', h⟩
      have hfirst : (o, s) = m := by
        rcases List.mem_cons.1 hmem with h | h
        · exact h
        · exact absurd rfl (hne (o, s) h)
      rw [getD_copyItems_of_forall_ne hk hne, ← hfirst, getD_blit_item _ _ _ _ _ _ _ hk ho,
        if_pos rfl]

end ChunkedArray.Bytes
