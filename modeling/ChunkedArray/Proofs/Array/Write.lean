import ChunkedArray.Array.Write
import ChunkedArray.Proofs.Array.Sound
import Mathlib.Data.List.Sort

/-!
# Writing regions

A chunk that holds selected elements is read, patched and replaced once. A patch changes the places
of the selected elements and no other place, so padding and neighbouring elements stay. Behind the
last chunk the array shows the value at every selected element and what it showed before at every
other one, and its store has counted one change for every patched chunk.
-/

namespace ChunkedArray

namespace Geometry

variable {g : Geometry} {source : ChunkSource} {s : Store} {sel : Selection} {fill : Bool}
  {value : Bytes} {contents : Nat → Bytes}

/-! ## One chunk -/

/-- Where the item for the output element of a number starts in the value. -/
def valueStart (g : Geometry) (fill : Bool) (o : Nat) : Nat :=
  if fill then 0 else o * g.itemsize

/-- The item that a value holds for the selected element at coordinates `q` of the selection. -/
def valueItem (g : Geometry) (sel : Selection) (fill : Bool) (value : Bytes) (q : List Nat) :
    Bytes :=
  value.slice (g.valueStart fill (sel.shape.flatten q)) g.itemsize

/-- One item is copied over several places. -/
theorem fillItems_eq_copyItems (itemsize : Nat) (value out : Bytes) (inner n : Nat) :
    fillItems itemsize value out inner n =
      Bytes.copyItems itemsize value out ((List.range n).map fun i => (inner + i, 0)) := by
  induction n generalizing out inner with
  | zero => rfl
  | succ n ih =>
    rw [fillItems, ih, List.range_succ_eq_map, List.map_cons, Bytes.copyItems_cons, List.map_map]
    congr 1
    refine List.map_congr_left fun i _ => ?_
    rw [Function.comp_apply, Nat.add_right_comm]
    rfl

/-- A patch copies the items of the value to the places of their elements. -/
theorem patch_eq_copyItems (raw : Bytes) (runs : List Run) :
    patch g.itemsize fill value raw runs =
      Bytes.copyItems g.itemsize value raw
        ((runs.flatMap Run.pairs).map fun p => (p.2, g.valueStart fill p.1)) := by
  apply Bytes.foldl_runs
  intro out r _
  rw [Run.pairs, List.map_map]
  cases fill with
  | true =>
    rw [if_pos rfl, fillItems_eq_copyItems]
    rfl
  | false =>
    rw [if_neg Bool.false_ne_true, Bytes.blit_items]
    rfl

/-- The bytes of a chunk with a value written over what it holds of a selection. -/
def patched (g : Geometry) (sel : Selection) (fill : Bool) (value : Bytes)
    (contents : Nat → Bytes) (i : Nat) : Bytes :=
  match sel.hits (g.grid.chunkBox i) with
  | none => contents i
  | some hits => patch g.itemsize fill value (contents i)
      (Run.ofHits hits sel.shape.strides g.chunks.strides)

theorem size_patched (i : Nat) :
    (g.patched sel fill value contents i).size = (contents i).size := by
  rw [patched]
  cases sel.hits (g.grid.chunkBox i) with
  | none => rfl
  | some hits =>
    dsimp only
    rw [patch_eq_copyItems, Bytes.size_copyItems]

section Items

variable (hg : g.Regular) (hsel : sel.Fits g.shape)
  (hsize : ∀ i < g.nchunks, (contents i).size = g.chunkSize)

include hg hsize in
theorem place_lt_size {c : List Nat} (hc : g.shape.Holds c) {k : Nat} (hk : k < g.itemsize) :
    g.placeOf c * g.itemsize + k < (contents (g.grid.chunkOf c)).size := by
  rw [hsize _ (holds_chunkOf hg hc).1, chunkSize]
  have hplace : (g.placeOf c + 1) * g.itemsize ≤ g.chunks.size * g.itemsize :=
    Nat.mul_le_mul_right _ (placeOf_lt hg hc)
  rw [Nat.succ_mul] at hplace
  omega

include hg hsel hsize in
/-- A selected element shows its item of the value. -/
theorem itemAt_patched {q : List Nat} (hq : sel.shape.Holds q)
    (hvalue : g.valueStart fill (sel.shape.flatten q) + g.itemsize ≤ value.size) :
    g.itemAt (g.patched sel fill value contents) (sel.position q) =
      g.valueItem sel fill value q := by
  have hc := Selection.holds_position hsel hq
  obtain ⟨hlt, hbox⟩ := holds_chunkOf hg hc
  obtain ⟨hlen, -⟩ := length_chunkBox hg hsel hlt
  have hpatched : ∀ i < g.nchunks, (g.patched sel fill value contents i).size = g.chunkSize :=
    fun i hi => by rw [size_patched, hsize i hi]
  have hitem := size_itemAt hg hpatched hc
  refine Bytes.ext_getD ?_ fun k hk => ?_
  · rw [hitem, valueItem, Bytes.size_slice]
    omega
  · rw [hitem] at hk
    rw [itemAt, Bytes.getD_item _ _ _ _ hk, valueItem, Bytes.getD_slice, if_pos hk, patched]
    cases hhits : sel.hits (g.grid.chunkBox (g.grid.chunkOf (sel.position q))) with
    | none => exact absurd hbox (Selection.not_holds_of_hits_eq_none hhits hq)
    | some hits =>
      obtain ⟨rfl, -⟩ := Selection.eq_of_hits_eq_some hhits
      dsimp only
      rw [patch_eq_copyItems]
      exact Selection.getD_copyIn_hits hsel hlen (chunkBox_fits hg hlt) hk _ _
        (g.valueStart fill) hq
        hbox (place_lt_size hg hsize hc hk)

include hg hsel hsize in
/-- An element that is not selected shows what it showed before. -/
theorem itemAt_patched_of_not_selected {c : List Nat} (hc : g.shape.Holds c)
    (hmiss : ∀ q, sel.shape.Holds q → sel.position q ≠ c) :
    g.itemAt (g.patched sel fill value contents) c = g.itemAt contents c := by
  obtain ⟨hlt, hbox⟩ := holds_chunkOf hg hc
  obtain ⟨hlen, -⟩ := length_chunkBox hg hsel hlt
  refine Bytes.ext_getD ?_ fun k hk => ?_
  · rw [size_itemAt hg (fun i hi => by rw [size_patched, hsize i hi]) hc,
      size_itemAt hg hsize hc]
  · rw [size_itemAt hg (fun i hi => by rw [size_patched, hsize i hi]) hc] at hk
    rw [itemAt, itemAt, Bytes.getD_item _ _ _ _ hk, Bytes.getD_item _ _ _ _ hk, patched]
    cases hhits : sel.hits (g.grid.chunkBox (g.grid.chunkOf c)) with
    | none => rfl
    | some hits =>
      obtain ⟨rfl, -⟩ := Selection.eq_of_hits_eq_some hhits
      dsimp only
      rw [patch_eq_copyItems]
      have hfits := chunkBox_fits hg hlt
      refine Selection.getD_copyIn_hits_of_miss hlen hfits hk _ _ (g.valueStart fill)
        (Box.holds_layout hfits hbox) fun q hq hqbox hlocal => hmiss q hq ?_
      exact Box.toLocal_inj hqbox hbox hlocal

end Items

/-! ## Row of chunks -/

/-- A store whose slots hold the bytes of the chunks of a geometry and can be overwritten. -/
structure Overwritable (g : Geometry) (contents : Nat → Bytes) (s : Store) : Prop where
  nchunks : s.nchunks = g.nchunks
  typesize : 0 < s.codec.typesize
  block : 0 < g.nchunks → Chunk.chosenBlockSize g.chunkSize s.codec < 2 ^ 32
  holds : ∀ i < g.nchunks, s.SlotHolds i (contents i)
  size : ∀ i < g.nchunks, (contents i).size = g.chunkSize

/-- The bytes of the chunks after those in a list have been patched. -/
def patchedIn (g : Geometry) (sel : Selection) (fill : Bool) (value : Bytes)
    (contents : Nat → Bytes) (chunks : List Nat) (i : Nat) : Bytes :=
  if i ∈ chunks then g.patched sel fill value contents i else contents i

/-- Whether a chunk holds something of a selection. -/
def isHit (g : Geometry) (sel : Selection) (i : Nat) : Bool :=
  (sel.hits (g.grid.chunkBox i)).isSome

/-- A chunk that holds something of a selection is overwritten with its patched bytes. -/
theorem Overwritable.run_patch (h : g.Overwritable contents s) (source : ChunkSource)
    (fill : Bool) (value : Bytes) {i : Nat} (hi : i < g.nchunks)
    {hits : List (List (Nat × Nat))} (hhits : sel.hits (g.grid.chunkBox i) = some hits) :
    ∃ s', Action.run (Store.replace source i (g.patched sel fill value contents i)) s = (.ok (), s') ∧
      s.SameKind s' ∧ s'.revision = s.revision + 1 ∧
      g.Overwritable (g.patchedIn sel fill value contents [i]) s' := by
  have hsize : (g.patched sel fill value contents i).size = (contents i).size := size_patched i
  obtain ⟨s', hrun, hkind, hrevision, hnchunks, hslot, hother⟩ := (h.holds i hi).run_replace
    source hsize h.typesize (by
      rw [hsize, h.size i hi]
      exact h.block (by omega))
  refine ⟨s', hrun, hkind, hrevision, hnchunks.trans h.nchunks, ?_, ?_, fun j hj => ?_,
    fun j hj => ?_⟩
  · rw [hkind.codec]
    exact h.typesize
  · rw [hkind.codec]
    exact h.block
  · by_cases hij : j = i
    · subst hij
      rwa [patchedIn, if_pos List.mem_cons_self]
    · rw [patchedIn, if_neg (by simpa using hij)]
      exact (h.holds j hj).congr (hother j hij)
  · rw [patchedIn]
    split
    · rw [size_patched, h.size j hj]
    · exact h.size j hj

theorem patchedIn_nil : g.patchedIn sel fill value contents [] = contents := by
  funext i
  rw [patchedIn, if_neg List.not_mem_nil]

/-- Patching the rest of a list does not read what was written to the first chunk. -/
theorem patchedIn_patchedIn {i : Nat} {rest : List Nat} (hfresh : i ∉ rest) :
    g.patchedIn sel fill value (g.patchedIn sel fill value contents [i]) rest =
      g.patchedIn sel fill value contents (i :: rest) := by
  funext j
  rw [patchedIn, patchedIn.eq_def g sel fill value contents (i :: rest)]
  simp only [List.mem_cons]
  by_cases hj : j ∈ rest
  · have hne : j ≠ i := fun h => hfresh (h ▸ hj)
    have hsame : g.patchedIn sel fill value contents [i] j = contents j :=
      if_neg (by simpa using hne)
    rw [if_pos hj, if_pos (Or.inr hj), patched, patched, hsame]
  · simp only [patchedIn, hj, if_false, or_false, List.mem_singleton]

/-- A chunk that holds nothing of the selection stays as it is. -/
theorem patchedIn_cons_of_miss {i : Nat} (hmiss : sel.hits (g.grid.chunkBox i) = none)
    (rest : List Nat) :
    g.patchedIn sel fill value contents (i :: rest) = g.patchedIn sel fill value contents rest := by
  funext j
  simp only [patchedIn, List.mem_cons]
  by_cases hj : j ∈ rest
  · rw [if_pos hj, if_pos (Or.inr hj)]
  · by_cases hji : j = i
    · subst hji
      rw [if_pos (Or.inl rfl), if_neg hj, patched, hmiss]
    · rw [if_neg hj, if_neg (by simp [hj, hji])]

/-- Every chunk of a list without repetitions is patched once. -/
theorem Overwritable.run_patchChunks (source : ChunkSource) (fill : Bool) (value : Bytes)
    {chunks : List Nat} (h : g.Overwritable contents s)
    (hlt : ∀ i ∈ chunks, i < g.nchunks) (hnodup : chunks.Nodup) :
    ∃ s', Action.run (patchChunks g source sel fill value chunks) s = (.ok (), s') ∧
      s.SameKind s' ∧ s'.revision = s.revision + chunks.countP (g.isHit sel) ∧
      g.Overwritable (g.patchedIn sel fill value contents chunks) s' := by
  -- The store stays one that can be overwritten, with the patched bytes as its contents.
  induction chunks generalizing s contents with
  | nil => exact ⟨s, rfl, .refl s, rfl, patchedIn_nil.symm ▸ h⟩
  | cons i rest ih =>
    obtain ⟨hfresh, hnodup⟩ := List.nodup_cons.1 hnodup
    have hi := hlt i List.mem_cons_self
    have hlt' : ∀ j ∈ rest, j < g.nchunks := fun j hj => hlt j (List.mem_cons_of_mem _ hj)
    cases hhits : sel.hits (g.grid.chunkBox i) with
    | none =>
      obtain ⟨s', hrun, hkind, hrevision, hover⟩ := ih h hlt' hnodup
      refine ⟨s', ?_, hkind, ?_, patchedIn_cons_of_miss hhits rest ▸ hover⟩
      · rw [patchChunks, hhits, hrun]
      · rw [hrevision, List.countP_cons_of_neg (by simp [isHit, hhits])]
    | some hits =>
      obtain ⟨s₁, hrun₁, hkind₁, hrevision₁, hover₁⟩ :=
        h.run_patch source fill value hi hhits
      obtain ⟨s', hrun, hkind, hrevision, hover⟩ := ih hover₁ hlt' hnodup
      rw [patchedIn_patchedIn hfresh] at hover
      refine ⟨s', ?_, hkind₁.trans hkind, ?_, hover⟩
      · rw [patched, hhits] at hrun₁
        rw [patchChunks, hhits]
        dsimp only
        rw [Action.run_bind_of_ok (h.holds i hi).run_getChunk, Action.run_bind_of_ok hrun₁, hrun]
      · rw [hrevision, hrevision₁, List.countP_cons_of_pos (by simp [isHit, hhits])]
        omega

/-! ## Counting chunks -/

/-- The number of chunks that hold a selected element. -/
def touched (g : Geometry) (sel : Selection) : Nat :=
  (List.range g.nchunks).countP fun i =>
    sel.coords.any fun c => decide ((g.grid.chunkBox i).Holds c)

/-- A chunk has hits if it holds a selected element. -/
theorem isHit_iff (hg : g.Regular) (hsel : sel.Fits g.shape) {i : Nat} (hi : i < g.nchunks) :
    g.isHit sel i = true ↔ ∃ q, sel.shape.Holds q ∧ (g.grid.chunkBox i).Holds (sel.position q) := by
  rw [isHit, Option.isSome_iff_exists]
  constructor
  · rintro ⟨hits, hhits⟩
    exact Selection.exists_of_hits_eq_some (length_chunkBox hg hsel hi).1 hhits
  · rintro ⟨q, hq, hbox⟩
    cases hhits : sel.hits (g.grid.chunkBox i) with
    | none => exact absurd hbox (Selection.not_holds_of_hits_eq_none hhits hq)
    | some hits => exact ⟨hits, rfl⟩

/-- A chunk has hits exactly if some selected element lies in its box. -/
theorem any_holds_eq_isHit (hg : g.Regular) (hsel : sel.Fits g.shape) {i : Nat} (hi : i < g.nchunks) :
    (sel.coords.any fun c => decide ((g.grid.chunkBox i).Holds c)) = g.isHit sel i := by
  rw [Bool.eq_iff_iff, isHit_iff hg hsel hi, List.any_eq_true]
  constructor
  · rintro ⟨c, hc, hbox⟩
    obtain ⟨q, hq, rfl⟩ := Selection.mem_coords.1 hc
    exact ⟨q, hq, of_decide_eq_true hbox⟩
  · rintro ⟨q, hq, hbox⟩
    exact ⟨_, Selection.mem_coords.2 ⟨q, hq, rfl⟩, decide_eq_true hbox⟩

theorem touched_eq_countP (hg : g.Regular) (hsel : sel.Fits g.shape) :
    g.touched sel = (List.range g.nchunks).countP (g.isHit sel) :=
  List.countP_congr fun i hi => by rw [any_holds_eq_isHit hg hsel (List.mem_range.1 hi)]

/-- Nothing is touched if nothing is selected. -/
theorem isHit_eq_false (hg : g.Regular) (hsel : sel.Fits g.shape) (hempty : sel.size = 0) {i : Nat}
    (hi : i < g.nchunks) : g.isHit sel i = false := by
  rw [← Bool.not_eq_true, isHit_iff hg hsel hi]
  rintro ⟨q, hq, -⟩
  exact absurd (Shape.size_pos_of_holds hq) (by rw [← Selection.size]; omega)

/-- The chunks that are visited and hold something are those of the grid that do. -/
theorem filter_intersecting (hg : g.Regular) (hsel : sel.Fits g.shape) (hpos : 0 < sel.size) :
    (g.grid.intersecting sel.boundingBox).filter (g.isHit sel) =
      (List.range g.nchunks).filter (g.isHit sel) := by
  have hascending := ChunkGrid.pairwise_intersecting hg.grid (Selection.boundingBox_inside hsel hpos)
  refine (hascending.filter _).eq_of_mem_iff (List.pairwise_lt_range.filter _) fun i => ?_
  rw [List.mem_filter, List.mem_filter, List.mem_range]
  refine and_congr_left fun hhit => ?_
  constructor
  · exact lt_of_mem_intersecting hg hsel hpos
  · intro hi
    obtain ⟨hits, hhits⟩ := Option.isSome_iff_exists.1 hhit
    exact (mem_intersecting_of_hits hg hsel hi hhits).2

/-- The chunks that are patched are those that hold a selected element. -/
theorem countP_intersecting (hg : g.Regular) (hsel : sel.Fits g.shape) (hpos : 0 < sel.size) :
    (g.grid.intersecting sel.boundingBox).countP (g.isHit sel) = g.touched sel := by
  rw [touched_eq_countP hg hsel, List.countP_eq_length_filter, filter_intersecting hg hsel hpos,
    List.countP_eq_length_filter]

end Geometry

namespace NDArray

variable {a : NDArray} {contents contents' : Nat → Bytes} {region : Region} {sel : Selection}
  {value : Bytes}

theorem Sound.overwritable (h : a.Sound contents) : a.geometry.Overwritable contents a.store :=
  ⟨h.nchunks, h.typesize, h.block, h.holds, h.size⟩

/-- Only the chunks of the grid count. -/
theorem Sound.congr (h : a.Sound contents)
    (heq : ∀ i < a.geometry.nchunks, contents i = contents' i) : a.Sound contents' :=
  ⟨h.regular, h.grown, h.nchunks, h.typesize, h.block, fun i hi => heq i hi ▸ h.holds i hi,
    fun i hi => heq i hi ▸ h.size i hi⟩

/-! ## Writing a region -/

/-- A value of the right size for a strictly resolved region is written to the chunks that the
selection meets. -/
theorem run_writeRegion_eq {g : Geometry} (source : ChunkSource) (s : Store)
    (hsel : region.resolveStrict g.shape = .ok sel)
    (hvalue : value.size = sel.size * g.itemsize ∨ value.size = g.itemsize) :
    Action.run (g.writeRegion source region value) s =
      Action.run (if (!sel.isEmpty) = true then
        g.patchChunks source sel (value.size == g.itemsize) value
          (g.grid.intersecting sel.boundingBox) else pure ()) s := by
  have hlength : ¬ (value.size ≠ sel.size * g.itemsize ∧
      (!(value.size == g.itemsize)) = true) := by
    rintro ⟨hitems, hone⟩
    rcases hvalue with h | h
    · exact hitems h
    · simp [h] at hone
  rw [Geometry.writeRegion, hsel]
  simp only [Action.run_bind, Action.run_liftM, if_neg hlength]

/-- A region that reaches outside of the array is refused. -/
theorem writeRegion_of_unresolved {e : Error} (fs : Files) (value : Bytes)
    (hsel : region.resolveStrict a.shape = .error e) : a.writeRegion fs region value = (.error e, a) := by
  have hsel' : region.resolveStrict a.geometry.shape = .error e := hsel
  have hrun : Action.run (a.geometry.writeRegion (a.store.chunkSource fs) region value) a.store =
      (.error e, a.store) := by
    rw [Geometry.writeRegion, hsel', Action.run_bind, Action.run_liftM]
  exact congrArg (fun r => (r.1, { a with store := r.2 })) hrun

/-- A value with neither the items of a region nor a single one is refused. -/
theorem writeRegion_of_length (fs : Files) (hsel : region.resolveStrict a.shape = .ok sel)
    (hvalue : ¬ (value.size = sel.size * a.geometry.itemsize ∨ value.size = a.geometry.itemsize)) :
    a.writeRegion fs region value = (.error (.shape (.regionLength value.size sel.shape a.dtype)), a) := by
  have hsel' : region.resolveStrict a.geometry.shape = .ok sel := hsel
  have hlength : value.size ≠ sel.size * a.geometry.itemsize ∧
      (!(value.size == a.geometry.itemsize)) = true := by
    rw [not_or] at hvalue
    exact ⟨hvalue.1, by simpa using hvalue.2⟩
  have hrun : Action.run (a.geometry.writeRegion (a.store.chunkSource fs) region value) a.store =
      (.error (.shape (.regionLength value.size sel.shape a.dtype)), a.store) := by
    rw [Geometry.writeRegion, hsel']
    simp only [Action.run_bind, Action.run_liftM, if_pos hlength, Action.run_throw]
    rfl
  exact congrArg (fun r => (r.1, { a with store := r.2 })) hrun

/-- A value of the right size is written over every region inside the array. -/
theorem Sound.writeRegion_eq (h : a.Sound contents) (fs : Files)
    (hsel : region.resolveStrict a.shape = .ok sel)
    (hvalue : value.size = sel.size * a.geometry.itemsize ∨ value.size = a.geometry.itemsize) :
    ∃ a', a.writeRegion fs region value = (.ok (), a') ∧ a'.geometry = a.geometry ∧
      a'.Sound (a.geometry.patched sel (value.size == a.geometry.itemsize) value contents) ∧
      a'.store.revision = a.store.revision + a.geometry.touched sel ∧
      a.store.SameKind a'.store := by
  have hfits : sel.Fits a.geometry.shape := Region.fits_of_resolveWith hsel
  have hrun := run_writeRegion_eq (a.store.chunkSource fs) a.store hsel hvalue
  by_cases hempty : sel.size = 0
  · -- Nothing is selected: the array stays as it is.
    have hisEmpty : ¬ (!sel.isEmpty) = true := by simp [Selection.isEmpty, hempty]
    have hcount : a.geometry.touched sel = 0 := by
      rw [Geometry.touched_eq_countP h.regular hfits, List.countP_eq_zero]
      intro i hi
      simp [Geometry.isHit_eq_false h.regular hfits hempty (List.mem_range.1 hi)]
    rw [if_neg hisEmpty] at hrun
    refine ⟨a, ?_, rfl, h.congr fun i hi => ?_, by rw [hcount, Nat.add_zero], .refl _⟩
    · rw [writeRegion, run]
      exact congrArg (fun r => (r.1, { a with store := r.2 })) hrun
    · have hnone := Geometry.isHit_eq_false h.regular hfits hempty hi
      rw [Geometry.isHit, Option.isSome_eq_false_iff, Option.isNone_iff_eq_none] at hnone
      rw [Geometry.patched, hnone]
  · have hpos : 0 < sel.size := Nat.pos_of_ne_zero hempty
    have hmeets := Selection.boundingBox_inside hfits hpos
    have hisEmpty : (!sel.isEmpty) = true := by simp [Selection.isEmpty, hempty]
    obtain ⟨s', hpatch, hkind, hrevision, hover⟩ := h.overwritable.run_patchChunks
      (a.store.chunkSource fs) (value.size == a.geometry.itemsize) value
      (fun i => Geometry.lt_of_mem_intersecting h.regular hfits hpos)
      ((ChunkGrid.pairwise_intersecting h.regular.grid hmeets).imp fun h => h.ne)
    rw [if_pos hisEmpty, hpatch] at hrun
    refine ⟨{ a with store := s' }, ?_, rfl, ?_, ?_, hkind⟩
    · rw [writeRegion, run]
      exact congrArg (fun r => (r.1, { a with store := r.2 })) hrun
    · refine Sound.congr ⟨h.regular, h.grown.of_sameKind hkind, hover.nchunks, hover.typesize,
        hover.block, hover.holds, hover.size⟩ ?_
      intro i hi
      rw [Geometry.patchedIn]
      split
      · rfl
      · rename_i hout
        cases hhits : sel.hits (a.geometry.grid.chunkBox i) with
        | none => rw [Geometry.patched, hhits]
        | some hits =>
          exact absurd (Geometry.mem_intersecting_of_hits h.regular hfits hi hhits).2 hout
    · rw [← Geometry.countP_intersecting h.regular hfits hpos]
      exact hrevision

/-- A write that is refused leaves the array as it is, and any other one patches its chunks. -/
theorem Sound.writeRegion_cases (h : a.Sound contents) (fs : Files) (region : Region)
    (value : Bytes) :
    (a.writeRegion fs region value).2 = a ∨
      ∃ sel, sel.Fits a.shape ∧ (a.writeRegion fs region value).2.Sound
        (a.geometry.patched sel (value.size == a.geometry.itemsize) value contents) := by
  cases hsel : region.resolveStrict a.shape with
  | error e =>
    rw [writeRegion_of_unresolved fs value hsel]
    exact .inl rfl
  | ok sel =>
    by_cases hvalue : value.size = sel.size * a.geometry.itemsize ∨ value.size = a.geometry.itemsize
    · obtain ⟨a', hrun, -, hsound, -⟩ := h.writeRegion_eq fs hsel hvalue
      rw [hrun]
      exact .inr ⟨sel, Region.fits_of_resolveWith hsel, hsound⟩
    · rw [writeRegion_of_length fs hsel hvalue]
      exact .inl rfl

/-- Elements are written as their bytes, or they are refused. -/
theorem writeTyped_cases (a : NDArray) (fs : Files) (region : Region) (values : TypedArray) :
    (a.writeTyped fs region values).2 = a ∨
      (a.writeTyped fs region values).2 = (a.writeRegion fs region values.toBytes).2 := by
  change { a with store := (Action.run (a.geometry.writeTyped _ region values) a.store).2 } = a ∨
    { a with store := (Action.run (a.geometry.writeTyped _ region values) a.store).2 } =
      { a with store := (Action.run (a.geometry.writeRegion _ region values.toBytes) a.store).2 }
  rw [Geometry.writeTyped, Action.run_bind, Action.run_liftM]
  cases a.geometry.dtype.requireKind values.kind with
  | error e => exact .inl rfl
  | ok _ =>
    dsimp only
    rw [Action.run_bind, Action.run_liftM]
    cases region.resolveStrict a.geometry.shape with
    | error e => exact .inl rfl
    | ok sel =>
      dsimp only
      split
      · exact .inl rfl
      · exact .inr rfl

end NDArray

end ChunkedArray
