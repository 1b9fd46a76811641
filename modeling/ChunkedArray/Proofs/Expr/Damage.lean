import ChunkedArray.Proofs.Array.Damage
import ChunkedArray.Proofs.Expr.Nodes
import ChunkedArray.Proofs.Expr.Slice

/-!
# Damaged operands

To evaluate a region of an expression, the box around the selection is mapped to every operand as its
shape is stretched, and the operands are read inside those images only. So the outcome is the same
whatever became of the chunks outside of them. Two runs are compared, one with the operands as they
were and one with the damaged ones: every node keeps them in step.
-/

namespace ChunkedArray

open ChunkedArray.Action ChunkedArray.Shape

/-! ## Boxes as regions -/

/-- A span selects nothing outside of itself, also where it is cut short. -/
theorem Slice.index_mem_of_resolve_ofSpan {s : Span} {n : Nat} {p : Progression}
    (h : (ofSpan s).resolve false n = .ok p) {k : Nat} (hk : k < p.count) :
    s.start ≤ p.index k ∧ p.index k < s.stop := by
  rw [resolve_ofSpan_eq, Except.ok.injEq] at h
  subst h
  dsimp only [Progression.index] at hk ⊢
  generalize signedLength n = bound at hk ⊢
  have hlow : clamp 0 bound s.start = max 0 (min (s.start : Int) bound) := rfl
  have hhigh : clamp 0 bound s.stop = max 0 (min (s.stop : Int) bound) := rfl
  rw [if_neg (by omega)]
  unfold strideCount at hk
  split at hk
  · omega
  · omega

/-- A box selects nothing outside of itself. -/
theorem Region.holds_of_resolve_ofBox {box : Box} {shape : Shape} {sel : Selection} {q : List Nat}
    (hlen : box.length = shape.length) (h : (ofBox box).resolve shape = .ok sel)
    (hq : sel.shape.Holds q) : box.Holds (sel.position q) := by
  rw [resolve, resolveWith, if_neg (by rw [ofBox, List.length_map, hlen]; omega)] at h
  induction box generalizing shape sel q with
  | nil =>
    obtain rfl := List.length_eq_zero_iff.1 hlen.symm
    cases h
    exact List.Forall₂.nil
  | cons s box ih =>
    obtain ⟨n, shape, rfl⟩ := List.exists_cons_of_length_eq_add_one hlen.symm
    obtain ⟨p, hp, h⟩ := bind_eq_ok.1 h
    obtain ⟨rest, hrest, h⟩ := bind_eq_ok.1 h
    cases h
    cases hq with
    | cons hk hq =>
      exact List.Forall₂.cons (Slice.index_mem_of_resolve_ofSpan hp hk)
        (ih (by simpa using hlen) hrest hq)

/-- A box is read as before if every element in it is needed. -/
theorem NDArray.SameOn.outcome_readBox {needed : List Nat → Prop} {fs fs' : Files} {a a' : NDArray}
    (h : SameOn needed fs fs' a a') {box : Box} (hlen : box.length = a.shape.length)
    (hneeded : ∀ c, box.Holds c → needed c) (part : Projection) :
    outcome (a'.geometry.readBox (a'.store.chunkSource fs') part box) a'.store =
      outcome (a.geometry.readBox (a.store.chunkSource fs) part box) a.store := by
  rw [Geometry.outcome_readBox, Geometry.outcome_readBox, h.geometry]
  cases hsel : (Region.ofBox box).resolve a.geometry.shape with
  | error e => rfl
  | ok sel =>
    have hparts := h.outcome_readParts (Region.fits_of_resolveWith hsel)
      (fun q hq => hneeded _ (Region.holds_of_resolve_ofBox hlen hsel hq)) part
    rwa [h.geometry] at hparts

/-! ## Workspaces -/

/-- A workspace and what became of it: in each array of certain names, every chunk that holds a needed
element answers as it did. -/
def Workspace.SameOn (reads : String → Prop) (needed : String → List Nat → Prop)
    (w w' : Workspace) : Prop :=
  ∀ name, reads name → Option.Rel (NDArray.SameOn (needed name) w.files w'.files)
    (w.arrays.find? name) (w'.arrays.find? name)

/-- A user function that does the same on related workspaces and keeps them related. -/
def UserFunction.Unaware (R : Workspace → Workspace → Prop) (f : UserFunction) : Prop :=
  ∀ inputs out offset, InStep R Eq (f.body inputs out offset) (f.body inputs out offset)

theorem UserFunction.Unaware.call {R : Workspace → Workspace → Prop} {f : UserFunction}
    (h : f.Unaware R) (inputs : List Operand) (shape : Shape) (offset : List Nat) :
    InStep R Eq (f.call inputs shape offset) (f.call inputs shape offset) := by
  refine (InStep.adapt _ (h inputs _ offset)).bind_self fun out => ?_
  split
  · exact inStep_result (.error _)
  · exact inStep_pure rfl

namespace Expr

/-- An element of an array that lies under a box of the domain: inside what a leaf reads there. -/
def Under (root : Expr) (box : Box) (name : String) (c : List Nat) : Prop :=
  ∃ l ∈ root.leaves, l.name = name ∧ (operandBox l.type.shape box).Holds c

/-- An element of an array that lies under the bounding box of a region. -/
def Needs (root : Expr) (region : Region) (name : String) (c : List Nat) : Prop :=
  ∃ sel, region.resolve root.shape = .ok sel ∧ root.Under sel.boundingBox name c

/-- Two workspaces in which the arrays of an expression have the shapes of its leaves and are the same
where it matters. -/
structure SameFor (root : Expr) (needed : String → List Nat → Prop) (w w' : Workspace) : Prop where
  same : w.SameOn (· ∈ root.arrays) needed w'
  shapes : ∀ l ∈ root.leaves, ∀ a, w.arrays.find? l.name = some a → a.shape = l.type.shape

variable {root e : Expr} {needed : String → List Nat → Prop} {w₀ w w' : Workspace} {box : Box}
variable {params : EvalParams} {region : Region}

/-! ## Reading operands -/

/-- To read both arrays of a name keeps the workspaces the same where it matters. -/
theorem SameFor.insert (h : root.SameFor needed w w') {name : String} {a a' b b' : NDArray}
    (ha : w.arrays.find? name = some a) (ha' : w'.arrays.find? name = some a')
    (hb : NDArray.Alike w.files a b) (hb' : NDArray.Alike w'.files a' b') :
    root.SameFor needed { w with arrays := w.arrays.insert name b }
      { w' with arrays := w'.arrays.insert name b' } := by
  constructor
  · intro other hreads
    by_cases hother : other = name
    · subst hother
      have harrays := h.same other hreads
      rw [ha, ha'] at harrays
      dsimp only
      rw [SortedMap.find?_insert_self, SortedMap.find?_insert_self]
      cases harrays with
      | some h => exact .some (h.alike hb hb')
    · dsimp only
      rw [SortedMap.find?_insert_ne _ _ hother, SortedMap.find?_insert_ne _ _ hother]
      exact h.same other hreads
  · intro l hl c hc
    dsimp only at hc
    by_cases hother : l.name = name
    · rw [hother, SortedMap.find?_insert_self, Option.some.injEq] at hc
      subst hc
      rw [← hother] at ha
      exact (congrArg Geometry.shape hb.geometry).trans (h.shapes l hl a ha)
    · rw [SortedMap.find?_insert_ne _ _ hother] at hc
      exact h.shapes l hl c hc

/-- A leaf is read in step if every element under the box is needed. -/
theorem inStep_read {l : Leaf} (hname : l.name ∈ root.arrays) (hl : l ∈ root.leaves)
    (hlen : l.type.shape.length ≤ box.length)
    (hneeded : ∀ c, (operandBox l.type.shape box).Holds c → needed l.name c) :
    InStep (root.SameFor needed) Eq
      (Workspace.onArray l.name fun a fs => a.readBox fs l.part (operandBox l.type.shape box))
      (Workspace.onArray l.name fun a fs => a.readBox fs l.part (operandBox l.type.shape box)) := by
  intro w w' h
  rw [Workspace.run_onArray, Workspace.run_onArray]
  have harrays := h.same l.name hname
  cases ha : w.arrays.find? l.name with
  | none =>
    rw [ha] at harrays
    cases ha' : w'.arrays.find? l.name with
    | none => exact ⟨.error _, h⟩
    | some a' =>
      rw [ha'] at harrays
      cases harrays
  | some a =>
    rw [ha] at harrays
    cases ha' : w'.arrays.find? l.name with
    | none =>
      rw [ha'] at harrays
      cases harrays
    | some a' =>
      rw [ha'] at harrays
      cases harrays with
      | some hsame =>
        have hshape : a.shape = l.type.shape := h.shapes l hl a ha
        have hbox : (operandBox l.type.shape box).length = a.shape.length := by
          rw [operandBox_eq, List.length_zipWith, List.length_drop, hshape]
          omega
        have hread := (hsame.outcome_readBox hbox hneeded l.part).symm
        refine ⟨matches_eq_iff.2 hread, h.insert ha ha' ⟨rfl, ?_⟩ ⟨rfl, ?_⟩⟩
        · exact (Geometry.isQuery_readBox _).kept a.store
        · exact (Geometry.isQuery_readBox _).kept a'.store

/-! ## Evaluation -/

theorem inStep_evalInputs {R : Workspace → Workspace → Prop} {inputs : List Expr}
    (h : ∀ e ∈ inputs, InStep R Eq (eval box e) (eval box e)) (shape : Shape) :
    InStep R Eq (evalInputs box shape inputs) (evalInputs box shape inputs) := by
  induction inputs with
  | nil => exact inStep_pure rfl
  | cons e inputs ih =>
    obtain ⟨he, hinputs⟩ := List.forall_mem_cons.1 h
    rw [evalInputs]
    exact he.bind_self fun x => (inStep_result _).bind_self fun y =>
      (ih hinputs).bind_self fun ys => inStep_pure rfl

/-- A node is evaluated in step over a box under which every element is needed. -/
theorem inStep_eval (hroot : Typed w₀ root) (h : Typed w₀ e) (hleaves : ∀ l ∈ e.leaves, l ∈ root.leaves)
    (hunaware : ∀ f ∈ e.functions, f.Unaware (root.SameFor needed))
    (hlen : e.shape.length ≤ box.length) (hneeded : ∀ name c, root.Under box name c → needed name c) :
    InStep (root.SameFor needed) Eq (eval box e) (eval box e) := by
  have hshorter {shape shape' : Shape} (hstretch : shape.Stretches shape')
      (hlen : shape'.length ≤ box.length) : shape.length ≤ box.length :=
    hstretch.length_le.trans hlen
  -- On the tree of nodes. The arrays are only read at the leaves, where the needed elements agree.
  induction h with
  | @array name part type a ha hg hshape hwidth =>
    have hl := hleaves _ List.mem_cons_self
    obtain ⟨hname, -⟩ := hroot.leaf hl
    rw [eval]
    exact (inStep_read hname hl hlen fun c hc => hneeded name c ⟨_, hl, rfl, hc⟩).bind_self
      fun data => inStep_result _
  | literal value => exact inStep_pure rfl
  | @unary op type x hx hshape hkind ih =>
    have hoperand : x.shape.length ≤ box.length := by
      rw [← hshape]
      exact hlen
    rw [eval]
    exact (ih hleaves hunaware hoperand).bind_self fun x => inStep_result _
  | binary hl hr hshape hkind ihl ihr =>
    obtain ⟨hleavesl, hleavesr⟩ := List.forall_mem_append.1 hleaves
    obtain ⟨hunawarel, hunawarer⟩ := List.forall_mem_append.1 hunaware
    obtain ⟨hls, hrs⟩ := stretches_of_broadcast hshape
    rw [eval]
    exact (ihl hleavesl hunawarel (hshorter hls hlen)).bind_self fun l =>
      (ihr hleavesr hunawarer (hshorter hrs hlen)).bind_self fun r => inStep_result _
  | compare hl hr hshape hkind ihl ihr =>
    obtain ⟨hleavesl, hleavesr⟩ := List.forall_mem_append.1 hleaves
    obtain ⟨hunawarel, hunawarer⟩ := List.forall_mem_append.1 hunaware
    obtain ⟨hls, hrs⟩ := stretches_of_broadcast hshape
    rw [eval]
    exact (ihl hleavesl hunawarel (hshorter hls hlen)).bind_self fun l =>
      (ihr hleavesr hunawarer (hshorter hrs hlen)).bind_self fun r => inStep_result _
  | call hinputs hshape hkind ih =>
    obtain ⟨hf, hunaware⟩ := List.forall_mem_cons.1 hunaware
    rw [eval]
    refine (inStep_evalInputs (fun e he => ?_) _).bind_self fun args => hf.call _ _ _
    exact ih e he (fun l hl => hleaves l (mem_leavesOfAll.2 ⟨e, he, hl⟩))
      (fun f hf => hunaware f (mem_functionsOfAll.2 ⟨e, he, hf⟩)) (hshorter (hshape e he) hlen)

theorem inStep_evalBytes (h : Typed w₀ root)
    (hunaware : ∀ f ∈ root.functions, f.Unaware (root.SameFor needed))
    (hlen : root.shape.length ≤ box.length)
    (hneeded : ∀ name c, root.Under box name c → needed name c) :
    InStep (root.SameFor needed) Eq (evalBytes root box) (evalBytes root box) :=
  (inStep_eval h h (fun _ hl => hl) hunaware hlen hneeded).bind_self fun _ =>
    (inStep_result _).bind_self fun _ => inStep_pure rfl

/-- What lies under a smaller box lies under the box. -/
theorem Under.mono {inner : Box} {name : String} {c : List Nat} (h : root.Under inner name c)
    (hwithin : inner.Within box) : root.Under box name c := by
  obtain ⟨l, hl, hname, hc⟩ := h
  exact ⟨l, hl, hname, (within_operandBox hwithin).holds hc⟩

/-- Pieces of a box are evaluated in step if every element under the box is needed. -/
theorem inStep_evalPieces (h : Typed w₀ root)
    (hunaware : ∀ f ∈ root.functions, f.Unaware (root.SameFor needed)) {grid : ChunkGrid}
    {chunks : List Nat} (hlen : box.length = root.shape.length)
    (hchunks : ∀ i ∈ chunks, (grid.chunkBox i).length = box.length)
    (hneeded : ∀ name c, root.Under box name c → needed name c) :
    InStep (root.SameFor needed) Eq (evalPieces root grid box chunks)
      (evalPieces root grid box chunks) := by
  induction chunks with
  | nil => exact inStep_pure rfl
  | cons i chunks ih =>
    obtain ⟨hi, hchunks⟩ := List.forall_mem_cons.1 hchunks
    have hwithin := Box.within_inter_right hi
    rw [evalPieces]
    refine (inStep_evalBytes h hunaware ?_ fun name c hc => ?_).bind_self fun raw =>
      (ih hchunks).bind_self fun pieces => inStep_pure rfl
    · exact (hwithin.length_eq.trans hlen).ge
    · exact hneeded name c (Under.mono hc hwithin)

/-! ## Regions -/

/-- Both arrays of a name are found. -/
theorem inStep_array {name : String} (hname : name ∈ root.arrays) :
    InStep (root.SameFor needed)
      (fun a a' => ∃ fs fs', NDArray.SameOn (needed name) fs fs' a a')
      (Workspace.array name) (Workspace.array name) := by
  intro w w' h
  have harrays := h.same name hname
  rw [Workspace.run_array, Workspace.run_array, Workspace.lookup, Workspace.lookup]
  refine ⟨?_, h⟩
  dsimp only
  generalize w.arrays.find? name = x at harrays ⊢
  generalize w'.arrays.find? name = y at harrays ⊢
  cases harrays with
  | none => exact .error _
  | some hsame => exact .ok ⟨_, _, hsame⟩

/-- Both runs take the same revisions, of arrays of the expression. -/
theorem inStep_revisions :
    InStep (root.SameFor needed)
      (fun taken taken' => taken = taken' ∧ ∀ entry ∈ taken, entry.1 ∈ root.arrays)
      (revisions root) (revisions root) := by
  refine InStep.mapM fun name hname => (inStep_array hname).bind ?_
  rintro a a' ⟨_, _, hsame⟩
  exact inStep_pure ⟨by rw [hsame.revision], hname⟩

theorem inStep_checkRevisions {taken : List (String × Nat)}
    (htaken : ∀ entry ∈ taken, entry.1 ∈ root.arrays) :
    InStep (root.SameFor needed) Eq (checkRevisions taken) (checkRevisions taken) := by
  refine InStep.forM fun entry hentry => (inStep_array (htaken entry hentry)).bind ?_
  rintro a a' ⟨_, _, hsame⟩
  refine inStep_liftM (matches_eq_iff.2 ?_)
  rw [Store.checkRevision, Store.checkRevision, hsame.revision]

/-- The first arrays give a result the same geometry and codec parameters. -/
theorem inStep_firstArray (params : EvalParams) :
    InStep (root.SameFor needed)
      (fun x y => outputGeometry root params y = outputGeometry root params x)
      (firstArray root) (firstArray root) := by
  rw [firstArray]
  cases harrays : root.arrays with
  | nil => exact inStep_pure rfl
  | cons name names =>
    have hname : name ∈ root.arrays := by
      rw [harrays]
      exact List.mem_cons_self
    refine (inStep_array hname).bind ?_
    rintro a a' ⟨_, _, hsame⟩
    refine inStep_pure ?_
    simp [outputGeometry, Option.filter, NDArray.shape, hsame.geometry, hsame.codec]

/-- A region is evaluated in step if the elements under its bounding box are the needed ones. -/
theorem inStep_materializeRegion (h : Typed w₀ root)
    (hunaware : ∀ f ∈ root.functions, f.Unaware (root.SameFor (root.Needs region))) :
    InStep (root.SameFor (root.Needs region)) Eq (materializeRegion params root region)
      (materializeRegion params root region) := by
  refine inStep_revisions.bind ?_
  rintro taken _ ⟨rfl, htaken⟩
  refine inStep_result_bind fun sel hsel => ?_
  dsimp only
  split
  · exact inStep_result _
  · rename_i hempty
    refine (inStep_firstArray params).bind fun x y hxy => ?_
    rw [hxy]
    refine inStep_result_bind fun ⟨g, codec⟩ hgeometry => ?_
    obtain ⟨hshape, -, -⟩ := of_outputGeometry hgeometry
    have hg := regular_of_outputGeometry hgeometry
    have hfits : sel.Fits g.shape := by
      rw [hshape]
      exact Region.fits_of_resolveWith hsel
    refine (inStep_evalPieces h hunaware ?_ ?_ fun name c hc => ⟨sel, hsel, hc⟩).bind_self
      fun pieces => (inStep_checkRevisions htaken).bind_self fun _ => inStep_result _
    · rw [length_boundingBox, ← hshape]
      exact hfits.length_eq
    · intro i hi
      have hlt := Geometry.lt_of_mem_intersecting hg hfits (Selection.size_pos_iff.2 hempty) hi
      rw [length_boundingBox, (Geometry.length_chunkBox hg hfits hlt).1]

/-- The arrays that an expression was built from have the shapes of its leaves. -/
theorem Typed.shapes (h : Typed w e) {l : Leaf} (hl : l ∈ e.leaves) {a : NDArray}
    (ha : w.arrays.find? l.name = some a) : a.shape = l.type.shape := by
  obtain ⟨-, -, b, hb, -, hshape⟩ := h.leaf hl
  rw [ha, Option.some.injEq] at hb
  rw [hb]
  exact hshape.symm

/-- Damage stays local. What is read of a region of an array is the same, bytes or error, whatever
became of the chunks without a selected element; what is evaluated of a region of an expression is the
same whatever became of the chunks of its operands that do not meet what lies under the bounding box of
the selection. -/
theorem damage_stays_local :
    (∀ (fs fs' : Files) (a a' : NDArray) (region : Region),
      NDArray.SameOn (fun c => ∃ sel, region.resolve a.shape = .ok sel ∧ c ∈ sel.coords) fs fs' a a' →
        (a'.readRegion fs' region).1 = (a.readRegion fs region).1) ∧
    ∀ (root : Expr) (params : EvalParams) (region : Region) (w w' : Workspace), WellBuilt w root →
      (∀ f ∈ root.functions, f.Unaware (root.SameFor (root.Needs region))) →
      w.SameOn (· ∈ root.arrays) (root.Needs region) w' →
        outcome (materializeRegion params root region) w' =
          outcome (materializeRegion params root region) w := by
  refine ⟨fun fs fs' a a' region h => h.readRegion, ?_⟩
  intro root params region w w' hbuilt hunaware hsame
  have hstep := @inStep_materializeRegion _ _ params _ hbuilt.typed hunaware
  exact (hstep.outcome_eq ⟨hsame, fun l hl a ha => hbuilt.typed.shapes hl ha⟩).symm

/-- Of three bytes in chunks of two the second chunk is lost; the first two bytes are read and evaluated
as before. -/
theorem damage_stays_local_three_bytes :
    ∃ x e, NDArray.ofBytes #[1, 2, 3] [3] (.scalar .uint8) { chunks := some [2] } = .ok x ∧
      ofArray "x" x.geometry = .ok e ∧
      ((x.withSlot 1 .reserved).readRegion {} [.range none (some 2) 1]).1 =
        (x.readRegion {} [.range none (some 2) 1]).1 ∧
      outcome (materializeRegion {} e [.range none (some 2) 1])
          { arrays := [("x", x.withSlot 1 .reserved)] } =
        outcome (materializeRegion {} e [.range none (some 2) 1]) { arrays := [("x", x)] } := by
  obtain ⟨x, contents, hx, hgeometry, hsound⟩ := exists_threeBytes
  have hleaf := ofArray_threeBytes hgeometry
  have hresolve {sel : Selection} (h : Region.resolve [.range none (some 2) 1] [3] = .ok sel) :
      sel = [⟨0, 2, 1⟩] := (Except.ok.inj h).symm
  have hlost : Box.Holds (x.geometry.grid.chunkBox 1) = Box.Holds [⟨2, 3⟩] := by
    rw [hgeometry]
    rfl
  have hdisjoint {c : List Nat} (h : Box.Holds [⟨0, 2⟩] c) : ¬ Box.Holds [⟨2, 3⟩] c := by
    intro h'
    cases h with
    | cons hi _ =>
      cases h' with
      | cons hj _ => exact absurd hi.2 (Nat.not_lt.2 hj.1)
  obtain ⟨hread, heval⟩ := damage_stays_local
  refine ⟨x, threeBytes, hx, hleaf, hread _ _ _ _ _ ?_, heval _ _ _ _ _ ?_ ?_ ?_⟩
  · refine NDArray.sameOn_withSlot hsound.regular _ _ ?_
    rintro c ⟨sel, hsel, hc⟩
    obtain ⟨q, hq, rfl⟩ := Selection.mem_coords.1 hc
    have hbounds := Selection.holds_boundingBox (Region.fits_of_resolveWith hsel) hq
    rw [NDArray.shape, hgeometry] at hsel
    rw [hlost]
    obtain rfl := hresolve hsel
    exact hdisjoint hbounds
  · exact .array rfl hsound.regular hleaf
  · exact List.forall_mem_nil _
  · intro name hname
    obtain rfl := List.mem_singleton.1 hname
    refine .some (NDArray.sameOn_withSlot hsound.regular _ _ ?_)
    rintro c ⟨sel, hsel, l, hl, -, hc⟩
    obtain rfl := List.mem_singleton.1 hl
    rw [hresolve hsel] at hc
    rw [hlost]
    exact hdisjoint hc

end Expr

end ChunkedArray
