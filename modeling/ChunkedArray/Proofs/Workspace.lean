import ChunkedArray.Workspace
import ChunkedArray.Proofs.Array.Region

/-!
# Reading the arrays of a workspace

To look an array up leaves the workspace as it is. To read one may fetch chunks of it, and that is
all it changes: a query of an array is a query of its workspace.
-/

namespace ChunkedArray

open ChunkedArray.Action

/-- Arrays of one geometry whose stores differ at most in chunks that one of them has fetched. -/
structure NDArray.Alike (fs : Files) (a a' : NDArray) : Prop where
  geometry : a'.geometry = a.geometry
  store : Store.Alike (a.store.chunkSource fs) a.store a'.store

namespace NDArray.Alike

variable {fs : Files} {a a' a'' : NDArray}

theorem refl (a : NDArray) : Alike fs a a := ⟨rfl, .refl _⟩

theorem trans (h : Alike fs a a') (h' : Alike fs a' a'') : Alike fs a a'' := by
  have hstore := h'.store
  rw [h.store.chunkSource] at hstore
  exact ⟨h'.geometry.trans h.geometry, h.store.trans hstore⟩

end NDArray.Alike

namespace Workspace

/-- Workspaces whose arrays of certain names differ at most in chunks that one of them has
fetched. -/
structure Alike (reads : String → Prop) (w w' : Workspace) : Prop where
  files : w'.files = w.files
  arrays : ∀ name, reads name →
    Option.Rel (NDArray.Alike w.files) (w.arrays.find? name) (w'.arrays.find? name)

namespace Alike

variable {reads : String → Prop} {w w' w'' : Workspace}

theorem refl (w : Workspace) : Alike reads w w := by
  refine ⟨rfl, fun name _ => ?_⟩
  cases w.arrays.find? name with
  | none => exact .none
  | some a => exact .some (.refl a)

theorem trans (h : Alike reads w w') (h' : Alike reads w' w'') : Alike reads w w'' := by
  refine ⟨h'.files.trans h.files, fun name hname => ?_⟩
  have harrays := h.arrays name hname
  have harrays' := h'.arrays name hname
  rw [h.files] at harrays'
  generalize w.arrays.find? name = x at harrays
  generalize w'.arrays.find? name = y at harrays harrays'
  generalize w''.arrays.find? name = z at harrays'
  cases harrays with
  | none => exact harrays'
  | some ha =>
    cases harrays' with
    | some ha' => exact .some (ha.trans ha')

end Alike

/-- Workspaces whose arrays of certain names have the same revisions. -/
def SameRevisions (reads : String → Prop) (w w' : Workspace) : Prop :=
  ∀ name, reads name → (w'.arrays.find? name).map (fun a => a.store.revision) =
    (w.arrays.find? name).map fun a => a.store.revision

theorem Alike.sameRevisions {reads : String → Prop} {w w' : Workspace} (h : Alike reads w w') :
    SameRevisions reads w w' := by
  intro name hname
  have harrays := h.arrays name hname
  generalize w.arrays.find? name = x at harrays ⊢
  generalize w'.arrays.find? name = y at harrays ⊢
  cases harrays with
  | none => rfl
  | some halike => exact congrArg some halike.store.revision

variable {α β : Type} {name : String} {w : Workspace}

/-! ## Queries -/

section Combine

variable {reads : String → Prop}

theorem isQuery_bind {x : WorkspaceM α} {f : α → WorkspaceM β} (hx : IsQuery (Alike reads) x)
    (hf : ∀ a, IsQuery (Alike reads) (f a)) : IsQuery (Alike reads) (x >>= f) :=
  hx.bind (fun _ _ _ h h' => h.trans h') hf

theorem isQuery_pure (a : α) : IsQuery (Alike reads) (pure a : WorkspaceM α) :=
  Action.isQuery_pure Alike.refl a

theorem isQuery_liftM (r : Result α) : IsQuery (Alike reads) (liftM r : WorkspaceM α) :=
  Action.isQuery_liftM Alike.refl r

end Combine

/-! ## Looking arrays up -/

/-- The array with a name, or the error that there is none. -/
def lookup (w : Workspace) (name : String) : Result NDArray :=
  match w.arrays.find? name with
  | some a => .ok a
  | none => .error (.internal (.noArray name))

theorem run_array (name : String) (w : Workspace) :
    Action.run (array name) w = (w.lookup name, w) := by
  rw [array, Action.run_bind, Action.run_get, lookup]
  dsimp only
  cases w.arrays.find? name <;> rfl

theorem outcome_array (name : String) (w : Workspace) : outcome (array name) w = w.lookup name := by
  rw [outcome, run_array]

/-- An array that is found in a workspace has a like one in a like workspace. -/
theorem Alike.exists_lookup {reads : String → Prop} {w' : Workspace} (h : Alike reads w w')
    (hname : reads name) {a : NDArray} (ha : w.lookup name = .ok a) :
    ∃ a', w'.lookup name = .ok a' ∧ NDArray.Alike w.files a a' := by
  rw [lookup] at ha
  have harrays := h.arrays name hname
  cases hfind : w.arrays.find? name with
  | none =>
    rw [hfind] at ha
    cases ha
  | some b =>
    rw [hfind] at ha harrays
    cases ha
    cases hfind' : w'.arrays.find? name with
    | none =>
      rw [hfind'] at harrays
      cases harrays
    | some a' =>
      rw [hfind'] at harrays
      cases harrays with
      | some halike => exact ⟨a', by rw [lookup, hfind'], halike⟩

/-- An array that is found in a workspace has one of its revision in a workspace of the same
revisions. -/
theorem SameRevisions.exists_lookup {reads : String → Prop} {w' : Workspace}
    (h : SameRevisions reads w w') (hname : reads name) {a : NDArray} (ha : w.lookup name = .ok a) :
    ∃ a', w'.lookup name = .ok a' ∧ a'.store.revision = a.store.revision := by
  have hsame := h name hname
  rw [lookup] at ha ⊢
  cases hfind : w.arrays.find? name with
  | none =>
    rw [hfind] at ha
    cases ha
  | some b =>
    rw [hfind] at ha hsame
    cases ha
    cases hfind' : w'.arrays.find? name with
    | none =>
      rw [hfind'] at hsame
      cases hsame
    | some a' =>
      rw [hfind'] at hsame
      exact ⟨a', rfl, Option.some.inj hsame⟩

/-- An operation on an array changes the array and nothing else. -/
theorem run_onArray (operation : NDArray → Files → Result α × NDArray) (w : Workspace) :
    Action.run (onArray name operation) w =
      match w.arrays.find? name with
      | some a => ((operation a w.files).1,
          { w with arrays := w.arrays.insert name (operation a w.files).2 })
      | none => (.error (.internal (.noArray name)), w) := by
  rw [onArray, Action.run_bind, run_array, lookup]
  cases w.arrays.find? name with
  | none => rfl
  | some a => simp only [Action.run_bind, Action.run_get, Action.run_modify, Action.run_liftM]

/-! ## Reading arrays -/

section Query

variable {reads : String → Prop} {act : Geometry → ChunkSource → StoreM α}

/-- An array after an action on its store is like the one before if the stores are. -/
theorem alike_insert {a : NDArray} (ha : w.arrays.find? name = some a) {store : Store}
    (h : Store.Alike (a.store.chunkSource w.files) a.store store) :
    Alike reads w { w with arrays := w.arrays.insert name { a with store } } := by
  refine ⟨rfl, fun other hreads => ?_⟩
  dsimp only
  by_cases hother : other = name
  · rw [hother, SortedMap.find?_insert_self, ha]
    exact .some ⟨rfl, h⟩
  · rw [SortedMap.find?_insert_ne _ _ hother]
    exact (Alike.refl w).arrays other hreads

theorem outcome_onArray (act : Geometry → ChunkSource → StoreM α) (w : Workspace) :
    outcome (onArray name fun a fs => a.run (act a.geometry (a.store.chunkSource fs))) w =
      w.lookup name >>= fun a => outcome (act a.geometry (a.store.chunkSource w.files)) a.store := by
  rw [outcome, run_onArray, lookup]
  cases w.arrays.find? name <;> rfl

/-- A query of an array is a query of its workspace. -/
theorem isQuery_onArray (hname : reads name)
    (h : ∀ g source, IsQuery (Store.Alike source) (act g source)) :
    IsQuery (Alike reads) (onArray name fun a fs => a.run (act a.geometry (a.store.chunkSource fs))) := by
  constructor
  · intro w
    rw [run_onArray]
    cases ha : w.arrays.find? name with
    | none => exact .refl w
    | some a => exact alike_insert ha ((h _ _).kept a.store)
  · intro w w' halike
    rw [outcome_onArray, outcome_onArray, lookup, lookup]
    have harrays := halike.arrays name hname
    generalize w.arrays.find? name = x at harrays ⊢
    generalize w'.arrays.find? name = y at harrays ⊢
    cases harrays with
    | none => rfl
    | @some a a' ha =>
      simp only [bind, Except.bind]
      rw [ha.geometry, halike.files, ha.store.chunkSource]
      exact (h _ _).outcome_eq ha.store

end Query

end Workspace

end ChunkedArray
