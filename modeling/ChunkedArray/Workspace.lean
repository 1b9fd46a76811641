import ChunkedArray.Array.Write

/-!
# Workspaces

The named arrays that expressions refer to, and the directory tree that their pending chunks come
from. Actions on a workspace may fail; what they changed before a failure stays.
-/

namespace ChunkedArray

/-- Named arrays and a directory tree. -/
structure Workspace where
  /-- The directory tree. -/
  files : Files := {}
  /-- The arrays by name. -/
  arrays : SortedMap NDArray := []

/-- An action on a workspace. -/
abbrev WorkspaceM (α : Type) := ExceptT Error (StateM Workspace) α

namespace Workspace

/-- The array with the given name. -/
def array (name : String) : WorkspaceM NDArray := do
  match (← get).arrays.find? name with
  | some a => pure a
  | none => throw (.internal (.noArray name))

/-- Applies an operation to the array with the given name and keeps the changed array. -/
def onArray {α : Type} (name : String) (operation : NDArray → Files → Result α × NDArray) :
    WorkspaceM α := do
  let a ← array name
  let (r, a) := operation a (← get).files
  modify fun w => { w with arrays := w.arrays.insert name a }
  liftM (n := WorkspaceM) r

end Workspace

end ChunkedArray
