import ChunkedArray.Bytes
import ChunkedArray.Error
import ChunkedArray.Files.Path

/-!
# Directory trees

A tree of files and directories, as a map from locations to nodes. A location is the list of names
from the root down. Operations take paths, which are followed step by step, and fail as a file
system does: on a missing name, on a path that leads through a file, on a directory in place of a
file, on a name that is too long. What an operation changed before it failed stays changed.
-/

namespace ChunkedArray

/-- The names from the root of a tree down to a node. -/
abbrev Location := List String

/-- What stands at a location. -/
inductive Node where
  /-- A file with its content. -/
  | file (data : Bytes)
  /-- A directory. -/
  | directory
deriving DecidableEq, Repr

/-- A directory tree. -/
structure Files where
  /-- The name under which messages show the root. -/
  root : String := "."
  /-- The nodes, that of the root included; no location occurs twice. -/
  nodes : List (Location × Node) := [([], .directory)]

/-- An action on a directory tree. -/
abbrev FilesM (α : Type) := ExceptT Error (StateM Files) α

namespace Files

open ChunkedArray.Path (Step)

/-- The longest name of a node, in bytes. -/
def maxName : Nat := 255

/-- The longest text of a path, in bytes. -/
def maxPath : Nat := 4079

/-- A path as messages show it. -/
def pathText (fs : Files) (path : Path) : String :=
  fs.root ++ "/" ++ path.text

/-- The node at a location, if there is one. -/
def node? (fs : Files) (loc : Location) : Option Node :=
  fs.nodes.lookup loc

/-- Follows steps from a location on. The root has nothing above it. -/
def follow (fs : Files) (loc : Location) : List Step → Except IoFault (Location × Node)
  | [] =>
    match fs.node? loc with
    | some node => .ok (loc, node)
    | none => .error .notFound
  | step :: rest =>
    match fs.node? loc with
    | none => .error .notFound
    | some (.file _) => .error .notADirectory
    | some .directory =>
      match step with
      | .here => follow fs loc rest
      | .up => if loc.isEmpty then .error .notFound else follow fs loc.dropLast rest
      | .child name =>
        if maxName < name.utf8ByteSize then .error .nameTooLong
        else follow fs (loc ++ [name]) rest

/-- Refuses a text that no path may have. -/
def checkPath (path : Path) : Except IoFault Unit :=
  if path.hasNul then .error .nulInName
  else if maxPath < path.text.utf8ByteSize then .error .nameTooLong
  else .ok ()

/-- The node at a path with its location, or why there is none. -/
def locate (fs : Files) (path : Path) : Except IoFault (Location × Node) := do
  checkPath path
  fs.follow [] (path.steps ++ if path.endsWithSlash then [.here] else [])

/-- The directory that steps lead to. -/
def directoryAt (fs : Files) (steps : List Step) : Except IoFault Location := do
  match ← fs.follow [] steps with
  | (loc, .directory) => pure loc
  | (_, .file _) => .error .notADirectory

/-- Whether there is a node at a path. -/
def exists? (fs : Files) (path : Path) : Bool :=
  (fs.locate path).isOk

/-- Whether a directory stands at a path. -/
def isDirectory (fs : Files) (path : Path) : Bool :=
  match fs.locate path with
  | .ok (_, .directory) => true
  | _ => false

/-- Whether a file stands at a path. -/
def isFile (fs : Files) (path : Path) : Bool :=
  match fs.locate path with
  | .ok (_, .file _) => true
  | _ => false

/-- Puts a node at a location. -/
def put (fs : Files) (loc : Location) (node : Node) : Files :=
  { fs with nodes := fs.nodes.filter (·.1 != loc) ++ [(loc, node)] }

/-- Drops the node at a location and everything below it. -/
def drop (fs : Files) (loc : Location) : Files :=
  { fs with nodes := fs.nodes.filter fun n => !loc.isPrefixOf n.1 }

/-- Drops everything below a location. -/
def clear (fs : Files) (loc : Location) : Files :=
  { fs with nodes := fs.nodes.filter fun n => n.1 == loc || !loc.isPrefixOf n.1 }

/-- The content of a file. -/
def read (fs : Files) (path : Path) : Result Bytes :=
  match fs.locate path with
  | .ok (_, .file data) => .ok data
  | .ok (_, .directory) => .error (.io .isADirectory)
  | .error fault => .error (.io fault)

/-- The location of a name in the directory that steps lead to. -/
def childAt (fs : Files) (steps : List Step) (name : String) : Except IoFault Location := do
  let dir ← fs.directoryAt steps
  if maxName < name.utf8ByteSize then .error .nameTooLong else pure (dir ++ [name])

/-- The location at which a file is to be written. A path that ends with a slash or that does not
end with a name means a directory. -/
def writeTarget (fs : Files) (path : Path) : Except IoFault Location := do
  checkPath path
  match path.steps.getLast? with
  | none => .error .isADirectory
  | some (.child name) =>
    if path.endsWithSlash then
      let _ ← fs.directoryAt path.steps.dropLast
      .error .isADirectory
    else
      let loc ← fs.childAt path.steps.dropLast name
      match fs.node? loc with
      | some .directory => .error .isADirectory
      | _ => pure loc
  | some _ =>
    let _ ← fs.directoryAt path.steps
    .error .isADirectory

/-- Writes a file into a directory that is there. -/
def write (fs : Files) (path : Path) (data : Bytes) : Result Files :=
  match fs.writeTarget path with
  | .ok loc => .ok (fs.put loc (.file data))
  | .error fault => .error (.io fault)

/-- Makes the directory at the end of steps, in a directory that is there. -/
def makeDirectory (fs : Files) (steps : List Step) : Except IoFault Files := do
  let loc ←
    match steps.getLast? with
    | none => pure []
    | some (.child name) => fs.childAt steps.dropLast name
    | some _ =>
      let _ ← fs.directoryAt steps.dropLast
      .error .alreadyExists
  if (fs.node? loc).isSome then .error .alreadyExists else pure (fs.put loc .directory)

/-- Makes the directory at the end of steps unless it is there. -/
def ensureDirectory (fs : Files) (steps : List Step) : Except IoFault Files :=
  match fs.makeDirectory steps with
  | .error .alreadyExists =>
    if (fs.directoryAt steps).isOk then .ok fs else .error .alreadyExists
  | r => r

/-- Changes the tree by an operation that may fail. -/
def change (operation : Files → Result Files) : FilesM Unit := do
  set (← liftM (n := FilesM) (operation (← get)))

/-- Makes the directory at the end of steps, given from the last to the first, and where it cannot
be made for want of a directory above, first those above. -/
def ensureUpward : (steps : List Step) → FilesM Unit
  | [] => change fun fs => (fs.ensureDirectory []).mapError .io
  | step :: above => do
    let ensure (fs : Files) := fs.ensureDirectory (step :: above).reverse
    match ensure (← get) with
    | .ok fs => set fs
    | .error .notFound => do
      ensureUpward above
      change fun fs => (ensure fs).mapError .io
    | .error fault => throw (.io fault)

/-- Makes a directory and those above it that are missing. -/
def makeDirectories (path : Path) : FilesM Unit :=
  match checkPath path with
  | .ok () => ensureUpward path.steps.reverse
  | .error fault => throw (.io fault)

/-- Makes the directories above a path that are missing. -/
def makeParents (path : Path) : FilesM Unit :=
  match path.parent? with
  | some parent => makeDirectories parent
  | none => pure ()

/-- Removes a directory with everything below it. The directory is emptied first. If the path then
no longer leads to it, it stays; a path that ends by staying in place cannot be removed. -/
def removeDirectory (path : Path) : FilesM Unit := do
  let fs ← get
  match fs.locate path with
  | .error fault => throw (.io fault)
  | .ok (_, .file _) => throw (.io .notADirectory)
  | .ok (loc, .directory) =>
    let cleared := fs.clear loc
    set cleared
    if cleared.exists? path then
      if path.steps.getLast? = some .here then throw (.io .invalidArgument)
      else set (cleared.drop loc)

/-- Removes a file or a directory tree; a missing one is no error. -/
def remove (path : Path) : FilesM Unit := do
  let fs ← get
  match fs.locate path with
  | .ok (_, .directory) => removeDirectory path
  | .ok (loc, .file _) => set (fs.drop loc)
  | .error .notFound => pure ()
  | .error fault => throw (.io fault)

/-- The names in a directory, in order. -/
def list (fs : Files) (path : Path) : Result (List String) :=
  match fs.locate path with
  | .ok (loc, .directory) =>
    let names := fs.nodes.filterMap fun n =>
      if n.1.dropLast = loc then n.1.getLast? else none
    .ok (names.mergeSort (fun a b => decide (a < b ∨ a = b)))
  | .ok (_, .file _) => .error (.io .notADirectory)
  | .error fault => .error (.io fault)

theorem node?_put (fs : Files) (loc : Location) (node : Node) :
    (fs.put loc node).node? loc = some node := by
  have hl : ∀ l : List (Location × Node),
      (l.filter (·.1 != loc) ++ [(loc, node)]).lookup loc = some node := by
    intro l
    induction l with
    | nil => simp
    | cons p rest ih =>
      obtain ⟨other, content⟩ := p
      by_cases hp : other = loc
      · simpa [hp] using ih
      · have hb : (loc == other) = false := by simpa using fun e => hp e.symm
        simp [hp, List.lookup_cons, hb, ih]
  simp [node?, put, hl]

end Files

end ChunkedArray
