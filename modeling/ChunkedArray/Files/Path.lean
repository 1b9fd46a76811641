/-!
# Paths

A path leads from the root of a directory tree down to a node, as it was written: the pieces between
its slashes, empty ones included. A piece is a step to a named node, a step up, or a step that stays
where it is; empty pieces are no steps. A path that ends with a slash asks for a directory.
-/

namespace ChunkedArray

/-- A path below the root of a directory tree. -/
structure Path where
  /-- The pieces between the slashes. -/
  pieces : List String
deriving DecidableEq, Repr

namespace Path

/-- A step along a path. -/
inductive Step where
  /-- Stays in a directory. -/
  | here
  /-- Goes to the directory above. -/
  | up
  /-- Goes to the node with the given name. -/
  | child (name : String)
deriving DecidableEq, Repr

/-- The step of a piece, if it is one. -/
def Step.ofPiece? (piece : String) : Option Step :=
  if piece = "" then none
  else if piece = "." then some .here
  else if piece = ".." then some .up
  else some (.child piece)

/-- The piece that is written for a step. -/
def Step.piece : Step → String
  | here => "."
  | up => ".."
  | child name => name

/-- The path with the given text. -/
def ofText (text : String) : Path := ⟨text.splitOn "/"⟩

/-- The text of a path. -/
def text (p : Path) : String := "/".intercalate p.pieces

/-- The steps of a path. -/
def steps (p : Path) : List Step := p.pieces.filterMap Step.ofPiece?

/-- The path with the given steps. -/
def ofSteps (steps : List Step) : Path := ⟨steps.map Step.piece⟩

/-- Whether a path ends with a slash. The path without pieces is the root with a slash behind it. -/
def endsWithSlash (p : Path) : Bool := p.pieces.getLast?.getD "" == ""

/-- The path of a name below a path. -/
def join (p : Path) (name : String) : Path :=
  ⟨(if p.endsWithSlash then p.pieces.dropLast else p.pieces) ++ [name]⟩

/-- The path above the last step of a path, steps that stay in place at its end left out; `none` for
the root. -/
def parent? (p : Path) : Option Path :=
  match p.steps.reverse.dropWhile (· == .here) with
  | [] => none
  | _ :: above => some (ofSteps (above.dropWhile (· == .here)).reverse)

/-- Whether the NUL character occurs in a path. -/
def hasNul (p : Path) : Bool :=
  p.pieces.any fun piece => piece.toList.any fun c => c.toNat == 0

theorem steps_join (p : Path) {name : String} (h : Step.ofPiece? name = some (.child name)) :
    (p.join name).steps = p.steps ++ [.child name] := by
  have last : ∀ l : List String, l.getLast?.getD "" = "" →
      l.dropLast.filterMap Step.ofPiece? = l.filterMap Step.ofPiece? := by
    intro l hl
    rcases List.eq_nil_or_concat l with rfl | ⟨init, piece, rfl⟩
    · rfl
    · have hp : piece = "" := by simpa using hl
      simp [hp, Step.ofPiece?]
  by_cases hs : p.endsWithSlash
  · have hd := last p.pieces (by simpa [endsWithSlash] using hs)
    simp [join, steps, hs, h, hd]
  · simp [join, steps, hs, h]

end Path

end ChunkedArray
