import ChunkedArray.Expr.Basic

/-!
# Evaluation

`eval` computes an expression over a box of its domain; leaves read only the part of the box that
they are stretched from. `materialize` cuts the domain into the chunk grid of the result and fills
one reserved slot after the other; `materializeRegion` touches only the chunks that a region meets.
Both fail if an operand changed while they ran.
-/

namespace ChunkedArray.Expr

/-- The part of an operand that is stretched over a box of a larger domain. -/
def operandBox (shape : Shape) (box : Box) : Box :=
  List.zipWith (fun n s => if n = 1 then ⟨0, 1⟩ else s) shape (box.drop (box.length - shape.length))

mutual

/-- The elements of an expression over a box. -/
def eval (box : Box) : Expr → WorkspaceM Operand
  | array name part type => do
    let box := operandBox type.shape box
    let data ← Workspace.onArray name fun a fs => a.readBox fs part box
    liftM (n := WorkspaceM) (Operand.ofBytes type.kind box.shape data)
  | literal value => pure value.operand
  | unary op type operand => do
    let x ← eval box operand
    liftM (n := WorkspaceM) (op.apply type.kind x)
  | binary op type lhs rhs => do
    let l ← eval box lhs
    let r ← eval box rhs
    liftM (n := WorkspaceM) (op.apply type.kind l r)
  | compare op kind _ lhs rhs => do
    let l ← eval box lhs
    let r ← eval box rhs
    liftM (n := WorkspaceM) (op.apply kind l r)
  | call f type inputs => do
    let part := operandBox type.shape box
    let args ← evalInputs box part.shape inputs
    f.call args part.shape part.origin

/-- The elements of several expressions over a box, stretched to a shape. -/
def evalInputs (box : Box) (shape : Shape) : List Expr → WorkspaceM (List Operand)
  | [] => pure []
  | e :: rest => do
    let x ← eval box e
    let x ← liftM (n := WorkspaceM) (x.broadcastTo shape)
    let xs ← evalInputs box shape rest
    pure (x :: xs)

end

/-- The bytes of an expression over a box of its whole domain. -/
def evalBytes (root : Expr) (box : Box) : WorkspaceM Bytes := do
  let x ← eval box root
  let x ← liftM (n := WorkspaceM) (x.broadcastTo box.shape)
  pure (x.toBytes root.kind)

/-- The revisions of the arrays in an expression. -/
def revisions (root : Expr) : WorkspaceM (List (String × Nat)) :=
  root.arrays.mapM fun name => do
    let a ← Workspace.array name
    pure (name, a.store.revision)

/-- Fails if an array changed since its revision was taken. -/
def checkRevisions (taken : List (String × Nat)) : WorkspaceM Unit :=
  taken.forM fun (name, revision) => do
    let a ← Workspace.array name
    liftM (n := WorkspaceM) (a.store.checkRevision revision)

/-- The geometry and the codec parameters of a result: those configured, then those of the first
array operand (its shapes only if it has the rank of the result), then the defaults. -/
def outputGeometry (root : Expr) (params : EvalParams) (first : Option NDArray) :
    Result (Geometry × CodecConfig) := do
  let inherited := first.filter fun a => a.shape.length == root.shape.length
  let chunks := params.chunks <|> inherited.map (·.geometry.chunks)
  let blocks := params.blocks <|>
    if params.chunks.isNone then inherited.map (·.geometry.blocks) else none
  let g ← Geometry.resolve root.shape (.scalar root.kind) chunks blocks
  let codec := params.codec.getD ((first.map (·.store.codec)).getD {})
  pure (g, codec)

/-- The first array operand of an expression. -/
def firstArray (root : Expr) : WorkspaceM (Option NDArray) :=
  match root.arrays with
  | [] => pure none
  | name :: _ => some <$> Workspace.array name

/-- Fills the slots of the given chunks of a result; chunk 0 has slot `first`. -/
def fillChunks (root : Expr) (g : Geometry) (first : Nat) (out : Store) :
    List Nat → WorkspaceM Store
  | [] => pure out
  | i :: rest => do
    let box := g.grid.chunkBox i
    let raw ← evalBytes root box
    let padded := padToLayout raw box.shape g.chunks g.itemsize
    let chunk ← liftM (n := WorkspaceM) ((Chunk.compress padded out.codec).mapError (Error.atChunk i))
    let ((), out) ← liftM (n := WorkspaceM) (out.exec (Store.insertChunk (first + i) chunk))
    fillChunks root g first out rest

/-- An expression as a new array. -/
def materialize (params : EvalParams) (root : Expr) : WorkspaceM NDArray := do
  let taken ← revisions root
  let (g, codec) ← liftM (n := WorkspaceM) (outputGeometry root params (← firstArray root))
  let out ← liftM (n := WorkspaceM) (NDArray.allocate g codec)
  let (first, store) ← liftM (n := WorkspaceM) (out.store.exec (Store.reserve g.nchunks))
  let store ← fillChunks root g first store (List.range g.nchunks)
  checkRevisions taken
  pure { out with store }

/-- The parts of a box that lie in the given chunks of a grid, with their bytes. -/
def evalPieces (root : Expr) (grid : ChunkGrid) (box : Box) :
    List Nat → WorkspaceM (List (Box × Bytes))
  | [] => pure []
  | i :: rest => do
    let piece : Box := List.zipWith Span.inter (grid.chunkBox i) box
    let raw ← evalBytes root piece
    let pieces ← evalPieces root grid box rest
    pure ((piece, raw) :: pieces)

/-- Copies what a piece holds of a selection over `out`. -/
def placePiece (sel : Selection) (itemsize : Nat) (out : Bytes) (piece : Box × Bytes) : Bytes :=
  match sel.hits piece.1 with
  | none => out
  | some hits =>
    (Run.ofHits hits sel.shape.strides piece.1.shape.strides).foldl (fun out r =>
      out.blit (r.output * itemsize) piece.2 (r.inner * itemsize) (r.length * itemsize)) out

/-- The elements of a region of an expression. -/
def materializeRegion (params : EvalParams) (root : Expr) (region : Region) :
    WorkspaceM Buffer := do
  let taken ← revisions root
  let sel ← liftM (n := WorkspaceM) (region.resolve root.shape)
  let dtype := DType.scalar root.kind
  let out := Bytes.zeros (sel.size * dtype.itemsize)
  if sel.isEmpty then liftM (n := WorkspaceM) (Buffer.new sel.shape dtype out)
  else
    let (g, _) ← liftM (n := WorkspaceM) (outputGeometry root params (← firstArray root))
    let box := sel.boundingBox
    let pieces ← evalPieces root g.grid box (g.grid.intersecting box)
    let data := pieces.foldl (placePiece sel dtype.itemsize) out
    checkRevisions taken
    liftM (n := WorkspaceM) (Buffer.new sel.shape dtype data)

end ChunkedArray.Expr

namespace ChunkedArray

/-- Checks the parameters of an evaluation. -/
def EvalParams.validate (params : EvalParams) : Result Unit :=
  if params.nthreads = some 0 then .error (.parameter .noThreads) else .ok ()

end ChunkedArray
