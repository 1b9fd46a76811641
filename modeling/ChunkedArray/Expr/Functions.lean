import ChunkedArray.Expr.Basic

/-!
# Ready-made user functions

A few functions that need no more than their inputs, their offset and a number, and some that try
the limits of what a function may do: fail, report a failure of its own, replace its buffer, or
write to an array while it runs.
-/

namespace ChunkedArray.UserFunction

/-- Adds one operand to another in the representation of the latter; truth values are joined by
disjunction. Operands of different shapes leave the latter as it is. -/
def accumulate (out x : Operand) : Operand :=
  let join {α : Type} (f : α → α → α) (a b : Dense α) : Dense α :=
    if a.shape = b.shape then ⟨a.shape, Array.zipWith f a.items b.items⟩ else a
  match out with
  | .bool a => .bool (join or a x.toBool)
  | .int a => .int (join (· + ·) a x.toInt)
  | .uint a => .uint (join (· + ·) a x.toUInt)
  | .single a => .single (join FloatWord.add a x.asSingle)
  | .double a => .double (join FloatWord.add a x.asDouble)

/-- The sum of the inputs. -/
def sum (name : String) (kind : ScalarKind) : UserFunction where
  name; kind
  body inputs out _ := pure (inputs.foldl accumulate out)

/-- For signed kinds, a thousand times the sum of the offset plus the number of the element in the
part; zeros otherwise. -/
def position (name : String) (kind : ScalarKind) : UserFunction where
  name; kind
  body _ out offset := pure <| match out with
    | .int a =>
      let base := Int64.ofNat (offset.sum * 1000)
      .int ⟨a.shape, Array.ofFn (n := a.items.size) fun i => base + Int64.ofNat i⟩
    | out => out

/-- For integer kinds, the given number everywhere; zeros otherwise. -/
def constant (name : String) (kind : ScalarKind) (n : Int) : UserFunction where
  name; kind
  body _ out _ := pure <| match out with
    | .int a => .int (a.map fun _ => Int64.ofInt n)
    | .uint a => .uint (a.map fun _ => (Int64.ofInt n).toUInt64)
    | out => out

/-- Zeros; refuses parts that start at position `n` of the first axis or later. -/
def refuseFrom (name : String) (kind : ScalarKind) (n : Int) : UserFunction where
  name; kind
  body _ out offset :=
    if n ≤ (offset.headD 0 : Nat) then throw (.parameter (.custom "refused")) else pure out

/-- Reports a failure of its own. -/
def reportFailure (name : String) (kind : ScalarKind) : UserFunction where
  name; kind
  body _ _ _ := throw (.user (.custom "custom"))

/-- Leaves a buffer of another shape: one axis, one element longer. -/
def replaceShape (name : String) (kind : ScalarKind) : UserFunction where
  name; kind
  body _ out _ := pure (.zeros kind [out.length + 1])

/-- Leaves a buffer of another kind: single precision, or signed integers in its place. -/
def replaceKind (name : String) (kind : ScalarKind) : UserFunction where
  name; kind
  body _ out _ :=
    pure (.zeros (if kind = .float32 then .int64 else .float32) out.shape)

/-- Zeros; in the part at the origin it first writes one item of bytes `1` over the start of an
array. -/
def writeInto (name : String) (kind : ScalarKind) (target : String) : UserFunction where
  name; kind
  body _ out offset := do
    if offset.all (· == 0) then
      Workspace.onArray target fun a fs =>
        a.writeRegion fs [.range (some 0) (some 1) 1] (Array.replicate a.geometry.itemsize 1)
    pure out

end ChunkedArray.UserFunction
