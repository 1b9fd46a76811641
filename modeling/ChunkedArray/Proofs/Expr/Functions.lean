import ChunkedArray.Expr.Functions
import ChunkedArray.Proofs.Expr.Pointwise

/-!
# Functions that work position by position

A function that never fails and computes every element of its result from the elements of its inputs
at the same place works by a rule. The sum is such a function, in every kind and for any number of
inputs.
-/

namespace ChunkedArray

open ChunkedArray.Action

variable {kind : ScalarKind} {shape : Shape} {value : List Nat → Value}

namespace Value

/-- Adds one value to another in the representation of the latter; truth values are joined by
disjunction. -/
def accumulate (out x : Value) : Value :=
  match out with
  | bool b => bool (b || x.toBool)
  | int i => int (i + x.toInt)
  | uint n => uint (n + x.toUInt)
  | single a => single (FloatWord.add a x.asSingle)
  | double a => double (FloatWord.add a x.asDouble)

/-- Zero in the representation of a kind. -/
def zero (kind : ScalarKind) : Value :=
  match kind.representation with
  | .bool => bool false
  | .int => int 0
  | .uint => uint 0
  | .single => single 0
  | .double => double 0

end Value

namespace Dense

variable {α β : Type} {a : Dense α} {b : Dense β} {d : List Nat}

theorem filled_zip (f : α → β → α) (ha : a.Filled) (hb : b.Filled) (hshape : a.shape = b.shape) :
    Filled ⟨a.shape, Array.zipWith f a.items b.items⟩ := by
  rw [Filled] at ha hb
  rw [Filled, Array.size_zipWith, ha, hb, ← hshape, Nat.min_self]

variable [Inhabited α] [Inhabited β]

theorem get_fill (item : α) (hd : shape.Holds d) : (fill shape item).get d = item := by
  have hlt := Shape.flatten_lt hd
  simp [get, fill, Array.getD, hlt]

theorem get_zip (f : α → β → α) (ha : a.Filled) (hb : b.Filled) (hshape : a.shape = b.shape)
    (hd : a.shape.Holds d) :
    get ⟨a.shape, Array.zipWith f a.items b.items⟩ d = f (a.get d) (b.get d) := by
  have hlt := Shape.flatten_lt hd
  rw [Filled, ← hshape] at hb
  rw [Filled] at ha
  simp [get, Array.getD, ha, hb, hlt, ← hshape]

end Dense

namespace Operand

variable {out x : Operand}

/-- An operand of a kind and a shape that has given values. -/
structure Fills (x : Operand) (kind : ScalarKind) (shape : Shape) (value : List Nat → Value) :
    Prop where
  shape_eq : x.shape = shape
  holds : x.holds kind = true
  filled : x.Filled
  get : ∀ d, shape.Holds d → x.get d = value d

theorem fills_zeros (kind : ScalarKind) (shape : Shape) :
    (zeros kind shape).Fills kind shape fun _ => .zero kind := by
  have hholds := holds_zeros kind shape
  unfold Value.zero
  rw [zeros] at hholds ⊢
  cases hrep : kind.representation <;>
  · rw [hrep] at hholds
    exact ⟨rfl, hholds, Dense.filled_fill _ _, fun d hd => congrArg _ (Dense.get_fill _ hd)⟩

/-- An operand brought into the range of its kind has its values in that range. -/
theorem Fills.wrap (h : x.Fills kind shape value) :
    (x.wrap kind).Fills kind shape fun d => (value d).wrap kind := by
  refine ⟨(shape_wrap kind x).trans h.shape_eq, ?_, filled_wrap h.filled, fun d hd => ?_⟩
  · rw [holds_iff, representation_wrap]
    exact holds_iff.1 h.holds
  · rw [← h.get d hd]
    rw [← h.shape_eq] at hd
    exact get_wrap h.filled hd

/-- To add an operand of the same shape adds its values. -/
theorem Fills.accumulate (h : out.Fills kind shape value) (hx : x.Filled) (hshape : x.shape = shape) :
    (UserFunction.accumulate out x).Fills kind shape fun d => (value d).accumulate (x.get d) := by
  have hdense {α : Type} [Inhabited α] {f : α → α → α} {toOperand : Dense α → Operand}
      {toValue : α → Value} {convert : Value → α} {a b : Dense α}
      (hfill : ∀ a : Dense α, (toOperand a).shape = a.shape ∧ (toOperand a).Filled = a.Filled ∧
        (toOperand a).representation = out.representation ∧
        ∀ d, (toOperand a).get d = toValue (a.get d))
      (hjoin : ∀ i v, (toValue i).accumulate v = toValue (f i (convert v)))
      (ha : out = toOperand a) (hb : x.Maps convert b) :
      (toOperand (if a.shape = b.shape then ⟨a.shape, Array.zipWith f a.items b.items⟩ else a)).Fills
        kind shape fun d => (value d).accumulate (x.get d) := by
    obtain ⟨hashape, hafilled, -, haget⟩ := hfill a
    have hsa : a.shape = shape := by rw [← hashape, ← ha, h.shape_eq]
    have hfa : a.Filled := by rw [← hafilled, ← ha]; exact h.filled
    have hsb : a.shape = b.shape := by rw [hsa, hb.shape, hshape]
    obtain ⟨hrshape, hrfilled, hrrep, hrget⟩ := hfill ⟨a.shape, Array.zipWith f a.items b.items⟩
    rw [if_pos hsb]
    refine ⟨hrshape.trans hsa, ?_, ?_, fun d hd => ?_⟩
    · rw [holds_iff, hrrep]
      exact holds_iff.1 h.holds
    · rw [hrfilled]
      exact Dense.filled_zip f hfa hb.filled hsb
    · rw [hrget, Dense.get_zip f hfa hb.filled hsb (by rwa [hsa]), ← h.get d hd, ha, haget, hjoin,
        hb.get d (by rwa [hshape])]
  -- Each representation adds with its own operation; the rest of the argument is the same.
  unfold UserFunction.accumulate
  cases out with
  | bool a =>
    exact hdense (fun _ => ⟨rfl, rfl, rfl, fun _ => rfl⟩) (fun _ _ => rfl) rfl (maps_toBool hx)
  | int a =>
    exact hdense (fun _ => ⟨rfl, rfl, rfl, fun _ => rfl⟩) (fun _ _ => rfl) rfl (maps_toInt hx)
  | uint a =>
    exact hdense (fun _ => ⟨rfl, rfl, rfl, fun _ => rfl⟩) (fun _ _ => rfl) rfl (maps_toUInt hx)
  | single a =>
    exact hdense (fun _ => ⟨rfl, rfl, rfl, fun _ => rfl⟩) (fun _ _ => rfl) rfl (maps_asSingle hx)
  | double a =>
    exact hdense (fun _ => ⟨rfl, rfl, rfl, fun _ => rfl⟩) (fun _ _ => rfl) rfl (maps_asDouble hx)

/-- To add operands one after the other adds their values one after the other. -/
theorem Fills.foldl_accumulate {inputs : List Operand} (h : out.Fills kind shape value)
    (hinputs : ∀ y ∈ inputs, y.Filled ∧ y.shape = shape) :
    (inputs.foldl UserFunction.accumulate out).Fills kind shape fun d =>
      (inputs.map fun y => y.get d).foldl Value.accumulate (value d) := by
  induction inputs generalizing out value with
  | nil => exact h
  | cons y inputs ih =>
    obtain ⟨⟨hfilled, hshape⟩, hinputs⟩ := List.forall_mem_cons.1 hinputs
    exact ih (h.accumulate hfilled hshape) hinputs

end Operand

namespace UserFunction

variable {f : UserFunction} {reads : String → Prop}
variable {compute : List Operand → Operand → List Nat → Operand} {rule : List Value → List Nat → Value}

/-- What a call of a function that never fails gives: its result in the range of its kind, or an error
if the buffer changed its shape or kind. -/
theorem run_call_of_pure (hbody : ∀ inputs out offset, f.body inputs out offset =
      pure (compute inputs out offset)) (inputs : List Operand) (offset : List Nat) (w : Workspace) :
    Action.run (f.call inputs shape offset) w =
      (if (compute inputs (.zeros f.kind shape) offset).shape ≠ shape ∨
          (!(compute inputs (.zeros f.kind shape) offset).holds f.kind) = true then
        .error (.user (.replacedOutput f.name f.kind shape))
      else .ok ((compute inputs (.zeros f.kind shape) offset).wrap f.kind), w) := by
  rw [call, hbody]
  generalize compute inputs (.zeros f.kind shape) offset = y
  have hadapt : Action.run (ExceptT.adapt (reportAs f.name) (pure y) : WorkspaceM Operand) w =
      (.ok y, w) := rfl
  rw [run_bind_of_ok hadapt]
  by_cases hkept : y.shape ≠ shape ∨ (!y.holds f.kind) = true
  · rw [if_pos hkept, if_pos hkept]
    rfl
  · rw [if_neg hkept, if_neg hkept]
    rfl

/-- A function that never fails follows a rule if its results do. -/
theorem follows_of_pure (hbody : ∀ inputs out offset, f.body inputs out offset =
      pure (compute inputs out offset))
    (hcompute : ∀ inputs shape offset, (∀ y ∈ inputs, y.Filled ∧ y.shape = shape) →
      (compute inputs (.zeros f.kind shape) offset).Fills f.kind shape fun d =>
        rule (inputs.map fun y => y.get d) (List.zipWith (· + ·) offset d)) :
    f.Follows reads fun values position => .ok ((rule values position).wrap f.kind) := by
  have hcall (w : Workspace) (inputs : List Operand) (shape : Shape) (offset : List Nat)
      (hinputs : ∀ y ∈ inputs, y.Filled ∧ y.shape = shape) :
      outcome (f.call inputs shape offset) w =
        .ok ((compute inputs (.zeros f.kind shape) offset).wrap f.kind) := by
    have hfills := hcompute inputs shape offset hinputs
    have hkept : ¬ ((compute inputs (.zeros f.kind shape) offset).shape ≠ shape ∨
        (!(compute inputs (.zeros f.kind shape) offset).holds f.kind) = true) := by
      rw [hfills.holds, hfills.shape_eq]
      simp
    rw [outcome, run_call_of_pure hbody, if_neg hkept]
  refine ⟨fun inputs shape offset => ⟨fun w => ?_, fun {w w'} _ => ?_⟩, ?_, ?_⟩
  · rw [run_call_of_pure hbody]
    exact .refl w
  · rw [outcome, outcome, run_call_of_pure hbody, run_call_of_pure hbody]
  · intro w inputs shape offset x hinputs hx
    rw [hcall w inputs shape offset hinputs] at hx
    cases hx
    have hfills := (hcompute inputs shape offset hinputs).wrap
    exact ⟨hfills.filled, fun d hd => congrArg _ (hfills.get d hd).symm⟩
  · intro w inputs shape offset hinputs _ _
    exact ⟨_, hcall w inputs shape offset hinputs⟩

/-- Adds all values in the range of a kind. -/
def sumRule (kind : ScalarKind) : Rule :=
  fun values _ => .ok ((values.foldl Value.accumulate (.zero kind)).wrap kind)

/-- The sum of the inputs has at every position the sum of their values there. -/
theorem follows_sum (name : String) (kind : ScalarKind) :
    (sum name kind).Follows reads (sumRule kind) := by
  apply follows_of_pure (fun _ _ _ => rfl)
  intro inputs shape _ hinputs
  exact (Operand.fills_zeros kind shape).foldl_accumulate hinputs

end UserFunction

end ChunkedArray
