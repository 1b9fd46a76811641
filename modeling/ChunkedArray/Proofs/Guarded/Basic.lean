import ChunkedArray.Bytes.LittleEndian
import ChunkedArray.Proofs.Action

/-!
# Guarded computations

Byte strings are read by total operations: a position outside reads as nothing, a difference stops at
zero, and sums may be as large as they like. A guarded computation takes none of this for granted. It
gives up when an access lies outside its byte string, when a number is subtracted from a smaller one
or divided by zero, or when a sum or a product is no word of 64 bits. A function whose guarded form
always gives the result of the function has no use for what total operations do outside.
-/

namespace ChunkedArray

/-- A computation under guards: nothing if a guard fails, and a result otherwise. -/
abbrev Guarded (α : Type) := ExceptT Error Option α

namespace Guarded

variable {α β : Type}

/-- A result that needs no guard. -/
def ofResult (r : Result α) : Guarded α := ExceptT.mk (some r)

/-- Gives up unless a condition holds. -/
def require (p : Prop) [Decidable p] : Guarded Unit :=
  if p then pure () else ExceptT.mk none

/-- A sum that is a word. -/
def add (a b : Nat) : Guarded Nat := do
  require (a + b < 2 ^ 64)
  pure (a + b)

/-- A product that is a word. -/
def mul (a b : Nat) : Guarded Nat := do
  require (a * b < 2 ^ 64)
  pure (a * b)

/-- A difference that is not below zero. -/
def sub (a b : Nat) : Guarded Nat := do
  require (b ≤ a)
  pure (a - b)

/-- A quotient by a number other than zero. -/
def div (a b : Nat) : Guarded Nat := do
  require (b ≠ 0)
  pure (a / b)

/-- A quotient by a number other than zero, rounded up. -/
def ceilDiv (a b : Nat) : Guarded Nat := do
  require (b ≠ 0)
  pure ((a + b - 1) / b)

/-- The byte at a position inside a byte string. -/
def byteAt (b : Bytes) (i : Nat) : Guarded UInt8 := do
  require (i < b.size)
  pure (b.getD i 0)

/-- The bytes from `start` up to `stop`, inside a byte string. -/
def slice (b : Bytes) (start stop : Nat) : Guarded Bytes := do
  require (start ≤ stop ∧ stop ≤ b.size)
  pure (b.extract start stop)

/-- The number in `width` bytes from a position on, inside a byte string. -/
def numberAt (b : Bytes) (pos width : Nat) : Guarded Nat := do
  let stop ← add pos width
  require (stop ≤ b.size)
  pure (LittleEndian.readAt b pos width)

/-! ## Guards that hold -/

theorem require_of {p : Prop} [Decidable p] (h : p) : require p = pure () :=
  if_pos h

theorem add_of_lt {a b : Nat} (h : a + b < 2 ^ 64) : add a b = pure (a + b) := by
  rw [add, require_of h, pure_bind]

theorem mul_of_lt {a b : Nat} (h : a * b < 2 ^ 64) : mul a b = pure (a * b) := by
  rw [mul, require_of h, pure_bind]

theorem sub_of_le {a b : Nat} (h : b ≤ a) : sub a b = pure (a - b) := by
  rw [sub, require_of h, pure_bind]

theorem div_of_pos {b : Nat} (h : 0 < b) (a : Nat) : div a b = pure (a / b) := by
  rw [div, require_of (Nat.ne_of_gt h), pure_bind]

theorem ceilDiv_of_pos {b : Nat} (h : 0 < b) (a : Nat) : ceilDiv a b = pure ((a + b - 1) / b) := by
  rw [ceilDiv, require_of (Nat.ne_of_gt h), pure_bind]

theorem byteAt_of_lt {b : Bytes} {i : Nat} (h : i < b.size) : byteAt b i = pure (b.getD i 0) := by
  rw [byteAt, require_of h, pure_bind]

theorem slice_of_le {b : Bytes} {start stop : Nat} (hle : start ≤ stop) (hstop : stop ≤ b.size) :
    slice b start stop = pure (b.extract start stop) := by
  rw [slice, require_of ⟨hle, hstop⟩, pure_bind]

theorem numberAt_of_le {b : Bytes} {pos width : Nat} (hword : pos + width < 2 ^ 64)
    (h : pos + width ≤ b.size) : numberAt b pos width = pure (LittleEndian.readAt b pos width) := by
  rw [numberAt, add_of_lt hword, pure_bind, require_of h, pure_bind]

/-! ## Results -/

theorem ofResult_ok (a : α) : ofResult (.ok a) = pure a := rfl

/-- A step that gives its result goes on as the step without guards, if what follows does. -/
theorem bind_eq_ofResult {x : Guarded α} {r : Result α} {g : α → Guarded β} {f : α → Result β}
    (hx : x = ofResult r) (h : ∀ a, r = .ok a → g a = ofResult (f a)) :
    x >>= g = ofResult (r >>= f) := by
  subst hx
  cases r with
  | error e => rfl
  | ok a => exact h a rfl

/-- Steps that need no guard make a list of results. -/
theorem mapM_eq_pure {γ : Type} {f : γ → Guarded α} {g : γ → α} {l : List γ}
    (h : ∀ x ∈ l, f x = pure (g x)) : l.mapM f = pure (l.map g) := by
  induction l with
  | nil => rfl
  | cons x l ih =>
    rw [List.mapM_cons, h x List.mem_cons_self, pure_bind,
      ih fun y hy => h y (List.mem_cons_of_mem _ hy), pure_bind, List.map_cons]

/-- Steps that need no guard while an invariant holds, and keep it, are folded without guards. -/
theorem foldlM_eq_pure {γ : Type} (inv : β → Prop) {f : β → γ → Guarded β} {g : β → γ → β}
    {l : List γ} (hstep : ∀ y, inv y → ∀ x ∈ l, f y x = pure (g y x) ∧ inv (g y x)) {y : β}
    (hy : inv y) : l.foldlM f y = pure (l.foldl g y) ∧ inv (l.foldl g y) := by
  induction l generalizing y with
  | nil => exact ⟨rfl, hy⟩
  | cons x l ih =>
    obtain ⟨hx, hnext⟩ := hstep y hy x List.mem_cons_self
    rw [List.foldlM_cons, hx, pure_bind, List.foldl_cons]
    exact ih (fun z hz x' hx' => hstep z hz x' (List.mem_cons_of_mem _ hx')) hnext

end Guarded

end ChunkedArray
