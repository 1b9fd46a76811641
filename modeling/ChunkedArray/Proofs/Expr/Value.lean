import ChunkedArray.Expr.Operand
import ChunkedArray.Proofs.Expr.Dense
import ChunkedArray.Proofs.Scalar.Element

/-!
# Values

A value is a single element of an operand. Conversions are defined on values without regard to where
they stand; to convert an operand converts the value at every place, and to decode or encode an
operand decodes or encodes every value on its own.
-/

namespace ChunkedArray

/-- A single element of an operand. -/
inductive Value where
  /-- A truth value. -/
  | bool (value : Bool)
  /-- A signed integer. -/
  | int (value : Int64)
  /-- An unsigned integer. -/
  | uint (value : UInt64)
  /-- A number in single precision, by its bits. -/
  | single (bits : UInt32)
  /-- A number in double precision, by its bits. -/
  | double (bits : UInt64)
deriving DecidableEq, Inhabited

namespace Value

/-- How a value is held. -/
def representation : Value → Representation
  | bool _ => .bool
  | int _ => .int
  | uint _ => .uint
  | single _ => .single
  | double _ => .double

/-- A value as a truth value: whether it is not zero. -/
def toBool : Value → Bool
  | bool b => b
  | int i => i != 0
  | uint n => n != 0
  | single x => !FloatWord.eq x FloatWord.zero
  | double x => !FloatWord.eq x FloatWord.zero

/-- A value as a signed integer. Floating-point numbers are cut off towards zero and held at the ends
of the range; what is not a number becomes zero. -/
def toInt : Value → Int64
  | bool b => if b then 1 else 0
  | int i => i
  | uint n => n.toInt64
  | single x => (Float32.ofBits x).toInt64
  | double x => (Float.ofBits x).toInt64

/-- A value as an unsigned integer, in the same way. -/
def toUInt : Value → UInt64
  | bool b => if b then 1 else 0
  | int i => i.toUInt64
  | uint n => n
  | single x => (Float32.ofBits x).toUInt64
  | double x => (Float.ofBits x).toUInt64

/-- A value in single precision. -/
def asSingle : Value → UInt32
  | bool b => if b then FloatWord.one else FloatWord.zero
  | int i => i.toFloat32.toBits
  | uint n => n.toFloat32.toBits
  | single x => x
  | double x => FloatWord.toSingle x

/-- A value in double precision. -/
def asDouble : Value → UInt64
  | bool b => if b then FloatWord.one else FloatWord.zero
  | int i => i.toFloat.toBits
  | uint n => n.toFloat.toBits
  | single x => FloatWord.toDouble x
  | double x => x

/-- Brings an integer into the range of a kind of its own representation. -/
def wrap (kind : ScalarKind) : Value → Value
  | int i => int (kind.wrapInt i)
  | uint n => uint (kind.wrapUInt n)
  | v => v

/-- Converts to the representation of a kind and into its range. -/
def cast (v : Value) (kind : ScalarKind) : Value :=
  match kind.representation with
  | .bool => bool v.toBool
  | .int => wrap kind (int v.toInt)
  | .uint => wrap kind (uint v.toUInt)
  | .single => single v.asSingle
  | .double => double v.asDouble

/-- The bit pattern. -/
def word : Value → UInt64
  | bool b => if b then 1 else 0
  | int i => i.toUInt64
  | uint n => n
  | single x => x.toUInt64
  | double x => x

/-- The bytes of a value as an element of a kind. -/
def encode (kind : ScalarKind) (v : Value) : Bytes :=
  Element.encode kind #[(v.cast kind).word]

/-- The value of an element of a kind with the given bit pattern. -/
def ofWord (kind : ScalarKind) (word : UInt64) : Value :=
  match kind.representation with
  | .bool => bool (word != 0)
  | .int => int (Operand.signExtend kind word)
  | .uint => uint word
  | .single => single word.toUInt32
  | .double => double word

/-- The value of an element of a kind with the given bytes. -/
def ofBytes (kind : ScalarKind) (b : Bytes) : Value :=
  ofWord kind (Element.decodeAt kind b 0)

@[simp] theorem representation_wrap (kind : ScalarKind) (v : Value) :
    (v.wrap kind).representation = v.representation := by
  cases v <;> rfl

@[simp] theorem representation_cast (kind : ScalarKind) (v : Value) :
    (v.cast kind).representation = kind.representation := by
  rw [cast]
  cases kind.representation <;> rfl

end Value

namespace Operand

variable {x y : Operand} {kind : ScalarKind} {shape target : Shape} {d : List Nat}

/-- The value at the given coordinates. -/
def get : Operand → List Nat → Value
  | bool a, d => .bool (a.get d)
  | int a, d => .int (a.get d)
  | uint a, d => .uint (a.get d)
  | single a, d => .single (a.get d)
  | double a, d => .double (a.get d)

/-- Whether there are as many elements as the shape has places. -/
def Filled : Operand → Prop
  | bool a => a.Filled
  | int a => a.Filled
  | uint a => a.Filled
  | single a => a.Filled
  | double a => a.Filled

theorem holds_iff : x.holds kind = true ↔ x.representation = kind.representation :=
  decide_eq_true_iff

/-! ## Conversions -/

@[simp] theorem shape_wrap (kind : ScalarKind) (x : Operand) : (x.wrap kind).shape = x.shape := by
  cases x <;> rfl

@[simp] theorem representation_wrap (kind : ScalarKind) (x : Operand) :
    (x.wrap kind).representation = x.representation := by
  cases x <;> rfl

theorem filled_wrap (h : x.Filled) : (x.wrap kind).Filled := by
  cases x <;> first | exact h | exact Dense.filled_map _ h

theorem get_wrap (h : x.Filled) (hd : x.shape.Holds d) : (x.wrap kind).get d = (x.get d).wrap kind := by
  cases x <;> first | rfl | exact congrArg _ (Dense.get_map _ h hd)

@[simp] theorem shape_cast (x : Operand) (kind : ScalarKind) : (x.cast kind).shape = x.shape := by
  rw [cast]
  cases kind.representation <;> cases x <;> rfl

@[simp] theorem representation_cast (x : Operand) (kind : ScalarKind) :
    (x.cast kind).representation = kind.representation := by
  rw [cast]
  cases kind.representation <;> cases x <;> rfl

/-- A dense array that has, at every place of an operand, what a function makes of the value there. -/
structure Maps {α : Type} [Inhabited α] (x : Operand) (f : Value → α) (a : Dense α) : Prop where
  shape : a.shape = x.shape
  filled : a.Filled
  get : ∀ d, x.shape.Holds d → a.get d = f (x.get d)

theorem maps_toBool (h : x.Filled) : x.Maps Value.toBool x.toBool := by
  cases x <;>
    first
    | exact ⟨rfl, h, fun _ _ => rfl⟩
    | exact ⟨rfl, Dense.filled_map _ h, fun _ hd => Dense.get_map _ h hd⟩

theorem maps_toInt (h : x.Filled) : x.Maps Value.toInt x.toInt := by
  cases x <;>
    first
    | exact ⟨rfl, h, fun _ _ => rfl⟩
    | exact ⟨rfl, Dense.filled_map _ h, fun _ hd => Dense.get_map _ h hd⟩

theorem maps_toUInt (h : x.Filled) : x.Maps Value.toUInt x.toUInt := by
  cases x <;>
    first
    | exact ⟨rfl, h, fun _ _ => rfl⟩
    | exact ⟨rfl, Dense.filled_map _ h, fun _ hd => Dense.get_map _ h hd⟩

theorem maps_asSingle (h : x.Filled) : x.Maps Value.asSingle x.asSingle := by
  cases x <;>
    first
    | exact ⟨rfl, h, fun _ _ => rfl⟩
    | exact ⟨rfl, Dense.filled_map _ h, fun _ hd => Dense.get_map _ h hd⟩

theorem maps_asDouble (h : x.Filled) : x.Maps Value.asDouble x.asDouble := by
  cases x <;>
    first
    | exact ⟨rfl, h, fun _ _ => rfl⟩
    | exact ⟨rfl, Dense.filled_map _ h, fun _ hd => Dense.get_map _ h hd⟩

theorem filled_cast (h : x.Filled) : (x.cast kind).Filled := by
  rw [cast]
  cases kind.representation with
  | bool => exact (maps_toBool h).filled
  | int => exact @filled_wrap (int x.toInt) kind (maps_toInt h).filled
  | uint => exact @filled_wrap (uint x.toUInt) kind (maps_toUInt h).filled
  | single => exact (maps_asSingle h).filled
  | double => exact (maps_asDouble h).filled

/-- To cast an operand casts its values. -/
theorem get_cast (h : x.Filled) (hd : x.shape.Holds d) :
    (x.cast kind).get d = (x.get d).cast kind := by
  rw [cast, Value.cast]
  cases kind.representation with
  | bool => exact congrArg Value.bool ((maps_toBool h).get d hd)
  | int =>
    have hint := maps_toInt h
    have hd' : (int x.toInt).shape.Holds d := by
      rw [shape, hint.shape]
      exact hd
    have hwrap := @get_wrap (int x.toInt) kind d hint.filled hd'
    exact hwrap.trans (congrArg (fun i => (Value.int i).wrap kind) (hint.get d hd))
  | uint =>
    have huint := maps_toUInt h
    have hd' : (uint x.toUInt).shape.Holds d := by
      rw [shape, huint.shape]
      exact hd
    have hwrap := @get_wrap (uint x.toUInt) kind d huint.filled hd'
    exact hwrap.trans (congrArg (fun n => (Value.uint n).wrap kind) (huint.get d hd))
  | single => exact congrArg Value.single ((maps_asSingle h).get d hd)
  | double => exact congrArg Value.double ((maps_asDouble h).get d hd)

/-! ## Stretching -/

/-- An operand stretched to a shape. -/
def stretch (x : Operand) (target : Shape) : Operand :=
  match x with
  | bool a => bool (a.stretch target)
  | int a => int (a.stretch target)
  | uint a => uint (a.stretch target)
  | single a => single (a.stretch target)
  | double a => double (a.stretch target)

@[simp] theorem shape_stretch (x : Operand) (target : Shape) : (x.stretch target).shape = target := by
  cases x <;> exact Dense.shape_stretch _ _

@[simp] theorem representation_stretch (x : Operand) (target : Shape) :
    (x.stretch target).representation = x.representation := by
  cases x <;> rfl

theorem filled_stretch (h : x.Filled) : (x.stretch target).Filled := by
  cases x <;> exact Dense.filled_stretch h

theorem get_stretch (hd : target.Holds d) :
    (x.stretch target).get d = x.get (x.shape.project d) := by
  cases x <;> exact congrArg _ (Dense.get_stretch hd)

theorem broadcastTo_eq_ok :
    x.broadcastTo target = .ok y ↔
      (x.shape.Stretches target ∧ target.isCountable = true) ∧ y = x.stretch target := by
  have hdense {α : Type} [Inhabited α] (a : Dense α) (f : Dense α → Operand) :
      (a.broadcastTo target).map f = .ok y ↔
        (a.shape.Stretches target ∧ target.isCountable = true) ∧ y = f (a.stretch target) := by
    rw [map_eq_ok, ← Shape.stretchesTo_iff]
    constructor
    · rintro ⟨r, hr, rfl⟩
      obtain ⟨h, rfl⟩ := Dense.broadcastTo_eq_ok.1 hr
      exact ⟨h, rfl⟩
    · rintro ⟨h, rfl⟩
      exact ⟨_, Dense.broadcastTo_eq_ok.2 ⟨h, rfl⟩, rfl⟩
  cases x <;> exact hdense _ _

/-! ## Bytes -/

theorem size_words (h : x.Filled) : x.words.size = x.shape.size := by
  cases x <;> first | exact h | exact Array.size_map.trans h

theorem getD_words (h : x.Filled) (hd : x.shape.Holds d) :
    x.words.getD (x.shape.flatten d) 0 = (x.get d).word := by
  have hlt := Shape.flatten_lt hd
  rw [← size_words h] at hlt
  cases x <;>
    simp only [words, Array.size_map, shape] at hlt <;>
    simp [words, get, Value.word, Dense.get, shape, Array.getD_eq_getD_getElem?, hlt]

theorem size_toBytes (h : x.Filled) : (x.toBytes kind).size = x.shape.size * kind.itemsize := by
  rw [toBytes, Element.size_encode, size_words (filled_cast h), shape_cast]

/-- The bytes of an operand are those of its values. -/
theorem getD_toBytes (h : x.Filled) (hd : x.shape.Holds d) {k : Nat} (hk : k < kind.itemsize) :
    (x.toBytes kind).getD (x.shape.flatten d * kind.itemsize + k) 0 =
      ((x.get d).encode kind).getD k 0 := by
  have hd' : (x.cast kind).shape.Holds d := by rwa [shape_cast]
  have hlt := Shape.flatten_lt hd
  rw [← shape_cast x kind, ← size_words (filled_cast h)] at hlt
  have hword := getD_words (filled_cast h) hd'
  rw [shape_cast, get_cast h hd] at hword
  rw [toBytes, Element.getD_encode _ _ (by rwa [shape_cast] at hlt) hk, hword, Value.encode]

theorem checkCount_eq_ok {count : Nat} :
    shape.checkCount count = .ok () ↔ shape.isCountable = true ∧ count = shape.size := by
  rw [Shape.checkCount]
  constructor
  · intro h
    split at h
    · cases h
    split at h
    · cases h
    split at h
    · cases h
    exact ⟨by simpa using ‹¬(!shape.isCountable) = true›, by omega⟩
  · rintro ⟨hcount, rfl⟩
    simp [hcount]

theorem exists_ofBytes {b : Bytes} (hcount : shape.isCountable = true)
    (hsize : b.size / kind.itemsize = shape.size) :
    ∃ x, ofBytes kind shape b = .ok x ∧ x.shape = shape ∧ x.holds kind = true ∧ x.Filled ∧
      ∀ d, shape.Holds d → x.get d =
        .ofWord kind (Element.decodeAt kind b (shape.flatten d * kind.itemsize)) := by
  have htyped : TypedArray.ofBytes kind shape b = .ok ⟨kind, shape, Element.decode kind b⟩ := by
    rw [TypedArray.ofBytes, Element.size_decode, checkCount_eq_ok.2 ⟨hcount, hsize⟩]
    rfl
  have hfilled : Dense.Filled ⟨shape, Element.decode kind b⟩ :=
    (Element.size_decode kind b).trans hsize
  have hget (d : List Nat) (hd : shape.Holds d) :
      Dense.get ⟨shape, Element.decode kind b⟩ d =
        Element.decodeAt kind b (shape.flatten d * kind.itemsize) :=
    Element.getD_decode kind b ((Shape.flatten_lt hd).trans_eq hsize.symm)
  have hmap {α : Type} [Inhabited α] (f : UInt64 → α) (d : List Nat) (hd : shape.Holds d) :
      (Dense.map f ⟨shape, Element.decode kind b⟩).get d =
        f (Element.decodeAt kind b (shape.flatten d * kind.itemsize)) := by
    rw [Dense.get_map f hfilled hd, hget d hd]
  rw [ofBytes, htyped]
  unfold Value.ofWord
  simp only [holds_iff]
  cases kind.representation with
  | bool =>
    exact ⟨_, rfl, rfl, rfl, Dense.filled_map _ hfilled, fun d hd => congrArg _ (hmap _ d hd)⟩
  | int => exact ⟨_, rfl, rfl, rfl, Dense.filled_map _ hfilled, fun d hd => congrArg _ (hmap _ d hd)⟩
  | uint => exact ⟨_, rfl, rfl, rfl, hfilled, fun d hd => congrArg _ (hget d hd)⟩
  | single =>
    exact ⟨_, rfl, rfl, rfl, Dense.filled_map _ hfilled, fun d hd => congrArg _ (hmap _ d hd)⟩
  | double => exact ⟨_, rfl, rfl, rfl, hfilled, fun d hd => congrArg _ (hget d hd)⟩

/-- The values of an operand made from bytes are those that the bytes spell. -/
theorem ofBytes_eq_ok {b : Bytes} (h : ofBytes kind shape b = .ok x) :
    (shape.isCountable = true ∧ b.size / kind.itemsize = shape.size) ∧ x.shape = shape ∧
      x.holds kind = true ∧ x.Filled ∧ ∀ d, shape.Holds d → x.get d =
        .ofWord kind (Element.decodeAt kind b (shape.flatten d * kind.itemsize)) := by
  obtain ⟨typed, htyped, -⟩ := bind_eq_ok.1 h
  obtain ⟨⟨⟩, hcheck, -⟩ := bind_eq_ok.1 htyped
  rw [Element.size_decode, checkCount_eq_ok] at hcheck
  obtain ⟨x', hx', hspec⟩ := exists_ofBytes hcheck.1 hcheck.2
  rw [h] at hx'
  cases hx'
  exact ⟨hcheck, hspec⟩

end Operand

end ChunkedArray
