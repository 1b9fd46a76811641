import ChunkedArray.Proofs.Array.Sound
import ChunkedArray.Proofs.Expr.Exact

/-!
# Conversions between integer kinds

An operand carries integers in words of 64 bits, signed or unsigned, and a cast may change the one into
the other, extend or cut off. None of this changes an integer modulo the width of the narrowest kind on
the way. So what an operand is written as in the end depends on the bytes it was read from alone: every
element is the integer in two's complement that was read, modulo the width of the last kind, as long as no
kind in between was narrower than that. Written in its own kind an operand gives the bytes back, and truth
values come back as zero or one.
-/

namespace ChunkedArray

/-- The integer that element number `i` of a byte string spells in two's complement. -/
def Element.integerAt (kind : ScalarKind) (b : Bytes) (i : Nat) : Int :=
  Word.integer kind.signed
    (BitVec.ofNat kind.bits (LittleEndian.readAt b (i * kind.itemsize) kind.itemsize))

variable {source target kind : ScalarKind} {b : Bytes} {v : Value}

theorem Element.integerAt_eq_reduce (h : kind.isInt = true) (b : Bytes) (i : Nat) :
    integerAt kind b i = kind.reduce (LittleEndian.readAt b (i * kind.itemsize) kind.itemsize) := by
  rw [integerAt, ← ScalarKind.integer_ofInt h, BitVec.ofInt_natCast]

theorem ScalarKind.two_pow_bits (kind : ScalarKind) : 2 ^ kind.bits = 256 ^ kind.itemsize := by
  rw [bits, Nat.pow_mul]

/-! ## Values -/

namespace Value

theorem size_encode (kind : ScalarKind) (v : Value) : (v.encode kind).size = kind.itemsize :=
  Element.size_encode_singleton kind _

theorem isFloat_cast (hkind : kind.isInt = true) (v : Value) :
    (v.cast kind).representation.isFloat = false := by
  rw [representation_cast, ScalarKind.isFloat_representation]
  exact ScalarKind.isFloat_of_isInt hkind

/-- A cast to an integer kind keeps the integer modulo every width that the kind has. -/
theorem integer_cast_modEq (hkind : kind.isInt = true) (hv : v.representation.isFloat = false)
    {width : Nat} (hwidth : width ≤ kind.bits) :
    (v.cast kind).integer ≡ v.integer [ZMOD 2 ^ width] := by
  rw [integer_cast (ScalarKind.isFloat_of_isInt hkind) hv]
  exact (ScalarKind.reduce_modEq hkind v.integer).of_dvd (pow_dvd_pow 2 hwidth)

/-- A chain of casts to integer kinds that are wide enough keeps the integer modulo the width. -/
theorem integer_foldl_cast_modEq {kinds : List ScalarKind} {width : Nat}
    (hkinds : ∀ kind ∈ kinds, kind.isInt = true ∧ width ≤ kind.bits)
    (hv : v.representation.isFloat = false) :
    (kinds.foldl cast v).integer ≡ v.integer [ZMOD 2 ^ width] ∧
      (kinds.foldl cast v).representation.isFloat = false := by
  induction kinds generalizing v with
  | nil => exact ⟨Int.ModEq.refl _, hv⟩
  | cons kind kinds ih =>
    obtain ⟨⟨hkind, hwidth⟩, hrest⟩ := List.forall_mem_cons.1 hkinds
    obtain ⟨hchain, hrep⟩ := ih hrest (isFloat_cast hkind v)
    exact ⟨hchain.trans (integer_cast_modEq hkind hv hwidth), hrep⟩

/-- The word of a value that is no floating-point number is its integer modulo the number of words. -/
theorem word_modEq (hv : v.representation.isFloat = false) :
    (v.word.toNat : Int) ≡ v.integer [ZMOD 2 ^ 64] := by
  have hword : v.word = v.toUInt := by
    cases v with
    | single x => cases hv
    | double x => cases hv
    | _ => rfl
  rw [hword]
  exact toUInt_modEq hv

/-- A value is written in an integer kind as its integer modulo the width of the kind. -/
theorem encode_eq (hkind : kind.isInt = true) (hv : v.representation.isFloat = false) :
    v.encode kind = LittleEndian.bytes kind.itemsize (v.integer % 2 ^ kind.bits).toNat := by
  have hbits : kind.bits ≤ 64 := by cases kind <;> decide
  have hword : ((v.cast kind).word.toNat : Int) ≡ v.integer [ZMOD 2 ^ kind.bits] :=
    ((word_modEq (isFloat_cast hkind v)).of_dvd (pow_dvd_pow 2 hbits)).trans
      (integer_cast_modEq hkind hv le_rfl)
  have hnat : (v.cast kind).word.toNat % 256 ^ kind.itemsize = (v.integer % 2 ^ kind.bits).toNat := by
    rw [← hword, ← ScalarKind.two_pow_bits]
    exact_mod_cast (Int.toNat_natCast _).symm
  rw [encode, Element.encode_singleton, ← LittleEndian.bytes_mod, hnat]

/-- Cast from kind to kind and written in a kind that was nowhere narrower on the way, an element is the
integer that was read, modulo the width. -/
theorem encode_foldl_cast {kinds : List ScalarKind} (hsource : source.isInt = true)
    (htarget : target.isInt = true)
    (hkinds : ∀ kind ∈ kinds, kind.isInt = true ∧ target.bits ≤ kind.bits) (b : Bytes) (i : Nat) :
    (kinds.foldl cast (ofWord source (Element.decodeAt source b (i * source.itemsize)))).encode target =
      LittleEndian.bytes target.itemsize (Element.integerAt source b i % 2 ^ target.bits).toNat := by
  have hfloat := ScalarKind.isFloat_of_isInt hsource
  have hrep : (ofWord source (Element.decodeAt source b (i * source.itemsize))).representation.isFloat =
      false := by
    rw [representation_ofWord, ScalarKind.isFloat_representation, hfloat]
  obtain ⟨hchain, hrep'⟩ := integer_foldl_cast_modEq hkinds hrep
  rw [encode_eq htarget hrep', hchain, integer_ofWord_decodeAt hfloat,
    Element.integerAt_eq_reduce hsource]

/-- An element that is no truth value is written in its own kind as it was read. -/
theorem encode_ofWord_decodeAt (hbool : kind ≠ .bool) (b : Bytes) (pos : Nat) :
    (ofWord kind (Element.decodeAt kind b pos)).encode kind =
      LittleEndian.bytes kind.itemsize (LittleEndian.readAt b pos kind.itemsize) := by
  have hlt := LittleEndian.readAt_lt b pos kind.itemsize
  cases hfloat : kind.isFloat with
  | false =>
    have hint : kind.isInt = true := (ScalarKind.isInt_or_bool hfloat).resolve_right hbool
    have hrep : (ofWord kind (Element.decodeAt kind b pos)).representation.isFloat = false := by
      rw [representation_ofWord, ScalarKind.isFloat_representation, hfloat]
    rw [encode_eq hint hrep, integer_ofWord_decodeAt hfloat, ScalarKind.reduce_modEq hint]
    rw [← ScalarKind.two_pow_bits] at hlt
    congr 1
    rw [Int.emod_eq_of_lt (Int.natCast_nonneg _) (by exact_mod_cast hlt), Int.toNat_natCast]
  | true =>
    rw [encode, Element.encode_singleton, Element.decodeAt, if_neg hbool]
    generalize LittleEndian.readAt b pos kind.itemsize = n at hlt
    congr 1
    cases kind with
    | float32 =>
      change (UInt64.ofNat n).toUInt32.toUInt64.toNat = n
      change n < 2 ^ 32 at hlt
      rw [UInt32.toNat_toUInt64, UInt64.toNat_toUInt32, UInt64.toNat_ofNat']
      omega
    | float64 =>
      change (UInt64.ofNat n).toNat = n
      exact UInt64.toNat_ofNat_of_lt hlt
    | _ => cases hfloat

/-- A truth value is written as zero or one. -/
theorem encode_ofWord_decodeAt_bool (b : Bytes) (pos : Nat) :
    (ofWord .bool (Element.decodeAt .bool b pos)).encode .bool =
      #[if b.getD pos 0 = 0 then 0 else 1] := by
  have hread : LittleEndian.readAt b pos ScalarKind.bool.itemsize = (b.getD pos 0).toNat := by
    simp [ScalarKind.itemsize, LittleEndian.readAt]
  have hzero : UInt64.ofNat (b.getD pos 0).toNat = 0 ↔ b.getD pos 0 = 0 := by
    have hlt := (b.getD pos 0).toNat_lt
    rw [← UInt64.toNat_inj, UInt64.toNat_ofNat', Nat.mod_eq_of_lt (hlt.trans (by decide)),
      ← UInt8.toNat_inj]
    rfl
  rw [Element.decodeAt, if_pos rfl, hread]
  simp only [hzero]
  split <;> rfl

end Value

/-! ## Rows of bytes -/

namespace Bytes

/-- Bytes that are read in one width and written in the same width. -/
theorem concat_map_readAt {n : Nat} (hsize : b.size = n * kind.itemsize) :
    concat ((List.range n).map fun i => LittleEndian.bytes kind.itemsize
      (LittleEndian.readAt b (i * kind.itemsize) kind.itemsize)) = b := by
  refine (eq_concat_map_range hsize (fun i _ => LittleEndian.size_bytes _ _) ?_).symm
  exact fun i _ k hk => (LittleEndian.getD_bytes_readAt b _ hk).symm

/-- Bytes that are changed one by one. -/
theorem concat_map_singleton (f : UInt8 → UInt8) (b : Bytes) :
    concat ((List.range b.size).map fun i => #[f (b.getD i 0)]) = b.map f := by
  refine (@eq_concat_map_range (b.map f) 1 b.size (fun i => #[f (b.getD i 0)]) ?_ ?_ ?_).symm
  · rw [Array.size_map, Nat.mul_one]
  · exact fun i _ => rfl
  · intro i hi k hk
    obtain rfl : k = 0 := by omega
    simp [Array.getD_eq_getD_getElem?, hi]

end Bytes

/-! ## Operands -/

namespace Operand

variable {x : Operand} {shape : Shape} {d : List Nat}

theorem shape_foldl_cast (kinds : List ScalarKind) (x : Operand) :
    (kinds.foldl cast x).shape = x.shape := by
  induction kinds generalizing x with
  | nil => rfl
  | cons kind kinds ih => rw [List.foldl_cons, ih, shape_cast]

theorem filled_foldl_cast (kinds : List ScalarKind) (h : x.Filled) : (kinds.foldl cast x).Filled := by
  induction kinds generalizing x with
  | nil => exact h
  | cons kind kinds ih => exact ih (filled_cast h)

/-- A chain of casts of an operand casts its values. -/
theorem get_foldl_cast (kinds : List ScalarKind) (h : x.Filled) (hd : x.shape.Holds d) :
    (kinds.foldl cast x).get d = kinds.foldl Value.cast (x.get d) := by
  induction kinds generalizing x with
  | nil => rfl
  | cons kind kinds ih =>
    rw [List.foldl_cons, List.foldl_cons, ← get_cast h hd]
    exact ih (filled_cast h) (by rwa [shape_cast])

/-- The bytes of an operand are those of its values, in C order. -/
theorem toBytes_eq_concat (h : x.Filled) : x.toBytes kind =
    Bytes.concat ((List.range x.shape.size).map fun i => (x.get (x.shape.unflatten i)).encode kind) := by
  refine Bytes.eq_concat_map_range (size_toBytes h) (fun i _ => Value.size_encode kind _) fun i hi k hk => ?_
  have hbyte := getD_toBytes h (Shape.holds_unflatten hi) hk
  rwa [Shape.flatten_unflatten _ _ hi] at hbyte

/-! ## From bytes to bytes -/

/-- No operand is made of a shape whose elements cannot be counted. -/
theorem ofBytes_of_not_countable (kind : ScalarKind) (b : Bytes) (h : shape.isCountable = false) :
    ofBytes kind shape b = .error (.shape .uncountable) := by
  rw [ofBytes, TypedArray.ofBytes, Shape.checkCount, h]
  rfl

/-- An operand made from bytes, cast from kind to kind and written: so is each of its elements. -/
theorem exists_ofBytes_toBytes (hcount : shape.isCountable = true)
    (hsize : b.size = shape.size * source.itemsize) :
    ∃ x, ofBytes source shape b = .ok x ∧ ∀ (kinds : List ScalarKind) (target : ScalarKind),
      (kinds.foldl cast x).toBytes target = Bytes.concat ((List.range shape.size).map fun i =>
        (kinds.foldl Value.cast (.ofWord source (Element.decodeAt source b (i * source.itemsize)))).encode
          target) := by
  have hdiv : b.size / source.itemsize = shape.size := by
    rw [hsize, Nat.mul_div_cancel _ source.itemsize_pos]
  obtain ⟨x, hx, rfl, -, hfilled, hget⟩ := exists_ofBytes hcount hdiv
  refine ⟨x, hx, fun kinds target => ?_⟩
  rw [toBytes_eq_concat (filled_foldl_cast kinds hfilled), shape_foldl_cast]
  congr 1
  refine List.map_congr_left fun i hi => ?_
  have hlt : i < x.shape.size := List.mem_range.1 hi
  have hholds := Shape.holds_unflatten hlt
  rw [get_foldl_cast kinds hfilled hholds, hget _ hholds, Shape.flatten_unflatten _ _ hlt]

/-- The bytes of as many elements as a shape has places make an operand if these can be counted, and are
refused if they cannot. Read as integers of one kind, cast from kind to kind and written in a kind that
was nowhere narrower on the way, every element comes out as the integer that its bytes spelled, modulo the
width of the last kind. Written in the kind in which they were read, the bytes come back, and of a truth
value whether it was zero. -/
theorem toBytes_foldl_cast (hsize : b.size = shape.size * source.itemsize) :
    (shape.isCountable = false → ofBytes source shape b = .error (.shape .uncountable)) ∧
    (shape.isCountable = true → ∃ x, ofBytes source shape b = .ok x ∧
      (source.isInt = true → ∀ target, target.isInt = true → ∀ kinds : List ScalarKind,
        (∀ kind ∈ kinds, kind.isInt = true ∧ target.bits ≤ kind.bits) →
        (kinds.foldl cast x).toBytes target = Bytes.concat ((List.range shape.size).map fun i =>
          LittleEndian.bytes target.itemsize
            (Element.integerAt source b i % 2 ^ target.bits).toNat)) ∧
      (source ≠ .bool → x.toBytes source = b) ∧
      (source = .bool → x.toBytes source = b.map fun y => if y = 0 then 0 else 1)) := by
  refine ⟨ofBytes_of_not_countable source b, fun hcount => ?_⟩
  obtain ⟨x, hx, hbytes⟩ := exists_ofBytes_toBytes hcount hsize
  refine ⟨x, hx, fun hsource target htarget kinds hkinds => ?_, fun hbool => ?_, ?_⟩
  · rw [hbytes]
    congr 1
    exact List.map_congr_left fun i _ => Value.encode_foldl_cast hsource htarget hkinds b i
  · refine (hbytes [] source).trans ?_
    simp only [List.foldl_nil, Value.encode_ofWord_decodeAt hbool]
    exact Bytes.concat_map_readAt hsize
  · rintro rfl
    have hcells : b.size = shape.size := hsize.trans (Nat.mul_one _)
    refine (hbytes [] .bool).trans ?_
    simp only [List.foldl_nil, Value.encode_ofWord_decodeAt_bool, ScalarKind.itemsize, Nat.mul_one]
    rw [← hcells]
    exact Bytes.concat_map_singleton (fun y => if y = 0 then 0 else 1) b

/-- The least and the greatest integer of one byte: the sign is extended into an unsigned word of 64 bits,
which is cut off twice. -/
theorem toBytes_foldl_cast_extremes :
    let b : Bytes := #[0x80, 0x7f]
    let kinds : List ScalarKind := [.uint64, .int32, .uint16]
    b.size = Shape.size [2] * ScalarKind.int8.itemsize ∧ Shape.isCountable [2] = true ∧
      (∀ kind ∈ kinds, kind.isInt = true ∧ ScalarKind.uint16.bits ≤ kind.bits) ∧
      Element.integerAt .int8 b 0 = -128 ∧ Element.integerAt .int8 b 1 = 127 ∧
      (∃ x, ofBytes .int8 [2] b = .ok x ∧ x.toBytes .int8 = b ∧
        (kinds.foldl cast x).toBytes .uint16 = #[0x80, 0xff, 0x7f, 0x00]) ∧
      ∃ x, ofBytes .bool [2] b = .ok x ∧ x.toBytes .bool = #[1, 1] := by
  intro b kinds
  have hsize : b.size = Shape.size [2] * ScalarKind.int8.itemsize := rfl
  have hcount : Shape.isCountable [2] = true := by decide
  have hkinds : ∀ kind ∈ kinds, kind.isInt = true ∧ ScalarKind.uint16.bits ≤ kind.bits := by decide
  obtain ⟨-, hread⟩ := @toBytes_foldl_cast .int8 b [2] hsize
  obtain ⟨x, hx, hchain, hsame, -⟩ := hread hcount
  obtain ⟨-, hreadTruth⟩ := @toBytes_foldl_cast .bool b [2] rfl
  obtain ⟨y, hy, -, -, htruth⟩ := hreadTruth hcount
  refine ⟨hsize, hcount, hkinds, by decide, by decide, ⟨x, hx, hsame (by decide), ?_⟩,
    y, hy, (htruth rfl).trans (by simp [b])⟩
  exact (hchain rfl .uint16 rfl kinds hkinds).trans (by decide)

/-- An array with an axis of `2 ^ 63` and an empty one has no elements, and its bytes are none; but no
operand is made of them. -/
theorem toBytes_beyond_words :
    let shape : Shape := [2 ^ 63, 0]
    (#[] : Bytes).size = shape.size * ScalarKind.int8.itemsize ∧
      ¬ ∃ x, ofBytes .int8 shape #[] = .ok x ∧ x.toBytes .int8 = #[] := by
  intro shape
  refine ⟨rfl, ?_⟩
  rintro ⟨x, hx, -⟩
  rw [ofBytes_of_not_countable .int8 #[] (by decide)] at hx
  cases hx

end Operand

end ChunkedArray
