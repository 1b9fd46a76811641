import ChunkedArray.Proofs.Bytes.LittleEndian
import ChunkedArray.Scalar.Element

/-!
# Rows of elements

Encoded elements stand side by side, each in the width of its kind, and every one of them is encoded
as if it stood alone. A decoded element depends on the bytes of its own place alone.
-/

namespace ChunkedArray.Element

variable {kind : ScalarKind} {a b : Bytes}

/-- A word is added with its bytes, the least significant one first. -/
theorem push_eq_append_bytes (out : Bytes) (word : UInt64) (width : Nat) :
    push out word width = out ++ LittleEndian.bytes width word.toNat := by
  induction width generalizing out word with
  | zero => simp [push, LittleEndian.bytes, LittleEndian.ofNat]
  | succ width ih =>
    have hbyte : UInt8.ofNat (word.toNat % 256) = word.toUInt8 := UInt8.toNat_inj.1 (by simp)
    have hshift : (word >>> 8).toNat = word.toNat / 256 := by
      rw [UInt64.toNat_shiftRight]
      exact Nat.shiftRight_eq_div_pow _ _
    rw [push, ih, hshift]
    simp [LittleEndian.bytes, LittleEndian.ofNat, hbyte]

theorem foldl_push_eq_append (width : Nat) (out : Bytes) (words : List UInt64) :
    words.foldl (fun out word => push out word width) out =
      out ++ words.foldl (fun out word => push out word width) #[] := by
  induction words generalizing out with
  | nil => simp
  | cons word words ih =>
    rw [List.foldl_cons, List.foldl_cons, ih, ih (push #[] word width), push_eq_append_bytes,
      push_eq_append_bytes #[], Array.empty_append, Array.append_assoc]

/-- The bytes of the first element stand in front of those of the others. -/
theorem encode_cons (kind : ScalarKind) (word : UInt64) (rest : List UInt64) :
    encode kind (word :: rest).toArray = encode kind #[word] ++ encode kind rest.toArray := by
  simp only [encode, List.foldl_toArray', List.foldl_cons]
  exact foldl_push_eq_append kind.itemsize _ rest

/-- An element that stands alone is encoded as the bytes of its word. -/
theorem encode_singleton (kind : ScalarKind) (word : UInt64) :
    encode kind #[word] = LittleEndian.bytes kind.itemsize word.toNat := by
  simp [encode, push_eq_append_bytes]

theorem size_encode_singleton (kind : ScalarKind) (word : UInt64) :
    (encode kind #[word]).size = kind.itemsize := by
  rw [encode_singleton, LittleEndian.size_bytes]

theorem size_encode (kind : ScalarKind) (words : Array UInt64) :
    (encode kind words).size = words.size * kind.itemsize := by
  obtain ⟨words⟩ := words
  induction words with
  | nil => simp [encode]
  | cons word rest ih =>
    rw [encode_cons, Array.size_append, size_encode_singleton, ih]
    simp only [List.size_toArray, List.length_cons, Nat.succ_mul]
    omega

/-- Every element is encoded as if it stood alone. -/
theorem getD_encode (kind : ScalarKind) (words : Array UInt64) {i k : Nat} (hi : i < words.size)
    (hk : k < kind.itemsize) :
    (encode kind words).getD (i * kind.itemsize + k) 0 = (encode kind #[words.getD i 0]).getD k 0 := by
  obtain ⟨words⟩ := words
  induction words generalizing i with
  | nil => cases hi
  | cons word rest ih =>
    rw [encode_cons, Bytes.getD_append, size_encode_singleton]
    cases i with
    | zero =>
      rw [Nat.zero_mul, Nat.zero_add, if_pos hk]
      rfl
    | succ i =>
      have hrest := ih (i := i) (by simpa using hi)
      rw [Nat.succ_mul, if_neg (by omega),
        show i * kind.itemsize + kind.itemsize + k - kind.itemsize = i * kind.itemsize + k by omega,
        hrest]
      simp [Array.getD_eq_getD_getElem?]

theorem itemsize_pos (kind : ScalarKind) : 0 < kind.itemsize := by
  cases kind <;> exact Nat.succ_pos _

/-- A decoded element depends on the bytes of its place. -/
theorem decodeAt_congr {p q : Nat} (h : ∀ k < kind.itemsize, a.getD (p + k) 0 = b.getD (q + k) 0) :
    decodeAt kind a p = decodeAt kind b q := by
  rw [decodeAt, decodeAt, LittleEndian.readAt_congr h]

theorem getD_decode (kind : ScalarKind) (b : Bytes) {i : Nat} (hi : i < b.size / kind.itemsize) :
    (decode kind b).getD i 0 = decodeAt kind b (i * kind.itemsize) := by
  simp [decode, Array.getD_eq_getD_getElem?, hi]

end ChunkedArray.Element
