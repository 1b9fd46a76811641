import ChunkedArray.Bytes.LittleEndian

/-!
# The delta filter

Every element of fixed width but the first is replaced by its exclusive or with the element before.
Bytes after the last whole element stay as they are. Exclusive or works byte by byte, so elements of
eight bytes may be taken as words.
-/

namespace ChunkedArray.XorDelta

/-- The bytes that belong to whole elements. -/
def bodySize (typesize : Nat) (b : Bytes) : Nat :=
  b.size / typesize * typesize

/-- Takes the differences byte by byte. -/
def encodeBytes (typesize : Nat) (b : Bytes) : Bytes :=
  Array.ofFn fun i : Fin b.size =>
    let x := b.getD i 0
    if typesize ≤ i ∧ i < bodySize typesize b then x ^^^ b.getD (i - typesize) 0 else x

/-- Restores `n` more bytes behind those restored so far. -/
def restoreBytes (typesize body : Nat) (b out : Bytes) : (n : Nat) → Bytes
  | 0 => out
  | n + 1 =>
    let i := out.size
    let x := b.getD i 0
    restoreBytes typesize body b
      (out.push (if typesize ≤ i ∧ i < body then x ^^^ out.getD (i - typesize) 0 else x)) n

/-- Undoes the differences byte by byte. -/
def decodeBytes (typesize : Nat) (b : Bytes) : Bytes :=
  restoreBytes typesize (bodySize typesize b) b #[] b.size

/-- The word number `i` of a byte string. -/
def wordAt (b : Bytes) (i : Nat) : UInt64 :=
  UInt64.ofNat (LittleEndian.readAt b (8 * i) 8)

/-- The bytes of a list of words. -/
def ofWords (words : List UInt64) : Bytes :=
  (words.flatMap fun w => LittleEndian.ofNat 8 w.toNat).toArray

/-- Takes the differences of elements of eight bytes, word by word. -/
def encodeWords (b : Bytes) : Bytes :=
  ofWords ((List.range (b.size / 8)).map fun i =>
    if i = 0 then wordAt b 0 else wordAt b i ^^^ wordAt b (i - 1)) ++
  b.extract (bodySize 8 b)

/-- Undoes the differences of words; `before` is the word restored last. -/
def restoreWords (before : UInt64) : List UInt64 → List UInt64
  | [] => []
  | w :: rest => (w ^^^ before) :: restoreWords (w ^^^ before) rest

/-- Undoes the differences of elements of eight bytes, word by word. -/
def decodeWords (b : Bytes) : Bytes :=
  ofWords (restoreWords 0 ((List.range (b.size / 8)).map (wordAt b))) ++ b.extract (bodySize 8 b)

/-- Takes the differences of neighbouring elements; elements of no width have none. -/
def encode (typesize : Nat) (b : Bytes) : Bytes :=
  if typesize = 0 then b else encodeBytes typesize b

/-- Undoes the differences of neighbouring elements. -/
def decode (typesize : Nat) (b : Bytes) : Bytes :=
  if typesize = 0 then b else decodeBytes typesize b

@[simp] theorem size_encode (typesize : Nat) (b : Bytes) : (encode typesize b).size = b.size := by
  unfold encode encodeBytes; split <;> simp

theorem size_restoreBytes (typesize body : Nat) (b out : Bytes) (n : Nat) :
    (restoreBytes typesize body b out n).size = out.size + n := by
  induction n generalizing out with
  | zero => rfl
  | succ n ih => rw [restoreBytes, ih]; simp; omega

@[simp] theorem size_decode (typesize : Nat) (b : Bytes) : (decode typesize b).size = b.size := by
  unfold decode decodeBytes; split <;> simp [size_restoreBytes]

end ChunkedArray.XorDelta
