import ChunkedArray.Bytes

/-!
# CRC-32

The cyclic redundancy check with the reflected polynomial `0xedb88320`, initial state and final
mask of all ones. It is a left fold over the bytes, so the checksum of a joined string continues
the state of its first part (`update_append`).
-/

namespace ChunkedArray.Crc32

/-- One step of the division by the generator polynomial. -/
def shift (state : UInt32) : UInt32 :=
  if state &&& 1 == 1 then (state >>> 1) ^^^ 0xedb88320 else state >>> 1

/-- The state after one more byte. -/
def step (state : UInt32) (byte : UInt8) : UInt32 :=
  shift <| shift <| shift <| shift <| shift <| shift <| shift <| shift <|
    state ^^^ byte.toUInt32

/-- The state after all bytes of a string. -/
def update (state : UInt32) (b : Bytes) : UInt32 :=
  b.foldl step state

/-- The checksum of a byte string. -/
def checksum (b : Bytes) : UInt32 :=
  update 0xffffffff b ^^^ 0xffffffff

theorem update_append (state : UInt32) (a b : Bytes) :
    update state (a ++ b) = update (update state a) b := by
  simp [update]

end ChunkedArray.Crc32
