/-!
# Powers and sums of numbers

Powers and sums are written in many modules, some of which see further instances for them. With these
ones in front they are the same everywhere.
-/

namespace ChunkedArray

@[default_instance 10002]
instance (priority := high) natPower : Pow Nat Nat := instPowNat

@[default_instance 10001]
instance (priority := high) intPower : Pow Int Nat := instPowNat

instance (priority := high) natZero : Zero Nat := Zero.ofOfNat0

end ChunkedArray
