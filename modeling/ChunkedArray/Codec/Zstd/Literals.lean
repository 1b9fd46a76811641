import ChunkedArray.Codec.Zstd.PrefixCode

/-!
# Literals

The first part of a compressed block holds its literal bytes: as they are, as one repeated byte, or
in a prefix code. The code is described in front of the literals, or it is that of an earlier block.
-/

namespace ChunkedArray.Zstd

/-- How literals are written. -/
inductive LiteralForm where
  /-- As they are. -/
  | plain
  /-- As one repeated byte. -/
  | repeated
  /-- In a prefix code that is described in front of them. -/
  | coded
  /-- In the prefix code of an earlier block. -/
  | codedAgain
deriving DecidableEq, Repr

/-- What the head of the literals says. -/
structure LiteralHead where
  /-- How they are written. -/
  form : LiteralForm
  /-- The size of the head. -/
  start : Nat
  /-- The number of literals. -/
  count : Nat
  /-- The number of bytes that they are written in. -/
  written : Nat
  /-- Whether coded literals form a single stream, not four. -/
  single : Bool
deriving DecidableEq, Repr

namespace LiteralHead

/-- Reads a head at the start of the input. Its size depends on two bits of the first byte. -/
def read (b : Bytes) : LiteralHead :=
  let head := (b.getD 0 0).toNat
  let layout := head / 4 % 4
  let uncoded (form : LiteralForm) (written : Nat → Nat) : LiteralHead :=
    let (count, start) :=
      if layout % 2 = 0 then (head / 8, 1)
      else if layout = 1 then (LittleEndian.readAt b 0 2 / 16, 2)
      else (LittleEndian.readAt b 0 3 / 16, 3)
    ⟨form, start, count, written count, false⟩
  let coded (form : LiteralForm) : LiteralHead :=
    let width := if layout < 2 then 10 else if layout = 2 then 14 else 18
    let sizes := LittleEndian.readAt b 0 5 / 16
    ⟨form, (4 + 2 * width) / 8, sizes % 2 ^ width, sizes / 2 ^ width % 2 ^ width, layout = 0⟩
  match head % 4 with
  | 0 => uncoded .plain id
  | 1 => uncoded .repeated fun _ => 1
  | 2 => coded .coded
  | _ => coded .codedAgain

/-- The position behind the literals. -/
def stop (head : LiteralHead) : Nat :=
  head.start + head.written

/-- Whether the literals are used where they are written: plain ones with 32 more bytes of the block
behind them. -/
def staysInPlace (head : LiteralHead) (b : Bytes) : Bool :=
  head.form = .plain && head.stop + 32 ≤ b.size

end LiteralHead

/-- Decodes literals in a prefix code. -/
def decodeLiterals (code : PrefixCode) (head : LiteralHead) (b : Bytes) : Option Bytes :=
  if head.single then code.decodeStream #[] head.count b
  else code.decodeFour head.count b

/-- Reads the literals behind their head. Gives them and the code that later blocks may use again.
-/
def readLiterals (former : Option PrefixCode) (head : LiteralHead) (b : Bytes) :
    Option (Bytes × Option PrefixCode) :=
  let written := b.extract head.start head.stop
  if b.size < head.stop then none
  else
    match head.form with
    | .plain => some (written, former)
    | .repeated => some (Array.replicate head.count (written.getD 0 0), former)
    | .coded => do
      let (code, used) ← PrefixCode.read written
      some (← decodeLiterals code head (written.extract used), some code)
    | .codedAgain => do
      some (← decodeLiterals (← former) head written, former)

end ChunkedArray.Zstd
