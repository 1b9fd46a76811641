import ChunkedArray.Json.Token
import ChunkedArray.Proofs.Text.Utf8

/-!
# Escaped text reads back

A text is escaped character by character. What stands for a character is either an escape, which the
reader of strings takes as a whole, or bytes that mean themselves. So the bytes of an escaped text
reach to the closing quote and no farther, and they read back as the text.
-/

namespace ChunkedArray.Json

/-- Bytes that mean themselves between quotes: no quote, no backslash and no control character. -/
def IsPlain (b : UInt8) : Prop := ¬ b < 0x20 ∧ b ≠ 0x22 ∧ b ≠ 0x5c

/-- What stands for a character between quotes, as bytes. -/
def spelling (c : Char) : List UInt8 :=
  (escapeChar c).flatMap String.utf8EncodeChar

theorem isPlain_of_toNat {b : UInt8} (hcontrol : 0x20 ≤ b.toNat) (hquote : b.toNat ≠ 0x22)
    (hslash : b.toNat ≠ 0x5c) : IsPlain b := by
  refine ⟨fun h => ?_, fun h => hquote (by rw [h]; rfl), fun h => hslash (by rw [h]; rfl)⟩
  have hlt := UInt8.lt_iff_toNat_lt.1 h
  have hspace : (0x20 : UInt8).toNat = 0x20 := rfl
  omega

/-- The bytes of an escaped text are the spellings of its characters. -/
theorem encode_escape (s : String) : Utf8.encode (escape s) = s.toList.flatMap spelling := by
  rw [escape, Utf8.encode_ofList, List.flatMap_assoc]
  rfl

/-! ## Plain bytes -/

theorem stringBody_plain {b : UInt8} (h : IsPlain b) (done rest : List UInt8) :
    Token.stringBody done (b :: rest) = Token.stringBody (b :: done) rest := by
  obtain ⟨hcontrol, hquote, hslash⟩ := h
  rw [Token.stringBody, if_neg (by simp_all)]
  all_goals simp_all

theorem unescape_plain {b : UInt8} (h : IsPlain b) (done rest : List UInt8) :
    unescape done (b :: rest) = unescape (b :: done) rest := by
  obtain ⟨hcontrol, hquote, hslash⟩ := h
  rw [unescape]
  all_goals simp_all

theorem stringBody_append_of_plain {bs : List UInt8} (h : ∀ b ∈ bs, IsPlain b)
    (done rest : List UInt8) :
    Token.stringBody done (bs ++ rest) = Token.stringBody (bs.reverse ++ done) rest := by
  induction bs generalizing done with
  | nil => rfl
  | cons b bs ih =>
    rw [List.cons_append, stringBody_plain (h b List.mem_cons_self),
      ih fun b' hb' => h b' (List.mem_cons_of_mem _ hb')]
    simp

theorem unescape_append_of_plain {bs : List UInt8} (h : ∀ b ∈ bs, IsPlain b)
    (done rest : List UInt8) :
    unescape done (bs ++ rest) = unescape (bs.reverse ++ done) rest := by
  induction bs generalizing done with
  | nil => rfl
  | cons b bs ih =>
    rw [List.cons_append, unescape_plain (h b List.mem_cons_self),
      ih fun b' hb' => h b' (List.mem_cons_of_mem _ hb')]
    simp

/-! ## Spellings -/

/-- The ways in which a character is spelled. -/
inductive Spelled (c : Char) : Prop where
  /-- By its own bytes. -/
  | plain (hbytes : spelling c = String.utf8EncodeChar c)
      (h : ∀ b ∈ String.utf8EncodeChar c, IsPlain b)
  /-- By a backslash and a letter. -/
  | short (letter b : UInt8) (hbytes : spelling c = [0x5c, letter]) (hletter : letter ≠ 0x75)
      (hvalue : shortEscape? letter = some b) (hb : String.utf8EncodeChar c = [b])
  /-- By its number in four hexadecimal digits. -/
  | quad (high low : UInt8) (hbytes : spelling c = [0x5c, 0x75, 0x30, 0x30, high, low])
      (hvalue : hexQuad? 0x30 0x30 high low = some c.toNat) (hlt : c.toNat < 0x20)

/-- The two digits of a control character. -/
theorem hexByte_of_lt : ∀ n < 0x20,
    (hexByte n).flatMap String.utf8EncodeChar =
        [UInt8.ofNat (Nat.digitChar (n / 16 % 16)).toNat,
          UInt8.ofNat (Nat.digitChar (n % 16)).toNat] ∧
      hexQuad? 0x30 0x30 (UInt8.ofNat (Nat.digitChar (n / 16 % 16)).toNat)
        (UInt8.ofNat (Nat.digitChar (n % 16)).toNat) = some n := by
  decide

/-- A character that is told by its number is spelled by its letter. -/
theorem spelled_of_toNat {c : Char} {n : Nat} (h : c.toNat = n) (letter b : UInt8)
    (hbytes : spelling (Char.ofNat n) = [0x5c, letter]) (hletter : letter ≠ 0x75)
    (hvalue : shortEscape? letter = some b) (hb : String.utf8EncodeChar (Char.ofNat n) = [b]) :
    Spelled c := by
  have hc := Char.ofNat_toNat c
  rw [h] at hc
  subst hc
  exact .short letter b hbytes hletter hvalue hb

theorem spelled (c : Char) : Spelled c := by
  have hbytes : spelling c = (escapeChar c).flatMap String.utf8EncodeChar := rfl
  -- The cases of the escaping in turn: two signs by themselves, five short escapes, other control
  -- characters, and what is written as it is.
  unfold escapeChar at hbytes
  split at hbytes
  · subst c
    exact .short 0x22 0x22 hbytes (by decide) rfl rfl
  split at hbytes
  · subst c
    exact .short 0x5c 0x5c hbytes (by decide) rfl rfl
  split at hbytes
  · exact spelled_of_toNat ‹_› 0x62 0x08 rfl (by decide) rfl rfl
  split at hbytes
  · exact spelled_of_toNat ‹_› 0x74 0x09 rfl (by decide) rfl rfl
  split at hbytes
  · exact spelled_of_toNat ‹_› 0x6e 0x0a rfl (by decide) rfl rfl
  split at hbytes
  · exact spelled_of_toNat ‹_› 0x66 0x0c rfl (by decide) rfl rfl
  split at hbytes
  · exact spelled_of_toNat ‹_› 0x72 0x0d rfl (by decide) rfl rfl
  split at hbytes
  · rename_i hlt
    obtain ⟨hdigits, hvalue⟩ := hexByte_of_lt c.toNat hlt
    rw [List.flatMap_append, hdigits] at hbytes
    exact .quad _ _ hbytes hvalue hlt
  · rename_i hquote hslash _ _ _ _ _ hcontrol
    refine .plain (by simpa using hbytes) fun b hb => ?_
    rcases Nat.lt_or_ge c.toNat 128 with hascii | hlarge
    · rw [Utf8.utf8EncodeChar_of_lt hascii, List.mem_singleton] at hb
      have hb' : b.toNat = c.toNat := by
        rw [hb, UInt8.toNat_ofNat', Nat.mod_eq_of_lt (by omega)]
      refine isPlain_of_toNat (by omega) (fun h => hquote ?_) fun h => hslash ?_
      · rw [← Char.ofNat_toNat c, ← hb', h]
      · rw [← Char.ofNat_toNat c, ← hb', h]
    · have hb' := Utf8.le_of_mem_utf8EncodeChar hlarge hb
      exact isPlain_of_toNat (by omega) (by omega) (by omega)

/-- The reader of strings passes over a spelling. -/
theorem stringBody_spelling (c : Char) (done rest : List UInt8) :
    Token.stringBody done (spelling c ++ rest) =
      Token.stringBody ((spelling c).reverse ++ done) rest := by
  cases spelled c with
  | plain hbytes h =>
    rw [hbytes]
    exact stringBody_append_of_plain h done rest
  | short letter b hbytes hletter hvalue hb =>
    rw [hbytes]
    simp only [List.cons_append, List.nil_append, List.reverse_cons, List.reverse_nil]
    rw [Token.stringBody.eq_4, if_pos (by rw [hvalue]; rfl)]
    intro a b c d rest' h _
    exact hletter h
  | quad high low hbytes hvalue hlt =>
    rw [hbytes]
    simp only [List.cons_append, List.nil_append, List.reverse_cons, List.reverse_nil]
    rw [Token.stringBody.eq_3, if_pos (by rw [hvalue]; rfl)]

/-- A spelling is resolved to the bytes of its character. -/
theorem unescape_spelling (c : Char) (done rest : List UInt8) :
    unescape done (spelling c ++ rest) =
      unescape ((String.utf8EncodeChar c).reverse ++ done) rest := by
  cases spelled c with
  | plain hbytes h =>
    rw [hbytes]
    exact unescape_append_of_plain h done rest
  | short letter b hbytes hletter hvalue hb =>
    rw [hbytes, hb]
    simp only [List.cons_append, List.nil_append, List.reverse_cons, List.reverse_nil]
    rw [unescape.eq_3, hvalue]
    intro a b c d rest' h _
    exact hletter h
  | quad high low hbytes hvalue hlt =>
    have hbytes' : codePointBytes c.toNat = String.utf8EncodeChar c := by
      rw [codePointBytes, Char.ofNat_toNat, Utf8.encode_eq_flatMap]
      simp
    rw [hbytes]
    simp only [List.cons_append, List.nil_append]
    rw [unescape.eq_2]
    simp only [hvalue]
    rw [if_pos (by omega), hbytes']

/-! ## Texts -/

/-- Bytes between quotes that reach exactly to the closing quote. -/
def IsQuotable (raw : List UInt8) : Prop :=
  ∀ done rest, Token.stringBody done (raw ++ 0x22 :: rest) = some (done.reverse ++ raw, rest)

/-- An escaped text reaches exactly to its closing quote. -/
theorem isQuotable_escape (s : String) : IsQuotable (Utf8.encode (escape s)) := by
  rw [encode_escape]
  intro done rest
  induction s.toList generalizing done with
  | nil =>
    simp [Token.stringBody]
  | cons c cs ih =>
    rw [List.flatMap_cons, List.append_assoc, stringBody_spelling, ih]
    simp

/-- Resolved again, the spellings of characters are their encodings. -/
theorem unescape_flatMap_spelling (done : List UInt8) (cs : List Char) :
    unescape done (cs.flatMap spelling) =
      some (done.reverse ++ cs.flatMap String.utf8EncodeChar) := by
  induction cs generalizing done with
  | nil => simp [unescape]
  | cons c cs ih =>
    rw [List.flatMap_cons, unescape_spelling, ih]
    simp

/-- An escaped text reads back as the text. -/
theorem text?_escape (s : String) : text? (Utf8.encode (escape s)) = some s := by
  rw [text?, encode_escape, unescape_flatMap_spelling]
  simp only [List.reverse_nil, List.nil_append, ← Utf8.encode_eq_flatMap]
  exact Utf8.decode?_encode s

end ChunkedArray.Json
