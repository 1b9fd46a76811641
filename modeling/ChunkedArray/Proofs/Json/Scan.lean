import ChunkedArray.Proofs.Decimal.Numeral
import ChunkedArray.Proofs.Json.Text

/-!
# Rendered documents are cut into their tokens

A document that can be printed is made of numerals in their written form and of strings that reach
exactly to their closing quote. Its text is cut into its tokens, whatever punctuation follows: only
a number needs to be told where it ends, and no comma and no bracket continues one.
-/

namespace ChunkedArray

/-- A numeral in the form in which it is written: digits below ten, at least one before the point,
and no zero in front of others. -/
structure Numeral.IsWritten (n : Numeral) : Prop where
  whole_lt : ∀ d ∈ n.whole, d < 10
  whole_ne_nil : n.whole ≠ []
  no_leading_zero : ∀ d rest, n.whole ≠ 0 :: d :: rest
  fraction_lt : ∀ d ∈ n.fraction, d < 10

namespace Json

/-- Documents that can be printed. -/
inductive Printable : Json → Prop where
  | null : Printable null
  | bool (b : Bool) : Printable (bool b)
  | number {n : Numeral} (h : n.IsWritten) : Printable (number n)
  | string {raw : List UInt8} (h : IsQuotable raw) : Printable (string raw)
  | array {items : List Json} (h : ∀ item ∈ items, Printable item) : Printable (array items)
  | object {members : List (List UInt8 × Json)} (hkeys : ∀ m ∈ members, IsQuotable m.1)
      (h : ∀ m ∈ members, Printable m.2) : Printable (object members)

mutual

/-- The tokens of a document. -/
def tokens : Json → List Token
  | null => [.null]
  | bool b => [.bool b]
  | number n => [.number n]
  | string raw => [.string raw]
  | array items => .openArray :: itemTokens items ++ [.closeArray]
  | object members => .openObject :: memberTokens members ++ [.closeObject]

/-- The tokens of the items of an array, with commas between neighbours. -/
def itemTokens : List Json → List Token
  | [] => []
  | [item] => tokens item
  | item :: next :: rest => tokens item ++ .comma :: itemTokens (next :: rest)

/-- The tokens of the members of an object, with commas between neighbours. -/
def memberTokens : List (List UInt8 × Json) → List Token
  | [] => []
  | [(key, item)] => .string key :: .colon :: tokens item
  | (key, item) :: next :: rest =>
    .string key :: .colon :: tokens item ++ .comma :: memberTokens (next :: rest)

end

namespace Token

/-- What may follow a value: nothing, a comma, or a closing bracket. -/
def Delimits : List UInt8 → Prop
  | [] => True
  | b :: _ => b = 0x2c ∨ b = 0x5d ∨ b = 0x7d

/-- A text is cut into tokens, whatever delimiter follows. -/
structure Cuts (text : List UInt8) (ts : List Token) : Prop where
  length_le : ts.length ≤ text.length
  scanFrom : ∀ done limit rest, Delimits rest →
    scanFrom done (limit + ts.length) (text ++ rest) = scanFrom (done ++ ts.toArray) limit rest

/-! ## Numbers -/

/-- The digits of a number in ASCII. -/
def digitBytes (ds : List Nat) : List UInt8 :=
  ascii (ds.map Numeral.digitChar)

theorem isDigit_digitChar : ∀ d < 10,
    isDigit (UInt8.ofNat (Numeral.digitChar d).toNat) = true ∧
      (UInt8.ofNat (Numeral.digitChar d).toNat).toNat - 0x30 = d := by
  decide

/-- What follows a number does not go on with a digit. -/
def NoDigit (rest : List UInt8) : Prop :=
  ∀ b, rest.head? = some b → isDigit b = false

/-- A run of digits is read up to its end. -/
theorem digitRun_append {ds : List Nat} (hds : ∀ d ∈ ds, d < 10) {rest : List UInt8}
    (hrest : NoDigit rest) : digitRun (digitBytes ds ++ rest) = (ds, rest) := by
  induction ds with
  | nil =>
    cases rest with
    | nil => rfl
    | cons b rest =>
      have hb := hrest b rfl
      simp [digitRun, digitBytes, ascii, hb]
  | cons d ds ih =>
    have hd := isDigit_digitChar d (hds d List.mem_cons_self)
    have hih := ih fun d' hd' => hds d' (List.mem_cons_of_mem _ hd')
    simp only [digitRun, Prod.mk.injEq, digitBytes, ascii, List.map_cons, List.cons_append] at hih ⊢
    simp only [List.takeWhile_cons, List.dropWhile_cons, hd.1, if_true, List.map_cons, hd.2]
    exact ⟨by rw [hih.1], hih.2⟩

theorem noDigit_of_delimits {rest : List UInt8} (h : Delimits rest) : NoDigit rest := by
  cases rest with
  | nil => simp [NoDigit]
  | cons b rest =>
    rintro b' ⟨⟩
    rcases h with rfl | rfl | rfl <;> rfl

/-- The digits before the point are read up to the point. -/
theorem wholePart_append {n : Numeral} (hn : n.IsWritten) {rest : List UInt8}
    (hrest : NoDigit rest) : wholePart (digitBytes n.whole ++ rest) = some (n.whole, rest) := by
  have hne := hn.whole_ne_nil
  have hzero := hn.no_leading_zero
  rw [wholePart, digitRun_append hn.whole_lt hrest]
  generalize n.whole = ds at hne hzero
  cases ds with
  | nil => exact absurd rfl hne
  | cons d ds =>
    cases d with
    | succ d => rfl
    | zero =>
      cases ds with
      | nil => rfl
      | cons d ds => exact absurd rfl (hzero d ds)

/-- The point and the digits behind it, if there are any. -/
def fractionBytes (ds : List Nat) : List UInt8 :=
  if ds.isEmpty then [] else 0x2e :: digitBytes ds

/-- The exponent, if there is one, with its sign. -/
def exponentBytes : Option Int → List UInt8
  | none => []
  | some e => 0x65 :: (if 0 ≤ e then 0x2b else 0x2d) :: digitBytes (Numeral.digits e.natAbs)

theorem noDigit_exponent (e : Option Int) {rest : List UInt8} (h : Delimits rest) :
    NoDigit (exponentBytes e ++ rest) := by
  cases e with
  | none => exact noDigit_of_delimits h
  | some e =>
    rintro b ⟨⟩
    rfl

/-- The fraction is read up to the exponent. -/
theorem fractionPart_append {ds : List Nat} (hds : ∀ d ∈ ds, d < 10) (e : Option Int)
    {rest : List UInt8} (hrest : Delimits rest) :
    fractionPart (fractionBytes ds ++ (exponentBytes e ++ rest)) =
      some (ds, exponentBytes e ++ rest) := by
  cases ds with
  | nil =>
    cases e with
    | some e => rfl
    | none =>
      cases rest with
      | nil => rfl
      | cons b rest => rcases hrest with rfl | rfl | rfl <;> rfl
  | cons d ds =>
    have hrun := digitRun_append hds (noDigit_exponent e hrest)
    simp only [fractionBytes, List.isEmpty_cons, Bool.false_eq_true, if_false, List.cons_append,
      fractionPart, hrun]

/-- The exponent is read up to the delimiter. -/
theorem exponentPart_append (e : Option Int) {rest : List UInt8} (hrest : Delimits rest) :
    exponentPart (exponentBytes e ++ rest) = some (e, rest) := by
  cases e with
  | none =>
    cases rest with
    | nil => rfl
    | cons b rest => rcases hrest with rfl | rfl | rfl <;> rfl
  | some e =>
    have hrun := digitRun_append
      (fun d (hd : d ∈ Numeral.digits e.natAbs) => Numeral.lt_ten_of_mem_digits hd) (noDigit_of_delimits hrest)
    obtain ⟨d, ds, hdigits⟩ := List.exists_cons_of_ne_nil (Numeral.digits_ne_nil e.natAbs)
    have hvalue := Numeral.ofDigits_digits e.natAbs
    rw [hdigits] at hrun hvalue
    by_cases hpos : 0 ≤ e
    · simp only [exponentBytes, hdigits, if_pos hpos, List.cons_append, exponentPart, exponentSign,
        hrun, true_or, if_true, Bool.false_eq_true, if_false, hvalue, Option.some.injEq,
        Prod.mk.injEq, and_true]
      omega
    · simp only [exponentBytes, hdigits, if_neg hpos, List.cons_append, exponentPart, exponentSign,
        hrun, true_or, if_true, hvalue, Option.some.injEq, Prod.mk.injEq, and_true]
      omega

theorem ascii_append (a b : List Char) : ascii (a ++ b) = ascii a ++ ascii b :=
  List.map_append

/-- The text of a numeral: a sign, and the digits before the point, behind it and in the exponent. -/
theorem ascii_chars (n : Numeral) :
    ascii (n.chars true) = (if n.negative then [0x2d] else []) ++
      (digitBytes n.whole ++ (fractionBytes n.fraction ++ exponentBytes n.exponent)) := by
  obtain ⟨negative, whole, fraction, exponent⟩ := n
  have hfraction : ascii (if fraction.isEmpty then []
      else '.' :: fraction.map Numeral.digitChar) = fractionBytes fraction := by
    cases fraction <;> rfl
  have hsign : ascii (if negative = true then ['-'] else []) =
      if negative = true then [0x2d] else [] := by
    cases negative <;> rfl
  simp only [Numeral.chars, ascii_append, hfraction, hsign, List.append_assoc]
  congr 3
  cases exponent with
  | none => rfl
  | some e =>
    by_cases hpos : 0 ≤ e
    · have hneg : ¬ e < 0 := by omega
      simp [exponentBytes, Numeral.exponentChars, Numeral.intChars, hpos, hneg, ascii, digitBytes]
    · have hneg : e < 0 := by omega
      simp [exponentBytes, Numeral.exponentChars, Numeral.intChars, hpos, hneg, ascii, digitBytes]

/-- A numeral is read back behind its sign. -/
theorem numeral_append {n : Numeral} (hn : n.IsWritten) {rest : List UInt8}
    (hrest : Delimits rest) :
    numeral n.negative (digitBytes n.whole ++
        (fractionBytes n.fraction ++ (exponentBytes n.exponent ++ rest))) =
      some (.number n, rest) := by
  have hnodigit : NoDigit (fractionBytes n.fraction ++ (exponentBytes n.exponent ++ rest)) := by
    cases n.fraction with
    | nil => exact noDigit_exponent n.exponent hrest
    | cons d ds =>
      rintro b ⟨⟩
      rfl
  rw [numeral, wholePart_append hn hnodigit]
  simp only [Option.bind_eq_bind, Option.bind_some,
    fractionPart_append hn.fraction_lt n.exponent hrest, exponentPart_append n.exponent hrest]

/-! ## Single tokens -/

/-- A text that is one token. -/
theorem Cuts.single (b : UInt8) (tail : List UInt8) {t : Token} (hblank : isBlank b = false)
    (h : ∀ rest, Delimits rest → next b (tail ++ rest) = some (t, rest)) :
    Cuts (b :: tail) [t] := by
  refine ⟨by simp, fun done limit rest hrest => ?_⟩
  rw [List.length_singleton, List.cons_append, Token.scanFrom, if_neg (by simp [hblank]), h rest hrest]
  simp

theorem cuts_null : Cuts (render Json.null) [.null] :=
  .single 0x6e [0x75, 0x6c, 0x6c] rfl fun rest _ => by simp [next, word, ascii]

theorem cuts_bool (b : Bool) : Cuts (render (Json.bool b)) [.bool b] := by
  cases b with
  | true =>
    exact .single 0x74 [0x72, 0x75, 0x65] rfl fun rest _ => by
      simp [next, word, ascii]
  | false =>
    exact .single 0x66 [0x61, 0x6c, 0x73, 0x65] rfl fun rest _ => by
      simp [next, word, ascii]

theorem cuts_string {raw : List UInt8} (h : IsQuotable raw) :
    Cuts (render (Json.string raw)) [.string raw] := by
  rw [render, List.cons_append]
  refine .single _ _ rfl fun rest _ => ?_
  have hbody := h [] rest
  rw [List.append_assoc, List.singleton_append]
  simp [next, hbody]

/-- A digit starts a number. -/
theorem next_of_isDigit {b : UInt8} (h : isDigit b = true) (rest : List UInt8) :
    next b rest = numeral false (b :: rest) := by
  have hne (c : UInt8) (hc : isDigit c = false) : ¬ b = c := by
    rintro rfl
    simp [h] at hc
  simp [next, h, hne 0x5b rfl, hne 0x5d rfl, hne 0x7b rfl, hne 0x7d rfl, hne 0x2c rfl, hne 0x3a rfl,
    hne 0x22 rfl, hne 0x6e rfl, hne 0x74 rfl, hne 0x66 rfl, hne 0x2d rfl]

theorem isBlank_of_isDigit {b : UInt8} (h : isDigit b = true) : isBlank b = false := by
  cases hblank : isBlank b with
  | false => rfl
  | true =>
    simp only [isBlank, Bool.or_eq_true, beq_iff_eq] at hblank
    rcases hblank with ((rfl | rfl) | rfl) | rfl <;> simp [isDigit] at h

theorem cuts_number {n : Numeral} (hn : n.IsWritten) :
    Cuts (render (Json.number n)) [.number n] := by
  rw [render, ascii_chars]
  have hread (rest : List UInt8) (hrest : Delimits rest) := numeral_append hn hrest
  cases hsign : n.negative with
  | true =>
    refine .single _ _ rfl fun rest hrest => ?_
    rw [hsign] at hread
    simpa [next] using hread rest hrest
  | false =>
    rw [hsign] at hread
    obtain ⟨d, ds, hwhole⟩ := List.exists_cons_of_ne_nil hn.whole_ne_nil
    have hd : d < 10 := hn.whole_lt d (by rw [hwhole]; exact List.mem_cons_self)
    rw [hwhole] at hread ⊢
    have hdigit := (isDigit_digitChar d hd).1
    refine .single _ _ (isBlank_of_isDigit hdigit) fun rest hrest => ?_
    rw [next_of_isDigit hdigit]
    simpa [digitBytes, ascii] using hread rest hrest

/-! ## Arrays and objects -/

theorem delimits_comma (rest : List UInt8) : Delimits (0x2c :: rest) := .inl rfl

theorem delimits_closeArray (rest : List UInt8) : Delimits (0x5d :: rest) := .inr (.inl rfl)

theorem delimits_closeObject (rest : List UInt8) : Delimits (0x7d :: rest) := .inr (.inr rfl)

/-- A token of one byte is cut off whatever follows. -/
theorem scanFrom_cons {b : UInt8} {t : Token} (hblank : isBlank b = false)
    (h : ∀ rest, next b rest = some (t, rest)) (done : Array Token) (limit : Nat)
    (rest : List UInt8) :
    scanFrom done (limit + 1) (b :: rest) = scanFrom (done.push t) limit rest := by
  rw [Token.scanFrom, if_neg (by simp [hblank]), h]

theorem Cuts.empty : Cuts [] [] :=
  ⟨Nat.le_refl 0, fun done limit rest _ => by simp⟩

theorem Cuts.comma {a b : List UInt8} {ts us : List Token} (ha : Cuts a ts) (hb : Cuts b us) :
    Cuts (a ++ 0x2c :: b) (ts ++ .comma :: us) := by
  have hle := ha.length_le
  have hle' := hb.length_le
  refine ⟨by simp; omega, fun done limit rest hrest => ?_⟩
  have hlimit : limit + (ts ++ .comma :: us).length = limit + us.length + 1 + ts.length := by
    simp
    omega
  rw [hlimit, List.append_assoc, List.cons_append, ha.scanFrom _ _ _ (delimits_comma _),
    scanFrom_cons (t := .comma) rfl (fun _ => rfl), hb.scanFrom _ _ _ hrest]
  simp

theorem Cuts.member {key text : List UInt8} {ts : List Token} (hkey : IsQuotable key)
    (h : Cuts text ts) :
    Cuts (0x22 :: key ++ 0x22 :: 0x3a :: text) (.string key :: .colon :: ts) := by
  have hle := h.length_le
  refine ⟨by simp; omega, fun done limit rest hrest => ?_⟩
  have hbody := hkey [] (0x3a :: (text ++ rest))
  have hlimit : limit + (Token.string key :: .colon :: ts).length = limit + ts.length + 1 + 1 := by
    simp
    omega
  have hnext : next 0x22 (key ++ 0x22 :: 0x3a :: (text ++ rest)) =
      some (.string key, 0x3a :: (text ++ rest)) := by
    simp [next, hbody]
  rw [hlimit, List.cons_append, List.cons_append, List.append_assoc, List.cons_append,
    List.cons_append, Token.scanFrom, if_neg (by decide), hnext]
  simp only
  rw [scanFrom_cons (t := .colon) rfl (fun _ => rfl), h.scanFrom _ _ _ hrest]
  simp

/-- Text between brackets. -/
theorem Cuts.bracketed {left right : UInt8} {opening closing : Token} {text : List UInt8}
    {ts : List Token} (hblank : isBlank left = false)
    (hopening : ∀ rest, next left rest = some (opening, rest)) (hblank' : isBlank right = false)
    (hclosing : ∀ rest, next right rest = some (closing, rest))
    (hdelimits : ∀ rest, Delimits (right :: rest)) (h : Cuts text ts) :
    Cuts (left :: text ++ [right]) (opening :: ts ++ [closing]) := by
  have hle := h.length_le
  refine ⟨by simpa using hle, fun done limit rest _ => ?_⟩
  have hlimit : limit + (opening :: ts ++ [closing]).length = limit + 1 + ts.length + 1 := by
    simp
    omega
  rw [hlimit, List.cons_append, List.cons_append, List.append_assoc, scanFrom_cons hblank hopening,
    List.singleton_append, h.scanFrom _ _ _ (hdelimits rest), scanFrom_cons hblank' hclosing]
  simp

theorem cuts_items {items : List Json} (h : ∀ item ∈ items, Cuts (render item) (tokens item)) :
    Cuts (commaSeparated (renderItems items)) (itemTokens items) := by
  induction items with
  | nil => exact .empty
  | cons item rest ih =>
    have hitem := h item List.mem_cons_self
    have hrest := ih fun item' hitem' => h item' (List.mem_cons_of_mem _ hitem')
    cases rest with
    | nil => exact hitem
    | cons next rest => exact hitem.comma hrest

theorem cuts_members {members : List (List UInt8 × Json)}
    (hkeys : ∀ m ∈ members, IsQuotable m.1)
    (h : ∀ m ∈ members, Cuts (render m.2) (tokens m.2)) :
    Cuts (commaSeparated (renderMembers members)) (memberTokens members) := by
  induction members with
  | nil => exact .empty
  | cons m rest ih =>
    have hm := Cuts.member (hkeys m List.mem_cons_self) (h m List.mem_cons_self)
    have hrest := ih (fun m' hm' => hkeys m' (List.mem_cons_of_mem _ hm'))
      fun m' hm' => h m' (List.mem_cons_of_mem _ hm')
    cases rest with
    | nil => exact hm
    | cons next rest => exact hm.comma hrest

/-- The text of a printable document is cut into its tokens. -/
theorem cuts_render {j : Json} (h : Printable j) : Cuts (render j) (tokens j) := by
  induction h with
  | null => exact cuts_null
  | bool b => exact cuts_bool b
  | number h => exact cuts_number h
  | string h => exact cuts_string h
  | array _ ih =>
    exact (cuts_items ih).bracketed rfl (fun _ => rfl) rfl (fun _ => rfl) delimits_closeArray
  | object hkeys _ ih =>
    exact (cuts_members hkeys ih).bracketed rfl (fun _ => rfl) rfl (fun _ => rfl) delimits_closeObject

/-- A printable document is scanned into its tokens. -/
theorem scan_render {j : Json} (h : Printable j) : scan (render j) = some (tokens j) := by
  have hcuts := cuts_render h
  have hscan := hcuts.scanFrom #[] ((render j).length - (tokens j).length) [] trivial
  rw [Nat.sub_add_cancel hcuts.length_le, List.append_nil] at hscan
  rw [scan, hscan]
  simp [Token.scanFrom]

end Token

end Json

end ChunkedArray
