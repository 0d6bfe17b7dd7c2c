import Mathlib.Data.List.TakeWhile
import Rulebook.Proofs.Text.Digits
import Rulebook.Token.Scan

/-! # The lexemes of tokens

Every token of a scan is a piece of the text, and one for a number is written
with a sign or none, digits, and perhaps a point with digits after it.
-/

namespace Rulebook

open Text

/-- An unsigned number in writing. -/
structure UnsignedNumeral where
  whole : List Char
  fraction : Option (List Char)
  whole_ne_nil : whole ≠ []
  whole_digits : ∀ c ∈ whole, isAsciiDigit c
  fraction_digits : ∀ digits ∈ fraction, ∀ c ∈ digits, isAsciiDigit c

/-- The characters of an unsigned number. -/
def UnsignedNumeral.text (n : UnsignedNumeral) : List Char := n.whole ++ pointText n.fraction

/-- A number in writing, with a minus sign or without. -/
inductive IsNumeral : List Char → Prop
  | unsigned (n : UnsignedNumeral) : IsNumeral n.text
  | negative (n : UnsignedNumeral) : IsNumeral ('-' :: n.text)

namespace Piece

theorem fraction_text_eq (head text : List Char) :
    ∃ point, (fraction head text).text = head ++ pointText point ∧
      ∀ digits ∈ point, ∀ c ∈ digits, isAsciiDigit c := by
  unfold fraction
  split
  · next d rest =>
      split
      · next hd =>
          refine ⟨some (d :: rest.takeWhile isAsciiDigit), by simp [run, pointText], ?_⟩
          intro digits hdigits c hc
          cases hdigits
          rcases List.mem_cons.mp hc with rfl | hc
          · exact hd
          · exact List.mem_takeWhile_imp hc
      · exact ⟨none, by simp [pointText], by simp⟩
  · exact ⟨none, by simp [pointText], by simp⟩

/-- A number piece is its sign and an unsigned number. -/
theorem number_text_eq {text : List Char} (sign : List Char) (h : text.head?.any isAsciiDigit) :
    ∃ n : UnsignedNumeral, (number sign text).text = sign ++ n.text := by
  obtain ⟨point, htext, hdigits⟩ :=
    fraction_text_eq (sign ++ text.takeWhile isAsciiDigit) (text.dropWhile isAsciiDigit)
  have hne : text.takeWhile isAsciiDigit ≠ [] := by
    cases text with
    | nil => simp at h
    | cons c rest =>
        have hc : isAsciiDigit c = true := h
        simp [hc]
  refine ⟨⟨text.takeWhile isAsciiDigit, point, hne, fun c hc => List.mem_takeWhile_imp hc, hdigits⟩, ?_⟩
  rw [number, htext, UnsignedNumeral.text, List.append_assoc]

theorem slash?_kind {text : List Char} {p : Piece} (h : slash? text = some p) :
    p.kind ≠ .token .number := by
  have hregex : ∀ {text : List Char}, regex? text = some p → p.kind ≠ .token .number := by
    intro text h
    unfold regex? at h
    split at h
    · contradiction
    · obtain rfl := Option.some.inj h
      simp [run]
  unfold slash? at h
  split at h
  · contradiction
  split at h
  · obtain rfl := Option.some.inj h
    simp [run]
  split at h
  · split at h
    · obtain rfl := Option.some.inj h
      simp
    · exact hregex h
  · exact hregex h

theorem quotedLiteral?_kind {kind : TokenKind} {quote : Char} {text : List Char} {p : Piece}
    (h : quotedLiteral? kind quote text = some p) : p.kind = .token kind := by
  unfold quotedLiteral? at h
  split at h
  · contradiction
  · obtain rfl := Option.some.inj h
    rfl

/-- The kinds of token that are single characters. -/
def punctuations : List TokenKind :=
  [.colon, .semicolon, .comma, .bar, .openParen, .closeParen, .openBrace, .closeBrace, .equals,
    .question, .star, .plus]

theorem mem_punctuations {c : Char} {kind : TokenKind} (h : punctuation? c = some kind) :
    kind ∈ punctuations := by
  have hite : ∀ {b : Prop} [Decidable b] {k k' : Option TokenKind},
      (∀ kind ∈ k, kind ∈ punctuations) → (∀ kind ∈ k', kind ∈ punctuations) →
      ∀ kind ∈ (if b then k else k'), kind ∈ punctuations := by
    intro b _ k k' hk hk'
    split
    · exact hk
    · exact hk'
  suffices ∀ kind ∈ punctuation? c, kind ∈ punctuations from this kind h
  unfold punctuation?
  iterate 12 refine hite (by simp [punctuations]) ?_
  simp

theorem punctuation?_ne_number (c : Char) : punctuation? c ≠ some .number := fun h => by
  simpa [punctuations] using mem_punctuations h

/-- A piece for a number is a number in writing. -/
theorem isNumeral_of_first? {text : List Char} {p : Piece} (h : first? text = some p)
    (hkind : p.kind = .token .number) : IsNumeral p.text := by
  cases text with
  | nil => simp [first?] at h
  | cons c rest =>
      -- The cases are those of the scanner in its order; two of them give numbers.
      simp only [first?] at h
      split at h
      · obtain rfl := Option.some.inj h
        cases hkind
      split at h
      · obtain rfl := Option.some.inj h
        cases hkind
      split at h
      · exact absurd hkind (slash?_kind h)
      split at h
      · rw [quotedLiteral?_kind h] at hkind
        cases hkind
      split at h
      · rw [quotedLiteral?_kind h] at hkind
        cases hkind
      split at h
      · obtain rfl := Option.some.inj h
        cases hkind
      split at h
      · next hdigit =>
          obtain rfl := Option.some.inj h
          have hhead : (c :: rest).head?.any isAsciiDigit = true := hdigit
          obtain ⟨n, hn⟩ := number_text_eq [] hhead
          rw [hn]
          exact .unsigned n
      split at h
      · split at h
        · next hdigit =>
            obtain rfl := Option.some.inj h
            obtain ⟨n, hn⟩ := number_text_eq ['-'] hdigit
            rw [hn]
            exact .negative n
        · contradiction
      split at h
      · next kind hpunctuation =>
          obtain rfl := Option.some.inj h
          cases hkind
          exact absurd hpunctuation (punctuation?_ne_number c)
      · contradiction

end Piece

/-- Every token of a scan is a piece of its kind. -/
theorem Scan.exists_piece {text : List Char} {place : Position} {scan : Scan}
    (h : ofCharsFrom place text = .ok scan) {t : Token TokenKind} (ht : t ∈ scan.tokens) :
    ∃ rest p, Piece.first? rest = some p ∧ p.kind = .token t.kind ∧
      t.lexeme = String.ofList p.text := by
  fun_induction ofCharsFrom place text generalizing scan with
  | case1 =>
      cases h
      cases ht
  | case2 => cases h
  | case3 => cases h
  | case4 place c more p hfirst s hrest ih =>
      cases h
      unfold prepend at ht
      split at ht
      · exact ih hrest ht
      · next kind hkind =>
          rcases List.mem_cons.mp ht with rfl | ht
          · exact ⟨_, p, hfirst, hkind, rfl⟩
          · exact ih hrest ht

/-- Every token of the scan of a text has the lexeme of a piece of its kind. -/
theorem Scan.exists_first? {text : List Char} {scan : Scan} (h : ofChars text = .ok scan)
    {t : Token TokenKind} (ht : t ∈ scan.tokens) :
    ∃ rest p, Piece.first? rest = some p ∧ p.kind = .token t.kind ∧ t.lexeme.toList = p.text := by
  have hscan : ofCharsFrom .start text = .ok scan := by
    unfold ofChars at h
    split at h
    · next s hs =>
        cases h
        exact hs
    · cases h
  obtain ⟨rest, p, hfirst, hpiece, hlexeme⟩ := exists_piece hscan ht
  exact ⟨rest, p, hfirst, hpiece, by rw [hlexeme, String.toList_ofList]⟩

/-- The tokens for numbers are numbers in writing. -/
theorem Scan.isNumeral_lexeme {text : List Char} {scan : Scan} (h : ofChars text = .ok scan)
    {t : Token TokenKind} (ht : t ∈ scan.tokens) (hkind : t.kind = .number) :
    IsNumeral t.lexeme.toList := by
  obtain ⟨rest, p, hfirst, hpiece, hlexeme⟩ := exists_first? h ht
  rw [hlexeme]
  exact Piece.isNumeral_of_first? hfirst (hkind ▸ hpiece)

end Rulebook
