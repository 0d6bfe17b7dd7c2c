import Rulebook.Token.Basic
import Rulebook.Text.Blank
import Rulebook.Text.Delimited

/-! # Pieces of text

A text is cut into pieces from its head on. A piece is layout, which separates
tokens, or the lexeme of a token. Which one stands at the head is decided by at
most two characters, but for a slash and a star: they open a block comment only
if it is closed somewhere, and a regular expression otherwise.
-/

namespace Rulebook

open Text

/-- The kinds of text between tokens. -/
inductive LayoutKind
  | blanks
  | newline
  | lineComment
  | blockComment
  deriving Repr, DecidableEq

/-- The kinds of piece. -/
inductive PieceKind
  | layout (kind : LayoutKind)
  | token (kind : TokenKind)
  deriving Repr, DecidableEq

/-- A piece of text at the head of another, and what follows it. -/
structure Piece where
  kind : PieceKind
  text : List Char
  rest : List Char
  deriving Repr, DecidableEq

namespace Piece

/-- A character of a run of blanks. -/
def isBlank (c : Char) : Bool := c = ' ' || c = '\t' || c = '\x0c' || c = '\r'

/-- A character that may begin an identifier. -/
def isIdentifierStart (c : Char) : Bool :=
  ('A' ≤ c && c ≤ 'Z') || ('a' ≤ c && c ≤ 'z') || c = '_'

/-- A character that may continue an identifier. -/
def isIdentifierPart (c : Char) : Bool := isIdentifierStart c || isAsciiDigit c

/-- A letter that may follow a regular expression. -/
def isFlag (c : Char) : Bool := c = 'i' || c = 'm' || c = 's' || c = 'x' || c = 'A'

/-- The token that is a single character. -/
def punctuation? (c : Char) : Option TokenKind :=
  if c = ':' then some .colon
  else if c = ';' then some .semicolon
  else if c = ',' then some .comma
  else if c = '|' then some .bar
  else if c = '(' then some .openParen
  else if c = ')' then some .closeParen
  else if c = '\x7b' then some .openBrace
  else if c = '\x7d' then some .closeBrace
  else if c = '=' then some .equals
  else if c = '?' then some .question
  else if c = '*' then some .star
  else if c = '+' then some .plus
  else none

/-- The body of a block comment, up to the first star and slash, and what
follows these. -/
def blockBody? : List Char → Option (List Char × List Char)
  | [] => none
  | [_] => none
  | c :: d :: rest =>
      if c = '*' && d = '/' then some ([], rest)
      else match blockBody? (d :: rest) with
        | none => none
        | some (body, tail) => some (c :: body, tail)

theorem blockBody?_append {text body rest : List Char} (h : blockBody? text = some (body, rest)) :
    body ++ '*' :: '/' :: rest = text := by
  fun_induction blockBody? text generalizing body rest with
  | case1 => simp at h
  | case2 => simp at h
  | case3 => simp_all
  | case4 => simp at h
  | case5 c d more _ inner tail hinner ih =>
      simp only [Option.some.injEq, Prod.mk.injEq] at h
      rw [← h.1, ← h.2, List.cons_append, ih hinner]

/-- The run of characters of a class, after a head that is given. -/
def run (kind : PieceKind) (inClass : Char → Bool) (head text : List Char) : Piece :=
  ⟨kind, head ++ text.takeWhile inClass, text.dropWhile inClass⟩

/-- A literal between quotes, after its opening quote. -/
def quotedLiteral? (kind : TokenKind) (quote : Char) (text : List Char) : Option Piece :=
  match delimited quote (fun _ => true) text with
  | none => none
  | some (body, rest) => some ⟨.token kind, quote :: body ++ [quote], rest⟩

/-- A regular expression after its opening slash: a body on one line, but for
escaped newlines, a closing slash, and flags. -/
def regex? (text : List Char) : Option Piece :=
  match delimited '/' (· ≠ '\n') text with
  | none => none
  | some (body, rest) => some (run (.token .regex) isFlag ('/' :: body ++ ['/']) rest)

/-- What a slash begins: a comment, or a regular expression. -/
def slash? (text : List Char) : Option Piece :=
  match text with
  | [] => none
  | c :: rest =>
      if c = '/' then some (run (.layout .lineComment) (· ≠ '\n') ['/', '/'] rest)
      else if c = '*' then
        match blockBody? rest with
        | some (body, tail) => some ⟨.layout .blockComment, '/' :: '*' :: body ++ ['*', '/'], tail⟩
        | none => regex? text
      else regex? text

/-- The fraction of a number, if a point and a digit come next. -/
def fraction (head text : List Char) : Piece :=
  match text with
  | '.' :: d :: rest =>
      if isAsciiDigit d then run (.token .number) isAsciiDigit (head ++ ['.', d]) rest
      else ⟨.token .number, head, text⟩
  | _ => ⟨.token .number, head, text⟩

/-- A number without sign: digits and perhaps a fraction. -/
def number (sign text : List Char) : Piece :=
  fraction (sign ++ text.takeWhile isAsciiDigit) (text.dropWhile isAsciiDigit)

/-- The piece at the head of a text. -/
def first? (text : List Char) : Option Piece :=
  match text with
  | [] => none
  | c :: rest =>
      if isBlank c then some (run (.layout .blanks) isBlank [c] rest)
      else if c = '\n' then some ⟨.layout .newline, [c], rest⟩
      else if c = '/' then slash? rest
      else if c = '"' then quotedLiteral? .doubleQuoted '"' rest
      else if c = '\'' then quotedLiteral? .singleQuoted '\'' rest
      else if isIdentifierStart c then some (run (.token .identifier) isIdentifierPart [c] rest)
      else if isAsciiDigit c then some (number [] text)
      else if c = '-' then
        if (rest.head?.any isAsciiDigit) then some (number ['-'] rest) else none
      else match punctuation? c with
        | some kind => some ⟨.token kind, [c], rest⟩
        | none => none

@[simp] theorem run_append (kind : PieceKind) (inClass : Char → Bool) (head text : List Char) :
    (run kind inClass head text).text ++ (run kind inClass head text).rest = head ++ text := by
  simp [run]

theorem quotedLiteral?_append {kind : TokenKind} {quote : Char} {text : List Char} {p : Piece}
    (h : quotedLiteral? kind quote text = some p) : p.text ++ p.rest = quote :: text := by
  unfold quotedLiteral? at h
  split at h
  next => contradiction
  next body rest hbody =>
      simp only [Option.some.injEq] at h
      simp [← h, ← delimited_append hbody]

theorem regex?_append {text : List Char} {p : Piece} (h : regex? text = some p) :
    p.text ++ p.rest = '/' :: text := by
  unfold regex? at h
  split at h
  next => contradiction
  next body rest hbody =>
      simp only [Option.some.injEq] at h
      rw [← h, run_append, ← delimited_append hbody]
      simp

theorem slash?_append {text : List Char} {p : Piece} (h : slash? text = some p) :
    p.text ++ p.rest = '/' :: text := by
  unfold slash? at h
  split at h
  next => contradiction
  next c rest =>
      split at h
      next hc =>
          simp only [Option.some.injEq] at h
          rw [← h, run_append, hc]
          rfl
      next =>
          split at h
          next hc =>
              split at h
              next body tail hbody =>
                  simp only [Option.some.injEq] at h
                  simp [← h, ← blockBody?_append hbody, hc]
              next => exact regex?_append h
          next => exact regex?_append h

theorem fraction_append (head text : List Char) :
    (fraction head text).text ++ (fraction head text).rest = head ++ text := by
  unfold fraction
  split
  · split
    · simp [run_append]
    · rfl
  · rfl

theorem number_append (sign text : List Char) :
    (number sign text).text ++ (number sign text).rest = sign ++ text := by
  rw [number, fraction_append, List.append_assoc, List.takeWhile_append_dropWhile]

/-- A piece and what follows it make up the text. -/
theorem first?_append {text : List Char} {p : Piece} (h : first? text = some p) :
    p.text ++ p.rest = text := by
  cases text with
  | nil => simp [first?] at h
  | cons c rest =>
      simp only [first?] at h
      split at h
      · obtain rfl := Option.some.inj h
        simp
      split at h
      · obtain rfl := Option.some.inj h
        rfl
      split at h
      next hc => rw [slash?_append h, hc]
      split at h
      next hc => rw [quotedLiteral?_append h, hc]
      split at h
      next hc => rw [quotedLiteral?_append h, hc]
      split at h
      · obtain rfl := Option.some.inj h
        simp
      split at h
      · obtain rfl := Option.some.inj h
        rw [number_append, List.nil_append]
      split at h
      next hc =>
        split at h
        · obtain rfl := Option.some.inj h
          rw [number_append, hc, List.singleton_append]
        · contradiction
      split at h
      · obtain rfl := Option.some.inj h
        rfl
      · contradiction

@[simp] theorem run_text_ne_nil (kind : PieceKind) (inClass : Char → Bool) (c : Char)
    (head text : List Char) : (run kind inClass (c :: head) text).text ≠ [] := by
  simp [run]

theorem fraction_text_ne_nil {head : List Char} (h : head ≠ []) (text : List Char) :
    (fraction head text).text ≠ [] := by
  unfold fraction
  split
  · split
    · simp [run]
    · exact h
  · exact h

theorem slash?_text_ne_nil {text : List Char} {p : Piece} (h : slash? text = some p) :
    p.text ≠ [] := by
  have hregex : ∀ {text : List Char}, regex? text = some p → p.text ≠ [] := by
    intro text h
    unfold regex? at h
    split at h
    · contradiction
    · obtain rfl := Option.some.inj h
      simp
  unfold slash? at h
  split at h
  · contradiction
  split at h
  · obtain rfl := Option.some.inj h
    simp
  split at h
  · split at h
    · obtain rfl := Option.some.inj h
      simp
    · exact hregex h
  · exact hregex h

theorem quotedLiteral?_text_ne_nil {kind : TokenKind} {quote : Char} {text : List Char} {p : Piece}
    (h : quotedLiteral? kind quote text = some p) : p.text ≠ [] := by
  unfold quotedLiteral? at h
  split at h
  · contradiction
  · obtain rfl := Option.some.inj h
    simp

/-- No piece is empty. -/
theorem first?_text_ne_nil {text : List Char} {p : Piece} (h : first? text = some p) :
    p.text ≠ [] := by
  cases text with
  | nil => simp [first?] at h
  | cons c rest =>
      simp only [first?] at h
      split at h
      · obtain rfl := Option.some.inj h
        simp
      split at h
      · obtain rfl := Option.some.inj h
        simp
      split at h
      · exact slash?_text_ne_nil h
      split at h
      · exact quotedLiteral?_text_ne_nil h
      split at h
      · exact quotedLiteral?_text_ne_nil h
      split at h
      · obtain rfl := Option.some.inj h
        simp
      split at h
      next hdigit =>
        obtain rfl := Option.some.inj h
        exact fraction_text_ne_nil (by simp [hdigit]) _
      split at h
      next =>
        split at h
        · obtain rfl := Option.some.inj h
          exact fraction_text_ne_nil (by simp) _
        · contradiction
      split at h
      · obtain rfl := Option.some.inj h
        simp
      · contradiction

theorem length_rest_lt {text : List Char} {p : Piece} (h : first? text = some p) :
    p.rest.length < text.length := by
  have hpos := List.length_pos_iff.mpr (first?_text_ne_nil h)
  rw [← first?_append h, List.length_append]
  omega

end Piece

end Rulebook
