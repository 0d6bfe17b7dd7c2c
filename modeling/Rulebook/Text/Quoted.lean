import Rulebook.Text.Printable

/-! # Quoted text

A text is displayed between quotes, on one line: the quote and the backslash
are escaped, and so is every character that does not print. Single quotes are
preferred; double quotes are used for a text that holds a single quote and no
double quote.
-/

namespace Rulebook.Text

/-- The last `width` hexadecimal digits of a number, in lower case. -/
def hexDigits : Nat → Nat → List Char
  | 0, _ => []
  | width + 1, n => hexDigits width (n / 16) ++ [Nat.digitChar (n % 16)]

@[simp] theorem hexDigits_length (width n : Nat) : (hexDigits width n).length = width := by
  induction width generalizing n with
  | zero => rfl
  | succ width ih => simp [hexDigits, ih]

/-- The escape of a character that does not print: its code point in two, four
or eight hexadecimal digits. -/
def codePointEscape (n : Nat) : List Char :=
  if n < 0x100 then '\\' :: 'x' :: hexDigits 2 n
  else if n < 0x10000 then '\\' :: 'u' :: hexDigits 4 n
  else '\\' :: 'U' :: hexDigits 8 n

/-- How a character stands between the given quotes. -/
def quotedChar (quote c : Char) : List Char :=
  if c = quote || c = '\\' then ['\\', c]
  else if c = '\t' then ['\\', 't']
  else if c = '\n' then ['\\', 'n']
  else if c = '\r' then ['\\', 'r']
  else if isPrintable c then [c]
  else codePointEscape c.toNat

/-- The quote that a text is displayed with. -/
def preferredQuote (text : List Char) : Char :=
  if text.contains '\'' && !text.contains '"' then '"' else '\''

/-- The display of a text: quoted, escaped and on one line. -/
def quoted (text : List Char) : List Char :=
  let quote := preferredQuote text
  quote :: text.flatMap (quotedChar quote) ++ [quote]

/-- The display of a byte string: as that of a text in which only the printing
characters of ASCII stand for themselves. -/
def quotedBytes (bytes : List UInt8) : List Char :=
  let text := bytes.map fun b => Char.ofNat b.toNat
  let quote := preferredQuote text
  let shown := text.flatMap fun c =>
    if c.toNat < 127 then quotedChar quote c else codePointEscape c.toNat
  'b' :: quote :: shown ++ [quote]

end Rulebook.Text

/-- The display of a string: quoted, escaped and on one line. -/
def String.quotedText (s : String) : String := String.ofList (Rulebook.Text.quoted s.toList)
