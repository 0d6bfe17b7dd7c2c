import Rulebook.Token.Scan

/-! # Token streams

A stream reads the tokens of a scanned text one after the other. Beyond the
last token it shows the end of the text again and again.
-/

namespace Rulebook

/-- A stream: its text, the tokens of the text, the token that ends it, and how
many tokens were taken. -/
structure TokenStream where
  text : List Char
  tokens : List Leaf
  last : Leaf
  position : Nat := 0

namespace TokenStream

/-- The stream at the first token of a scanned text. -/
def ofScan (text : List Char) (s : Scan) : TokenStream :=
  { text, tokens := s.tokens.map Token.toLeaf, last := s.endToken.toLeaf }

/-- All tokens, the last of which is the end of the text. -/
def all (s : TokenStream) : List Leaf := s.tokens ++ [s.last]

/-- The token so many places ahead. -/
def ahead (s : TokenStream) (count : Nat) : Leaf := s.tokens.getD (s.position + count) s.last

/-- The token at an offset from the next one. Beyond the last token it is the end;
in front of the first token the count goes on backwards from the end, and it
leads to no token once it has passed all of them. -/
def peek? (s : TokenStream) (offset : Int) : Option Leaf :=
  let place := min (s.position + offset) s.tokens.length
  let fromStart := if place < 0 then place + s.all.length else place
  if fromStart < 0 then none else s.all[fromStart.toNat]?

/-- The token that comes next. -/
def next (s : TokenStream) : Leaf := s.ahead 0

/-- The stream after its next token. -/
def advance (s : TokenStream) : TokenStream := { s with position := s.position + 1 }

/-- The error that reports a fault at a token. -/
def failAt (s : TokenStream) (fault : SyntaxFault) (t : Leaf) : SyntaxError :=
  .ofToken s.text fault t

/-- The error that reports a fault at the next token. -/
def fail (s : TokenStream) (fault : SyntaxFault) : SyntaxError := s.failAt fault s.next

/-- Takes the next token if it is of a kind. -/
def take? (s : TokenStream) (kind : String) : Option (Leaf × TokenStream) :=
  if s.next.kind = kind then some (s.next, s.advance) else none

/-- Takes the next token, which must be of a kind. -/
def take (s : TokenStream) (kind : String) : Except SyntaxError (Leaf × TokenStream) :=
  match s.take? kind with
  | some taken => .ok taken
  | none => .error (s.fail (.expectedToken kind s.next.kind))

end TokenStream

end Rulebook
