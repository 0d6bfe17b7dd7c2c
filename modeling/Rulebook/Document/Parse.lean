import Rulebook.Document.Role
import Rulebook.Reading
import Rulebook.Token.Scan
import Rulebook.Tree.Basic

/-! # Parsing a document

The tokens of a text are read by recursive descent, one function for each
construct. A step gives the node that was read and the tokens that are left, so
that progress shows in the length of the list. A function that cannot go on
tells the fault and the tokens that were left when it was found.

    document   = field*
    field      = "rules" "{" rule* "}"  |  name "{" (token ","?)* "}"  |  name ":" value
    token      = name ":" "{" (option ("," option)* ","?)? "}"
    option     = name ":" value
    rule       = name ":" sequence ("|" sequence)* ";"
    sequence   = item*
    item       = (name "=")? scalar ("?" | "*" | "+")?
    scalar     = literal  |  name  |  "(" (item | "|")+ ")"
-/

namespace Rulebook.Document

/-- The tokens that are left to read, without the end of the text. -/
abbrev Tokens := List (Token TokenKind)

/-- A fault, found with these tokens left. -/
structure Stuck where
  fault : SyntaxFault
  left : Tokens
  deriving Repr, DecidableEq

/-- A step over tokens that leaves fewer than `bound` of them. -/
abbrev Step (α : Type) (bound : Nat) := Except Stuck (Reading (Token TokenKind) α bound)

/-- The kind of the token that comes next. -/
def nextKind : Tokens → TokenKind
  | [] => .endOfText
  | t :: _ => t.kind

/-- Stops at the token that comes next. -/
def stuck {α : Type} (fault : SyntaxFault) (left : Tokens) : Except Stuck α := .error ⟨fault, left⟩

/-- Takes the next token, which must be of a kind. -/
def take (kind : TokenKind) (tokens : Tokens) : Step (Token TokenKind) tokens.length :=
  match tokens with
  | t :: rest =>
      if t.kind = kind then .ok ⟨t, rest, Nat.lt_succ_self _⟩
      else stuck (.expectedToken kind.name t.kind.name) (t :: rest)
  | [] => stuck (.expectedToken kind.name TokenKind.endOfText.name) []

/-- Skips the next token if it is of a kind. -/
def skip (kind : TokenKind) (tokens : Tokens) : Tokens :=
  match tokens with
  | t :: rest => if t.kind = kind then rest else t :: rest
  | [] => []

theorem length_skip_le (kind : TokenKind) (tokens : Tokens) :
    (skip kind tokens).length ≤ tokens.length := by
  unfold skip
  split
  · split
    · exact Nat.le_succ _
    · exact Nat.le_refl _
  · exact Nat.le_refl _

/-- A token as a child. -/
def leaf (t : Token TokenKind) : Tree := .leaf t.toLeaf

/-- A node whose children stand under roles; a role without children is not
used. -/
def node (kind : NodeKind) (roles : List (String × List Tree)) : Tree :=
  .node kind.name (roles.filter fun role => !role.2.isEmpty)

/-- The role under which a token stands as the value of an option. -/
def valueRole? (t : Token TokenKind) : Option String :=
  match t.kind with
  | .number => some Role.number
  | .regex => some Role.regex
  | .doubleQuoted => some Role.doubleQuoted
  | .singleQuoted => some Role.singleQuoted
  | .identifier =>
      if t.lexeme = "true" then some Role.true
      else if t.lexeme = "false" then some Role.false
      else some Role.identifier
  | _ => none

/-- The value of an option or a field: a single token. -/
def optionValue (tokens : Tokens) : Step Tree tokens.length :=
  match tokens with
  | t :: rest =>
      match valueRole? t with
      | some role => .ok ⟨node .optionValue [(role, [leaf t])], rest, Nat.lt_succ_self _⟩
      | none => stuck (.expectedOptionValue t.kind.name) (t :: rest)
  | [] => stuck (.expectedOptionValue TokenKind.endOfText.name) []

/-- An option of a token: a name, a colon and a value. -/
def option (tokens : Tokens) : Step Tree tokens.length := do
  let name ← take .identifier tokens
  let colon ← take .colon name.rest
  let value ← optionValue colon.rest
  .ok ⟨node .option [(Role.name, [leaf name.value]), (Role.value, [value.value])], value.rest, by
    have := name.short
    have := colon.short
    have := value.short
    omega⟩

/-- Options with commas between them, up to a closing brace. -/
def options (tokens : Tokens) : Step (List Tree) (tokens.length + 1) :=
  if nextKind tokens = .closeBrace then .ok ⟨[], tokens, Nat.lt_succ_self _⟩
  else do
    let first ← option tokens
    match _comma : first.rest with
    | t :: rest =>
        if t.kind = .comma then
          let more ← options rest
          .ok ⟨first.value :: more.value, more.rest, by
            have h := first.short
            have := more.short
            simp only [_comma, List.length_cons] at h
            omega⟩
        else .ok ⟨[first.value], t :: rest, by
          have := first.short
          rw [_comma] at this
          omega⟩
    | [] => .ok ⟨[first.value], [], Nat.succ_pos _⟩
termination_by tokens.length
decreasing_by
  have := first.short
  simp only [_comma, List.length_cons] at this
  omega

/-- The declaration of a token: a name, a colon, and options in braces. -/
def token (tokens : Tokens) : Step Tree tokens.length := do
  let name ← take .identifier tokens
  let colon ← take .colon name.rest
  let opening ← take .openBrace colon.rest
  let options ← options opening.rest
  let closing ← take .closeBrace options.rest
  .ok ⟨node .token [(Role.name, [leaf name.value]), (Role.options, options.value)], closing.rest, by
    have := name.short
    have := colon.short
    have := opening.short
    have := options.short
    have := closing.short
    omega⟩

/-- Declarations of tokens, each with or without a comma after it, up to a
closing brace. -/
def tokenList (tokens : Tokens) : Step (List Tree) (tokens.length + 1) :=
  if nextKind tokens = .closeBrace then .ok ⟨[], tokens, Nat.lt_succ_self _⟩
  else do
    let first ← token tokens
    let more ← tokenList (skip .comma first.rest)
    .ok ⟨first.value :: more.value, more.rest, by
      have := first.short
      have := length_skip_le .comma first.rest
      have := more.short
      omega⟩
termination_by tokens.length
decreasing_by
  have := first.short
  have := length_skip_le .comma first.rest
  omega

/-- Whether an item may begin with a token of this kind. -/
def beginsItem : TokenKind → Bool
  | .identifier | .doubleQuoted | .singleQuoted | .openParen => true
  | _ => false

/-- The role under which a suffix marks an item. -/
def suffixRole? : TokenKind → Option String
  | .question => some Role.optional
  | .star => some Role.many
  | .plus => some Role.many1
  | _ => none

/-- The label of an item: a name with an equals sign after it, or nothing. -/
def label (tokens : Tokens) : Reading (Token TokenKind) (List Tree) (tokens.length + 1) :=
  match tokens with
  | t :: e :: rest =>
      if t.kind = .identifier ∧ e.kind = .equals then
        ⟨[leaf t], rest, by simp only [List.length_cons]; omega⟩
      else ⟨[], t :: e :: rest, Nat.lt_succ_self _⟩
  | rest => ⟨[], rest, Nat.lt_succ_self _⟩

/-- The suffix of an item, with the role under which it stands, or nothing. -/
def suffix (tokens : Tokens) :
    Reading (Token TokenKind) (List (String × List Tree)) (tokens.length + 1) :=
  match tokens with
  | t :: rest =>
      match suffixRole? t.kind with
      | some role => ⟨[(role, [leaf t])], rest, by simp only [List.length_cons]; omega⟩
      | none => ⟨[], t :: rest, Nat.lt_succ_self _⟩
  | [] => ⟨[], [], Nat.lt_succ_self _⟩

mutual

/-- An item: a scalar with or without a label and a suffix. -/
def item (tokens : Tokens) : Step Tree tokens.length := do
  let label := label tokens
  let value ← scalar label.rest
  let mark := suffix value.rest
  .ok ⟨node .item ([(Role.name, label.value), (Role.scalar, [value.value])] ++ mark.value), mark.rest, by
    have := label.short
    have := value.short
    have := mark.short
    omega⟩
termination_by (tokens.length, 1)
decreasing_by
  have := (Document.label tokens).short
  rcases Nat.lt_or_eq_of_le (Nat.le_of_lt_succ this) with h | h
  · exact Prod.Lex.left _ _ h
  · show Prod.Lex _ _ ((Document.label tokens).rest.length, 0) (tokens.length, 1)
    rw [h]
    exact Prod.Lex.right _ Nat.zero_lt_one

/-- A scalar: a literal, a name, or a group in parentheses. -/
def scalar (tokens : Tokens) : Step Tree tokens.length :=
  match tokens with
  | t :: rest =>
      match t.kind with
      | .singleQuoted =>
          .ok ⟨node .scalar [(Role.singleQuoted, [leaf t])], rest, Nat.lt_succ_self _⟩
      | .doubleQuoted =>
          .ok ⟨node .scalar [(Role.doubleQuoted, [leaf t])], rest, Nat.lt_succ_self _⟩
      | .identifier =>
          .ok ⟨node .scalar [(Role.identifier, [leaf t])], rest, Nat.lt_succ_self _⟩
      | .openParen => do
          let elements ← elements rest
          if elements.value.isEmpty then stuck .emptyGroup (t :: rest)
          else
            let closing ← take .closeParen elements.rest
            let choice := node .choice [(Role.elements, elements.value)]
            let group := node .group [(Role.value, [node .expression [(Role.value, [choice])]])]
            .ok ⟨node .scalar [(Role.group, [group])], closing.rest, by
              have := elements.short
              have := closing.short
              simp only [List.length_cons]
              omega⟩
      | kind => stuck (.unexpectedToken kind.name) (t :: rest)
  | [] => stuck (.unexpectedToken TokenKind.endOfText.name) []
termination_by (tokens.length, 0)
decreasing_by
  apply Prod.Lex.left
  exact Nat.lt_succ_self _

/-- The elements of a group: items and bars, as many as follow one another. -/
def elements (tokens : Tokens) : Step (List Tree) (tokens.length + 1) :=
  match tokens with
  | t :: rest =>
      if t.kind = .bar then do
        let more ← elements rest
        .ok ⟨leaf t :: more.value, more.rest, by
          have := more.short
          simp only [List.length_cons]
          omega⟩
      else if beginsItem t.kind then do
        let first ← item (t :: rest)
        let more ← elements first.rest
        .ok ⟨first.value :: more.value, more.rest, by
          have := first.short
          have := more.short
          omega⟩
      else .ok ⟨[], t :: rest, Nat.lt_succ_self _⟩
  | [] => .ok ⟨[], [], Nat.lt_succ_self _⟩
termination_by (tokens.length, 2)
decreasing_by
  · apply Prod.Lex.left
    exact Nat.lt_succ_self _
  · exact Prod.Lex.right _ (by decide)
  · apply Prod.Lex.left
    exact first.short

end

/-- The items of a sequence, as many as follow one another, each wrapped as an
expression. -/
def expressions (tokens : Tokens) : Step (List Tree) (tokens.length + 1) :=
  if beginsItem (nextKind tokens) then do
    let first ← item tokens
    let more ← expressions first.rest
    .ok ⟨node .expression [(Role.value, [first.value])] :: more.value, more.rest, by
      have := first.short
      have := more.short
      omega⟩
  else .ok ⟨[], tokens, Nat.lt_succ_self _⟩
termination_by tokens.length
decreasing_by exact first.short

/-- A sequence of items, perhaps an empty one. -/
def sequence (tokens : Tokens) : Step Tree (tokens.length + 1) := do
  let items ← expressions tokens
  .ok ⟨node .sequence [(Role.expression, items.value)], items.rest, items.short⟩

/-- A sequence as one branch of a choice. -/
def branch (sequence : Tree) : Tree := node .branch [(Role.value, [sequence])]

/-- Whether a sequence has items. -/
def hasItems (sequence : Tree) : Bool := !(sequence.children?.getD []).isEmpty

/-- The further branches of a rule, each after a bar. -/
def branches (tokens : Tokens) : Step (List Tree) (tokens.length + 1) :=
  match tokens with
  | t :: rest =>
      if t.kind = .bar then do
        let first ← sequence rest
        let more ← branches first.rest
        .ok ⟨branch first.value :: more.value, more.rest, by
          have := first.short
          have := more.short
          simp only [List.length_cons]
          omega⟩
      else .ok ⟨[], t :: rest, Nat.lt_succ_self _⟩
  | [] => .ok ⟨[], [], Nat.lt_succ_self _⟩
termination_by tokens.length
decreasing_by
  have := first.short
  simp only [List.length_cons]
  omega

/-- The part of a rule before its first bar, as it stands in the body: the
sequence itself if the rule has no bar, else a branch, which is left out if it
is empty. -/
def leading (sequence : Tree) (rest : Tokens) : List Tree :=
  if nextKind rest ≠ .bar then [sequence]
  else if hasItems sequence then [branch sequence]
  else []

/-- A rule: a name, a colon, branches and a semicolon. -/
def rule (tokens : Tokens) : Step Tree tokens.length := do
  let name ← take .identifier tokens
  let colon ← take .colon name.rest
  let first ← sequence colon.rest
  let more ← branches first.rest
  match _end : more.rest with
  | t :: rest =>
      if t.kind = .semicolon then
        let body := leading first.value first.rest ++ more.value
        .ok ⟨node .rule [(Role.name, [leaf name.value]), (Role.body, body)], rest, by
          have := name.short
          have := colon.short
          have := first.short
          have h := more.short
          simp only [_end, List.length_cons] at h
          omega⟩
      else stuck (.missingSemicolon name.value.lexeme t.kind.name) (t :: rest)
  | [] => stuck (.missingSemicolon name.value.lexeme TokenKind.endOfText.name) []

/-- Rules up to a closing brace. -/
def ruleList (tokens : Tokens) : Step (List Tree) (tokens.length + 1) :=
  if nextKind tokens = .closeBrace then .ok ⟨[], tokens, Nat.lt_succ_self _⟩
  else do
    let first ← rule tokens
    let more ← ruleList first.rest
    .ok ⟨first.value :: more.value, more.rest, by
      have := first.short
      have := more.short
      omega⟩
termination_by tokens.length
decreasing_by exact first.short

/-- A block of rules, from its opening brace on. -/
def rules (tokens : Tokens) : Step Tree tokens.length := do
  let opening ← take .openBrace tokens
  let rules ← ruleList opening.rest
  let closing ← take .closeBrace rules.rest
  .ok ⟨node .rules [(Role.rules, rules.value)], closing.rest, by
    have := opening.short
    have := rules.short
    have := closing.short
    omega⟩

/-- What follows the name of a field that is no block of rules: declarations of
tokens in braces, or a colon and a value. -/
def fieldBody (name : Token TokenKind) (tokens : Tokens) : Step Tree tokens.length :=
  match tokens with
  | t :: rest =>
      if t.kind = .openBrace then do
        let declared ← tokenList rest
        let closing ← take .closeBrace declared.rest
        .ok ⟨node .field [(Role.name, [leaf name]), (Role.tokens, declared.value)], closing.rest, by
          have := declared.short
          have := closing.short
          simp only [List.length_cons]
          omega⟩
      else if t.kind = .colon then do
        let value ← optionValue rest
        .ok ⟨node .field [(Role.name, [leaf name]), (Role.value, [value.value])], value.rest,
          Nat.lt_succ_of_lt value.short⟩
      else stuck (.expectedFieldBody name.lexeme t.kind.name) (t :: rest)
  | [] => stuck (.expectedFieldBody name.lexeme TokenKind.endOfText.name) []

/-- A field. The name `rules` with a brace after it opens a block of rules. -/
def field (tokens : Tokens) : Step Tree tokens.length := do
  let name ← take .identifier tokens
  if name.value.lexeme = "rules" ∧ nextKind name.rest = .openBrace then
    let block ← rules name.rest
    .ok ⟨node .field [(Role.rules, [block.value])], block.rest, Nat.lt_trans block.short name.short⟩
  else
    let body ← fieldBody name.value name.rest
    .ok ⟨body.value, body.rest, Nat.lt_trans body.short name.short⟩

/-- All fields of a document. -/
def fields (tokens : Tokens) : Except Stuck (List Tree) :=
  match tokens with
  | [] => .ok []
  | t :: rest => do
      let first ← field (t :: rest)
      let more ← fields first.rest
      .ok (first.value :: more)
termination_by tokens.length
decreasing_by exact first.short

/-- The tree of a document. -/
def ofTokens (tokens : Tokens) : Except Stuck Tree := do
  .ok (node .document [(Role.fields, ← fields tokens)])

/-- The error for a fault in a scanned text: it is reported at the first token
that was left, or at the end. -/
def Stuck.toError (text : List Char) (scan : Scan) (s : Stuck) : SyntaxError :=
  .ofToken text s.fault (s.left.head?.getD scan.endToken)

/-- The tree of the document that a text holds. -/
def parseChars (text : List Char) : Except SyntaxError Tree :=
  match Scan.ofChars text with
  | .error e => .error e
  | .ok scan =>
      match ofTokens scan.tokens with
      | .ok tree => .ok tree
      | .error s => .error (s.toError text scan)

/-- The tree of the document that a text holds. -/
def parse (text : String) : Except SyntaxError Tree := parseChars text.toList

end Rulebook.Document
