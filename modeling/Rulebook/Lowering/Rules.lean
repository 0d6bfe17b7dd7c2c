import Rulebook.Document.Parse
import Rulebook.Grammar.Equality
import Rulebook.Lowering.Error
import Rulebook.Number.Numeral

/-! # Lowering rules

One rule for each kind of node. A rule reads the roles it needs and uses the
outcomes of the visits of its children. The body of a rule is put together in
two steps: adjacent branches become one choice, and then lists and tuples are
spliced in.
-/

namespace Rulebook.Lowering

/-- The visits that a rule works with. -/
abbrev Visits := Rulebook.Visits LoweringFailure Value

/-- What a rule gives. -/
abbrev Outcome (α : Type) := Except LoweringFailure α

/-- Fails with an error of lowering. -/
def fail {α : Type} (e : LoweringError) : Outcome α := .error (.error e)

/-- Fails because of the shape of the tree. -/
def misshapen {α : Type} (f : ShapeFault) : Outcome α := .error (.shape f)

/-- The lexeme of the first token under a role, if the role has a child. -/
def lexeme? (v : Visits) (role : String) : Outcome (Option String) :=
  match v.children.lexeme? role with
  | .ok s => .ok s
  | .error found => misshapen (.notAToken found)

/-- The name that a node carries, as data. -/
def nameOf (v : Visits) : Outcome Json := return Value.textData (← lexeme? v Role.name)

/-- Whether a role has a child. -/
def isUsed (v : Visits) (role : String) : Bool := !(v.under role).isEmpty

/-- A text without its first and its last character. -/
def unquote (s : String) : String := String.ofList (s.toList.tail.dropLast)

/-! ## Documents and fields -/

/-- A document gives a grammar. -/
def document (v : Visits) : Outcome Value := return .grammar (← v.all Role.fields)

/-- A field gives its block of rules, or a token section if its name is
`tokens`, or else its name alone. -/
def field (v : Visits) : Outcome Value :=
  match v.children.first? Role.rules with
  | some _ => v.first Role.rules
  | none => do
      let name ← lexeme? v Role.name
      if name = some "tokens" then
        return .tokenSection (← v.all Role.tokens) (.string "tokens")
      else return .otherField (Value.textData name)

/-! ## Tokens -/

/-- The two items of a value. -/
def pair (v : Value) : Outcome (Value × Value) :=
  match v.items? with
  | some [name, value] => .ok (name, value)
  | some _ => misshapen .notAPair
  | none => misshapen .notASequence

/-- Options after the outcome of one more. -/
def addOption (options : List (Value × Value)) (outcome : Outcome Value) :
    Outcome (List (Value × Value)) := do
  let (name, value) ← pair (← outcome)
  if name.isKey then return Value.putOption options name value else misshapen .notAKey

/-- A token gives a declaration with its options; of options with one name the
last one counts. -/
def token (v : Visits) : Outcome Value := do
  let options ← (v.under Role.options).foldlM (fun options kid => addOption options kid.2) []
  return .tokenDef (← nameOf v) options

/-- An option gives its name and its value. -/
def option (v : Visits) : Outcome Value := do
  let name ← nameOf v
  return .tuple [.data name, ← v.first Role.value]

/-- A number in writing: a whole number if it can be read as one. -/
def numberValue? (s : String) : Option Json :=
  match Numeral.integer? s.toList with
  | some i => some (.int i)
  | none => (Numeral.double? s.toList).map .float

/-- A regular expression between slashes, with its flags: the last slash ends
the pattern. Without any slash all of the text is flags. -/
def regexValue (s : String) : Value :=
  let reversed := s.toList.reverse
  let flags := (reversed.takeWhile (· ≠ '/')).reverse
  let pattern := match reversed.dropWhile (· ≠ '/') with
    | _ :: head => head.reverse.tail
    | [] => s.toList.tail.dropLast
  .regex (.string (String.ofList pattern)) (.string (String.ofList flags))

/-- The roles of the value of an option, in the order in which they are
considered. -/
def valueRoles : List String :=
  [Role.number, Role.regex, Role.doubleQuoted, Role.singleQuoted, Role.identifier, Role.true, Role.false]

/-- The value for a role and the lexeme under it. -/
def valueOf (v : Visits) (role : String) (lexeme : Option String) : Outcome Value :=
  if role = Role.identifier then return .identifier (Value.textData lexeme)
  else if role = Role.true then return .boolean (.bool true)
  else if role = Role.false then return .boolean (.bool false)
  else match lexeme with
    | none => misshapen (.noLexeme role)
    | some s =>
        if role = Role.number then
          match numberValue? s with
          | some n => return .number n
          | none => fail (.malformedValue role s v.children)
        else if role = Role.regex then return regexValue s
        else return .string (.string (unquote s))

/-- The value of an option: that of the first role that is used. -/
def optionValue (v : Visits) : Outcome Value :=
  match valueRoles.find? (isUsed v) with
  | some role => do valueOf v role (← lexeme? v role)
  | none => fail (.noValue v.children)

/-! ## Rules -/

/-- A block of rules. -/
def rules (v : Visits) : Outcome Value := return .rulesField (← v.all Role.rules) (.string "rules")

/-- The elements of a branch. -/
def branchElements : Value → List Value
  | .branch elements => elements
  | _ => []

/-- The choice between the branches of a run. -/
def chooseAmong (run : List Value) : Value := .choice (run.map branchElements)

/-- A branch as a choice of its own; any other value as it is. -/
def closeBranch (v : Value) : Value := if v.isBranch then chooseAmong [v] else v

/-- The body of a rule from the values of its sequences and branches: what is
nothing is dropped, adjacent branches become one choice, and sequences are
spliced in. -/
def ruleBody (parts : List Value) : List Value :=
  let kept := parts.filter fun v => !v.isNone
  let merged := Sequence.mergeRuns (fun v : Value => if v.isBranch then some () else none)
    (fun _ _ => true) chooseAmong kept
  Value.splice (merged.map closeBranch)

/-- A rule gives its name and its body. -/
def rule (v : Visits) : Outcome Value := do
  let parts ← v.all Role.body
  return .ruleDef (← nameOf v) (ruleBody parts)

/-- A branch holds what its sequence holds. -/
def branch (v : Visits) : Outcome Value := do
  let value ← v.first Role.value
  if value.isEmpty then return .branch []
  else match value.items? with
    | some elements => return .branch elements
    | none => misshapen .notASequence

/-- A sequence gives the list of its elements, or nothing if it is empty. -/
def sequence (v : Visits) : Outcome Value :=
  if isUsed v Role.expression then return .list (Value.splice (← v.all Role.expression))
  else return Value.nothing

/-- An expression gives what it wraps. -/
def expression (v : Visits) : Outcome Value := v.first Role.value

/-- A choice within a group: the items between bars. Without a bar it gives the
list of its items. -/
def choice (v : Visits) : Outcome Value := do
  let groups := Sequence.groups (fun kid => !kid.1.isNodeOf NodeKind.item.name) (v.under Role.elements)
  let branches ← groups.mapM fun group => return Value.splice (← group.mapM Prod.snd)
  match branches with
  | [elements] => return .list elements
  | _ => return .choice branches

/-- The modifier of an item; of several marks the one for more repetition
counts. -/
def modifier (v : Visits) : Json :=
  if isUsed v Role.many1 then .string "many1"
  else if isUsed v Role.many then .string "many"
  else if isUsed v Role.optional then .string "optional"
  else .null

/-- A list that is done. -/
def closeList : Value → Value
  | .list elements => .tuple elements
  | v => v

/-- An item gives its scalar, with its label and modifier if it has any. -/
def item (v : Visits) : Outcome Value :=
  match v.children.first? Role.scalar with
  | none => fail (.noScalar v.children)
  | some _ => do
      let value ← v.first Role.scalar
      if value.isNone then fail (.noScalar v.children)
      else
        let label ← lexeme? v Role.name
        match label, modifier v with
        | none, .null => return value
        | label, mark => return .named (closeList value) (Value.textData label) mark

/-- A literal without its quotes. -/
def literal (v : Visits) (role : String) : Outcome Value := do
  match ← lexeme? v role with
  | some s => return .string (.string (unquote s))
  | none => misshapen (.noLexeme role)

/-- A scalar gives a literal, a reference, or what its group gives; nothing if
no role is used. -/
def scalar (v : Visits) : Outcome Value :=
  if isUsed v Role.singleQuoted then literal v Role.singleQuoted
  else if isUsed v Role.doubleQuoted then literal v Role.doubleQuoted
  else if isUsed v Role.identifier then
    return .ref (Value.textData (← lexeme? v Role.identifier))
  else if isUsed v Role.group then v.first Role.group
  else return Value.nothing

/-- A group gives what it wraps. -/
def group (v : Visits) : Outcome Value :=
  match v.children.first? Role.value with
  | none => fail (.emptyGroup v.children)
  | some _ => v.first Role.value

/-- The rule for a kind of node. -/
def ruleFor : NodeKind → Visits → Outcome Value
  | .document => document
  | .field => field
  | .token => token
  | .option => option
  | .optionValue => optionValue
  | .rules => rules
  | .rule => rule
  | .branch => branch
  | .sequence => sequence
  | .expression => expression
  | .choice => choice
  | .item => item
  | .scalar => scalar
  | .group => group

/-- The visitor that lowers trees. Whatever has no rule stays as it is. -/
def visitor : Visitor LoweringFailure Value :=
  { handlers := NodeKind.all.map fun kind => (kind.name, Handler.ofVisits (ruleFor kind))
    fallback := .unchanged Value.ofTree }

/-- Lowers a tree. -/
def lower (t : Tree) : Outcome Value := visitor.visit t

/-- Lowers a tree and gives an error of lowering as a value. -/
def attempt (t : Tree) : Except ShapeFault (Except LoweringError Value) :=
  match lower t with
  | .ok v => .ok (.ok v)
  | .error (.error e) => .ok (.error e)
  | .error (.shape f) => .error f

end Rulebook.Lowering

namespace Rulebook

/-- Why the text of a rulebook is not lowered. -/
inductive SourceFailure
  | text (e : SyntaxError)
  | tree (f : LoweringFailure)

/-- The grammar that a text describes. -/
def lowerText (text : String) : Except SourceFailure Value :=
  match Document.parse text with
  | .error e => .error (.text e)
  | .ok t =>
      match Lowering.lower t with
      | .error f => .error (.tree f)
      | .ok v => .ok v

end Rulebook
