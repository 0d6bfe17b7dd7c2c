import Rulebook.Document.Parse

/-! # Surface syntax

One type for each construct of a document, whose values are the derivations of
the construct:

    document   = field*
    field      = "rules" "{" rule* "}"
               | name "{" (declaration ","?)* "}"    with a name other than `rules`
               | name ":" value
    declaration = name ":" "{" (option ("," option)* ","?)? "}"
    option     = name ":" value
    value      = number | regex | literal | "true" | "false" | name
    rule       = name ":" sequence ("|" sequence)* ";"
    sequence   = item*
    item       = (name "=")? scalar ("?" | "*" | "+")?
    scalar     = literal | name | "(" element+ ")"
    element    = item | "|"

A derivation keeps every token it derives, so it gives back the tokens of its
construct and, independently of any parser, the tree that stands for them.
-/

namespace Rulebook.Surface

open Document (Tokens node leaf)

/-- A token of a kind. -/
structure Terminal (kind : TokenKind) where
  token : Token TokenKind
  kind_eq : token.kind = kind

/-- `name "="` -/
structure Label where
  name : Terminal .identifier
  equals : Terminal .equals

/-- `"?" | "*" | "+"` -/
inductive Suffix
  | optional (mark : Terminal .question)
  | many (mark : Terminal .star)
  | many1 (mark : Terminal .plus)

mutual

/-- `(name "=")? scalar ("?" | "*" | "+")?` -/
inductive Item
  | mk (label : Option Label) (scalar : Scalar) (suffix : Option Suffix)

/-- `literal | name | "(" element+ ")"` -/
inductive Scalar
  | singleQuoted (literal : Terminal .singleQuoted)
  | doubleQuoted (literal : Terminal .doubleQuoted)
  | name (name : Terminal .identifier)
  | group (opening : Terminal .openParen) (first : Element) (more : List Element)
      (closing : Terminal .closeParen)

/-- `item | "|"` -/
inductive Element
  | bar (bar : Terminal .bar)
  | item (item : Item)

end

/-- `item*` -/
abbrev Sequence := List Item

/-- `"|" sequence` -/
structure Alternative where
  bar : Terminal .bar
  sequence : Sequence

/-- `name ":" sequence ("|" sequence)* ";"` -/
structure Rule where
  name : Terminal .identifier
  colon : Terminal .colon
  lead : Sequence
  alternatives : List Alternative
  semicolon : Terminal .semicolon

/-- `number | regex | literal | "true" | "false" | name`, where a name is neither
of the two words. -/
inductive OptionValue
  | number (token : Terminal .number)
  | regex (token : Terminal .regex)
  | doubleQuoted (token : Terminal .doubleQuoted)
  | singleQuoted (token : Terminal .singleQuoted)
  | true (word : Terminal .identifier) (spelled : word.token.lexeme = "true")
  | false (word : Terminal .identifier) (spelled : word.token.lexeme = "false")
  | name (name : Terminal .identifier) (notTrue : name.token.lexeme ≠ "true")
      (notFalse : name.token.lexeme ≠ "false")

/-- `name ":" value` -/
structure OptionEntry where
  name : Terminal .identifier
  colon : Terminal .colon
  value : OptionValue

/-- `"," option` -/
structure FurtherOption where
  comma : Terminal .comma
  entry : OptionEntry

/-- `(option ("," option)* ","?)?` -/
inductive OptionList
  | none
  | some (first : OptionEntry) (more : List FurtherOption) (trailing : Option (Terminal .comma))

/-- `name ":" "{" (option ("," option)* ","?)? "}"` -/
structure Declaration where
  name : Terminal .identifier
  colon : Terminal .colon
  opening : Terminal .openBrace
  options : OptionList
  closing : Terminal .closeBrace

/-- `declaration ","?` -/
structure Declared where
  declaration : Declaration
  comma : Option (Terminal .comma)

/-- A field of a document. -/
inductive Field
  | rules (keyword : Terminal .identifier) (spelled : keyword.token.lexeme = "rules")
      (opening : Terminal .openBrace) (rules : List Rule) (closing : Terminal .closeBrace)
  | declarations (name : Terminal .identifier) (notRules : name.token.lexeme ≠ "rules")
      (opening : Terminal .openBrace) (declared : List Declared) (closing : Terminal .closeBrace)
  | setting (name : Terminal .identifier) (colon : Terminal .colon) (value : OptionValue)

/-- `field*` -/
abbrev Derivation := List Field

/-! ## The tokens of a derivation -/

/-- The token of a terminal that may be missing. -/
def optionalToken {kind : TokenKind} (terminal : Option (Terminal kind)) : Tokens :=
  (terminal.map Terminal.token).toList

/-- The tokens of a label, if there is one. -/
def labelTokens : Option Label → Tokens
  | none => []
  | some label => [label.name.token, label.equals.token]

/-- The token of a suffix. -/
def Suffix.token : Suffix → Token TokenKind
  | .optional mark => mark.token
  | .many mark => mark.token
  | .many1 mark => mark.token

/-- The token of a suffix, if there is one. -/
def suffixTokens (suffix : Option Suffix) : Tokens := (suffix.map Suffix.token).toList

mutual

/-- The tokens of an item. -/
def Item.tokens : Item → Tokens
  | .mk label scalar suffix => labelTokens label ++ scalar.tokens ++ suffixTokens suffix

/-- The tokens of a scalar. -/
def Scalar.tokens : Scalar → Tokens
  | .singleQuoted literal => [literal.token]
  | .doubleQuoted literal => [literal.token]
  | .name name => [name.token]
  | .group opening first more closing =>
      opening.token :: (first.tokens ++ elementTokens more) ++ [closing.token]

/-- The token of a bar, or the tokens of an item. -/
def Element.tokens : Element → Tokens
  | .bar bar => [bar.token]
  | .item item => item.tokens

/-- The tokens of elements. -/
def elementTokens : List Element → Tokens
  | [] => []
  | element :: rest => element.tokens ++ elementTokens rest

end

/-- The tokens of a sequence. -/
def sequenceTokens (items : Sequence) : Tokens := items.flatMap Item.tokens

/-- The tokens of an alternative. -/
def Alternative.tokens (a : Alternative) : Tokens := a.bar.token :: sequenceTokens a.sequence

/-- The tokens of a rule. -/
def Rule.tokens (r : Rule) : Tokens :=
  r.name.token :: r.colon.token ::
    (sequenceTokens r.lead ++ r.alternatives.flatMap Alternative.tokens ++ [r.semicolon.token])

/-- The token of a value. -/
def OptionValue.token : OptionValue → Token TokenKind
  | .number t => t.token
  | .regex t => t.token
  | .doubleQuoted t => t.token
  | .singleQuoted t => t.token
  | .true word _ => word.token
  | .false word _ => word.token
  | .name t _ _ => t.token

/-- The tokens of an option. -/
def OptionEntry.tokens (o : OptionEntry) : Tokens := [o.name.token, o.colon.token, o.value.token]

/-- The tokens of a further option. -/
def FurtherOption.tokens (o : FurtherOption) : Tokens := o.comma.token :: o.entry.tokens

/-- The tokens of a list of options. -/
def OptionList.tokens : OptionList → Tokens
  | .none => []
  | .some first more trailing =>
      first.tokens ++ more.flatMap FurtherOption.tokens ++ optionalToken trailing

/-- The tokens of a declaration. -/
def Declaration.tokens (d : Declaration) : Tokens :=
  d.name.token :: d.colon.token :: d.opening.token :: (d.options.tokens ++ [d.closing.token])

/-- The tokens of a declaration and of the comma after it, if there is one. -/
def Declared.tokens (d : Declared) : Tokens := d.declaration.tokens ++ optionalToken d.comma

/-- The tokens of a field. -/
def Field.tokens : Field → Tokens
  | .rules keyword _ opening block closing =>
      keyword.token :: opening.token :: (block.flatMap Rule.tokens ++ [closing.token])
  | .declarations name _ opening declared closing =>
      name.token :: opening.token :: (declared.flatMap Declared.tokens ++ [closing.token])
  | .setting name colon value => [name.token, colon.token, value.token]

/-- The tokens of a derivation. -/
def Derivation.tokens (d : Derivation) : Tokens := d.flatMap Field.tokens

/-! ## The tree of a derivation -/

/-- The name of a label as children. -/
def labelTrees : Option Label → List Tree
  | none => []
  | some label => [leaf label.name.token]

/-- The mark of a suffix under the role of its kind. -/
def suffixRoles : Option Suffix → Children
  | none => []
  | some (.optional mark) => [(Role.optional, [leaf mark.token])]
  | some (.many mark) => [(Role.many, [leaf mark.token])]
  | some (.many1 mark) => [(Role.many1, [leaf mark.token])]

mutual

/-- The tree of an item. -/
def Item.tree : Item → Tree
  | .mk label scalar suffix =>
      node .item
        ([(Role.name, labelTrees label), (Role.scalar, [scalar.tree])] ++ suffixRoles suffix)

/-- The tree of a scalar. -/
def Scalar.tree : Scalar → Tree
  | .singleQuoted literal => node .scalar [(Role.singleQuoted, [leaf literal.token])]
  | .doubleQuoted literal => node .scalar [(Role.doubleQuoted, [leaf literal.token])]
  | .name name => node .scalar [(Role.identifier, [leaf name.token])]
  | .group _ first more _ =>
      let choice := node .choice [(Role.elements, first.tree :: elementTrees more)]
      let group := node .group [(Role.value, [node .expression [(Role.value, [choice])]])]
      node .scalar [(Role.group, [group])]

/-- The tree of an element: a bar is a leaf. -/
def Element.tree : Element → Tree
  | .bar bar => leaf bar.token
  | .item item => item.tree

/-- The trees of elements. -/
def elementTrees : List Element → List Tree
  | [] => []
  | element :: rest => element.tree :: elementTrees rest

end

/-- The trees of items, each wrapped as an expression. -/
def expressionTrees (items : Sequence) : List Tree :=
  items.map fun item => node .expression [(Role.value, [item.tree])]

/-- The tree of a sequence. -/
def sequenceTree (items : Sequence) : Tree :=
  node .sequence [(Role.expression, expressionTrees items)]

/-- The tree of a sequence that is a branch. -/
def branchTree (items : Sequence) : Tree := node .branch [(Role.value, [sequenceTree items])]

/-- The branches of a rule with a bar: a leading one that is empty is left out. -/
def Rule.branches (r : Rule) : List Sequence :=
  (if r.lead.isEmpty then [] else [r.lead]) ++ r.alternatives.map Alternative.sequence

/-- The trees in the body of a rule: one sequence without a bar, else branches. -/
def Rule.bodyTrees (r : Rule) : List Tree :=
  if r.alternatives.isEmpty then [sequenceTree r.lead] else r.branches.map branchTree

/-- The tree of a rule. -/
def Rule.tree (r : Rule) : Tree :=
  node .rule [(Role.name, [leaf r.name.token]), (Role.body, r.bodyTrees)]

/-- The role under which a value stands. -/
def OptionValue.role : OptionValue → String
  | .number _ => Role.number
  | .regex _ => Role.regex
  | .doubleQuoted _ => Role.doubleQuoted
  | .singleQuoted _ => Role.singleQuoted
  | .true _ _ => Role.true
  | .false _ _ => Role.false
  | .name _ _ _ => Role.identifier

/-- The tree of a value. -/
def OptionValue.tree (v : OptionValue) : Tree := node .optionValue [(v.role, [leaf v.token])]

/-- The tree of an option. -/
def OptionEntry.tree (o : OptionEntry) : Tree :=
  node .option [(Role.name, [leaf o.name.token]), (Role.value, [o.value.tree])]

/-- The options of a list. -/
def OptionList.entries : OptionList → List OptionEntry
  | .none => []
  | .some first more _ => first :: more.map FurtherOption.entry

/-- The tree of a declaration. -/
def Declaration.tree (d : Declaration) : Tree :=
  node .token
    [(Role.name, [leaf d.name.token]), (Role.options, d.options.entries.map OptionEntry.tree)]

/-- The tree of a field. -/
def Field.tree : Field → Tree
  | .rules _ _ _ block _ =>
      node .field [(Role.rules, [node .rules [(Role.rules, block.map Rule.tree)]])]
  | .declarations name _ _ declared _ =>
      node .field
        [(Role.name, [leaf name.token]),
         (Role.tokens, declared.map fun d => d.declaration.tree)]
  | .setting name _ value =>
      node .field [(Role.name, [leaf name.token]), (Role.value, [value.tree])]

/-- The tree of a derivation. -/
def Derivation.tree (d : Derivation) : Tree := node .document [(Role.fields, d.map Field.tree)]

end Rulebook.Surface
