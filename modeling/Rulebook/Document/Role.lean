/-! # Kinds and roles in the tree of a document

A document is a sequence of fields. Some of them declare tokens, some hold
rules, and the body of a rule is made of expressions. Each construct has a node
of its own kind, and each part of it a role.
-/

namespace Rulebook

/-- The kinds of node in the tree of a document. -/
inductive NodeKind
  | document | field
  | token | option | optionValue
  | rules | rule | branch | sequence
  | expression | choice | item | scalar | group
  deriving Repr, DecidableEq, Inhabited

namespace NodeKind

/-- The name of a kind of node. -/
def name : NodeKind → String
  | document => "root"
  | field => "root_field"
  | token => "token"
  | option => "token_option"
  | optionValue => "token_option_value"
  | rules => "rules"
  | rule => "rule"
  | branch => "rule_or_sequence"
  | sequence => "rule_sequence"
  | expression => "rule_body_expr"
  | choice => "rule_body_expr_binary"
  | item => "rule_body_expr_unary"
  | scalar => "rule_body_expr_scalar"
  | group => "rule_body_expr_pth"

/-- All kinds of node. -/
def all : List NodeKind :=
  [document, field, token, option, optionValue, rules, rule, branch, sequence, expression, choice,
   item, scalar, group]

/-- The kind of a name. -/
def ofName? (s : String) : Option NodeKind := all.find? fun kind => kind.name == s

end NodeKind

namespace Role

/-- The fields of a document. -/
def fields : String := "fields"
/-- The rules of a block, and the block in its field. -/
def rules : String := "rules"
/-- The name of what is declared, or the label of an item. -/
def name : String := "name"
/-- The tokens that a field declares. -/
def tokens : String := "tokens"
/-- The options of a token. -/
def options : String := "options"
/-- The one thing that a node wraps. -/
def value : String := "value"
/-- A number. -/
def number : String := "number"
/-- A regular expression. -/
def regex : String := "regex"
/-- A literal in double quotes. -/
def doubleQuoted : String := "double_quote_string"
/-- A literal in single quotes. -/
def singleQuoted : String := "single_quote_string"
/-- An identifier. -/
def identifier : String := "identifier"
/-- The word for true. -/
def true : String := "true"
/-- The word for false. -/
def false : String := "false"
/-- The sequences and branches of a rule. -/
def body : String := "body"
/-- The expressions of a sequence. -/
def expression : String := "expr"
/-- The items and bars of a group. -/
def elements : String := "elems"
/-- What an item labels and repeats. -/
def scalar : String := "scalar"
/-- A group in parentheses. -/
def group : String := "pth"
/-- The mark of an item that may be left out. -/
def optional : String := "optional"
/-- The mark of an item that may be repeated or left out. -/
def many : String := "many"
/-- The mark of an item that may be repeated. -/
def many1 : String := "many1"

end Role

end Rulebook
