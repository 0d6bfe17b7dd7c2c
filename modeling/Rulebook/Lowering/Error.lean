import Rulebook.Document.Role
import Rulebook.Tree.Visitor

/-! # Errors of lowering

Lowering fails where a node lacks what its kind promises. A tree may also be so
far from the expected shape that no error is made for it: a child is no token
where a lexeme is needed, or a visit gives a value that cannot be used. Those
are faults of shape.
-/

namespace Rulebook

/-- The kinds of error. -/
inductive ErrorKind
  | unrecognizedOptionValue
  | missingSubValue
  | unhandledNodeKind
  deriving Repr, DecidableEq

/-- The name of a kind of error. -/
def ErrorKind.name : ErrorKind → String
  | unrecognizedOptionValue => "unrecognized-option-value"
  | missingSubValue => "missing-sub-value"
  | unhandledNodeKind => "unhandled-node-kind"

/-- An error of lowering, with the children of the node at fault. -/
inductive LoweringError
  | malformedValue (role lexeme : String) (children : Children)
  | noValue (children : Children)
  | noScalar (children : Children)
  | emptyGroup (children : Children)

namespace LoweringError

/-- The kind of an error. -/
def kind : LoweringError → ErrorKind
  | malformedValue _ _ _ | noValue _ => .unrecognizedOptionValue
  | noScalar _ | emptyGroup _ => .missingSubValue

/-- The kind of the node at fault. -/
def nodeKind : LoweringError → NodeKind
  | malformedValue _ _ _ | noValue _ => .optionValue
  | noScalar _ => .item
  | emptyGroup _ => .group

/-- The children of the node at fault. -/
def children : LoweringError → Children
  | malformedValue _ _ children | noValue children | noScalar children | emptyGroup children => children

/-- What went wrong. -/
def text : LoweringError → String
  | malformedValue role lexeme _ => "Malformed " ++ role ++ " value " ++ lexeme.quotedText
  | noValue _ => "Failed to map option value"
  | noScalar _ => "Unhandled rule_body_expr"
  | emptyGroup _ => "Unhandled rule_body_expr_pth"

/-- The message of an error: what went wrong, and the children of the node. -/
def message (e : LoweringError) : String := e.text ++ " " ++ e.children.digest

end LoweringError

/-- How a tree breaks the shape that lowering relies on. -/
inductive ShapeFault
  | notAToken (found : Children.NotAToken)
  | noLexeme (role : String)
  | notASequence
  | notAPair
  | notAKey
  deriving Repr, DecidableEq

/-- Why a tree is not lowered. -/
inductive LoweringFailure
  | error (e : LoweringError)
  | shape (f : ShapeFault)

end Rulebook
