import Rulebook.Tree.Basic

/-! # Outlines and displays of trees

An outline has one line for each node and each token, indented by its depth and
labeled with its role. A display and a digest stand on one line; the digest
shows only the children of one node.
-/

namespace Rulebook.Tree

/-- A line of an outline. A node shows its kind, a token its kind and its quoted
lexeme, and a role without name is left out. -/
def outlineLine (indent : List Char) (depth : Nat) (role : String) (text : List Char) : List Char :=
  let label := if role.isEmpty then [] else role.toList ++ [':', ' ']
  (List.replicate depth indent).flatten ++ label ++ text

mutual

/-- The lines of the outline of a tree under a role. A tree that holds plain
data has no outline. -/
def outlineLines (indent : List Char) (depth : Nat) (role : String) : Tree → Option (List (List Char))
  | .leaf t =>
      some [outlineLine indent depth role (t.kind.toList ++ ' ' :: Text.quoted t.lexeme.toList)]
  | .node kind children => do
      let below ← rolesOutline indent (depth + 1) children
      return outlineLine indent depth role kind.toList :: below
  | .plain _ => none

/-- The lines of the outlines of children, role by role. -/
def rolesOutline (indent : List Char) (depth : Nat) :
    List (String × List Tree) → Option (List (List Char))
  | [] => some []
  | (role, kids) :: rest => do
      let lines ← kidsOutline indent depth role kids
      return lines ++ (← rolesOutline indent depth rest)

/-- The lines of the outlines of the children under one role. -/
def kidsOutline (indent : List Char) (depth : Nat) (role : String) :
    List Tree → Option (List (List Char))
  | [] => some []
  | t :: rest => do
      let lines ← outlineLines indent depth role t
      return lines ++ (← kidsOutline indent depth role rest)

end

/-- The outline of a tree, with the given text for each level of indentation. -/
def outline? (indent : String) (t : Tree) : Option String :=
  (outlineLines indent.toList 0 "" t).map fun lines =>
    String.ofList (['\n'].intercalate lines)

/-- The indentation of an outline, unless another one is asked for. -/
def standardIndent : String := "  "

/-- The display of a token with all it carries. -/
def displayLeaf (t : Leaf) : String :=
  "Tok(kind=" ++ t.kind.quotedText ++ ", lexeme=" ++ t.lexeme.quotedText
    ++ ", start=" ++ toString t.start ++ ", end=" ++ toString t.stop
    ++ ", line=" ++ toString t.line ++ ", col=" ++ toString t.column ++ ")"

mutual

/-- The display of a tree on one line. -/
def display : Tree → String
  | .leaf t => displayLeaf t
  | .node kind children =>
      "CstNode(kind=" ++ kind.quotedText ++ ", children=\x7b"
        ++ ", ".intercalate (displayRoles children) ++ "\x7d)"
  | .plain j => j.display

/-- The displays of children, role by role. -/
def displayRoles : List (String × List Tree) → List String
  | [] => []
  | (role, kids) :: rest =>
      (role.quotedText ++ ": [" ++ ", ".intercalate (displayKids kids) ++ "]") :: displayRoles rest

/-- The displays of the children under one role. -/
def displayKids : List Tree → List String
  | [] => []
  | t :: rest => t.display :: displayKids rest

end

/-- How a child is shown in a digest. -/
def digest : Tree → String
  | .leaf t => t.lexeme.quotedText
  | .node kind _ => "<" ++ kind ++ ">"
  | .plain j => j.display

end Rulebook.Tree

/-- The digest of children: for each role its tokens by their lexemes, its nodes
by their kinds. -/
def Rulebook.Children.digest (children : Rulebook.Children) : String :=
  let shown := children.map fun (role, kids) =>
    role ++ ": [" ++ ", ".intercalate (kids.map Rulebook.Tree.digest) ++ "]"
  "\x7b" ++ ", ".intercalate shown ++ "\x7d"
