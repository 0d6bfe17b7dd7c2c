import Rulebook.Proofs.Token.Lexemes
import Rulebook.Proofs.Tree.Moved
import Rulebook.Proofs.Tree.Same

/-! # Trees in print

A tree can be printed as a row of glyphs: its own tokens, and the ones it does not keep put
in where its nodes ask for them. Equal trees have the same print, in whatever order they
list their roles.
-/

namespace Rulebook

open Document (Tokens node leaf)

/-- A kind of token by name, with a lexeme unless the kind alone tells it. -/
abbrev Glyph := String × String

/-- A token in print. -/
def Token.glyph (t : Leaf) : Glyph :=
  (t.kind, if t.kind ∈ Piece.punctuations.map TokenKind.name then "" else t.lexeme)

/-- A kind of token with only one lexeme in print. -/
def TokenKind.glyph (kind : TokenKind) : Glyph := (kind.name, "")

namespace Tree

/-- The print of the body of a rule from those of its branches, each with a bar in front.
Of several branches the first one has no bar, unless it is empty. -/
def bodyPrint : List (List Glyph) → List Glyph
  | (_ :: first :: more) :: next :: rest => first :: more ++ (next :: rest).flatten
  | branches => branches.flatten

/-- The print of a label and its sign, if there is a label. -/
def labelPrint (label : List Glyph) : List Glyph :=
  if label.isEmpty then [] else label ++ [TokenKind.equals.glyph]

/-- The print of a node from those of its children under each role. -/
def nodePrint (kind : NodeKind) (kids : String → List (List Glyph)) : List Glyph :=
  let row role := (kids role).flatten
  match kind with
  | .document => row Role.fields
  | .field =>
      if !(kids Role.rules).isEmpty then (TokenKind.identifier.name, "rules") :: row Role.rules
      else if !(kids Role.value).isEmpty then
        row Role.name ++ TokenKind.colon.glyph :: row Role.value
      else row Role.name ++ TokenKind.openBrace.glyph ::
        (row Role.tokens ++ [TokenKind.closeBrace.glyph])
  | .token =>
      row Role.name ++ TokenKind.colon.glyph :: TokenKind.openBrace.glyph ::
        (row Role.options ++ [TokenKind.closeBrace.glyph])
  | .option => row Role.name ++ TokenKind.colon.glyph :: row Role.value
  | .optionValue => Lowering.valueRoles.flatMap row
  | .rules => TokenKind.openBrace.glyph :: (row Role.rules ++ [TokenKind.closeBrace.glyph])
  | .rule =>
      row Role.name ++ TokenKind.colon.glyph ::
        (bodyPrint (kids Role.body) ++ [TokenKind.semicolon.glyph])
  | .branch => TokenKind.bar.glyph :: row Role.value
  | .sequence => row Role.expression
  | .expression => row Role.value
  | .choice => row Role.elements
  | .item =>
      labelPrint (row Role.name) ++ row Role.scalar ++ row Role.optional ++ row Role.many ++
        row Role.many1
  | .scalar =>
      row Role.singleQuoted ++ row Role.doubleQuoted ++ row Role.identifier ++ row Role.group
  | .group => TokenKind.openParen.glyph :: (row Role.value ++ [TokenKind.closeParen.glyph])

mutual

/-- A tree in print. -/
def print : Tree → List Glyph
  | .leaf t => [t.glyph]
  | .node kind children =>
      match NodeKind.ofName? kind with
      | some kind => nodePrint kind fun role => ((rolePrints children).lookup role).getD []
      | none => []
  | .plain _ => []

/-- All children in print by role. -/
def rolePrints : List (String × List Tree) → List (String × List (List Glyph))
  | [] => []
  | (role, kids) :: rest => (role, kidPrints kids) :: rolePrints rest

/-- The children under one role in print, one by one. -/
def kidPrints : List Tree → List (List Glyph)
  | [] => []
  | t :: rest => t.print :: kidPrints rest

end

theorem kidPrints_eq_map (kids : List Tree) : kidPrints kids = kids.map print := by
  induction kids with
  | nil => rfl
  | cons t rest ih => rw [kidPrints, ih, List.map_cons]

theorem under_rolePrints (children : Children) (role : String) :
    ((rolePrints children).lookup role).getD [] = (children.under role).map print := by
  induction children with
  | nil => rfl
  | cons entry rest ih =>
      obtain ⟨r, kids⟩ := entry
      rw [rolePrints, kidPrints_eq_map, Sequence.lookup_cons_eq_ite, Lowering.under_cons]
      by_cases hrole : role = r
      · rw [if_pos hrole, if_pos hrole, Option.getD_some]
      · rw [if_neg hrole, if_neg hrole]
        exact ih

/-- The print of a node uses its children by role. -/
theorem print_node_congr {kind : String} {children others : Children}
    (h : ∀ role, (children.under role).map print = (others.under role).map print) :
    (Tree.node kind children).print = (Tree.node kind others).print := by
  simp only [print, under_rolePrints, h]

/-! ## Equal trees -/

theorem map_print_eq {as bs : List Tree}
    (h : ∀ a ∈ as, ∀ {b : Tree}, a.same b → a.print = b.print) (hsame : sameKids as bs) :
    as.map print = bs.map print := by
  induction sameKids_iff.mp hsame with
  | nil => rfl
  | cons hfirst hrest ih =>
      rw [List.map_cons, List.map_cons, h _ List.mem_cons_self hfirst,
        ih (fun a ha => h a (List.mem_cons_of_mem _ ha)) (sameKids_iff.mpr hrest)]

/-- Equal trees have the same print. -/
theorem IsKeyed.print_eq {t t' : Tree} (h : IsKeyed t) (hsame : t.same t') :
    t.print = t'.print := by
  induction h generalizing t' with
  | leaf t =>
      cases t' with
      | leaf u =>
          rw [same, beq_iff_eq] at hsame
          rw [hsame]
      | node | plain => cases hsame
  | @node kind children distinct kids ih =>
      cases t' with
      | leaf | plain => cases hsame
      | node kind' others =>
          rw [same, Bool.and_eq_true, Bool.and_eq_true, beq_iff_eq, beq_iff_eq] at hsame
          obtain ⟨⟨rfl, hlength⟩, hroles⟩ := hsame
          refine print_node_congr fun role => ?_
          refine map_print_eq ?_ (sameKids_under distinct hlength hroles role)
          intro s hs
          obtain ⟨entry, hentry, hkid⟩ := Children.exists_kids_of_mem_under hs
          exact ih _ hentry s hkid

end Tree

/-- Tokens in print. -/
def Document.print (tokens : Tokens) : List Glyph := tokens.map fun t => t.toLeaf.glyph

/-- A tree that lists its roles once is printed as these tokens. -/
structure Prints (t : Tree) (tokens : Tokens) : Prop where
  keyed : t.IsKeyed
  print_eq : t.print = Document.print tokens

namespace Document

@[simp] theorem print_nil : print [] = [] := rfl

@[simp] theorem print_cons (t : Token TokenKind) (rest : Tokens) :
    print (t :: rest) = t.toLeaf.glyph :: print rest := rfl

@[simp] theorem print_append (tokens more : Tokens) :
    print (tokens ++ more) = print tokens ++ print more := List.map_append

end Document

@[simp] theorem Document.leaf_print (t : Token TokenKind) : (leaf t).print = [t.toLeaf.glyph] :=
  rfl

@[simp] theorem Document.leaf_isKeyed (t : Token TokenKind) : (leaf t).IsKeyed := .leaf _

namespace Prints

/-- A node that is given each of its roles once is printed by its kind from its children. -/
theorem node {kind : NodeKind} {roles : Children} {tokens : Tokens}
    (distinct : (roles.map Prod.fst).Nodup) (kids : ∀ entry ∈ roles, ∀ s ∈ entry.2, s.IsKeyed)
    (hprint : Tree.nodePrint kind (fun role => (Children.under roles role).map Tree.print) =
      Document.print tokens) : Prints (node kind roles) tokens where
  keyed := .node (distinct.sublist (List.filter_sublist.map _))
    fun entry hentry => kids entry (List.mem_of_mem_filter hentry)
  print_eq := by
    rw [← hprint]
    simp only [Document.node, Tree.print, NodeKind.ofName?_name, Tree.under_rolePrints,
      Lowering.under_filter distinct]

variable {δ : Type} {tree : δ → Tree} {tokens : δ → Tokens} {ds : List δ}

theorem keyed_map (h : ∀ d ∈ ds, Prints (tree d) (tokens d)) : ∀ s ∈ ds.map tree, s.IsKeyed := by
  intro s hs
  obtain ⟨d, hd, rfl⟩ := List.mem_map.mp hs
  exact (h d hd).keyed

theorem flatten_map (h : ∀ d ∈ ds, Prints (tree d) (tokens d)) :
    ((ds.map tree).map Tree.print).flatten = Document.print (ds.flatMap tokens) := by
  rw [List.map_map, ← List.flatMap_def, Document.print, List.map_flatMap]
  exact List.flatMap_congr fun d hd => (h d hd).print_eq

end Prints

/-! ## Lexemes from print -/

/-- Lexemes that look the same in print are the same. -/
theorem Token.lexeme_eq_of_glyph {t u : Token TokenKind} (ht : IsLexeme t.kind t.lexeme)
    (hu : IsLexeme u.kind u.lexeme) (h : t.toLeaf.glyph = u.toLeaf.glyph) :
    (t.kind, t.lexeme) = (u.kind, u.lexeme) := by
  obtain ⟨hname, hlexeme⟩ := Prod.mk.inj h
  have hkind : t.kind = u.kind := TokenKind.name_injective hname
  refine Prod.ext hkind ?_
  by_cases hmark : t.kind ∈ Piece.punctuations
  · refine String.toList_injective ?_
    rw [ht.toList_eq hmark, hu.toList_eq (hkind ▸ hmark), hkind]
  · have hname : ∀ v : Token TokenKind, v.kind = t.kind →
        v.toLeaf.kind ∉ Piece.punctuations.map TokenKind.name := by
      rintro v hv hmem
      obtain ⟨kind, hpunctuation, heq⟩ := List.mem_map.mp hmem
      exact hmark (hv ▸ TokenKind.name_injective heq ▸ hpunctuation)
    rwa [if_neg (hname t rfl), if_neg (hname u hkind.symm)] at hlexeme

theorem Document.lexemes_eq_of_print {tokens others : Tokens}
    (h : ∀ t ∈ tokens, IsLexeme t.kind t.lexeme) (h' : ∀ t ∈ others, IsLexeme t.kind t.lexeme)
    (hprint : print tokens = print others) :
    tokens.map (fun t => (t.kind, t.lexeme)) = others.map fun t => (t.kind, t.lexeme) := by
  induction tokens generalizing others with
  | nil =>
      cases others with
      | nil => rfl
      | cons u more => cases hprint
  | cons t rest ih =>
      cases others with
      | nil => cases hprint
      | cons u more =>
          obtain ⟨hglyph, hrest⟩ := List.cons.inj hprint
          rw [List.forall_mem_cons] at h h'
          rw [List.map_cons, List.map_cons, Token.lexeme_eq_of_glyph h.1 h'.1 hglyph,
            ih h.2 h'.2 hrest]

end Rulebook
