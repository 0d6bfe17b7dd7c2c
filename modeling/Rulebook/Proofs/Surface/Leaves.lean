import Mathlib.Tactic
import Rulebook.Proofs.Surface.Acceptance
import Rulebook.Proofs.Surface.Blocks

/-! # The leaves of a tree are tokens of its text

A tree keeps tokens under roles, in the order in which its nodes use them. Read from left
to right these are the tokens of the text, but for those that only separate or enclose:
what is left out is known from the tokens alone.
-/

namespace Rulebook

open Document (Tokens nextKind)

namespace Tree

mutual

/-- The tokens of a tree from left to right: role by role in their order, and under each
role child by child. -/
def leaves : Tree → List Leaf
  | .leaf t => [t]
  | .node _ children => roleLeaves children
  | .plain _ => []

/-- The tokens of children role by role. -/
def roleLeaves : List (String × List Tree) → List Leaf
  | [] => []
  | (_, kids) :: rest => kidLeaves kids ++ roleLeaves rest

/-- The tokens of the children under one role. -/
def kidLeaves : List Tree → List Leaf
  | [] => []
  | t :: rest => t.leaves ++ kidLeaves rest

end

theorem kidLeaves_eq_flatMap (kids : List Tree) : kidLeaves kids = kids.flatMap leaves := by
  induction kids with
  | nil => rfl
  | cons t rest ih => rw [kidLeaves, ih, List.flatMap_cons]

end Tree

namespace Document

/-- Roles without children have no leaves. -/
theorem node_leaves (kind : NodeKind) (roles : Children) :
    (node kind roles).leaves = roles.flatMap fun entry => entry.2.flatMap Tree.leaves := by
  rw [node, Tree.leaves]
  induction roles with
  | nil => rfl
  | cons entry rest ih =>
      obtain ⟨role, kids⟩ := entry
      cases kids with
      | nil => exact ih
      | cons t kids =>
          rw [List.filter_cons_of_pos (by simp), Tree.roleLeaves, Tree.kidLeaves_eq_flatMap, ih]
          rfl

@[simp] theorem leaf_leaves (t : Token TokenKind) : (leaf t).leaves = [t.toLeaf] := rfl

end Document

/-! ## Tokens that a tree keeps -/

/-- The kinds of token that separate or enclose, and stand in no tree. -/
def TokenKind.isSilent : TokenKind → Bool
  | .endOfText | .colon | .comma | .semicolon | .equals => true
  | .openBrace | .closeBrace | .openParen | .closeParen => true
  | _ => false

/-- The number of open parentheses behind a token. -/
def depthBehind (depth : Nat) (t : Token TokenKind) : Nat :=
  match t.kind with
  | .openParen => depth + 1
  | .closeParen => depth - 1
  | _ => depth

/-- Whether a tree keeps a token that stands within some parentheses and in front of
other tokens. A bar is kept in parentheses only, and the word `rules` unless it opens a
block. -/
def isKept (depth : Nat) (t : Token TokenKind) (rest : Tokens) : Bool :=
  !t.kind.isSilent && !(t.kind = .bar && depth = 0) &&
    !(t.isRulesWord && nextKind rest = .openBrace)

/-- The tokens that a tree keeps. -/
def keptTokens (depth : Nat) : Tokens → Tokens
  | [] => []
  | t :: rest =>
      if isKept depth t rest then t :: keptTokens (depthBehind depth t) rest
      else keptTokens (depthBehind depth t) rest

/-- Of some tokens, in front of which no brace opens a block, just these leaves are
kept. -/
structure Keeps (depth : Nat) (tokens : Tokens) (leaves : List Leaf) : Prop where
  stops : nextKind tokens ≠ .openBrace
  kept : ∀ rest, nextKind rest ≠ .openBrace →
    (keptTokens depth (tokens ++ rest)).map Token.toLeaf =
      leaves ++ (keptTokens depth rest).map Token.toLeaf

namespace Keeps

variable {depth : Nat} {t : Token TokenKind} {tokens more : Tokens} {leaves others : List Leaf}

theorem stops_append (h : Keeps depth tokens leaves) (hmore : nextKind more ≠ .openBrace) :
    nextKind (tokens ++ more) ≠ .openBrace := by
  cases tokens with
  | nil => exact hmore
  | cons t rest => exact h.stops

theorem nil : Keeps depth [] [] := ⟨by decide, fun _ _ => rfl⟩

theorem append (h : Keeps depth tokens leaves) (hmore : Keeps depth more others) :
    Keeps depth (tokens ++ more) (leaves ++ others) := by
  refine ⟨h.stops_append hmore.stops, fun rest hrest => ?_⟩
  rw [List.append_assoc, h.kept _ (hmore.stops_append hrest), hmore.kept _ hrest,
    List.append_assoc]

theorem flatMap {δ : Type} {tokensOf : δ → Tokens} {leavesOf : δ → List Leaf} {ds : List δ}
    (h : ∀ d ∈ ds, Keeps depth (tokensOf d) (leavesOf d)) :
    Keeps depth (ds.flatMap tokensOf) (ds.flatMap leavesOf) := by
  induction ds with
  | nil => exact nil
  | cons d rest ih =>
      obtain ⟨hd, hrest⟩ := List.forall_mem_cons.mp h
      exact hd.append (ih hrest)

/-- A token that is not silent is kept, in front of no brace and unless it is a bar
outside of parentheses. -/
theorem token (hsilent : t.kind.isSilent = false) (hbar : t.kind = .bar → depth ≠ 0) :
    Keeps depth [t] [t.toLeaf] := by
  have hstops : t.kind ≠ .openBrace := by
    intro heq
    rw [heq] at hsilent
    cases hsilent
  have hdepth : depthBehind depth t = depth := by
    unfold depthBehind
    split
    · next heq => rw [heq] at hsilent; cases hsilent
    · next heq => rw [heq] at hsilent; cases hsilent
    · rfl
  refine ⟨hstops, fun rest hrest => ?_⟩
  have hkept : isKept depth t rest := by
    simpa [isKept, hsilent, hrest, Decidable.imp_iff_not_or] using hbar
  rw [List.singleton_append, keptTokens, if_pos hkept, hdepth]
  rfl

/-- A token that only separates is not kept. -/
theorem separator
    (h : t.kind ∈ [TokenKind.colon, .comma, .semicolon, .equals, .closeBrace, .endOfText]) :
    Keeps depth [t] [] := by
  simp only [List.mem_cons, List.not_mem_nil, or_false] at h
  refine ⟨by rcases h with h | h | h | h | h | h <;> simp [h], fun rest _ => ?_⟩
  rcases h with h | h | h | h | h | h <;>
    simp [keptTokens, isKept, depthBehind, TokenKind.isSilent, h]

/-- A bar outside of parentheses is not kept. -/
theorem outerBar (h : t.kind = .bar) : Keeps 0 [t] [] := by
  refine ⟨by simp [h], fun rest _ => ?_⟩
  simp [keptTokens, isKept, depthBehind, h]

/-- Parentheses are not kept, and what stands in them is one level deeper. -/
theorem parentheses {u : Token TokenKind} (ht : t.kind = .openParen) (hu : u.kind = .closeParen)
    (h : Keeps (depth + 1) tokens leaves) : Keeps depth (t :: (tokens ++ [u])) leaves := by
  refine ⟨by simp [ht], fun rest _ => ?_⟩
  have hinside := h.kept (u :: rest) (by simp [hu])
  have hclose : keptTokens (depth + 1) (u :: rest) = keptTokens depth rest := by
    simp [keptTokens, isKept, depthBehind, TokenKind.isSilent, hu]
  rw [hclose] at hinside
  rw [← hinside]
  simp [keptTokens, isKept, depthBehind, TokenKind.isSilent, ht]

/-- A brace is not kept, and in front of it stands a name, the word `rules`, or a colon. -/
theorem brace {u : Token TokenKind} (ht : t.kind = .identifier ∨ t.kind = .colon)
    (hu : u.kind = .openBrace) (h : Keeps depth tokens leaves) :
    Keeps depth (t :: u :: tokens) ((if isKept depth t [u] then [t.toLeaf] else []) ++ leaves) := by
  refine ⟨by rcases ht with ht | ht <;> simp [ht], fun rest hrest => ?_⟩
  have hinside := h.kept rest hrest
  have hopen : keptTokens depth (u :: (tokens ++ rest)) = keptTokens depth (tokens ++ rest) := by
    simp [keptTokens, isKept, depthBehind, TokenKind.isSilent, hu]
  have hdepth : depthBehind depth t = depth := by
    rcases ht with ht | ht <;> simp [depthBehind, ht]
  have hkept : isKept depth t (u :: (tokens ++ rest)) = isKept depth t [u] := rfl
  rw [List.cons_append, List.cons_append, keptTokens, hdepth, hopen, hkept, List.append_assoc,
    ← hinside]
  split <;> rfl

end Keeps

namespace Surface

open Document (node leaf)

variable (depth : Nat)

/-! ## Bodies of rules -/

theorem Terminal.keeps {kind : TokenKind} (t : Terminal kind) (hsilent : kind.isSilent = Bool.false)
    (hbar : kind = .bar → depth ≠ 0) : Keeps depth [t.token] [t.token.toLeaf] :=
  .token (by rwa [t.kind_eq]) (by rwa [t.kind_eq])

theorem Terminal.keeps_nil {kind : TokenKind} (t : Terminal kind)
    (h : kind ∈ [TokenKind.colon, .comma, .semicolon, .equals, .closeBrace, .endOfText]) :
    Keeps depth [t.token] [] :=
  .separator (by rwa [t.kind_eq])

theorem keeps_label (label : Option Label) :
    Keeps depth (labelTokens label) ((labelTrees label).flatMap Tree.leaves) := by
  cases label with
  | none => exact .nil
  | some label =>
      exact (label.name.keeps depth rfl (by simp)).append (label.equals.keeps_nil depth (by decide))

theorem keeps_suffix (suffix : Option Suffix) : Keeps depth (suffixTokens suffix)
    ((suffixRoles suffix).flatMap fun entry => entry.2.flatMap Tree.leaves) := by
  cases suffix with
  | none => exact .nil
  | some s =>
      cases s with
      | optional mark => exact mark.keeps depth rfl (by simp)
      | many mark => exact mark.keeps depth rfl (by simp)
      | many1 mark => exact mark.keeps depth rfl (by simp)

mutual

theorem Item.keeps (depth : Nat) (d : Item) : Keeps depth d.tokens d.tree.leaves := by
  cases d with
  | mk label scalar suffix =>
      have hitem := ((keeps_label depth label).append (scalar.keeps depth)).append
        (keeps_suffix depth suffix)
      rw [Item.tokens, Item.tree, Document.node_leaves]
      simpa using hitem

theorem Scalar.keeps (depth : Nat) (d : Scalar) : Keeps depth d.tokens d.tree.leaves := by
  cases d with
  | singleQuoted literal =>
      rw [Scalar.tokens, Scalar.tree, Document.node_leaves]
      exact literal.keeps depth rfl (by simp)
  | doubleQuoted literal =>
      rw [Scalar.tokens, Scalar.tree, Document.node_leaves]
      exact literal.keeps depth rfl (by simp)
  | name name =>
      rw [Scalar.tokens, Scalar.tree, Document.node_leaves]
      exact name.keeps depth rfl (by simp)
  | group opening first more closing =>
      have hinside := (first.keeps (depth + 1) (Nat.succ_ne_zero depth)).append
        (keeps_elements (depth + 1) (Nat.succ_ne_zero depth) more)
      rw [Scalar.tokens, Scalar.tree]
      simpa [Document.node_leaves] using hinside.parentheses opening.kind_eq closing.kind_eq

theorem Element.keeps (depth : Nat) (hdepth : depth ≠ 0) (d : Element) :
    Keeps depth d.tokens d.tree.leaves := by
  cases d with
  | bar bar =>
      rw [Element.tokens, Element.tree]
      exact bar.keeps depth rfl fun _ => hdepth
  | item item =>
      rw [Element.tokens, Element.tree]
      exact item.keeps depth

theorem keeps_elements (depth : Nat) (hdepth : depth ≠ 0) (ds : List Element) :
    Keeps depth (elementTokens ds) ((elementTrees ds).flatMap Tree.leaves) := by
  cases ds with
  | nil => exact .nil
  | cons d rest =>
      rw [elementTokens, elementTrees, List.flatMap_cons]
      exact (d.keeps depth hdepth).append (keeps_elements depth hdepth rest)

end

theorem keeps_sequence (items : Sequence) :
    Keeps 0 (sequenceTokens items) (sequenceTree items).leaves := by
  have hitems : Keeps 0 (sequenceTokens items) (items.flatMap fun item => item.tree.leaves) :=
    .flatMap fun item _ => item.keeps 0
  rw [sequenceTree, Document.node_leaves]
  simpa [expressionTrees, List.flatMap_map, Document.node_leaves] using hitems

theorem branchTree_leaves (items : Sequence) :
    (branchTree items).leaves = (sequenceTree items).leaves := by
  simp [branchTree, Document.node_leaves]

theorem Rule.bodyTrees_leaves (r : Rule) : r.bodyTrees.flatMap Tree.leaves =
    (sequenceTree r.lead).leaves ++
      r.alternatives.flatMap fun a => (sequenceTree a.sequence).leaves := by
  unfold Rule.bodyTrees Rule.branches
  cases r.alternatives with
  | nil => simp
  | cons a more =>
      cases r.lead with
      | nil =>
          simp [List.flatMap_map, branchTree_leaves, sequenceTree, expressionTrees,
            Document.node_leaves]
      | cons item items => simp [List.flatMap_map, branchTree_leaves]

theorem Alternative.keeps (a : Alternative) : Keeps 0 a.tokens (sequenceTree a.sequence).leaves :=
  (Keeps.outerBar a.bar.kind_eq).append (keeps_sequence a.sequence)

theorem Rule.keeps (r : Rule) : Keeps 0 r.tokens r.tree.leaves := by
  have hbody := (keeps_sequence r.lead).append
    (.flatMap fun (a : Alternative) (_ : a ∈ r.alternatives) => a.keeps)
  have hrule := ((r.name.keeps 0 rfl (by simp)).append
    (r.colon.keeps_nil 0 (by decide))).append (hbody.append (r.semicolon.keeps_nil 0 (by decide)))
  rw [Rule.tree, Document.node_leaves, Rule.tokens]
  simpa [r.bodyTrees_leaves] using hrule

/-! ## Declarations -/

theorem keeps_optionalComma (comma : Option (Terminal .comma)) :
    Keeps 0 (optionalToken comma) [] := by
  cases comma with
  | none => exact .nil
  | some comma => exact comma.keeps_nil 0 (by decide)

theorem OptionValue.keeps (v : OptionValue) : Keeps 0 [v.token] v.tree.leaves := by
  rw [OptionValue.tree, Document.node_leaves]
  cases v <;> exact Terminal.keeps 0 _ rfl (by simp)

theorem OptionEntry.keeps (o : OptionEntry) : Keeps 0 o.tokens o.tree.leaves := by
  have hentry := ((o.name.keeps 0 rfl (by simp)).append
    (o.colon.keeps_nil 0 (by decide))).append o.value.keeps
  rw [OptionEntry.tree, Document.node_leaves]
  simpa [OptionEntry.tokens] using hentry

theorem FurtherOption.keeps (o : FurtherOption) : Keeps 0 o.tokens o.entry.tree.leaves :=
  (o.comma.keeps_nil 0 (by decide)).append o.entry.keeps

theorem OptionList.keeps (l : OptionList) :
    Keeps 0 l.tokens (l.entries.flatMap fun o => o.tree.leaves) := by
  cases l with
  | none => exact .nil
  | some first more trailing =>
      have hall := first.keeps.append
        ((Keeps.flatMap fun (o : FurtherOption) (_ : o ∈ more) => o.keeps).append
          (keeps_optionalComma trailing))
      simpa [OptionList.tokens, OptionList.entries, List.flatMap_map] using hall

theorem Declared.keeps (d : Declared) : Keeps 0 d.tokens d.declaration.tree.leaves := by
  obtain ⟨⟨name, colon, opening, options, closing⟩, comma⟩ := d
  have hoptions := options.keeps.append (closing.keeps_nil 0 (by decide))
  have hbraces := hoptions.brace (.inr colon.kind_eq) opening.kind_eq
  have hall := ((name.keeps 0 rfl (by simp)).append hbraces).append (keeps_optionalComma comma)
  have hcolon : isKept 0 colon.token [opening.token] = Bool.false := by
    simp [isKept, colon.kind_eq, TokenKind.isSilent]
  rw [hcolon] at hall
  simpa [Declared.tokens, Declaration.tokens, Declaration.tree, Document.node_leaves,
    List.flatMap_map] using hall

/-! ## Documents -/

theorem Field.keeps (f : Field) : Keeps 0 f.tokens f.tree.leaves := by
  cases f with
  | rules keyword spelled opening block closing =>
      have hblock := (Keeps.flatMap fun (r : Rule) (_ : r ∈ block) => r.keeps).append
        (closing.keeps_nil 0 (by decide))
      have hbraces := hblock.brace (.inl keyword.kind_eq) opening.kind_eq
      have hkeyword : isKept 0 keyword.token [opening.token] = Bool.false := by
        simp [isKept, Token.isRulesWord, keyword.kind_eq, opening.kind_eq, spelled]
      rw [hkeyword] at hbraces
      simpa [Field.tokens, Field.tree, Document.node_leaves, List.flatMap_map] using hbraces
  | declarations name notRules opening declared closing =>
      have hinside := (Keeps.flatMap fun (d : Declared) (_ : d ∈ declared) => d.keeps).append
        (closing.keeps_nil 0 (by decide))
      have hbraces := hinside.brace (.inl name.kind_eq) opening.kind_eq
      have hname : isKept 0 name.token [opening.token] = Bool.true := by
        simp [isKept, Token.isRulesWord, name.kind_eq, TokenKind.isSilent, notRules]
      rw [hname] at hbraces
      simpa [Field.tokens, Field.tree, Document.node_leaves, List.flatMap_map] using hbraces
  | setting name colon value =>
      have hsetting := ((name.keeps 0 rfl (by simp)).append
        (colon.keeps_nil 0 (by decide))).append value.keeps
      simpa [Field.tokens, Field.tree, Document.node_leaves] using hsetting

/-- The leaves of the tree of a derivation are the tokens that it keeps. -/
theorem Derivation.leaves_tree (d : Derivation) (last : Token TokenKind)
    (hlast : last.kind = .endOfText) :
    d.tree.leaves = (keptTokens 0 (d.tokens ++ [last])).map Token.toLeaf := by
  have hfields : Keeps 0 d.tokens (d.flatMap fun f => f.tree.leaves) :=
    .flatMap fun f _ => f.keeps
  have hall := hfields.append (.separator (t := last) (by simp [hlast]))
  have hkept := hall.kept [] (by decide)
  rw [Derivation.tree, Document.node_leaves]
  simpa [List.flatMap_map, keptTokens] using hkept.symm

end Surface

/-- The leaves of the tree of a text from left to right are the tokens of the text in
their order, but for those that separate or enclose, bars outside of parentheses, and the
words that open blocks of rules. -/
theorem Document.leaves_of_parse {text : String} {t : Tree} (h : parse text = .ok t) :
    ∃ scan, Scan.ofChars text.toList = .ok scan ∧
      t.leaves = (keptTokens 0 scan.all).map Token.toLeaf := by
  obtain ⟨scan, d, hscan, htokens, rfl⟩ := Surface.exists_derivation_of_parse h
  refine ⟨scan, hscan, ?_⟩
  rw [d.leaves_tree scan.endToken rfl, htokens, Scan.all]

/-- The word `rules` as a value and in front of a brace, bars outside and inside of
parentheses, and a comma. -/
theorem Document.leaves_nestedBars :
    ∃ t, parse "k: rules rules \x7b r: | x=(a | b)+; \x7d t \x7b n: \x7b o: 1, \x7d \x7d" = .ok t ∧
      t.leaves.map (fun leaf => (leaf.lexeme, leaf.start)) =
        [("k", 0), ("rules", 3), ("r", 17), ("x", 22), ("a", 25), ("|", 27), ("b", 29), ("+", 31),
         ("t", 36), ("n", 40), ("o", 45), ("1", 48)] := by
  obtain ⟨t, ht⟩ := exists_of_isOk
    (show (parse "k: rules rules \x7b r: | x=(a | b)+; \x7d t \x7b n: \x7b o: 1, \x7d \x7d").isOk by
      cbv)
  have hkept : (Scan.ofChars
      "k: rules rules \x7b r: | x=(a | b)+; \x7d t \x7b n: \x7b o: 1, \x7d \x7d".toList).map
        (fun scan => ((keptTokens 0 scan.all).map Token.toLeaf).map fun leaf =>
          (leaf.lexeme, leaf.start)) =
      .ok [("k", 0), ("rules", 3), ("r", 17), ("x", 22), ("a", 25), ("|", 27), ("b", 29), ("+", 31),
         ("t", 36), ("n", 40), ("o", 45), ("1", 48)] := by
    cbv
  obtain ⟨scan, hscan, hleaves⟩ := leaves_of_parse ht
  obtain ⟨scan', hscan', hlist⟩ := exists_of_map_eq_ok hkept
  obtain rfl := Except.ok.inj (hscan.symm.trans hscan')
  exact ⟨t, ht, by rw [hleaves, hlist]⟩

end Rulebook
