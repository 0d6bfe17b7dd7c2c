import Rulebook.Proofs.Surface.Syntax

/-! # What a derivation begins with and what may follow it

A construct is told from what stands around it by the kind of the next token,
or of the next two where an item may have a label. The kinds that begin a
construct and the kinds that would prolong it keep the constructs apart.
-/

namespace Rulebook.Surface

open Document (Tokens nextKind beginsItem)

variable {rest : Tokens}

/-- The kinds of token that would prolong an item: a suffix, or an equals sign,
which makes a name a label. -/
def continuesItem : TokenKind → Bool
  | .question | .star | .plus | .equals => true
  | _ => false

/-- The kinds of token that begin an element of a group. -/
def beginsElement (kind : TokenKind) : Bool := kind = .bar || beginsItem kind

/-- Whether tokens begin with a label. -/
def beginsLabel : Tokens → Bool
  | t :: e :: _ => t.kind = .identifier && e.kind = .equals
  | _ => false

@[simp] theorem nextKind_cons (t : Token TokenKind) (more : Tokens) :
    nextKind (t :: more) = t.kind := rfl

@[simp] theorem nextKind_append {first : Tokens} (h : first ≠ []) (more : Tokens) :
    nextKind (first ++ more) = nextKind first := by
  cases first with
  | nil => exact absurd rfl h
  | cons t tokens => rfl

theorem continuesItem_of_beginsElement {kind : TokenKind} (h : beginsElement kind) :
    continuesItem kind = false := by
  cases kind <;> first | rfl | simp [beginsElement, beginsItem] at h

theorem beginsElement_of_beginsItem {kind : TokenKind} (h : beginsItem kind) :
    beginsElement kind := by
  simp [beginsElement, h]

/-! ## Beginnings -/

theorem Scalar.tokens_ne_nil (d : Scalar) : d.tokens ≠ [] := by
  cases d <;> simp [Scalar.tokens]

theorem Scalar.beginsItem (d : Scalar) : Document.beginsItem (nextKind d.tokens) := by
  cases d with
  | singleQuoted literal => rw [Scalar.tokens, nextKind_cons, literal.kind_eq]; rfl
  | doubleQuoted literal => rw [Scalar.tokens, nextKind_cons, literal.kind_eq]; rfl
  | name name => rw [Scalar.tokens, nextKind_cons, name.kind_eq]; rfl
  | group opening first more closing =>
      rw [Scalar.tokens, List.cons_append, nextKind_cons, opening.kind_eq]; rfl

theorem Item.tokens_ne_nil (d : Item) : d.tokens ≠ [] := by
  cases d with
  | mk label scalar suffix => simp [Item.tokens, scalar.tokens_ne_nil]

theorem Item.beginsItem (d : Item) : Document.beginsItem (nextKind d.tokens) := by
  cases d with
  | mk label scalar suffix =>
      cases label with
      | none =>
          rw [Item.tokens, labelTokens, List.nil_append, nextKind_append scalar.tokens_ne_nil]
          exact scalar.beginsItem
      | some label =>
          rw [Item.tokens, labelTokens]
          change Document.beginsItem label.name.token.kind
          rw [label.name.kind_eq]
          rfl

theorem Element.tokens_ne_nil (d : Element) : d.tokens ≠ [] := by
  cases d with
  | bar bar => simp [Element.tokens]
  | item item => simpa [Element.tokens] using item.tokens_ne_nil

theorem Element.beginsElement (d : Element) : Surface.beginsElement (nextKind d.tokens) := by
  cases d with
  | bar bar => rw [Element.tokens, nextKind_cons, bar.kind_eq]; rfl
  | item item => exact beginsElement_of_beginsItem item.beginsItem

theorem Terminal.nextKind_cons {kind : TokenKind} (t : Terminal kind) (r : Tokens) :
    nextKind (t.token :: r) = kind := t.kind_eq

theorem Rule.nextKind_tokens (d : Rule) (r : Tokens) : nextKind (d.tokens ++ r) = .identifier :=
  d.name.kind_eq

theorem OptionEntry.nextKind_tokens (d : OptionEntry) (r : Tokens) :
    nextKind (d.tokens ++ r) = .identifier := d.name.kind_eq

theorem Declaration.nextKind_tokens (d : Declaration) (r : Tokens) :
    nextKind (d.tokens ++ r) = .identifier := d.name.kind_eq

/-! ## What follows -/

theorem suffixTokens_none : suffixTokens none = [] := rfl

theorem Suffix.continuesItem (s : Suffix) : Surface.continuesItem s.token.kind := by
  cases s with
  | optional mark => rw [Suffix.token, mark.kind_eq]; rfl
  | many mark => rw [Suffix.token, mark.kind_eq]; rfl
  | many1 mark => rw [Suffix.token, mark.kind_eq]; rfl

theorem Suffix.kind_ne_equals (s : Suffix) : s.token.kind ≠ .equals := by
  cases s with
  | optional mark => rw [Suffix.token, mark.kind_eq]; decide
  | many mark => rw [Suffix.token, mark.kind_eq]; decide
  | many1 mark => rw [Suffix.token, mark.kind_eq]; decide

theorem nextKind_suffixTokens_ne_equals (s : Option Suffix)
    (h : continuesItem (nextKind rest) = false) :
    nextKind (suffixTokens s ++ rest) ≠ .equals := by
  cases s with
  | none =>
      intro heq
      change nextKind rest = .equals at heq
      rw [heq] at h
      cases h
  | some s => exact s.kind_ne_equals

/-- A scalar is not taken for a label, since no equals sign follows it. -/
theorem not_beginsLabel (d : Scalar) {after : Tokens} (h : nextKind after ≠ .equals) :
    beginsLabel (d.tokens ++ after) = false := by
  cases d with
  | singleQuoted literal => cases after <;> simp [Scalar.tokens, beginsLabel, literal.kind_eq]
  | doubleQuoted literal => cases after <;> simp [Scalar.tokens, beginsLabel, literal.kind_eq]
  | name name =>
      cases after with
      | nil => rfl
      | cons t more =>
          rw [nextKind_cons] at h
          simp [Scalar.tokens, beginsLabel, h]
  | group opening first more closing =>
      rw [Scalar.tokens, List.cons_append, List.cons_append]
      unfold beginsLabel
      split
      next t e rest heq =>
        obtain ⟨rfl, -⟩ := List.cons.inj heq
        simp [opening.kind_eq]
      next => rfl

/-- What follows an element of a group does not prolong it. -/
theorem nextKind_elementTokens (ds : List Element) (h : continuesItem (nextKind rest) = false) :
    continuesItem (nextKind (elementTokens ds ++ rest)) = false := by
  cases ds with
  | nil => exact h
  | cons d more =>
      rw [elementTokens, List.append_assoc, nextKind_append d.tokens_ne_nil]
      exact continuesItem_of_beginsElement d.beginsElement

/-- What follows an item of a sequence does not prolong it. -/
theorem nextKind_sequenceTokens (items : Sequence) (h : continuesItem (nextKind rest) = false) :
    continuesItem (nextKind (sequenceTokens items ++ rest)) = false := by
  cases items with
  | nil => exact h
  | cons d more =>
      rw [sequenceTokens, List.flatMap_cons, List.append_assoc, nextKind_append d.tokens_ne_nil]
      exact continuesItem_of_beginsElement (beginsElement_of_beginsItem d.beginsItem)

end Rulebook.Surface
