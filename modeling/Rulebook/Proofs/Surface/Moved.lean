import Rulebook.Proofs.Document.Moved
import Rulebook.Proofs.Lowering.Derivation
import Rulebook.Proofs.Surface.Unambiguity

/-! # Derivations in another place

A derivation is moved with its tokens: it derives the moved tokens, its tree is the
moved tree, and its value stays the same.
-/

namespace Rulebook.Surface

open Document (Tokens)

variable (f : Span → Span)

/-- The same terminal in another place. -/
def Terminal.moved {kind : TokenKind} (t : Terminal kind) : Terminal kind :=
  ⟨t.token.moved f, t.kind_eq⟩

/-- The same label in another place. -/
def Label.moved (l : Label) : Label := ⟨l.name.moved f, l.equals.moved f⟩

/-- The same suffix in another place. -/
def Suffix.moved : Suffix → Suffix
  | .optional mark => .optional (mark.moved f)
  | .many mark => .many (mark.moved f)
  | .many1 mark => .many1 (mark.moved f)

mutual

/-- The same item in another place. -/
def Item.moved : Item → Item
  | .mk label scalar suffix =>
      .mk (label.map (Label.moved f)) scalar.moved (suffix.map (Suffix.moved f))

/-- The same scalar in another place. -/
def Scalar.moved : Scalar → Scalar
  | .singleQuoted literal => .singleQuoted (literal.moved f)
  | .doubleQuoted literal => .doubleQuoted (literal.moved f)
  | .name name => .name (name.moved f)
  | .group opening first more closing =>
      .group (opening.moved f) first.moved (movedElements more) (closing.moved f)

/-- The same element in another place. -/
def Element.moved : Element → Element
  | .bar bar => .bar (bar.moved f)
  | .item item => .item item.moved

/-- The same elements in another place. -/
def movedElements : List Element → List Element
  | [] => []
  | element :: rest => element.moved :: movedElements rest

end

/-- The same alternative in another place. -/
def Alternative.moved (a : Alternative) : Alternative :=
  ⟨a.bar.moved f, a.sequence.map (Item.moved f)⟩

/-- The same rule in another place. -/
def Rule.moved (r : Rule) : Rule :=
  { name := r.name.moved f
    colon := r.colon.moved f
    lead := r.lead.map (Item.moved f)
    alternatives := r.alternatives.map (Alternative.moved f)
    semicolon := r.semicolon.moved f }

/-- The same value in another place. -/
def OptionValue.moved : OptionValue → OptionValue
  | .number t => .number (t.moved f)
  | .regex t => .regex (t.moved f)
  | .doubleQuoted t => .doubleQuoted (t.moved f)
  | .singleQuoted t => .singleQuoted (t.moved f)
  | .true word spelled => .true (word.moved f) spelled
  | .false word spelled => .false (word.moved f) spelled
  | .name word notTrue notFalse => .name (word.moved f) notTrue notFalse

/-- The same option in another place. -/
def OptionEntry.moved (o : OptionEntry) : OptionEntry :=
  ⟨o.name.moved f, o.colon.moved f, o.value.moved f⟩

/-- The same further option in another place. -/
def FurtherOption.moved (o : FurtherOption) : FurtherOption :=
  ⟨o.comma.moved f, o.entry.moved f⟩

/-- The same options in another place. -/
def OptionList.moved : OptionList → OptionList
  | .none => .none
  | .some first more trailing =>
      .some (first.moved f) (more.map (FurtherOption.moved f)) (trailing.map (Terminal.moved f))

/-- The same declaration in another place. -/
def Declaration.moved (d : Declaration) : Declaration :=
  { name := d.name.moved f
    colon := d.colon.moved f
    opening := d.opening.moved f
    options := d.options.moved f
    closing := d.closing.moved f }

/-- The same declaration and comma in another place. -/
def Declared.moved (d : Declared) : Declared :=
  ⟨d.declaration.moved f, d.comma.map (Terminal.moved f)⟩

/-- The same field in another place. -/
def Field.moved : Field → Field
  | .rules keyword spelled opening block closing =>
      .rules (keyword.moved f) spelled (opening.moved f) (block.map (Rule.moved f)) (closing.moved f)
  | .declarations name notRules opening declared closing =>
      .declarations (name.moved f) notRules (opening.moved f) (declared.map (Declared.moved f))
        (closing.moved f)
  | .setting name colon value => .setting (name.moved f) (colon.moved f) (value.moved f)

/-- The same derivation in another place. -/
def Derivation.moved (d : Derivation) : Derivation := d.map (Field.moved f)

/-! ## Tokens -/

@[simp] theorem Terminal.moved_token {kind : TokenKind} (t : Terminal kind) :
    (t.moved f).token = t.token.moved f := rfl

theorem optionalToken_moved {kind : TokenKind} (t : Option (Terminal kind)) :
    optionalToken (t.map (Terminal.moved f)) = (optionalToken t).map (Token.moved f) := by
  cases t <;> rfl

theorem labelTokens_moved (l : Option Label) :
    labelTokens (l.map (Label.moved f)) = (labelTokens l).map (Token.moved f) := by
  cases l <;> rfl

theorem suffixTokens_moved (s : Option Suffix) :
    suffixTokens (s.map (Suffix.moved f)) = (suffixTokens s).map (Token.moved f) := by
  cases s with
  | none => rfl
  | some s => cases s <;> rfl

/-- Constructs in a row are moved if each of them is. -/
theorem flatMap_moved {δ : Type} {tokens : δ → Tokens} {moved : δ → δ}
    (h : ∀ d, tokens (moved d) = (tokens d).map (Token.moved f)) (ds : List δ) :
    (ds.map moved).flatMap tokens = (ds.flatMap tokens).map (Token.moved f) := by
  simp only [List.flatMap_map, List.map_flatMap, h]

mutual

theorem Item.tokens_moved (d : Item) : (d.moved f).tokens = d.tokens.map (Token.moved f) := by
  cases d with
  | mk label scalar suffix =>
      simp only [Item.moved, Item.tokens, List.map_append, labelTokens_moved, suffixTokens_moved,
        scalar.tokens_moved]

theorem Scalar.tokens_moved (d : Scalar) : (d.moved f).tokens = d.tokens.map (Token.moved f) := by
  cases d with
  | group opening first more closing =>
      simp [Scalar.moved, Scalar.tokens, first.tokens_moved, elementTokens_moved more]
  | _ => simp [Scalar.moved, Scalar.tokens]

theorem Element.tokens_moved (d : Element) :
    (d.moved f).tokens = d.tokens.map (Token.moved f) := by
  cases d with
  | bar bar => rw [Element.moved, Element.tokens, Element.tokens]; rfl
  | item item => rw [Element.moved, Element.tokens, Element.tokens, item.tokens_moved]

theorem elementTokens_moved (ds : List Element) :
    elementTokens (movedElements f ds) = (elementTokens ds).map (Token.moved f) := by
  cases ds with
  | nil => rfl
  | cons d rest =>
      rw [movedElements, elementTokens, elementTokens, List.map_append, d.tokens_moved,
        elementTokens_moved rest]

end

theorem sequenceTokens_moved (items : Sequence) :
    sequenceTokens (items.map (Item.moved f)) = (sequenceTokens items).map (Token.moved f) :=
  flatMap_moved f (Item.tokens_moved f) items

theorem Alternative.tokens_moved (a : Alternative) :
    (a.moved f).tokens = a.tokens.map (Token.moved f) :=
  congrArg (_ :: ·) (sequenceTokens_moved f a.sequence)

theorem Rule.tokens_moved (r : Rule) : (r.moved f).tokens = r.tokens.map (Token.moved f) := by
  have halternatives := flatMap_moved f (Alternative.tokens_moved f) r.alternatives
  simp [Rule.tokens, Rule.moved, sequenceTokens_moved, halternatives]

theorem OptionValue.token_moved (v : OptionValue) : (v.moved f).token = v.token.moved f := by
  cases v <;> rfl

theorem OptionEntry.tokens_moved (o : OptionEntry) :
    (o.moved f).tokens = o.tokens.map (Token.moved f) := by
  simp [OptionEntry.tokens, OptionEntry.moved, OptionValue.token_moved]

theorem FurtherOption.tokens_moved (o : FurtherOption) :
    (o.moved f).tokens = o.tokens.map (Token.moved f) :=
  congrArg (_ :: ·) (o.entry.tokens_moved f)

theorem OptionList.tokens_moved (l : OptionList) :
    (l.moved f).tokens = l.tokens.map (Token.moved f) := by
  cases l with
  | none => rfl
  | some first more trailing =>
      have hmore := flatMap_moved f (FurtherOption.tokens_moved f) more
      simp only [OptionList.moved, OptionList.tokens, List.map_append, first.tokens_moved, hmore,
        optionalToken_moved]

theorem Declaration.tokens_moved (d : Declaration) :
    (d.moved f).tokens = d.tokens.map (Token.moved f) := by
  simp [Declaration.tokens, Declaration.moved, OptionList.tokens_moved]

theorem Declared.tokens_moved (d : Declared) : (d.moved f).tokens = d.tokens.map (Token.moved f) := by
  simp only [Declared.tokens, Declared.moved, List.map_append, Declaration.tokens_moved,
    optionalToken_moved]

theorem Field.tokens_moved (d : Field) : (d.moved f).tokens = d.tokens.map (Token.moved f) := by
  cases d with
  | rules keyword spelled opening block closing =>
      simp [Field.moved, Field.tokens, flatMap_moved f (Rule.tokens_moved f)]
  | declarations name notRules opening declared closing =>
      simp [Field.moved, Field.tokens, flatMap_moved f (Declared.tokens_moved f)]
  | setting name colon value => simp [Field.moved, Field.tokens, OptionValue.token_moved]

/-- A moved derivation derives the moved tokens. -/
theorem Derivation.tokens_moved (d : Derivation) :
    (d.moved f).tokens = d.tokens.map (Token.moved f) :=
  flatMap_moved f (Field.tokens_moved f) d

/-- The tree of a moved derivation is the moved tree, since that is how its tokens are
parsed. -/
theorem Derivation.tree_moved (d : Derivation) : (d.moved f).tree = d.tree.moved f := by
  have hparse := Document.ofTokens_moved f d.tokens
  rw [← d.tokens_moved, Document.ofTokens_complete, Document.ofTokens_complete] at hparse
  exact Except.ok.inj hparse

/-! ## Values -/

theorem marked_moved (label : Option Label) (suffix : Option Suffix) (v : Value) :
    marked (label.map (Label.moved f)) (suffix.map (Suffix.moved f)) v = marked label suffix v := by
  cases label with
  | none =>
      cases suffix with
      | none => rfl
      | some s => cases s <;> rfl
  | some l =>
      cases suffix with
      | none => rfl
      | some s => cases s <;> rfl

mutual

theorem Item.value_moved (d : Item) : (d.moved f).value = d.value := by
  cases d with
  | mk label scalar suffix =>
      rw [Item.moved, Item.value, Item.value, marked_moved, scalar.value_moved]

theorem Scalar.value_moved (d : Scalar) : (d.moved f).value = d.value := by
  cases d with
  | group opening first more closing =>
      rw [Scalar.moved, Scalar.value, Scalar.value, elementParts_moved more, first.before_moved]
  | _ => rw [Scalar.moved, Scalar.value, Scalar.value]; rfl

theorem Element.before_moved (d : Element) (parts : List (List Value)) :
    (d.moved f).before parts = d.before parts := by
  cases d with
  | bar bar => rw [Element.moved, Element.before, Element.before]
  | item item => rw [Element.moved, Element.before, Element.before, item.value_moved]

theorem elementParts_moved (ds : List Element) :
    elementParts (movedElements f ds) = elementParts ds := by
  cases ds with
  | nil => rfl
  | cons d rest =>
      rw [movedElements, elementParts, elementParts, elementParts_moved rest, d.before_moved]

end

theorem sequenceValues_moved (items : Sequence) :
    sequenceValues (items.map (Item.moved f)) = sequenceValues items := by
  simp only [sequenceValues, List.map_map, Function.comp_def, Item.value_moved]

theorem Rule.branches_moved (r : Rule) :
    (r.moved f).branches = r.branches.map (List.map (Item.moved f)) := by
  unfold Rule.branches
  rw [List.map_append]
  congr 1
  · simp only [Rule.moved, List.isEmpty_map]
    split <;> rfl
  · simp [Rule.moved, Function.comp_def, Alternative.moved]

theorem Rule.value_moved (r : Rule) : (r.moved f).value = r.value := by
  have hbody : (r.moved f).body = r.body := by
    unfold Rule.body
    rw [r.branches_moved]
    simp only [Rule.moved, List.isEmpty_map, sequenceValues_moved, List.map_map,
      Function.comp_def]
  rw [Rule.value, Rule.value, hbody]
  rfl

theorem OptionValue.value_moved (v : OptionValue) : (v.moved f).value = v.value := by
  cases v <;> rfl

theorem OptionList.entries_moved (l : OptionList) :
    (l.moved f).entries = l.entries.map (OptionEntry.moved f) := by
  cases l with
  | none => rfl
  | some first more trailing =>
      simp [OptionList.moved, OptionList.entries, FurtherOption.moved]

theorem Declaration.value_moved (d : Declaration) : (d.moved f).value = d.value := by
  have hput : ∀ (options : List (Value × Value)) (o : OptionEntry),
      putEntry options (o.moved f) = putEntry options o := by
    intro options o
    rw [putEntry, putEntry, OptionEntry.moved, OptionValue.value_moved]
    rfl
  rw [Declaration.value, Declaration.value, Declaration.moved, OptionList.entries_moved,
    List.foldl_map]
  simp only [hput]
  rfl

theorem Field.value_moved (d : Field) : (d.moved f).value = d.value := by
  cases d with
  | rules keyword spelled opening block closing =>
      simp [Field.moved, Field.value, Rule.value_moved]
  | declarations name notRules opening declared closing =>
      simp [Field.moved, Field.value, namedFieldValue, Declared.moved, Declaration.value_moved,
        Function.comp_def]
  | setting name colon value => rfl

/-- The value of a moved derivation is its value. -/
theorem Derivation.value_moved (d : Derivation) : (d.moved f).value = d.value := by
  simp only [Derivation.value, Derivation.moved, List.map_map, Function.comp_def,
    Field.value_moved]

/-- Derivations of tokens with the same kinds and lexemes have the same value. -/
theorem Derivation.value_eq_of_lexemes {d d' : Derivation}
    (h : d.tokens.map (fun t => (t.kind, t.lexeme)) =
      d'.tokens.map fun t => (t.kind, t.lexeme)) : d.value = d'.value := by
  have htokens : (d.moved fun _ => .nowhere).tokens = (d'.moved fun _ => .nowhere).tokens := by
    rw [d.tokens_moved, d'.tokens_moved, Token.map_moved_const, Token.map_moved_const, h]
  rw [← d.value_moved fun _ => .nowhere, Derivation.tokens_injective htokens, d'.value_moved]

end Rulebook.Surface
