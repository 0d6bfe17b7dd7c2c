import Rulebook.Proofs.Reading
import Rulebook.Proofs.Tree.Moved

/-! # Parsing does not depend on places

A step over moved tokens does what it does over the tokens in their old place: it reads
the moved tree and leaves the moved rest, or it finds the same fault with the moved
tokens left.
-/

namespace Rulebook.Document

/-- The second step does over moved tokens what the first one does. -/
inductive MovesWith {α : Type} {bound limit : Nat} (f : Span → Span) (g : α → α) :
    Step α bound → Step α limit → Prop
  | read (value : α) (rest : Tokens) (short : rest.length < bound)
      (short' : (rest.map (Token.moved f)).length < limit) :
      MovesWith f g (.ok ⟨value, rest, short⟩) (.ok ⟨g value, rest.map (Token.moved f), short'⟩)
  | stuck (fault : SyntaxFault) (left : Tokens) :
      MovesWith f g (.error ⟨fault, left⟩) (.error ⟨fault, left.map (Token.moved f)⟩)

namespace MovesWith

variable {α β : Type} {bound limit bound' limit' : Nat} {f : Span → Span} {g : α → α} {k : β → β}

theorem of_eq {value value' : α} {rest rest' : Tokens} {short : rest.length < bound}
    {short' : rest'.length < limit} (hvalue : value' = g value)
    (hrest : rest' = rest.map (Token.moved f)) :
    MovesWith f g (.ok ⟨value, rest, short⟩ : Step α bound)
      (.ok ⟨value', rest', short'⟩ : Step α limit) := by
  subst hvalue
  subst hrest
  exact .read value rest short short'

/-- Two steps in sequence do the same over moved tokens if both do. -/
theorem bind {first : Step α bound} {first' : Step α limit}
    {second : Reading (Token TokenKind) α bound → Step β bound'}
    {second' : Reading (Token TokenKind) α limit → Step β limit'}
    (hfirst : MovesWith f g first first')
    (hsecond : ∀ value rest rest' short short', rest' = rest.map (Token.moved f) →
      MovesWith f k (second ⟨value, rest, short⟩) (second' ⟨g value, rest', short'⟩)) :
    MovesWith f k (first >>= second) (first' >>= second') := by
  cases hfirst with
  | read value rest short short' => exact hsecond value rest _ short short' rfl
  | stuck fault left => exact .stuck fault left

end MovesWith

variable (f : Span → Span) (tokens : Tokens)

@[simp] theorem nextKind_moved : nextKind (tokens.map (Token.moved f)) = nextKind tokens := by
  cases tokens <;> rfl

theorem skip_moved (kind : TokenKind) :
    skip kind (tokens.map (Token.moved f)) = (skip kind tokens).map (Token.moved f) := by
  cases tokens with
  | nil => rfl
  | cons t rest =>
      by_cases h : t.kind = kind
      · simp [skip, h]
      · simp [skip, h]

theorem take_moved (kind : TokenKind) :
    MovesWith f (Token.moved f) (take kind tokens) (take kind (tokens.map (Token.moved f))) := by
  cases tokens with
  | nil => exact .stuck _ []
  | cons t rest =>
      change MovesWith f _ (take kind (t :: rest))
        (take kind (t.moved f :: rest.map (Token.moved f)))
      by_cases h : t.kind = kind
      · simp only [take, Token.moved_kind, h, if_true]
        exact .read t rest _ _
      · simp only [take, Token.moved_kind, h, if_false]
        exact .stuck _ (t :: rest)

/-! ## Options and declarations -/

theorem valueRole?_moved (t : Token TokenKind) : valueRole? (t.moved f) = valueRole? t := rfl

theorem optionValue_moved :
    MovesWith f (Tree.moved f) (optionValue tokens) (optionValue (tokens.map (Token.moved f))) := by
  cases tokens with
  | nil => exact .stuck _ []
  | cons t rest =>
      change MovesWith f _ (optionValue (t :: rest))
        (optionValue (t.moved f :: rest.map (Token.moved f)))
      simp only [optionValue, valueRole?_moved]
      cases valueRole? t with
      | none => exact .stuck _ (t :: rest)
      | some role => exact .of_eq (by simp) rfl

theorem option_moved :
    MovesWith f (Tree.moved f) (option tokens) (option (tokens.map (Token.moved f))) := by
  refine (take_moved f tokens _).bind ?_
  rintro name afterName _ _ _ rfl
  refine (take_moved f afterName _).bind ?_
  rintro _ afterColon _ _ _ rfl
  refine (optionValue_moved f afterColon).bind ?_
  rintro value rest _ _ _ rfl
  exact .of_eq (by simp) rfl

theorem options_moved (tokens : Tokens) : MovesWith f (List.map (Tree.moved f)) (options tokens)
    (options (tokens.map (Token.moved f))) := by
  rw [options, options, nextKind_moved]
  split
  · exact .of_eq rfl rfl
  · refine (option_moved f tokens).bind fun first middle middle' hshort _ hmiddle => ?_
    cases middle with
    | nil =>
        subst hmiddle
        exact .of_eq rfl rfl
    | cons t rest =>
        obtain rfl : middle' = t.moved f :: rest.map (Token.moved f) := hmiddle
        by_cases hcomma : t.kind = .comma
        · simp only [Token.moved_kind, hcomma, if_true]
          refine (options_moved rest).bind ?_
          rintro more after _ _ _ rfl
          exact .of_eq rfl rfl
        · simp only [Token.moved_kind, hcomma, if_false]
          exact .of_eq rfl rfl
termination_by tokens.length
decreasing_by
  simp only [List.length_cons] at hshort
  omega

theorem token_moved :
    MovesWith f (Tree.moved f) (token tokens) (token (tokens.map (Token.moved f))) := by
  refine (take_moved f tokens _).bind ?_
  rintro name afterName _ _ _ rfl
  refine (take_moved f afterName _).bind ?_
  rintro _ afterColon _ _ _ rfl
  refine (take_moved f afterColon _).bind ?_
  rintro _ inside _ _ _ rfl
  refine (options_moved f inside).bind ?_
  rintro entries closing _ _ _ rfl
  refine (take_moved f closing _).bind ?_
  rintro _ rest _ _ _ rfl
  exact .of_eq (by simp) rfl

theorem tokenList_moved (tokens : Tokens) : MovesWith f (List.map (Tree.moved f))
    (tokenList tokens) (tokenList (tokens.map (Token.moved f))) := by
  rw [tokenList, tokenList, nextKind_moved]
  split
  · exact .of_eq rfl rfl
  · refine (token_moved f tokens).bind ?_
    rintro first middle _ hshort _ rfl
    have hmore := tokenList_moved (skip .comma middle)
    rw [← skip_moved] at hmore
    refine hmore.bind ?_
    rintro more rest _ _ _ rfl
    exact .of_eq rfl rfl
termination_by tokens.length
decreasing_by
  have := length_skip_le .comma middle
  omega

/-! ## Bodies of rules -/

theorem label_moved :
    (label (tokens.map (Token.moved f))).value = (label tokens).value.map (Tree.moved f) ∧
      (label (tokens.map (Token.moved f))).rest = (label tokens).rest.map (Token.moved f) := by
  match tokens with
  | [] => exact ⟨rfl, rfl⟩
  | [t] => exact ⟨rfl, rfl⟩
  | t :: e :: rest =>
      change (label (t.moved f :: e.moved f :: rest.map (Token.moved f))).value = _ ∧
        (label (t.moved f :: e.moved f :: rest.map (Token.moved f))).rest = _
      by_cases h : t.kind = .identifier ∧ e.kind = .equals
      · simp [label, h]
      · simp [label, h]

theorem suffix_moved :
    (suffix (tokens.map (Token.moved f))).value =
        (suffix tokens).value.map (fun entry => (entry.1, entry.2.map (Tree.moved f))) ∧
      (suffix (tokens.map (Token.moved f))).rest = (suffix tokens).rest.map (Token.moved f) := by
  cases tokens with
  | nil => exact ⟨rfl, rfl⟩
  | cons t rest =>
      change (suffix (t.moved f :: rest.map (Token.moved f))).value = _ ∧
        (suffix (t.moved f :: rest.map (Token.moved f))).rest = _
      cases hrole : suffixRole? t.kind with
      | none => simp [suffix, hrole]
      | some role => simp [suffix, hrole]

-- The recursion is that of the parser, as it is where parsed tokens are derived.
mutual

theorem item_moved (tokens : Tokens) :
    MovesWith f (Tree.moved f) (item tokens) (item (tokens.map (Token.moved f))) := by
  have hscalar := scalar_moved (label tokens).rest
  rw [← (label_moved f tokens).2] at hscalar
  rw [item, item]
  refine hscalar.bind ?_
  rintro value middle _ _ _ rfl
  refine .of_eq ?_ (suffix_moved f middle).2
  simp [(label_moved f tokens).1, (suffix_moved f middle).1]
termination_by (tokens.length, 1)
decreasing_by
  have := (label tokens).short
  rcases Nat.lt_or_eq_of_le (Nat.le_of_lt_succ this) with hlt | heq
  · exact Prod.Lex.left _ _ hlt
  · rw [heq]
    exact Prod.Lex.right _ Nat.zero_lt_one

theorem scalar_moved (tokens : Tokens) :
    MovesWith f (Tree.moved f) (scalar tokens) (scalar (tokens.map (Token.moved f))) := by
  cases tokens with
  | nil =>
      rw [scalar, List.map_nil, scalar]
      exact .stuck _ []
  | cons t rest =>
      change MovesWith f _ (scalar (t :: rest)) (scalar (t.moved f :: rest.map (Token.moved f)))
      rw [scalar, scalar, Token.moved_kind]
      split
      · exact .of_eq (by simp) rfl
      · exact .of_eq (by simp) rfl
      · exact .of_eq (by simp) rfl
      · refine (elements_moved rest).bind ?_
        rintro inside middle _ _ _ rfl
        cases inside with
        | nil => exact .stuck _ (t :: rest)
        | cons first more =>
            refine (take_moved f middle _).bind ?_
            rintro _ after _ _ _ rfl
            exact .of_eq (by simp) rfl
      · exact .stuck _ (t :: rest)
termination_by (tokens.length, 0)

theorem elements_moved (tokens : Tokens) : MovesWith f (List.map (Tree.moved f))
    (elements tokens) (elements (tokens.map (Token.moved f))) := by
  cases tokens with
  | nil =>
      rw [elements, List.map_nil, elements]
      exact .of_eq rfl rfl
  | cons t rest =>
      have hitem := item_moved (t :: rest)
      rw [List.map_cons] at hitem
      change MovesWith f _ (elements (t :: rest)) (elements (t.moved f :: rest.map (Token.moved f)))
      rw [elements, elements, Token.moved_kind]
      split
      · refine (elements_moved rest).bind ?_
        rintro more after _ _ _ rfl
        exact .of_eq rfl rfl
      · split
        · refine hitem.bind ?_
          rintro first middle _ hshort _ rfl
          refine (elements_moved middle).bind ?_
          rintro more after _ _ _ rfl
          exact .of_eq rfl rfl
        · exact .of_eq rfl rfl
termination_by (tokens.length, 2)

end

theorem expressions_moved (tokens : Tokens) : MovesWith f (List.map (Tree.moved f))
    (expressions tokens) (expressions (tokens.map (Token.moved f))) := by
  rw [expressions, expressions, nextKind_moved]
  split
  · refine (item_moved f tokens).bind ?_
    rintro first middle _ hshort _ rfl
    refine (expressions_moved middle).bind ?_
    rintro more rest _ _ _ rfl
    exact .of_eq (by simp) rfl
  · exact .of_eq rfl rfl
termination_by tokens.length

theorem sequence_moved :
    MovesWith f (Tree.moved f) (sequence tokens) (sequence (tokens.map (Token.moved f))) := by
  refine (expressions_moved f tokens).bind ?_
  rintro items rest _ _ _ rfl
  exact .of_eq (by simp) rfl

theorem branches_moved (tokens : Tokens) : MovesWith f (List.map (Tree.moved f))
    (branches tokens) (branches (tokens.map (Token.moved f))) := by
  cases tokens with
  | nil =>
      rw [branches, List.map_nil, branches]
      exact .of_eq rfl rfl
  | cons t rest =>
      change MovesWith f _ (branches (t :: rest)) (branches (t.moved f :: rest.map (Token.moved f)))
      rw [branches, branches, Token.moved_kind]
      split
      · refine (sequence_moved f rest).bind ?_
        rintro first middle _ hshort _ rfl
        refine (branches_moved middle).bind ?_
        rintro more after _ _ _ rfl
        exact .of_eq (by simp [branch]) rfl
      · exact .of_eq rfl rfl
termination_by tokens.length

theorem hasItems_moved (sequence : Tree) : hasItems (sequence.moved f) = hasItems sequence := by
  cases sequence with
  | node kind children => cases children <;> rfl
  | leaf t => rfl
  | plain data => rfl

theorem leading_moved (sequence : Tree) (rest : Tokens) :
    leading (sequence.moved f) (rest.map (Token.moved f)) =
      (leading sequence rest).map (Tree.moved f) := by
  unfold leading
  rw [nextKind_moved, hasItems_moved]
  split
  · rfl
  · split
    · simp [branch]
    · rfl

theorem rule_moved :
    MovesWith f (Tree.moved f) (rule tokens) (rule (tokens.map (Token.moved f))) := by
  refine (take_moved f tokens _).bind ?_
  rintro name afterName _ _ _ rfl
  refine (take_moved f afterName _).bind ?_
  rintro _ afterColon _ _ _ rfl
  refine (sequence_moved f afterColon).bind ?_
  rintro first middle _ _ _ rfl
  refine (branches_moved f middle).bind fun more last last' _ _ hlast => ?_
  cases last with
  | nil =>
      subst hlast
      exact .stuck _ []
  | cons t rest =>
      obtain rfl : last' = t.moved f :: rest.map (Token.moved f) := hlast
      by_cases hsemicolon : t.kind = .semicolon
      · simp only [Token.moved_kind, hsemicolon, if_true]
        exact .of_eq (by simp [leading_moved]) rfl
      · simp only [Token.moved_kind, hsemicolon, if_false]
        exact .stuck _ (t :: rest)

/-! ## Fields -/

theorem ruleList_moved (tokens : Tokens) : MovesWith f (List.map (Tree.moved f))
    (ruleList tokens) (ruleList (tokens.map (Token.moved f))) := by
  rw [ruleList, ruleList, nextKind_moved]
  split
  · exact .of_eq rfl rfl
  · refine (rule_moved f tokens).bind ?_
    rintro first middle _ hshort _ rfl
    refine (ruleList_moved middle).bind ?_
    rintro more rest _ _ _ rfl
    exact .of_eq rfl rfl
termination_by tokens.length

theorem rules_moved :
    MovesWith f (Tree.moved f) (rules tokens) (rules (tokens.map (Token.moved f))) := by
  refine (take_moved f tokens _).bind ?_
  rintro _ inside _ _ _ rfl
  refine (ruleList_moved f inside).bind ?_
  rintro block closing _ _ _ rfl
  refine (take_moved f closing _).bind ?_
  rintro _ rest _ _ _ rfl
  exact .of_eq (by simp) rfl

theorem fieldBody_moved (name : Token TokenKind) : MovesWith f (Tree.moved f)
    (fieldBody name tokens) (fieldBody (name.moved f) (tokens.map (Token.moved f))) := by
  cases tokens with
  | nil => exact .stuck _ []
  | cons t rest =>
      change MovesWith f _ (fieldBody name (t :: rest))
        (fieldBody (name.moved f) (t.moved f :: rest.map (Token.moved f)))
      rw [fieldBody, fieldBody, Token.moved_kind]
      split
      · refine (tokenList_moved f rest).bind ?_
        rintro declared closing _ _ _ rfl
        refine (take_moved f closing _).bind ?_
        rintro _ after _ _ _ rfl
        exact .of_eq (by simp) rfl
      · split
        · refine (optionValue_moved f rest).bind ?_
          rintro value after _ _ _ rfl
          exact .of_eq (by simp) rfl
        · exact .stuck _ (t :: rest)

theorem field_moved :
    MovesWith f (Tree.moved f) (field tokens) (field (tokens.map (Token.moved f))) := by
  refine (take_moved f tokens _).bind ?_
  rintro name afterName _ _ _ rfl
  simp only [Token.moved_lexeme, nextKind_moved]
  split
  · refine (rules_moved f afterName).bind ?_
    rintro block rest _ _ _ rfl
    exact .of_eq (by simp) rfl
  · refine (fieldBody_moved f afterName name).bind ?_
    rintro body rest _ _ _ rfl
    exact .of_eq rfl rfl

/-- What stopped a step, with the tokens that were left in another place. -/
def Stuck.moved (s : Stuck) : Stuck := ⟨s.fault, s.left.map (Token.moved f)⟩

theorem fields_moved (tokens : Tokens) :
    fields (tokens.map (Token.moved f)) =
      ((fields tokens).map (List.map (Tree.moved f))).mapError (Stuck.moved f) := by
  cases tokens with
  | nil =>
      rw [fields, List.map_nil, fields]
      rfl
  | cons t rest =>
      have hfield := field_moved f (t :: rest)
      rw [List.map_cons] at hfield ⊢
      rw [fields, fields]
      generalize field (t :: rest) = first at hfield ⊢
      generalize field (t.moved f :: rest.map (Token.moved f)) = first' at hfield ⊢
      cases hfield with
      | stuck fault left => rfl
      | read value middle hshort =>
          rw [ok_bind, ok_bind]
          simp only [fields_moved middle]
          cases fields middle <;> rfl
termination_by tokens.length
decreasing_by exact hshort

/-- The tree of moved tokens is the moved tree, and what does not parse fails with the
same fault. -/
theorem ofTokens_moved :
    ofTokens (tokens.map (Token.moved f)) =
      ((ofTokens tokens).map (Tree.moved f)).mapError (Stuck.moved f) := by
  have hfields := fields_moved f tokens
  unfold ofTokens
  rw [hfields]
  cases fields tokens with
  | error s => rfl
  | ok ts =>
      change Except.ok (node .document [(Role.fields, ts.map (Tree.moved f))]) =
        Except.ok ((node .document [(Role.fields, ts)]).moved f)
      simp

/-- But for the places, what becomes of tokens depends on their kinds and lexemes alone. -/
theorem ofTokens_eq_of_lexemes {tokens tokens' : Tokens} (place : Span)
    (h : tokens.map (fun t => (t.kind, t.lexeme)) = tokens'.map fun t => (t.kind, t.lexeme)) :
    ((ofTokens tokens).map (Tree.moved fun _ => place)).mapError (Stuck.moved fun _ => place) =
      ((ofTokens tokens').map (Tree.moved fun _ => place)).mapError
        (Stuck.moved fun _ => place) := by
  rw [← ofTokens_moved, ← ofTokens_moved, Token.map_moved_const, Token.map_moved_const, h]

/-- Whether tokens are those of a document depends on their kinds and lexemes alone. -/
theorem exists_ofTokens_of_lexemes {tokens tokens' : Tokens} {tree : Tree}
    (h : tokens.map (fun t => (t.kind, t.lexeme)) = tokens'.map fun t => (t.kind, t.lexeme))
    (hok : ofTokens tokens = .ok tree) : ∃ tree', ofTokens tokens' = .ok tree' := by
  have hsame := ofTokens_eq_of_lexemes .nowhere h
  rw [hok] at hsame
  cases htokens' : ofTokens tokens' with
  | ok tree' => exact ⟨tree', rfl⟩
  | error s =>
      rw [htokens'] at hsame
      cases hsame

end Rulebook.Document
