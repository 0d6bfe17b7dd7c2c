import Rulebook.Proofs.Surface.Completeness

/-! # Derivations are unique

Tokens have at most one derivation. For each construct this says a little more:
where two derivations of it stand at the head of the same tokens, and what
follows prolongs neither of them, they are the same and so is what follows.
-/

namespace Rulebook.Surface

open Document (Tokens nextKind EndsSequence endsSequence_alternatives valueRole?_token)

variable {r r' : Tokens}

theorem Terminal.ext_token {kind : TokenKind} {t t' : Terminal kind} (h : t.token = t'.token) :
    t = t' := by
  cases t
  cases t'
  cases h
  rfl

/-- A token stands for terminals of one kind only. -/
theorem Terminal.kind_unique {kind kind' : TokenKind} {t : Terminal kind} {t' : Terminal kind'}
    (h : t.token = t'.token) : kind = kind' := by
  rw [← t.kind_eq, h, t'.kind_eq]

theorem Terminal.unique {kind : TokenKind} {t t' : Terminal kind}
    (h : t.token :: r = t'.token :: r') : t = t' ∧ r = r' := by
  obtain ⟨htoken, hrest⟩ := List.cons.inj h
  exact ⟨Terminal.ext_token htoken, hrest⟩

theorem label_unique {l l' : Option Label} (hr : beginsLabel r = false)
    (hr' : beginsLabel r' = false) (h : labelTokens l ++ r = labelTokens l' ++ r') :
    l = l' ∧ r = r' := by
  have hsome : ∀ (l : Label) (x : Tokens), beginsLabel (labelTokens (some l) ++ x) = true := by
    intro l x
    simp [labelTokens, beginsLabel, l.name.kind_eq, l.equals.kind_eq]
  cases l with
  | none =>
      cases l' with
      | none => exact ⟨rfl, h⟩
      | some l' =>
          rw [labelTokens, List.nil_append] at h
          cases hr.symm.trans (h ▸ hsome l' r')
  | some l =>
      cases l' with
      | none =>
          rw [show labelTokens none ++ r' = r' from rfl] at h
          cases hr'.symm.trans (h ▸ hsome l r)
      | some l' =>
          obtain ⟨hname, hrest⟩ := Terminal.unique h
          obtain ⟨hequals, rfl⟩ := Terminal.unique hrest
          cases l
          cases l'
          cases hname
          cases hequals
          exact ⟨rfl, rfl⟩

theorem Suffix.token_injective : Function.Injective Suffix.token := by
  intro s s' h
  cases s <;> cases s' <;>
    first
    | exact absurd (Terminal.kind_unique h) (by decide)
    | rw [Terminal.ext_token h]

theorem suffix_unique {s s' : Option Suffix} (hr : continuesItem (nextKind r) = false)
    (hr' : continuesItem (nextKind r') = false) (h : suffixTokens s ++ r = suffixTokens s' ++ r') :
    s = s' ∧ r = r' := by
  have hsome : ∀ (s : Suffix) (x : Tokens),
      continuesItem (nextKind (suffixTokens (some s) ++ x)) = true :=
    fun s _ => s.continuesItem
  cases s with
  | none =>
      cases s' with
      | none => exact ⟨rfl, h⟩
      | some s' =>
          rw [suffixTokens_none, List.nil_append] at h
          cases hr.symm.trans (h ▸ hsome s' r')
  | some s =>
      cases s' with
      | none =>
          rw [suffixTokens_none, List.nil_append] at h
          cases hr'.symm.trans (h ▸ hsome s r)
      | some s' =>
          obtain ⟨htoken, hrest⟩ := List.cons.inj h
          exact ⟨congrArg some (Suffix.token_injective htoken), hrest⟩

theorem nextKind_elementTokens_ne {ds : List Element} {d : Element}
    (hr : nextKind r = .closeParen) : elementTokens (d :: ds) ++ r' ≠ r := by
  intro heq
  have hbegins := d.beginsElement
  rw [← heq, elementTokens, List.append_assoc, nextKind_append d.tokens_ne_nil] at hr
  rw [hr] at hbegins
  cases hbegins

-- Neither rest may go on with the construct, since a suffix or an element more
-- would make a longer one of the same tokens.
mutual

theorem Item.unique (d d' : Item) {r r' : Tokens} (hr : continuesItem (nextKind r) = false)
    (hr' : continuesItem (nextKind r') = false) (h : d.tokens ++ r = d'.tokens ++ r') :
    d = d' ∧ r = r' := by
  match d, d' with
  | .mk l d s, .mk l' d' s' =>
      simp only [Item.tokens, List.append_assoc] at h
      have hlabel := not_beginsLabel d (nextKind_suffixTokens_ne_equals s hr)
      have hlabel' := not_beginsLabel d' (nextKind_suffixTokens_ne_equals s' hr')
      obtain ⟨rfl, hscalar⟩ := label_unique hlabel hlabel' h
      obtain ⟨rfl, hsuffix⟩ := Scalar.unique d d' hscalar
      obtain ⟨rfl, rfl⟩ := suffix_unique hr hr' hsuffix
      exact ⟨rfl, rfl⟩

theorem Scalar.unique (d d' : Scalar) {r r' : Tokens} (h : d.tokens ++ r = d'.tokens ++ r') :
    d = d' ∧ r = r' := by
  match d with
  | .singleQuoted t =>
      cases d' with
      | singleQuoted t' =>
          obtain ⟨rfl, rfl⟩ := Terminal.unique h
          exact ⟨rfl, rfl⟩
      | _ => exact absurd (Terminal.kind_unique (List.cons.inj h).1) (by decide)
  | .doubleQuoted t =>
      cases d' with
      | doubleQuoted t' =>
          obtain ⟨rfl, rfl⟩ := Terminal.unique h
          exact ⟨rfl, rfl⟩
      | _ => exact absurd (Terminal.kind_unique (List.cons.inj h).1) (by decide)
  | .name t =>
      cases d' with
      | name t' =>
          obtain ⟨rfl, rfl⟩ := Terminal.unique h
          exact ⟨rfl, rfl⟩
      | _ => exact absurd (Terminal.kind_unique (List.cons.inj h).1) (by decide)
  | .group opening first more closing =>
      cases d' with
      | group opening' first' more' closing' =>
          simp only [Scalar.tokens, List.cons_append, List.append_assoc, List.nil_append] at h
          obtain ⟨rfl, hfirst⟩ := Terminal.unique h
          have hr : nextKind (closing.token :: r) = .closeParen := closing.kind_eq
          have hr' : nextKind (closing'.token :: r') = .closeParen := closing'.kind_eq
          obtain ⟨rfl, hmore⟩ := Element.unique first first'
            (nextKind_elementTokens more (by rw [hr]; rfl))
            (nextKind_elementTokens more' (by rw [hr']; rfl)) hfirst
          obtain ⟨rfl, hclosing⟩ := elements_unique more more' hr hr' hmore
          obtain ⟨rfl, rfl⟩ := Terminal.unique hclosing
          exact ⟨rfl, rfl⟩
      | _ => exact absurd (Terminal.kind_unique (List.cons.inj h).1) (by decide)

theorem Element.unique (d d' : Element) {r r' : Tokens} (hr : continuesItem (nextKind r) = false)
    (hr' : continuesItem (nextKind r') = false) (h : d.tokens ++ r = d'.tokens ++ r') :
    d = d' ∧ r = r' := by
  have hbar : ∀ (bar : Terminal .bar) (item : Item) (x y : Tokens),
      bar.token :: x ≠ item.tokens ++ y := by
    intro bar item x y heq
    have hbegins := item.beginsItem
    rw [← nextKind_append item.tokens_ne_nil y, ← heq, nextKind_cons, bar.kind_eq] at hbegins
    cases hbegins
  match d with
  | .bar bar =>
      cases d' with
      | bar bar' =>
          obtain ⟨rfl, rfl⟩ := Terminal.unique h
          exact ⟨rfl, rfl⟩
      | item d' => exact absurd h (hbar bar d' r r')
  | .item d =>
      cases d' with
      | bar bar' => exact absurd h.symm (hbar bar' d r' r)
      | item d' =>
          obtain ⟨rfl, rfl⟩ := Item.unique d d' hr hr' h
          exact ⟨rfl, rfl⟩

theorem elements_unique (ds ds' : List Element) {r r' : Tokens} (hr : nextKind r = .closeParen)
    (hr' : nextKind r' = .closeParen) (h : elementTokens ds ++ r = elementTokens ds' ++ r') :
    ds = ds' ∧ r = r' := by
  match ds with
  | [] =>
      cases ds' with
      | nil => exact ⟨rfl, h⟩
      | cons d' more' => exact absurd h.symm (nextKind_elementTokens_ne hr)
  | d :: more =>
      cases ds' with
      | nil => exact absurd h (nextKind_elementTokens_ne hr')
      | cons d' more' =>
          simp only [elementTokens, List.append_assoc] at h
          obtain ⟨rfl, hmore⟩ := Element.unique d d'
            (nextKind_elementTokens more (by rw [hr]; rfl))
            (nextKind_elementTokens more' (by rw [hr']; rfl)) h
          obtain ⟨rfl, rfl⟩ := elements_unique more more' hr hr' hmore
          exact ⟨rfl, rfl⟩

end

/-! ## Lists of constructs -/

/-- Tokens that stand for a construct, with a rest as asked for behind them,
determine the construct and where it ends. -/
def Unique {δ : Type} (tokens : δ → Tokens) (follows : Tokens → Prop) : Prop :=
  ∀ ⦃d d' : δ⦄ ⦃r r' : Tokens⦄, follows r → follows r' → tokens d ++ r = tokens d' ++ r' →
    d = d' ∧ r = r'

/-- Tokens that stand for a construct, with a rest as asked for behind them,
determine what is seen of the construct and where it ends. -/
def Determines {δ ν : Type} (tokens : δ → Tokens) (view : δ → ν) (follows : Tokens → Prop) : Prop :=
  ∀ ⦃d d' : δ⦄ ⦃r r' : Tokens⦄, follows r → follows r' → tokens d ++ r = tokens d' ++ r' →
    view d = view d' ∧ r = r'

/-- What is seen of a list of constructs is determined if it is for each of them, if
the beginning of one may follow another, and if what follows the list is no such
beginning. -/
theorem Determines.flatMap {δ ν : Type} {tokens : δ → Tokens} {view : δ → ν}
    (begins : Tokens → Prop) {follows ends : Tokens → Prop} (h : Determines tokens view follows)
    (hbegins : ∀ d r, begins (tokens d ++ r)) (hfollows : ∀ r, begins r → follows r)
    (hends : ∀ r, ends r → follows r ∧ ¬ begins r) :
    Determines (List.flatMap tokens) (List.map view) ends := by
  intro ds ds' r r' hr hr' heq
  have hcons : ∀ (d : δ) (more : List δ) (x : Tokens), begins ((d :: more).flatMap tokens ++ x) := by
    intro d more x
    rw [List.flatMap_cons, List.append_assoc]
    exact hbegins d _
  -- Behind each construct stands the next one or the end of the list.
  have hnext : ∀ (ds : List δ) {x : Tokens}, ends x → follows (ds.flatMap tokens ++ x) := by
    intro ds x hx
    cases ds with
    | nil => exact (hends x hx).1
    | cons d more => exact hfollows _ (hcons d more x)
  induction ds generalizing ds' with
  | nil =>
      cases ds' with
      | nil => exact ⟨rfl, heq⟩
      | cons d' more' =>
          have hbegins := hcons d' more' r'
          rw [← heq] at hbegins
          exact absurd hbegins (hends r hr).2
  | cons d more ih =>
      cases ds' with
      | nil =>
          have hbegins := hcons d more r
          rw [heq] at hbegins
          exact absurd hbegins (hends r' hr').2
      | cons d' more' =>
          simp only [List.flatMap_cons, List.append_assoc] at heq
          obtain ⟨hfirst, hmore⟩ := h (hnext more hr) (hnext more' hr') heq
          obtain ⟨hrest, rfl⟩ := ih hmore
          exact ⟨by rw [List.map_cons, List.map_cons, hfirst, hrest], rfl⟩

/-- A list of constructs is determined if each of them is, if the beginning of one
may follow another, and if what follows the list is no such beginning. -/
theorem Unique.flatMap {δ : Type} {tokens : δ → Tokens} (begins : Tokens → Prop)
    {follows ends : Tokens → Prop} (h : Unique tokens follows)
    (hbegins : ∀ d r, begins (tokens d ++ r)) (hfollows : ∀ r, begins r → follows r)
    (hends : ∀ r, ends r → follows r ∧ ¬ begins r) :
    Unique (List.flatMap tokens) ends := by
  have hdetermines : Determines tokens id follows := h
  intro ds ds' r r' hr hr' heq
  have hall := hdetermines.flatMap begins hbegins hfollows hends hr hr' heq
  rwa [List.map_id, List.map_id] at hall

theorem sequence_unique : Unique sequenceTokens fun r => EndsSequence (nextKind r) := by
  refine Unique.flatMap (fun r => Document.beginsItem (nextKind r)) (fun d d' _ _ => Item.unique d d')
    ?_ ?_ fun r hr => ⟨hr.not_continues, hr.not_begins⟩
  · intro d r
    rw [nextKind_append d.tokens_ne_nil]
    exact d.beginsItem
  · exact fun r hr => continuesItem_of_beginsElement (beginsElement_of_beginsItem hr)

theorem Alternative.unique : Unique Alternative.tokens fun r => EndsSequence (nextKind r) := by
  intro d d' r r' hr hr' h
  obtain ⟨hbar, hsequence⟩ := Terminal.unique h
  obtain ⟨hitems, rfl⟩ := sequence_unique hr hr' hsequence
  cases d
  cases d'
  cases hbar
  cases hitems
  exact ⟨rfl, rfl⟩

theorem alternatives_unique :
    Unique (List.flatMap Alternative.tokens) fun r => nextKind r = .semicolon := by
  refine Unique.flatMap (fun r => nextKind r = .bar) Alternative.unique ?_ ?_ ?_
  · exact fun d r => d.bar.kind_eq
  · exact fun r hr => Or.inl hr
  · intro r hr
    refine ⟨Or.inr hr, ?_⟩
    rw [hr]
    decide

theorem Rule.unique : Unique Rule.tokens fun _ => True := by
  intro d d' r r' _ _ h
  simp only [Rule.tokens, List.cons_append, List.append_assoc, List.nil_append] at h
  obtain ⟨hname, h⟩ := Terminal.unique h
  obtain ⟨hcolon, h⟩ := Terminal.unique h
  have hend : nextKind (d.semicolon.token :: r) = .semicolon := d.semicolon.kind_eq
  have hend' : nextKind (d'.semicolon.token :: r') = .semicolon := d'.semicolon.kind_eq
  obtain ⟨hlead, halternatives⟩ := sequence_unique
    (endsSequence_alternatives d.alternatives hend) (endsSequence_alternatives d'.alternatives hend') h
  obtain ⟨hmore, hsemicolon⟩ := alternatives_unique hend hend' halternatives
  obtain ⟨hlast, rfl⟩ := Terminal.unique hsemicolon
  cases d
  cases d'
  cases hname
  cases hcolon
  cases hlead
  cases hmore
  cases hlast
  exact ⟨rfl, rfl⟩

theorem rules_unique : Unique (List.flatMap Rule.tokens) fun r => nextKind r = .closeBrace := by
  refine Unique.flatMap (fun r => nextKind r = .identifier) Rule.unique ?_ (fun _ _ => trivial) ?_
  · exact fun d r => d.name.kind_eq
  · intro r hr
    refine ⟨trivial, ?_⟩
    rw [hr]
    decide

theorem OptionValue.token_injective : Function.Injective OptionValue.token := by
  intro d d' h
  have hrole : d.role = d'.role := by
    have := valueRole?_token d
    rw [h, valueRole?_token d'] at this
    exact (Option.some.inj this).symm
  cases d <;> cases d' <;>
    first
    | cases Terminal.ext_token h; rfl
    | simp [OptionValue.role, Role.number, Role.regex, Role.doubleQuoted, Role.singleQuoted,
        Role.true, Role.false, Role.identifier] at hrole

theorem OptionEntry.unique : Unique OptionEntry.tokens fun _ => True := by
  intro d d' r r' _ _ h
  obtain ⟨hname, h⟩ := Terminal.unique h
  obtain ⟨hcolon, h⟩ := Terminal.unique h
  obtain ⟨hvalue, rfl⟩ := List.cons.inj h
  cases d
  cases d'
  cases hname
  cases hcolon
  cases OptionValue.token_injective hvalue
  exact ⟨rfl, rfl⟩

theorem FurtherOption.unique : Unique FurtherOption.tokens fun _ => True := by
  intro d d' r r' _ _ h
  obtain ⟨hcomma, h⟩ := Terminal.unique h
  obtain ⟨hentry, rfl⟩ := OptionEntry.unique trivial trivial h
  cases d
  cases d'
  cases hcomma
  cases hentry
  exact ⟨rfl, rfl⟩

/-- A token that may be missing is told from what follows by its kind. -/
theorem optionalToken_unique {kind : TokenKind} :
    Unique (optionalToken : Option (Terminal kind) → Tokens) fun r => nextKind r ≠ kind := by
  intro t t' r r' hr hr' h
  cases t with
  | none =>
      cases t' with
      | none => exact ⟨rfl, h⟩
      | some t' =>
          obtain rfl : r = t'.token :: r' := h
          exact absurd t'.kind_eq hr
  | some t =>
      cases t' with
      | none =>
          obtain rfl : t.token :: r = r' := h
          exact absurd t.kind_eq hr'
      | some t' =>
          obtain ⟨rfl, rfl⟩ := Terminal.unique h
          exact ⟨rfl, rfl⟩

/-- Whether tokens begin with a comma and an option. A comma alone may be the
trailing one. -/
def beginsFurtherOption : Tokens → Bool
  | comma :: name :: _ => comma.kind = .comma && name.kind = .identifier
  | _ => false

theorem not_beginsFurtherOption (trailing : Option (Terminal .comma))
    (hr : nextKind r = .closeBrace) : beginsFurtherOption (optionalToken trailing ++ r) = false := by
  cases r with
  | nil => cases hr
  | cons closing r =>
      rw [nextKind_cons] at hr
      cases trailing with
      | none => cases r <;> simp [optionalToken, beginsFurtherOption, hr]
      | some comma => simp [optionalToken, beginsFurtherOption, hr]

theorem furtherOptions_unique :
    Unique (List.flatMap FurtherOption.tokens) fun r => beginsFurtherOption r = false := by
  refine Unique.flatMap (fun r => beginsFurtherOption r = true) FurtherOption.unique ?_
    (fun _ _ => trivial) ?_
  · intro d r
    simp [FurtherOption.tokens, OptionEntry.tokens, beginsFurtherOption, d.comma.kind_eq,
      d.entry.name.kind_eq]
  · intro r hr
    simp [hr]

theorem OptionList.unique : Unique OptionList.tokens fun r => nextKind r = .closeBrace := by
  have hsome : ∀ (first : OptionEntry) (more : List FurtherOption)
      (trailing : Option (Terminal .comma)) (x : Tokens),
      nextKind ((OptionList.some first more trailing).tokens ++ x) ≠ .closeBrace := by
    intro first more trailing x
    rw [OptionList.tokens, List.append_assoc, List.append_assoc, OptionEntry.nextKind_tokens]
    decide
  intro d d' r r' hr hr' h
  cases d with
  | none =>
      cases d' with
      | none => exact ⟨rfl, h⟩
      | some first' more' trailing' => exact absurd (h ▸ hr) (hsome first' more' trailing' r')
  | some first more trailing =>
      cases d' with
      | none => exact absurd (h ▸ hr') (hsome first more trailing r)
      | some first' more' trailing' =>
          simp only [OptionList.tokens, List.append_assoc] at h
          obtain ⟨rfl, hmore⟩ := OptionEntry.unique trivial trivial h
          obtain ⟨rfl, hlast⟩ := furtherOptions_unique (not_beginsFurtherOption trailing hr)
            (not_beginsFurtherOption trailing' hr') hmore
          have hcomma : nextKind r ≠ .comma := by
            rw [hr]
            decide
          have hcomma' : nextKind r' ≠ .comma := by
            rw [hr']
            decide
          obtain ⟨rfl, rfl⟩ := optionalToken_unique hcomma hcomma' hlast
          exact ⟨rfl, rfl⟩

theorem Declaration.unique : Unique Declaration.tokens fun _ => True := by
  intro d d' r r' _ _ h
  simp only [Declaration.tokens, List.cons_append, List.append_assoc, List.nil_append] at h
  obtain ⟨hname, h⟩ := Terminal.unique h
  obtain ⟨hcolon, h⟩ := Terminal.unique h
  obtain ⟨hopening, h⟩ := Terminal.unique h
  obtain ⟨hoptions, h⟩ := OptionList.unique (d.closing.nextKind_cons r) (d'.closing.nextKind_cons r') h
  obtain ⟨hclosing, rfl⟩ := Terminal.unique h
  cases d
  cases d'
  cases hname
  cases hcolon
  cases hopening
  cases hoptions
  cases hclosing
  exact ⟨rfl, rfl⟩

theorem Declared.unique : Unique Declared.tokens fun r => nextKind r ≠ .comma := by
  intro d d' r r' hr hr' h
  simp only [Declared.tokens, List.append_assoc] at h
  obtain ⟨hdeclaration, h⟩ := Declaration.unique trivial trivial h
  obtain ⟨hcomma, rfl⟩ := optionalToken_unique hr hr' h
  cases d
  cases d'
  cases hdeclaration
  cases hcomma
  exact ⟨rfl, rfl⟩

theorem declared_unique : Unique (List.flatMap Declared.tokens) fun r => nextKind r = .closeBrace := by
  refine Unique.flatMap (fun r => nextKind r = .identifier) Declared.unique ?_ ?_ ?_
  · intro d r
    rw [Declared.tokens, List.append_assoc]
    exact d.declaration.nextKind_tokens _
  · intro r hr
    rw [hr]
    decide
  · intro r hr
    rw [hr]
    decide

theorem Field.unique : Unique Field.tokens fun _ => True := by
  intro d d' r r' _ _ h
  cases d with
  | rules keyword spelled opening block closing =>
      cases d' with
      | rules keyword' spelled' opening' block' closing' =>
          simp only [Field.tokens, List.cons_append, List.append_assoc, List.nil_append] at h
          obtain ⟨rfl, hafter⟩ := Terminal.unique h
          obtain ⟨rfl, hblock⟩ := Terminal.unique hafter
          obtain ⟨rfl, hclosing⟩ :=
            rules_unique (closing.nextKind_cons r) (closing'.nextKind_cons r') hblock
          obtain ⟨rfl, rfl⟩ := Terminal.unique hclosing
          exact ⟨rfl, rfl⟩
      | declarations name' notRules' opening' declared' closing' =>
          obtain ⟨rfl, -⟩ := Terminal.unique h
          exact absurd spelled notRules'
      | setting name' colon' value' =>
          obtain ⟨-, h⟩ := Terminal.unique h
          exact absurd (Terminal.kind_unique (List.cons.inj h).1) (by decide)
  | declarations name notRules opening declared closing =>
      cases d' with
      | rules keyword' spelled' opening' block' closing' =>
          obtain ⟨rfl, -⟩ := Terminal.unique h
          exact absurd spelled' notRules
      | declarations name' notRules' opening' declared' closing' =>
          simp only [Field.tokens, List.cons_append, List.append_assoc, List.nil_append] at h
          obtain ⟨rfl, hafter⟩ := Terminal.unique h
          obtain ⟨rfl, hdeclared⟩ := Terminal.unique hafter
          obtain ⟨rfl, hclosing⟩ :=
            declared_unique (closing.nextKind_cons r) (closing'.nextKind_cons r') hdeclared
          obtain ⟨rfl, rfl⟩ := Terminal.unique hclosing
          exact ⟨rfl, rfl⟩
      | setting name' colon' value' =>
          obtain ⟨-, h⟩ := Terminal.unique h
          exact absurd (Terminal.kind_unique (List.cons.inj h).1) (by decide)
  | setting name colon value =>
      cases d' with
      | setting name' colon' value' =>
          obtain ⟨rfl, hafter⟩ := Terminal.unique h
          obtain ⟨rfl, hlast⟩ := Terminal.unique hafter
          obtain ⟨hvalue, rfl⟩ := List.cons.inj hlast
          cases OptionValue.token_injective hvalue
          exact ⟨rfl, rfl⟩
      | _ =>
          obtain ⟨-, h⟩ := Terminal.unique h
          exact absurd (Terminal.kind_unique (List.cons.inj h).1) (by decide)

/-- Tokens have at most one derivation. -/
theorem Derivation.tokens_injective : Function.Injective Derivation.tokens := by
  intro d d' h
  have hfields : Unique (List.flatMap Field.tokens) fun r => r = [] := by
    refine Unique.flatMap (fun r => nextKind r = .identifier) Field.unique ?_ (fun _ _ => trivial) ?_
    · intro d r
      cases d with
      | rules keyword _ _ _ _ => exact keyword.kind_eq
      | declarations name _ _ _ _ => exact name.kind_eq
      | setting name _ _ => exact name.kind_eq
    · rintro r rfl
      exact ⟨trivial, by decide⟩
  exact (hfields rfl rfl (congrArg (· ++ []) h)).1

end Rulebook.Surface
