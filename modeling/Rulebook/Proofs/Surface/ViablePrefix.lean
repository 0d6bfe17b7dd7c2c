import Rulebook.Proofs.Surface.Predictive

/-! # Every step predicts its construct

Whatever stops a step was found behind tokens with which its construct begins, at the
first place where this was not so any more. For each step it is said how its construct
is completed wherever it may be stuck.
-/

namespace Rulebook.Surface

namespace Filler

/-- A value. -/
def value : OptionValue := .name name.terminal (by decide) (by decide)

/-- An option. -/
def entry : OptionEntry := ⟨name.terminal, colon.terminal, value⟩

/-- A declaration without options. -/
def declaration : Declaration :=
  ⟨name.terminal, colon.terminal, openBrace.terminal, .none, closeBrace.terminal⟩

/-- A scalar. -/
def scalar : Scalar := .name name.terminal

/-- An item. -/
def item : Item := .mk none scalar none

/-- A rule with an empty body. -/
def rule : Rule := ⟨name.terminal, colon.terminal, [], [], semicolon.terminal⟩

/-- A field. -/
def field : Field := .setting name.terminal colon.terminal value

end Filler

end Rulebook.Surface

namespace Rulebook.Document

open Surface

variable (tokens : Tokens)

/-! ## Options and declarations -/

theorem optionValue_predicts :
    Predicts (fun d : OptionValue => [d.token]) [] (fun ts => outcome (optionValue ts)) tokens := by
  have hbegins : Begins (fun d : OptionValue => [d.token]) [] := ⟨Filler.value, [.name], rfl⟩
  have hstuck : Predicts (α := Tree) (fun d : OptionValue => [d.token]) []
      (fun ts => .error ⟨.expectedOptionValue (nextKind tokens).name, ts⟩) tokens :=
    .stuck [] (fun _ => rfl) (.expectedOptionValue tokens) hbegins
  cases tokens with
  | nil =>
      refine hstuck.of_head fun ts hhead => ?_
      obtain rfl := List.head?_eq_none_iff.mp hhead
      rfl
  | cons t rest =>
      cases hrole : valueRole? t with
      | none =>
          refine hstuck.of_head fun ts hhead => ?_
          obtain ⟨more, rfl⟩ := List.head?_eq_some_iff.mp hhead
          simp only [optionValue, hrole]
          rfl
      | some role =>
          refine (Predicts.done (node .optionValue [(role, [leaf t])])).cons.of_head
            fun ts hhead => ?_
          obtain ⟨more, rfl⟩ := List.head?_eq_some_iff.mp hhead
          simp only [optionValue, hrole]
          rfl

theorem option_predicts :
    Predicts OptionEntry.tokens [] (fun ts => outcome (option ts)) tokens := by
  rw [funext outcome_option]
  refine .take ⟨Filler.entry, [.name, .colon, .name], rfl⟩ fun name _ _ hname => ?_
  refine .take ⟨⟨⟨name, hname⟩, Filler.colon.terminal, Filler.value⟩, [.colon, .name], rfl⟩
    fun colon afterColon _ hcolon => ?_
  refine .andThen (optionValue_predicts afterColon)
    (fun value => ⟨⟨⟨name, hname⟩, ⟨colon, hcolon⟩, value⟩, [], rfl⟩) fun {value rest} hread => ?_
  obtain ⟨d, hd, -⟩ := optionValue_sound (reads_of_outcome hread)
  exact ⟨[d.token], hd, .done _⟩

/-- Options behind an option and a comma. -/
theorem begins_options (first : OptionEntry) (comma : Terminal .comma) (l : OptionList) :
    Begins OptionList.tokens (first.tokens ++ [comma.token] ++ l.tokens) := by
  cases l with
  | none =>
      exact begins_of_eq (.some first [] (some comma)) (by simp [OptionList.tokens, optionalToken])
  | some second more trailing =>
      refine begins_of_eq (.some first (⟨comma, second⟩ :: more) trailing) ?_
      simp [OptionList.tokens, FurtherOption.tokens]

theorem options_predicts (tokens : Tokens) :
    Predicts OptionList.tokens [] (fun ts => outcome (options ts)) tokens := by
  have hbegins : ∀ first : OptionEntry, Begins OptionList.tokens first.tokens := fun first =>
    begins_of_eq (.some first [] none) (by simp [OptionList.tokens, optionalToken])
  rw [funext outcome_options]
  refine .choose (fun ts h => by rw [h]) (fun _ => .done _) fun _ => ?_
  refine .andThen (option_predicts tokens) hbegins fun {value middle} hfirst => ?_
  obtain ⟨first, rfl, -⟩ := option_sound (reads_of_outcome hfirst)
  refine ⟨first.tokens, rfl, ?_⟩
  refine .choose (fun ts h => by rw [h]) (fun _ => ?_) fun _ => .done _
  refine .take (hbegins first) fun comma after hmiddle hcomma => ?_
  have hshort : after.length < (first.tokens ++ middle).length := by
    rw [hmiddle, List.length_append, List.length_cons]
    omega
  refine .andThen (options_predicts after) (begins_options first ⟨comma, hcomma⟩)
    fun {more rest} hmore => ?_
  obtain ⟨l, hl, -⟩ := options_sound (reads_of_outcome hmore)
  exact ⟨l.tokens, hl, .done _⟩
termination_by tokens.length

theorem token_predicts :
    Predicts Declaration.tokens [] (fun ts => outcome (token ts)) tokens := by
  rw [funext outcome_token]
  refine .take ⟨Filler.declaration, [.name, .colon, .openBrace, .closeBrace], rfl⟩
    fun name _ _ hname => ?_
  refine .take ⟨⟨⟨name, hname⟩, Filler.colon.terminal, Filler.openBrace.terminal, .none,
    Filler.closeBrace.terminal⟩, [.colon, .openBrace, .closeBrace], rfl⟩ fun colon _ _ hcolon => ?_
  refine .take ⟨⟨⟨name, hname⟩, ⟨colon, hcolon⟩, Filler.openBrace.terminal, .none,
    Filler.closeBrace.terminal⟩, [.openBrace, .closeBrace], rfl⟩ fun opening inside _ hopening => ?_
  have hbegins : ∀ l : OptionList,
      Begins Declaration.tokens ([name, colon, opening] ++ l.tokens) := fun l =>
    ⟨⟨⟨name, hname⟩, ⟨colon, hcolon⟩, ⟨opening, hopening⟩, l, Filler.closeBrace.terminal⟩,
      [.closeBrace], rfl⟩
  refine .andThen (options_predicts inside) hbegins fun {value rest} hread => ?_
  obtain ⟨l, hl, -⟩ := options_sound (reads_of_outcome hread)
  exact ⟨l.tokens, hl, .take (hbegins l) fun _ _ _ _ => .done _⟩

theorem tokenList_predicts (tokens : Tokens) :
    Predicts (List.flatMap Declared.tokens) [] (fun ts => outcome (tokenList ts)) tokens := by
  rw [funext outcome_tokenList]
  refine .choose (fun ts h => by rw [h]) (fun _ => .done _) fun _ => ?_
  refine .andThen (token_predicts tokens)
    (fun d => begins_of_eq [⟨d, none⟩] (by simp [Declared.tokens, optionalToken]))
    fun {value middle} hfirst => ?_
  have hshort := (reads_of_outcome hfirst).short
  obtain ⟨d, hd, -⟩ := token_sound (reads_of_outcome hfirst)
  refine ⟨d.tokens, hd, .skip (p := fun ts => (outcome (tokenList ts)).andThen fun more ts =>
    .ok (value :: more, ts)) fun comma hcomma => ?_⟩
  have hskip := length_skip_le .comma middle
  refine .andThen (tokenList_predicts (skip .comma middle))
    (fun ds => begins_of_eq (⟨d, comma⟩ :: ds) List.flatMap_cons) fun {more rest} hmore => ?_
  obtain ⟨ds, hds, -⟩ := tokenList_sound (reads_of_outcome hmore)
  exact ⟨ds.flatMap Declared.tokens, hds, .done _⟩
termination_by tokens.length

/-! ## Bodies of rules -/

/-- A suffix may always be left out. -/
theorem finishItem_predicts {δ : Type} (tokensOf : δ → Tokens) (past : Tokens) (label : List Tree)
    (value : Tree) : Predicts tokensOf past (finishItem label value) tokens := by
  have hnone : ∀ ts, suffixRole? (nextKind ts) = none → finishItem label value ts =
      .ok (node .item [(Role.name, label), (Role.scalar, [value])], ts) := by
    intro ts hrole
    cases ts with
    | nil => rfl
    | cons t more =>
        rw [nextKind] at hrole
        simp only [finishItem, suffix, hrole]
        rfl
  cases hrole : suffixRole? (nextKind tokens) with
  | none =>
      refine (Predicts.done _).of_head fun ts hhead => hnone ts ?_
      rw [nextKind_eq_of_head? hhead, hrole]
  | some role =>
      cases tokens with
      | nil => cases hrole
      | cons t rest =>
          rw [nextKind] at hrole
          refine (Predicts.done (node .item
            [(Role.name, label), (Role.scalar, [value]), (role, [leaf t])])).cons.of_head
              fun ts hhead => ?_
          obtain ⟨more, rfl⟩ := List.head?_eq_some_iff.mp hhead
          simp only [finishItem, suffix, hrole]
          rfl

/-- An item behind a name that may be its label. -/
theorem outcome_item_cons_name {t : Token TokenKind} (h : t.kind = .identifier) :
    outcome (item (t :: tokens)) =
      if nextKind tokens = .equals then
        (outcome (take .equals tokens)).andThen fun _ tokens =>
        (outcome (scalar tokens)).andThen (finishItem [leaf t])
      else finishItem [] (node .scalar [(Role.identifier, [leaf t])]) tokens := by
  have hname : ∀ more, outcome (scalar (t :: more)) =
      .ok (node .scalar [(Role.identifier, [leaf t])], more) := by
    intro more
    rw [scalar]
    simp only [h]
    rfl
  rw [outcome_item]
  cases tokens with
  | nil =>
      simp only [label, hname, Outcome.ok_andThen]
      rfl
  | cons e rest =>
      by_cases hequals : e.kind = .equals
      · have hlabel : (label (t :: e :: rest)).value = [leaf t] ∧
            (label (t :: e :: rest)).rest = rest := by
          simp [label, h, hequals]
        rw [nextKind, if_pos hequals, outcome_take_cons hequals, hlabel.1, hlabel.2]
        rfl
      · have hlabel : (label (t :: e :: rest)).value = [] ∧
            (label (t :: e :: rest)).rest = t :: e :: rest := by
          simp [label, hequals]
        rw [nextKind, if_neg hequals, hlabel.1, hlabel.2, hname, Outcome.ok_andThen]

theorem outcome_item_of_ne {ts : Tokens} (h : nextKind ts ≠ .identifier) :
    outcome (item ts) = (outcome (scalar ts)).andThen (finishItem []) := by
  have hlabel : (label ts).value = [] ∧ (label ts).rest = ts := by
    unfold label
    split
    · next t e rest =>
        rw [if_neg fun hkinds => h hkinds.1]
        exact ⟨rfl, rfl⟩
    · exact ⟨rfl, rfl⟩
  rw [outcome_item, hlabel.1, hlabel.2]

theorem scalar_predicts_of_role {t : Token TokenKind} {rest : Tokens} {role : String}
    (h : scalarRole? t.kind = some role) :
    Predicts Scalar.tokens [] (fun ts => outcome (scalar ts)) (t :: rest) := by
  refine (Predicts.done (node .scalar [(role, [leaf t])])).cons.of_head fun ts hhead => ?_
  obtain ⟨more, rfl⟩ := List.head?_eq_some_iff.mp hhead
  have hreads : Reads (scalar (t :: more)) (node .scalar [(role, [leaf t])]) more :=
    reads_scalar.mpr (.inl ⟨t, role, rfl, h, rfl⟩)
  rw [hreads.eq_ok]
  rfl

/-- What can be no scalar is no group either. -/
theorem scalar_eq_error {ts : Tokens} (h : scalarRole? (nextKind ts) = none)
    (hopen : nextKind ts ≠ .openParen) :
    scalar ts = .error ⟨.unexpectedToken (nextKind ts).name, ts⟩ := by
  cases ts with
  | nil =>
      rw [scalar]
      rfl
  | cons t more =>
      rw [nextKind] at h hopen
      rw [scalar, nextKind]
      cases hkind : t.kind <;> simp_all [scalarRole?] <;> rfl

-- The recursion is that of the parser, as it is where parsed tokens are derived.
mutual

theorem item_predicts (tokens : Tokens) :
    Predicts Item.tokens [] (fun ts => outcome (item ts)) tokens := by
  have hfinish : ∀ (label : Option Label) (d : Scalar),
      Begins Item.tokens (labelTokens label ++ d.tokens) := fun label d =>
    begins_of_eq (.mk label d none) (by simp [Item.tokens, suffixTokens])
  by_cases hname : nextKind tokens = .identifier
  · cases tokens with
    | nil => cases hname
    | cons t rest =>
        -- The name is a label if an equals sign follows, and else a scalar.
        have hbehind : Predicts Item.tokens [t] (fun ts =>
            if nextKind ts = .equals then
              (outcome (take .equals ts)).andThen fun _ ts =>
              (outcome (scalar ts)).andThen (finishItem [leaf t])
            else finishItem [] (node .scalar [(Role.identifier, [leaf t])]) ts) rest := by
          refine .choose (fun ts h => by rw [h]) (fun _ => ?_)
            fun _ => finishItem_predicts rest _ _ _ _
          have hbegins : Begins Item.tokens [t] := hfinish none (.name ⟨t, hname⟩)
          refine .take hbegins fun e after hrest hequals => ?_
          refine .andThen (scalar_predicts after)
            (fun d => hfinish (some ⟨⟨t, hname⟩, ⟨e, hequals⟩⟩) d) fun {value rest} hread => ?_
          obtain ⟨d, hd, -⟩ := scalar_sound (reads_of_outcome hread)
          exact ⟨d.tokens, hd, finishItem_predicts rest _ _ _ _⟩
        refine hbehind.cons.of_head fun ts hhead => ?_
        obtain ⟨more, rfl⟩ := List.head?_eq_some_iff.mp hhead
        rw [outcome_item_cons_name more hname, List.tail_cons]
  · have hscalar : Predicts Item.tokens []
        (fun ts => (outcome (scalar ts)).andThen (finishItem [])) tokens := by
      refine .andThen (scalar_predicts tokens) (hfinish none) fun {value rest} hread => ?_
      obtain ⟨d, hd, -⟩ := scalar_sound (reads_of_outcome hread)
      exact ⟨d.tokens, hd, finishItem_predicts rest _ _ _ _⟩
    refine hscalar.of_head fun ts hhead => outcome_item_of_ne ?_
    rwa [nextKind_eq_of_head? hhead]
termination_by (tokens.length, 1)

theorem scalar_predicts (tokens : Tokens) :
    Predicts Scalar.tokens [] (fun ts => outcome (scalar ts)) tokens := by
  cases hrole : scalarRole? (nextKind tokens) with
  | some role =>
      cases tokens with
      | nil => cases hrole
      | cons t rest => exact scalar_predicts_of_role hrole
  | none =>
      by_cases hopen : nextKind tokens = .openParen
      · cases tokens with
        | nil => cases hopen
        | cons t rest =>
            -- Elements may be missing while the group is not closed.
            have hopened : ∀ ds, Begins Scalar.tokens ([t] ++ elementTokens ds) := by
              intro ds
              cases ds with
              | nil =>
                  exact ⟨.group ⟨t, hopen⟩ (.item Filler.item) [] Filler.closeParen.terminal,
                    [.name, .closeParen], rfl⟩
              | cons d more =>
                  exact ⟨.group ⟨t, hopen⟩ d more Filler.closeParen.terminal, [.closeParen],
                    by simp [Scalar.tokens, elementTokens]; rfl⟩
            have hinside : Predicts Scalar.tokens [t] (fun ts =>
                (outcome (elements ts)).andThen fun inside rest =>
                  if inside.isEmpty then .error ⟨.emptyGroup, t :: rest⟩
                  else (outcome (take .closeParen rest)).andThen fun _ rest =>
                    .ok (node .scalar [(Role.group, [node .group [(Role.value, [node .expression
                      [(Role.value, [node .choice [(Role.elements, inside)]])]])]])], rest))
                rest := by
              refine .andThen (elements_predicts rest) hopened fun {inside after} hread => ?_
              obtain ⟨ds, hds, rfl⟩ := elements_sound (reads_of_outcome hread)
              refine ⟨elementTokens ds, hds, ?_⟩
              cases ds with
              | nil =>
                  exact .stuck [t] (fun _ => rfl)
                    (.emptyGroup List.suffix_rfl hopen after) (hopened [])
              | cons d more => exact .take (hopened (d :: more)) fun _ _ _ _ => .done _
            refine hinside.cons.of_head fun ts hhead => ?_
            obtain ⟨more, rfl⟩ := List.head?_eq_some_iff.mp hhead
            rw [outcome_group more hopen, List.tail_cons]
      · have hstuck : Predicts (α := Tree) Scalar.tokens []
            (fun ts => .error ⟨.unexpectedToken (nextKind tokens).name, ts⟩) tokens :=
          .stuck [] (fun _ => rfl) (.unexpectedToken tokens) ⟨Filler.scalar, [.name], rfl⟩
        refine hstuck.of_head fun ts hhead => ?_
        have hkind := nextKind_eq_of_head? hhead
        rw [scalar_eq_error (hkind ▸ hrole) (hkind ▸ hopen), hkind]
        rfl
termination_by (tokens.length, 0)

theorem elements_predicts (tokens : Tokens) :
    Predicts elementTokens [] (fun ts => outcome (elements ts)) tokens := by
  rw [funext outcome_elements]
  refine .choose (fun ts h => by rw [h]) (fun _ => ?_) fun _ => ?_
  · refine .take ⟨[], [], rfl⟩ fun bar after htokens hbar => ?_
    have hshort : after.length < tokens.length := by
      rw [htokens]
      exact Nat.lt_succ_self _
    refine .andThen (elements_predicts after)
      (fun ds => begins_of_eq (.bar ⟨bar, hbar⟩ :: ds) (by simp [elementTokens, Element.tokens]))
      fun {more rest} hmore => ?_
    obtain ⟨ds, hds, -⟩ := elements_sound (reads_of_outcome hmore)
    exact ⟨elementTokens ds, hds, .done _⟩
  · refine .choose (fun ts h => by rw [h]) (fun _ => ?_) fun _ => .done _
    refine .andThen (item_predicts tokens)
      (fun d => begins_of_eq [.item d] (by simp [elementTokens, Element.tokens]))
      fun {first middle} hfirst => ?_
    have hshort := (reads_of_outcome hfirst).short
    obtain ⟨d, hd, -⟩ := item_sound (reads_of_outcome hfirst)
    refine ⟨d.tokens, hd, ?_⟩
    refine .andThen (elements_predicts middle)
      (fun ds => begins_of_eq (.item d :: ds) (by simp [elementTokens, Element.tokens]))
      fun {more rest} hmore => ?_
    obtain ⟨ds, hds, -⟩ := elements_sound (reads_of_outcome hmore)
    exact ⟨elementTokens ds, hds, .done _⟩
termination_by (tokens.length, 2)

end

theorem expressions_predicts (tokens : Tokens) :
    Predicts sequenceTokens [] (fun ts => outcome (expressions ts)) tokens := by
  rw [funext outcome_expressions]
  refine .choose (fun ts h => by rw [h]) (fun _ => ?_) fun _ => .done _
  refine .many (item_predicts tokens) fun {first middle} hfirst => ?_
  have hshort := (reads_of_outcome hfirst).short
  obtain ⟨d, hd, -⟩ := item_sound (reads_of_outcome hfirst)
  refine ⟨⟨d, hd⟩, expressions_predicts middle, fun {more rest} hmore => ?_⟩
  obtain ⟨ds, hds, -⟩ := expressions_sound (reads_of_outcome hmore)
  exact ⟨ds, hds⟩
termination_by tokens.length

theorem sequence_predicts :
    Predicts sequenceTokens [] (fun ts => outcome (sequence ts)) tokens := by
  rw [funext outcome_sequence]
  refine .andThen (expressions_predicts tokens) (fun ds => begins_of_eq ds rfl)
    fun {items rest} hitems => ?_
  obtain ⟨ds, hds, -⟩ := expressions_sound (reads_of_outcome hitems)
  exact ⟨sequenceTokens ds, hds, .done _⟩

theorem branches_predicts (tokens : Tokens) :
    Predicts (List.flatMap Alternative.tokens) [] (fun ts => outcome (branches ts)) tokens := by
  rw [funext outcome_branches]
  refine .choose (fun ts h => by rw [h]) (fun _ => ?_) fun _ => .done _
  refine .take ⟨[], [], rfl⟩ fun bar after htokens hbar => ?_
  refine .andThen (sequence_predicts after)
    (fun items => begins_of_eq [⟨⟨bar, hbar⟩, items⟩] (List.flatMap_singleton _ _))
    fun {first middle} hfirst => ?_
  have hshort : middle.length < tokens.length := by
    rw [htokens]
    exact (reads_of_outcome hfirst).short
  obtain ⟨items, hitems, -⟩ := sequence_sound (reads_of_outcome hfirst)
  refine ⟨sequenceTokens items, hitems, ?_⟩
  refine .andThen (branches_predicts middle)
    (fun ds => begins_of_eq (⟨⟨bar, hbar⟩, items⟩ :: ds) List.flatMap_cons)
    fun {more rest} hmore => ?_
  obtain ⟨ds, hds, -⟩ := branches_sound (reads_of_outcome hmore)
  exact ⟨ds.flatMap Alternative.tokens, hds, .done _⟩
termination_by tokens.length

theorem rule_predicts : Predicts Rule.tokens [] (fun ts => outcome (rule ts)) tokens := by
  rw [funext outcome_rule]
  refine .take ⟨Filler.rule, [.name, .colon, .semicolon], rfl⟩ fun name _ _ hname => ?_
  refine .take ⟨⟨⟨name, hname⟩, Filler.colon.terminal, [], [], Filler.semicolon.terminal⟩,
    [.colon, .semicolon], rfl⟩ fun colon body _ hcolon => ?_
  have hbegins : ∀ (items : Sequence) (ds : List Alternative), Begins Rule.tokens
      ([name, colon] ++ sequenceTokens items ++ ds.flatMap Alternative.tokens) := fun items ds =>
    ⟨⟨⟨name, hname⟩, ⟨colon, hcolon⟩, items, ds, Filler.semicolon.terminal⟩, [.semicolon],
      by simp [Rule.tokens]; rfl⟩
  refine .andThen (sequence_predicts body) (fun items => by simpa using hbegins items [])
    fun {first middle} hfirst => ?_
  obtain ⟨items, hitems, -⟩ := sequence_sound (reads_of_outcome hfirst)
  refine ⟨sequenceTokens items, hitems, ?_⟩
  -- Whether there is a bar decides what becomes of the first sequence.
  have hbranches : Predicts Rule.tokens ([name, colon] ++ sequenceTokens items) (fun ts =>
      (outcome (branches ts)).andThen fun more ts =>
        if nextKind ts = .semicolon then
          (outcome (take .semicolon ts)).andThen fun _ ts =>
            .ok (node .rule [(Role.name, [leaf name]), (Role.body, leading first middle ++ more)],
              ts)
        else .error ⟨.missingSemicolon name.lexeme (nextKind ts).name, ts⟩) middle := by
    refine .andThen (branches_predicts middle) (hbegins items) fun {more rest} hmore => ?_
    obtain ⟨ds, hds, -⟩ := branches_sound (reads_of_outcome hmore)
    refine ⟨ds.flatMap Alternative.tokens, hds, ?_⟩
    refine .choose (fun ts h => by rw [h])
      (fun _ => .take (hbegins items ds) fun _ _ _ _ => .done _) fun _ => ?_
    have hstuck : Predicts (α := Tree) Rule.tokens
        ([name, colon] ++ sequenceTokens items ++ ds.flatMap Alternative.tokens)
        (fun ts => .error ⟨.missingSemicolon name.lexeme (nextKind rest).name, ts⟩) rest :=
      .stuck [] (fun _ => rfl) (.missingSemicolon (by simp) hname rest) (hbegins items ds)
    exact hstuck.of_head fun ts hhead => by rw [nextKind_eq_of_head? hhead]
  refine hbranches.of_head fun ts hhead => ?_
  have hleading : leading first ts = leading first middle := by
    rw [leading, leading, nextKind_eq_of_head? hhead]
  rw [hleading]

/-! ## Fields -/

theorem ruleList_predicts (tokens : Tokens) :
    Predicts (List.flatMap Rule.tokens) [] (fun ts => outcome (ruleList ts)) tokens := by
  rw [funext outcome_ruleList]
  refine .choose (fun ts h => by rw [h]) (fun _ => .done _) fun _ => ?_
  refine .many (f := fun first => first) (rule_predicts tokens) fun {first middle} hfirst => ?_
  have hshort := (reads_of_outcome hfirst).short
  obtain ⟨d, hd, -⟩ := rule_sound (reads_of_outcome hfirst)
  refine ⟨⟨d, hd⟩, ruleList_predicts middle, fun {more rest} hmore => ?_⟩
  obtain ⟨ds, hds, -⟩ := ruleList_sound (reads_of_outcome hmore)
  exact ⟨ds, hds⟩
termination_by tokens.length

/-- A field without rules, behind its name, which is not `rules` in front of a brace. -/
theorem fieldBody_predicts {name : Token TokenKind} (hname : name.kind = .identifier)
    (hrules : ¬ (name.lexeme = "rules" ∧ nextKind tokens = .openBrace)) :
    Predicts Field.tokens [name] (fun ts => outcome (fieldBody name ts)) tokens := by
  have hcolon : Begins Field.tokens [name] :=
    ⟨.setting ⟨name, hname⟩ Filler.colon.terminal Filler.value, [.colon, .name], rfl⟩
  rw [funext fun ts => outcome_fieldBody ts name]
  refine .choose (fun ts h => by rw [h]) (fun hopen => ?_) fun _ => ?_
  · have hnot : name.lexeme ≠ "rules" := fun heq => hrules ⟨heq, hopen⟩
    refine .take hcolon fun opening inside _ hopening => ?_
    have hbegins : ∀ ds : List Declared,
        Begins Field.tokens ([name, opening] ++ ds.flatMap Declared.tokens) := fun ds =>
      ⟨.declarations ⟨name, hname⟩ hnot ⟨opening, hopening⟩ ds Filler.closeBrace.terminal,
        [.closeBrace], by simp [Field.tokens]; rfl⟩
    refine .andThen (tokenList_predicts inside) hbegins fun {declared rest} hread => ?_
    obtain ⟨ds, hds, -⟩ := tokenList_sound (reads_of_outcome hread)
    exact ⟨ds.flatMap Declared.tokens, hds, .take (hbegins ds) fun _ _ _ _ => .done _⟩
  · refine .choose (fun ts h => by rw [h]) (fun _ => ?_) fun _ => ?_
    · refine .take hcolon fun colon after _ hcolonKind => ?_
      refine .andThen (optionValue_predicts after)
        (fun d => begins_of_eq (.setting ⟨name, hname⟩ ⟨colon, hcolonKind⟩ d) rfl)
        fun {value rest} hread => ?_
      obtain ⟨d, hd, -⟩ := optionValue_sound (reads_of_outcome hread)
      exact ⟨[d.token], hd, .done _⟩
    · have hstuck : Predicts (α := Tree) Field.tokens [name]
          (fun ts => .error ⟨.expectedFieldBody name.lexeme (nextKind tokens).name, ts⟩) tokens :=
        .stuck [] (fun _ => rfl)
          (.expectedFieldBody List.mem_cons_self hname tokens) hcolon
      exact hstuck.of_head fun ts hhead => by rw [nextKind_eq_of_head? hhead]

theorem field_predicts : Predicts Field.tokens [] (fun ts => outcome (field ts)) tokens := by
  rw [funext outcome_field]
  refine .take ⟨Filler.field, [.name, .colon, .name], rfl⟩ fun name after _ hname => ?_
  refine .choose (fun ts h => by rw [h]) (fun hrules => ?_)
    fun hrules => fieldBody_predicts after hname hrules
  have hopened : ∀ opening : Terminal .openBrace, ∀ ds : List Rule,
      Begins Field.tokens ([name, opening.token] ++ ds.flatMap Rule.tokens) := fun opening ds =>
    ⟨.rules ⟨name, hname⟩ hrules.1 opening ds Filler.closeBrace.terminal, [.closeBrace],
      by simp [Field.tokens]; rfl⟩
  refine .take ⟨.rules ⟨name, hname⟩ hrules.1 Filler.openBrace.terminal []
    Filler.closeBrace.terminal, [.openBrace, .closeBrace], rfl⟩ fun opening inside _ hopening => ?_
  refine .andThen (ruleList_predicts inside) (hopened ⟨opening, hopening⟩)
    fun {block rest} hread => ?_
  obtain ⟨ds, hds, -⟩ := ruleList_sound (reads_of_outcome hread)
  exact ⟨ds.flatMap Rule.tokens, hds, .take (hopened ⟨opening, hopening⟩ ds) fun _ _ _ _ => .done _⟩

theorem fields_predicts (tokens : Tokens) : Predicts Derivation.tokens [] fieldsOutcome tokens := by
  cases tokens with
  | nil =>
      refine (Predicts.done []).of_head fun ts hhead => ?_
      obtain rfl := List.head?_eq_none_iff.mp hhead
      rw [fieldsOutcome, fields]
      rfl
  | cons t rest =>
      have hfields : Predicts Derivation.tokens [] (fun ts =>
          (outcome (field ts)).andThen fun first ts =>
          (fieldsOutcome ts).andThen fun more ts => .ok (first :: more, ts)) (t :: rest) := by
        refine .many (f := fun first => first) (field_predicts (t :: rest))
          fun {first middle} hfirst => ?_
        have hshort := (reads_of_outcome hfirst).short
        obtain ⟨d, hd, -⟩ := field_sound (reads_of_outcome hfirst)
        refine ⟨⟨d, hd⟩, fields_predicts middle, fun {more left} hmore => ?_⟩
        obtain ⟨ts, hts, heq⟩ := exists_of_map_eq_ok hmore
        obtain ⟨rfl, rfl⟩ := Prod.mk.inj heq
        obtain ⟨ds, rfl, -⟩ := fields_sound hts
        exact ⟨ds, (List.append_nil _).symm⟩
      refine hfields.of_head fun ts hhead => ?_
      obtain ⟨more, rfl⟩ := List.head?_eq_some_iff.mp hhead
      exact fieldsOutcome_cons more t
termination_by tokens.length
decreasing_by exact hshort

theorem ofTokens_eq_ok_iff {t : Tree} : ofTokens tokens = .ok t ↔ ∃ trees,
    fieldsOutcome tokens = .ok (trees, []) ∧ t = node .document [(Role.fields, trees)] := by
  change fields tokens >>= (fun trees => .ok (node .document [(Role.fields, trees)])) = .ok t ↔ _
  rw [bind_eq_ok, fieldsOutcome]
  cases fields tokens with
  | error s => simp [Except.map]
  | ok trees => simp [Except.map, eq_comm]

/-- What stops the parser is found behind tokens with which a document begins, and whatever
follows the token that is found there, the parser is stopped. -/
theorem ofTokens_eq_error {tokens : Tokens} {s : Stuck} (h : ofTokens tokens = .error s) :
    ∃ front, tokens = front ++ s.offending ∧ s.Tells front ∧ Begins Derivation.tokens front ∧
      ∀ t more, s.offending = t :: more → ∀ more' tree,
        ofTokens (front ++ t :: more') ≠ .ok tree := by
  have hfields : fieldsOutcome tokens = .error s := by
    change fields tokens >>= (fun trees => .ok (node .document [(Role.fields, trees)])) = _ at h
    rcases bind_eq_error.mp h with h | ⟨trees, -, hok⟩
    · rw [fieldsOutcome, h]
      rfl
    · cases hok
  have hpredicts := fields_predicts tokens
  obtain ⟨front, htokens, htells, hbegins⟩ := hpredicts.begins hfields
  refine ⟨front, htokens, htells, hbegins, fun t more hoffending more' tree htree => ?_⟩
  rw [hoffending] at htokens
  rw [← List.nil_append (t :: more)] at hoffending
  obtain ⟨s', hs'⟩ := hpredicts.stuck_ahead htokens hfields hoffending more'
  obtain ⟨trees, hread, -⟩ := (ofTokens_eq_ok_iff _).mp htree
  cases hs'.symm.trans hread

end Rulebook.Document
