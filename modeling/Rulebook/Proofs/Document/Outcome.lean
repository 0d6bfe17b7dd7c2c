import Rulebook.Proofs.Surface.Steps

/-! # What becomes of a step

A step over tokens gives a value and the tokens that are left, or it is stuck. Without
the bounds on what is left every step is a function of the tokens alone, made of steps
that are done one after the other and of choices by the next token.
-/

namespace Rulebook.Document

/-- A value with the tokens that are left, or a fault. -/
abbrev Outcome (α : Type) := Except Stuck (α × Tokens)

variable {α β : Type} {bound limit : Nat}

/-- What becomes of a step. -/
def outcome (step : Step α bound) : Outcome α := step.map fun r => (r.value, r.rest)

/-- What becomes of a step and of another one over the tokens that it leaves. -/
def Outcome.andThen (x : Outcome α) (next : α → Tokens → Outcome β) : Outcome β :=
  Except.bind x fun r => next r.1 r.2

@[simp] theorem Outcome.ok_andThen (value : α) (rest : Tokens)
    (next : α → Tokens → Outcome β) :
    Outcome.andThen (.ok (value, rest)) next = next value rest := rfl

theorem Outcome.andThen_eq_ok {x : Outcome α} {next : α → Tokens → Outcome β} {b : β × Tokens} :
    x.andThen next = .ok b ↔ ∃ value rest, x = .ok (value, rest) ∧ next value rest = .ok b :=
  bind_eq_ok.trans Prod.exists

theorem Outcome.andThen_eq_error {x : Outcome α} {next : α → Tokens → Outcome β} {s : Stuck} :
    x.andThen next = .error s ↔
      x = .error s ∨ ∃ value rest, x = .ok (value, rest) ∧ next value rest = .error s :=
  bind_eq_error.trans (or_congr_right Prod.exists)

theorem Outcome.andThen_assoc {γ : Type} (x : Outcome α) (next : α → Tokens → Outcome β)
    (last : β → Tokens → Outcome γ) :
    (x.andThen next).andThen last = x.andThen fun value rest => (next value rest).andThen last := by
  cases x <;> rfl

theorem reads_of_outcome {step : Step α bound} {value : α} {rest : Tokens}
    (h : outcome step = .ok (value, rest)) : Reads step value rest := by
  obtain ⟨r, rfl, hr⟩ := exists_of_map_eq_ok h
  exact reads_ok.mpr (Prod.mk.inj hr)

theorem outcome_bind {first : Step α bound}
    {second : Reading (Token TokenKind) α bound → Step β limit} {next : α → Tokens → Outcome β}
    (h : ∀ r, outcome (second r) = next r.value r.rest) :
    outcome (first >>= second) = (outcome first).andThen next := by
  cases first with
  | error s => rfl
  | ok r => exact h r

theorem outcome_take_cons {kind : TokenKind} {t : Token TokenKind} (h : t.kind = kind)
    (rest : Tokens) : outcome (take kind (t :: rest)) = .ok (t, rest) := by
  rw [take, if_pos h]
  rfl

theorem nextKind_eq_of_head? {tokens tokens' : Tokens} (h : tokens.head? = tokens'.head?) :
    nextKind tokens = nextKind tokens' := by
  cases tokens with
  | nil =>
      cases tokens' with
      | nil => rfl
      | cons t rest => cases h
  | cons t rest =>
      cases tokens' with
      | nil => cases h
      | cons t' rest' => rw [nextKind, nextKind, Option.some.inj h]

section

variable (tokens : Tokens)

/-! ## Options and declarations -/

theorem outcome_option : outcome (option tokens) =
    (outcome (take .identifier tokens)).andThen fun name tokens =>
    (outcome (take .colon tokens)).andThen fun _ tokens =>
    (outcome (optionValue tokens)).andThen fun value tokens =>
      .ok (node .option [(Role.name, [leaf name]), (Role.value, [value])], tokens) :=
  outcome_bind fun _ => outcome_bind fun _ => outcome_bind fun _ => rfl

theorem outcome_options : outcome (options tokens) =
    if nextKind tokens = .closeBrace then .ok ([], tokens)
    else (outcome (option tokens)).andThen fun first tokens =>
      if nextKind tokens = .comma then
        (outcome (take .comma tokens)).andThen fun _ tokens =>
        (outcome (options tokens)).andThen fun more tokens => .ok (first :: more, tokens)
      else .ok ([first], tokens) := by
  rw [options]
  split
  · rfl
  · refine outcome_bind ?_
    rintro ⟨first, rest, hshort⟩
    cases rest with
    | nil => rfl
    | cons t rest =>
        by_cases hcomma : t.kind = .comma
        · simp only [hcomma, if_true, nextKind, outcome_take_cons hcomma, Outcome.ok_andThen]
          exact outcome_bind fun _ => rfl
        · simp only [hcomma, if_false, nextKind]
          rfl

theorem outcome_token : outcome (token tokens) =
    (outcome (take .identifier tokens)).andThen fun name tokens =>
    (outcome (take .colon tokens)).andThen fun _ tokens =>
    (outcome (take .openBrace tokens)).andThen fun _ tokens =>
    (outcome (options tokens)).andThen fun options tokens =>
    (outcome (take .closeBrace tokens)).andThen fun _ tokens =>
      .ok (node .token [(Role.name, [leaf name]), (Role.options, options)], tokens) :=
  outcome_bind fun _ => outcome_bind fun _ => outcome_bind fun _ => outcome_bind fun _ =>
    outcome_bind fun _ => rfl

theorem outcome_tokenList : outcome (tokenList tokens) =
    if nextKind tokens = .closeBrace then .ok ([], tokens)
    else (outcome (token tokens)).andThen fun first tokens =>
      (outcome (tokenList (skip .comma tokens))).andThen fun more tokens =>
        .ok (first :: more, tokens) := by
  rw [tokenList]
  split
  · rfl
  · exact outcome_bind fun _ => outcome_bind fun _ => rfl

/-! ## Bodies of rules -/

/-- The tree of an item whose scalar is given, with the suffix that comes next. -/
def finishItem (label : List Tree) (scalar : Tree) (tokens : Tokens) : Outcome Tree :=
  .ok (node .item ([(Role.name, label), (Role.scalar, [scalar])] ++ (suffix tokens).value),
    (suffix tokens).rest)

theorem outcome_item : outcome (item tokens) =
    (outcome (scalar (label tokens).rest)).andThen (finishItem (label tokens).value) := by
  rw [item]
  exact outcome_bind fun _ => rfl

/-- A group without elements is found empty where its elements would stand. -/
theorem outcome_group {t : Token TokenKind} (h : t.kind = .openParen) :
    outcome (scalar (t :: tokens)) =
      (outcome (elements tokens)).andThen fun inside rest =>
        if inside.isEmpty then .error ⟨.emptyGroup, t :: rest⟩
        else (outcome (take .closeParen rest)).andThen fun _ rest =>
          .ok (node .scalar [(Role.group, [node .group [(Role.value, [node .expression
            [(Role.value, [node .choice [(Role.elements, inside)]])]])]])], rest) := by
  rw [scalar]
  simp only [h]
  cases hinside : elements tokens with
  | error s => rfl
  | ok inside =>
      rw [ok_bind]
      have hreads : Reads (elements tokens) inside.value inside.rest := by
        rw [hinside]
        exact reads_ok.mpr ⟨rfl, rfl⟩
      by_cases hempty : inside.value.isEmpty
      · have hrest : inside.rest = tokens := by
          rw [List.isEmpty_iff.mp hempty] at hreads
          rcases reads_elements.mp hreads with ⟨_, _, _, _, _, _, hcons⟩ |
            ⟨_, _, _, _, _, _, hcons⟩ | ⟨_, _, _, hrest⟩
          · cases hcons
          · cases hcons
          · exact hrest
        have hleft : (Except.error ⟨.emptyGroup, t :: tokens⟩ : Outcome Tree) =
            .error ⟨.emptyGroup, t :: inside.rest⟩ := by rw [hrest]
        rw [if_pos hempty]
        exact hleft.trans (if_pos hempty).symm
      · rw [if_neg hempty]
        exact (outcome_bind fun _ => rfl).trans (if_neg hempty).symm

theorem outcome_elements : outcome (elements tokens) =
    if nextKind tokens = .bar then
      (outcome (take .bar tokens)).andThen fun bar tokens =>
      (outcome (elements tokens)).andThen fun more tokens => .ok (leaf bar :: more, tokens)
    else if beginsItem (nextKind tokens) then
      (outcome (item tokens)).andThen fun first tokens =>
      (outcome (elements tokens)).andThen fun more tokens => .ok (first :: more, tokens)
    else .ok ([], tokens) := by
  cases tokens with
  | nil =>
      rw [elements]
      rfl
  | cons t rest =>
      rw [elements, nextKind]
      split
      · next hbar =>
          rw [outcome_take_cons hbar, Outcome.ok_andThen]
          exact outcome_bind fun _ => rfl
      · split
        · exact outcome_bind fun _ => outcome_bind fun _ => rfl
        · rfl

theorem outcome_expressions : outcome (expressions tokens) =
    if beginsItem (nextKind tokens) then
      (outcome (item tokens)).andThen fun first tokens =>
      (outcome (expressions tokens)).andThen fun more tokens =>
        .ok (node .expression [(Role.value, [first])] :: more, tokens)
    else .ok ([], tokens) := by
  rw [expressions]
  split
  · exact outcome_bind fun _ => outcome_bind fun _ => rfl
  · rfl

theorem outcome_sequence : outcome (sequence tokens) =
    (outcome (expressions tokens)).andThen fun items tokens =>
      .ok (node .sequence [(Role.expression, items)], tokens) :=
  outcome_bind fun _ => rfl

theorem outcome_branches : outcome (branches tokens) =
    if nextKind tokens = .bar then
      (outcome (take .bar tokens)).andThen fun _ tokens =>
      (outcome (sequence tokens)).andThen fun first tokens =>
      (outcome (branches tokens)).andThen fun more tokens => .ok (branch first :: more, tokens)
    else .ok ([], tokens) := by
  cases tokens with
  | nil =>
      rw [branches]
      rfl
  | cons t rest =>
      rw [branches, nextKind]
      split
      · next hbar =>
          rw [outcome_take_cons hbar, Outcome.ok_andThen]
          exact outcome_bind fun _ => outcome_bind fun _ => rfl
      · rfl

theorem outcome_rule : outcome (rule tokens) =
    (outcome (take .identifier tokens)).andThen fun name tokens =>
    (outcome (take .colon tokens)).andThen fun _ tokens =>
    (outcome (sequence tokens)).andThen fun first middle =>
    (outcome (branches middle)).andThen fun more tokens =>
      if nextKind tokens = .semicolon then
        (outcome (take .semicolon tokens)).andThen fun _ tokens =>
          .ok (node .rule [(Role.name, [leaf name]), (Role.body, leading first middle ++ more)],
            tokens)
      else .error ⟨.missingSemicolon name.lexeme (nextKind tokens).name, tokens⟩ := by
  refine outcome_bind fun name => outcome_bind fun _ => outcome_bind fun first => outcome_bind ?_
  rintro ⟨more, rest, hshort⟩
  cases rest with
  | nil => rfl
  | cons t rest =>
      by_cases hend : t.kind = .semicolon
      · simp only [hend, if_true, nextKind, outcome_take_cons hend, Outcome.ok_andThen]
        rfl
      · simp only [hend, if_false, nextKind]
        rfl

theorem outcome_ruleList : outcome (ruleList tokens) =
    if nextKind tokens = .closeBrace then .ok ([], tokens)
    else (outcome (rule tokens)).andThen fun first tokens =>
      (outcome (ruleList tokens)).andThen fun more tokens => .ok (first :: more, tokens) := by
  rw [ruleList]
  split
  · rfl
  · exact outcome_bind fun _ => outcome_bind fun _ => rfl

/-! ## Fields -/

theorem outcome_fieldBody (name : Token TokenKind) : outcome (fieldBody name tokens) =
    if nextKind tokens = .openBrace then
      (outcome (take .openBrace tokens)).andThen fun _ tokens =>
      (outcome (tokenList tokens)).andThen fun declared tokens =>
      (outcome (take .closeBrace tokens)).andThen fun _ tokens =>
        .ok (node .field [(Role.name, [leaf name]), (Role.tokens, declared)], tokens)
    else if nextKind tokens = .colon then
      (outcome (take .colon tokens)).andThen fun _ tokens =>
      (outcome (optionValue tokens)).andThen fun value tokens =>
        .ok (node .field [(Role.name, [leaf name]), (Role.value, [value])], tokens)
    else .error ⟨.expectedFieldBody name.lexeme (nextKind tokens).name, tokens⟩ := by
  cases tokens with
  | nil => rfl
  | cons t rest =>
      rw [fieldBody, nextKind]
      split
      · next hopen =>
          rw [outcome_take_cons hopen, Outcome.ok_andThen]
          exact outcome_bind fun _ => outcome_bind fun _ => rfl
      · split
        · next hcolon =>
            rw [outcome_take_cons hcolon, Outcome.ok_andThen]
            exact outcome_bind fun _ => rfl
        · rfl

theorem outcome_field : outcome (field tokens) =
    (outcome (take .identifier tokens)).andThen fun name tokens =>
      if name.lexeme = "rules" ∧ nextKind tokens = .openBrace then
        (outcome (take .openBrace tokens)).andThen fun _ tokens =>
        (outcome (ruleList tokens)).andThen fun rules tokens =>
        (outcome (take .closeBrace tokens)).andThen fun _ tokens =>
          .ok (node .field [(Role.rules, [node .rules [(Role.rules, rules)]])], tokens)
      else outcome (fieldBody name tokens) := by
  refine outcome_bind fun name => ?_
  split
  · have hrules : outcome (rules name.rest) =
        (outcome (take .openBrace name.rest)).andThen fun _ tokens =>
        (outcome (ruleList tokens)).andThen fun rules tokens =>
        (outcome (take .closeBrace tokens)).andThen fun _ tokens =>
          .ok (node .rules [(Role.rules, rules)], tokens) :=
      outcome_bind fun _ => outcome_bind fun _ => outcome_bind fun _ => rfl
    refine Eq.trans (b := (outcome (rules name.rest)).andThen fun block tokens =>
      .ok (node .field [(Role.rules, [block])], tokens)) (outcome_bind fun _ => rfl) ?_
    simp only [hrules, Outcome.andThen_assoc, Outcome.ok_andThen]
  · cases fieldBody name.value name.rest <;> rfl

/-- What becomes of reading all fields, which leaves no tokens. -/
def fieldsOutcome : Outcome (List Tree) := (fields tokens).map fun trees => (trees, [])

theorem fieldsOutcome_cons (t : Token TokenKind) : fieldsOutcome (t :: tokens) =
    (outcome (field (t :: tokens))).andThen fun first tokens =>
      (fieldsOutcome tokens).andThen fun more tokens => .ok (first :: more, tokens) := by
  rw [fieldsOutcome, fields]
  cases field (t :: tokens) with
  | error s => rfl
  | ok first =>
      have hmore : (outcome (Except.ok first)).andThen (fun first tokens =>
          (fieldsOutcome tokens).andThen fun more tokens => .ok (first :: more, tokens)) =
          (fieldsOutcome first.rest).andThen fun more tokens =>
            .ok (first.value :: more, tokens) := rfl
      rw [hmore, fieldsOutcome, ok_bind]
      cases fields first.rest <;> rfl

end

/-- A text is refused by the scanner, or by the parser once it has been scanned. -/
theorem parse_eq_error {text : String} {e : SyntaxError} (h : parse text = .error e) :
    Scan.ofChars text.toList = .error e ∨ ∃ scan s, Scan.ofChars text.toList = .ok scan ∧
      ofTokens scan.tokens = .error s ∧ e = s.toError text.toList scan := by
  unfold parse parseChars at h
  split at h
  · next found hscan => exact .inl (hscan.trans (congrArg _ (Except.error.inj h)))
  · next scan hscan =>
      split at h
      · cases h
      · next s hstuck => exact .inr ⟨scan, s, hscan, hstuck, (Except.error.inj h).symm⟩

end Rulebook.Document
