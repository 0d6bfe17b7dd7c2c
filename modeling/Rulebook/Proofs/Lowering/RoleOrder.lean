import Mathlib
import Rulebook.Proofs.Grammar.Alike
import Rulebook.Proofs.Json.RoundTrip
import Rulebook.Proofs.Lowering.Derivation
import Rulebook.Proofs.Lowering.Nodes

/-! # The order of roles does not matter

A rule asks for children by role, so it never sees in which order the roles of a node are
listed. Trees that differ in this order alone are lowered to values that are equal, or fail
alike; the order shows in what stays as it is, which is compared without regard to it.
-/

namespace Rulebook

/-- Errors of one kind and with one text, about nodes that are alike. -/
structure LoweringError.Alike (e f : LoweringError) : Prop where
  kind_eq : e.kind = f.kind
  text_eq : e.text = f.text
  node : (Tree.node e.nodeKind.name e.children).Alike (.node f.nodeKind.name f.children)

/-- Failures that differ at most in the order of the roles that they show. -/
def LoweringFailure.Alike : LoweringFailure → LoweringFailure → Prop
  | .error e, .error f => e.Alike f
  | .shape f, .shape g => f = g
  | _, _ => False

namespace Lowering

/-- Outcomes with results that are related, or failures that are alike. -/
abbrev Alike {α : Type} (R : α → α → Prop) (x y : Outcome α) : Prop :=
  Related LoweringFailure.Alike R x y

/-- Children of two nodes that are alike, lowered with outcomes that are. -/
structure Aligned (kind : NodeKind) (as bs : Children) : Prop where
  node : (Tree.node kind.name as).Alike (.node kind.name bs)
  kids : ∀ role, List.Forall₂ (fun s t => s.Alike t ∧ Alike Value.Alike (lower s) (lower t))
    (as.under role) (bs.under role)

theorem same_textData (s : Option String) :
    (Value.textData s).same (Value.textData s) = true := by
  cases s <;> simp [Value.textData, Json.same, Json.sameScalar]

theorem same_string (s : String) : (Json.string s).same (.string s) = true :=
  same_textData (some s)

theorem same_numberValue? {s : String} {n : Json} (h : numberValue? s = some n) :
    n.same n = true := by
  unfold numberValue? at h
  split at h
  · cases h
    simp [Json.same, Json.sameScalar, Json.asInt?]
  · obtain ⟨x, -, rfl⟩ := Option.map_eq_some_iff.mp h
    simp [Json.same, Json.sameScalar, x.same_self]

namespace Aligned

variable {kind : NodeKind} {as bs : Children}

/-! ## What a rule reads -/

theorem first? (h : Aligned kind as bs) (role : String) :
    Option.Rel Tree.Alike (as.first? role) (bs.first? role) := by
  have hkids := h.kids role
  unfold Children.first?
  generalize as.under role = ss at hkids ⊢
  generalize bs.under role = ts at hkids ⊢
  cases hkids with
  | nil => exact .none
  | cons hst _ =>
      rcases hst.1.leaf_or_node with ⟨_, rfl, rfl⟩ | ⟨_, _, _, rfl, rfl⟩ <;> exact .some hst.1

theorem lexeme? (h : Aligned kind as bs) (role : String) :
    Alike Eq (Lowering.lexeme? (outcomes as) role) (Lowering.lexeme? (outcomes bs) role) := by
  have hfirst := h.first? role
  unfold Lowering.lexeme? Children.lexeme?
  rw [outcomes_children, outcomes_children]
  generalize as.first? role = s? at hfirst ⊢
  generalize bs.first? role = t? at hfirst ⊢
  cases hfirst with
  | none => exact .ok rfl
  | some hst =>
      rcases hst.leaf_or_node with ⟨_, rfl, rfl⟩ | ⟨_, _, _, rfl, rfl⟩
      · exact .ok rfl
      · exact .error rfl

theorem nameOf (h : Aligned kind as bs) :
    Alike (fun a b => a = b ∧ a.same a = true) (Lowering.nameOf (outcomes as))
      (Lowering.nameOf (outcomes bs)) :=
  (h.lexeme? Role.name).bind fun name _ hname =>
    .ok ⟨congrArg Value.textData hname, same_textData name⟩

theorem isUsed_eq (h : Aligned kind as bs) : isUsed (outcomes as) = isUsed (outcomes bs) := by
  funext role
  have hlength := (h.kids role).length_eq
  rw [isUsed_outcomes, isUsed_outcomes, Bool.eq_iff_iff]
  simp [← List.length_eq_zero_iff, hlength]

theorem modifier_eq (h : Aligned kind as bs) : modifier (outcomes as) = modifier (outcomes bs) := by
  rw [modifier, modifier, h.isUsed_eq]

theorem all (h : Aligned kind as bs) (role : String) :
    Alike (List.Forall₂ Value.Alike) ((outcomes as).all role) ((outcomes bs).all role) := by
  rw [Visits.all, Visits.all, outcomes_under, outcomes_under]
  apply Related.mapM
  rw [List.forall₂_map_left_iff, List.forall₂_map_right_iff]
  exact (h.kids role).imp fun _ _ => And.right

theorem first (h : Aligned kind as bs) (role : String) :
    Alike Value.Alike ((outcomes as).first role) ((outcomes bs).first role) := by
  have hkids := h.kids role
  rw [first_outcomes, first_outcomes]
  generalize as.under role = ss at hkids ⊢
  generalize bs.under role = ts at hkids ⊢
  cases hkids with
  | nil =>
      rw [List.head?_nil, Option.getD_none, lower_absent]
      exact .ok (Value.alike_data (by simp [Json.same, Json.sameScalar]))
  | cons hst _ => exact hst.2

end Aligned

/-! ## What is made of it -/

theorem same_modifier (v : Visits) : (modifier v).same (modifier v) = true := by
  unfold modifier
  split
  · exact same_string _
  split
  · exact same_string _
  split
  · exact same_string _
  · exact same_textData none

theorem alike_otherField {name : Json} (h : name.same name = true) :
    (Value.otherField name).Alike (.otherField name) :=
  .self fun _ => by rw [Value.sameWith, h]

theorem alike_ref {name : Json} (h : name.same name = true) : (Value.ref name).Alike (.ref name) :=
  .self fun _ => by rw [Value.sameWith, h]

theorem alike_string (s : String) : (Value.string (.string s)).Alike (.string (.string s)) :=
  .self fun _ => by rw [Value.sameWith, same_string]

theorem alike_branchElements {v w : Value} (h : v.Alike w) :
    List.Forall₂ Value.Alike (branchElements v) (branchElements w) := by
  cases h with
  | branch length_eq elements => exact List.forall₂_iff_zip.mpr ⟨length_eq, elements⟩
  | self same =>
      cases v with
      | branch es =>
          simp only [Value.sameWith] at same
          exact Value.Alike.forall₂_self same
      | _ => exact .nil
  | _ => exact .nil

theorem alike_choiceBetween {as bs : List (List Value)}
    (h : List.Forall₂ (List.Forall₂ Value.Alike) as bs) :
    (Value.choice as).Alike (.choice bs) :=
  .choice h.length_eq (fun hp => (List.forall₂_zip h hp).length_eq)
    fun hp => List.forall₂_zip (List.forall₂_zip h hp)

theorem alike_chooseAmong {run run' : List Value} (h : List.Forall₂ Value.Alike run run') :
    (chooseAmong run).Alike (chooseAmong run') := by
  apply alike_choiceBetween
  rw [List.forall₂_map_left_iff, List.forall₂_map_right_iff]
  exact h.imp fun _ _ => alike_branchElements

theorem alike_closeBranch {v w : Value} (h : v.Alike w) :
    (closeBranch v).Alike (closeBranch w) := by
  rw [closeBranch, closeBranch, h.isBranch_eq]
  split
  · exact alike_chooseAmong (.cons h .nil)
  · exact h

theorem alike_ruleBody {as bs : List Value} (h : List.Forall₂ Value.Alike as bs) :
    List.Forall₂ Value.Alike (ruleBody as) (ruleBody bs) := by
  unfold ruleBody
  apply Value.Alike.forall₂_splice
  rw [List.forall₂_map_left_iff, List.forall₂_map_right_iff]
  refine (Sequence.forall₂_mergeRuns ?_ (fun _ _ => alike_chooseAmong) ?_).imp
    fun _ _ => alike_closeBranch
  · intro v w hvw
    rw [hvw.isBranch_eq]
  · refine List.rel_filter (fun v w hvw => ?_) h
    simp only [hvw.isNone_eq]

theorem alike_closeList {v w : Value} (h : v.Alike w) : (closeList v).Alike (closeList w) := by
  have hopen := h
  cases h with
  | list length_eq elements => exact .tuple length_eq elements
  | self same =>
      cases v with
      | list es =>
          simp only [Value.sameWith] at same
          exact .self fun ordered => by rw [closeList, Value.sameWith, same]
      | _ => exact hopen
  | _ => exact hopen

/-! ## Rule by rule -/

section Rules

variable {as bs : Children}

theorem alike_document (h : Aligned .document as bs) :
    Alike Value.Alike (document (outcomes as)) (document (outcomes bs)) :=
  (h.all Role.fields).bind fun _ _ hfields =>
    .ok (.grammar hfields.length_eq (List.forall₂_zip hfields))

theorem alike_field (h : Aligned .field as bs) :
    Alike Value.Alike (field (outcomes as)) (field (outcomes bs)) := by
  have hrules := h.first? Role.rules
  unfold field
  rw [outcomes_children, outcomes_children]
  generalize as.first? Role.rules = s? at hrules ⊢
  generalize bs.first? Role.rules = t? at hrules ⊢
  cases hrules with
  | some _ => exact h.first Role.rules
  | none =>
      refine (h.lexeme? Role.name).bind fun name _ hname => ?_
      rw [← hname]
      split
      · exact (h.all Role.tokens).bind fun _ _ htokens =>
          .ok (.tokenSection (same_string _) htokens.length_eq (List.forall₂_zip htokens))
      · exact .ok (alike_otherField (same_textData name))

/-! ### Tokens -/

theorem alike_pair {v w : Value} (h : v.Alike w) :
    Alike (fun a b => a.1.Alike b.1 ∧ a.2.Alike b.2) (pair v) (pair w) := by
  have hitems := h.items?
  unfold pair
  generalize v.items? = vs? at hitems ⊢
  generalize w.items? = ws? at hitems ⊢
  cases hitems with
  | none => exact .error rfl
  | some hitems =>
      cases hitems with
      | nil => exact .error rfl
      | cons hname hrest =>
          cases hrest with
          | nil => exact .error rfl
          | cons hvalue hmore =>
              cases hmore with
              | nil => exact .ok ⟨hname, hvalue⟩
              | cons _ _ => exact .error rfl

theorem alike_addOption {os os' : List (Value × Value)} {x y : Outcome Value}
    (h : List.Forall₂ Value.OptionAlike os os') (hxy : Alike Value.Alike x y) :
    Alike (List.Forall₂ Value.OptionAlike) (addOption os x) (addOption os' y) := by
  refine hxy.bind fun v w hvw => (alike_pair hvw).bind fun a b hab => ?_
  obtain ⟨name, value⟩ := a
  obtain ⟨name', value'⟩ := b
  simp only at hab ⊢
  rw [← hab.1.isKey_eq]
  split
  · next key =>
      obtain rfl := hab.1.eq_of_isKey key
      exact .ok (Value.forall₂_putOption h hab.1 hab.2)
  · exact .error rfl

theorem alike_options (h : Aligned .token as bs) :
    Alike (List.Forall₂ Value.OptionAlike)
      (((outcomes as).under Role.options).foldlM (fun options kid => addOption options kid.2) [])
      (((outcomes bs).under Role.options).foldlM (fun options kid => addOption options kid.2) []) := by
  apply Related.foldlM .nil
  rw [outcomes_under, outcomes_under, List.forall₂_map_left_iff, List.forall₂_map_right_iff]
  exact (h.kids Role.options).imp fun _ _ hst _ _ hos => alike_addOption hos hst.2

theorem alike_token (h : Aligned .token as bs) :
    Alike Value.Alike (token (outcomes as)) (token (outcomes bs)) := by
  refine (alike_options h).bind fun _ _ hoptions => h.nameOf.bind fun name _ hname => ?_
  obtain ⟨rfl, hname⟩ := hname
  exact .ok (Value.alike_tokenDef hname hoptions)

theorem alike_option (h : Aligned .option as bs) :
    Alike Value.Alike (option (outcomes as)) (option (outcomes bs)) := by
  refine h.nameOf.bind fun name _ hname => (h.first Role.value).bind fun _ _ hvalue => ?_
  obtain ⟨rfl, hname⟩ := hname
  have hitems := List.Forall₂.cons (Value.alike_data hname) (.cons hvalue .nil)
  exact .ok (.tuple hitems.length_eq (List.forall₂_zip hitems))

theorem alike_optionValue (h : Aligned .optionValue as bs) :
    Alike Value.Alike (optionValue (outcomes as)) (optionValue (outcomes bs)) := by
  unfold optionValue
  rw [h.isUsed_eq]
  split
  · next role _ =>
      refine (h.lexeme? role).bind fun lexeme _ hlexeme => ?_
      rw [← hlexeme]
      unfold valueOf
      split
      · exact .ok (.self fun _ => by rw [Value.sameWith, same_textData])
      split
      · exact .ok (.self fun _ => by simp [Value.sameWith, Json.same, Json.sameScalar, Json.asInt?])
      split
      · exact .ok (.self fun _ => by simp [Value.sameWith, Json.same, Json.sameScalar, Json.asInt?])
      cases lexeme with
      | none => exact .error rfl
      | some s =>
          simp only
          split
          · split
            · next n hn => exact .ok (.self fun _ => by rw [Value.sameWith, same_numberValue? hn])
            · rw [outcomes_children, outcomes_children]
              exact .error ⟨rfl, rfl, h.node⟩
          split
          · exact .ok (.self fun _ => by simp only [regexValue, Value.sameWith, same_string, Bool.and_self])
          · exact .ok (alike_string _)
  · rw [outcomes_children, outcomes_children]
    exact .error ⟨rfl, rfl, h.node⟩

/-! ### Rules -/

theorem alike_rules (h : Aligned .rules as bs) :
    Alike Value.Alike (rules (outcomes as)) (rules (outcomes bs)) :=
  (h.all Role.rules).bind fun _ _ hrules =>
    .ok (.rulesField (same_string _) hrules.length_eq (List.forall₂_zip hrules))

theorem alike_rule (h : Aligned .rule as bs) :
    Alike Value.Alike (rule (outcomes as)) (rule (outcomes bs)) := by
  refine (h.all Role.body).bind fun _ _ hparts => h.nameOf.bind fun name _ hname => ?_
  obtain ⟨rfl, hname⟩ := hname
  have hbody := alike_ruleBody hparts
  exact .ok (.ruleDef hname hbody.length_eq (List.forall₂_zip hbody))

theorem alike_branch (h : Aligned .branch as bs) :
    Alike Value.Alike (branch (outcomes as)) (branch (outcomes bs)) := by
  refine (h.first Role.value).bind fun v w hvw => ?_
  rw [hvw.isEmpty_eq]
  split
  · exact .ok (.branch rfl (by simp))
  · have hitems := hvw.items?
    generalize v.items? = vs? at hitems ⊢
    generalize w.items? = ws? at hitems ⊢
    cases hitems with
    | none => exact .error rfl
    | some hitems => exact .ok (.branch hitems.length_eq (List.forall₂_zip hitems))

theorem alike_sequence (h : Aligned .sequence as bs) :
    Alike Value.Alike (sequence (outcomes as)) (sequence (outcomes bs)) := by
  unfold sequence
  rw [h.isUsed_eq]
  split
  · refine (h.all Role.expression).bind fun _ _ hvalues => ?_
    have hspliced := Value.Alike.forall₂_splice hvalues
    exact .ok (.list hspliced.length_eq (List.forall₂_zip hspliced))
  · exact .ok (Value.alike_data (same_textData none))

/-- The children of a choice fall into groups of which each is lowered alike. -/
theorem alike_branches (h : Aligned .choice as bs) :
    Alike (List.Forall₂ (List.Forall₂ Value.Alike))
      (partOutcomes ((outcomes as).under Role.elements))
      (partOutcomes ((outcomes bs).under Role.elements)) := by
  have hkids : List.Forall₂
      (fun a b : Tree × Outcome Value => a.1.Alike b.1 ∧ Alike Value.Alike a.2 b.2)
      ((outcomes as).under Role.elements) ((outcomes bs).under Role.elements) := by
    rw [outcomes_under, outcomes_under, List.forall₂_map_left_iff, List.forall₂_map_right_iff]
    exact h.kids Role.elements
  have hbar : ∀ a b : Tree × Outcome Value, a.1.Alike b.1 ∧ Alike Value.Alike a.2 b.2 →
      isBar a = isBar b := by
    rintro ⟨s, _⟩ ⟨t, _⟩ ⟨hst, -⟩
    rcases hst.leaf_or_node with ⟨_, rfl, rfl⟩ | ⟨_, _, _, rfl, rfl⟩ <;> rfl
  refine Related.mapM ((Sequence.forall₂_groups hbar hkids).imp fun _ _ hgroup => ?_)
  exact (Related.mapM (hgroup.imp fun _ _ => And.right)).bind fun _ _ hvalues =>
    .ok (Value.Alike.forall₂_splice hvalues)

theorem alike_choice (h : Aligned .choice as bs) :
    Alike Value.Alike (choice (outcomes as)) (choice (outcomes bs)) := by
  refine (alike_branches h).bind fun _ _ hbranches => ?_
  cases hbranches with
  | nil => exact .ok (alike_choiceBetween .nil)
  | cons helements hrest =>
      cases hrest with
      | nil => exact .ok (.list helements.length_eq (List.forall₂_zip helements))
      | cons hnext hmore => exact .ok (alike_choiceBetween (.cons helements (.cons hnext hmore)))

theorem alike_item (h : Aligned .item as bs) :
    Alike Value.Alike (item (outcomes as)) (item (outcomes bs)) := by
  have hscalar := h.first? Role.scalar
  unfold item
  rw [outcomes_children, outcomes_children, h.modifier_eq]
  generalize as.first? Role.scalar = s? at hscalar ⊢
  generalize bs.first? Role.scalar = t? at hscalar ⊢
  cases hscalar with
  | none => exact .error ⟨rfl, rfl, h.node⟩
  | some _ =>
      refine (h.first Role.scalar).bind fun v w hvw => ?_
      rw [hvw.isNone_eq]
      split
      · exact .error ⟨rfl, rfl, h.node⟩
      · refine (h.lexeme? Role.name).bind fun label _ hlabel => ?_
        rw [← hlabel]
        split
        · exact .ok hvw
        · exact .ok (.named (alike_closeList hvw) (same_textData _) (same_modifier _))

theorem alike_literal {role : String} (h : Aligned .scalar as bs) :
    Alike Value.Alike (literal (outcomes as) role) (literal (outcomes bs) role) := by
  refine (h.lexeme? role).bind fun lexeme _ hlexeme => ?_
  rw [← hlexeme]
  cases lexeme with
  | none => exact .error rfl
  | some s => exact .ok (alike_string _)

theorem alike_scalar (h : Aligned .scalar as bs) :
    Alike Value.Alike (scalar (outcomes as)) (scalar (outcomes bs)) := by
  unfold scalar
  rw [h.isUsed_eq]
  split
  · exact alike_literal h
  split
  · exact alike_literal h
  split
  · refine (h.lexeme? Role.identifier).bind fun name _ hname => ?_
    rw [← hname]
    exact .ok (alike_ref (same_textData name))
  split
  · exact h.first Role.group
  · exact .ok (Value.alike_data (same_textData none))

theorem alike_group (h : Aligned .group as bs) :
    Alike Value.Alike (group (outcomes as)) (group (outcomes bs)) := by
  have hvalue := h.first? Role.value
  unfold group
  rw [outcomes_children, outcomes_children]
  generalize as.first? Role.value = s? at hvalue ⊢
  generalize bs.first? Role.value = t? at hvalue ⊢
  cases hvalue with
  | none => exact .error ⟨rfl, rfl, h.node⟩
  | some _ => exact h.first Role.value

end Rules

/-- The rule of a kind does not see the order of roles. -/
theorem alike_ruleFor {kind : NodeKind} {as bs : Children} (h : Aligned kind as bs) :
    Alike Value.Alike (ruleFor kind (outcomes as)) (ruleFor kind (outcomes bs)) := by
  cases kind with
  | document => exact alike_document h
  | field => exact alike_field h
  | token => exact alike_token h
  | option => exact alike_option h
  | optionValue => exact alike_optionValue h
  | rules => exact alike_rules h
  | rule => exact alike_rule h
  | branch => exact alike_branch h
  | sequence => exact alike_sequence h
  | expression => exact h.first Role.value
  | choice => exact alike_choice h
  | item => exact alike_item h
  | scalar => exact alike_scalar h
  | group => exact alike_group h

/-! ## Trees -/

/-- Trees that are alike are lowered alike. -/
theorem alike_lower {s t : Tree} (h : s.Alike t) : Alike Value.Alike (lower s) (lower t) := by
  obtain ⟨hs, ht, hsame⟩ := h
  induction hs generalizing t with
  | leaf a =>
      rcases (Tree.Alike.mk (.leaf a) ht hsame).leaf_or_node with ⟨b, hb, rfl⟩ | ⟨_, _, _, hb, -⟩
      · cases hb
        rw [lower_leaf]
        exact .ok (.tree ⟨.leaf a, ht, hsame⟩)
      · cases hb
  | @node kind as distinct kids ih =>
      have halike := Tree.Alike.mk (.node distinct kids) ht hsame
      rcases halike.leaf_or_node with ⟨_, hb, -⟩ | ⟨_, _, bs, hb, rfl⟩
      · cases hb
      cases hb
      by_cases hknown : ∃ known : NodeKind, known.name = kind
      · obtain ⟨known, rfl⟩ := hknown
        rw [lower_kind, lower_kind]
        refine alike_ruleFor ⟨halike, fun role => ?_⟩
        obtain ⟨hlength, hzip⟩ := List.forall₂_iff_zip.mp (halike.under role)
        refine List.forall₂_iff_zip.mpr ⟨hlength, fun {s t} hpair => ?_⟩
        obtain ⟨_, hentry, hs⟩ := Children.exists_kids_of_mem_under (List.of_mem_zip hpair).1
        have hst := hzip hpair
        exact ⟨hst, ih _ hentry s hs hst.right hst.same⟩
      · rw [lower_unknown (not_exists.mp hknown), lower_unknown (not_exists.mp hknown)]
        exact .ok (.tree halike)

/-- Trees of nodes and tokens that are equal are lowered to values that are equal, what is not
a number included, or fail with errors of one kind and text about equal nodes, or with one and
the same fault of shape. -/
theorem lower_ignores_roleOrder {s t : Tree} (hs : s.IsKeyed) (ht : t.IsKeyed)
    (h : s.same t = true) :
    match lower s, lower t with
    | .ok v, .ok w => v.same w = true ∧ v.isIndefinite = w.isIndefinite
    | .error e, .error f => e.Alike f
    | _, _ => False := by
  have hlower := alike_lower ⟨hs, ht, h⟩
  generalize lower s = x at hlower ⊢
  generalize lower t = y at hlower ⊢
  cases hlower with
  | ok hvw => exact ⟨hvw.sameWith false, hvw.isIndefinite_eq⟩
  | error hef => exact hef

/-- An option with a node for its value that no rule is for, where a function arranges the
roles of both. -/
def arrangedOption (arrange : Children → Children) : Tree :=
  .node NodeKind.option.name (arrange [(Role.name, [.leaf { kind := "IDENT", lexeme := "x" }]),
    (Role.value, [.node "other" (arrange [("a", []),
      ("b", [.leaf { kind := "NUMBER", lexeme := "1" }])])])])

/-- The roles of a node that stays as it is, and of the node above it, in reverse. -/
theorem lower_ignores_reversedRoles :
    match lower (arrangedOption id), lower (arrangedOption List.reverse) with
    | .ok v, .ok w => v.same w = true ∧ v.isIndefinite = w.isIndefinite
    | .error e, .error f => e.Alike f
    | _, _ => False := by
  have hkeyed : (arrangedOption id).IsKeyed := by
    refine .node (by decide) ?_
    simp [Tree.IsKeyed.leaf, Tree.IsKeyed.node]
  have hreversed : (arrangedOption List.reverse).IsKeyed := by
    refine .node (by decide) ?_
    simp [Tree.IsKeyed.leaf, Tree.IsKeyed.node]
  exact lower_ignores_roleOrder hkeyed hreversed (by decide)

/-! ## Not a number -/

/-- Equality of values that were made apart: what is not a number is equal to no other one. -/
def sameApart (v w : Value) : Bool := v.same w && !v.isIndefinite

/-- A value of an option that is not a number. -/
def notANumber : Tree :=
  .node NodeKind.optionValue.name [(Role.number, [.leaf { kind := "NUMBER", lexeme := "nan" }])]

/-- A sequence of not a number and `true`, which a token takes for an option. -/
def optionOfNotANumber : Tree :=
  .node NodeKind.sequence.name [(Role.expression, [notANumber,
    .node NodeKind.optionValue.name [(Role.true, [.leaf { kind := "IDENT", lexeme := "true" }])]])]

/-- Not a number is lowered to a value that is equal to no other one. So of two trees that are
equal, as options of a token, the second one does not replace the first. -/
theorem lower_notANumber_twice :
    notANumber.IsKeyed ∧ notANumber.same notANumber = true ∧
      ∃ v, lower notANumber = .ok v ∧ sameApart v v = false ∧
        lower (.node NodeKind.token.name
          [(Role.name, [.leaf { kind := "IDENT", lexeme := "T" }]),
            (Role.options, [optionOfNotANumber, optionOfNotANumber])]) =
          .ok (.tokenDef (.string "T")
            [(v, .boolean (.bool true)), (v, .boolean (.bool true))]) := by
  have hkeyed : notANumber.IsKeyed := by
    refine .node (by decide) ?_
    simp [Tree.IsKeyed.leaf]
  exact ⟨hkeyed, by decide, .number (.float (.nan false)), by cbv, by cbv, by cbv⟩

end Lowering

end Rulebook
