import Mathlib
import Rulebook.Proofs.Lowering.Nodes

/-! # Where lowering fails

Whatever tree is lowered, a failure is the failure of one node in it. An error of
lowering shows the kind and the children of that node. A fault of shape is made at
a node with a child in the wrong place: under a role that is read as a token, among
the options of a token, or as the sequence of a branch.
-/

namespace Rulebook.Lowering

/-- The roles of a kind of node under which its rule reads a token. -/
def lexemeRoles : NodeKind → List String
  | .field | .token | .option | .rule | .item => [Role.name]
  | .optionValue => valueRoles
  | .scalar => [Role.singleQuoted, Role.doubleQuoted, Role.identifier]
  | _ => []

/-- Why a value is no option: it is no sequence, or not one of two, or one of two of which the
first cannot be a name. -/
inductive NoOption : ShapeFault → Value → Prop
  | notASequence {v : Value} (items_eq : v.items? = none) : NoOption .notASequence v
  | notAPair {v : Value} {items : List Value} (items_eq : v.items? = some items)
      (not_two : items.length ≠ 2) : NoOption .notAPair v
  | notAKey {v name value : Value} (items_eq : v.items? = some [name, value])
      (not_key : name.isKey = false) : NoOption .notAKey v

/-- A node with a child in the wrong place, and the fault of shape that this is.
Only a node with plain data in it has nothing at all where a token is read. The fault of what
stands among the options of a token, or for the sequence of a branch, is told by what it is
lowered to. -/
inductive Misplaced : ShapeFault → Tree → Prop
  | lexeme {kind : NodeKind} {children : Children} {role : String} {found : Children.NotAToken}
      (reads : role ∈ lexemeRoles kind) (found_eq : children.lexeme? role = .error found) :
      Misplaced (.notAToken found) (.node kind.name children)
  | absent {kind : NodeKind} {children : Children} {role : String} {more : List Tree}
      (reads : role ∈ lexemeRoles kind) (under_eq : children.under role = Tree.absent :: more) :
      Misplaced (.noLexeme role) (.node kind.name children)
  | option {children : Children} {s : Tree} {v : Value} {f : ShapeFault}
      (under : s ∈ children.under Role.options) (other : s.isNodeOf NodeKind.option.name = false)
      (lower_eq : lower s = .ok v) (fault : NoOption f v) :
      Misplaced f (.node NodeKind.token.name children)
  | branch {children : Children} {s : Tree} {more : List Tree} {v : Value}
      (under_eq : children.under Role.value = s :: more)
      (other : s.isNodeOf NodeKind.sequence.name = false) (lower_eq : lower s = .ok v)
      (not_empty : v.isEmpty = false) (items_eq : v.items? = none) :
      Misplaced .notASequence (.node NodeKind.branch.name children)

/-- The node that a failure is about. -/
def FailsAt : LoweringFailure → Tree → Prop
  | .error e, t => t = .node e.nodeKind.name e.children
  | .shape f, t => Misplaced f t

/-- Lowering a node fails there or at a child. -/
def FailsFrom (kind : NodeKind) (children : Children) (e : LoweringFailure) : Prop :=
  FailsAt e (.node kind.name children) ∨ ∃ role, ∃ s ∈ children.under role, lower s = .error e

variable {kind : NodeKind} {children : Children} {role : String} {e : LoweringFailure}

/-! ## What a rule reads -/

theorem failsFrom_kid {s : Tree} (hs : s ∈ children.under role) (h : lower s = .error e) :
    FailsFrom kind children e := .inr ⟨role, s, hs, h⟩

theorem exists_of_all_eq_error (h : (outcomes children).all role = .error e) :
    ∃ s ∈ children.under role, lower s = .error e := by
  rw [Visits.all, outcomes_under] at h
  obtain ⟨kid, hkid, hfail⟩ := exists_of_mapM_eq_error h
  obtain ⟨s, hs, rfl⟩ := List.mem_map.mp hkid
  exact ⟨s, hs, hfail⟩

theorem failsFrom_all (h : (outcomes children).all role = .error e) :
    FailsFrom kind children e := by
  obtain ⟨s, hs, hfail⟩ := exists_of_all_eq_error h
  exact failsFrom_kid hs hfail

theorem failsFrom_first (h : (outcomes children).first role = .error e) :
    FailsFrom kind children e := by
  rw [first_outcomes] at h
  cases hunder : children.under role with
  | nil =>
      rw [hunder] at h
      simp at h
  | cons s more =>
      rw [hunder] at h
      exact failsFrom_kid (hunder ▸ List.mem_cons_self) h

theorem failsFrom_lexeme (reads : role ∈ lexemeRoles kind)
    (h : lexeme? (outcomes children) role = .error e) : FailsFrom kind children e := by
  unfold lexeme? at h
  rw [outcomes_children] at h
  cases hfound : children.lexeme? role with
  | ok s =>
      rw [hfound] at h
      cases h
  | error found =>
      rw [hfound] at h
      cases h
      exact .inl (.lexeme reads hfound)

theorem failsFrom_nameOf (reads : Role.name ∈ lexemeRoles kind)
    (h : nameOf (outcomes children) = .error e) : FailsFrom kind children e := by
  rcases bind_eq_error.mp h with hlexeme | ⟨s, -, hpure⟩
  · exact failsFrom_lexeme reads hlexeme
  · cases hpure

/-- A role that is used has a lexeme, unless nothing at all stands under it. -/
theorem exists_absent_of_lexeme? (used : isUsed (outcomes children) role = true)
    (h : lexeme? (outcomes children) role = .ok none) :
    ∃ more, children.under role = Tree.absent :: more := by
  rw [isUsed_outcomes] at used
  unfold lexeme? Children.lexeme? Children.first? at h
  rw [outcomes_children] at h
  cases hunder : children.under role with
  | nil => simp [hunder] at used
  | cons s more =>
      refine ⟨more, ?_⟩
      cases s with
      | leaf t => simp [hunder, Tree.isAbsent] at h
      | node kind grandchildren => simp [hunder, Tree.isAbsent, misshapen] at h
      | plain j =>
          cases j with
          | null => rfl
          | _ => simp [hunder, Tree.isAbsent, misshapen] at h

/-! ## Rule by rule -/

theorem failsFrom_document (h : document (outcomes children) = .error e) :
    FailsFrom .document children e := by
  rcases bind_eq_error.mp h with hfields | ⟨fields, -, hpure⟩
  · exact failsFrom_all hfields
  · cases hpure

theorem failsFrom_field (h : field (outcomes children) = .error e) :
    FailsFrom .field children e := by
  unfold field at h
  split at h
  · exact failsFrom_first h
  · rcases bind_eq_error.mp h with hname | ⟨name, -, htokens⟩
    · exact failsFrom_lexeme (by simp [lexemeRoles]) hname
    · split at htokens
      · rcases bind_eq_error.mp htokens with htokens | ⟨tokens, -, hpure⟩
        · exact failsFrom_all htokens
        · cases hpure
      · cases htokens

/-! ## Tokens -/

theorem isKey_textData (s : Option String) : (Value.data (Value.textData s)).isKey = true := by
  cases s <;> rfl

/-- A node of a kind, by its children. -/
theorem exists_children_of_isNodeOf {s : Tree} {name : String} (h : s.isNodeOf name = true) :
    ∃ grandchildren, s = .node name grandchildren := by
  cases s with
  | node found grandchildren => exact ⟨grandchildren, by rw [of_decide_eq_true h]⟩
  | leaf t => cases h
  | plain j => cases h

/-- Every option that is lowered joins the options before it. -/
theorem exists_addOption (options : List (Value × Value)) {v : Value}
    (h : lower (.node NodeKind.option.name children) = .ok v) :
    ∃ more, addOption options (.ok v) = .ok more := by
  rw [lower_kind] at h
  obtain ⟨name, hname, hrest⟩ := bind_eq_ok.mp h
  obtain ⟨value, -, hpair⟩ := bind_eq_ok.mp hrest
  obtain ⟨lexeme, -, hlexeme⟩ := bind_eq_ok.mp hname
  cases hlexeme
  cases hpair
  exact ⟨Value.putOption options (.data (Value.textData lexeme)) value, by
    simp [addOption, pair, Value.items?, isKey_textData]⟩

/-- Why a value does not join the options before it. -/
theorem addOption_eq_error {options : List (Value × Value)} {v : Value}
    (h : addOption options (.ok v) = .error e) : ∃ f, e = .shape f ∧ NoOption f v := by
  unfold addOption at h
  rw [ok_bind] at h
  rcases bind_eq_error.mp h with hpair | ⟨⟨name, value⟩, hpair, hkey⟩
  · unfold pair at hpair
    split at hpair
    · cases hpair
    · next items hother hitems =>
      cases hpair
      refine ⟨_, rfl, .notAPair hitems fun htwo => ?_⟩
      obtain ⟨name, value, rfl⟩ := List.length_eq_two.mp htwo
      exact hother name value rfl
    · next hitems =>
      cases hpair
      exact ⟨_, rfl, .notASequence hitems⟩
  · unfold pair at hpair
    split at hpair
    · next hitems =>
      cases hpair
      simp only at hkey
      split at hkey
      · cases hkey
      · next hnot =>
        cases hkey
        exact ⟨_, rfl, .notAKey hitems (Bool.eq_false_iff.mpr hnot)⟩
    · cases hpair
    · cases hpair

theorem failsFrom_token (h : token (outcomes children) = .error e) :
    FailsFrom .token children e := by
  unfold token at h
  rcases bind_eq_error.mp h with hoptions | ⟨options, -, hname⟩
  · obtain ⟨kid, hkid, options, hadd⟩ := exists_of_foldlM_eq_error hoptions
    rw [outcomes_under] at hkid
    obtain ⟨s, hs, rfl⟩ := List.mem_map.mp hkid
    cases hlower : lower s with
    | error found =>
        rw [hlower] at hadd
        cases hadd
        exact failsFrom_kid hs hlower
    | ok v =>
        rw [hlower] at hadd
        obtain ⟨f, rfl, hfault⟩ := addOption_eq_error hadd
        refine .inl (.option hs ?_ hlower hfault)
        rw [Bool.eq_false_iff]
        intro hnode
        obtain ⟨grandchildren, rfl⟩ := exists_children_of_isNodeOf hnode
        obtain ⟨more, hmore⟩ := exists_addOption options hlower
        rw [hmore] at hadd
        cases hadd
  · rcases bind_eq_error.mp hname with hname | ⟨name, -, hpure⟩
    · exact failsFrom_nameOf (by simp [lexemeRoles]) hname
    · cases hpure

theorem failsFrom_option (h : option (outcomes children) = .error e) :
    FailsFrom .option children e := by
  unfold option at h
  rcases bind_eq_error.mp h with hname | ⟨name, -, hvalue⟩
  · exact failsFrom_nameOf (by simp [lexemeRoles]) hname
  · rcases bind_eq_error.mp hvalue with hvalue | ⟨value, -, hpure⟩
    · exact failsFrom_first hvalue
    · cases hpure

/-- There is no value without a lexeme, and none for a lexeme that is no number. -/
theorem valueOf_eq_error {lexeme : Option String}
    (h : valueOf (outcomes children) role lexeme = .error e) :
    (lexeme = none ∧ e = .shape (.noLexeme role)) ∨
      ∃ s, e = .error (.malformedValue role s (outcomes children).children) := by
  unfold valueOf at h
  split at h
  · cases h
  · split at h
    · cases h
    · split at h
      · cases h
      · cases lexeme with
        | none =>
            cases h
            exact .inl ⟨rfl, rfl⟩
        | some s =>
            right
            simp only at h
            split at h
            · split at h <;> cases h
              exact ⟨s, rfl⟩
            · split at h <;> cases h

theorem failsFrom_optionValue (h : optionValue (outcomes children) = .error e) :
    FailsFrom .optionValue children e := by
  unfold optionValue at h
  split at h
  · next role hrole =>
      have hread : role ∈ lexemeRoles .optionValue := List.mem_of_find?_eq_some hrole
      have hused : isUsed (outcomes children) role = true := List.find?_some hrole
      rcases bind_eq_error.mp h with hlexeme | ⟨lexeme, hlexeme, hvalue⟩
      · exact failsFrom_lexeme hread hlexeme
      · rcases valueOf_eq_error hvalue with ⟨rfl, rfl⟩ | ⟨s, rfl⟩
        · obtain ⟨more, hunder⟩ := exists_absent_of_lexeme? hused hlexeme
          exact .inl (.absent hread hunder)
        · rw [outcomes_children]
          exact .inl rfl
  · rw [outcomes_children] at h
    cases h
    exact .inl rfl

/-! ## Rules -/

theorem failsFrom_rules (h : rules (outcomes children) = .error e) :
    FailsFrom .rules children e := by
  rcases bind_eq_error.mp h with hrules | ⟨fields, -, hpure⟩
  · exact failsFrom_all hrules
  · cases hpure

theorem failsFrom_rule (h : rule (outcomes children) = .error e) :
    FailsFrom .rule children e := by
  unfold rule at h
  rcases bind_eq_error.mp h with hbody | ⟨parts, -, hname⟩
  · exact failsFrom_all hbody
  · rcases bind_eq_error.mp hname with hname | ⟨name, -, hpure⟩
    · exact failsFrom_nameOf (by simp [lexemeRoles]) hname
    · cases hpure

/-- What a sequence gives is empty or holds elements. -/
theorem items?_of_lower_sequence {value : Value}
    (h : lower (.node NodeKind.sequence.name children) = .ok value) :
    value.isEmpty = true ∨ value.items?.isSome = true := by
  rw [lower_kind, ruleFor, sequence] at h
  split at h
  · obtain ⟨values, -, hpure⟩ := bind_eq_ok.mp h
    cases hpure
    exact .inr rfl
  · cases h
    exact .inl rfl

theorem failsFrom_branch (h : branch (outcomes children) = .error e) :
    FailsFrom .branch children e := by
  unfold branch at h
  rcases bind_eq_error.mp h with hvalue | ⟨value, hvalue, hitems⟩
  · exact failsFrom_first hvalue
  · by_cases hempty : value.isEmpty = true
    · simp [hempty] at hitems
    · cases hsome : value.items? with
      | some elements => simp [hempty, hsome] at hitems
      | none =>
          simp only [hempty, hsome, Bool.false_eq_true, if_false] at hitems
          cases hitems
          rw [first_outcomes] at hvalue
          cases hunder : children.under Role.value with
          | nil =>
              -- a branch without a sequence is empty
              rw [hunder, List.head?_nil, Option.getD_none, lower_absent] at hvalue
              exact absurd (Except.ok.inj hvalue ▸ rfl) hempty
          | cons s more =>
              rw [hunder, List.head?_cons, Option.getD_some] at hvalue
              refine .inl (.branch hunder ?_ hvalue (Bool.eq_false_iff.mpr hempty) hsome)
              rw [Bool.eq_false_iff]
              intro hnode
              obtain ⟨grandchildren, rfl⟩ := exists_children_of_isNodeOf hnode
              rcases items?_of_lower_sequence hvalue with hfull | hitems
              · exact hempty hfull
              · rw [hsome] at hitems
                cases hitems

theorem failsFrom_sequence (h : sequence (outcomes children) = .error e) :
    FailsFrom .sequence children e := by
  unfold sequence at h
  split at h
  · rcases bind_eq_error.mp h with hall | ⟨values, -, hpure⟩
    · exact failsFrom_all hall
    · cases hpure
  · cases h

theorem failsFrom_choice (h : choice (outcomes children) = .error e) :
    FailsFrom .choice children e := by
  unfold choice at h
  rcases bind_eq_error.mp h with hbranches | ⟨branches, -, hpure⟩
  · obtain ⟨group, hgroup, hsplice⟩ := exists_of_mapM_eq_error hbranches
    rcases bind_eq_error.mp hsplice with hkids | ⟨values, -, hpure⟩
    · obtain ⟨kid, hkid, hfail⟩ := exists_of_mapM_eq_error hkids
      have hmem := Sequence.mem_of_mem_groups hgroup hkid
      rw [outcomes_under] at hmem
      obtain ⟨s, hs, rfl⟩ := List.mem_map.mp hmem
      exact failsFrom_kid hs hfail
    · cases hpure
  · split at hpure <;> cases hpure

theorem failsFrom_item (h : item (outcomes children) = .error e) :
    FailsFrom .item children e := by
  unfold item at h
  split at h
  · rw [outcomes_children] at h
    cases h
    exact .inl rfl
  · rcases bind_eq_error.mp h with hscalar | ⟨value, -, hmarks⟩
    · exact failsFrom_first hscalar
    · split at hmarks
      · rw [outcomes_children] at hmarks
        cases hmarks
        exact .inl rfl
      · rcases bind_eq_error.mp hmarks with hname | ⟨label, -, hpure⟩
        · exact failsFrom_lexeme (by simp [lexemeRoles]) hname
        · split at hpure <;> cases hpure

theorem failsFrom_literal (reads : role ∈ lexemeRoles .scalar)
    (used : isUsed (outcomes children) role = true)
    (h : literal (outcomes children) role = .error e) : FailsFrom .scalar children e := by
  unfold literal at h
  rcases bind_eq_error.mp h with hlexeme | ⟨lexeme, hlexeme, hmissing⟩
  · exact failsFrom_lexeme reads hlexeme
  · cases lexeme with
    | some s => cases hmissing
    | none =>
        cases hmissing
        obtain ⟨more, hunder⟩ := exists_absent_of_lexeme? used hlexeme
        exact .inl (.absent reads hunder)

theorem failsFrom_scalar (h : scalar (outcomes children) = .error e) :
    FailsFrom .scalar children e := by
  unfold scalar at h
  split at h
  · next hused => exact failsFrom_literal (by simp [lexemeRoles]) hused h
  · split at h
    · next hused => exact failsFrom_literal (by simp [lexemeRoles]) hused h
    · split at h
      · rcases bind_eq_error.mp h with hlexeme | ⟨lexeme, -, hpure⟩
        · exact failsFrom_lexeme (by simp [lexemeRoles]) hlexeme
        · cases hpure
      · split at h
        · exact failsFrom_first h
        · cases h

theorem failsFrom_group (h : group (outcomes children) = .error e) :
    FailsFrom .group children e := by
  unfold group at h
  split at h
  · rw [outcomes_children] at h
    cases h
    exact .inl rfl
  · exact failsFrom_first h

/-- The rule of a kind fails at the node or at a child. -/
theorem failsFrom_rule_of_kind (h : ruleFor kind (outcomes children) = .error e) :
    FailsFrom kind children e := by
  cases kind with
  | document => exact failsFrom_document h
  | field => exact failsFrom_field h
  | token => exact failsFrom_token h
  | option => exact failsFrom_option h
  | optionValue => exact failsFrom_optionValue h
  | rules => exact failsFrom_rules h
  | rule => exact failsFrom_rule h
  | branch => exact failsFrom_branch h
  | sequence => exact failsFrom_sequence h
  | expression => exact failsFrom_first h
  | choice => exact failsFrom_choice h
  | item => exact failsFrom_item h
  | scalar => exact failsFrom_scalar h
  | group => exact failsFrom_group h

/-! ## Trees -/

/-- A tree whose lowering fails is a node of a known kind. -/
theorem exists_kind_of_lower_error {t : Tree} (h : lower t = .error e) :
    ∃ (kind : NodeKind) (children : Children), t = .node kind.name children := by
  cases t with
  | leaf token => simp at h
  | plain j => simp at h
  | node kind children =>
      by_cases hknown : ∃ known : NodeKind, known.name = kind
      · obtain ⟨known, rfl⟩ := hknown
        exact ⟨known, children, rfl⟩
      · rw [lower_unknown (not_exists.mp hknown)] at h
        cases h

/-- A failure is the failure of a node within the tree: the rule at the root fails
there or at a child, which is smaller. -/
theorem exists_failsAt {t : Tree} (h : lower t = .error e) :
    ∃ s, (s = t ∨ Tree.Below s t) ∧ FailsAt e s := by
  obtain ⟨kind, children, ht⟩ := exists_kind_of_lower_error h
  rw [ht, lower_kind] at h
  rcases failsFrom_rule_of_kind h with hhere | ⟨role, kid, hkid, hfail⟩
  · exact ⟨_, .inl ht.symm, hhere⟩
  · have hbelow : Tree.Below kid t := ht ▸ Tree.below_of_mem_under hkid
    obtain ⟨s, hs, hfails⟩ := exists_failsAt hfail
    refine ⟨s, .inr ?_, hfails⟩
    rcases hs with rfl | hs
    · exact hbelow
    · exact hs.trans hbelow
termination_by t.size
decreasing_by exact hbelow.size_lt

/-- Lowering a document fails below it, since a document only visits its fields. -/
theorem exists_failsAt_below_document
    (h : lower (.node NodeKind.document.name children) = .error e) :
    ∃ s, Tree.Below s (.node NodeKind.document.name children) ∧ FailsAt e s := by
  rw [lower_kind] at h
  rcases bind_eq_error.mp h with hfields | ⟨fields, -, hpure⟩
  · obtain ⟨field, hfield, hfail⟩ := exists_of_all_eq_error hfields
    have hbelow : Tree.Below field (.node NodeKind.document.name children) :=
      Tree.below_of_mem_under hfield
    obtain ⟨s, hs, hfails⟩ := exists_failsAt hfail
    refine ⟨s, ?_, hfails⟩
    rcases hs with rfl | hs
    · exact hbelow
    · exact hs.trans hbelow
  · cases hpure

/-- A document is lowered to a grammar, or to an error about a node below it,
unless a node below it has a child in the wrong place. -/
theorem attempt_document (children : Children) :
    match attempt (.node NodeKind.document.name children) with
    | .ok (.ok v) => ∃ fields, v = .grammar fields
    | .ok (.error e) =>
        Tree.Below (.node e.nodeKind.name e.children) (.node NodeKind.document.name children)
    | .error f => ∃ s, Tree.Below s (.node NodeKind.document.name children) ∧ Misplaced f s := by
  unfold attempt
  cases hlower : lower (.node NodeKind.document.name children) with
  | ok v =>
      rw [lower_kind] at hlower
      obtain ⟨fields, -, hgrammar⟩ := bind_eq_ok.mp hlower
      exact ⟨fields, (Except.ok.inj hgrammar).symm⟩
  | error e =>
      obtain ⟨s, hbelow, hfails⟩ := exists_failsAt_below_document hlower
      cases e with
      | error e =>
          rw [FailsAt] at hfails
          rw [hfails] at hbelow
          exact hbelow
      | shape f => exact ⟨s, hbelow, hfails⟩

/-- A token with a bare token among its options. -/
def bareOption : Tree :=
  .node NodeKind.document.name [(Role.fields, [.node NodeKind.field.name
    [(Role.name, [.leaf { kind := "IDENT", lexeme := "tokens" }]),
     (Role.tokens, [.node NodeKind.token.name
       [(Role.name, [.leaf { kind := "IDENT", lexeme := "T" }]),
        (Role.options, [.leaf { kind := "IDENT", lexeme := "skip" }])]])]])]

theorem attempt_bareOption : attempt bareOption = .error .notASequence := by
  cbv

end Rulebook.Lowering
