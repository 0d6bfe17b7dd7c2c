import Mathlib.Tactic
import Rulebook.Proofs.Document.Table
import Rulebook.Proofs.Lowering.Nodes
import Rulebook.Proofs.Lowering.WellFormed

/-! # Lowering trees that conform to the table

A tree whose nodes all conform to the table is lowered to a grammar that consists
of proper parts, with flat bodies, branches and tuples. The values on the way differ
more than for the tree of a text: an expression may be a choice without any item,
branches and sequences may alternate in a rule, and what a mark stands on may be
marked itself.
-/

namespace Rulebook

/-! ## Flat grammars -/

/-- An element of a flat body. Under a label or modifier stands an element, which
may have its own, or a tuple of elements. -/
inductive IsFlatElement : Value → Prop
  | ref (name : String) : IsFlatElement (.ref (.string name))
  | string (text : String) : IsFlatElement (.string (.string text))
  | choice {branches : List (List Value)} (several : 2 ≤ branches.length)
      (flat : ∀ branch ∈ branches, ∀ v ∈ branch, IsFlatElement v) :
      IsFlatElement (.choice branches)
  | named {value label modifier} (element : IsFlatElement value)
      (mark : IsMark label modifier) : IsFlatElement (.named value label modifier)
  | namedTuple {elements : List Value} {label modifier}
      (flat : ∀ v ∈ elements, IsFlatElement v) (mark : IsMark label modifier) :
      IsFlatElement (.named (.tuple elements) label modifier)

/-- A part of the body of a rule: an element, or a choice with a single branch. -/
inductive IsFlatPart : Value → Prop
  | element {v : Value} (element : IsFlatElement v) : IsFlatPart v
  | single {branch : List Value} (flat : ∀ v ∈ branch, IsFlatElement v) :
      IsFlatPart (.choice [branch])

/-- A rule with a flat body. -/
inductive IsFlatRule : Value → Prop
  | intro (name : String) {body : List Value} (flat : ∀ v ∈ body, IsFlatPart v) :
      IsFlatRule (.ruleDef (.string name) body)

/-- A field of a grammar with flat bodies. -/
inductive IsFlatField : Value → Prop
  | tokens {declarations : List Value} (ok : ∀ v ∈ declarations, IsDeclaration v) :
      IsFlatField (.tokenSection declarations (.string "tokens"))
  | rules {rules : List Value} (ok : ∀ v ∈ rules, IsFlatRule v) :
      IsFlatField (.rulesField rules (.string "rules"))
  | other (name : String) : IsFlatField (.otherField (.string name))

/-- A grammar with flat bodies. -/
inductive IsFlatGrammar : Value → Prop
  | intro {fields : List Value} (ok : ∀ v ∈ fields, IsFlatField v) : IsFlatGrammar (.grammar fields)

namespace Lowering

open Rulebook.Tree (Row Conforms IsToken IsNode IsValueToken IsScalarPart scalarRoles)

/-- A value that dissolves into flat elements: one of them, or a list. -/
inductive Melts : Value → Prop
  | element {v : Value} (element : IsFlatElement v) : Melts v
  | list {elements : List Value} (flat : ∀ v ∈ elements, IsFlatElement v) : Melts (.list elements)

/-- A part of a body before it is put together. -/
inductive IsBodyPart : Value → Prop
  | nothing : IsBodyPart Value.nothing
  | list {elements : List Value} (flat : ∀ v ∈ elements, IsFlatElement v) :
      IsBodyPart (.list elements)
  | branch {elements : List Value} (flat : ∀ v ∈ elements, IsFlatElement v) :
      IsBodyPart (.branch elements)

/-- What a conforming node of each kind gives. -/
def Gives (kind : NodeKind) (v : Value) : Prop :=
  match kind with
  | .document => IsFlatGrammar v
  | .field => IsFlatField v
  | .token => IsDeclaration v
  | .option => ∃ key value, v = .tuple [.data (.string key), value] ∧ IsOptionValue value
  | .optionValue => IsOptionValue v
  | .rules => IsFlatField v
  | .rule => IsFlatRule v
  | .branch => IsBodyPart v
  | .sequence => IsBodyPart v ∧ v.isBranch = false
  | .expression | .choice | .item | .scalar | .group => Melts v

/-- A tree is lowered to what a node of its kind gives. -/
def Lowers (s : Tree) : Prop :=
  ∀ kind : NodeKind, s.IsNode kind → ∃ v, lower s = .ok v ∧ Gives kind v

variable {children : Children} {role : String}

/-! ## Children that are lowered -/

theorem exists_all {P : Value → Prop}
    (h : ∀ s ∈ children.under role, ∃ v, lower s = .ok v ∧ P v) :
    ∃ vs, (outcomes children).all role = .ok vs ∧ ∀ v ∈ vs, P v := by
  have houtcomes : ∀ kid ∈ (outcomes children).under role, ∃ v, kid.2 = .ok v ∧ P v := by
    intro kid hkid
    rw [outcomes_under] at hkid
    obtain ⟨s, hs, rfl⟩ := List.mem_map.mp hkid
    exact h s hs
  obtain ⟨vs, hvs, -, hP⟩ := exists_mapM_eq_ok houtcomes
  exact ⟨vs, hvs, hP⟩

theorem exists_first {sort : Tree → Prop} {P : Value → Prop} (one : children.One role sort)
    (h : ∀ s ∈ children.under role, sort s → ∃ v, lower s = .ok v ∧ P v) :
    ∃ v, (outcomes children).first role = .ok v ∧ P v := by
  obtain ⟨s, hunder, hsort⟩ := one
  obtain ⟨v, hlower, hP⟩ := h s (by rw [hunder]; exact List.mem_cons_self) hsort
  refine ⟨v, ?_, hP⟩
  rw [first_outcomes, hunder, List.head?_cons, Option.getD_some, hlower]

theorem first?_of_one {kind : NodeKind} {sort : Tree → Prop} (one : children.One role sort)
    (h : ∀ s, sort s → s.IsNode kind) : (children.first? role).isSome := by
  obtain ⟨s, hunder, hsort⟩ := one
  obtain ⟨grandchildren, rfl⟩ := h s hsort
  simp [Children.first?, hunder, Tree.isAbsent]

theorem exists_lexeme {sort : Tree → Prop} (one : children.One role sort)
    (h : ∀ s, sort s → s.IsToken) :
    ∃ t : Leaf, children.under role = [.leaf t] ∧
      lexeme? (outcomes children) role = .ok (some t.lexeme) := by
  obtain ⟨s, hunder, hsort⟩ := one
  obtain ⟨t, rfl⟩ := h s hsort
  refine ⟨t, hunder, ?_⟩
  simp [lexeme?, Children.lexeme?, Children.first?, hunder, Tree.isAbsent]

theorem exists_name (one : children.One Role.name IsToken) :
    ∃ name, lexeme? (outcomes children) Role.name = .ok (some name) ∧
      nameOf (outcomes children) = .ok (.string name) := by
  obtain ⟨t, -, hlexeme⟩ := exists_lexeme one fun _ h => h
  refine ⟨t.lexeme, hlexeme, ?_⟩
  rw [nameOf, hlexeme]
  rfl

theorem exists_label (h : children.AtMostOne Role.name IsToken) :
    ∃ label, lexeme? (outcomes children) Role.name = .ok label := by
  rcases h with hnone | one
  · exact ⟨none, lexeme?_of_under_nil hnone⟩
  · obtain ⟨name, hlexeme, -⟩ := exists_name one
    exact ⟨some name, hlexeme⟩

/-- Of the roles of which one is used, that one is found. -/
theorem find?_isUsed {roles : List String} {sort : Tree → Prop} (hrole : role ∈ roles)
    (one : children.One role sort)
    (others : ∀ other ∈ roles, other ≠ role → children.under other = []) :
    roles.find? (isUsed (outcomes children)) = some role := by
  obtain ⟨s, hunder, -⟩ := one
  induction roles with
  | nil => cases hrole
  | cons first rest ih =>
      by_cases hfirst : first = role
      · rw [List.find?_cons_of_pos (by simp [hfirst, hunder]), hfirst]
      · have hunused := others first List.mem_cons_self hfirst
        rw [List.find?_cons_of_neg (by simp [hunused])]
        refine ih ?_ fun other hother => others other (List.mem_cons_of_mem _ hother)
        exact (List.mem_cons.mp hrole).resolve_left (Ne.symm hfirst)

theorem gives_optionValue (row : Row .optionValue children) :
    ∃ v, optionValue (outcomes children) = .ok v ∧ IsOptionValue v := by
  obtain ⟨role, hrole, one, others⟩ := row
  have hfind := find?_isUsed hrole one others
  obtain ⟨t, hunder, hlexeme⟩ := exists_lexeme one fun s ⟨t, hs, _⟩ => ⟨t, hs⟩
  have hvalue : optionValue (outcomes children) =
      valueOf (outcomes children) role (some t.lexeme) := by
    rw [optionValue, hfind]
    simp only [hlexeme, ok_bind]
  rw [hvalue]
  simp only [valueRoles, List.mem_cons, List.not_mem_nil, or_false] at hrole
  rcases hrole with rfl | rfl | rfl | rfl | rfl | rfl | rfl
  · obtain ⟨s, hs, t', rfl, hnumber⟩ := one
    obtain rfl : t' = t := by simpa [hunder] using hs.symm
    obtain ⟨n, hn⟩ := Option.isSome_iff_exists.mp (hnumber rfl)
    refine ⟨.number n, ?_, Surface.isOptionValue_number hn⟩
    simp +decide [valueOf, hn]
  · exact ⟨regexValue t.lexeme, by simp +decide [valueOf], .regex _ _⟩
  · exact ⟨_, by simp +decide [valueOf]; rfl, .string _⟩
  · exact ⟨_, by simp +decide [valueOf]; rfl, .string _⟩
  · exact ⟨_, by simp +decide [valueOf]; rfl, .identifier _⟩
  · exact ⟨_, by simp +decide [valueOf]; rfl, .boolean _⟩
  · exact ⟨_, by simp +decide [valueOf]; rfl, .boolean _⟩

/-! ## Parts of bodies -/

theorem isFlatElement_splice {values : List Value} (h : ∀ v ∈ values, Melts v) :
    ∀ v ∈ Value.splice values, IsFlatElement v := by
  intro v hv
  obtain ⟨w, hw, hvw⟩ := List.mem_flatMap.mp hv
  cases h w hw with
  | list flat => exact flat v hvw
  | element element =>
      have hself : v = w := by
        cases element <;> exact List.mem_singleton.mp hvw
      rw [hself]
      exact element

/-- Under a label or modifier, what melts is one element or a tuple. -/
theorem isFlatElement_named {v : Value} (h : Melts v) {label mark : Json}
    (hmark : IsMark label mark) : IsFlatElement (.named (closeList v) label mark) := by
  cases h with
  | list flat => exact .namedTuple flat hmark
  | element element =>
      have hclose : closeList v = v := by cases element <;> rfl
      rw [hclose]
      exact .named element hmark

theorem modifier_mem (v : Visits) :
    modifier v ∈ ([.null, .string "optional", .string "many", .string "many1"] : List Json) := by
  unfold modifier
  split
  · simp
  · split
    · simp
    · split <;> simp

theorem isMark_of_modifier_mem {label : Option String} {mark : Json}
    (hmem : mark ∈ ([.null, .string "optional", .string "many", .string "many1"] : List Json))
    (h : label = none → mark = .null → False) : IsMark (Value.textData label) mark := by
  cases label with
  | none => exact ⟨.inl rfl, hmem, .inr (h rfl)⟩
  | some name => exact ⟨.inr ⟨name, rfl⟩, hmem, .inl Json.noConfusion⟩

theorem isFlatElement_branchElements {v : Value} (h : IsBodyPart v) :
    ∀ w ∈ branchElements v, IsFlatElement w := by
  cases h with
  | branch flat => exact flat
  | nothing => simp [branchElements, Value.nothing]
  | list flat => simp [branchElements]

/-- Several branches make a choice. -/
theorem isFlatElement_chooseAmong {run : List Value} (several : 2 ≤ run.length)
    (h : ∀ x ∈ run, IsBodyPart x ∧ x.isBranch = true) : IsFlatElement (chooseAmong run) := by
  refine .choice (by rwa [List.length_map]) ?_
  intro branch hbranch
  obtain ⟨x, hx, rfl⟩ := List.mem_map.mp hbranch
  exact isFlatElement_branchElements (h x hx).1

/-- A part that stands alone gives its elements, or a choice if it is a branch. -/
theorem isFlatPart_closeBranch {x v : Value} (h : IsBodyPart x) (hsome : x.isNone = false)
    (hv : v ∈ (Value.elements? (closeBranch x)).getD [closeBranch x]) : IsFlatPart v := by
  cases h with
  | nothing => cases hsome
  | list flat => exact .element (flat v hv)
  | branch flat =>
      rw [List.mem_singleton.mp hv]
      exact .single flat

/-- A body put together from parts is flat: every run of branches becomes a choice,
and lists are spliced in. -/
theorem isFlatPart_ruleBody {parts : List Value} (h : ∀ v ∈ parts, IsBodyPart v) :
    ∀ v ∈ ruleBody parts, IsFlatPart v := by
  intro v hv
  obtain ⟨closed, hclosed, hv⟩ := List.mem_flatMap.mp hv
  obtain ⟨merged, hmerged, rfl⟩ := List.mem_map.mp hclosed
  obtain ⟨run, hrun, rfl⟩ := List.mem_map.mp hmerged
  obtain ⟨hne, hmem, hkeys⟩ := Sequence.of_mem_runs hrun
  have hkept : ∀ x ∈ run, IsBodyPart x ∧ x.isNone = false := by
    intro x hx
    obtain ⟨hpart, hsome⟩ := List.mem_filter.mp (hmem x hx)
    exact ⟨h x hpart, by simpa using hsome⟩
  match run, hne, hkeys, hkept with
  | [x], _, _, hkept =>
      obtain ⟨hpart, hsome⟩ := hkept x List.mem_cons_self
      exact isFlatPart_closeBranch hpart hsome hv
  | first :: second :: more, _, hkeys, hkept =>
      have hbranches : ∀ x ∈ first :: second :: more, IsBodyPart x ∧ x.isBranch = true := by
        intro x hx
        refine ⟨(hkept x hx).1, ?_⟩
        have hkey := hkeys (by simp) x hx
        by_contra hbranch
        simp [hbranch] at hkey
      rw [List.mem_singleton.mp hv]
      exact .element (isFlatElement_chooseAmong (by simp) hbranches)

/-! ## Fields -/

/-- A field with a block of rules is lowered to what the block is. -/
theorem field_of_rules {s : Tree} (hunder : children.under Role.rules = [s])
    (hs : s.IsNode .rules) : field (outcomes children) = lower s := by
  have hfirst := first?_of_one ⟨s, hunder, hs⟩ fun _ h => h
  obtain ⟨t, ht⟩ := Option.isSome_iff_exists.mp hfirst
  rw [field, outcomes_children, ht]
  simp only [first_outcomes, hunder, List.head?_cons, Option.getD_some]

/-- A field without rules is a section of tokens, or is lowered to its name alone. -/
theorem field_of_name {name : String} (hnone : children.under Role.rules = [])
    (hname : lexeme? (outcomes children) Role.name = .ok (some name)) :
    field (outcomes children) =
      if name = "tokens" then
        ((children.under Role.tokens).mapM lower).map (.tokenSection · (.string "tokens"))
      else .ok (.otherField (.string name)) := by
  have hfirst : children.first? Role.rules = none := by rw [Children.first?, hnone]
  rw [field, outcomes_children, hfirst]
  simp only [hname, ok_bind, Option.some.injEq, all_outcomes_eq_mapM]
  split
  · cases (children.under Role.tokens).mapM lower <;> rfl
  · rfl

/-! ## Rule by rule -/

variable (kids : ∀ role, ∀ s ∈ children.under role, Lowers s)

include kids

theorem gives_option (row : Row .option children) :
    ∃ v, option (outcomes children) = .ok v ∧ Gives .option v := by
  obtain ⟨hname, hvalue⟩ := row
  obtain ⟨name, -, hnameOf⟩ := exists_name hname
  obtain ⟨value, hfirst, hok⟩ :=
    exists_first hvalue fun s hs hnode => kids Role.value s hs .optionValue hnode
  refine ⟨.tuple [.data (.string name), value], ?_, name, value, rfl, hok⟩
  rw [option, hnameOf, ok_bind, hfirst, ok_bind, pure_eq_ok]

theorem gives_token (row : Row .token children) :
    ∃ v, token (outcomes children) = .ok v ∧ IsDeclaration v := by
  obtain ⟨hname, hoptions⟩ := row
  obtain ⟨name, -, hnameOf⟩ := exists_name hname
  have hstep : ∀ kid ∈ (outcomes children).under Role.options, ∀ options,
      Surface.AreOptions options →
        ∃ next, addOption options kid.2 = .ok next ∧ Surface.AreOptions next := by
    intro kid hkid options hoptions'
    rw [outcomes_under] at hkid
    obtain ⟨s, hs, rfl⟩ := List.mem_map.mp hkid
    obtain ⟨v, hlower, key, value, rfl, hok⟩ := kids Role.options s hs .option (hoptions s hs)
    refine ⟨Value.putOption options (.data (.string key)) value, ?_,
      Surface.areOptions_putOption hoptions' key hok⟩
    rw [hlower]
    rfl
  obtain ⟨options, hfold, hok⟩ :=
    exists_foldlM_eq_ok (P := Surface.AreOptions) (b := []) (by simp [Surface.AreOptions]) hstep
  refine ⟨.tokenDef (.string name) options, ?_, .intro name hok⟩
  rw [token, hfold, ok_bind, hnameOf, ok_bind, pure_eq_ok]

theorem gives_group (row : Row .group children) :
    ∃ v, group (outcomes children) = .ok v ∧ Melts v := by
  obtain ⟨v, hfirst, hok⟩ :=
    exists_first row fun s hs hnode => kids Role.value s hs .expression hnode
  refine ⟨v, ?_, hok⟩
  obtain ⟨s, hs⟩ := Option.isSome_iff_exists.mp (first?_of_one row fun _ h => h)
  rw [group, outcomes_children, hs]
  exact hfirst

theorem gives_scalar (row : Row .scalar children) :
    ∃ v, scalar (outcomes children) = .ok v ∧ Melts v := by
  obtain ⟨role, hrole, one, others⟩ := row
  have hused : isUsed (outcomes children) role = true := by
    obtain ⟨s, hunder, -⟩ := one
    simp [hunder]
  have hunused : ∀ other ∈ scalarRoles, other ≠ role →
      isUsed (outcomes children) other = false := by
    intro other hother hne
    simp [others other hother hne]
  have htoken : role ≠ Role.group → ∃ t : Leaf,
      lexeme? (outcomes children) role = .ok (some t.lexeme) := by
    intro hne
    obtain ⟨t, -, hlexeme⟩ := exists_lexeme one fun s hs => by simpa [IsScalarPart, hne] using hs
    exact ⟨t, hlexeme⟩
  simp only [scalarRoles, List.mem_cons, List.not_mem_nil, or_false] at hrole
  rcases hrole with rfl | rfl | rfl | rfl
  · obtain ⟨t, hlexeme⟩ := htoken (by decide)
    refine ⟨.string (.string (unquote t.lexeme)), ?_, .element (.string _)⟩
    simp only [scalar, hused, if_true, literal, hlexeme, ok_bind, pure_eq_ok]
  · obtain ⟨t, hlexeme⟩ := htoken (by decide)
    refine ⟨.string (.string (unquote t.lexeme)), ?_, .element (.string _)⟩
    have hsingle := hunused Role.singleQuoted (by decide) (by decide)
    simp only [scalar, hused, hsingle, Bool.false_eq_true, if_true, if_false, literal, hlexeme,
      ok_bind, pure_eq_ok]
  · obtain ⟨t, hlexeme⟩ := htoken (by decide)
    refine ⟨.ref (.string t.lexeme), ?_, .element (.ref _)⟩
    have hsingle := hunused Role.singleQuoted (by decide) (by decide)
    have hdouble := hunused Role.doubleQuoted (by decide) (by decide)
    simp only [scalar, hused, hsingle, hdouble, Bool.false_eq_true, if_true, if_false, hlexeme,
      ok_bind, pure_eq_ok]
    rfl
  · obtain ⟨v, hfirst, hok⟩ := exists_first one fun s hs hnode =>
      kids Role.group s hs .group (by simpa [IsScalarPart] using hnode)
    have hsingle := hunused Role.singleQuoted (by decide) (by decide)
    have hdouble := hunused Role.doubleQuoted (by decide) (by decide)
    have hname := hunused Role.identifier (by decide) (by decide)
    refine ⟨v, ?_, hok⟩
    simp only [scalar, hused, hsingle, hdouble, hname, Bool.false_eq_true, if_true, if_false,
      hfirst]

theorem gives_item (row : Row .item children) :
    ∃ v, item (outcomes children) = .ok v ∧ Melts v := by
  obtain ⟨hname, hscalar⟩ := row
  obtain ⟨value, hfirst, hok⟩ :=
    exists_first hscalar fun s hs hnode => kids Role.scalar s hs .scalar hnode
  obtain ⟨s, hs⟩ := Option.isSome_iff_exists.mp (first?_of_one hscalar fun _ h => h)
  obtain ⟨label, hlabel⟩ := exists_label hname
  have hnone : value.isNone = false := by
    cases hok with
    | list flat => rfl
    | element element => cases element <;> rfl
  rw [item, outcomes_children, hs]
  simp only [hfirst, ok_bind, hnone, Bool.false_eq_true, if_false, hlabel]
  split
  · exact ⟨value, rfl, hok⟩
  · next hmark =>
      have hmark := isMark_of_modifier_mem (modifier_mem (outcomes children)) hmark
      exact ⟨_, rfl, .element (isFlatElement_named hok hmark)⟩

theorem gives_choice (row : Row .choice children) :
    ∃ v, choice (outcomes children) = .ok v ∧ Melts v := by
  have hgroups : ∀ group ∈ Sequence.groups (fun kid => !kid.1.isNodeOf NodeKind.item.name)
      ((outcomes children).under Role.elements),
      ∃ elements, (do return Value.splice (← group.mapM Prod.snd) : Outcome _) = .ok elements ∧
        ∀ v ∈ elements, IsFlatElement v := by
    intro group hgroup
    have hitems : ∀ kid ∈ group, ∃ v, kid.2 = .ok v ∧ Melts v := by
      intro kid hkid
      have hmem := Sequence.mem_of_mem_groups hgroup hkid
      have hnode := Sequence.not_isBoundary_of_mem_groups hgroup hkid
      rw [outcomes_under] at hmem
      obtain ⟨s, hs, rfl⟩ := List.mem_map.mp hmem
      rcases row s hs with hitem | ⟨t, rfl⟩
      · exact kids Role.elements s hs .item hitem
      · cases hnode
    obtain ⟨values, hvalues, -, hmelts⟩ := exists_mapM_eq_ok hitems
    exact ⟨Value.splice values, by rw [hvalues, ok_bind, pure_eq_ok], isFlatElement_splice hmelts⟩
  obtain ⟨branches, hbranches, hlength, hflat⟩ := exists_mapM_eq_ok hgroups
  have hne := List.length_pos_of_ne_nil (Sequence.groups_ne_nil
    (fun kid : Tree × Outcome Value => !kid.1.isNodeOf NodeKind.item.name)
    ((outcomes children).under Role.elements))
  rw [choice, hbranches, ok_bind]
  obtain - | ⟨elements, - | ⟨second, more⟩⟩ := branches
  · rw [← hlength] at hne
    cases hne
  · exact ⟨.list elements, rfl, .list (hflat elements List.mem_cons_self)⟩
  · exact ⟨_, rfl, .element (.choice (by simp) hflat)⟩

theorem gives_expression (row : Row .expression children) :
    ∃ v, expression (outcomes children) = .ok v ∧ Melts v := by
  refine exists_first row fun s hs hnode => ?_
  rcases hnode with hchoice | hitem
  · exact kids Role.value s hs .choice hchoice
  · exact kids Role.value s hs .item hitem

theorem gives_sequence (row : Row .sequence children) :
    ∃ v, sequence (outcomes children) = .ok v ∧ IsBodyPart v ∧ v.isBranch = false := by
  unfold sequence
  split
  · obtain ⟨values, hall, hmelts⟩ :=
      exists_all fun s hs => kids Role.expression s hs .expression (row s hs)
    refine ⟨.list (Value.splice values), ?_, .list (isFlatElement_splice hmelts), rfl⟩
    rw [hall, ok_bind, pure_eq_ok]
  · exact ⟨Value.nothing, rfl, .nothing, rfl⟩

theorem gives_branch (row : Row .branch children) :
    ∃ v, branch (outcomes children) = .ok v ∧ IsBodyPart v := by
  obtain ⟨value, hfirst, hok, hbranch⟩ :=
    exists_first row fun s hs hnode => kids Role.value s hs .sequence hnode
  rw [branch, hfirst, ok_bind]
  cases hok with
  | nothing => exact ⟨.branch [], rfl, .branch (by simp)⟩
  | branch flat => cases hbranch
  | @list elements flat =>
      refine ⟨.branch elements, ?_, .branch flat⟩
      cases elements <;> rfl

theorem gives_rule (row : Row .rule children) :
    ∃ v, rule (outcomes children) = .ok v ∧ IsFlatRule v := by
  obtain ⟨hname, hbody⟩ := row
  obtain ⟨name, -, hnameOf⟩ := exists_name hname
  have hparts : ∀ s ∈ children.under Role.body, ∃ v, lower s = .ok v ∧ IsBodyPart v := by
    intro s hs
    rcases hbody s hs with hsequence | hbranch
    · obtain ⟨v, hlower, hok, -⟩ := kids Role.body s hs .sequence hsequence
      exact ⟨v, hlower, hok⟩
    · exact kids Role.body s hs .branch hbranch
  obtain ⟨parts, hall, hok⟩ := exists_all hparts
  refine ⟨.ruleDef (.string name) (ruleBody parts), ?_, .intro name (isFlatPart_ruleBody hok)⟩
  rw [rule, hall, ok_bind, hnameOf, ok_bind, pure_eq_ok]

theorem gives_rules (row : Row .rules children) :
    ∃ v, rules (outcomes children) = .ok v ∧ IsFlatField v := by
  obtain ⟨defs, hall, hok⟩ := exists_all fun s hs => kids Role.rules s hs .rule (row s hs)
  exact ⟨.rulesField defs (.string "rules"), by rw [rules, hall, ok_bind, pure_eq_ok], .rules hok⟩

theorem gives_field (row : Row .field children) :
    ∃ v, field (outcomes children) = .ok v ∧ IsFlatField v := by
  rcases row with ⟨s, hunder, hs⟩ | ⟨hnone, hname, htokens⟩
  · rw [field_of_rules hunder hs]
    exact kids Role.rules s (by rw [hunder]; exact List.mem_cons_self) .rules hs
  · obtain ⟨name, hlexeme, -⟩ := exists_name hname
    obtain ⟨declarations, hall, hok⟩ :=
      exists_all fun s hs => kids Role.tokens s hs .token (htokens s hs)
    rw [all_outcomes_eq_mapM] at hall
    rw [field_of_name hnone hlexeme, hall]
    split
    · exact ⟨_, rfl, .tokens hok⟩
    · exact ⟨_, rfl, .other name⟩

theorem gives_document (row : Row .document children) :
    ∃ v, document (outcomes children) = .ok v ∧ IsFlatGrammar v := by
  obtain ⟨fields, hall, hok⟩ := exists_all fun s hs => kids Role.fields s hs .field (row s hs)
  exact ⟨.grammar fields, by rw [document, hall, ok_bind, pure_eq_ok], .intro hok⟩

/-- The rule of a kind gives what it should if the children are lowered. -/
theorem gives_of_row {kind : NodeKind} (row : Row kind children) :
    ∃ v, ruleFor kind (outcomes children) = .ok v ∧ Gives kind v := by
  cases kind with
  | document => exact gives_document kids row
  | field => exact gives_field kids row
  | token => exact gives_token kids row
  | option => exact gives_option kids row
  | optionValue => exact gives_optionValue row
  | rules => exact gives_rules kids row
  | rule => exact gives_rule kids row
  | branch => exact gives_branch kids row
  | sequence => exact gives_sequence kids row
  | expression => exact gives_expression kids row
  | choice => exact gives_choice kids row
  | item => exact gives_item kids row
  | scalar => exact gives_scalar kids row
  | group => exact gives_group kids row

omit kids

/-- Every conforming tree is lowered, by induction on the tree: the rule of a node
only uses what its children give. -/
theorem lowers_of_conforms {t : Tree} (h : Conforms t) : Lowers t := by
  induction h with
  | leaf token =>
      rintro kind ⟨children, hnode⟩
      cases hnode
  | @node kind children row kids ih =>
      rintro named ⟨grandchildren, hnode⟩
      obtain ⟨hname, -⟩ := Tree.node.inj hnode
      rw [← NodeKind.name_injective hname, lower_kind]
      exact gives_of_row ih row

/-- A document that conforms to the table is lowered to a grammar with flat bodies. -/
theorem lower_conforming {t : Tree} (h : Conforms t) (document : t.IsNode .document) :
    ∃ grammar, lower t = .ok grammar ∧ IsFlatGrammar grammar :=
  lowers_of_conforms h .document document

/-! ## Branches around a sequence

In a text the parts of a rule are either branches or one sequence, and no choice is
without elements. Here such a choice stands between two branches, which therefore do
not join. -/

/-- A branch without elements. -/
def emptyBranch : Tree :=
  .node NodeKind.branch.name [(Role.value, [.node NodeKind.sequence.name []])]

/-- A sequence that consists of a choice without elements. -/
def hollowSequence : Tree :=
  .node NodeKind.sequence.name [(Role.expression, [.node NodeKind.expression.name
    [(Role.value, [.node NodeKind.choice.name []])]])]

/-- A rule of which the parts alternate. -/
def alternatingRule : Tree :=
  .node NodeKind.rule.name
    [(Role.name, [.leaf { kind := "IDENT", lexeme := "r" }]),
     (Role.body, [emptyBranch, hollowSequence, emptyBranch])]

/-- A block with that rule. -/
def alternatingBlock : Tree := .node NodeKind.rules.name [(Role.rules, [alternatingRule])]

/-- A document with that block. -/
def alternatingParts : Tree :=
  .node NodeKind.document.name
    [(Role.fields, [.node NodeKind.field.name [(Role.rules, [alternatingBlock])]])]

theorem conforms_emptyBranch : Conforms emptyBranch := by
  have hsequence : Conforms (.node NodeKind.sequence.name []) :=
    .of_entries (by simp [Row, Children.Each]) (by simp)
  exact .of_entries (by simp [Row, Children.One, under_cons, IsNode]) (by simpa using hsequence)

theorem conforms_hollowSequence : Conforms hollowSequence := by
  have hchoice : Conforms (.node NodeKind.choice.name []) :=
    .of_entries (by simp [Row, Children.Each]) (by simp)
  have hexpression :
      Conforms (.node NodeKind.expression.name [(Role.value, [.node NodeKind.choice.name []])]) :=
    .of_entries (by simp [Row, Children.One, under_cons, IsNode]) (by simpa using hchoice)
  exact .of_entries (by simp [Row, Children.Each, under_cons, IsNode]) (by simpa using hexpression)

theorem conforms_alternatingRule : Conforms alternatingRule := by
  refine .of_entries ?_ ?_
  · simp +decide [Row, Children.One, Children.Each, under_cons, IsToken, IsNode, emptyBranch,
      hollowSequence]
  · simp [conforms_emptyBranch, conforms_hollowSequence, Conforms.leaf]

theorem conforms_alternatingParts : Conforms alternatingParts := by
  have hblock : Conforms alternatingBlock :=
    .of_entries (by simp [Row, Children.Each, under_cons, IsNode, alternatingRule])
      (by simpa using conforms_alternatingRule)
  have hfield : Conforms (.node NodeKind.field.name [(Role.rules, [alternatingBlock])]) :=
    .of_entries (by simp [Row, Children.One, under_cons, IsNode, alternatingBlock])
      (by simpa using hblock)
  exact .of_entries (by simp [Row, Children.Each, under_cons, IsNode]) (by simpa using hfield)

theorem lower_alternatingParts :
    ∃ grammar, lower alternatingParts = .ok grammar ∧ IsFlatGrammar grammar :=
  lower_conforming conforms_alternatingParts ⟨_, rfl⟩

example : lower alternatingParts = .ok (.grammar [.rulesField
    [.ruleDef (.string "r") [.choice [[]], .choice [[]]]] (.string "rules")]) := by
  cbv

end Lowering

end Rulebook
