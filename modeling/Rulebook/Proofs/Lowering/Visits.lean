import Rulebook.Lowering.Rules
import Rulebook.Proofs.Reading
import Rulebook.Proofs.Sequence

/-! # Lowering node by node

Lowering a node applies the rule of its kind to its children, each with the
outcome of its own lowering. How the visitor gets there does not show any more.
-/

namespace Rulebook.NodeKind

theorem ofName?_name (kind : NodeKind) : ofName? kind.name = some kind := by
  cases kind <;> rfl

theorem name_injective {a b : NodeKind} (h : a.name = b.name) : a = b := by
  rw [← Option.some_inj, ← ofName?_name a, ← ofName?_name b, h]

end Rulebook.NodeKind

namespace Rulebook.Lowering

open Document (node leaf)

/-- The children of a node with the outcomes of their lowering. -/
def outcomes (children : Children) : Visits :=
  { roles := children.map fun entry => (entry.1, entry.2.map fun s => (s, lower s))
    absent := lower Tree.absent }

theorem visits_ofNode (kind : String) (children : Children) :
    Visits.ofNode kind children (fun s _ => lower s) = outcomes children := by
  unfold Visits.ofNode outcomes
  congr 1
  simp only [List.map_attach_eq_pmap]
  simp [List.pmap_eq_map]

theorem handlers_lookup (kind : NodeKind) :
    visitor.handlers.lookup kind.name = some (Handler.ofVisits (ruleFor kind)) := by
  cases kind <;> rfl

/-- A node of a known kind is lowered by the rule of its kind. -/
theorem lower_kind (kind : NodeKind) (children : Children) :
    lower (.node kind.name children) = ruleFor kind (outcomes children) := by
  rw [lower, Visitor.visit, handlers_lookup, ← visits_ofNode kind.name]
  rfl

/-- The children as they are used: a role without children does not show. -/
theorem lower_node (kind : NodeKind) (roles : Children) :
    lower (node kind roles) =
      ruleFor kind (outcomes (roles.filter fun role => !role.2.isEmpty)) :=
  lower_kind kind _

/-! ## Children under a role -/

@[simp] theorem under_nil (role : String) : Children.under [] role = [] := rfl

theorem under_cons (r role : String) (kids : List Tree) (rest : Children) :
    Children.under ((r, kids) :: rest) role =
      if role = r then kids else Children.under rest role := by
  rw [Children.under, Sequence.lookup_cons_eq_ite]
  by_cases h : role = r
  · rw [if_pos h, if_pos h, Option.getD_some]
  · rw [if_neg h, if_neg h, Children.under]

theorem under_eq_nil {roles : Children} {role : String} (h : role ∉ roles.map Prod.fst) :
    Children.under roles role = [] := by
  induction roles with
  | nil => rfl
  | cons entry rest ih =>
      obtain ⟨r, kids⟩ := entry
      rw [List.map_cons, List.mem_cons, not_or] at h
      rw [under_cons, if_neg h.1]
      exact ih h.2

/-- Leaving out roles without children changes nothing under any role. -/
theorem under_filter {roles : Children} (h : (roles.map Prod.fst).Nodup) (role : String) :
    Children.under (roles.filter fun entry => !entry.2.isEmpty) role =
      Children.under roles role := by
  induction roles with
  | nil => rfl
  | cons entry rest ih =>
      obtain ⟨r, kids⟩ := entry
      rw [List.map_cons, List.nodup_cons] at h
      cases kids with
      | nil =>
          -- the entry is left out, and the role has no other one
          rw [List.filter_cons_of_neg (by simp), ih h.2, under_cons]
          by_cases hrole : role = r
          · rw [if_pos hrole, hrole, under_eq_nil h.1]
          · rw [if_neg hrole]
      | cons kid kids =>
          rw [List.filter_cons_of_pos (by simp), under_cons, under_cons, ih h.2]

/-- Lowering a node uses its children by role, whichever roles are left out. -/
theorem exists_children_of_node (kind : NodeKind) (roles : Children)
    (h : (roles.map Prod.fst).Nodup) :
    ∃ children : Children, lower (node kind roles) = ruleFor kind (outcomes children) ∧
      ∀ role, children.under role = Children.under roles role :=
  ⟨_, lower_node kind roles, under_filter h⟩

variable (children : Children) (role : String)

@[simp] theorem outcomes_children : (outcomes children).children = children := by
  simp [outcomes, Visits.children, Function.comp_def]

@[simp] theorem outcomes_under :
    (outcomes children).under role = (children.under role).map fun s => (s, lower s) := by
  induction children with
  | nil => rfl
  | cons entry rest ih =>
      obtain ⟨r, kids⟩ := entry
      rw [Visits.under, outcomes, List.map_cons, Sequence.lookup_cons_eq_ite, under_cons]
      by_cases hrole : role = r
      · rw [if_pos hrole, if_pos hrole, Option.getD_some]
      · rw [if_neg hrole, if_neg hrole]
        exact ih

theorem all_outcomes_eq_mapM : (outcomes children).all role = (children.under role).mapM lower := by
  rw [Visits.all, outcomes_under, List.mapM_map]
  rfl

@[simp] theorem first_outcomes :
    (outcomes children).first role = lower (((children.under role).head?).getD Tree.absent) := by
  rw [Visits.first, outcomes_under]
  cases children.under role <;> rfl

@[simp] theorem isUsed_outcomes :
    isUsed (outcomes children) role = !(children.under role).isEmpty := by
  simp [isUsed]

theorem lexeme?_of_under_cons {children : Children} {role : String} {t : Token TokenKind}
    {more : List Tree} (h : children.under role = leaf t :: more) :
    lexeme? (outcomes children) role = .ok (some t.lexeme) := by
  simp [lexeme?, Children.lexeme?, Children.first?, h, leaf, Tree.isAbsent, Token.toLeaf, Token.mapKind]

theorem lexeme?_of_under_nil {children : Children} {role : String} (h : children.under role = []) :
    lexeme? (outcomes children) role = .ok none := by
  simp [lexeme?, Children.lexeme?, Children.first?, h]

/-- The results for trees that are all lowered. -/
theorem mapM_lowered {δ : Type} {tree : δ → Tree} {value : δ → Value} {ds : List δ}
    (h : ∀ d ∈ ds, lower (tree d) = .ok (value d)) :
    ((ds.map tree).map fun s => (s, lower s)).mapM Prod.snd = .ok (ds.map value) := by
  induction ds with
  | nil => rfl
  | cons d rest ih =>
      have hrest := ih fun d' hd' => h d' (List.mem_cons_of_mem _ hd')
      simp only [List.map_cons, List.mapM_cons, h d List.mem_cons_self, hrest]
      rfl

end Rulebook.Lowering
