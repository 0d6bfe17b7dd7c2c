import Rulebook.Proofs.Lowering.Visits

/-! # Lowering any tree

What lowering does with a tree that need not come from a text: a node of a known
kind goes to the rule of its kind, whatever its children are, and all else stays
as it is.
-/

namespace Rulebook

theorem Children.exists_kids_of_mem_under {children : Children} {role : String} {s : Tree}
    (h : s ∈ children.under role) : ∃ kids, (role, kids) ∈ children ∧ s ∈ kids := by
  rw [under] at h
  cases hlookup : children.lookup role with
  | none =>
      rw [hlookup] at h
      cases h
  | some kids =>
      rw [hlookup, Option.getD_some] at h
      obtain ⟨front, back, rfl, -⟩ := List.lookup_eq_some_iff.mp hlookup
      exact ⟨kids, List.mem_append_right _ List.mem_cons_self, h⟩

/-- What stands under a role is below the node. -/
theorem Tree.below_of_mem_under {kind role : String} {children : Children} {s : Tree}
    (h : s ∈ children.under role) : Tree.Below s (.node kind children) := by
  obtain ⟨kids, hrole, hkid⟩ := Children.exists_kids_of_mem_under h
  exact .child hrole hkid

namespace Lowering

/-- A node of any other kind stays as it is. -/
theorem lower_unknown {kind : String} (h : ∀ known : NodeKind, known.name ≠ kind)
    (children : Children) : lower (.node kind children) = .ok (.tree (.node kind children)) := by
  have hlookup : visitor.handlers.lookup kind = none := by
    rw [List.lookup_eq_none_iff]
    intro entry hentry
    obtain ⟨known, -, rfl⟩ := List.mem_map.mp hentry
    exact bne_iff_ne.mpr (h known).symm
  rw [lower, Visitor.visit, hlookup]
  rfl

@[simp] theorem lower_leaf (t : Leaf) : lower (.leaf t) = .ok (.tree (.leaf t)) := by
  rw [lower, Visitor.visit]
  · rfl
  · intros
    contradiction

@[simp] theorem lower_plain (j : Json) : lower (.plain j) = .ok (Value.ofJson j) := by
  rw [lower, Visitor.visit]
  · rfl
  · intros
    contradiction

@[simp] theorem lower_absent : lower Tree.absent = .ok Value.nothing := lower_plain .null

end Lowering

end Rulebook
