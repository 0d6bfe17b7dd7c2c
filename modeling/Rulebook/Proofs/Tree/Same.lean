import Mathlib.Data.List.Perm.Subperm
import Rulebook.Proofs.Lowering.Nodes

/-! # Equality of trees

Two nodes are equal if they have equal children under every role, in whatever order they
list their roles. This is so for trees that list each role once, as trees do that are built
by adding children.
-/

namespace Rulebook.Tree

/-- Every node of a tree lists its roles once, and every other part is a token. -/
inductive IsKeyed : Tree → Prop
  | leaf (t : Leaf) : IsKeyed (.leaf t)
  | node {kind : String} {children : Children} (distinct : (children.map Prod.fst).Nodup)
      (kids : ∀ entry ∈ children, ∀ s ∈ entry.2, IsKeyed s) : IsKeyed (.node kind children)

theorem sameKids_iff {as bs : List Tree} :
    sameKids as bs ↔ List.Forall₂ (fun a b => a.same b) as bs := by
  induction as generalizing bs with
  | nil => cases bs <;> simp [sameKids]
  | cons a rest ih =>
      cases bs with
      | nil => simp [sameKids]
      | cons b more => rw [sameKids, Bool.and_eq_true, ih, List.forall₂_cons]

theorem sameRoles_iff {as bs : Children} :
    sameRoles as bs ↔ ∀ entry ∈ as, ∃ kids, bs.lookup entry.1 = some kids ∧
      sameKids entry.2 kids := by
  induction as with
  | nil => simp [sameRoles]
  | cons entry rest ih =>
      obtain ⟨role, kids⟩ := entry
      rw [sameRoles, Bool.and_eq_true, ih, List.forall_mem_cons]
      refine and_congr_left fun _ => ?_
      cases bs.lookup role <;> simp

/-- Equal children stand under the same roles. -/
theorem mem_roles_iff {as bs : Children} (distinct : (as.map Prod.fst).Nodup)
    (hlength : as.length = bs.length) (h : sameRoles as bs) (role : String) :
    role ∈ as.map Prod.fst ↔ role ∈ bs.map Prod.fst := by
  have hsubset : as.map Prod.fst ⊆ bs.map Prod.fst := by
    intro r hr
    obtain ⟨entry, hentry, rfl⟩ := List.mem_map.mp hr
    obtain ⟨_, hlookup, _⟩ := sameRoles_iff.mp h entry hentry
    rw [← Sequence.lookup_isSome_iff, hlookup, Option.isSome_some]
  have hperm : (as.map Prod.fst).Perm (bs.map Prod.fst) :=
    (List.subperm_of_subset distinct hsubset).perm_of_length_le (by simp [hlength])
  exact hperm.mem_iff

/-- Equal nodes have equal children under every role. -/
theorem sameKids_under {as bs : Children} (distinct : (as.map Prod.fst).Nodup)
    (hlength : as.length = bs.length) (h : sameRoles as bs) (role : String) :
    sameKids (as.under role) (bs.under role) := by
  by_cases hrole : role ∈ as.map Prod.fst
  · obtain ⟨entry, hentry, rfl⟩ := List.mem_map.mp hrole
    obtain ⟨kids, hlookup, hkids⟩ := sameRoles_iff.mp h entry hentry
    rwa [Children.under, Children.under, Sequence.lookup_of_mem distinct hentry, hlookup]
  · have hother := (mem_roles_iff distinct hlength h role).not.mp hrole
    rw [Lowering.under_eq_nil hrole, Lowering.under_eq_nil hother, sameKids]

theorem IsKeyed.same_self {t : Tree} (h : IsKeyed t) : t.same t := by
  induction h with
  | leaf t => simp [same]
  | node distinct kids ih =>
      rw [same, Bool.and_eq_true, Bool.and_eq_true]
      refine ⟨⟨beq_self_eq_true _, beq_self_eq_true _⟩, sameRoles_iff.mpr fun entry hentry => ?_⟩
      exact ⟨entry.2, Sequence.lookup_of_mem distinct hentry,
        sameKids_iff.mpr (List.forall₂_same.mpr (ih entry hentry))⟩

/-! ## Trees that differ in the order of roles -/

/-- Trees that list each role once and are equal, in whatever order they list their roles. -/
structure Alike (s t : Tree) : Prop where
  left : s.IsKeyed
  right : t.IsKeyed
  same : s.same t = true

namespace Alike

/-- Of trees that are alike both are the same token, or both are nodes of one kind. -/
theorem leaf_or_node {s t : Tree} (h : s.Alike t) :
    (∃ a, s = .leaf a ∧ t = .leaf a) ∨
      ∃ kind as bs, s = .node kind as ∧ t = .node kind bs := by
  obtain ⟨hleft, hright, hsame⟩ := h
  cases hleft with
  | leaf a =>
      cases hright with
      | leaf b =>
          rw [Tree.same, beq_iff_eq] at hsame
          exact .inl ⟨a, rfl, by rw [hsame]⟩
      | node _ _ => simp [Tree.same] at hsame
  | @node kind as _ _ =>
      cases hright with
      | leaf b => simp [Tree.same] at hsame
      | @node other bs _ _ =>
          simp only [Tree.same, Bool.and_eq_true, beq_iff_eq] at hsame
          exact .inr ⟨kind, as, bs, rfl, by rw [hsame.1.1]⟩

/-- Children of nodes that are alike are alike role by role. -/
theorem under {kind other : String} {as bs : Children}
    (h : (Tree.node kind as).Alike (.node other bs)) (role : String) :
    List.Forall₂ Alike (as.under role) (bs.under role) := by
  obtain ⟨hleft, hright, hsame⟩ := h
  cases hleft with
  | node distinct kids =>
      cases hright with
      | node _ others =>
          simp only [Tree.same, Bool.and_eq_true, beq_iff_eq] at hsame
          have hkids := sameKids_iff.mp (sameKids_under distinct hsame.1.2 hsame.2 role)
          obtain ⟨hlength, hzip⟩ := List.forall₂_iff_zip.mp hkids
          refine List.forall₂_iff_zip.mpr ⟨hlength, fun {s t} hpair => ?_⟩
          obtain ⟨hs, ht⟩ := List.of_mem_zip hpair
          obtain ⟨_, hentry, hs⟩ := Children.exists_kids_of_mem_under hs
          obtain ⟨_, hentry', ht⟩ := Children.exists_kids_of_mem_under ht
          exact ⟨kids _ hentry s hs, others _ hentry' t ht, hzip hpair⟩

end Alike

end Rulebook.Tree
