import Rulebook.Proofs.Grammar.Within
import Rulebook.Proofs.Related
import Rulebook.Proofs.Tree.Same

/-! # Values that differ in the order of roles

A tree that stays as it is brings the order of its roles into a value. Values that differ only
there are equal, and nothing that lowering asks of a value tells them apart. Names of options
are the same outright: a value with a node in it can be no key.
-/

namespace Rulebook.Value

/-- Values that differ at most in the order of roles of the trees within them. -/
inductive Alike : Value → Value → Prop
  | self {v : Value} (same : ∀ ordered, v.sameWith ordered v = true) : Alike v v
  | tree {s t : Tree} (trees : s.Alike t) : Alike (.tree s) (.tree t)
  | list {as bs : List Value} (length_eq : as.length = bs.length)
      (elements : ∀ {a b}, (a, b) ∈ as.zip bs → Alike a b) : Alike (.list as) (.list bs)
  | tuple {as bs : List Value} (length_eq : as.length = bs.length)
      (elements : ∀ {a b}, (a, b) ∈ as.zip bs → Alike a b) : Alike (.tuple as) (.tuple bs)
  | branch {as bs : List Value} (length_eq : as.length = bs.length)
      (elements : ∀ {a b}, (a, b) ∈ as.zip bs → Alike a b) : Alike (.branch as) (.branch bs)
  | grammar {as bs : List Value} (length_eq : as.length = bs.length)
      (fields : ∀ {a b}, (a, b) ∈ as.zip bs → Alike a b) : Alike (.grammar as) (.grammar bs)
  | tokenSection {as bs : List Value} {name : Json} (name_same : name.same name = true)
      (length_eq : as.length = bs.length) (tokens : ∀ {a b}, (a, b) ∈ as.zip bs → Alike a b) :
      Alike (.tokenSection as name) (.tokenSection bs name)
  | rulesField {as bs : List Value} {name : Json} (name_same : name.same name = true)
      (length_eq : as.length = bs.length) (rules : ∀ {a b}, (a, b) ∈ as.zip bs → Alike a b) :
      Alike (.rulesField as name) (.rulesField bs name)
  | tokenDef {name : Json} {as bs : List (Value × Value)} (name_same : name.same name = true)
      (length_eq : as.length = bs.length) (names : ∀ {a b}, (a, b) ∈ as.zip bs → Alike a.1 b.1)
      (values : ∀ {a b}, (a, b) ∈ as.zip bs → Alike a.2 b.2) :
      Alike (.tokenDef name as) (.tokenDef name bs)
  | ruleDef {name : Json} {as bs : List Value} (name_same : name.same name = true)
      (length_eq : as.length = bs.length) (body : ∀ {a b}, (a, b) ∈ as.zip bs → Alike a b) :
      Alike (.ruleDef name as) (.ruleDef name bs)
  | choice {as bs : List (List Value)} (length_eq : as.length = bs.length)
      (lengths_eq : ∀ {a b}, (a, b) ∈ as.zip bs → a.length = b.length)
      (branches : ∀ {a b}, (a, b) ∈ as.zip bs → ∀ {v w}, (v, w) ∈ a.zip b → Alike v w) :
      Alike (.choice as) (.choice bs)
  | named {v w : Value} {label modifier : Json} (value : Alike v w)
      (label_same : label.same label = true) (modifier_same : modifier.same modifier = true) :
      Alike (.named v label modifier) (.named w label modifier)

/-- A value that carries data of its own and no further values is alike to itself. -/
theorem alike_data {j : Json} (h : j.same j = true) : Alike (.data j) (.data j) :=
  .self fun _ => by rw [sameWith, h]

namespace Alike

/-! ## Equality -/

/-- Values that differ in the order of roles alone are equal. -/
theorem sameWith {v w : Value} (h : v.Alike w) (ordered : Bool) : v.sameWith ordered w = true := by
  induction h generalizing ordered with
  | self same => exact same ordered
  | tree trees => rw [Value.sameWith, trees.same]
  | list length_eq _ ih | tuple length_eq _ ih | branch length_eq _ ih | grammar length_eq _ ih =>
      rw [Value.sameWith]
      exact sameAll_iff.mpr (List.forall₂_iff_zip.mpr ⟨length_eq, fun hpair => ih hpair ordered⟩)
  | tokenSection name_same length_eq _ ih | rulesField name_same length_eq _ ih
  | ruleDef name_same length_eq _ ih =>
      rw [Value.sameWith, name_same, sameAll_iff.mpr
        (List.forall₂_iff_zip.mpr ⟨length_eq, fun hpair => ih hpair ordered⟩)]
      rfl
  | @tokenDef name as bs name_same length_eq _ _ ihnames ihvalues =>
      have heach : sameEach ordered as bs = true :=
        sameEach_iff.mpr (List.forall₂_iff_zip.mpr
          ⟨length_eq, fun hpair => ⟨ihnames hpair ordered, ihvalues hpair ordered⟩⟩)
      have hoptions : sameOptions ordered as bs = true := by
        -- An option has an equal one at its own place among the others.
        refine sameOptions_iff.mpr fun a ha => ?_
        obtain ⟨i, hi, rfl⟩ := List.getElem_of_mem ha
        have hpair : (as[i], bs[i]) ∈ as.zip bs := by
          rw [← List.getElem_zip (h := by simp; omega)]
          exact List.getElem_mem _
        exact ⟨bs[i], List.getElem_mem _, ihnames hpair true, ihvalues hpair ordered⟩
      rw [Value.sameWith, name_same, length_eq, heach, hoptions]
      simp
  | choice length_eq lengths_eq _ ih =>
      rw [Value.sameWith]
      refine sameBranches_iff.mpr (List.forall₂_iff_zip.mpr ⟨length_eq, fun hpair => ?_⟩)
      exact sameAll_iff.mpr
        (List.forall₂_iff_zip.mpr ⟨lengths_eq hpair, fun hinner => ih hpair hinner ordered⟩)
  | named _ label_same modifier_same ih =>
      rw [Value.sameWith, ih ordered, label_same, modifier_same]
      rfl

/-! ## Parts -/

/-- A question that does not tell values apart does not do so within them. -/
theorem anyWithin_eq {p : Value → Bool} (own : ∀ v w, v.Alike w → p v = p w) {v w : Value}
    (h : v.Alike w) : v.anyWithin p = w.anyWithin p := by
  have howned := own v w h
  have hall : ∀ {as bs : List Value}, as.length = bs.length →
      (∀ {a b}, (a, b) ∈ as.zip bs → a.anyWithin p = b.anyWithin p) →
      anyAmong p as = anyAmong p bs := by
    intro as bs hlength hzip
    rw [anyAmong_eq_any, anyAmong_eq_any]
    exact Sequence.any_eq_of_forall₂ (List.forall₂_iff_zip.mpr ⟨hlength, hzip⟩)
  induction h with
  | self => rfl
  | tree => exact howned
  | list length_eq elements ih | tuple length_eq elements ih | branch length_eq elements ih
  | grammar length_eq elements ih =>
      rw [anyWithin, anyWithin, howned, hall length_eq fun hp => ih hp (own _ _ (elements hp))]
  | tokenSection name_same length_eq elements ih | rulesField name_same length_eq elements ih
  | ruleDef name_same length_eq elements ih =>
      rw [anyWithin, anyWithin, howned, hall length_eq fun hp => ih hp (own _ _ (elements hp))]
  | tokenDef name_same length_eq names values ihnames ihvalues =>
      rw [anyWithin, anyWithin, howned, anyAmongOptions_eq_any, anyAmongOptions_eq_any]
      congr 1
      refine Sequence.any_eq_of_forall₂ (List.forall₂_iff_zip.mpr ⟨length_eq, fun hp => ?_⟩)
      rw [ihnames hp (own _ _ (names hp)), ihvalues hp (own _ _ (values hp))]
  | choice length_eq lengths_eq branches ih =>
      rw [anyWithin, anyWithin, howned, anyAmongBranches_eq_any, anyAmongBranches_eq_any]
      congr 1
      refine Sequence.any_eq_of_forall₂ (List.forall₂_iff_zip.mpr ⟨length_eq, fun hp => ?_⟩)
      exact hall (lengths_eq hp) fun hq => ih hp hq (own _ _ (branches hp hq))
  | named value label_same modifier_same ih =>
      rw [anyWithin, anyWithin, howned, ih (own _ _ value)]

theorem isList_eq {v w : Value} (h : v.Alike w) : v.isList = w.isList := by
  cases h <;> rfl

theorem isNode_eq {v w : Value} (h : v.Alike w) : v.isNode = w.isNode := by
  cases h with
  | tree trees => rcases trees.leaf_or_node with ⟨a, rfl, rfl⟩ | ⟨_, _, _, rfl, rfl⟩ <;> rfl
  | _ => rfl

theorem ownData_eq {v w : Value} (h : v.Alike w) : v.ownData = w.ownData := by
  cases h with
  | tree trees => rcases trees.leaf_or_node with ⟨a, rfl, rfl⟩ | ⟨_, _, _, rfl, rfl⟩ <;> rfl
  | _ => rfl

theorem isKey_eq {v w : Value} (h : v.Alike w) : v.isKey = w.isKey := by
  rw [isKey, isKey, h.anyWithin_eq]
  intro a b hab
  rw [hab.isList_eq, hab.isNode_eq, hab.ownData_eq]

theorem isIndefinite_eq {v w : Value} (h : v.Alike w) : v.isIndefinite = w.isIndefinite := by
  rw [isIndefinite, isIndefinite, h.anyWithin_eq]
  intro a b hab
  rw [hab.ownData_eq]

theorem isNone_eq {v w : Value} (h : v.Alike w) : v.isNone = w.isNone := by
  cases h <;> rfl

theorem isBranch_eq {v w : Value} (h : v.Alike w) : v.isBranch = w.isBranch := by
  cases h <;> rfl

theorem isEmpty_eq {v w : Value} (h : v.Alike w) : v.isEmpty = w.isEmpty := by
  cases h with
  | list length_eq | tuple length_eq =>
      rw [isEmpty, isEmpty, Bool.eq_iff_iff, List.isEmpty_iff_length_eq_zero,
        List.isEmpty_iff_length_eq_zero, length_eq]
  | _ => rfl

/-- Values that are alike are the same outright if no node stands within them. -/
theorem eq_of_anyWithin_eq_false {p : Value → Bool} (nodes : ∀ v : Value, v.isNode → p v = true)
    {v w : Value} (h : v.Alike w) (flat : v.anyWithin p = false) : v = w := by
  have hall : ∀ {as bs : List Value}, as.length = bs.length →
      (∀ {a b}, (a, b) ∈ as.zip bs → a.anyWithin p = false → a = b) →
      anyAmong p as = false → as = bs := by
    intro as bs hlength hzip hflat
    rw [anyAmong_eq_any, List.any_eq_false] at hflat
    refine List.forall₂_eq_eq_eq ▸ List.forall₂_iff_zip.mpr ⟨hlength, fun hp => ?_⟩
    exact hzip hp (Bool.eq_false_iff.mpr (hflat _ (List.of_mem_zip hp).1))
  induction h with
  | self => rfl
  | tree trees =>
      rcases trees.leaf_or_node with ⟨a, rfl, rfl⟩ | ⟨kind, as, _, rfl, rfl⟩
      · rfl
      · have hown : p (.tree (.node kind as)) = false := flat
        rw [nodes _ rfl] at hown
        cases hown
  | list length_eq _ ih | tuple length_eq _ ih | branch length_eq _ ih | grammar length_eq _ ih
  | tokenSection _ length_eq _ ih | rulesField _ length_eq _ ih | ruleDef _ length_eq _ ih =>
      rw [anyWithin, Bool.or_eq_false_iff] at flat
      rw [hall length_eq ih flat.2]
  | @tokenDef name as bs _ length_eq _ _ ihnames ihvalues =>
      rw [anyWithin, anyAmongOptions_eq_any, Bool.or_eq_false_iff, List.any_eq_false] at flat
      have hoptions : as = bs := by
        refine List.forall₂_eq_eq_eq ▸ List.forall₂_iff_zip.mpr ⟨length_eq, fun hp => ?_⟩
        have hflat := flat.2 _ (List.of_mem_zip hp).1
        simp only [Bool.or_eq_true, not_or, Bool.not_eq_true] at hflat
        exact Prod.ext (ihnames hp hflat.1) (ihvalues hp hflat.2)
      rw [hoptions]
  | @choice as bs length_eq lengths_eq _ ih =>
      rw [anyWithin, anyAmongBranches_eq_any, Bool.or_eq_false_iff, List.any_eq_false] at flat
      have hbranches : as = bs := by
        refine List.forall₂_eq_eq_eq ▸ List.forall₂_iff_zip.mpr ⟨length_eq, fun hp => ?_⟩
        have hflat := flat.2 _ (List.of_mem_zip hp).1
        exact hall (lengths_eq hp) (fun hq => ih hp hq) (Bool.eq_false_iff.mpr hflat)
      rw [hbranches]
  | named _ _ _ ih =>
      rw [anyWithin, Bool.or_eq_false_iff] at flat
      rw [ih flat.2]

/-- Values that are alike are the same outright if they can be keys. -/
theorem eq_of_isKey {v w : Value} (h : v.Alike w) (key : v.isKey = true) : v = w := by
  rw [isKey, Bool.not_eq_true'] at key
  refine h.eq_of_anyWithin_eq_false (fun u hnode => ?_) key
  rw [hnode, Bool.or_true, Bool.true_or]

/-! ## Sequences -/

theorem forall₂_self {es : List Value} (h : ∀ ordered, sameAll ordered es es = true) :
    List.Forall₂ Alike es es :=
  List.forall₂_same.mpr fun e he => .self fun ordered =>
    List.forall₂_same.mp (sameAll_iff.mp (h ordered)) e he

theorem elements? {v w : Value} (h : v.Alike w) :
    Option.Rel (List.Forall₂ Alike) v.elements? w.elements? := by
  cases h with
  | list length_eq elements | tuple length_eq elements =>
      exact .some (List.forall₂_iff_zip.mpr ⟨length_eq, elements⟩)
  | self same =>
      cases v with
      | list es | tuple es =>
          simp only [Value.sameWith] at same
          exact .some (forall₂_self same)
      | _ => exact .none
  | _ => exact .none

theorem items? {v w : Value} (h : v.Alike w) :
    Option.Rel (List.Forall₂ Alike) v.items? w.items? := by
  have htext : ∀ s : String, Alike (.data (.string s)) (.data (.string s)) :=
    fun s => alike_data (by simp [Json.same, Json.sameScalar])
  cases h with
  | list length_eq elements | tuple length_eq elements =>
      exact .some (List.forall₂_iff_zip.mpr ⟨length_eq, elements⟩)
  | self same =>
      cases v with
      | list es | tuple es =>
          simp only [Value.sameWith] at same
          exact .some (forall₂_self same)
      | data j =>
          cases j with
          | string s =>
              refine .some (List.forall₂_same.mpr fun v hv => ?_)
              obtain ⟨c, -, rfl⟩ := List.mem_map.mp hv
              exact htext _
          | object members =>
              refine .some (List.forall₂_same.mpr fun v hv => ?_)
              obtain ⟨member, -, rfl⟩ := List.mem_map.mp hv
              exact htext _
          | _ => exact .none
      | _ => exact .none
  | _ => exact .none

theorem forall₂_splice {as bs : List Value} (h : List.Forall₂ Alike as bs) :
    List.Forall₂ Alike (splice as) (splice bs) :=
  Sequence.forall₂_splice (fun _ _ hab => hab.elements?) h

end Alike

/-! ## Options -/

/-- Options with the same name and values that are alike. -/
structure OptionAlike (o o' : Value × Value) : Prop where
  name_eq : o.1 = o'.1
  name : o.1.Alike o'.1
  value : o.2.Alike o'.2

theorem forall₂_putOption {as bs : List (Value × Value)} {name v w : Value}
    (h : List.Forall₂ OptionAlike as bs) (hname : name.Alike name) (hvalue : v.Alike w) :
    List.Forall₂ OptionAlike (putOption as name v) (putOption bs name w) := by
  induction h with
  | nil => exact .cons ⟨rfl, hname, hvalue⟩ .nil
  | @cons a b as bs hab hrest ih =>
      rw [putOption, putOption, ← hab.name_eq]
      split
      · exact .cons ⟨rfl, hab.name_eq ▸ hab.name, hvalue⟩ hrest
      · exact .cons ⟨rfl, hab.name_eq ▸ hab.name, hab.value⟩ ih

theorem alike_tokenDef {as bs : List (Value × Value)} {name : Json}
    (hname : name.same name = true) (h : List.Forall₂ OptionAlike as bs) :
    (tokenDef name as).Alike (tokenDef name bs) :=
  .tokenDef hname h.length_eq (fun hp => (List.forall₂_zip h hp).name)
    fun hp => (List.forall₂_zip h hp).value

end Rulebook.Value
