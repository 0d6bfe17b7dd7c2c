import Rulebook.Proofs.Grammar.Keys

/-! # Hashes of values

Values that are equal in order hash alike. Well-typed values that are equal are the same key
exactly if they hash alike, so what keeps equal ones apart as keys is the order of options, which
the hash of a token takes in.
-/

namespace Rulebook

namespace Hashed

variable {η : Type} {ofData : Json → η} {ofTree : Tree → η} {ofTuple : List η → η}

mutual

/-- Hashes that are computed from equal parts are equal if equal data and equal trees hash
alike. -/
theorem digest_eq_of_same (hdata : ∀ a b : Json, a.same b = true → ofData a = ofData b)
    (htree : ∀ a b : Tree, a.same b = true → ofTree a = ofTree b) :
    (a : Hashed) → ∀ {b : Hashed}, a.same b = true →
      a.digest ofData ofTree ofTuple = b.digest ofData ofTree ofTuple
  | .data a, b, h => by
      cases b <;> simp only [same, Bool.false_eq_true] at h
      exact hdata _ _ h
  | .tree a, b, h => by
      cases b <;> simp only [same, Bool.false_eq_true] at h
      exact htree _ _ h
  | .tuple as, b, h => by
      cases b <;> simp only [same, Bool.false_eq_true] at h
      rw [digest, digest, digestAll_eq_of_sameAll hdata htree as h]

theorem digestAll_eq_of_sameAll (hdata : ∀ a b : Json, a.same b = true → ofData a = ofData b)
    (htree : ∀ a b : Tree, a.same b = true → ofTree a = ofTree b) :
    (as : List Hashed) → ∀ {bs : List Hashed}, sameAll as bs = true →
      digestAll ofData ofTree ofTuple as = digestAll ofData ofTree ofTuple bs
  | [], bs, h => by
      cases bs with
      | nil => rfl
      | cons b bs => simp [sameAll] at h
  | a :: as, bs, h => by
      cases bs with
      | nil => simp [sameAll] at h
      | cons b bs =>
        rw [sameAll, Bool.and_eq_true] at h
        rw [digestAll, digestAll, digest_eq_of_same hdata htree a h.1,
          digestAll_eq_of_sameAll hdata htree as h.2]

end

end Hashed

namespace Value

/-! ## Equal in order -/

mutual

/-- Values that are equal in order hash alike. -/
theorem same_hashed_of_sameWith :
    (a : Value) → ∀ {b : Value}, a.sameWith true b = true → a.hashed.same b.hashed = true
  | .list as, b, h | .tuple as, b, h | .branch as, b, h | .grammar as, b, h => by
      cases b <;> cases ctorIdx_eq_of_sameWith h
      simp only [sameWith] at h
      simp [hashed, Hashed.same, Hashed.sameAll, sameAll_hashedAll as h]
  | .tokenSection as name, b, h | .rulesField as name, b, h => by
      cases b <;> cases ctorIdx_eq_of_sameWith h
      simp only [sameWith, Bool.and_eq_true] at h
      simp [hashed, Hashed.same, Hashed.sameAll, sameAll_hashedAll as h.1, h.2]
  | .ruleDef name as, b, h => by
      cases b <;> cases ctorIdx_eq_of_sameWith h
      simp only [sameWith, Bool.and_eq_true] at h
      simp [hashed, Hashed.same, Hashed.sameAll, sameAll_hashedAll as h.2, h.1]
  | .tokenDef name options, b, h => by
      cases b <;> cases ctorIdx_eq_of_sameWith h
      simp only [sameWith, if_true, Bool.and_eq_true] at h
      simp [hashed, Hashed.same, Hashed.sameAll, sameAll_hashedOptions options h.2, h.1.1]
  | .choice branches, b, h => by
      cases b <;> cases ctorIdx_eq_of_sameWith h
      simp only [sameWith] at h
      simp [hashed, Hashed.same, Hashed.sameAll, sameAll_hashedBranches branches h]
  | .named value label modifier, b, h => by
      cases b <;> cases ctorIdx_eq_of_sameWith h
      simp only [sameWith, Bool.and_eq_true] at h
      simp [hashed, Hashed.same, Hashed.sameAll, same_hashed_of_sameWith value h.1.1, h]
  | .data _, b, h | .tree _, b, h | .otherField _, b, h | .number _, b, h | .regex _ _, b, h
  | .string _, b, h | .identifier _, b, h | .boolean _, b, h | .ref _, b, h => by
      cases b <;> cases ctorIdx_eq_of_sameWith h
      simp only [sameWith, Bool.and_eq_true] at h
      simp [hashed, Hashed.same, Hashed.sameAll, h]

theorem sameAll_hashedAll : (as : List Value) → ∀ {bs : List Value}, sameAll true as bs = true →
    Hashed.sameAll (hashedAll as) (hashedAll bs) = true
  | [], bs, h => by
      cases bs with
      | nil => rfl
      | cons b bs => simp [sameAll] at h
  | a :: as, bs, h => by
      cases bs with
      | nil => simp [sameAll] at h
      | cons b bs =>
        rw [sameAll, Bool.and_eq_true] at h
        rw [hashedAll, hashedAll, Hashed.sameAll, same_hashed_of_sameWith a h.1,
          sameAll_hashedAll as h.2]
        rfl

theorem sameAll_hashedBranches : (as : List (List Value)) → ∀ {bs : List (List Value)},
    sameBranches true as bs = true →
      Hashed.sameAll (hashedBranches as) (hashedBranches bs) = true
  | [], bs, h => by
      cases bs with
      | nil => rfl
      | cons b bs => simp [sameBranches] at h
  | a :: as, bs, h => by
      cases bs with
      | nil => simp [sameBranches] at h
      | cons b bs =>
        rw [sameBranches, Bool.and_eq_true] at h
        rw [hashedBranches, hashedBranches, Hashed.sameAll, Hashed.same, sameAll_hashedAll a h.1,
          sameAll_hashedBranches as h.2]
        rfl

theorem sameAll_hashedOptions : (as : List (Value × Value)) → ∀ {bs : List (Value × Value)},
    sameEach true as bs = true → Hashed.sameAll (hashedOptions as) (hashedOptions bs) = true
  | [], bs, h => by
      cases bs with
      | nil => rfl
      | cons b bs => simp [sameEach] at h
  | (name, v) :: as, bs, h => by
      cases bs with
      | nil => simp [sameEach] at h
      | cons b bs =>
        rw [sameEach, Bool.and_eq_true, Bool.and_eq_true] at h
        rw [hashedOptions, hashedOptions, Hashed.sameAll, sameAll_hashedOptions as h.2]
        simp [Hashed.same, Hashed.sameAll, same_hashed_of_sameWith name h.1.1,
          same_hashed_of_sameWith v h.1.2]

end

/-- Values that are equal in order have the same hash, however data, trees and tuples are hashed, if
equal data and equal trees hash alike. -/
theorem digest_eq_of_sameWith {η : Type} {ofData : Json → η} {ofTree : Tree → η}
    (hdata : ∀ a b : Json, a.same b = true → ofData a = ofData b)
    (htree : ∀ a b : Tree, a.same b = true → ofTree a = ofTree b) (ofTuple : List η → η)
    {a b : Value} (h : a.sameWith true b = true) :
    a.hashed.digest ofData ofTree ofTuple = b.hashed.digest ofData ofTree ofTuple :=
  Hashed.digest_eq_of_same hdata htree _ (same_hashed_of_sameWith a h)

/-! ## Equal and hashed alike -/

variable {allowed : Int → Prop}

/-- Well-typed values that are equal to this one and hash alike are equal to it in order. -/
def EqualInOrder (allowed : Int → Prop) (a : Value) : Prop :=
  ∀ b, IsAst allowed b → a.sameWith false b = true → a.hashed.same b.hashed = true →
    a.sameWith true b = true

theorem sameAll_of_hashed {as bs : List Value} (h : ∀ a ∈ as, EqualInOrder allowed a)
    (hbs : ∀ b ∈ bs, IsAst allowed b) (hsame : sameAll false as bs = true)
    (hhashed : Hashed.sameAll (hashedAll as) (hashedAll bs) = true) :
    sameAll true as bs = true := by
  induction as generalizing bs with
  | nil => cases bs <;> simp_all [sameAll]
  | cons a as ih =>
      cases bs with
      | nil => simp [sameAll] at hsame
      | cons b bs =>
          obtain ⟨ha, has⟩ := List.forall_mem_cons.mp h
          obtain ⟨hb, hbs⟩ := List.forall_mem_cons.mp hbs
          rw [sameAll, Bool.and_eq_true] at hsame ⊢
          rw [hashedAll, hashedAll, Hashed.sameAll, Bool.and_eq_true] at hhashed
          exact ⟨ha b hb hsame.1 hhashed.1, ih has hbs hsame.2 hhashed.2⟩

theorem sameBranches_of_hashed {as bs : List (List Value)}
    (h : ∀ branch ∈ as, ∀ a ∈ branch, EqualInOrder allowed a)
    (hbs : ∀ branch ∈ bs, ∀ b ∈ branch, IsAst allowed b) (hsame : sameBranches false as bs = true)
    (hhashed : Hashed.sameAll (hashedBranches as) (hashedBranches bs) = true) :
    sameBranches true as bs = true := by
  induction as generalizing bs with
  | nil => cases bs <;> simp_all [sameBranches]
  | cons a as ih =>
      cases bs with
      | nil => simp [sameBranches] at hsame
      | cons b bs =>
          obtain ⟨ha, has⟩ := List.forall_mem_cons.mp h
          obtain ⟨hb, hbs⟩ := List.forall_mem_cons.mp hbs
          rw [sameBranches, Bool.and_eq_true] at hsame ⊢
          rw [hashedBranches, hashedBranches, Hashed.sameAll, Hashed.same,
            Bool.and_eq_true] at hhashed
          exact ⟨sameAll_of_hashed ha hb hsame.1 hhashed.1, ih has hbs hsame.2 hhashed.2⟩

/-- Options of which those of the same name are equal are equal in order if they hash alike. -/
theorem sameEach_of_hashed {as bs : List (String × Value)}
    (h : ∀ o ∈ as, EqualInOrder allowed o.2) (hbs : ∀ o ∈ bs, IsAst allowed o.2)
    (hsame : ∀ o ∈ as, ∀ o' ∈ bs, o.1 = o'.1 → o.2.sameWith false o'.2 = true)
    (hhashed : Hashed.sameAll (hashedOptions (textOptions as))
      (hashedOptions (textOptions bs)) = true) :
    sameEach true (textOptions as) (textOptions bs) = true := by
  induction as generalizing bs with
  | nil => cases bs <;> simp_all [sameEach, hashedOptions, Hashed.sameAll]
  | cons o as ih =>
      cases bs with
      | nil => simp [hashedOptions, Hashed.sameAll] at hhashed
      | cons o' bs =>
          obtain ⟨ho, has⟩ := List.forall_mem_cons.mp h
          obtain ⟨ho', hbs⟩ := List.forall_mem_cons.mp hbs
          simp only [List.map_cons, hashedOptions, Hashed.sameAll, Hashed.same, hashed,
            Bool.and_eq_true, Bool.and_true] at hhashed
          obtain ⟨⟨hkey, hvalue⟩, hmore⟩ := hhashed
          have hname : o.1 = o'.1 := by simpa [Json.same, Json.sameScalar] using hkey
          have hrest := ih has hbs (fun p hp p' hp' =>
            hsame p (List.mem_cons_of_mem _ hp) p' (List.mem_cons_of_mem _ hp')) hmore
          have hequal := hsame o List.mem_cons_self o' List.mem_cons_self hname
          simp [sameEach, sameWith_textName, hname, ho o'.2 ho' hequal hvalue, hrest]

theorem equalInOrder {a : Value} (ha : IsAst allowed a) : EqualInOrder allowed a := by
  -- Only values of the same kind are equal.
  induction ha with
  | tuple ok ih | grammar ok ih =>
      rintro b hb hsame hhashed
      cases hb <;> cases ctorIdx_eq_of_sameWith hsame
      simp only [sameWith] at hsame ⊢
      simp only [hashed, Hashed.same, Hashed.sameAll, Bool.and_true] at hhashed
      exact sameAll_of_hashed ih ‹_› hsame hhashed
  | tokenSection ok name ih | rulesField ok name ih =>
      rintro b hb hsame hhashed
      cases hb <;> cases ctorIdx_eq_of_sameWith hsame
      simp only [sameWith, Bool.and_eq_true] at hsame ⊢
      simp only [hashed, Hashed.same, Hashed.sameAll, Bool.and_eq_true, Bool.and_true] at hhashed
      exact ⟨sameAll_of_hashed ih ‹_› hsame.1 hhashed.1, hsame.2⟩
  | ruleDef name ok ih =>
      rintro b hb hsame hhashed
      cases hb <;> cases ctorIdx_eq_of_sameWith hsame
      simp only [sameWith, Bool.and_eq_true] at hsame ⊢
      simp only [hashed, Hashed.same, Hashed.sameAll, Bool.and_eq_true, Bool.and_true] at hhashed
      exact ⟨hsame.1, sameAll_of_hashed ih ‹_› hsame.2 hhashed.2⟩
  | choice ok ih =>
      rintro b hb hsame hhashed
      cases hb <;> cases ctorIdx_eq_of_sameWith hsame
      simp only [sameWith] at hsame ⊢
      simp only [hashed, Hashed.same, Hashed.sameAll, Bool.and_true] at hhashed
      exact sameBranches_of_hashed ih ‹_› hsame hhashed
  | named ok label_ok modifier_ok ih =>
      rintro b hb hsame hhashed
      cases hb <;> cases ctorIdx_eq_of_sameWith hsame
      simp only [sameWith, Bool.and_eq_true] at hsame ⊢
      simp only [hashed, Hashed.same, Hashed.sameAll, Bool.and_eq_true] at hhashed
      exact ⟨⟨ih _ ‹_› hsame.1.1 hhashed.1, hsame.1.2⟩, hsame.2⟩
  | @tokenDef name options distinct ok ih =>
      rintro b hb hsame hhashed
      cases hb with
      | tokenDef nameb distinctb okb =>
          simp only [sameWith, Bool.and_eq_true, Bool.false_eq_true, if_false, if_true] at hsame ⊢
          simp only [hashed, Hashed.same, Hashed.sameAll, Bool.and_eq_true, Bool.and_true] at hhashed
          exact ⟨hsame.1, sameEach_of_hashed ih okb
            (fun o ho o' ho' => same_of_sameOptions distinctb hsame.2 ho ho') hhashed.2⟩
      | _ => cases ctorIdx_eq_of_sameWith hsame
  | whole | float | regex | string | identifier | boolean | ref | otherField =>
      rintro b hb hsame -
      cases hb <;> cases ctorIdx_eq_of_sameWith hsame <;> simp only [sameWith] at hsame ⊢ <;>
        exact hsame

/-- Well-typed values that are equal are the same key exactly if they hash alike. -/
theorem sameKey_iff_same_hashed {a b : Value} (ha : IsAst allowed a) (hb : IsAst allowed b)
    (h : a.same b = true) : a.sameKey? b = some true ↔ a.hashed.same b.hashed = true := by
  rw [sameKey?, isKey_of_isAst ha, isKey_of_isAst hb]
  simp only [Bool.and_self, if_true, Option.some.injEq]
  exact ⟨same_hashed_of_sameWith a, equalInOrder ha b hb h⟩

end Value

end Rulebook
