import Mathlib
import Rulebook.Document.Parse
import Rulebook.Lowering.Rules
import Rulebook.Proofs.Grammar.RoundTrip

/-! # Equal values as keys

Equality of values takes the options of a token in any order, but a key is found under an
equal one only if both list them in the same order. Two values that are equal are the
same key exactly if the order of options is the same everywhere within them.
-/

namespace Rulebook

/-- The order of options within a value: the names of its own options, and the orders
within the values that it holds. -/
inductive OptionOrder
  | node (names : List Value) (within : List OptionOrder)

namespace Value

mutual

/-- The order in which options are written within a value. -/
def optionOrder : Value → OptionOrder
  | .list elements | .tuple elements | .branch elements | .grammar elements
  | .tokenSection elements _ | .rulesField elements _ | .ruleDef _ elements =>
      .node [] (ordersAmong elements)
  | .tokenDef _ options => .node (options.map Prod.fst) (ordersOfOptions options)
  | .choice branches => .node [] (ordersOfBranches branches)
  | .named value _ _ => value.optionOrder
  | _ => .node [] []

/-- The orders within the values of a sequence. -/
def ordersAmong : List Value → List OptionOrder
  | [] => []
  | v :: rest => v.optionOrder :: ordersAmong rest

/-- The orders within branches. -/
def ordersOfBranches : List (List Value) → List OptionOrder
  | [] => []
  | elements :: rest => .node [] (ordersAmong elements) :: ordersOfBranches rest

/-- The orders within the values of options. -/
def ordersOfOptions : List (Value × Value) → List OptionOrder
  | [] => []
  | (_, v) :: rest => v.optionOrder :: ordersOfOptions rest

end

variable {allowed : Int → Prop}

/-- Well-typed values that are equal to this one are the same key exactly if they have
the same order of options. -/
def SameKeyByOrder (allowed : Int → Prop) (a : Value) : Prop :=
  ∀ b, IsAst allowed b → a.sameWith false b = true →
    (a.sameWith true b = true ↔ a.optionOrder = b.optionOrder)

theorem sameAll_iff_orders {as bs : List Value} (h : ∀ a ∈ as, SameKeyByOrder allowed a)
    (hbs : ∀ b ∈ bs, IsAst allowed b) (hsame : sameAll false as bs = true) :
    sameAll true as bs = true ↔ ordersAmong as = ordersAmong bs := by
  induction as generalizing bs with
  | nil =>
      cases bs with
      | nil => simp [sameAll]
      | cons b bs => simp [sameAll] at hsame
  | cons a as ih =>
      cases bs with
      | nil => simp [sameAll] at hsame
      | cons b bs =>
          obtain ⟨ha, has⟩ := List.forall_mem_cons.mp h
          obtain ⟨hb, hbs⟩ := List.forall_mem_cons.mp hbs
          rw [sameAll, Bool.and_eq_true] at hsame
          rw [sameAll, Bool.and_eq_true, ha b hb hsame.1, ih has hbs hsame.2, ordersAmong,
            ordersAmong, List.cons.injEq]

theorem sameBranches_iff_orders {as bs : List (List Value)}
    (h : ∀ branch ∈ as, ∀ a ∈ branch, SameKeyByOrder allowed a)
    (hbs : ∀ branch ∈ bs, ∀ b ∈ branch, IsAst allowed b) (hsame : sameBranches false as bs = true) :
    sameBranches true as bs = true ↔ ordersOfBranches as = ordersOfBranches bs := by
  induction as generalizing bs with
  | nil =>
      cases bs with
      | nil => simp [sameBranches]
      | cons b bs => simp [sameBranches] at hsame
  | cons a as ih =>
      cases bs with
      | nil => simp [sameBranches] at hsame
      | cons b bs =>
          obtain ⟨ha, has⟩ := List.forall_mem_cons.mp h
          obtain ⟨hb, hbs⟩ := List.forall_mem_cons.mp hbs
          rw [sameBranches, Bool.and_eq_true] at hsame
          rw [sameBranches, Bool.and_eq_true, sameAll_iff_orders ha hb hsame.1, ih has hbs hsame.2,
            ordersOfBranches, ordersOfBranches, List.cons.injEq, OptionOrder.node.injEq]
          simp

/-! ## Options -/

/-- An option has an equal one of its name among options that are equal in any order. -/
theorem exists_same_of_sameOptions {as bs : List (String × Value)}
    (h : sameOptions false (textOptions as) (textOptions bs) = true) {o : String × Value}
    (ho : o ∈ as) : ∃ o' ∈ bs, o.1 = o'.1 ∧ o.2.sameWith false o'.2 = true := by
  obtain ⟨_, hmem, hname, hsame⟩ := sameOptions_iff.mp h _ (List.mem_map_of_mem ho)
  obtain ⟨o', ho', rfl⟩ := List.mem_map.mp hmem
  exact ⟨o', ho', by simpa [sameWith_textName] using hname, hsame⟩

/-- Where no two names are the same, options of the same name are equal. -/
theorem same_of_sameOptions {as bs : List (String × Value)} (distinct : (bs.map Prod.fst).Nodup)
    (h : sameOptions false (textOptions as) (textOptions bs) = true) {o o' : String × Value}
    (ho : o ∈ as) (ho' : o' ∈ bs) (hname : o.1 = o'.1) : o.2.sameWith false o'.2 = true := by
  obtain ⟨other, hother, hkey, hsame⟩ := exists_same_of_sameOptions h ho
  obtain rfl : other = o' := List.inj_on_of_nodup_map distinct hother ho' (hkey.symm.trans hname)
  exact hsame

/-- Options of which those of the same name are equal are the same in order exactly if
their names and the orders within them are the same. -/
theorem sameEach_iff_orders {as bs : List (String × Value)}
    (h : ∀ o ∈ as, SameKeyByOrder allowed o.2) (hbs : ∀ o ∈ bs, IsAst allowed o.2)
    (hsame : ∀ o ∈ as, ∀ o' ∈ bs, o.1 = o'.1 → o.2.sameWith false o'.2 = true) :
    sameEach true (textOptions as) (textOptions bs) = true ↔
      (textOptions as).map Prod.fst = (textOptions bs).map Prod.fst ∧
        ordersOfOptions (textOptions as) = ordersOfOptions (textOptions bs) := by
  induction as generalizing bs with
  | nil => cases bs <;> simp [sameEach]
  | cons o as ih =>
      cases bs with
      | nil => simp [sameEach]
      | cons o' bs =>
          obtain ⟨ho, has⟩ := List.forall_mem_cons.mp h
          obtain ⟨ho', hbs⟩ := List.forall_mem_cons.mp hbs
          have hrest := ih has hbs fun p hp p' hp' =>
            hsame p (List.mem_cons_of_mem _ hp) p' (List.mem_cons_of_mem _ hp')
          by_cases hname : o.1 = o'.1
          · have hvalue := ho o'.2 ho' (hsame o List.mem_cons_self o' List.mem_cons_self hname)
            simp only [List.map_cons, sameEach, sameWith_textName, hname, decide_true,
              Bool.true_and, Bool.and_eq_true, hvalue, hrest, ordersOfOptions, List.cons.injEq,
              true_and]
            tauto
          · simp [sameEach, sameWith_textName, hname]

/-! ## Values -/

/-- The case of two values with a sequence and no options of their own. -/
theorem sameKeyByOrder_of_elements {a b : Value} {as bs : List Value} (own : Bool)
    (h : ∀ v ∈ as, SameKeyByOrder allowed v) (hbs : ∀ v ∈ bs, IsAst allowed v)
    (hsame : ∀ ordered, a.sameWith ordered b = (sameAll ordered as bs && own))
    (ha : a.optionOrder = .node [] (ordersAmong as))
    (hb : b.optionOrder = .node [] (ordersAmong bs)) (heq : a.sameWith false b = true) :
    a.sameWith true b = true ↔ a.optionOrder = b.optionOrder := by
  rw [hsame, Bool.and_eq_true] at heq ⊢
  rw [sameAll_iff_orders h hbs heq.1, ha, hb, OptionOrder.node.injEq]
  simp [heq.2]

theorem sameKeyByOrder {a : Value} (ha : IsAst allowed a) : SameKeyByOrder allowed a := by
  -- Only values of the same kind are equal.
  induction ha with
  | tuple ok ih =>
      rintro b hb hsame
      cases hb with
      | tuple okb =>
          exact sameKeyByOrder_of_elements true ih okb
            (fun _ => by rw [sameWith, Bool.and_true]) (by rw [optionOrder]) (by rw [optionOrder]) hsame
      | _ => cases ctorIdx_eq_of_sameWith hsame
  | grammar ok ih =>
      rintro b hb hsame
      cases hb with
      | grammar okb =>
          exact sameKeyByOrder_of_elements true ih okb
            (fun _ => by rw [sameWith, Bool.and_true]) (by rw [optionOrder]) (by rw [optionOrder]) hsame
      | _ => cases ctorIdx_eq_of_sameWith hsame
  | tokenSection ok name ih =>
      rintro b hb hsame
      cases hb with
      | tokenSection okb nameb =>
          exact sameKeyByOrder_of_elements ((Json.string name).same (.string nameb)) ih okb
            (fun _ => by rw [sameWith]) (by rw [optionOrder]) (by rw [optionOrder]) hsame
      | _ => cases ctorIdx_eq_of_sameWith hsame
  | rulesField ok name ih =>
      rintro b hb hsame
      cases hb with
      | rulesField okb nameb =>
          exact sameKeyByOrder_of_elements ((Json.string name).same (.string nameb)) ih okb
            (fun _ => by rw [sameWith]) (by rw [optionOrder]) (by rw [optionOrder]) hsame
      | _ => cases ctorIdx_eq_of_sameWith hsame
  | ruleDef name ok ih =>
      rintro b hb hsame
      cases hb with
      | ruleDef nameb okb =>
          exact sameKeyByOrder_of_elements ((Json.string name).same (.string nameb)) ih okb
            (fun _ => by rw [sameWith, Bool.and_comm]) (by rw [optionOrder]) (by rw [optionOrder]) hsame
      | _ => cases ctorIdx_eq_of_sameWith hsame
  | choice ok ih =>
      rintro b hb hsame
      cases hb with
      | choice okb =>
          rw [sameWith] at hsame ⊢
          rw [sameBranches_iff_orders ih okb hsame, optionOrder, optionOrder,
            OptionOrder.node.injEq]
          simp
      | _ => cases ctorIdx_eq_of_sameWith hsame
  | named ok label_ok modifier_ok ih =>
      rintro b hb hsame
      cases hb with
      | named okb labelb_ok modifierb_ok =>
          rw [sameWith, Bool.and_eq_true, Bool.and_eq_true] at hsame ⊢
          rw [ih _ okb hsame.1.1, optionOrder, optionOrder]
          simp [hsame]
      | _ => cases ctorIdx_eq_of_sameWith hsame
  | @tokenDef name options distinct ok ih =>
      rintro b hb hsame
      cases hb with
      | tokenDef nameb distinctb okb =>
          simp only [sameWith, Bool.and_eq_true, Bool.false_eq_true, if_false, if_true] at hsame ⊢
          rw [sameEach_iff_orders ih okb fun o ho o' ho' =>
              same_of_sameOptions distinctb hsame.2 ho ho',
            optionOrder, optionOrder, OptionOrder.node.injEq]
          simp only [hsame, true_and]
      | _ => cases ctorIdx_eq_of_sameWith hsame
  | whole | float | regex | string | identifier | boolean | ref | otherField =>
      rintro b hb hsame
      cases hb <;> cases ctorIdx_eq_of_sameWith hsame <;> simp_all [sameWith, optionOrder]

/-- A well-typed value can be a key. -/
theorem isKey_of_isAst {a : Value} (h : IsAst allowed a) : a.isKey = true := by
  rw [isKey, Bool.not_eq_true']
  refine anyWithin_eq_false (fun v hv => ?_) (fun _ => rfl) h.isEncodable
  -- No such value is a list or a node itself, so only the data that it carries matters.
  cases hv <;> simp_all [isList, isNode, ownData]

/-- Well-typed values that are equal can be keys, and they are the same key exactly if
the order of options is the same within both. -/
theorem sameKey_iff_optionOrder {a b : Value} (ha : IsAst allowed a) (hb : IsAst allowed b)
    (h : a.same b = true) :
    (a.sameKey? b).isSome ∧ (a.sameKey? b = some true ↔ a.optionOrder = b.optionOrder) := by
  have hkey : a.sameKey? b = some (a.sameWith true b) := by
    rw [sameKey?, isKey_of_isAst ha, isKey_of_isAst hb]
    rfl
  rw [hkey]
  refine ⟨rfl, ?_⟩
  rw [Option.some.injEq]
  exact sameKeyByOrder ha b hb h

/-- A token with the options `a` and `b`, in this order. -/
def twoOptions (a b : Value) : Value :=
  .tokenDef (.string "T") [(.data (.string "a"), a), (.data (.string "b"), b)]

/-- A whole number and a float that are equal do not change the key. -/
theorem sameKey_equalNumbers :
    (twoOptions (.number (.int 1)) (.boolean (.bool true))).sameKey?
      (twoOptions (.number (.float (.finite false 0x10000000000000 (-52)))) (.boolean (.bool true)))
        = some true := by
  have hast : ∀ v : Value, IsAst (fun _ => True) v →
      IsAst (fun _ => True) (twoOptions v (.boolean (.bool true))) := by
    intro v hv
    exact @IsAst.tokenDef _ "T" [("a", v), ("b", .boolean (.bool true))] (by simp)
      (by simpa using ⟨hv, .boolean true⟩)
  have hone : (Double.finite false 0x10000000000000 (-52)).IsNumber :=
    ⟨by decide, by decide, by decide, fun _ => by decide⟩
  have hsame : (twoOptions (.number (.int 1)) (.boolean (.bool true))).same
      (twoOptions (.number (.float (.finite false 0x10000000000000 (-52)))) (.boolean (.bool true)))
        = true := by
    have hequal : (Double.finite false 0x10000000000000 (-52)).sameInt 1 = true := by decide
    simp [twoOptions, same, sameWith, sameOptions, Json.same, Json.sameScalar, Json.asInt?, hequal]
  refine (sameKey_iff_optionOrder (hast _ (.whole trivial)) (hast _ (.float hone)) hsame).2.mpr ?_
  simp [twoOptions, optionOrder, ordersOfOptions]

/-- The grammars of two texts that differ in the order of the options of a token are
equal, and neither is found under the other as a key. -/
theorem sameKey_swappedOptions :
    ∃ t u fields others,
      Document.parse "tokens \x7b T: \x7b a: 1, b: 2 \x7d \x7d" = .ok t ∧
      Document.parse "tokens \x7b T: \x7b b: 2, a: 1 \x7d \x7d" = .ok u ∧
      Lowering.lower t = .ok (.grammar fields) ∧ Lowering.lower u = .ok (.grammar others) ∧
      (Value.grammar fields).same (.grammar others) = true ∧
      (Value.grammar fields).sameKey? (.grammar others) = some false := by
  have hfirst : (Document.parse "tokens \x7b T: \x7b a: 1, b: 2 \x7d \x7d").map Lowering.lower =
      .ok (.ok (.grammar [.tokenSection [.tokenDef (.string "T")
        [(.data (.string "a"), .number (.int 1)), (.data (.string "b"), .number (.int 2))]]
          (.string "tokens")])) := by
    cbv
  have hsecond : (Document.parse "tokens \x7b T: \x7b b: 2, a: 1 \x7d \x7d").map Lowering.lower =
      .ok (.ok (.grammar [.tokenSection [.tokenDef (.string "T")
        [(.data (.string "b"), .number (.int 2)), (.data (.string "a"), .number (.int 1))]]
          (.string "tokens")])) := by
    cbv
  obtain ⟨t, ht, hlower⟩ := exists_of_map_eq_ok hfirst
  obtain ⟨u, hu, hother⟩ := exists_of_map_eq_ok hsecond
  exact ⟨t, u, _, _, ht, hu, hlower, hother, by cbv, by cbv⟩

end Value

end Rulebook
