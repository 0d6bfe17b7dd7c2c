import Mathlib.Order.Bounds.Basic
import Rulebook.Text.Delimited

/-! # Escaped characters

Read from the left, a backslash escapes the character behind it, whatever that is; an escaped
backslash escapes nothing. A delimited body reaches up to the first closing character that is
not escaped.
-/

namespace Rulebook.Text

/-- Whether the character at an index of a text is escaped: in front of it stands a backslash
that is not escaped itself. -/
def isEscaped (text : List Char) : Nat → Bool
  | 0 => false
  | i + 1 => decide (text[i]? = some '\\') && !isEscaped text i

/-- A character stands at an index of a text, and it is not escaped there. -/
structure BareAt (text : List Char) (c : Char) (i : Nat) : Prop where
  here : text[i]? = some c
  bare : isEscaped text i = false

/-! ## Indices behind the head -/

/-- A character that is no backslash does not matter to those behind it. -/
theorem isEscaped_cons {c : Char} (h : c ≠ '\\') (text : List Char) (i : Nat) :
    isEscaped (c :: text) (i + 1) = isEscaped text i := by
  induction i with
  | zero => simp [isEscaped, h]
  | succ i ih => rw [isEscaped, ih, List.getElem?_cons_succ, isEscaped]

/-- A backslash at the head takes the next character with it. -/
theorem isEscaped_pair (c : Char) (text : List Char) (i : Nat) :
    isEscaped ('\\' :: c :: text) (i + 2) = isEscaped text i := by
  induction i with
  | zero => simp [isEscaped]
  | succ i ih => rw [isEscaped, ih, List.getElem?_cons_succ, List.getElem?_cons_succ, isEscaped]

/-- Whether a character is escaped depends on what stands in front of it only. -/
theorem isEscaped_append {text : List Char} {i : Nat} (h : i ≤ text.length) (rest : List Char) :
    isEscaped (text ++ rest) i = isEscaped text i := by
  induction i with
  | zero => rfl
  | succ i ih => rw [isEscaped, ih (by omega), List.getElem?_append_left (by omega), isEscaped]

variable {text : List Char} {c d : Char} {i : Nat}

theorem bareAt_nil : ¬ BareAt [] c i := fun h => by simpa using h.here

@[simp] theorem bareAt_zero : BareAt (d :: text) c 0 ↔ d = c :=
  ⟨fun h => by simpa using h.here, fun h => ⟨by simp [h], rfl⟩⟩

theorem bareAt_succ (h : d ≠ '\\') : BareAt (d :: text) c (i + 1) ↔ BareAt text c i := by
  constructor
  · rintro ⟨hhere, hbare⟩
    exact ⟨hhere, (isEscaped_cons h text i).symm.trans hbare⟩
  · rintro ⟨hhere, hbare⟩
    exact ⟨hhere, (isEscaped_cons h text i).trans hbare⟩

theorem not_bareAt_one : ¬ BareAt ('\\' :: text) c 1 := fun h => by
  simpa [isEscaped] using h.bare

theorem bareAt_pair : BareAt ('\\' :: d :: text) c (i + 2) ↔ BareAt text c i := by
  constructor
  · rintro ⟨hhere, hbare⟩
    exact ⟨hhere, (isEscaped_pair d text i).symm.trans hbare⟩
  · rintro ⟨hhere, hbare⟩
    exact ⟨hhere, (isEscaped_pair d text i).trans hbare⟩

theorem BareAt.append (h : BareAt text c i) (rest : List Char) : BareAt (text ++ rest) c i := by
  obtain ⟨hi, -⟩ := List.getElem?_eq_some_iff.mp h.here
  refine ⟨?_, ?_⟩
  · rw [List.getElem?_append_left hi, h.here]
  · rw [isEscaped_append hi.le, h.bare]

/-- What is escaped has a bare backslash in front of it. -/
theorem exists_bareAt_of_isEscaped (h : isEscaped text i) :
    ∃ j, i = j + 1 ∧ BareAt text '\\' j := by
  cases i with
  | zero => cases h
  | succ j =>
      simp only [isEscaped, Bool.and_eq_true, decide_eq_true_eq, Bool.not_eq_true'] at h
      exact ⟨j, rfl, h.1, h.2⟩

/-- Every newline of a text is escaped. -/
def NewlinesEscaped (text : List Char) : Prop := ∀ i, text[i]? = some '\n' → isEscaped text i

/-- A text whose newlines are escaped is one line unless a bare backslash ends a line. -/
theorem NewlinesEscaped.newline_notMem_iff (h : NewlinesEscaped text) :
    '\n' ∉ text ↔ ∀ i, BareAt text '\\' i → text[i + 1]? ≠ some '\n' := by
  constructor
  · exact fun hnone i _ hi => hnone (List.mem_of_getElem? hi)
  · intro hnone hmem
    obtain ⟨i, hi⟩ := List.mem_iff_getElem?.mp hmem
    obtain ⟨j, rfl, hj⟩ := exists_bareAt_of_isEscaped (h i hi)
    exact hnone j hj hi

/-! ## The first bare character -/

theorem isLeast_bareAt_zero : IsLeast {i | BareAt (c :: text) c i} 0 :=
  ⟨bareAt_zero.mpr rfl, fun _ _ => Nat.zero_le _⟩

theorem isLeast_bareAt_succ (hescape : d ≠ '\\') (hne : d ≠ c) :
    IsLeast {i | BareAt (d :: text) c i} (i + 1) ↔ IsLeast {i | BareAt text c i} i := by
  constructor
  · rintro ⟨hat, hleast⟩
    refine ⟨(bareAt_succ hescape).mp hat, fun j hj => ?_⟩
    exact Nat.le_of_succ_le_succ (hleast ((bareAt_succ hescape).mpr hj))
  · rintro ⟨hat, hleast⟩
    refine ⟨(bareAt_succ hescape).mpr hat, fun j hj => ?_⟩
    cases j with
    | zero => exact absurd (bareAt_zero.mp hj) hne
    | succ j => exact Nat.succ_le_succ (hleast ((bareAt_succ hescape).mp hj))

theorem isLeast_bareAt_pair (hne : c ≠ '\\') :
    IsLeast {i | BareAt ('\\' :: d :: text) c i} (i + 2) ↔ IsLeast {i | BareAt text c i} i := by
  constructor
  · rintro ⟨hat, hleast⟩
    refine ⟨bareAt_pair.mp hat, fun j hj => ?_⟩
    exact Nat.le_of_add_le_add_right (hleast (bareAt_pair.mpr hj))
  · rintro ⟨hat, hleast⟩
    refine ⟨bareAt_pair.mpr hat, fun j hj => ?_⟩
    rcases j with _ | _ | j
    · exact absurd (bareAt_zero.mp hj).symm hne
    · exact absurd hj not_bareAt_one
    · exact Nat.add_le_add_right (hleast (bareAt_pair.mp hj)) 2

/-! ## Delimited bodies -/

/-- The characters in front of an index that are not escaped are plain, backslashes apart. -/
def PlainBefore (plain : Char → Bool) (text : List Char) (i : Nat) : Prop :=
  ∀ j < i, ∀ c, BareAt text c j → c = '\\' ∨ plain c

theorem plainBefore_zero (plain : Char → Bool) (text : List Char) : PlainBefore plain text 0 :=
  fun _ hj => absurd hj (Nat.not_lt_zero _)

theorem plainBefore_succ {plain : Char → Bool} (hescape : d ≠ '\\') :
    PlainBefore plain (d :: text) (i + 1) ↔ plain d ∧ PlainBefore plain text i := by
  constructor
  · intro h
    refine ⟨(h 0 i.succ_pos d (bareAt_zero.mpr rfl)).resolve_left hescape, fun j hj c hc => ?_⟩
    exact h (j + 1) (Nat.succ_lt_succ hj) c ((bareAt_succ hescape).mpr hc)
  · rintro ⟨hd, h⟩ j hj c hc
    cases j with
    | zero => exact .inr (bareAt_zero.mp hc ▸ hd)
    | succ j => exact h j (Nat.lt_of_succ_lt_succ hj) c ((bareAt_succ hescape).mp hc)

theorem plainBefore_pair {plain : Char → Bool} :
    PlainBefore plain ('\\' :: d :: text) (i + 2) ↔ PlainBefore plain text i := by
  constructor
  · intro h j hj c hc
    exact h (j + 2) (Nat.add_lt_add_right hj 2) c (bareAt_pair.mpr hc)
  · intro h j hj c hc
    rcases j with _ | _ | j
    · exact .inl (bareAt_zero.mp hc).symm
    · exact absurd hc not_bareAt_one
    · exact h j (Nat.lt_of_add_lt_add_right hj) c (bareAt_pair.mp hc)

/-- A delimited body ends at the first bare closing character, and is plain up to there. -/
theorem isLeast_of_delimited {close : Char} {plain : Char → Bool} {body rest : List Char}
    (hclose : close ≠ '\\') (h : delimited close plain text = some (body, rest)) :
    IsLeast {i | BareAt text close i} body.length ∧ PlainBefore plain text body.length := by
  fun_induction delimited close plain text generalizing body rest with
  | case1 => cases h
  | case2 rest =>
      cases h
      exact ⟨isLeast_bareAt_zero, plainBefore_zero _ _⟩
  | case3 => cases h
  | case4 => cases h
  | case5 e more inner tail hinner hne ih =>
      cases h
      obtain ⟨hleast, hplain⟩ := ih hinner
      exact ⟨(isLeast_bareAt_pair hclose).mpr hleast, plainBefore_pair.mpr hplain⟩
  | case6 => cases h
  | case7 c more hne hescape hc inner tail hinner ih =>
      cases h
      obtain ⟨hleast, hplain⟩ := ih hinner
      exact ⟨(isLeast_bareAt_succ hescape hne).mpr hleast,
        (plainBefore_succ hescape).mpr ⟨hc, hplain⟩⟩
  | case8 => cases h

/-- Up to the first bare closing character a text is a delimited body, if it is plain there. -/
theorem delimited_of_isLeast {close : Char} {plain : Char → Bool} (hclose : close ≠ '\\')
    (h : IsLeast {i | BareAt text close i} i) (hplain : PlainBefore plain text i) :
    delimited close plain text = some (text.take i, text.drop (i + 1)) := by
  fun_induction delimited close plain text generalizing i with
  | case1 => exact absurd h.1 bareAt_nil
  | case2 rest =>
      obtain rfl : i = 0 := Nat.le_zero.mp (h.2 (bareAt_zero.mpr rfl))
      rfl
  | case3 hne =>
      rcases i with _ | i
      · exact absurd (bareAt_zero.mp h.1) hne
      · exact absurd h.1.here (by simp)
  | case4 e more hinner hne ih =>
      rcases i with _ | _ | i
      · exact absurd (bareAt_zero.mp h.1) hne
      · exact absurd h.1 not_bareAt_one
      · rw [ih ((isLeast_bareAt_pair hclose).mp h) (plainBefore_pair.mp hplain)] at hinner
        cases hinner
  | case5 e more inner tail hinner hne ih =>
      rcases i with _ | _ | i
      · exact absurd (bareAt_zero.mp h.1) hne
      · exact absurd h.1 not_bareAt_one
      · rw [ih ((isLeast_bareAt_pair hclose).mp h) (plainBefore_pair.mp hplain)] at hinner
        cases hinner
        rfl
  | case6 c more hne hescape hc hinner ih =>
      rcases i with _ | i
      · exact absurd (bareAt_zero.mp h.1) hne
      · rw [ih ((isLeast_bareAt_succ hescape hne).mp h) ((plainBefore_succ hescape).mp hplain).2]
          at hinner
        cases hinner
  | case7 c more hne hescape hc inner tail hinner ih =>
      rcases i with _ | i
      · exact absurd (bareAt_zero.mp h.1) hne
      · rw [ih ((isLeast_bareAt_succ hescape hne).mp h) ((plainBefore_succ hescape).mp hplain).2]
          at hinner
        cases hinner
        rfl
  | case8 c more hne hescape hc =>
      rcases i with _ | i
      · exact absurd (bareAt_zero.mp h.1) hne
      · exact absurd ((plainBefore_succ hescape).mp hplain).1 hc

end Rulebook.Text
