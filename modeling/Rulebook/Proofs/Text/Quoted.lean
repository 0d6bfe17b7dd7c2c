import Mathlib.Algebra.Ring.Nat
import Rulebook.Text.Quoted

/-! # Reading back quoted text

A displayed text tells which text it displays. The quote at its head is the one that is
escaped within it, and every character ends where its display says: a backslash is followed
by the character itself, by the mark of a control character, or by the mark of a code point,
which fixes the number of its digits.
-/

namespace Rulebook.Text

/-! ## Digits -/

theorem hexDigit_injective {m n : Nat} (hm : m < 16) (hn : n < 16)
    (h : Nat.digitChar m = Nat.digitChar n) : m = n :=
  congrArg Fin.val ((by decide : ∀ a b : Fin 16, Nat.digitChar a = Nat.digitChar b → a = b)
    ⟨m, hm⟩ ⟨n, hn⟩ h)

/-- Numbers are told apart by as many digits as they have. -/
theorem hexDigits_injective {width m n : Nat} (hm : m < 16 ^ width) (hn : n < 16 ^ width)
    (h : hexDigits width m = hexDigits width n) : m = n := by
  induction width generalizing m n with
  | zero =>
      rw [pow_zero] at hm hn
      omega
  | succ width ih =>
      rw [pow_succ] at hm hn
      obtain ⟨hhigh, hlow⟩ := List.append_inj' h rfl
      have hquotient : m / 16 = n / 16 := ih (by omega) (by omega) hhigh
      have hremainder : m % 16 = n % 16 :=
        hexDigit_injective (Nat.mod_lt _ (by decide)) (Nat.mod_lt _ (by decide))
          (List.cons.inj hlow).1
      omega

/-! ## Characters -/

/-- The number of digits behind the mark of a code point. -/
def codeWidth? (mark : Char) : Option Nat :=
  if mark = 'x' then some 2 else if mark = 'u' then some 4 else if mark = 'U' then some 8 else none

/-- The character for a mark that stands alone behind a backslash. -/
def markedChar (mark : Char) : Char :=
  if mark = 't' then '\t' else if mark = 'n' then '\n' else if mark = 'r' then '\r' else mark

/-- How a character is displayed, by what a reader has to do with it. -/
inductive IsShown (c : Char) : List Char → Prop
  | plain (notEscape : c ≠ '\\') : IsShown c [c]
  | marked (mark : Char) (short : codeWidth? mark = none) (marks : markedChar mark = c) :
      IsShown c ['\\', mark]
  | code (mark : Char) (width : Nat) (long : codeWidth? mark = some width)
      (fits : c.toNat < 16 ^ width) : IsShown c ('\\' :: mark :: hexDigits width c.toNat)

variable {quote c d : Char} {shown shown' xs ys : List Char}

theorem isShown_codePointEscape (c : Char) : IsShown c (codePointEscape c.toNat) := by
  unfold codePointEscape
  split
  · next h => exact .code 'x' 2 rfl h
  split
  · next h => exact .code 'u' 4 rfl h
  · exact .code 'U' 8 rfl (Nat.lt_of_lt_of_eq c.val.toNat_lt rfl)

theorem isShown_quotedChar (hquote : quote = '\'' ∨ quote = '"') (c : Char) :
    IsShown c (quotedChar quote c) := by
  unfold quotedChar
  split
  · next h =>
      rw [Bool.or_eq_true, decide_eq_true_eq, decide_eq_true_eq] at h
      have hmark : c = '\'' ∨ c = '"' ∨ c = '\\' := by
        rcases h with rfl | h
        · rcases hquote with h | h
          · exact .inl h
          · exact .inr (.inl h)
        · exact .inr (.inr h)
      rcases hmark with rfl | rfl | rfl <;> exact .marked _ rfl rfl
  next hnot =>
    split
    · next h => exact .marked 't' rfl h.symm
    split
    · next h => exact .marked 'n' rfl h.symm
    split
    · next h => exact .marked 'r' rfl h.symm
    split
    · refine .plain ?_
      rintro rfl
      simp at hnot
    · exact isShown_codePointEscape c

/-- A displayed character tells where it ends and which one it is. -/
theorem IsShown.append_injective (h : IsShown c shown) (h' : IsShown d shown')
    (heq : shown ++ xs = shown' ++ ys) : c = d ∧ xs = ys := by
  cases h with
  | plain notEscape =>
      cases h' with
      | plain => exact List.cons.inj heq
      | marked | code => exact absurd (List.cons.inj heq).1 notEscape
  | marked mark short marks =>
      cases h' with
      | plain notEscape => exact absurd (List.cons.inj heq).1.symm notEscape
      | marked mark' _ marks' =>
          obtain ⟨rfl, hrest⟩ := List.cons.inj (List.cons.inj heq).2
          exact ⟨marks.symm.trans marks', hrest⟩
      | code mark' width long =>
          obtain ⟨rfl, -⟩ := List.cons.inj (List.cons.inj heq).2
          rw [short] at long
          cases long
  | code mark width long fits =>
      cases h' with
      | plain notEscape => exact absurd (List.cons.inj heq).1.symm notEscape
      | marked mark' short =>
          obtain ⟨rfl, -⟩ := List.cons.inj (List.cons.inj heq).2
          rw [short] at long
          cases long
      | code mark' width' long' fits' =>
          obtain ⟨rfl, htail⟩ := List.cons.inj (List.cons.inj heq).2
          obtain rfl : width = width' := Option.some.inj (long.symm.trans long')
          obtain ⟨hdigits, hrest⟩ := List.append_inj htail (by simp)
          exact ⟨Char.toNat_inj.mp (hexDigits_injective fits fits' hdigits), hrest⟩

theorem IsShown.ne_nil (h : IsShown c shown) : shown ≠ [] := by
  cases h <;> exact List.cons_ne_nil _ _

/-! ## Texts -/

theorem flatMap_quotedChar_injective (hquote : quote = '\'' ∨ quote = '"')
    (h : xs.flatMap (quotedChar quote) = ys.flatMap (quotedChar quote)) : xs = ys := by
  induction xs generalizing ys with
  | nil =>
      cases ys with
      | nil => rfl
      | cons d rest =>
          have hnil := List.append_eq_nil_iff.mp h.symm
          exact absurd hnil.1 (isShown_quotedChar hquote d).ne_nil
  | cons c rest ih =>
      cases ys with
      | nil =>
          have hnil := List.append_eq_nil_iff.mp h
          exact absurd hnil.1 (isShown_quotedChar hquote c).ne_nil
      | cons d more =>
          rw [List.flatMap_cons, List.flatMap_cons] at h
          obtain ⟨rfl, hrest⟩ :=
            (isShown_quotedChar hquote c).append_injective (isShown_quotedChar hquote d) h
          rw [ih hrest]

theorem preferredQuote_eq (text : List Char) :
    preferredQuote text = '\'' ∨ preferredQuote text = '"' := by
  unfold preferredQuote
  split
  · exact .inr rfl
  · exact .inl rfl

/-- A text is told by its display. -/
theorem quoted_injective (h : quoted xs = quoted ys) : xs = ys := by
  obtain ⟨hquote, hbody⟩ := List.cons.inj h
  rw [← hquote] at hbody
  exact flatMap_quotedChar_injective (preferredQuote_eq xs) (List.append_cancel_right hbody)

end Rulebook.Text
