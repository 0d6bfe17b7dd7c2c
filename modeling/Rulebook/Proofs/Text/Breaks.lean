import Mathlib.Data.List.Basic
import Rulebook.Text.Line

/-! # Line breaks

A text is read from left to right as lines with breaks between them, each a newline, a
carriage return, or a carriage return with its newline. With one newline for each break
it is the text of the same lines, and so is a text in which first the pairs and then the
carriage returns that are left were replaced.
-/

namespace Rulebook.Text

/-- What ends a line. -/
inductive Break
  | newline
  | carriageReturn
  | both
  deriving DecidableEq

/-- The characters of a break. -/
def Break.text : Break → List Char
  | newline => ['\n']
  | carriageReturn => ['\r']
  | both => ['\r', '\n']

/-- No part of any break. -/
def IsLine (line : List Char) : Prop := '\r' ∉ line ∧ '\n' ∉ line

instance (line : List Char) : Decidable (IsLine line) := inferInstanceAs (Decidable (_ ∧ _))

/-- A text is read as these lines with breaks between them. A carriage return is a break
of its own only if no newline follows it. -/
inductive Broken : List Char → List (List Char) → Prop
  | last {line : List Char} (hline : IsLine line) : Broken line [line]
  | cons (ending : Break) {line rest : List Char} {lines : List (List Char)} (hline : IsLine line)
      (halone : ending = .carriageReturn → rest.head? ≠ some '\n') (hrest : Broken rest lines) :
      Broken (line ++ (ending.text ++ rest)) (line :: lines)

/-- The same text with another break for each newline. -/
def withBreaks (ending : Break) (text : List Char) : List Char :=
  text.flatMap fun c => if c = '\n' then ending.text else [c]

/-- A text in which a word, which is not empty, is replaced wherever it is found from left
to right. -/
def replace (word new : List Char) : List Char → List Char
  | [] => []
  | c :: rest =>
      if word <+: c :: rest then new ++ replace word new (rest.drop (word.length - 1))
      else c :: replace word new rest
termination_by text => text.length
decreasing_by
  · simp only [List.length_drop, List.length_cons]
    omega
  · simp

/-! ## One newline for each break -/

theorem isLine_nil : IsLine [] := ⟨List.not_mem_nil, List.not_mem_nil⟩

theorem isLine_cons {c : Char} {line : List Char} :
    IsLine (c :: line) ↔ (c ≠ '\r' ∧ c ≠ '\n') ∧ IsLine line := by
  simp only [IsLine, List.mem_cons, not_or, ne_comm, and_and_and_comm, ne_eq]

theorem unifyBreaks_cons {c : Char} (h : c ≠ '\r') (rest : List Char) :
    unifyBreaks (c :: rest) = c :: unifyBreaks rest := by
  rw [unifyBreaks.eq_def]
  split <;> simp_all

theorem unifyBreaks_append {line : List Char} (h : IsLine line) (rest : List Char) :
    unifyBreaks (line ++ rest) = line ++ unifyBreaks rest := by
  induction line with
  | nil => rfl
  | cons c line ih =>
      obtain ⟨hc, hline⟩ := isLine_cons.mp h
      rw [List.cons_append, unifyBreaks_cons hc.1, ih hline, List.cons_append]

theorem unifyBreaks_break {ending : Break} {rest : List Char}
    (h : ending = .carriageReturn → rest.head? ≠ some '\n') :
    unifyBreaks (ending.text ++ rest) = '\n' :: unifyBreaks rest := by
  cases ending with
  | newline => exact unifyBreaks_cons (by decide) rest
  | both => rfl
  | carriageReturn =>
      rw [Break.text, List.singleton_append]
      exact unifyBreaks.eq_2 rest fun tail heq => h rfl (heq ▸ rfl)

theorem return_notMem_unifyBreaks (text : List Char) : '\r' ∉ unifyBreaks text := by
  fun_induction unifyBreaks text with
  | case1 rest ih => simpa using ih
  | case2 rest _ ih => simpa using ih
  | case3 c rest _ hc ih =>
      rw [List.mem_cons, not_or]
      exact ⟨fun heq => hc heq.symm, ih⟩
  | case4 => exact List.not_mem_nil

/-- A text with one newline for each break is the text of its lines. -/
theorem Broken.unifyBreaks_eq {text : List Char} {lines : List (List Char)}
    (h : Broken text lines) : unifyBreaks text = ['\n'].intercalate lines := by
  induction h with
  | last hline =>
      have hwhole := unifyBreaks_append hline []
      rw [List.append_nil] at hwhole
      rw [hwhole, unifyBreaks, List.append_nil, List.intercalate_singleton]
  | cons ending hline halone hrest ih =>
      rw [unifyBreaks_append hline, unifyBreaks_break halone, ih]
      cases hrest <;> simp [List.intercalate_cons_cons]

theorem Broken.exists_cons {text : List Char} {lines : List (List Char)} (h : Broken text lines)
    {c : Char} (hc : c ≠ '\r' ∧ c ≠ '\n') : ∃ lines', Broken (c :: text) lines' := by
  cases h with
  | last hline => exact ⟨_, .last (isLine_cons.mpr ⟨hc, hline⟩)⟩
  | cons ending hline halone hrest =>
      exact ⟨_, .cons ending (isLine_cons.mpr ⟨hc, hline⟩) halone hrest⟩

/-- Every text is read as lines with breaks between them. -/
theorem exists_broken (text : List Char) : ∃ lines, Broken text lines := by
  fun_induction unifyBreaks text with
  | case1 rest ih =>
      obtain ⟨lines, hlines⟩ := ih
      exact ⟨_, .cons .both isLine_nil (by simp) hlines⟩
  | case2 rest hpair ih =>
      obtain ⟨lines, hlines⟩ := ih
      refine ⟨_, .cons .carriageReturn isLine_nil (fun _ hhead => ?_) hlines⟩
      obtain ⟨tail, rfl⟩ := List.head?_eq_some_iff.mp hhead
      exact hpair tail rfl
  | case3 c rest _ hc ih =>
      obtain ⟨lines, hlines⟩ := ih
      by_cases hnewline : c = '\n'
      · subst hnewline
        exact ⟨_, .cons .newline isLine_nil (by simp) hlines⟩
      · exact hlines.exists_cons ⟨hc, hnewline⟩
  | case4 => exact ⟨_, .last isLine_nil⟩

theorem replace_cons_of_not {word new : List Char} {c : Char} {rest : List Char}
    (h : ¬ word <+: c :: rest) : replace word new (c :: rest) = c :: replace word new rest := by
  rw [replace, if_neg h]

theorem replace_append {word : List Char} (h : word ≠ []) (new rest : List Char) :
    replace word new (word ++ rest) = new ++ replace word new rest := by
  obtain ⟨c, more, rfl⟩ := List.exists_cons_of_ne_nil h
  have hfound : c :: more <+: c :: (more ++ rest) := List.prefix_append (c :: more) rest
  rw [List.cons_append, replace, if_pos hfound, List.length_cons, Nat.add_sub_cancel,
    List.drop_left]

/-- Replacing the pairs and then the carriage returns that are left gives one newline for
each break. -/
theorem unifyBreaks_eq_replace (text : List Char) :
    unifyBreaks text = replace ['\r'] ['\n'] (replace ['\r', '\n'] ['\n'] text) := by
  fun_induction unifyBreaks text with
  | case1 rest ih =>
      have hpair : replace ['\r', '\n'] ['\n'] ('\r' :: '\n' :: rest) =
          '\n' :: replace ['\r', '\n'] ['\n'] rest := replace_append (by simp) _ rest
      rw [hpair, replace_cons_of_not (by simp), ih]
  | case2 rest hpair ih =>
      have hreturn : ∀ text, replace ['\r'] ['\n'] ('\r' :: text) =
          '\n' :: replace ['\r'] ['\n'] text := fun text => replace_append (by simp) _ text
      rw [replace_cons_of_not, hreturn, ih]
      rintro ⟨tail, htail⟩
      exact hpair tail (List.cons.inj htail).2.symm
  | case3 c rest _ hc ih =>
      have hfirst : ∀ more text, ¬ ('\r' :: more) <+: c :: text := by
        rintro more text ⟨tail, htail⟩
        exact hc (List.cons.inj htail).1.symm
      rw [replace_cons_of_not (hfirst _ _), replace_cons_of_not (hfirst _ _), ih]
  | case4 => simp [replace]

/-! ## Versions of a text -/

theorem withBreaks_cons_newline (ending : Break) (rest : List Char) :
    withBreaks ending ('\n' :: rest) = ending.text ++ withBreaks ending rest := rfl

theorem withBreaks_cons {c : Char} (h : c ≠ '\n') (ending : Break) (rest : List Char) :
    withBreaks ending (c :: rest) = c :: withBreaks ending rest := by
  rw [withBreaks, List.flatMap_cons, if_neg h]
  rfl

theorem head?_withBreaks_carriageReturn (text : List Char) :
    (withBreaks .carriageReturn text).head? ≠ some '\n' := by
  cases text with
  | nil => simp [withBreaks]
  | cons c rest =>
      by_cases hc : c = '\n'
      · rw [hc, withBreaks_cons_newline]
        simp [Break.text]
      · rw [withBreaks_cons hc]
        exact fun heq => hc (Option.some.inj heq)

/-- Whatever break is written for its newlines, a text is read back. -/
theorem unifyBreaks_withBreaks (ending : Break) {text : List Char} (h : '\r' ∉ text) :
    unifyBreaks (withBreaks ending text) = text := by
  induction text with
  | nil => rfl
  | cons c rest ih =>
      obtain ⟨hc, hrest⟩ := not_or.mp (mt List.mem_cons.mpr h)
      by_cases hnewline : c = '\n'
      · rw [hnewline, withBreaks_cons_newline, unifyBreaks_break ?_, ih hrest]
        rintro rfl
        exact head?_withBreaks_carriageReturn rest
      · rw [withBreaks_cons hnewline, unifyBreaks_cons (Ne.symm hc), ih hrest]

end Rulebook.Text
