import Mathlib.Algebra.Ring.Nat
import Mathlib.Data.List.Basic
import Rulebook.Text.Line
import Rulebook.Text.Quoted

/-! # Places and lines

A text in front of a place is made of the lines above, each with its newline, and of a
part of one more line. That gives the line and the column of the place, the line as it is
shown, and how the offset is had from them. A quoted text stands on one line.
-/

namespace Rulebook.Text

/-- Lines, each with its newline. -/
def finished (lines : List (List Char)) : List Char := lines.flatMap (· ++ ['\n'])

theorem finished_cons (line : List Char) (more : List (List Char)) (rest : List Char) :
    finished (line :: more) ++ rest = line ++ '\n' :: (finished more ++ rest) := by
  simp [finished]

/-- Every text is made of finished lines and of one that is not. -/
theorem exists_finished (text : List Char) : ∃ above line,
    text = finished above ++ line ∧ (∀ l ∈ above, '\n' ∉ l) ∧ '\n' ∉ line := by
  induction text with
  | nil => exact ⟨[], [], rfl, by simp, by simp⟩
  | cons c rest ih =>
      obtain ⟨above, line, rfl, habove, hline⟩ := ih
      by_cases hc : c = '\n'
      · exact ⟨[] :: above, line, by rw [finished_cons, hc]; rfl,
          List.forall_mem_cons.mpr ⟨List.not_mem_nil, habove⟩, hline⟩
      cases above with
      | nil =>
          refine ⟨[], c :: line, rfl, by simp, ?_⟩
          rw [List.mem_cons, not_or]
          exact ⟨Ne.symm hc, hline⟩
      | cons first more =>
          obtain ⟨hfirst, hmore⟩ := List.forall_mem_cons.mp habove
          refine ⟨(c :: first) :: more, line, by rw [finished_cons, finished_cons]; rfl, ?_, hline⟩
          refine List.forall_mem_cons.mpr ⟨?_, hmore⟩
          rw [List.mem_cons, not_or]
          exact ⟨Ne.symm hc, hfirst⟩

theorem Position.advance_of_notMem {line : List Char} (h : '\n' ∉ line) (p : Position) :
    p.advance line = ⟨p.offset + line.length, p.line, p.column + line.length⟩ := by
  induction line generalizing p with
  | nil => rfl
  | cons c rest ih =>
      obtain ⟨hc, hrest⟩ := not_or.mp (mt List.mem_cons.mpr h)
      rw [Position.advance_cons, ih hrest, Position.step, if_neg (Ne.symm hc), List.length_cons]
      simp only [Position.mk.injEq, true_and]
      omega

theorem Position.advance_finished {above : List (List Char)} (h : ∀ l ∈ above, '\n' ∉ l)
    {p : Position} (hp : p.column = 1) :
    p.advance (finished above) =
      ⟨p.offset + (above.map List.length).sum + above.length, p.line + above.length, 1⟩ := by
  induction above generalizing p with
  | nil => rw [← hp]; rfl
  | cons line more ih =>
      obtain ⟨hline, hmore⟩ := List.forall_mem_cons.mp h
      have hfirst := finished_cons line more []
      rw [List.append_nil, List.append_nil] at hfirst
      rw [hfirst, Position.advance_append, Position.advance_of_notMem hline, Position.advance_cons,
        Position.step, if_pos rfl, ih hmore rfl]
      simp only [List.map_cons, List.sum_cons, List.length_cons, Position.mk.injEq, and_true]
      omega

theorem splitOn_finished {above : List (List Char)} (h : ∀ l ∈ above, '\n' ∉ l) (rest : List Char) :
    (finished above ++ rest).splitOn '\n' = above ++ rest.splitOn '\n' := by
  induction above with
  | nil => rfl
  | cons line more ih =>
      obtain ⟨hline, hmore⟩ := List.forall_mem_cons.mp h
      rw [finished_cons, List.splitOn_append_cons_self_of_not_mem hline, ih hmore, List.cons_append]

theorem head?_splitOn (text : List Char) :
    (text.splitOn '\n').head? = some (text.takeWhile (· ≠ '\n')) := by
  induction text with
  | nil => rfl
  | cons c rest ih =>
      rw [List.splitOn_cons_eq_if_modifyHead, List.takeWhile_cons]
      by_cases hc : c = '\n'
      · simp [hc]
      · simp [hc, List.head?_modifyHead, ih]

/-- The line of a place is shown from behind the last newline in front on. -/
theorem lineAt_finished {line : List Char} (h : '\n' ∉ line) (above : List (List Char))
    (back : List Char) :
    lineAt (finished above ++ line ++ back) (finished above ++ line).length =
      line ++ back.takeWhile (· ≠ '\n') := by
  have hline : ∀ c ∈ line.reverse, decide (c ≠ '\n') = true := by
    intro c hc
    rw [decide_eq_true_eq]
    rintro rfl
    exact h (List.mem_reverse.mp hc)
  have hend : (finished above).reverse.takeWhile (· ≠ '\n') = [] := by
    rcases above.eq_nil_or_concat with rfl | ⟨front, last, rfl⟩
    · rfl
    · simp [finished]
  rw [lineAt, List.take_left, List.drop_left, List.reverse_append,
    List.takeWhile_append_of_pos hline, hend, List.append_nil, List.reverse_reverse]

/-- A place in a text is given by its line and its column: the line is one of the text, the
column is one of the line, or follows it, and what is in front of the place are the lines
above, with their newlines, and the columns in front. -/
structure Position.PointsInto (p : Position) (text : List Char) (shown : List Char) : Prop where
  line_pos : 1 ≤ p.line
  shown_eq : (text.splitOn '\n')[p.line - 1]? = some shown
  column_pos : 1 ≤ p.column
  column_le : p.column ≤ shown.length + 1
  offset_eq : p.offset =
    (((text.splitOn '\n').take (p.line - 1)).map List.length).sum + (p.line - 1) + (p.column - 1)

/-- The place behind the front of a text points into the line that is shown for it. -/
theorem Position.pointsInto_advance (front back : List Char) :
    (Position.start.advance front).PointsInto (front ++ back)
      (lineAt (front ++ back) front.length) := by
  obtain ⟨above, line, rfl, habove, hline⟩ := exists_finished front
  have hplace : Position.start.advance (finished above ++ line) =
      ⟨(above.map List.length).sum + above.length + line.length, above.length + 1,
        line.length + 1⟩ := by
    rw [Position.advance_append, Position.advance_finished habove rfl,
      Position.advance_of_notMem hline]
    simp only [Position.start, Position.mk.injEq]
    omega
  have hlines : (finished above ++ line ++ back).splitOn '\n' =
      above ++ (line ++ back).splitOn '\n' := by
    rw [List.append_assoc, splitOn_finished habove]
  rw [hplace, lineAt_finished hline]
  refine ⟨Nat.le_add_left 1 _, ?_, Nat.le_add_left 1 _, ?_, ?_⟩
  · have hfirst : (line ++ back).takeWhile (· ≠ '\n') = line ++ back.takeWhile (· ≠ '\n') := by
      refine List.takeWhile_append_of_pos fun c hc => ?_
      rw [decide_eq_true_eq]
      rintro rfl
      exact hline hc
    rw [hlines, Nat.add_sub_cancel, List.getElem?_append_right (Nat.le_refl _), Nat.sub_self,
      ← List.head?_eq_getElem?, head?_splitOn, hfirst]
  · simp
  · rw [hlines]
    simp

/-! ## Quoted text -/

theorem isPrintable_of_mem_hexDigits {width n : Nat} {c : Char} (h : c ∈ hexDigits width n) :
    isPrintable c := by
  have hdigit : ∀ d < 16, isPrintable (Nat.digitChar d) := by decide
  induction width generalizing n with
  | zero => cases h
  | succ width ih =>
      rw [hexDigits, List.mem_append, List.mem_singleton] at h
      rcases h with h | rfl
      · exact ih h
      · exact hdigit _ (Nat.mod_lt n (by decide))

theorem isPrintable_of_mem_codePointEscape {n : Nat} {c : Char} (h : c ∈ codePointEscape n) :
    isPrintable c := by
  have hescape : ∃ mark width, isPrintable mark ∧
      codePointEscape n = '\\' :: mark :: hexDigits width n := by
    unfold codePointEscape
    split
    · exact ⟨'x', 2, by decide, rfl⟩
    split
    · exact ⟨'u', 4, by decide, rfl⟩
    · exact ⟨'U', 8, by decide, rfl⟩
  obtain ⟨mark, width, hmark, heq⟩ := hescape
  rw [heq, List.mem_cons, List.mem_cons] at h
  rcases h with rfl | rfl | h
  · decide
  · exact hmark
  · exact isPrintable_of_mem_hexDigits h

theorem isPrintable_of_mem_quotedChar {quote c d : Char} (hquote : isPrintable quote)
    (h : d ∈ quotedChar quote c) : isPrintable d := by
  have hpair : ∀ {mark : Char}, isPrintable mark → d ∈ ['\\', mark] → isPrintable d := by
    intro mark hmark hd
    rcases List.mem_pair.mp hd with rfl | rfl
    · decide
    · exact hmark
  unfold quotedChar at h
  split at h
  · next hescaped =>
      rw [Bool.or_eq_true, decide_eq_true_eq, decide_eq_true_eq] at hescaped
      rcases hescaped with rfl | rfl
      · exact hpair hquote h
      · exact hpair (by decide) h
  split at h
  · exact hpair (by decide) h
  split at h
  · exact hpair (by decide) h
  split at h
  · exact hpair (by decide) h
  split at h
  · next hprints => rwa [List.mem_singleton.mp h]
  · exact isPrintable_of_mem_codePointEscape h

/-- What a text is displayed with prints. -/
theorem isPrintable_of_mem_quoted {text : List Char} {c : Char} (h : c ∈ quoted text) :
    isPrintable c := by
  have hquote : isPrintable (preferredQuote text) := by
    unfold preferredQuote
    split <;> decide
  rw [quoted, List.cons_append, List.mem_cons, List.mem_append, List.mem_singleton] at h
  rcases h with rfl | h | rfl
  · exact hquote
  · obtain ⟨d, -, hd⟩ := List.mem_flatMap.mp h
    exact isPrintable_of_mem_quotedChar hquote hd
  · exact hquote

theorem newline_notMem_of_isPrintable {text : List Char} (h : ∀ c ∈ text, isPrintable c) :
    '\n' ∉ text :=
  fun hmem => absurd (h _ hmem) (by decide)

/-- A text is displayed on one line. -/
theorem newline_notMem_quoted (text : List Char) : '\n' ∉ quoted text :=
  newline_notMem_of_isPrintable fun _ => isPrintable_of_mem_quoted

end Rulebook.Text
