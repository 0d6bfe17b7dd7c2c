import Rulebook.Command.Request
import Rulebook.Proofs.Reading

/-! # Words of a command line

The name of a command stands for itself. An option that is written with an equals sign in front of
its value is read as what it is, and an option that is read is one that can be written.
-/

namespace Rulebook.Command

namespace CommandName

/-- The word for a command. -/
def word : CommandName → String
  | check => "check"
  | ast => "ast"
  | cst => "cst"

theorem ofString?_eq_some_iff {s : String} {command : CommandName} :
    ofString? s = some command ↔ s = command.word := by
  constructor
  · intro h
    unfold ofString? at h
    split at h <;> cases h <;> rfl
  · rintro rfl
    cases command <;> rfl

theorem ofString?_help_word (command : CommandName) :
    Word.ofString? [.help] command.word = some (.operand command.word) := by
  cases command <;> decide

end CommandName

theorem Setting.eq_of_letter? {s s' : Setting} {c : Char} (h : s.letter? = some c)
    (h' : s'.letter? = some c) : s = s' := by
  have hsame : s.letter? = s'.letter? := h.trans h'.symm
  have hsome : s.letter?.isSome = true := h ▸ rfl
  clear h h'
  cases s <;> cases s' <;> first | rfl | contradiction

/-! ## Options -/

namespace Mention

/-- An option as it can be written: with an equals sign in front of what is attached to it. -/
def text (m : Mention) : String :=
  let spelling :=
    if m.isLong then '-' :: '-' :: m.setting.name.toList else '-' :: m.setting.letter?.toList
  String.ofList (spelling ++ m.attached?.elim [] ('=' :: ·))

/-- An option that is written by its letter has one. -/
def IsWritten (m : Mention) : Prop := m.isLong = true ∨ m.setting.letter?.isSome = true

end Mention

namespace Word

/-- An operand stands for its own text. -/
theorem eq_of_ofString?_operand {known : List Setting} {s text : String}
    (h : ofString? known s = some (.operand text)) : text = s := by
  unfold ofString? at h
  split at h
  · cases h
  · simp only at h
    split at h
    · cases h
    split at h
    · cases h
    · cases h
    · split at h
      · cases h
        rfl
      · cases h
  · cases h
    rfl

/-- An option that is written is read again. -/
theorem ofString?_text {command : CommandName} {m : Mention} (hknown : m.setting ∈ command.settings)
    (written : m.IsWritten) : ofString? command.settings m.text = some (.option (some m)) := by
  obtain ⟨setting, isLong, attached?⟩ := m
  cases command <;> cases setting <;> simp [CommandName.settings] at hknown <;>
    cases isLong <;> simp [Mention.IsWritten, Setting.letter?] at written <;>
    cases attached? <;>
    simp [ofString?, Mention.text, spelled?, Setting.isSpelled, Setting.letter?, Setting.name,
      CommandName.settings, splitEquals, List.find?]

theorem splitEquals_prefix (word : List Char) : (splitEquals word).1 <+: word := by
  fun_induction splitEquals word with
  | case1 => exact List.prefix_rfl
  | case2 rest => exact List.nil_prefix
  | case3 c rest hc name value? hsplit ih =>
      rw [hsplit] at ih
      exact List.prefix_cons_inj c |>.mpr ih

/-- The full spelling of an option has two hyphens, or is its letter. -/
theorem isWritten_of_isSpelled {s : Setting} {name word : List Char} (h : s.isSpelled name = true)
    (hname : name <+: word) (attached? : Option (List Char)) :
    (Mention.mk s (word.take 2 = ['-', '-']) attached?).IsWritten := by
  obtain ⟨rest, rfl⟩ := hname
  rw [Setting.isSpelled, Bool.or_eq_true] at h
  obtain hlong | hletter := h
  · rw [eq_of_beq hlong]
    exact .inl rfl
  · refine .inr ?_
    cases hs : s.letter? with
    | none => simp [hs] at hletter
    | some c => rfl

theorem isWritten_of_spelled? {known : List Setting} {word : List Char} {m : Mention}
    (h : spelled? known word = some m) : m.IsWritten := by
  simp only [spelled?] at h
  split at h
  · next s hs =>
      cases h
      have hspelled := List.find?_some hs
      exact isWritten_of_isSpelled hspelled List.prefix_rfl _
  · split at h
    · cases h
    · next name value hsplit =>
        obtain ⟨s, hs, rfl⟩ := Option.map_eq_some_iff.mp h
        have hname : name <+: word := by simpa [hsplit] using splitEquals_prefix word
        have hspelled := List.find?_some hs
        exact isWritten_of_isSpelled hspelled hname _

theorem isWritten_of_mem_meanings {known : List Setting} {word : List Char} {m : Mention}
    (h : m ∈ meanings known word) : m.IsWritten := by
  unfold meanings at h
  split at h
  · obtain ⟨s, -, rfl⟩ := List.mem_map.mp h
    exact .inl rfl
  · obtain ⟨s, hs, rfl⟩ := List.mem_map.mp h
    have hletter := (List.mem_filter.mp hs).2
    exact .inr (by simp [of_decide_eq_true hletter])
  · cases h

theorem isWritten_of_ofString? {known : List Setting} {s : String} {m : Mention}
    (h : ofString? known s = some (.option (some m))) : m.IsWritten := by
  unfold ofString? at h
  split at h
  · cases h
  · simp only at h
    split at h
    · next hspelled =>
        cases h
        exact isWritten_of_spelled? hspelled
    split at h
    · next hmeanings =>
        cases h
        exact isWritten_of_mem_meanings (hmeanings ▸ List.mem_singleton_self _)
    · cases h
    · split at h <;> cases h
  · cases h

/-! ## Lines -/

variable {known : List Setting} {s : String} {strings : List String} {words : List Word}

theorem ofStrings?_cons {w : Word} (hword : ofString? known s = some w) (hw : w ≠ .separator) :
    ofStrings? known (s :: strings) = (ofStrings? known strings).map (w :: ·) := by
  rw [ofStrings?, hword]
  cases w with
  | separator => exact absurd rfl hw
  | operand | option => rfl

/-- A line is read word by word up to a separator. -/
theorem ofStrings?_cons_cases (h : ofStrings? known (s :: strings) = some words) :
    (ofString? known s = some .separator ∧ words = .separator :: strings.map .operand) ∨
      ∃ w rest, ofString? known s = some w ∧ w ≠ .separator ∧ words = w :: rest ∧
        ofStrings? known strings = some rest := by
  rw [ofStrings?] at h
  split at h
  · cases h
  · next hword =>
      cases h
      exact .inl ⟨hword, rfl⟩
  · next w hw hword =>
      obtain ⟨rest, hrest, rfl⟩ := Option.map_eq_some_iff.mp h
      exact .inr ⟨w, rest, hword, hw, rfl, hrest⟩

/-- Options that are read from a line are written in it. -/
theorem isWritten_of_ofStrings? (h : ofStrings? known strings = some words) :
    ∀ m, .option (some m) ∈ words → m.IsWritten := by
  induction strings generalizing words with
  | nil =>
      cases h
      exact fun m hm => absurd hm List.not_mem_nil
  | cons s strings ih =>
      obtain ⟨-, rfl⟩ | ⟨w, rest, hword, -, rfl, hrest⟩ := ofStrings?_cons_cases h
      · intro m hm
        simp at hm
      · intro m hm
        obtain rfl | hm := List.mem_cons.mp hm
        · exact isWritten_of_ofString? hword
        · exact ih hrest m hm

end Word

end Rulebook.Command
