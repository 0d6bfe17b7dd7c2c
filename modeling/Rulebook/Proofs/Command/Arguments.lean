import Rulebook.Proofs.Command.Words

/-! # Arguments of a command

What the words of a command line give: every option that is read is understood, operands are taken
together, and what has been given before does not change how words are read.
-/

namespace Rulebook.Command

/-! ## Spellings -/

namespace Spelling

variable {known : List Setting} {sp : Spelling}

/-- A letter without a value is given, whatever is attached to it. -/
theorem mem_given_of_ofLetter? {s : Setting} {attached : List Char} (hflag : s.takesValue = false)
    (h : ofLetter? known s attached = some sp) : (s, none) ∈ sp.given := by
  rw [ofLetter?.eq_def, hflag] at h
  simp only [Bool.false_eq_true, if_false] at h
  split at h
  · cases h
  split at h
  · cases h
  · cases h
    exact List.mem_cons_self
  · obtain ⟨_, -, rfl⟩ := Option.map_eq_some_iff.mp h
    exact List.mem_cons_self

/-- An option without a value is given. -/
theorem mem_given_of_ofMention? {m : Mention} (hflag : m.setting.takesValue = false)
    (h : ofMention? known m = some sp) : (m.setting, none) ∈ sp.given := by
  unfold ofMention? at h
  split at h
  · cases h
    simp [alone, hflag]
  · split at h
    · exact mem_given_of_ofLetter? hflag h
    · rw [hflag] at h
      cases h

theorem takesValue_of_alone {s r : Setting} (h : (alone r).awaiting? = some s) :
    s.takesValue = true := by
  unfold alone at h
  split at h
  · next hvalue =>
      cases h
      exact hvalue
  · cases h

/-- Only an option that takes a value awaits one. -/
theorem takesValue_of_ofLetter? {s r : Setting} {attached : List Char}
    (h : ofLetter? known r attached = some sp) (hs : sp.awaiting? = some s) : s.takesValue = true := by
  fun_induction ofLetter? known r attached generalizing sp with
  | case1 r attached hvalue =>
      cases h
      cases hs
  | case2 r hflag => cases h
  | case3 r hflag c rest hnone => cases h
  | case4 r hflag c next hnext =>
      cases h
      exact takesValue_of_alone hs
  | case5 r hflag c rest next hnext hrest ih =>
      obtain ⟨sp', hsp', rfl⟩ := Option.map_eq_some_iff.mp h
      exact ih hsp' hs

theorem takesValue_of_ofMention? {s : Setting} {m : Mention} (h : ofMention? known m = some sp)
    (hs : sp.awaiting? = some s) : s.takesValue = true := by
  unfold ofMention? at h
  split at h
  · cases h
    exact takesValue_of_alone hs
  · split at h
    · exact takesValue_of_ofLetter? h hs
    · split at h <;> cases h
      cases hs

end Spelling

namespace Arguments

variable {known : List Setting} {many : Bool}

/-- What an option gives is given, with the value that it awaits. -/
theorem given_of_complete? {sp : Spelling} {rest : List Word} {given : List (Setting × Option String)}
    {left : { left : List Word // left.length ≤ rest.length }}
    (h : sp.complete? rest = some (given, left)) :
    (sp.awaiting? = none ∧ given = sp.given ∧ left.1 = rest) ∨
      ∃ s value, sp.awaiting? = some s ∧ given = sp.given ++ [(s, some value)] ∧
        rest = .operand value :: left.1 := by
  obtain ⟨spelled, awaiting?⟩ := sp
  cases awaiting? with
  | none =>
      cases h
      exact .inl ⟨rfl, rfl, rfl⟩
  | some s =>
      cases rest with
      | nil => cases h
      | cons w more =>
          cases w with
          | operand value =>
              cases h
              exact .inr ⟨s, value, rfl, rfl, rfl⟩
          | separator | option => cases h

/-! ## Operands -/

/-- The operands of a command are no options: these are all left. -/
theorem option_mem_of_takeOperands? {words left : List Word} {texts : List String}
    (h : takeOperands? many words = some (texts, left)) {m? : Option Mention}
    (hm : Word.option m? ∈ words) : Word.option m? ∈ left := by
  unfold takeOperands? at h
  simp only at h
  split at h
  · split at h
    · cases h
    · cases h
      rw [← List.takeWhile_append_dropWhile (p := fun w : Word => !w.isOption) (l := words)] at hm
      obtain hm | hm := List.mem_append.mp hm
      · exact absurd (List.all_eq_true.mp List.all_takeWhile _ hm) Bool.false_ne_true
      · exact hm
  · split at h <;> cases h <;> simpa using hm

/-- What is left behind the operands stands among the words. -/
theorem mem_of_takeOperands? {words left : List Word} {texts : List String}
    (h : takeOperands? many words = some (texts, left)) {w : Word} (hw : w ∈ left) : w ∈ words := by
  unfold takeOperands? at h
  simp only at h
  split at h
  · split at h
    · cases h
    · cases h
      exact (List.dropWhile_suffix _).subset hw
  · split at h <;> cases h <;> simp [hw]

/-- Words that are no options stay where options are taken out. -/
theorem filterMap_of_not_isOption {q : Word → Option Word}
    (hkeep : ∀ w, w.isOption = false → q w = some w) {words : List Word}
    (h : ∀ w ∈ words, w.isOption = false) : words.filterMap q = words := by
  induction words with
  | nil => rfl
  | cons w rest ih =>
      obtain ⟨hw, hrest⟩ := List.forall_mem_cons.mp h
      rw [List.filterMap_cons_some (hkeep w hw), ih hrest]

/-- Options that are taken out behind the operands leave these as they are, if no other words come
to stand behind them. -/
theorem takeOperands?_filterMap {q : Word → Option Word}
    (hkeep : ∀ w, w.isOption = false → q w = some w) {words left : List Word} {texts : List String}
    (h : takeOperands? many words = some (texts, left))
    (hleft : (left.filterMap q).takeWhile (!·.isOption) = []) :
    takeOperands? many (words.filterMap q) = some (texts, left.filterMap q) := by
  unfold takeOperands? at h ⊢
  cases many with
  | true =>
      simp only [if_true] at h ⊢
      split at h
      · cases h
      next htexts =>
      cases h
      generalize hfront : words.takeWhile (!·.isOption) = front at htexts
      generalize hback : words.dropWhile (!·.isOption) = back at hleft
      have hwords : words = front ++ back := by
        rw [← hfront, ← hback, List.takeWhile_append_dropWhile]
      have hnone : ∀ w ∈ front, w.isOption = false := by
        intro w hw
        have hw := List.all_eq_true.mp List.all_takeWhile w (hfront ▸ hw)
        rwa [Bool.not_eq_true'] at hw
      have htake : (words.filterMap q).takeWhile (!·.isOption) = front := by
        rw [hwords, List.filterMap_append, filterMap_of_not_isOption hkeep hnone,
          List.takeWhile_append_of_pos fun w hw => by simp [hnone w hw], hleft, List.append_nil]
      have hdrop : (words.filterMap q).dropWhile (!·.isOption) = back.filterMap q := by
        rw [hwords, List.filterMap_append, filterMap_of_not_isOption hkeep hnone,
          List.dropWhile_append_of_pos fun w hw => by simp [hnone w hw]]
        exact (hleft ▸ List.takeWhile_append_dropWhile :)
      rw [htake, hdrop]
      split
      · next hnil => exact absurd hnil htexts
      · rfl
  | false =>
      simp only [Bool.false_eq_true, if_false] at h ⊢
      split at h
      · cases h
        rw [List.filterMap_cons_some (hkeep _ rfl), List.filterMap_cons_some (hkeep _ rfl)]
      · cases h
        rw [List.filterMap_cons_some (hkeep _ rfl), List.filterMap_cons_some (hkeep _ rfl)]
      · cases h
        rw [List.filterMap_cons_some (hkeep _ rfl)]
        cases hmore : left.filterMap q with
        | nil => rfl
        | cons w more =>
            cases w with
            | option m? => rfl
            | separator | operand => simp [hmore, Word.isOption] at hleft
      · cases h

theorem not_isOption_of_ne {w : Word} (hunknown : w = .option none → False)
    (hknown : ∀ m, w = .option (some m) → False) : w.isOption = false := by
  cases w with
  | separator | operand => rfl
  | option m? =>
      cases m? with
      | none => exact (hunknown rfl).elim
      | some m => exact (hknown m rfl).elim

/-! ## Reading -/

/-- An option that is understood is read with its value. -/
theorem readFrom_option {read : Arguments} {m : Mention} {rest : List Word} {sp : Spelling}
    {given : List (Setting × Option String)} {left : { left : List Word // left.length ≤ rest.length }}
    (hspelling : Spelling.ofMention? known m = some sp)
    (hcomplete : sp.complete? rest = some (given, left))
    (hhelp : given.any (·.1 = .help) = false) :
    readFrom known many read (.option (some m) :: rest) =
      readFrom known many { read with given := read.given ++ given } left.1 := by
  rw [readFrom]
  simp only [hspelling, hcomplete, hhelp, Bool.false_eq_true, if_false]

/-- Operands that are taken are read together. -/
theorem readFrom_operands {read : Arguments} {w : Word} {rest left : List Word} {texts : List String}
    (hw : w.isOption = false) (operands : ¬ read.operands?.isSome = true)
    (htaken : takeOperands? many (w :: rest) = some (texts, left)) :
    readFrom known many read (w :: rest) =
      readFrom known many { read with operands? := some texts } left := by
  rw [readFrom, if_neg operands]
  · split
    · next htaken' => rw [htaken] at htaken'; cases htaken'
    · next htaken' =>
        rw [htaken] at htaken'
        cases htaken'
        rfl
  · rintro rfl
    cases hw
  · rintro m rfl
    cases hw

/-- What belongs to nothing stays so. -/
theorem hasExtra_of_readFrom {read a : Arguments} {words : List Word}
    (h : readFrom known many read words = .ok a) (hextra : read.hasExtra = true) :
    a.hasExtra = true := by
  fun_induction readFrom known many read words with
  | case1 read =>
      cases h
      exact hextra
  | case2 read rest ih | case7 read w rest _ _ _ ih | case8 read w rest _ _ _ _ ih => exact ih h rfl
  | case3 | case4 | case5 => cases h
  | case6 read m rest sp hspelling given left hcomplete hhelp ih => exact ih h hextra
  | case9 read w rest _ _ _ texts left htaken ih => exact ih h hextra

/-- All options that are read are understood, and what they give is given. -/
theorem given_of_readFrom {read a : Arguments} {words : List Word}
    (h : readFrom known many read words = .ok a) :
    (∀ x ∈ read.given, x ∈ a.given) ∧ ∀ m, .option (some m) ∈ words →
      ∃ sp, Spelling.ofMention? known m = some sp ∧ ∀ x ∈ sp.given, x ∈ a.given := by
  fun_induction readFrom known many read words with
  | case1 read =>
      cases h
      exact ⟨fun x hx => hx, fun m hm => absurd hm List.not_mem_nil⟩
  | case2 read rest ih =>
      obtain ⟨hgiven, hmentions⟩ := ih h
      exact ⟨hgiven, fun m hm => hmentions m (by simpa using hm)⟩
  | case3 | case4 | case5 => cases h
  | case6 read m rest sp hspelling given left hcomplete hhelp ih =>
      obtain ⟨hgiven, hmentions⟩ := ih h
      have hleft : ∀ m', .option (some m') ∈ rest → .option (some m') ∈ left.1 := by
        intro m' hm'
        obtain ⟨-, -, hsame⟩ | ⟨s, value, -, -, hrest⟩ := given_of_complete? hcomplete
        · rw [hsame]
          exact hm'
        · rw [hrest] at hm'
          simpa using hm'
      have hspelled : ∀ x ∈ sp.given, x ∈ given := by
        intro x hx
        obtain ⟨-, rfl, -⟩ | ⟨s, value, -, rfl, -⟩ := given_of_complete? hcomplete
        · exact hx
        · exact List.mem_append_left _ hx
      refine ⟨fun x hx => hgiven x (List.mem_append_left _ hx), fun m' hm' => ?_⟩
      obtain heq | hm' := List.mem_cons.mp hm'
      · cases heq
        exact ⟨sp, hspelling, fun x hx => hgiven x (List.mem_append_right _ (hspelled x hx))⟩
      · exact hmentions m' (hleft m' hm')
  | case7 read w rest unknown known _ ih | case8 read w rest unknown known _ _ ih =>
      obtain ⟨hgiven, hmentions⟩ := ih h
      refine ⟨hgiven, fun m hm => hmentions m ?_⟩
      obtain heq | hm := List.mem_cons.mp hm
      · exact absurd heq.symm (known m)
      · exact hm
  | case9 read w rest _ _ _ texts left htaken ih =>
      obtain ⟨hgiven, hmentions⟩ := ih h
      exact ⟨hgiven, fun m hm => hmentions m (option_mem_of_takeOperands? htaken hm)⟩

/-- Arguments with something given before all else. -/
def after (first : List (Setting × Option String)) (a : Arguments) : Arguments :=
  { a with given := first ++ a.given }

/-- What has been given before does not change how words are read. -/
theorem readFrom_after (first : List (Setting × Option String)) (read : Arguments)
    (words : List Word) :
    readFrom known many (read.after first) words =
      (readFrom known many read words).map (after first) := by
  fun_induction readFrom known many read words with
  | case1 read => simp [readFrom, Except.map]
  | case2 read rest ih => rw [readFrom]; exact ih
  | case3 read m rest hspelling => simp [readFrom, hspelling, Except.map]
  | case4 read m rest sp hspelling hcomplete => simp [readFrom, hspelling, hcomplete, Except.map]
  | case5 read m rest sp hspelling given left hcomplete hhelp =>
      rw [readFrom]
      simp only [hspelling, hcomplete, hhelp, if_true]
      rfl
  | case6 read m rest sp hspelling given left hcomplete hhelp ih =>
      rw [readFrom, ← ih]
      simp only [hspelling, hcomplete, hhelp, if_false, Bool.false_eq_true, after, List.append_assoc]
  | case7 read w rest unknown known operands ih =>
      rw [readFrom, if_pos (show (read.after first).operands?.isSome = true from operands)]
      · exact ih
      · exact unknown
      · exact known
  | case8 read w rest unknown known operands htaken ih =>
      rw [readFrom, if_neg (show ¬ (read.after first).operands?.isSome = true from operands)]
      · split
        · exact ih
        · next htaken' => rw [htaken] at htaken'; cases htaken'
      · exact unknown
      · exact known
  | case9 read w rest unknown known operands texts left htaken ih =>
      rw [readFrom, if_neg (show ¬ (read.after first).operands?.isSome = true from operands)]
      · split
        · next htaken' => rw [htaken] at htaken'; cases htaken'
        · next htaken' =>
            rw [htaken] at htaken'
            cases htaken'
            exact ih
      · exact unknown
      · exact known

end Arguments

/-! ## Requests -/

namespace Request

/-- The settings that all commands share. -/
def preferences : Request → Preferences
  | check _ preferences => preferences
  | ast _ _ _ preferences => preferences
  | cst _ preferences => preferences

/-- Arguments that make a request have nothing that belongs to nothing, and ask for progress if the
request does. -/
theorem preferences_of_ofArguments {command : CommandName} {a : Arguments} {request : Request}
    (h : ofArguments command a = .ok request) :
    a.hasExtra = false ∧ request.preferences = preferencesOf a := by
  unfold ofArguments at h
  split at h
  · cases h
  split at h
  · cases h
  next hextra =>
  split at h
  · cases h
  refine ⟨Bool.eq_false_iff.mpr hextra, ?_⟩
  unfold ofOperands at h
  split at h <;> cases h <;> rfl

/-- The words behind the name of a command are its arguments. -/
theorem ofCommandLine_word (command : CommandName) (words : List String) :
    ofCommandLine (command.word :: words) =
      Arguments.read command.settings command.takesMany words >>= ofArguments command := by
  have hcommand : CommandName.ofString? command.word = some command :=
    CommandName.ofString?_eq_some_iff.mpr rfl
  rw [ofCommandLine, command.ofString?_help_word]
  simp only [hcommand]
  cases Arguments.read command.settings command.takesMany words <;> rfl

/-- Words that do not begin with the name of a command make no request. -/
theorem ofCommandLine_of_ne_word {words : List String}
    (h : ∀ (command : CommandName) rest, words ≠ command.word :: rest) :
    ofCommandLine words = .error .help ∨ ofCommandLine words = .error .misuse := by
  cases words with
  | nil => exact .inr rfl
  | cons word rest =>
      rw [ofCommandLine]
      split
      · next name hword =>
          cases hname : CommandName.ofString? name with
          | none => exact .inr rfl
          | some command =>
              have hsame := Word.eq_of_ofString?_operand hword
              have hspelled := CommandName.ofString?_eq_some_iff.mp hname
              exact absurd (by rw [← hsame, hspelled]) (h command rest)
      · split
        · exact .inl rfl
        · exact .inr rfl
      · split
        · exact .inr rfl
        · exact .inl rfl
      · exact .inr rfl
      · exact .inr rfl

end Request

end Rulebook.Command
