import Rulebook.Proofs.Command.Arguments

/-! # Asking for progress

The option for progress can stand anywhere among the arguments of a command, by its letter or
by its name, and other letters can be run together with it. A command line that is understood
with it is understood without it as well, as the same request but for the progress.
-/

namespace Rulebook.Command

/-- The preferences of one who does not ask for progress. -/
def Preferences.quiet (p : Preferences) : Preferences := { p with debug := false }

namespace Request

/-- A request with other preferences. -/
def mapPreferences (f : Preferences → Preferences) : Request → Request
  | check paths preferences => check paths (f preferences)
  | ast path json output preferences => ast path json output (f preferences)
  | cst path preferences => cst path (f preferences)

/-- A request that does not ask for progress. -/
def quiet (request : Request) : Request := request.mapPreferences Preferences.quiet

/-- A request that asks for progress. -/
def loud (request : Request) : Request := request.mapPreferences fun p => { p with debug := true }

/-- A request asks for progress, or is the quiet one. -/
theorem eq_loud_or_quiet (request : Request) :
    request.preferences.debug = true ∧ request = request.loud ∨
      request.preferences.debug = false ∧ request = request.quiet := by
  cases request with
  | check paths preferences | ast path json output preferences | cst path preferences =>
      obtain ⟨debug, encoding⟩ := preferences
      cases debug
      · exact .inr ⟨rfl, rfl⟩
      · exact .inl ⟨rfl, rfl⟩

end Request

/-! ## The option in front of all others -/

namespace Arguments

/-- The option for progress, given first. -/
def debugGiven : List (Setting × Option String) := [(.debug, none)]

/-- The option for progress in front of the words of a command is read as given first. -/
theorem read_debug {many : Bool} (command : CommandName)
    (words : List String) :
    read command.settings many ("-D" :: words) =
      (read command.settings many words).map (after debugGiven) := by
  have hword : Word.ofString? command.settings "-D" = some (.option (some ⟨.debug, false, none⟩)) := by
    cases command <;> decide
  have hspelling : Spelling.ofMention? command.settings ⟨.debug, false, none⟩ =
      some ⟨debugGiven, none⟩ := rfl
  rw [read, Word.ofStrings?, hword, read]
  cases Word.ofStrings? command.settings words with
  | none => rfl
  | some words =>
      rw [← readFrom_after]
      simp only [Option.map_some]
      rw [readFrom]
      simp only [hspelling]
      rfl

theorem has_after_debugGiven {a : Arguments} {s : Setting} (h : s ≠ .debug) :
    (a.after debugGiven).has s = a.has s := by
  simp [has, after, debugGiven, h.symm]

theorem value?_after_debugGiven {a : Arguments} {s : Setting} (h : s ≠ .debug) :
    (a.after debugGiven).value? s = a.value? s := by
  simp [value?, after, debugGiven, h.symm]

end Arguments

namespace Request

theorem preferencesOf_after_debugGiven (a : Arguments) :
    preferencesOf (a.after Arguments.debugGiven) = { preferencesOf a with debug := true } := by
  rw [preferencesOf, Arguments.value?_after_debugGiven (by decide)]
  rfl

/-- Arguments that differ in the option for progress only make the same request with other
preferences. -/
theorem ofArguments_of_agree {a a' : Arguments} {f : Preferences → Preferences}
    (command : CommandName) (hoperands : a'.operands? = a.operands?)
    (hextra : a'.hasExtra = a.hasExtra) (hhas : ∀ s, s ≠ .debug → a'.has s = a.has s)
    (hvalue : ∀ s, s ≠ .debug → a'.value? s = a.value? s)
    (hpreferences : preferencesOf a' = f (preferencesOf a)) :
    ofArguments command a' = (ofArguments command a).map (mapPreferences f) := by
  have hmake : ∀ operands, ofOperands command operands a' =
      (ofOperands command operands a).map (mapPreferences f) := by
    intro operands
    simp only [ofOperands, hpreferences, hhas .json (by decide), hvalue .output (by decide)]
    split <;> rfl
  unfold ofArguments
  rw [hoperands, hextra, hhas .encoding (by decide), hvalue .encoding (by decide)]
  split
  · rfl
  split
  · rfl
  split
  · rfl
  · exact hmake _

theorem ofArguments_after_debugGiven (command : CommandName) (a : Arguments) :
    ofArguments command (a.after Arguments.debugGiven) = (ofArguments command a).map loud :=
  ofArguments_of_agree command rfl rfl (fun _ => Arguments.has_after_debugGiven)
    (fun _ => Arguments.value?_after_debugGiven) (preferencesOf_after_debugGiven a)

/-- The option for progress behind the name of a command makes the request a loud one, and
changes nothing about what is refused. -/
theorem ofCommandLine_debug (command : CommandName) (words : List String) :
    ofCommandLine (command.word :: "-D" :: words) =
      (ofCommandLine (command.word :: words)).map loud := by
  rw [ofCommandLine_word, ofCommandLine_word, Arguments.read_debug]
  cases Arguments.read command.settings command.takesMany words with
  | error r => rfl
  | ok a => exact ofArguments_after_debugGiven command a

end Request

/-! ## Lines without the option -/

/-- What is left of an option without the one for progress: letters that are run together with it. -/
def Mention.withoutDebug? (known : List Setting) (m : Mention) : Option Mention :=
  if m.setting = .debug then
    match (m.attached?.getD []).dropWhile fun c => Setting.debug.letter? = some c with
    | [] => none
    | letter :: value =>
        (known.find? fun s => s.letter? = some letter).map fun s =>
          ⟨s, false, if value = [] then none else some value⟩
  else some m

namespace Word

/-- What is left of a word without the option for progress. -/
def withoutDebug? (known : List Setting) (s : String) : Option String :=
  match ofString? known s with
  | some (.option (some m)) =>
      if m.setting = .debug then (m.withoutDebug? known).map Mention.text else some s
  | _ => some s

/-- The arguments of a command without the option for progress, which none is behind a separator. -/
def withoutDebug (known : List Setting) : List String → List String
  | [] => []
  | s :: rest =>
      if ofString? known s = some .separator then s :: rest
      else (withoutDebug? known s).toList ++ withoutDebug known rest

/-- The option for progress taken out of a word that has been read. -/
def quiet? (known : List Setting) : Word → Option Word
  | .option (some m) => (m.withoutDebug? known).map fun m => .option (some m)
  | w => some w

end Word

/-- A command line without the option for progress. -/
def Request.withoutDebug : List String → List String
  | [] => []
  | word :: rest =>
      match CommandName.ofString? word with
      | none => word :: rest
      | some command => word :: Word.withoutDebug command.settings rest

namespace Spelling

variable {known : List Setting} {sp : Spelling}

/-- A spelling without what asks for progress. -/
def withoutDebug (sp : Spelling) : Spelling := { sp with given := sp.given.filter (·.1 ≠ .debug) }

theorem withoutDebug_withFlag (sp : Spelling) :
    (sp.withFlag .debug).withoutDebug = sp.withoutDebug := rfl

theorem withoutDebug_alone {s : Setting} (h : s ≠ .debug) : (alone s).withoutDebug = alone s := by
  unfold alone
  split
  · rfl
  · simp [withoutDebug, h]

/-- Letters behind one that does not ask for progress do not ask for it, unless help is asked
for. -/
theorem withoutDebug_of_ofLetter? {s : Setting} {attached : List Char} (hs : s ≠ .debug)
    (hletter : s.letter?.isSome = true) (h : ofLetter? known s attached = some sp)
    (hhelp : ∀ x ∈ sp.given, x.1 ≠ .help) : sp.withoutDebug = sp := by
  cases s with
  | debug => exact absurd rfl hs
  | help => exact absurd rfl (hhelp _ (mem_given_of_ofLetter? rfl h))
  | json | encoding => cases hletter
  | output =>
      rw [ofLetter?.eq_def] at h
      cases h
      rfl

/-- Of letters that are run together, those behind the ones for progress give what is left. -/
theorem ofLetter?_debug {attached : List Char} (h : ofLetter? known .debug attached = some sp)
    (hhelp : ∀ x ∈ sp.given, x.1 ≠ .help) :
    ((Mention.mk .debug false (some attached)).withoutDebug? known).elim (some ⟨[], none⟩)
      (ofMention? known) = some sp.withoutDebug := by
  induction attached generalizing sp with
  | nil =>
      rw [ofLetter?.eq_def] at h
      cases h
  | cons letter rest ih =>
      rw [ofLetter?.eq_def] at h
      simp only [Setting.takesValue, Bool.false_eq_true, if_false] at h
      cases hnext : known.find? fun s => s.letter? = some letter with
      | none =>
          rw [hnext] at h
          cases h
      | some next =>
          have hletter := List.find?_some hnext
          rw [decide_eq_true_eq] at hletter
          rw [hnext] at h
          by_cases hdebug : Setting.debug.letter? = some letter
          · obtain rfl := Setting.eq_of_letter? hletter hdebug
            have hskip : (Mention.mk .debug false (some (letter :: rest))).withoutDebug? known =
                (Mention.mk .debug false (some rest)).withoutDebug? known := by
              simp [Mention.withoutDebug?, hdebug]
            rw [hskip]
            cases rest with
            | nil =>
                cases h
                rfl
            | cons c more =>
                obtain ⟨sp', hsp', rfl⟩ := Option.map_eq_some_iff.mp h
                rw [withoutDebug_withFlag]
                exact ih hsp' fun x hx => hhelp x (List.mem_cons_of_mem _ hx)
          · have hs : next ≠ .debug := by
              rintro rfl
              exact hdebug hletter
            have hkeep : (Mention.mk .debug false (some (letter :: rest))).withoutDebug? known =
                some ⟨next, false, if rest = [] then none else some rest⟩ := by
              simp [Mention.withoutDebug?, hdebug, hnext]
            rw [hkeep]
            cases rest with
            | nil =>
                cases h
                exact congrArg some (withoutDebug_alone hs).symm
            | cons c more =>
                obtain ⟨sp', hsp', rfl⟩ := Option.map_eq_some_iff.mp h
                have hsame := withoutDebug_of_ofLetter? hs (hletter ▸ rfl) hsp'
                  fun x hx => hhelp x (List.mem_cons_of_mem _ hx)
                rw [withoutDebug_withFlag, hsame]
                exact hsp'

/-- What is left of an option without the one for progress gives what is left of its settings. -/
theorem ofMention?_withoutDebug? {m : Mention} (written : m.IsWritten)
    (h : ofMention? known m = some sp) (hhelp : ∀ x ∈ sp.given, x.1 ≠ .help) :
    (m.withoutDebug? known).elim (some ⟨[], none⟩) (ofMention? known) = some sp.withoutDebug := by
  obtain ⟨s, isLong, attached?⟩ := m
  by_cases hs : s = .debug
  · subst hs
    cases attached? with
    | none =>
        cases h
        rfl
    | some attached =>
        cases isLong with
        | true => cases h
        | false => exact ofLetter?_debug h hhelp
  · have hkeep : (Mention.mk s isLong attached?).withoutDebug? known = some ⟨s, isLong, attached?⟩ :=
      if_neg hs
    have hsame : sp.withoutDebug = sp := by
      cases attached? with
      | none =>
          cases h
          exact withoutDebug_alone hs
      | some attached =>
          cases isLong with
          | false =>
              obtain hlong | hletter := written
              · cases hlong
              · exact withoutDebug_of_ofLetter? hs hletter h hhelp
          | true =>
              simp only [ofMention?, Bool.not_true, Bool.false_eq_true, if_false] at h
              split at h
              · cases h
                simp [withoutDebug, hs]
              · cases h
    rw [hkeep, hsame]
    exact h

end Spelling

/-! ### Arguments -/

namespace Arguments

variable {known : List Setting} {many : Bool}

/-- Arguments without what asks for progress. -/
def withoutDebug (a : Arguments) : Arguments := { a with given := a.given.filter (·.1 ≠ .debug) }

/-- A value that is awaited is found where options are taken out. -/
theorem complete?_withoutDebug {q : Word → Option Word}
    (hkeep : ∀ w, w.isOption = false → q w = some w) {sp : Spelling} {rest : List Word}
    {given : List (Setting × Option String)} {left : { left : List Word // left.length ≤ rest.length }}
    (hvalue : ∀ s, sp.awaiting? = some s → s ≠ .debug)
    (h : sp.complete? rest = some (given, left)) :
    ∃ left', sp.withoutDebug.complete? (rest.filterMap q) =
      some (given.filter (·.1 ≠ .debug), left') ∧ left'.1 = left.1.filterMap q := by
  obtain ⟨spelled, awaiting?⟩ := sp
  cases awaiting? with
  | none =>
      cases h
      exact ⟨⟨rest.filterMap q, Nat.le_refl _⟩, rfl, rfl⟩
  | some s =>
      cases rest with
      | nil => cases h
      | cons w more =>
          cases w with
          | operand value =>
              cases h
              rw [List.filterMap_cons_some (hkeep _ rfl), List.filter_append,
                List.filter_cons_of_pos (by simpa using hvalue s rfl), List.filter_nil]
              exact ⟨⟨more.filterMap q, Nat.le_succ _⟩, rfl, rfl⟩
          | separator | option => cases h

theorem quiet?_of_not_isOption (known : List Setting) (w : Word) (h : w.isOption = false) :
    w.quiet? known = some w := by
  cases w with
  | separator | operand => rfl
  | option m? => cases h

/-- Words that are understood with the option for progress are understood without it. No operands
stand behind other options once they have been read, so none come together when options between
them are taken out. -/
theorem readFrom_withoutDebug {read a : Arguments} {words : List Word}
    (h : readFrom known many read words = .ok a) (hextra : a.hasExtra = false)
    (written : ∀ m, .option (some m) ∈ words → m.IsWritten) :
    readFrom known many read.withoutDebug (words.filterMap (Word.quiet? known)) = .ok a.withoutDebug ∧
      (read.operands?.isSome = true →
        (words.filterMap (Word.quiet? known)).takeWhile (!·.isOption) = []) := by
  fun_induction readFrom known many read words with
  | case1 read =>
      cases h
      exact ⟨by simp [readFrom], fun _ => rfl⟩
  | case2 read rest ih | case7 read w rest _ _ _ ih | case8 read w rest _ _ _ _ ih =>
      rw [hasExtra_of_readFrom h rfl] at hextra
      cases hextra
  | case3 | case4 | case5 => cases h
  | case6 read m rest sp hspelling given left hcomplete hhelp ih =>
      have hmore : ∀ m', .option (some m') ∈ left.1 → m'.IsWritten := by
        intro m' hm'
        refine written m' (List.mem_cons_of_mem _ ?_)
        obtain ⟨-, -, hleft⟩ | ⟨s, value, -, -, hrest⟩ := given_of_complete? hcomplete
        · exact hleft ▸ hm'
        · exact hrest ▸ List.mem_cons_of_mem _ hm'
      obtain ⟨hread, hoptions⟩ := ih h hmore
      have hnohelp : ∀ x ∈ sp.given, x.1 ≠ .help := by
        simp only [List.any_eq_true, not_exists, not_and, decide_eq_true_eq] at hhelp
        obtain ⟨-, rfl, -⟩ | ⟨s, value, -, rfl, -⟩ := given_of_complete? hcomplete
        · exact hhelp
        · exact fun x hx => hhelp x (List.mem_append_left _ hx)
      have hspelled :=
        Spelling.ofMention?_withoutDebug? (written m List.mem_cons_self) hspelling hnohelp
      have hgiven : ({ read with given := read.given ++ given } : Arguments).withoutDebug =
          { read.withoutDebug with
            given := read.withoutDebug.given ++ given.filter (·.1 ≠ .debug) } := by
        simp [withoutDebug]
      rw [hgiven] at hread
      cases hm : m.withoutDebug? known with
      | none =>
          -- Nothing else is given, and nothing awaited.
          rw [hm] at hspelled
          have hsp : sp.withoutDebug = ⟨[], none⟩ := (Option.some.inj hspelled).symm
          have hfilter : sp.given.filter (·.1 ≠ .debug) = [] := congrArg Spelling.given hsp
          have hawaiting : sp.awaiting? = none := congrArg Spelling.awaiting? hsp
          obtain ⟨-, rfl, hleft⟩ | ⟨s, value, hsome, -⟩ := given_of_complete? hcomplete
          · rw [List.filterMap_cons_none (by simp [Word.quiet?, hm]), ← hleft]
            rw [hfilter, List.append_nil] at hread
            exact ⟨hread, hoptions⟩
          · rw [hawaiting] at hsome
            cases hsome
      | some m' =>
          rw [hm] at hspelled
          have hvalue : ∀ s, sp.awaiting? = some s → s ≠ .debug := by
            rintro s hs rfl
            cases Spelling.takesValue_of_ofMention? hspelling hs
          obtain ⟨left', hcomplete', hleft'⟩ :=
            complete?_withoutDebug (quiet?_of_not_isOption known) hvalue hcomplete
          have hword : (Word.option (some m)).quiet? known = some (.option (some m')) := by
            simp [Word.quiet?, hm]
          rw [List.filterMap_cons_some hword]
          refine ⟨?_, fun _ => rfl⟩
          have hnohelp' : (given.filter (·.1 ≠ .debug)).any (·.1 = .help) = false := by
            rw [Bool.eq_false_iff]
            intro hany
            obtain ⟨x, hx, hxhelp⟩ := List.any_eq_true.mp hany
            exact hhelp (List.any_eq_true.mpr ⟨x, (List.mem_filter.mp hx).1, hxhelp⟩)
          rw [readFrom_option hspelled hcomplete' hnohelp', hleft']
          exact hread
  | case9 read w rest unknown hknown operands texts left htaken ih =>
      have hmore : ∀ m', .option (some m') ∈ left → m'.IsWritten :=
        fun m' hm' => written m' (mem_of_takeOperands? htaken hm')
      obtain ⟨hread, hoptions⟩ := ih h hmore
      have htaken' := takeOperands?_filterMap (quiet?_of_not_isOption known) htaken (hoptions rfl)
      have hw : w.quiet? known = some w :=
        quiet?_of_not_isOption known w (not_isOption_of_ne unknown hknown)
      have operands' : ¬ read.withoutDebug.operands?.isSome = true := operands
      refine ⟨?_, fun hsome => absurd hsome operands⟩
      rw [List.filterMap_cons_some hw] at htaken' ⊢
      rw [readFrom_operands (not_isOption_of_ne unknown hknown) operands' htaken']
      exact hread

theorem has_withoutDebug {a : Arguments} {s : Setting} (h : s ≠ .debug) :
    a.withoutDebug.has s = a.has s := by
  simp only [has, withoutDebug, List.any_filter]
  congr 1
  funext x
  by_cases hx : x.1 = s <;> simp [hx, h]

theorem value?_withoutDebug {a : Arguments} {s : Setting} (h : s ≠ .debug) :
    a.withoutDebug.value? s = a.value? s := by
  simp only [value?, withoutDebug, ← List.filter_reverse, List.find?_filter]
  congr 2
  funext x
  by_cases hx : x.1 = s <;> simp [hx, h]

end Arguments

/-! ### Words -/

namespace Word

variable {known : List Setting} {s : String} {strings : List String} {words : List Word}

/-- Letters that are left of an option for progress are known. -/
theorem known_of_withoutDebug? {m left : Mention} (hdebug : m.setting = .debug)
    (h : m.withoutDebug? known = some left) : left.setting ∈ known ∧ left.IsWritten := by
  rw [Mention.withoutDebug?, if_pos hdebug] at h
  split at h
  · cases h
  · obtain ⟨s, hs, rfl⟩ := Option.map_eq_some_iff.mp h
    have hletter := List.find?_some hs
    rw [decide_eq_true_eq] at hletter
    exact ⟨List.mem_of_find?_eq_some hs, .inr (hletter ▸ rfl)⟩

/-- A word is left of a text just if it is left of the word that this is. -/
theorem withoutDebug?_cases {command : CommandName} {w : Word}
    (hword : ofString? command.settings s = some w) (hw : w ≠ .separator) :
    (withoutDebug? command.settings s = none ∧ w.quiet? command.settings = none) ∨
      ∃ s' w', withoutDebug? command.settings s = some s' ∧ w.quiet? command.settings = some w' ∧
        ofString? command.settings s' = some w' ∧ w' ≠ .separator := by
  rw [withoutDebug?, hword]
  cases w with
  | separator => exact absurd rfl hw
  | operand text => exact .inr ⟨s, _, rfl, rfl, hword, hw⟩
  | option m? =>
      cases m? with
      | none => exact .inr ⟨s, _, rfl, rfl, hword, hw⟩
      | some m =>
          by_cases hdebug : m.setting = .debug
          · simp only [hdebug, if_true, quiet?]
            cases hm : m.withoutDebug? command.settings with
            | none => exact .inl ⟨rfl, rfl⟩
            | some left =>
                obtain ⟨hknown, written⟩ := known_of_withoutDebug? hdebug hm
                exact .inr ⟨_, _, rfl, rfl, ofString?_text hknown written, by simp⟩
          · simp only [hdebug, if_false, quiet?, Mention.withoutDebug?]
            exact .inr ⟨s, _, rfl, rfl, hword, hw⟩

/-- The words of a line without the option for progress are those that are left of its words. -/
theorem ofStrings?_withoutDebug {command : CommandName}
    (h : ofStrings? command.settings strings = some words) :
    ofStrings? command.settings (withoutDebug command.settings strings) =
      some (words.filterMap (quiet? command.settings)) := by
  induction strings generalizing words with
  | nil =>
      cases h
      rfl
  | cons s strings ih =>
      rw [withoutDebug]
      obtain ⟨hword, rfl⟩ | ⟨w, rest, hword, hw, rfl, hrest⟩ := ofStrings?_cons_cases h
      · rw [if_pos hword, h, Arguments.filterMap_of_not_isOption (Arguments.quiet?_of_not_isOption _)]
        simp [isOption]
      · rw [if_neg fun hsep => hw (Option.some.inj (hword.symm.trans hsep))]
        obtain ⟨hs, hquiet⟩ | ⟨s', w', hs, hquiet, hword', hw'⟩ := withoutDebug?_cases hword hw
        · rw [hs, List.filterMap_cons_none hquiet]
          exact ih hrest
        · rw [hs, List.filterMap_cons_some hquiet]
          exact (ofStrings?_cons hword' hw').trans (congrArg (Option.map (w' :: ·)) (ih hrest))

/-- A line that does not have the option for progress is left as it is. -/
theorem withoutDebug_eq_self (h : ofStrings? known strings = some words)
    (hnone : ∀ m, .option (some m) ∈ words → m.setting ≠ .debug) :
    withoutDebug known strings = strings := by
  induction strings generalizing words with
  | nil => rfl
  | cons s strings ih =>
      rw [withoutDebug]
      obtain ⟨hword, rfl⟩ | ⟨w, rest, hword, hw, rfl, hrest⟩ := ofStrings?_cons_cases h
      · rw [if_pos hword]
      · have hs : withoutDebug? known s = some s := by
          unfold withoutDebug?
          split
          · next m hm =>
              obtain rfl := Option.some.inj (hword.symm.trans hm)
              exact if_neg (hnone m List.mem_cons_self)
          · rfl
        rw [if_neg fun hsep => hw (Option.some.inj (hword.symm.trans hsep)), hs,
          ih hrest fun m hm => hnone m (List.mem_cons_of_mem _ hm)]
        rfl

end Word

/-! ### Requests -/

namespace Request

theorem preferencesOf_withoutDebug (a : Arguments) :
    preferencesOf a.withoutDebug = (preferencesOf a).quiet := by
  have hnone : a.withoutDebug.has .debug = false := by
    simp [Arguments.has, Arguments.withoutDebug]
  rw [preferencesOf, Arguments.value?_withoutDebug (by decide), hnone]
  rfl

theorem ofArguments_withoutDebug (command : CommandName) (a : Arguments) :
    ofArguments command a.withoutDebug = (ofArguments command a).map quiet :=
  ofArguments_of_agree command rfl rfl (fun _ => Arguments.has_withoutDebug)
    (fun _ => Arguments.value?_withoutDebug) (preferencesOf_withoutDebug a)

/-- A command line that is understood is understood without the option for progress, and makes the
quiet request. It has this option if it makes a loud one, and is left as it is otherwise. -/
theorem ofCommandLine_withoutDebug {words : List String} {request : Request}
    (h : ofCommandLine words = .ok request) :
    ofCommandLine (withoutDebug words) = .ok request.quiet ∧
      (request = request.loud ∨ request = request.quiet ∧ withoutDebug words = words) := by
  by_cases hcommand : ∃ (command : CommandName) (rest : List String), words = command.word :: rest
  · obtain ⟨command, strings, rfl⟩ := hcommand
    have hname : CommandName.ofString? command.word = some command :=
      CommandName.ofString?_eq_some_iff.mpr rfl
    have hwithout : withoutDebug (command.word :: strings) =
        command.word :: Word.withoutDebug command.settings strings := by
      rw [withoutDebug, hname]
    rw [ofCommandLine_word] at h
    obtain ⟨a, hread, hrequest⟩ := bind_eq_ok.mp h
    obtain ⟨hextra, hpreferences⟩ := preferences_of_ofArguments hrequest
    unfold Arguments.read at hread
    split at hread
    · cases hread
    next words hwords =>
    have written := Word.isWritten_of_ofStrings? hwords
    obtain ⟨hquiet, -⟩ := Arguments.readFrom_withoutDebug hread hextra written
    refine ⟨?_, ?_⟩
    · have hread' : Arguments.read command.settings command.takesMany
          (Word.withoutDebug command.settings strings) = .ok a.withoutDebug := by
        rw [Arguments.read, Word.ofStrings?_withoutDebug hwords]
        exact hquiet
      rw [hwithout, ofCommandLine_word, hread', ok_bind, ofArguments_withoutDebug, hrequest]
      rfl
    · obtain ⟨-, hloud⟩ | ⟨hnone, hsame⟩ := request.eq_loud_or_quiet
      · exact .inl hloud
      · refine .inr ⟨hsame, ?_⟩
        rw [hwithout, Word.withoutDebug_eq_self hwords]
        intro m hm hdebug
        obtain ⟨sp, hsp, hgiven⟩ := (Arguments.given_of_readFrom hread).2 m hm
        have hflag : m.setting.takesValue = false := by rw [hdebug]; rfl
        have hmem := hgiven _ (Spelling.mem_given_of_ofMention? hflag hsp)
        have hasked : a.has .debug = true := List.any_eq_true.mpr ⟨_, hmem, by simp [hdebug]⟩
        rw [hpreferences] at hnone
        exact Bool.false_ne_true (hnone.symm.trans hasked)
  · obtain hrefused | hrefused :=
      ofCommandLine_of_ne_word fun command rest heq => hcommand ⟨command, rest, heq⟩
    · rw [hrefused] at h
      cases h
    · rw [hrefused] at h
      cases h

end Request

end Rulebook.Command
