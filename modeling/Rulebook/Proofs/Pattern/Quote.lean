import Rulebook.Pattern.Parse
import Rulebook.Proofs.Pattern.Match
import Rulebook.Proofs.Pattern.Sets

/-! # Texts as patterns

With a backslash before every character but letters and digits of ASCII, a text spells the pattern
of its characters one after another, under all flags. What matches it is as long, and every
character of it counts as one with the character at its place.
-/

namespace Rulebook.Pattern

variable {flags : Flags}

/-! ## Spelling -/

/-- A text with a backslash before every character but letters and digits of ASCII. -/
def escaped : List Char → List Char
  | [] => []
  | c :: rest => if c.isAlphanum then c :: escaped rest else '\\' :: c :: escaped rest

/-- The pattern of the characters of a text one after another. -/
def ofText (text : List Char) : Pattern := inTurn (text.map fun c => one (.single c))

theorem isBlank_of_isAlphanum {c : Char} (h : c.isAlphanum = true) : Text.isBlank c = false := by
  rw [Text.isAlphanum_iff] at h
  simp only [Text.isBlank, Bool.or_eq_false_iff, Bool.and_eq_false_iff, decide_eq_false_iff_not,
    beq_eq_false_iff_ne]
  omega

theorem skipIgnored_escaped (text : List Char) :
    skipIgnored false (escaped text) = escaped text := by
  cases text with
  | nil => rfl
  | cons c rest =>
    rw [escaped]
    split
    · rename_i hc
      have hsharp : c ≠ '#' := by rintro rfl; exact absurd hc (by decide)
      simp [skipIgnored, isBlank_of_isAlphanum hc, hsharp]
    · rfl

/-- Nothing is skipped in front of an escaped text. -/
theorem ahead_escaped (text : List Char) : ahead flags (escaped text) = escaped text := by
  unfold ahead
  split
  · exact skipIgnored_escaped text
  · rfl

/-- An escaped character that is no letter and no digit of ASCII stands for itself. -/
theorem escape?_of_not_isAlphanum {c : Char} (h : ¬ c.isAlphanum = true) :
    escape? c = some (.range c c) := by
  unfold escape?
  split <;> first | rfl | exact absurd (by decide) h | exact if_neg h

theorem isMark_head_escaped {text rest : List Char} {c : Char} (h : escaped text = c :: rest) :
    isMark c = false := by
  cases text with
  | nil => cases h
  | cons d more =>
    rw [escaped] at h
    split at h
    · rename_i hd
      obtain ⟨rfl, -⟩ := List.cons.inj h
      have hne : ∀ mark : Char, mark.isAlphanum = false → d ≠ mark := by
        rintro mark hmark rfl
        rw [hd] at hmark
        cases hmark
      simp [isMark, hne '?' rfl, hne '*' rfl, hne '+' rfl]
    · obtain ⟨rfl, -⟩ := List.cons.inj h
      rfl

/-- No repetition stands in an escaped text. -/
theorem repetition_escaped (text : List Char) (p : Pattern) :
    repetition flags (escaped text) p = ⟨p, escaped text, Nat.lt_succ_self _⟩ := by
  unfold repetition
  split
  · rename_i hnil
    rw [ahead_escaped] at hnil
    simp [hnil]
  · rename_i mark rest hmark
    rw [ahead_escaped] at hmark
    simp [isMark_head_escaped hmark]

/-- The first piece of an escaped text is its first character. -/
theorem piece_escaped (flags : Flags) (c : Char) (rest : List Char) :
    ∃ head more, escaped (c :: rest) = head :: more ∧ (head = '|' || head = ')') = false ∧
      ∃ short, piece flags (head :: more) = some ⟨one (.single c), escaped rest, short⟩ := by
  rw [escaped]
  split
  · rename_i hc
    have hne : ∀ d : Char, d.isAlphanum = false → c ≠ d := by
      rintro d hd rfl
      rw [hc] at hd
      cases hd
    refine ⟨c, escaped rest, rfl, by simp [hne '|' rfl, hne ')' rfl], Nat.lt_succ_self _, ?_⟩
    rw [piece.eq_def]
    simp [isMark, hne '?' rfl, hne '*' rfl, hne '+' rfl, hne '\\' rfl, hne '.' rfl, hne '^' rfl,
      hne '$' rfl, hne '[' rfl, hne '(' rfl]
  · rename_i hc
    refine ⟨'\\', c :: escaped rest, rfl, rfl, Nat.lt_succ_of_lt (Nat.lt_succ_self _), ?_⟩
    rw [piece.eq_def]
    simp [isMark, escape?_of_not_isAlphanum hc, CharSet.single]

/-- The pieces of an escaped text are its characters. -/
theorem pieces_escaped (flags : Flags) (text : List Char) :
    ∃ short, pieces flags (escaped text) = some ⟨ofText text, [], short⟩ := by
  induction text with
  | nil =>
    refine ⟨Nat.succ_pos _, ?_⟩
    rw [pieces]
    split
    · rfl
    · rename_i hcons
      rw [ahead_escaped] at hcons
      cases hcons
  | cons c rest ih =>
    obtain ⟨head, more, hescaped, hhead, hshort, hpiece⟩ := piece_escaped flags c rest
    obtain ⟨hrest, ih⟩ := ih
    refine ⟨Nat.succ_pos _, ?_⟩
    rw [pieces]
    split
    · rename_i hnil
      rw [ahead_escaped, hescaped] at hnil
      cases hnil
    · rename_i head' more' hmore
      rw [ahead_escaped, hescaped] at hmore
      obtain ⟨rfl, rfl⟩ := List.cons.inj hmore
      simp only [hhead, Bool.false_eq_true, if_false, hpiece]
      generalize hrepetition : repetition flags (escaped rest) (one (.single c)) = whole
      rw [repetition_escaped] at hrepetition
      subst hrepetition
      rw [ih]
      rfl

/-- An escaped text spells the pattern of its characters, under all flags. -/
theorem parse?_escaped (text : List Char) : parse? flags (escaped text) = some (ofText text) := by
  obtain ⟨hshort, hpieces⟩ := pieces_escaped flags text
  have hend : ahead flags [] = [] := ahead_escaped []
  have hchoice : choice flags (escaped text) = some ⟨ofText text, [], hshort⟩ := by
    rw [choice, hpieces]
    dsimp only
    split
    · rename_i hbar
      rw [hend] at hbar
      cases hbar
    · rfl
  rw [parse?, hchoice]
  simp [hend]

/-! ## Matching -/

/-- Trying a text as a pattern leads to the end exactly if what is left counts as it, character by
character. -/
theorem isSome_backtrack_ofText (text : List Char) (c : Cursor) :
    (backtrack flags (ofText text) c atEnd?).isSome = true ↔
      List.Forall₂ (fun expected next => expected ∈ variants flags next) text c.rest := by
  induction text generalizing c with
  | nil =>
    obtain ⟨offset, last?, left⟩ := c
    cases left <;> simp [ofText, inTurn, atEnd?]
  | cons expected more ih =>
    obtain ⟨offset, last?, left⟩ := c
    have hcons : backtrack flags (ofText (expected :: more)) ⟨offset, last?, left⟩ atEnd? =
        if Cursor.accepts ((CharSet.single expected).has flags) ⟨offset, last?, left⟩ then
          backtrack flags (ofText more) (Cursor.move 1 ⟨offset, last?, left⟩) atEnd?
        else none := rfl
    rw [hcons]
    cases left with
    | nil => simp
    | cons next rest =>
      rw [Cursor.accepts_cons, List.forall₂_cons, ← has_single]
      split
      · rename_i hhas
        rw [ih]
        simp [hhas]
      · rename_i hhas
        simp [hhas]

/-- An escaped text matches the texts that count as it, character by character. -/
theorem matchesAll_of_escaped {p : Pattern} {quoted text : List Char}
    (h : parse? flags (escaped quoted) = some p) :
    p.matchesAll flags text = true ↔
      List.Forall₂ (fun expected next => expected ∈ variants flags next) quoted text := by
  rw [parse?_escaped] at h
  rw [← Option.some.inj h, matchesAll_eq]
  exact isSome_backtrack_ofText quoted (.ofText text)

/-- Where case counts, an escaped text matches itself only. -/
theorem matchesAll_of_escaped_of_caseful {p : Pattern} {quoted text : List Char}
    (h : parse? flags (escaped quoted) = some p) (hcase : flags.ignoreCase = false) :
    p.matchesAll flags text = true ↔ quoted = text := by
  rw [matchesAll_of_escaped h, ← List.forall₂_eq_eq_eq]
  simp [variants, hcase]

/-- That a text matches another one, escaped, is mutual. -/
theorem matchesAll_of_escaped_comm {p q : Pattern} {first second : List Char}
    (hp : parse? flags (escaped first) = some p) (hq : parse? flags (escaped second) = some q) :
    p.matchesAll flags second = true ↔ q.matchesAll flags first = true := by
  rw [matchesAll_of_escaped hp, matchesAll_of_escaped hq]
  exact ⟨fun h => (h.imp fun _ _ => mem_variants_comm.mp).flip,
    fun h => (h.imp fun _ _ => mem_variants_comm.mp).flip⟩

end Rulebook.Pattern
