import Rulebook.Proofs.Token.Delimiters
import Rulebook.Proofs.Token.Scan

/-! # Literals among the tokens of a text

A literal is a text between two quotes, and a regular expression is a pattern between two
slashes with flags behind it. The pattern is not empty, and the slashes within it are escaped,
so of all slashes of the token that are not, the pattern ends at the last as well as at the
first. A newline in a regular expression is escaped too, so the token stays on its line unless
the line ends with a bare backslash.
-/

namespace Rulebook

open Text
open Piece (isFlag)

/-- A regular expression in writing, with its pattern and its flags. -/
structure RegexLexeme (lexeme pattern flags : List Char) : Prop where
  lexeme_eq : lexeme = '/' :: pattern ++ '/' :: flags
  pattern_ne_nil : pattern ≠ []
  slashes_escaped : ∀ i, pattern[i]? = some '/' → isEscaped pattern i
  are_flags : ∀ c ∈ flags, isFlag c

/-- A literal in writing, with its text. -/
def QuotedLexeme (quote : Char) (lexeme text : List Char) : Prop :=
  lexeme = quote :: text ++ [quote]

namespace Piece

variable {more pattern flags : List Char} {c : Char} {p : Piece}

/-- What the tokens that end with a delimiter begin with, by their kinds. -/
def delimited : List (TokenKind × Opening) :=
  [(.regex, .slash), (.doubleQuoted, .doubleQuote), (.singleQuoted, .singleQuote)]

theorem opened?_of_kind {kind : TokenKind} {o : Opening} (ho : (kind, o) ∈ delimited)
    (h : first? (c :: more) = some p) (hkind : p.kind = .token kind) :
    opened? c more o = some p := by
  rw [first?_cons] at h
  have hmem : .token kind ∈ (opening c).kinds := hkind ▸ opened?_kind_mem h
  have hmark : opening c ≠ .punctuation kind := by
    intro hopening
    have hfits := opening_fits c
    rw [hopening] at hfits
    have hmarks : kind ∉ punctuations := by
      have hall : ∀ entry ∈ delimited, entry.1 ∉ punctuations := by
        simp [delimited, punctuations]
      exact hall _ ho
    exact hmarks (mem_punctuations hfits)
  simp only [delimited, List.mem_cons, Prod.mk.injEq, List.not_mem_nil, or_false] at ho
  rcases ho with ⟨rfl, rfl⟩ | ⟨rfl, rfl⟩ | ⟨rfl, rfl⟩ <;>
    cases hopening : opening c <;> simp_all [Opening.kinds]

/-! ## Regular expressions -/

theorem regex?_of_slash? (h : slash? more = some p) (hkind : p.kind = .token .regex) :
    regex? more = some p ∧ ∀ rest, more ≠ '/' :: rest := by
  cases more with
  | nil => cases h
  | cons c rest =>
      have hslash : c ≠ '/' := by
        rintro rfl
        rw [slash?_line] at h
        cases h
        cases hkind
      refine ⟨?_, fun rest heq => hslash (List.cons.inj heq).1⟩
      by_cases hstar : c = '*'
      · subst hstar
        rw [slash?_star] at h
        split at h
        · cases h
          cases hkind
        · exact h
      · rwa [← slash?_eq_regex? hslash hstar]

/-- A regular expression is a delimited body between slashes, with flags behind it. -/
theorem exists_delimited_of_regex? (h : regex? more = some p) :
    ∃ body rest, Text.delimited '/' (fun c => decide (c ≠ '\n')) more = some (body, rest) ∧
      p.text = '/' :: (body ++ '/' :: rest.takeWhile isFlag) := by
  unfold regex? at h
  split at h
  · cases h
  next body rest hbody =>
    cases h
    exact ⟨body, rest, hbody, by simp [run]⟩

theorem regexLexeme_of_regex? (h : regex? more = some p) (hslash : ∀ rest, more ≠ '/' :: rest) :
    ∃ pattern flags, RegexLexeme p.text pattern flags := by
  obtain ⟨body, rest, hbody, hlexeme⟩ := exists_delimited_of_regex? h
  obtain ⟨hleast, -⟩ := isLeast_of_delimited (by decide) hbody
  have htext := delimited_append hbody
  refine ⟨body, rest.takeWhile isFlag, hlexeme, ?_, ?_, fun c hc => List.mem_takeWhile_imp hc⟩
  · rintro rfl
    exact hslash rest htext.symm
  · intro i hi
    by_contra hbare
    -- A slash within the body that is not escaped would have ended it.
    have hat : BareAt body '/' i := ⟨hi, Bool.eq_false_iff.mpr hbare⟩
    have hend := hleast.2 (htext ▸ hat.append _)
    obtain ⟨hlength, -⟩ := List.getElem?_eq_some_iff.mp hi
    omega

theorem newlinesEscaped_of_regex? (h : regex? more = some p) : NewlinesEscaped p.text := by
  obtain ⟨body, rest, hbody, hlexeme⟩ := exists_delimited_of_regex? h
  obtain ⟨-, hplain⟩ := isLeast_of_delimited (by decide) hbody
  have htext := delimited_append hbody
  rw [hlexeme]
  intro i hi
  cases i with
  | zero => cases hi
  | succ i =>
      rw [List.getElem?_cons_succ] at hi
      rw [isEscaped_cons (by decide)]
      rcases Nat.lt_or_ge i body.length with hlt | hge
      · rw [List.getElem?_append_left hlt] at hi
        rw [isEscaped_append hlt.le]
        by_contra hbare
        -- A newline within the body that is not escaped is not plain.
        have hat : BareAt body '\n' i := ⟨hi, Bool.eq_false_iff.mpr hbare⟩
        simpa using hplain i hlt '\n' (htext ▸ hat.append _)
      · rw [List.getElem?_append_right hge] at hi
        rcases List.mem_cons.mp (List.mem_of_getElem? hi) with heq | hflag
        · cases heq
        · exact absurd (List.mem_takeWhile_imp hflag) (by decide)

/-- A piece for a regular expression is read behind a slash that is not one of two. -/
theorem exists_regex?_of_first? (h : first? more = some p) (hkind : p.kind = .token .regex) :
    ∃ rest, regex? rest = some p ∧ ∀ tail, rest ≠ '/' :: tail := by
  cases more with
  | nil => cases h
  | cons c rest =>
      have hopened : opened? c rest .slash = some p :=
        opened?_of_kind (by simp [delimited]) h hkind
      exact ⟨rest, regex?_of_slash? hopened hkind⟩

/-- A piece for a regular expression is one in writing. -/
theorem regexLexeme_of_first? (h : first? more = some p) (hkind : p.kind = .token .regex) :
    ∃ pattern flags, RegexLexeme p.text pattern flags := by
  obtain ⟨_, hregex, hslash⟩ := exists_regex?_of_first? h hkind
  exact regexLexeme_of_regex? hregex hslash

/-! ## Literals -/

/-- A piece for a literal is one in writing. -/
theorem quotedLexeme_of_first? {kind : TokenKind} {quote : Char} (hquote : (kind, quote) ∈ quotes)
    (h : first? more = some p) (hkind : p.kind = .token kind) :
    ∃ text, QuotedLexeme quote p.text text := by
  have hliteral : ∃ rest, quotedLiteral? kind quote rest = some p := by
    cases more with
    | nil => cases h
    | cons c rest =>
        simp only [quotes, List.mem_cons, Prod.mk.injEq, List.not_mem_nil, or_false] at hquote
        rcases hquote with ⟨rfl, rfl⟩ | ⟨rfl, rfl⟩
        · exact ⟨rest, opened?_of_kind (o := .doubleQuote) (by simp [delimited]) h hkind⟩
        · exact ⟨rest, opened?_of_kind (o := .singleQuote) (by simp [delimited]) h hkind⟩
  obtain ⟨rest, hrest⟩ := hliteral
  unfold quotedLiteral? at hrest
  split at hrest
  · cases hrest
  · next body tail hbody =>
      cases hrest
      exact ⟨body, rfl⟩

end Piece

/-! ## Tokens -/

namespace Scan

variable {text : List Char} {scan : Scan} {t : Token TokenKind}

theorem exists_regexLexeme (h : ofChars text = .ok scan) (ht : t ∈ scan.tokens)
    (hkind : t.kind = .regex) : ∃ pattern flags, RegexLexeme t.lexeme.toList pattern flags := by
  obtain ⟨rest, p, hfirst, hpiece, hlexeme⟩ := exists_first? h ht
  rw [hlexeme]
  exact Piece.regexLexeme_of_first? hfirst (hkind ▸ hpiece)

theorem exists_quotedLexeme {quote : Char} (h : ofChars text = .ok scan) (ht : t ∈ scan.tokens)
    (hquote : (t.kind, quote) ∈ quotes) : ∃ body, QuotedLexeme quote t.lexeme.toList body := by
  obtain ⟨rest, p, hfirst, hpiece, hlexeme⟩ := exists_first? h ht
  rw [hlexeme]
  exact Piece.quotedLexeme_of_first? hquote hfirst hpiece

/-- The newlines of a regular expression are escaped. So it stays on one line exactly if no
line of it ends with a bare backslash. -/
theorem newlines_in_regex (h : ofChars text = .ok scan) (ht : t ∈ scan.tokens)
    (hkind : t.kind = .regex) :
    NewlinesEscaped t.lexeme.toList ∧
      ('\n' ∉ t.lexeme.toList ↔
        ∀ i, BareAt t.lexeme.toList '\\' i → t.lexeme.toList[i + 1]? ≠ some '\n') := by
  obtain ⟨rest, p, hfirst, hpiece, hlexeme⟩ := exists_first? h ht
  obtain ⟨_, hregex, -⟩ := Piece.exists_regex?_of_first? hfirst (hkind ▸ hpiece)
  have hescaped : NewlinesEscaped t.lexeme.toList :=
    hlexeme ▸ Piece.newlinesEscaped_of_regex? hregex
  exact ⟨hescaped, hescaped.newline_notMem_iff⟩

/-- A slash on a line that ends with a backslash, and a field on the next line. -/
def continuedLine : List Char := "a: /x\\\nb: c/".toList

/-- What that text is scanned to. -/
def continuedScan : Scan :=
  { tokens := [⟨.identifier, "a", 0, 1, 1, 1⟩, ⟨.colon, ":", 1, 2, 1, 2⟩,
      ⟨.regex, "/x\\\nb: c/", 3, 12, 1, 4⟩]
    stop := ⟨12, 2, 6⟩ }

theorem ofChars_continuedLine : ofChars continuedLine = .ok continuedScan := by cbv

/-- The regular expression that begins there takes the next line with it. -/
theorem newlines_in_regex_continuedLine :
    ∃ t ∈ continuedScan.tokens, ofChars continuedLine = .ok continuedScan ∧ t.kind = .regex ∧
      NewlinesEscaped t.lexeme.toList ∧ BareAt t.lexeme.toList '\\' 2 ∧
      t.lexeme.toList[3]? = some '\n' ∧ '\n' ∈ t.lexeme.toList := by
  have hmem : (⟨.regex, "/x\\\nb: c/", 3, 12, 1, 4⟩ : Token TokenKind) ∈ continuedScan.tokens := by
    decide
  obtain ⟨hescaped, hiff⟩ := newlines_in_regex ofChars_continuedLine hmem rfl
  refine ⟨_, hmem, ofChars_continuedLine, rfl, hescaped, ⟨by decide, by decide⟩, by decide, ?_⟩
  by_contra hnone
  exact hiff.mp hnone 2 ⟨by decide, by decide⟩ (by decide)

/-- Not every regular expression stays on one line. -/
theorem exists_newline_in_regex :
    ¬ ∀ text scan t, ofChars text = .ok scan → t ∈ scan.tokens → t.kind = .regex →
      '\n' ∉ t.lexeme.toList := by
  intro h
  exact h continuedLine continuedScan ⟨.regex, "/x\\\nb: c/", 3, 12, 1, 4⟩ ofChars_continuedLine
    (by decide) rfl (by decide)

end Scan

end Rulebook
