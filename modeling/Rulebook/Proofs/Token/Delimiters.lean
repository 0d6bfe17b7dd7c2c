import Rulebook.Proofs.Text.Escapes
import Rulebook.Proofs.Token.Classes
import Rulebook.Proofs.Token.Cut

/-! # Where delimited pieces end

What begins with a quote or a slash is what the first class says whose pattern matches there.
It ends where reading from the left says, wherever in a text it begins: a literal at the first
quote of its kind that is not escaped, a comment at the end of its line or at the first star and
slash, and a regular expression, which is what a slash begins otherwise, at the first slash that
is not escaped, with the flags behind it. Where that end is missing, the text is refused at the
character with which the piece would begin.
-/

namespace Rulebook

open Text
open Piece (closing isFlag)

/-- The quotes, with the kinds of literal between them. -/
def quotes : List (TokenKind × Char) := [(.doubleQuoted, '"'), (.singleQuoted, '\'')]

/-- What follows a slash opens no comment: neither a slash comes next, nor a star with a star
and a slash somewhere behind it. -/
structure OpensRegex (more : List Char) : Prop where
  notLine : ∀ rest, more ≠ '/' :: rest
  notBlock : ∀ rest, more = '*' :: rest → ∀ i, ¬ closing <+: rest.drop i

namespace Scan

/-- The place in a text behind some segments. -/
def placeBehind (text : List Char) (front : List Segment) : Pattern.Cursor :=
  (Pattern.Cursor.ofText text).move (Segment.join front).length

/-- Behind some segments the scan of a text takes one more, which is the piece of the first
class that matches there: it goes on behind that one, and if the whole text is scanned, a token
is one of its tokens. -/
structure Takes (text : List Char) (front : List Segment) (s : Segment) : Prop where
  goesOn : ∃ rest, PieceClass.first? (placeBehind text front) = some ⟨s.kind, s.text, rest⟩ ∧
    CutUpTo rest text (front ++ [s])
  token : ∀ scan kind, ofChars text = .ok scan → s.kind = .token kind →
    .ofText kind (Position.start.advance (Segment.join front)) s.text ∈ scan.tokens

/-- The scan of a text fails at the character behind some segments, where no class matches. -/
structure FailsAt (text : List Char) (front : List Segment) (c : Char) : Prop where
  nothing : PieceClass.first? (placeBehind text front) = none
  error : ofChars text =
    .error (.ofPlace text (.unexpectedChar c) (Position.start.advance (Segment.join front)))

/-- How what begins with a quote ends. -/
structure EndsAtQuote (text : List Char) (front : List Segment) (kind : TokenKind) (quote : Char)
    (more : List Char) : Prop where
  closed : ∀ i, IsLeast {i | BareAt more quote i} i →
    Takes text front ⟨.token kind, quote :: more.take (i + 1)⟩
  unclosed : (∀ i, ¬ BareAt more quote i) → FailsAt text front quote

/-- How what begins with a slash ends. -/
structure EndsBehindSlash (text : List Char) (front : List Segment) (more : List Char) : Prop where
  line : ∀ rest, more = '/' :: rest →
    Takes text front ⟨.layout .lineComment, '/' :: '/' :: rest.takeWhile (· ≠ '\n')⟩
  block : ∀ rest i, more = '*' :: rest → IsLeast {i | closing <+: rest.drop i} i →
    Takes text front ⟨.layout .blockComment, '/' :: '*' :: rest.take (i + 2)⟩
  regex : OpensRegex more → ∀ i, IsLeast {i | BareAt more '/' i} i →
    (∀ j < i, ¬ BareAt more '\n' j) →
      Takes text front
        ⟨.token .regex, '/' :: more.take (i + 1) ++ (more.drop (i + 1)).takeWhile isFlag⟩
  unclosed : OpensRegex more →
    (∀ i, IsLeast {i | BareAt more '/' i} i → ∃ j < i, BareAt more '\n' j) →
      FailsAt text front '/'

/-- What the classes find behind some segments is what is read there from the left. -/
theorem first?_placeBehind {left text : List Char} {front : List Segment}
    (h : CutUpTo left text front) :
    PieceClass.first? (placeBehind text front) = Piece.first? left := by
  rw [PieceClass.first?_eq, placeBehind, Pattern.Cursor.move_rest, Pattern.Cursor.ofText,
    ← h.append_eq, List.drop_left]

theorem takes_of_first? {left text rest : List Char} {front : List Segment} {s : Segment}
    (h : CutUpTo left text front) (hfirst : Piece.first? left = some ⟨s.kind, s.text, rest⟩) :
    Takes text front s := by
  have hmore := h.concat hfirst
  refine ⟨⟨rest, (first?_placeBehind h).trans hfirst, hmore⟩, fun scan kind hscan hkind => ?_⟩
  obtain ⟨segments, hcut, rfl⟩ := ofChars_eq_ok_iff.mp hscan
  obtain ⟨back, rfl, -⟩ := hmore.exists_back hcut
  obtain ⟨_, lexeme⟩ := s
  obtain rfl := hkind
  rw [List.append_assoc, Segment.tokens_append]
  exact List.mem_append_right _ List.mem_cons_self

theorem failsAt_of_first? {text more : List Char} {front : List Segment} {c : Char}
    (h : CutUpTo (c :: more) text front) (hnone : Piece.first? (c :: more) = none) :
    FailsAt text front c :=
  ⟨(first?_placeBehind h).trans hnone, ofChars_eq_error h hnone⟩

end Scan

/-! ## Literals -/

namespace Piece

variable {more : List Char} {i : Nat}

/-- The body of a literal may hold anything. -/
theorem plainBefore_any (text : List Char) (i : Nat) : PlainBefore (fun _ => true) text i :=
  fun _ _ _ _ => .inr rfl

theorem quotedLiteral?_of_isLeast {quote : Char} (hquote : quote ≠ '\\') (kind : TokenKind)
    (h : IsLeast {i | BareAt more quote i} i) :
    quotedLiteral? kind quote more =
      some ⟨.token kind, quote :: more.take (i + 1), more.drop (i + 1)⟩ := by
  have hi := h.1.here
  rw [quotedLiteral?, delimited_of_isLeast hquote h (plainBefore_any more i)]
  simp [List.take_add_one, hi]

theorem quotedLiteral?_eq_none {quote : Char} (hquote : quote ≠ '\\') (kind : TokenKind)
    (h : ∀ i, ¬ BareAt more quote i) : quotedLiteral? kind quote more = none := by
  unfold quotedLiteral?
  split
  · rfl
  · next body rest hbody => exact absurd (isLeast_of_delimited hquote hbody).1.1 (h _)

/-! ## Comments -/

/-- Up to the first star and slash a text is the body of a comment. -/
theorem blockBody?_of_isLeast (h : IsLeast {i | closing <+: more.drop i} i) :
    blockBody? more = some (more.take i, more.drop (i + 2)) := by
  obtain ⟨rest, hrest⟩ := h.1
  have hmore : more = more.take i ++ '*' :: '/' :: rest := by
    conv_lhs => rw [← List.take_append_drop i more, ← hrest]
    rfl
  have hbehind : more.drop (i + 2) = rest := by
    rw [← List.drop_drop, ← hrest]
    rfl
  have hbody : ¬ closing <:+: more.take i := by
    rintro ⟨front, back, hwithin⟩
    -- The star and slash would stand at an earlier index.
    have hlength := congrArg List.length hwithin
    rw [List.length_append, List.length_append, List.length_take] at hlength
    have hearlier : closing <+: more.drop front.length := by
      rw [hmore, ← hwithin, List.append_assoc, List.append_assoc, List.drop_left]
      exact List.prefix_append _ _
    have hle := h.2 hearlier
    simp only [closing, List.length_cons, List.length_nil] at hlength
    omega
  rw [hbehind]
  conv_lhs => rw [hmore]
  exact blockBody?_of_not_closing hbody rest

theorem slash?_of_closing (h : IsLeast {i | closing <+: more.drop i} i) :
    slash? ('*' :: more) =
      some ⟨.layout .blockComment, '/' :: '*' :: more.take (i + 2), more.drop (i + 2)⟩ := by
  obtain ⟨rest, hrest⟩ := h.1
  have htake : more.take (i + 2) = more.take i ++ ['*', '/'] := by
    rw [List.take_add, ← hrest]
    rfl
  rw [slash?_star, blockBody?_of_isLeast h, htake]
  rfl

theorem blockBody?_eq_none (h : ∀ i, ¬ closing <+: more.drop i) : blockBody? more = none := by
  rw [blockBody?_eq_none_iff]
  rintro ⟨front, back, rfl⟩
  refine h front.length ?_
  rw [List.append_assoc, List.drop_left]
  exact List.prefix_append _ _

/-! ## Regular expressions -/

theorem slash?_of_opensRegex (h : OpensRegex more) : slash? more = regex? more := by
  cases more with
  | nil => rfl
  | cons c rest =>
      have hslash : c ≠ '/' := fun heq => h.notLine rest (heq ▸ rfl)
      by_cases hstar : c = '*'
      · subst hstar
        rw [slash?_star, blockBody?_eq_none (h.notBlock rest rfl)]
      · exact slash?_eq_regex? hslash hstar rest

/-- The body of a regular expression may hold all but bare newlines. -/
theorem plainBefore_newline (h : ∀ j < i, ¬ BareAt more '\n' j) :
    PlainBefore (fun c => decide (c ≠ '\n')) more i := by
  refine fun j hj c hc => .inr (decide_eq_true ?_)
  rintro rfl
  exact h j hj hc

theorem regex?_of_isLeast (h : IsLeast {i | BareAt more '/' i} i)
    (hline : ∀ j < i, ¬ BareAt more '\n' j) :
    regex? more = some (run (.token .regex) isFlag ('/' :: more.take (i + 1))
      (more.drop (i + 1))) := by
  have hi := h.1.here
  rw [regex?, delimited_of_isLeast (by decide) h (plainBefore_newline hline)]
  simp [List.take_add_one, hi]

theorem regex?_eq_none
    (h : ∀ i, IsLeast {i | BareAt more '/' i} i → ∃ j < i, BareAt more '\n' j) :
    regex? more = none := by
  unfold regex?
  split
  · rfl
  · next body rest hbody =>
      obtain ⟨hleast, hplain⟩ := isLeast_of_delimited (by decide) hbody
      obtain ⟨j, hj, hnewline⟩ := h _ hleast
      simpa using hplain j hj '\n' hnewline

end Piece

/-! ## All that is delimited -/

/-- Wherever the scan of a text comes to a quote or to a slash, what begins there ends as
reading from the left says, and the scan fails there if that end is missing. -/
theorem Scan.delimited_ends {text more : List Char} {front : List Segment} {c : Char}
    (h : CutUpTo (c :: more) text front) :
    (∀ kind, (kind, c) ∈ quotes → EndsAtQuote text front kind c more) ∧
      (c = '/' → EndsBehindSlash text front more) := by
  constructor
  · intro kind hquote
    have hplain : c ≠ '\\' ∧ Piece.first? (c :: more) = Piece.quotedLiteral? kind c more := by
      simp only [quotes, List.mem_cons, Prod.mk.injEq, List.not_mem_nil, or_false] at hquote
      rcases hquote with ⟨rfl, rfl⟩ | ⟨rfl, rfl⟩ <;> exact ⟨by decide, rfl⟩
    obtain ⟨hescape, hfirst⟩ := hplain
    constructor
    · intro i hi
      exact takes_of_first? h (hfirst.trans (Piece.quotedLiteral?_of_isLeast hescape kind hi))
    · intro hnone
      exact failsAt_of_first? h (hfirst.trans (Piece.quotedLiteral?_eq_none hescape kind hnone))
  · rintro rfl
    have hfirst : Piece.first? ('/' :: more) = Piece.slash? more := rfl
    constructor
    · rintro rest rfl
      exact takes_of_first? h (hfirst.trans (Piece.slash?_line rest))
    · rintro rest i rfl hi
      exact takes_of_first? h (hfirst.trans (Piece.slash?_of_closing hi))
    · intro hopens i hi hline
      have hregex := Piece.regex?_of_isLeast hi hline
      exact takes_of_first? h (hfirst.trans ((Piece.slash?_of_opensRegex hopens).trans hregex))
    · intro hopens hnone
      have hregex := Piece.regex?_eq_none hnone
      exact failsAt_of_first? h (hfirst.trans ((Piece.slash?_of_opensRegex hopens).trans hregex))

/-- A quote behind which only an escaped one follows. -/
def openQuote : List Char := ['\'', '\\', '\'']

/-- A literal of two backslashes in front of that. -/
def literalInFront : List Char := ['"', '\\', '\\', '"', ' '] ++ openQuote

/-- A regular expression in front of these that begins like a comment and holds a slash. -/
def regexInFront : List Char := ['/', '*', '\\', '/', '/', 'i', ' '] ++ literalInFront

/-- The first segments of that text, with one of blanks behind each. -/
def backslashSegments : List Segment :=
  [⟨.token .regex, ['/', '*', '\\', '/', '/', 'i']⟩, ⟨.layout .blanks, [' ']⟩,
   ⟨.token .doubleQuoted, ['"', '\\', '\\', '"']⟩, ⟨.layout .blanks, [' ']⟩]

theorem opensRegex_regexInFront : OpensRegex regexInFront.tail := by
  constructor
  · intro rest h
    cases h
  · intro rest h i hi
    have hrest : rest = ['\\', '/', '/', 'i', ' '] ++ literalInFront := (List.cons.inj h).2.symm
    have hnone : ¬ closing <:+: rest := by
      rw [hrest]
      decide
    exact hnone (hi.isInfix.trans (List.drop_suffix _ _).isInfix)

theorem not_bareAt_openQuote (i : Nat) : ¬ BareAt openQuote.tail '\'' i := by
  intro h
  rcases i with _ | _ | i
  · cases bareAt_zero.mp h
  · exact not_bareAt_one h
  · cases h.here

theorem Scan.delimited_ends_backslashes :
    Takes regexInFront [] ⟨.token .regex, ['/', '*', '\\', '/', '/', 'i']⟩ ∧
      Takes regexInFront (backslashSegments.take 2) ⟨.token .doubleQuoted, ['"', '\\', '\\', '"']⟩ ∧
      ofChars regexInFront = .error ⟨.unexpectedChar '\'', 1, 13, regexInFront, 12⟩ := by
  have hslash : delimited '/' (fun c => decide (c ≠ '\n')) regexInFront.tail =
      some (['*', '\\', '/'], 'i' :: ' ' :: literalInFront) := by
    decide
  have hline : ∀ j < 3, ¬ BareAt regexInFront.tail '\n' j := by
    intro j _ h
    have hmem := List.mem_of_getElem? h.here
    revert hmem
    decide
  have hquote : delimited '"' (fun _ => true) literalInFront.tail =
      some (['\\', '\\'], ' ' :: openQuote) := by
    decide
  have hregex : Piece.first? regexInFront =
      some ⟨.token .regex, ['/', '*', '\\', '/', '/', 'i'], ' ' :: literalInFront⟩ := by
    decide
  have hstring : Piece.first? literalInFront =
      some ⟨.token .doubleQuoted, ['"', '\\', '\\', '"'], ' ' :: openQuote⟩ := by
    decide
  have hliteral : CutUpTo literalInFront regexInFront (backslashSegments.take 2) :=
    .cons hregex (.cons rfl .done)
  have hlast : CutUpTo openQuote regexInFront backslashSegments :=
    .cons hregex (.cons rfl (.cons hstring (.cons rfl .done)))
  refine ⟨?_, ?_, ?_⟩
  · exact ((delimited_ends .done).2 rfl).regex opensRegex_regexInFront 3
      (isLeast_of_delimited (by decide) hslash).1 hline
  · exact ((delimited_ends hliteral).1 .doubleQuoted (by decide)).closed 2
      (isLeast_of_delimited (by decide) hquote).1
  · have hopen := (delimited_ends hlast).1 .singleQuoted (by decide)
    exact (hopen.unclosed not_bareAt_openQuote).error

end Rulebook
