import Mathlib
import Rulebook.Proofs.Pattern.Backtrack
import Rulebook.Proofs.Token.Pieces
import Rulebook.Token.Classes

/-! # Pieces and their classes

The patterns of the classes leave less choice than their form allows. A literal or a regular
expression may be cut into an escape or a plain character in one way only, and where the body
could go on, no closing character stands; so giving characters back never finds another end.
The lazy body of a block comment ends at the first star and slash. What the classes find is
therefore what reading from the left finds, at every place of every text.
-/

namespace Rulebook

open Text
open Pattern (Cursor)

/-! ## The patterns -/

namespace Pattern

/-- A pattern once or more, preferably more. -/
def oneOrMore (p : Pattern) : Pattern := andThen p (many p false)

/-- A pattern or nothing, preferably the pattern. -/
def orNothing (p : Pattern) : Pattern := either p empty

/-- A single character. -/
def char (c : Char) : Pattern := one (.single c)

/-- The set of some characters. -/
def CharSet.anyOf (chars : List Char) : CharSet := ⟨chars.map fun c => .range c c, false⟩

/-- The set of all other characters. -/
def CharSet.noneOf (chars : List Char) : CharSet := ⟨chars.map fun c => .range c c, true⟩

/-- A backslash with the character behind it, or a character of a set. -/
def escapeOr (set : CharSet) : Pattern := either (inTurn [char '\\', dot]) (inTurn [one set])

end Pattern

namespace PieceClass

open Pattern

/-- The decimal digits. -/
def digits : CharSet := ⟨[.range '0' '9'], false⟩

/-- The characters of a run of blanks. -/
def blanks : CharSet := .anyOf [' ', '\t', '\x0c', '\r']

/-- The letters that may follow a regular expression. -/
def flagLetters : CharSet := .anyOf ['i', 'm', 's', 'x', 'A']

/-- The characters that may begin an identifier. -/
def identifierStarts : CharSet := ⟨[.range 'A' 'Z', .range 'a' 'z', .range '_' '_'], false⟩

/-- The characters that may continue an identifier. -/
def identifierParts : CharSet :=
  ⟨[.range 'A' 'Z', .range 'a' 'z', .range '0' '9', .range '_' '_'], false⟩

/-- A literal between quotes. -/
def literal (quote : Char) : Pattern :=
  inTurn [char quote, many (escapeOr (.noneOf [quote, '\\'])) false, char quote]

/-- A run of blanks. -/
abbrev runOfBlanks : Pattern := inTurn [oneOrMore (one blanks)]

/-- Two slashes and the rest of a line. -/
abbrev lineComment : Pattern := inTurn [char '/', char '/', many (one (.noneOf ['\n'])) false]

/-- Whatever stands between a slash and a star and the next star and slash. -/
abbrev blockComment : Pattern :=
  inTurn [char '/', char '*', many dot true, char '*', char '/']

/-- The fraction of a number. -/
abbrev fraction : Pattern := inTurn [char '.', oneOrMore (one digits)]

/-- A number, perhaps with a sign and a fraction. -/
abbrev number : Pattern :=
  inTurn [orNothing (char '-'), oneOrMore (one digits), orNothing fraction]

/-- A regular expression between slashes, with its flags. -/
abbrev regex : Pattern :=
  inTurn [char '/', oneOrMore (escapeOr (.noneOf ['/', '\\', '\n'])), char '/',
    many (one flagLetters) false]

/-- A letter or an underscore, and what may follow it in a name. -/
abbrev identifier : Pattern := inTurn [one identifierStarts, many (one identifierParts) false]

/-- The kinds of layout with their patterns. -/
def layouts : List (PieceKind × Pattern) :=
  [(.layout .blanks, runOfBlanks), (.layout .newline, inTurn [char '\n']),
   (.layout .lineComment, lineComment), (.layout .blockComment, blockComment)]

/-- The kinds of token that are a single character. -/
def punctuation : List (TokenKind × Char) :=
  [(.colon, ':'), (.semicolon, ';'), (.comma, ','), (.bar, '|'), (.openParen, '('),
   (.closeParen, ')'), (.openBrace, '\x7b'), (.closeBrace, '\x7d'), (.equals, '='),
   (.question, '?'), (.star, '*'), (.plus, '+')]

/-- The other kinds of token with their patterns. -/
def words : List (PieceKind × Pattern) :=
  [(.token .number, number), (.token .regex, regex), (.token .doubleQuoted, literal '"'),
   (.token .singleQuoted, literal '\''), (.token .identifier, identifier)]

/-- The kinds of piece with their patterns. -/
def patterns : List (PieceKind × Pattern) :=
  layouts ++ punctuation.map (fun (kind, c) => (.token kind, inTurn [char c])) ++ words

/-- The classes spell their patterns. -/
theorem patterns_spelled :
    all.map (fun k => (k.kind, k.pattern?)) = patterns.map fun (kind, p) => (kind, some p) := by
  cbv

/-- The piece that a pattern finds at a place. -/
def found? (kind : PieceKind) (p : Pattern) (c : Cursor) : Option Piece :=
  (p.preferredEnd? flags c).map (.between kind c)

theorem first?_eq_findSome? (c : Cursor) :
    first? c = patterns.findSome? fun k => found? k.1 k.2 c := by
  have hpiece : ∀ k : PieceClass, k.piece? c = k.pattern?.bind fun p => found? k.kind p c := by
    intro k
    unfold piece? found?
    cases k.pattern? with
    | none => rfl
    | some p => cases hlast : p.preferredEnd? flags c <;> simp [hlast]
  calc first? c
      = (all.map fun k => (k.kind, k.pattern?)).findSome? fun (kind, p?) =>
          p?.bind fun p => found? kind p c := by
        simp only [first?, hpiece, List.findSome?_map, Function.comp_def]
    _ = patterns.findSome? fun k => found? k.1 k.2 c := by
        rw [patterns_spelled, List.findSome?_map]
        rfl

theorem flags_dotAll : flags.dotAll = true := rfl

/-! ## Sets -/

theorem has_eq (set : CharSet) (c : Char) :
    set.has flags c = ((set.members.any fun m => m.has flags c) != set.isNegated) := by
  simp only [CharSet.has, variants, show flags.ignoreCase = false from rfl, Bool.false_eq_true,
    if_false, List.any_cons, List.any_nil, Bool.or_false]

theorem has_range_self (c d : Char) : (Member.range d d).has flags c = decide (c = d) := by
  rw [Bool.eq_iff_iff]
  simp only [Member.has, Bool.and_eq_true, decide_eq_true_eq]
  exact ⟨fun h => Char.le_antisymm h.2 h.1, fun h => h ▸ ⟨Char.le_refl c, Char.le_refl c⟩⟩

theorem any_range_self (chars : List Char) (c : Char) :
    ((chars.map fun d => Member.range d d).any fun m => m.has flags c) = decide (c ∈ chars) := by
  induction chars with
  | nil => rfl
  | cons d chars ih => rw [List.map_cons, List.any_cons, ih, has_range_self]; simp

theorem has_anyOf (chars : List Char) :
    (CharSet.anyOf chars).has flags = fun c => decide (c ∈ chars) := by
  funext c
  rw [has_eq, CharSet.anyOf, any_range_self]
  simp

theorem has_noneOf (chars : List Char) :
    (CharSet.noneOf chars).has flags = fun c => !decide (c ∈ chars) := by
  funext c
  rw [has_eq, CharSet.noneOf, any_range_self]
  simp

@[simp] theorem has_single (d : Char) : (CharSet.single d).has flags = fun c => decide (c = d) := by
  rw [show CharSet.single d = .anyOf [d] from rfl, has_anyOf]
  simp

@[simp] theorem has_blanks : blanks.has flags = Piece.isBlank := by
  funext c
  simp [blanks, has_anyOf, Piece.isBlank, Bool.or_assoc]

@[simp] theorem has_flagLetters : flagLetters.has flags = Piece.isFlag := by
  funext c
  simp [flagLetters, has_anyOf, Piece.isFlag, Bool.or_assoc]

@[simp] theorem has_digits : digits.has flags = isAsciiDigit := by
  funext c
  rw [has_eq]
  simp [digits, Member.has, isAsciiDigit]

@[simp] theorem has_identifierStarts : identifierStarts.has flags = Piece.isIdentifierStart := by
  funext c
  rw [has_eq, identifierStarts]
  simp only [List.any_cons, has_range_self]
  simp [Member.has, Piece.isIdentifierStart, Bool.or_assoc]

@[simp] theorem has_identifierParts : identifierParts.has flags = Piece.isIdentifierPart := by
  funext c
  rw [has_eq, identifierParts]
  simp only [List.any_cons, has_range_self]
  simp [Member.has, Piece.isIdentifierPart, Piece.isIdentifierStart, isAsciiDigit, Bool.or_assoc,
    Bool.or_comm, Bool.or_left_comm]

/-! ## Where a match ends -/

theorem found?_eq_some {p : Pattern} {c : Cursor} {q : Piece}
    (hend : p.preferredEnd? flags c = some (c.move q.text.length))
    (happend : q.text ++ q.rest = c.rest) : found? q.kind p c = some q := by
  have hlength : q.text.length ≤ c.rest.length := by
    rw [← happend, List.length_append]
    exact Nat.le_add_right _ _
  rw [found?, hend, Option.map_some, Piece.between, Cursor.move_offset hlength,
    Cursor.move_rest, Nat.add_sub_cancel_left, ← happend, List.take_left, List.drop_left]

theorem found?_eq_none {p : Pattern} {c : Cursor} (h : p.preferredEnd? flags c = none)
    (kind : PieceKind) : found? kind p c = none := by
  rw [found?, h, Option.map_none]

/-! ## Sequences -/

section

variable {β : Type} {goOn : Cursor → Option β} {c : Cursor} {x : Char}

theorem backtrack_inTurn_cons (p : Pattern) (ps : List Pattern) :
    backtrack flags (inTurn (p :: ps)) c goOn =
      backtrack flags p c fun d => backtrack flags (inTurn ps) d goOn := rfl

theorem backtrack_char {more : List Char} (h : c.rest = x :: more) (ps : List Pattern) :
    backtrack flags (inTurn (char x :: ps)) c goOn =
      backtrack flags (inTurn ps) (c.move 1) goOn := by
  obtain ⟨offset, last?, text⟩ := c
  obtain rfl : text = x :: more := h
  simp [backtrack_inTurn_cons, char]

theorem backtrack_char_of_ne (h : ∀ more, c.rest ≠ x :: more) (ps : List Pattern) :
    backtrack flags (inTurn (char x :: ps)) c goOn = none := by
  obtain ⟨offset, last?, _ | ⟨y, more⟩⟩ := c
  · rfl
  · have hne : y ≠ x := fun heq => h more (by rw [heq])
    simp [backtrack_inTurn_cons, char, hne]

end

theorem backtrack_escapeOr {β : Type} (set : CharSet) (c : Cursor) (goOn : Cursor → Option β) :
    backtrack flags (escapeOr set) c goOn =
      (if c.accepts (fun x => decide (x = '\\')) && (c.move 1).accepts (fun _ => true) then
        goOn (c.move 2) else none).or
      (if c.accepts (set.has flags) then goOn (c.move 1) else none) := by
  obtain ⟨offset, last?, _ | ⟨x, _ | ⟨y, more⟩⟩⟩ := c <;>
    simp [escapeOr, inTurn, char, flags_dotAll]

/-- Escapes and plain characters up to a closing one that is neither: where more of them is
possible, no closing character stands, so less of them never helps. -/
theorem iterate_escapes {β : Type} {close : Char} {plain : Char → Bool} {set : CharSet}
    {body : Cursor → (Cursor → Option β) → Option β} {goOn : Cursor → Option β}
    (hbody : ∀ c more, body c more = backtrack flags (escapeOr set) c more)
    (hescape : close ≠ '\\')
    (hset : ∀ x, set.has flags x = (decide (x ≠ close) && decide (x ≠ '\\') && plain x))
    (hclose : ∀ c : Cursor, (∀ more, c.rest ≠ close :: more) → goOn c = none) (c : Cursor) :
    iterate body false goOn c =
      (delimited close plain c.rest).bind fun body => goOn (c.move body.1.length) := by
  obtain ⟨offset, last?, text⟩ := c
  change _ = (delimited close plain text).bind _
  fun_induction delimited close plain text generalizing offset last? with
  | case1 =>
    rw [iterate]
    simp [hbody, backtrack_escapeOr, hclose]
  | case2 rest =>
    rw [iterate]
    simp [hbody, backtrack_escapeOr, hset, hescape]
  | case3 hne =>
    rw [iterate]
    simp [hbody, backtrack_escapeOr, hset, hclose, hne]
  | case4 e more hinner hne ih | case5 e more inner tail hinner hne ih =>
    rw [iterate]
    simp [hbody, backtrack_escapeOr, hset, hclose, hne, ih, hinner]
  | case6 c more hne hplain hok hinner ih | case7 c more hne hplain hok inner tail hinner ih =>
    rw [iterate]
    simp [hbody, backtrack_escapeOr, hset, hclose, hne, ih, hinner, hplain, hok]
  | case8 c more hne hplain hok =>
    rw [iterate]
    simp [hbody, backtrack_escapeOr, hset, hclose, hne, hplain, hok]

/-- A star and a slash at a place. -/
theorem backtrack_closing (offset : Nat) (last? : Option Char) (c d : Char) (rest : List Char) :
    backtrack flags (inTurn [char '*', char '/']) ⟨offset, last?, c :: d :: rest⟩ some =
      if c = '*' ∧ d = '/' then some ⟨offset + 2, some d, rest⟩ else none := by
  by_cases hstar : c = '*' <;> simp [inTurn, char, hstar]

/-- A lazy run of any characters in front of a star and a slash ends at the first of these. -/
theorem iterate_dot_closing (c : Cursor) :
    iterate (fun d => backtrack flags dot d) true
        (fun d => backtrack flags (inTurn [char '*', char '/']) d some) c =
      (Piece.blockBody? c.rest).map fun body => c.move (body.1.length + 2) := by
  obtain ⟨offset, last?, text⟩ := c
  change _ = (Piece.blockBody? text).map _
  have hnil : ∀ offset last?, iterate (fun d => backtrack flags dot d) true
      (fun d => backtrack flags (inTurn [char '*', char '/']) d some) ⟨offset, last?, []⟩ =
        none := by
    intro offset last?
    rw [iterate]
    simp [inTurn, char]
  fun_induction Piece.blockBody? text generalizing offset last? with
  | case1 => exact hnil offset last?
  | case2 c =>
    have hone : backtrack flags (inTurn [char '*', char '/']) ⟨offset, last?, [c]⟩ some = none := by
      simp [inTurn, char]
    rw [iterate, hone]
    simp [hnil]
  | case3 c d rest hclose =>
    simp only [Bool.and_eq_true, decide_eq_true_eq] at hclose
    rw [iterate, backtrack_closing, if_pos hclose]
    rfl
  | case4 c d rest hclose hinner ih | case5 c d rest hclose inner tail hinner ih =>
    simp only [Bool.and_eq_true, decide_eq_true_eq] at hclose
    rw [iterate, backtrack_closing, if_neg hclose]
    simp [flags_dotAll, ih, hinner]

/-! ## What each pattern finds -/

variable {offset : Nat} {last? : Option Char} {c : Char} {rest : List Char}

/-- Nothing is found where the first character is none of the set that comes first. -/
theorem found?_of_not_has {set : CharSet} (h : set.has flags c = false) (kind : PieceKind)
    (ps : List Pattern) :
    found? kind (inTurn (one set :: ps)) ⟨offset, last?, c :: rest⟩ = none :=
  found?_eq_none (by simp [preferredEnd?, inTurn, h]) kind

theorem found?_of_ne {d : Char} (h : c ≠ d) (kind : PieceKind) (ps : List Pattern) :
    found? kind (inTurn (char d :: ps)) ⟨offset, last?, c :: rest⟩ = none :=
  found?_of_not_has (by simp [h]) kind ps

theorem found?_char (kind : PieceKind) (d : Char) :
    found? kind (inTurn [char d]) ⟨offset, last?, d :: rest⟩ = some ⟨kind, [d], rest⟩ :=
  found?_eq_some (q := ⟨kind, [d], rest⟩) (by simp [preferredEnd?, inTurn, char]) rfl

/-- A character of a set and a run of characters of another. -/
theorem found?_run {first more : CharSet} (h : first.has flags c) (kind : PieceKind) :
    found? kind (inTurn [one first, many (one more) false]) ⟨offset, last?, c :: rest⟩ =
      some (Piece.run kind (more.has flags) [c] rest) := by
  refine found?_eq_some (q := Piece.run kind (more.has flags) [c] rest) ?_ (Piece.run_append ..)
  simp [preferredEnd?, inTurn, h, iterate_one_of_isSome, Piece.run]

theorem found?_lineComment :
    found? (.layout .lineComment) lineComment ⟨offset, last?, '/' :: '/' :: rest⟩ =
      some (Piece.run (.layout .lineComment) (· ≠ '\n') ['/', '/'] rest) := by
  refine found?_eq_some (q := Piece.run (.layout .lineComment) (· ≠ '\n') ['/', '/'] rest) ?_
    (Piece.run_append ..)
  simp [preferredEnd?, inTurn, char, iterate_one_of_isSome, Piece.run, has_noneOf]

theorem found?_blockComment :
    found? (.layout .blockComment) blockComment ⟨offset, last?, '/' :: '*' :: rest⟩ =
      (Piece.blockBody? rest).map fun (inner, tail) =>
        ⟨.layout .blockComment, '/' :: '*' :: inner ++ ['*', '/'], tail⟩ := by
  have hend : blockComment.preferredEnd? flags ⟨offset, last?, '/' :: '*' :: rest⟩ =
      (Piece.blockBody? rest).map fun body =>
        Cursor.move (body.1.length + 2) ⟨offset + 2, some '*', rest⟩ := by
    rw [← iterate_dot_closing ⟨offset + 2, some '*', rest⟩]
    simp [preferredEnd?, inTurn, char]
  cases hbody : Piece.blockBody? rest with
  | none => exact found?_eq_none (by rw [hend, hbody]; rfl) _
  | some found =>
    obtain ⟨inner, tail⟩ := found
    refine found?_eq_some
      (q := ⟨.layout .blockComment, '/' :: '*' :: inner ++ ['*', '/'], tail⟩) ?_ ?_
    · rw [hend, hbody]
      simp
    · simp [← Piece.blockBody?_append hbody]

/-- Escapes and plain characters, at least one of them, are the same where no closing character
comes first. -/
theorem backtrack_oneOrMore_escapeOr {β : Type} {close : Char} {set : CharSet}
    {goOn : Cursor → Option β}
    (hclose : ∀ c : Cursor, (∀ more, c.rest ≠ close :: more) → goOn c = none) {c : Cursor}
    (hc : ∀ more, c.rest ≠ close :: more) :
    backtrack flags (oneOrMore (escapeOr set)) c goOn =
      iterate (fun d => backtrack flags (escapeOr set) d) false goOn c := by
  rw [iterate, hclose c hc, oneOrMore, backtrack_andThen]
  obtain ⟨offset, last?, _ | ⟨x, _ | ⟨y, more⟩⟩⟩ := c
  · simp [backtrack_escapeOr]
  · simp [backtrack_escapeOr]
  · simp [backtrack_escapeOr]
    rfl

/-- Behind the body of a literal its closing character comes next. -/
theorem rest_behind_body {close : Char} {plain : Char → Bool} {inner tail : List Char}
    (h : delimited close plain rest = some (inner, tail)) :
    (Cursor.move inner.length ⟨offset, last?, rest⟩).rest = close :: tail := by
  rw [Cursor.move_rest, ← delimited_append h, List.drop_left]

theorem found?_literal {quote : Char} (h : quote ≠ '\\') (kind : TokenKind) :
    found? (.token kind) (literal quote) ⟨offset, last?, quote :: rest⟩ =
      Piece.quotedLiteral? kind quote rest := by
  have hend : (literal quote).preferredEnd? flags ⟨offset, last?, quote :: rest⟩ =
      (delimited quote (fun _ => true) rest).bind fun body =>
        backtrack flags (inTurn [char quote])
          (Cursor.move body.1.length ⟨offset + 1, some quote, rest⟩) some := by
    rw [preferredEnd?, literal, backtrack_char rfl, backtrack_inTurn_cons, backtrack_many]
    exact iterate_escapes (fun _ _ => rfl) h (by simp [has_noneOf])
      (fun c hc => backtrack_char_of_ne hc []) _
  unfold Piece.quotedLiteral?
  cases hbody : delimited quote (fun _ => true) rest with
  | none => exact found?_eq_none (by rw [hend, hbody]; rfl) _
  | some found =>
    obtain ⟨inner, tail⟩ := found
    refine found?_eq_some (q := ⟨.token kind, quote :: inner ++ [quote], tail⟩) ?_ ?_
    · rw [hend, hbody, Option.bind_some, backtrack_char (rest_behind_body hbody), ← Cursor.move_add]
      simp [inTurn]
    · simp [← delimited_append hbody]

theorem found?_regex (h : ∀ more, rest ≠ '/' :: more) :
    found? (.token .regex) regex ⟨offset, last?, '/' :: rest⟩ = Piece.regex? rest := by
  have hend : regex.preferredEnd? flags ⟨offset, last?, '/' :: rest⟩ =
      (delimited '/' (· ≠ '\n') rest).bind fun body =>
        backtrack flags (inTurn [char '/', many (one flagLetters) false])
          (Cursor.move body.1.length ⟨offset + 1, some '/', rest⟩) some := by
    rw [preferredEnd?, backtrack_char rfl, backtrack_inTurn_cons,
      backtrack_oneOrMore_escapeOr (fun c hc => backtrack_char_of_ne hc _) h]
    exact iterate_escapes (fun _ _ => rfl) (by decide) (by simp [has_noneOf, Bool.and_assoc])
      (fun c hc => backtrack_char_of_ne hc _) _
  unfold Piece.regex?
  cases hbody : delimited '/' (fun x => decide (x ≠ '\n')) rest with
  | none => exact found?_eq_none (by rw [hend, hbody]; rfl) _
  | some found =>
    obtain ⟨inner, tail⟩ := found
    refine found?_eq_some (q := Piece.run (.token .regex) Piece.isFlag ('/' :: inner ++ ['/']) tail)
      ?_ ?_
    · rw [hend, hbody, Option.bind_some, backtrack_char (rest_behind_body hbody), ← Cursor.move_add,
        backtrack_inTurn_cons, backtrack_many, iterate_one_of_isSome _ (fun _ => rfl)]
      have htail : rest.drop (inner.length + 1) = tail := by
        rw [← delimited_append hbody, ← List.drop_drop, List.drop_left]
        rfl
      have hlength : (Piece.run (.token .regex) Piece.isFlag ('/' :: inner ++ ['/']) tail).text.length
          = inner.length + 1 + (tail.takeWhile Piece.isFlag).length + 1 := by
        simp [Piece.run]
        omega
      rw [has_flagLetters, Cursor.move_rest, htail, ← Cursor.move_add, hlength]
      rfl
    · simp [← delimited_append hbody]

/-- A run of digits, and where it ends if it is always possible to go on. -/
theorem backtrack_digits {β : Type} {goOn : Cursor → Option β} (hgoOn : ∀ d, (goOn d).isSome)
    (h : isAsciiDigit c) :
    backtrack flags (oneOrMore (one digits)) ⟨offset, last?, c :: rest⟩ goOn =
      goOn (Cursor.move ((c :: rest).takeWhile isAsciiDigit).length
        ⟨offset, last?, c :: rest⟩) := by
  simp [oneOrMore, iterate_one_of_isSome _ hgoOn, h]

theorem length_fraction (head text : List Char) :
    (Piece.fraction head text).text.length =
      head.length + (Piece.fraction [] text).text.length := by
  unfold Piece.fraction
  split
  · split <;> simp [Piece.run, Nat.add_assoc]
  · simp

theorem length_number (sign text : List Char) :
    (Piece.number sign text).text.length = sign.length + (Piece.number [] text).text.length := by
  simp only [Piece.number]
  rw [length_fraction, length_fraction ([] ++ _), List.length_append, List.nil_append,
    Nat.add_assoc]

/-- Where the fraction of a number ends, if there is one. -/
theorem backtrack_fraction (c : Cursor) :
    backtrack flags (inTurn [orNothing fraction]) c some =
      some (c.move (Piece.fraction [] c.rest).text.length) := by
  obtain ⟨offset, last?, text⟩ := c
  change _ = some (Cursor.move (Piece.fraction [] text).text.length _)
  unfold Piece.fraction
  split
  next d rest =>
    split
    next hdigit =>
      simp [inTurn, orNothing, char, oneOrMore, iterate_one_of_isSome, hdigit, Piece.run]
    next hdigit => simp [inTurn, orNothing, char, oneOrMore, hdigit]
  next hpoint =>
    obtain _ | ⟨x, _ | ⟨y, more⟩⟩ := text
    · simp [inTurn, orNothing, char]
    · simp [inTurn, orNothing, char, oneOrMore]
    · have hx : x ≠ '.' := fun heq => hpoint y more (by rw [heq])
      simp [inTurn, orNothing, char, hx]

/-- Where a number without sign ends, which begins with a digit. -/
theorem backtrack_number (h : isAsciiDigit c) :
    backtrack flags (inTurn [oneOrMore (one digits), orNothing fraction])
        ⟨offset, last?, c :: rest⟩ some =
      some (Cursor.move (Piece.number [] (c :: rest)).text.length ⟨offset, last?, c :: rest⟩) := by
  have hrest : ∀ text : List Char, text.drop (text.takeWhile isAsciiDigit).length =
      text.dropWhile isAsciiDigit := by
    intro text
    calc text.drop (text.takeWhile isAsciiDigit).length
        = (text.takeWhile isAsciiDigit ++ text.dropWhile isAsciiDigit).drop
            (text.takeWhile isAsciiDigit).length := by rw [List.takeWhile_append_dropWhile]
      _ = text.dropWhile isAsciiDigit := List.drop_left
  have hfraction : ∀ d : Cursor, (backtrack flags (inTurn [orNothing fraction]) d some).isSome := by
    intro d
    rw [backtrack_fraction]
    rfl
  rw [backtrack_inTurn_cons, backtrack_digits hfraction h, backtrack_fraction, Cursor.move_rest,
    hrest, ← Cursor.move_add, Piece.number, length_fraction ([] ++ _), List.nil_append]

/-- A number without a sign in front of it. -/
theorem backtrack_sign_of_ne {goOn : Cursor → Option Cursor} (h : c ≠ '-') :
    backtrack flags (orNothing (char '-')) ⟨offset, last?, c :: rest⟩ goOn =
      goOn ⟨offset, last?, c :: rest⟩ := by
  simp [orNothing, char, h]

theorem found?_digit (h : isAsciiDigit c) :
    found? (.token .number) number ⟨offset, last?, c :: rest⟩ = some (Piece.number [] (c :: rest)) := by
  have hminus : c ≠ '-' := by
    rintro rfl
    cases h
  rw [← Piece.number_kind [] (c :: rest)]
  refine found?_eq_some ?_ (Piece.number_append [] (c :: rest))
  rw [preferredEnd?, backtrack_inTurn_cons, backtrack_sign_of_ne hminus, backtrack_number h]

/-- A minus begins a number if a digit follows. -/
theorem found?_minus :
    found? (.token .number) number ⟨offset, last?, '-' :: rest⟩ =
      if rest.head?.any isAsciiDigit then some (Piece.number ['-'] rest) else none := by
  have hsign : isAsciiDigit '-' = false := rfl
  split
  next hdigit =>
    obtain _ | ⟨d, more⟩ := rest
    · cases hdigit
    have hd : isAsciiDigit d := by simpa using hdigit
    rw [← Piece.number_kind ['-'] (d :: more)]
    refine found?_eq_some ?_ (Piece.number_append ['-'] (d :: more))
    rw [preferredEnd?, backtrack_inTurn_cons, orNothing, backtrack_either, char, backtrack_one]
    simp [backtrack_number hd, length_number ['-'], Nat.add_comm 1]
  next hdigit =>
    refine found?_eq_none ?_ _
    obtain _ | ⟨d, more⟩ := rest
    · simp [preferredEnd?, inTurn, orNothing, char, oneOrMore, hsign]
    have hd : isAsciiDigit d = false := by simpa using hdigit
    simp [preferredEnd?, inTurn, orNothing, char, oneOrMore, hd, hsign]

theorem found?_number_of_not (hdigit : isAsciiDigit c = false) (hminus : c ≠ '-') :
    found? (.token .number) number ⟨offset, last?, c :: rest⟩ = none := by
  refine found?_eq_none ?_ _
  simp [preferredEnd?, inTurn, orNothing, oneOrMore, char, hdigit, hminus]

/-! ## The first class -/

theorem found?_blanks (h : Piece.isBlank c) :
    found? (.layout .blanks) runOfBlanks ⟨offset, last?, c :: rest⟩ =
      some (Piece.run (.layout .blanks) Piece.isBlank [c] rest) := by
  rw [← has_blanks]
  exact found?_run (by rw [has_blanks]; exact h) _

theorem found?_blanks_of_not (h : Piece.isBlank c = false) :
    found? (.layout .blanks) runOfBlanks ⟨offset, last?, c :: rest⟩ =
      none :=
  found?_eq_none (by simp [preferredEnd?, inTurn, oneOrMore, h]) _

theorem found?_identifier (h : Piece.isIdentifierStart c) :
    found? (.token .identifier) identifier ⟨offset, last?, c :: rest⟩ =
      some (Piece.run (.token .identifier) Piece.isIdentifierPart [c] rest) := by
  rw [← has_identifierParts]
  exact found?_run (by rw [has_identifierStarts]; exact h) _

theorem found?_identifier_of_not (h : Piece.isIdentifierStart c = false) :
    found? (.token .identifier) identifier ⟨offset, last?, c :: rest⟩ = none :=
  found?_of_not_has (by rw [has_identifierStarts]; exact h) _ _

theorem found?_literal_of_ne {quote : Char} (h : c ≠ quote) (kind : PieceKind) :
    found? kind (literal quote) ⟨offset, last?, c :: rest⟩ = none :=
  found?_of_ne h kind _

theorem found?_blockComment_of_ne (h : ∀ more, rest ≠ '*' :: more) :
    found? (.layout .blockComment) blockComment ⟨offset, last?, '/' :: rest⟩ = none :=
  found?_eq_none (by rw [preferredEnd?, backtrack_char rfl]; exact backtrack_char_of_ne h _) _

theorem found?_lineComment_of_ne (h : ∀ more, rest ≠ '/' :: more) :
    found? (.layout .lineComment) lineComment ⟨offset, last?, '/' :: rest⟩ = none :=
  found?_eq_none (by rw [preferredEnd?, backtrack_char rfl]; exact backtrack_char_of_ne h _) _

/-- The kind of a token that is a single character is looked up in the list of these. -/
theorem findSome?_punctuation (c : Char) :
    (punctuation.findSome? fun (kind, d) => if c = d then some kind else none) =
      Piece.punctuation? c := by
  have hcons : ∀ (kind : TokenKind) (d : Char) (more : List (TokenKind × Char)),
      (((kind, d) :: more).findSome? fun (kind, d) => if c = d then some kind else none) =
        if c = d then some kind
        else more.findSome? fun (kind, d) => if c = d then some kind else none := by
    intro kind d more
    rw [List.findSome?_cons]
    by_cases h : c = d <;> simp [h]
  simp only [punctuation, hcons, List.findSome?_nil, Piece.punctuation?]

theorem punctuation?_eq_none (h : ∀ mark ∈ punctuation, c ≠ mark.2) :
    Piece.punctuation? c = none := by
  rw [← findSome?_punctuation, List.findSome?_eq_none_iff]
  exact fun mark hmark => if_neg (h mark hmark)

theorem found?_punctuation (ps : List (TokenKind × Char)) :
    (ps.map fun (kind, d) => (PieceKind.token kind, inTurn [char d])).findSome?
        (fun k => found? k.1 k.2 ⟨offset, last?, c :: rest⟩) =
      (ps.findSome? fun (kind, d) => if c = d then some kind else none).map fun kind =>
        ⟨.token kind, [c], rest⟩ := by
  induction ps with
  | nil => rfl
  | cons head ps ih =>
    obtain ⟨kind, d⟩ := head
    by_cases h : c = d
    · subst h
      simp [found?_char]
    · simp [found?_of_ne h, ih, h]

/-- The three groups of classes, one after another. -/
theorem first?_cons (c : Char) (rest : List Char) :
    first? ⟨offset, last?, c :: rest⟩ =
      ((layouts.findSome? fun k => found? k.1 k.2 ⟨offset, last?, c :: rest⟩).or
        ((Piece.punctuation? c).map fun kind => ⟨.token kind, [c], rest⟩)).or
        (words.findSome? fun k => found? k.1 k.2 ⟨offset, last?, c :: rest⟩) := by
  rw [first?_eq_findSome?, patterns, List.findSome?_append, List.findSome?_append,
    found?_punctuation, findSome?_punctuation]

theorem first?_blank (h : Piece.isBlank c) :
    first? ⟨offset, last?, c :: rest⟩ =
      some (Piece.run (.layout .blanks) Piece.isBlank [c] rest) := by
  simp only [first?_cons, layouts, List.findSome?_cons, found?_blanks h, Option.some_or]

theorem first?_newline :
    first? ⟨offset, last?, '\n' :: rest⟩ = some ⟨.layout .newline, ['\n'], rest⟩ := by
  simp only [first?_cons, layouts, List.findSome?_cons, found?_blanks_of_not (c := '\n') rfl,
    found?_char, Option.some_or]

theorem findSome?_cons_eq_or {α β : Type} (f : α → Option β) (a : α) (l : List α) :
    (a :: l).findSome? f = (f a).or (l.findSome? f) := by
  rw [List.findSome?_cons]
  cases f a <;> rfl

/-- The classes of words, one after another. -/
theorem findSome?_words (c : Cursor) :
    (words.findSome? fun k => found? k.1 k.2 c) =
      (found? (.token .number) number c).or
        ((found? (.token .regex) regex c).or
          ((found? (.token .doubleQuoted) (literal '"') c).or
            ((found? (.token .singleQuoted) (literal '\'') c).or
              (found? (.token .identifier) identifier c)))) := by
  simp only [words, findSome?_cons_eq_or, List.findSome?_nil, Option.or_none]

/-- A slash that opens no line comment begins a block comment or else a regular expression. -/
theorem first?_slash_of_ne (h : ∀ more, rest ≠ '/' :: more) :
    first? ⟨offset, last?, '/' :: rest⟩ =
      (found? (.layout .blockComment) blockComment ⟨offset, last?, '/' :: rest⟩).or
        (Piece.regex? rest) := by
  simp (disch := decide) only [first?_cons, layouts, findSome?_cons_eq_or, List.findSome?_nil,
    Option.or_none, Option.none_or, found?_blanks_of_not, found?_of_ne,
    found?_lineComment_of_ne h, punctuation?_eq_none, Option.map_none, findSome?_words,
    found?_number_of_not, found?_regex h, found?_literal_of_ne, found?_identifier_of_not]

theorem first?_slash : first? ⟨offset, last?, '/' :: rest⟩ = Piece.slash? rest := by
  unfold Piece.slash?
  split
  next =>
    rw [first?_slash_of_ne (by simp), found?_blockComment_of_ne (by simp), Option.none_or]
    rfl
  next c rest =>
    split
    next hline =>
      subst hline
      simp only [first?_cons, layouts, findSome?_cons_eq_or, found?_blanks_of_not (c := '/') rfl,
        found?_of_ne (show '/' ≠ '\n' by decide), found?_lineComment, Option.none_or,
        Option.some_or]
    next hline =>
    rw [first?_slash_of_ne (fun more heq => hline (List.cons.inj heq).1)]
    split
    next hstar =>
      subst hstar
      rw [found?_blockComment]
      cases Piece.blockBody? rest <;> rfl
    next hstar =>
      rw [found?_blockComment_of_ne (fun more heq => hstar (List.cons.inj heq).1), Option.none_or]

/-- Where no layout begins, the classes of tokens are tried. -/
theorem first?_of_not_layout (hblank : Piece.isBlank c = false) (hnewline : c ≠ '\n')
    (hslash : c ≠ '/') :
    first? ⟨offset, last?, c :: rest⟩ =
      ((Piece.punctuation? c).map fun kind => ⟨.token kind, [c], rest⟩).or
        (words.findSome? fun k => found? k.1 k.2 ⟨offset, last?, c :: rest⟩) := by
  simp only [first?_cons, layouts, List.findSome?_cons, List.findSome?_nil,
    found?_blanks_of_not hblank, found?_of_ne hnewline, found?_of_ne hslash, Option.none_or]

/-- No class has a piece at the end of a text. -/
theorem first?_nil : first? ⟨offset, last?, []⟩ = none := by
  rw [first?_eq_findSome?]
  rfl

theorem first?_quote {kind : TokenKind} {quote : Char}
    (h : (kind, quote) ∈ [(TokenKind.doubleQuoted, '"'), (.singleQuoted, '\'')]) :
    first? ⟨offset, last?, quote :: rest⟩ = Piece.quotedLiteral? kind quote rest := by
  simp only [List.mem_cons, Prod.mk.injEq, List.not_mem_nil, or_false] at h
  obtain ⟨rfl, rfl⟩ | ⟨rfl, rfl⟩ := h
  all_goals
    rw [first?_of_not_layout rfl (by decide) (by decide), findSome?_words]
    simp (disch := decide) only [punctuation?_eq_none, Option.map_none, Option.none_or,
      Option.or_none, found?_number_of_not, found?_of_ne, found?_literal, found?_literal_of_ne,
      found?_identifier_of_not]

theorem isAsciiDigit_of_isIdentifierStart (h : Piece.isIdentifierStart c) :
    isAsciiDigit c = false := by
  rw [Bool.eq_false_iff]
  intro hdigit
  simp only [isAsciiDigit, Bool.and_eq_true, decide_eq_true_eq] at hdigit
  simp only [Piece.isIdentifierStart, Bool.or_eq_true, Bool.and_eq_true, decide_eq_true_eq] at h
  obtain (h | h) | rfl := h
  · exact absurd (Char.le_trans h.1 hdigit.2) (by decide)
  · exact absurd (Char.le_trans h.1 hdigit.2) (by decide)
  · exact absurd hdigit.2 (by decide)

theorem first?_letter (hblank : Piece.isBlank c = false) (h : Piece.isIdentifierStart c) :
    first? ⟨offset, last?, c :: rest⟩ =
      some (Piece.run (.token .identifier) Piece.isIdentifierPart [c] rest) := by
  have hne : ∀ d, Piece.isIdentifierStart d = false → c ≠ d := by
    rintro d hd rfl
    exact Bool.false_ne_true (hd.symm.trans h)
  have hmarks : ∀ mark ∈ punctuation, c ≠ mark.2 := fun mark hmark =>
    hne _ ((by decide : ∀ mark ∈ punctuation, Piece.isIdentifierStart mark.2 = false) mark hmark)
  rw [first?_of_not_layout hblank (hne _ rfl) (hne _ rfl), findSome?_words,
    punctuation?_eq_none hmarks, found?_identifier h,
    found?_number_of_not (isAsciiDigit_of_isIdentifierStart h) (hne _ rfl),
    found?_of_ne (hne '/' rfl), found?_literal_of_ne (hne '"' rfl),
    found?_literal_of_ne (hne '\'' rfl)]
  rfl

theorem first?_digit (hblank : Piece.isBlank c = false) (h : isAsciiDigit c) :
    first? ⟨offset, last?, c :: rest⟩ = some (Piece.number [] (c :: rest)) := by
  have hne : ∀ d, isAsciiDigit d = false → c ≠ d := by
    rintro d hd rfl
    exact Bool.false_ne_true (hd.symm.trans h)
  have hmarks : ∀ mark ∈ punctuation, c ≠ mark.2 := fun mark hmark =>
    hne _ ((by decide : ∀ mark ∈ punctuation, isAsciiDigit mark.2 = false) mark hmark)
  rw [first?_of_not_layout hblank (hne _ rfl) (hne _ rfl), findSome?_words,
    punctuation?_eq_none hmarks, found?_digit h]
  rfl

theorem first?_minus :
    first? ⟨offset, last?, '-' :: rest⟩ =
      if rest.head?.any isAsciiDigit then some (Piece.number ['-'] rest) else none := by
  rw [first?_of_not_layout rfl (by decide) (by decide), findSome?_words]
  simp (disch := decide) only [punctuation?_eq_none, Option.map_none, Option.none_or,
    Option.or_none, found?_minus, found?_of_ne, found?_literal_of_ne, found?_identifier_of_not]

end PieceClass

/-- What the classes find at a place is what reading from the left finds. -/
theorem PieceClass.first?_eq (c : Cursor) : first? c = Piece.first? c.rest := by
  obtain ⟨offset, last?, text⟩ := c
  change _ = Piece.first? text
  cases text with
  | nil => exact first?_nil
  | cons c rest =>
    rw [Piece.first?]
    split
    next hblank => exact first?_blank hblank
    next hblank =>
    have hblank : Piece.isBlank c = false := by simpa using hblank
    split
    next hnewline => exact hnewline ▸ first?_newline
    next hnewline =>
    split
    next hslash => exact hslash ▸ first?_slash
    next hslash =>
    split
    next hquote =>
      subst hquote
      exact first?_quote (by decide)
    next hdouble =>
    split
    next hquote =>
      subst hquote
      exact first?_quote (by decide)
    next hsingle =>
    split
    next hletter => exact first?_letter hblank hletter
    next hletter =>
    split
    next hdigit => exact first?_digit hblank hdigit
    next hdigit =>
    split
    next hminus =>
      subst hminus
      exact first?_minus
    next hminus =>
    rw [first?_of_not_layout hblank hnewline hslash, findSome?_words,
      found?_number_of_not (by simpa using hdigit) hminus,
      found?_of_ne hslash, found?_literal_of_ne hdouble,
      found?_literal_of_ne hsingle,
      found?_identifier_of_not (by simpa using hletter)]
    cases Piece.punctuation? c <;> rfl

end Rulebook
