import Mathlib.Data.List.Infix
import Rulebook.Proofs.Sequence
import Rulebook.Proofs.Token.Scan

/-! # Where a piece ends

The scanner cuts a text into pieces, each as long as it can be. How a piece is read
depends on what follows it in two ways only: a character behind it may prolong it, and
a regular expression that begins with a slash and a star turns into a comment when a
star and a slash follow anywhere behind it. A piece is therefore the same before any
other rest that does neither. -/

namespace Rulebook

open Text
open Sequence (StopsBefore stopsBefore_dropWhile)

namespace Text

/-- A delimited body stays the same whatever follows its closing character. -/
theorem delimited_of_rest {close : Char} {plain : Char → Bool} {text body rest : List Char}
    (h : delimited close plain text = some (body, rest)) (other : List Char) :
    delimited close plain (body ++ close :: other) = some (body, other) := by
  fun_induction delimited close plain text generalizing body rest with
  | case1 => cases h
  | case2 =>
      cases h
      rw [List.nil_append, delimited.eq_def]
      exact if_pos rfl
  | case3 => cases h
  | case4 => cases h
  | case5 e more inner tail hinner hclose ih =>
      cases h
      rw [List.cons_append, List.cons_append, delimited.eq_def]
      simp only [if_neg hclose, if_true, ih hinner]
  | case6 => cases h
  | case7 c more hclose hescape hplain inner tail hinner ih =>
      cases h
      rw [List.cons_append, delimited.eq_def]
      simp only [if_neg hclose, if_neg hescape, if_pos hplain, ih hinner]
  | case8 => cases h

end Text

namespace Piece

/-! ## Block comments -/

/-- The star and slash that close a block comment. -/
def closing : List Char := ['*', '/']

theorem closing_infix_cons_iff {c d : Char} {rest : List Char} :
    closing <:+: c :: d :: rest ↔ (c = '*' ∧ d = '/') ∨ closing <:+: d :: rest := by
  rw [List.infix_cons_iff]
  simp [closing, eq_comm]

theorem not_closing_infix_singleton (c : Char) : ¬ closing <:+: [c] := by
  simp [closing, List.infix_cons_iff]

theorem blockBody?_eq_none_iff {text : List Char} :
    blockBody? text = none ↔ ¬ closing <:+: text := by
  fun_induction blockBody? text with
  | case1 => simp [closing]
  | case2 c => simp [not_closing_infix_singleton]
  | case3 c d more hclose =>
      simp only [Bool.and_eq_true, decide_eq_true_eq] at hclose
      simp [closing_infix_cons_iff, hclose]
  | case4 c d more hclose hinner ih =>
      simp only [Bool.and_eq_true, decide_eq_true_eq] at hclose
      simp [closing_infix_cons_iff, hclose, ih.mp hinner]
  | case5 c d more hclose inner tail hinner ih =>
      rw [hinner] at ih
      simp_all [closing_infix_cons_iff]

/-- A body in which no star and slash stand together is taken as a whole. -/
theorem blockBody?_of_not_closing {body : List Char} (h : ¬ closing <:+: body) (rest : List Char) :
    blockBody? (body ++ '*' :: '/' :: rest) = some (body, rest) := by
  induction body with
  | nil => simp [blockBody?]
  | cons c body ih =>
      have hbody : ¬ closing <:+: body := fun hwithin => h (List.infix_cons_iff.mpr (.inr hwithin))
      -- The two characters at the head do not close the comment, so it goes on.
      obtain ⟨d, more, hmore⟩ := List.exists_cons_of_ne_nil
        (show body ++ '*' :: '/' :: rest ≠ [] by simp)
      have hopen : ¬(c = '*' ∧ d = '/') := by
        rintro ⟨rfl, rfl⟩
        cases body with
        | nil => cases hmore
        | cons e body =>
            obtain rfl := (List.cons.inj hmore).1
            exact h (closing_infix_cons_iff.mpr (.inl ⟨rfl, rfl⟩))
      rw [List.cons_append, hmore, blockBody?, if_neg (by simpa using hopen), ← hmore, ih hbody]

theorem not_closing_of_blockBody? {text body rest : List Char}
    (h : blockBody? text = some (body, rest)) : ¬ closing <:+: body := by
  fun_induction blockBody? text generalizing body rest with
  | case1 => cases h
  | case2 => cases h
  | case3 =>
      cases h
      simp [closing]
  | case4 => cases h
  | case5 c d more hclose inner tail hinner ih =>
      cases h
      cases inner with
      | nil => exact not_closing_infix_singleton c
      | cons e inner =>
          obtain rfl := (List.cons.inj (blockBody?_append hinner)).1
          rw [closing_infix_cons_iff]
          rintro (hpair | hwithin)
          · simp [hpair] at hclose
          · exact ih hinner hwithin

/-! ## What a character begins -/

/-- What the character at the head of a text begins. -/
inductive Opening
  | blank
  | newline
  | slash
  | doubleQuote
  | singleQuote
  | letter
  | digit
  | minus
  | punctuation (kind : TokenKind)
  | nothing

/-- What a character begins, in the order in which the classes are tried. -/
def opening (c : Char) : Opening :=
  if isBlank c then .blank
  else if c = '\n' then .newline
  else if c = '/' then .slash
  else if c = '"' then .doubleQuote
  else if c = '\'' then .singleQuote
  else if isIdentifierStart c then .letter
  else if isAsciiDigit c then .digit
  else if c = '-' then .minus
  else match punctuation? c with
    | some kind => .punctuation kind
    | none => .nothing

/-- The piece that a character makes with the rest of a text, by what it begins. -/
def opened? (c : Char) (rest : List Char) : Opening → Option Piece
  | .blank => some (run (.layout .blanks) isBlank [c] rest)
  | .newline => some ⟨.layout .newline, [c], rest⟩
  | .slash => slash? rest
  | .doubleQuote => quotedLiteral? .doubleQuoted '"' rest
  | .singleQuote => quotedLiteral? .singleQuoted '\'' rest
  | .letter => some (run (.token .identifier) isIdentifierPart [c] rest)
  | .digit => some (number [] (c :: rest))
  | .minus => if rest.head?.any isAsciiDigit then some (number ['-'] rest) else none
  | .punctuation kind => some ⟨.token kind, [c], rest⟩
  | .nothing => none

/-- The first character alone decides how a piece is read. -/
theorem first?_cons (c : Char) (rest : List Char) :
    first? (c :: rest) = opened? c rest (opening c) := by
  have hite : ∀ {p : Prop} [Decidable p] {x y : Option Piece} {a b : Opening},
      x = opened? c rest a → y = opened? c rest b →
      (if p then x else y) = opened? c rest (if p then a else b) := by
    intro p _ x y a b hx hy
    split
    · exact hx
    · exact hy
  unfold opening
  iterate 8 refine hite rfl ?_
  cases punctuation? c <;> rfl

/-- A character is of the class that it begins. -/
def Opening.Fits (c : Char) : Opening → Prop
  | .blank => isBlank c
  | .newline => c = '\n'
  | .slash => c = '/'
  | .doubleQuote => c = '"'
  | .singleQuote => c = '\''
  | .letter => isIdentifierStart c
  | .digit => isAsciiDigit c
  | .minus => c = '-'
  | .punctuation kind => punctuation? c = some kind
  | .nothing => True

theorem opening_fits (c : Char) : (opening c).Fits c := by
  have hite : ∀ {p : Prop} [Decidable p] {a b : Opening},
      (p → a.Fits c) → b.Fits c → (if p then a else b).Fits c := by
    intro p _ a b ha hb
    split
    · next hp => exact ha hp
    · exact hb
  unfold opening
  iterate 8 refine hite id ?_
  split
  · next kind hkind => exact hkind
  · exact trivial

theorem regex?_kind {text : List Char} {p : Piece} (h : regex? text = some p) :
    p.kind = .token .regex := by
  unfold regex? at h
  split at h
  · cases h
  · cases h
    rfl

theorem number_kind (sign text : List Char) : (number sign text).kind = .token .number := by
  unfold number fraction
  split
  · split <;> rfl
  · rfl

/-- The kinds of piece that begin so. -/
def Opening.kinds : Opening → List PieceKind
  | .blank => [.layout .blanks]
  | .newline => [.layout .newline]
  | .slash => [.layout .lineComment, .layout .blockComment, .token .regex]
  | .doubleQuote => [.token .doubleQuoted]
  | .singleQuote => [.token .singleQuoted]
  | .letter => [.token .identifier]
  | .digit | .minus => [.token .number]
  | .punctuation kind => [.token kind]
  | .nothing => []

theorem slash?_kind_mem {text : List Char} {p : Piece} (h : slash? text = some p) :
    p.kind ∈ Opening.slash.kinds := by
  have hregex : PieceKind.token .regex ∈ Opening.slash.kinds := by simp [Opening.kinds]
  unfold slash? at h
  split at h
  · cases h
  split at h
  · cases h
    exact List.mem_cons_self
  split at h
  · split at h
    · cases h
      exact List.mem_cons_of_mem _ List.mem_cons_self
    · rwa [regex?_kind h]
  · rwa [regex?_kind h]

theorem opened?_kind_mem {c : Char} {rest : List Char} {o : Opening} {p : Piece}
    (h : opened? c rest o = some p) : p.kind ∈ o.kinds := by
  cases o with
  | blank | newline | letter | punctuation =>
      cases h
      exact List.mem_singleton_self _
  | slash => exact slash?_kind_mem h
  | doubleQuote | singleQuote => exact List.mem_singleton.mpr (quotedLiteral?_kind h)
  | digit =>
      cases h
      exact List.mem_singleton.mpr (number_kind _ _)
  | minus =>
      rw [opened?] at h
      split at h
      · cases h
        exact List.mem_singleton.mpr (number_kind _ _)
      · cases h
  | nothing => cases h

/-- No piece is of the kind that stands for the end of a text. -/
theorem first?_kind_ne_endOfText {text : List Char} {p : Piece} (h : first? text = some p) :
    p.kind ≠ .token .endOfText := by
  cases text with
  | nil => cases h
  | cons c rest =>
      rw [first?_cons] at h
      have hfits := opening_fits c
      have hmem := opened?_kind_mem h
      intro heq
      rw [heq] at hmem
      cases hopening : opening c with
      | punctuation kind =>
          rw [hopening] at hmem hfits
          obtain rfl := PieceKind.token.inj (List.mem_singleton.mp hmem)
          simpa [punctuations] using mem_punctuations hfits
      | blank | newline | slash | doubleQuote | singleQuote | letter | digit | minus | nothing =>
          simp [hopening, Opening.kinds] at hmem

/-! ## Prolonging a piece -/

/-- The characters that prolong a piece of a kind. A point is one of those that
prolong a number, since a fraction may begin with it. -/
def prolongs : PieceKind → Char → Bool
  | .layout .blanks, c => isBlank c
  | .layout .lineComment, c => c ≠ '\n'
  | .token .identifier, c => isIdentifierPart c
  | .token .number, c => isAsciiDigit c || c = '.'
  | .token .regex, c => isFlag c
  | _, _ => false

/-- The same piece before another rest. -/
def before (p : Piece) (rest : List Char) : Piece := { p with rest }

section

variable {text rest : List Char} {p : Piece}

theorem run_before (kind : PieceKind) {inClass : Char → Bool} (head text : List Char)
    (h : StopsBefore inClass rest) :
    run kind inClass head (text.takeWhile inClass ++ rest) =
      (run kind inClass head text).before rest := by
  have hall : ∀ c ∈ text.takeWhile inClass, inClass c := fun c hc => List.mem_takeWhile_imp hc
  rw [run, Sequence.takeWhile_append hall h, Sequence.dropWhile_append hall h]
  rfl

theorem quotedLiteral?_before {kind : TokenKind} {quote : Char}
    (h : quotedLiteral? kind quote text = some p) (rest : List Char) :
    ∃ tail, p.text = quote :: tail ∧
      quotedLiteral? kind quote (tail ++ rest) = some (p.before rest) := by
  unfold quotedLiteral? at h
  split at h
  · cases h
  · next body after hbody =>
      cases h
      refine ⟨body ++ [quote], rfl, ?_⟩
      rw [quotedLiteral?, List.append_assoc, List.singleton_append, delimited_of_rest hbody]
      rfl

theorem regex?_before {c : Char} (h : regex? (c :: text) = some p)
    (hrest : StopsBefore isFlag rest) :
    ∃ tail, p.text = '/' :: c :: tail ∧ regex? (c :: tail ++ rest) = some (p.before rest) := by
  unfold regex? at h
  split at h
  · cases h
  next body after hbody =>
    cases h
    obtain ⟨d, tail, htail⟩ := List.exists_cons_of_ne_nil
      (show body ++ '/' :: after.takeWhile isFlag ≠ [] by simp)
    have hhead : d = c := by
      have happend := delimited_append hbody
      cases body with
      | nil => exact (List.cons.inj htail).1.symm.trans (List.cons.inj happend).1
      | cons e body => exact (List.cons.inj htail).1.symm.trans (List.cons.inj happend).1
    subst hhead
    refine ⟨tail, by simp [run, ← htail], ?_⟩
    rw [← htail, regex?, List.append_assoc, List.cons_append, delimited_of_rest hbody]
    exact congrArg some (run_before _ _ after hrest)

theorem slash?_line (rest : List Char) :
    slash? ('/' :: rest) = some (run (.layout .lineComment) (· ≠ '\n') ['/', '/'] rest) := rfl

theorem slash?_star (rest : List Char) : slash? ('*' :: rest) =
    match blockBody? rest with
    | some (body, tail) => some ⟨.layout .blockComment, '/' :: '*' :: body ++ ['*', '/'], tail⟩
    | none => regex? ('*' :: rest) := rfl

theorem slash?_eq_regex? {c : Char} (hslash : c ≠ '/') (hstar : c ≠ '*') (rest : List Char) :
    slash? (c :: rest) = regex? (c :: rest) := by
  unfold slash?
  simp only [if_neg hslash, if_neg hstar]

/-- A regular expression that begins with a slash and a star is one as long as no
star and slash follow. -/
theorem slash?_before (h : slash? text = some p) (hrest : StopsBefore (prolongs p.kind) rest)
    (hopen : ∀ tail, p.kind = .token .regex → p.text = '/' :: '*' :: tail →
      ¬ closing <:+: tail ++ rest) :
    ∃ tail, p.text = '/' :: tail ∧ slash? (tail ++ rest) = some (p.before rest) := by
  cases text with
  | nil => cases h
  | cons c more =>
      by_cases hslash : c = '/'
      · subst hslash
        rw [slash?_line] at h
        cases h
        refine ⟨'/' :: more.takeWhile (· ≠ '\n'), rfl, ?_⟩
        rw [List.cons_append, slash?_line]
        exact congrArg some (run_before _ _ more hrest)
      by_cases hstar : c = '*'
      · subst hstar
        rw [slash?_star] at h
        split at h
        · next body after hbody =>
            cases h
            refine ⟨'*' :: body ++ ['*', '/'], rfl, ?_⟩
            have htaken := blockBody?_of_not_closing (not_closing_of_blockBody? hbody) rest
            rw [List.append_assoc, List.cons_append, slash?_star]
            simp only [List.cons_append, List.nil_append, htaken]
            rfl
        · have hkind := regex?_kind h
          rw [hkind] at hrest
          obtain ⟨tail, htext, htail⟩ := regex?_before h hrest
          have hnone := blockBody?_eq_none_iff.mpr (hopen tail hkind htext)
          refine ⟨'*' :: tail, htext, ?_⟩
          rw [List.cons_append, slash?_star, hnone]
          exact htail
      · rw [slash?_eq_regex? hslash hstar] at h
        rw [regex?_kind h] at hrest
        obtain ⟨tail, htext, htail⟩ := regex?_before h hrest
        refine ⟨c :: tail, htext, ?_⟩
        rw [List.cons_append, slash?_eq_regex? hslash hstar]
        exact htail

/-- What does not prolong a number is no digit and no point. -/
theorem stopsBefore_number (h : StopsBefore (prolongs (.token .number)) rest) :
    StopsBefore isAsciiDigit rest ∧ ∀ more, rest ≠ '.' :: more := by
  cases rest with
  | nil => simp
  | cons c more => simpa [prolongs] using h

theorem fraction_before (head text : List Char)
    (hrest : StopsBefore (prolongs (.token .number)) rest) :
    ∃ tail, (fraction head text).text = head ++ tail ∧ StopsBefore isAsciiDigit (tail ++ rest) ∧
      fraction head (tail ++ rest) = (fraction head text).before rest := by
  obtain ⟨hdigit, hpoint⟩ := stopsBefore_number hrest
  have hself : fraction head rest = ⟨.token .number, head, rest⟩ := by
    unfold fraction
    split
    · exact absurd rfl (hpoint _)
    · rfl
  by_cases hfraction : ∃ d more, text = '.' :: d :: more ∧ isAsciiDigit d
  · obtain ⟨d, more, rfl, hd⟩ := hfraction
    have hrun : ∀ after, fraction head ('.' :: d :: after) =
        run (.token .number) isAsciiDigit (head ++ ['.', d]) after := fun after => if_pos hd
    refine ⟨'.' :: d :: more.takeWhile isAsciiDigit, ?_, Sequence.stopsBefore_cons.mpr rfl, ?_⟩
    · rw [hrun, run, List.append_assoc]
      rfl
    · rw [List.cons_append, List.cons_append, hrun, hrun, run_before _ _ more hdigit]
  · have hnone : fraction head text = ⟨.token .number, head, text⟩ := by
      unfold fraction
      split
      · next d more => exact if_neg fun hd => hfraction ⟨d, more, rfl, hd⟩
      · rfl
    rw [hnone]
    exact ⟨[], (List.append_nil head).symm, hdigit, hself⟩

/-- A number is read again from its own text, which begins with the same digit. -/
theorem number_before {sign : List Char} {c : Char} {more : List Char} (hc : isAsciiDigit c)
    (hrest : StopsBefore (prolongs (.token .number)) rest) :
    ∃ tail, (number sign (c :: more)).text = sign ++ c :: tail ∧
      number sign (c :: tail ++ rest) = (number sign (c :: more)).before rest := by
  obtain ⟨point, htext, hstop, hpoint⟩ := fraction_before
    (sign ++ c :: more.takeWhile isAsciiDigit) (more.dropWhile isAsciiDigit) hrest
  have hall : ∀ d ∈ c :: more.takeWhile isAsciiDigit, isAsciiDigit d :=
    List.forall_mem_cons.mpr ⟨hc, fun d hd => List.mem_takeWhile_imp hd⟩
  have hnumber : number sign (c :: more) =
      fraction (sign ++ c :: more.takeWhile isAsciiDigit) (more.dropWhile isAsciiDigit) := by
    rw [number, List.takeWhile_cons_of_pos hc, List.dropWhile_cons_of_pos hc]
  refine ⟨more.takeWhile isAsciiDigit ++ point, ?_, ?_⟩
  · rw [hnumber, htext, List.append_assoc, List.cons_append]
  · rw [hnumber, ← List.cons_append, List.append_assoc, number,
      Sequence.takeWhile_append hall hstop, Sequence.dropWhile_append hall hstop, hpoint]

/-- A piece stays the same before another rest that does not prolong it, if it is
no regular expression that the rest closes as a comment. -/
theorem first?_before (h : first? text = some p) (hrest : StopsBefore (prolongs p.kind) rest)
    (hopen : ∀ tail, p.kind = .token .regex → p.text = '/' :: '*' :: tail →
      ¬ closing <:+: tail ++ rest) :
    first? (p.text ++ rest) = some (p.before rest) := by
  cases text with
  | nil => cases h
  | cons c more =>
      have hfits := opening_fits c
      rw [first?_cons] at h
      -- The text of the piece begins with the same character, so it opens the same.
      suffices ∃ tail, p.text = c :: tail ∧
          opened? c (tail ++ rest) (opening c) = some (p.before rest) by
        obtain ⟨tail, htext, htail⟩ := this
        rw [htext, List.cons_append, first?_cons, htail]
      cases hopening : opening c with
      | blank =>
          rw [hopening] at h
          cases h
          exact ⟨_, rfl, congrArg some (run_before _ _ more hrest)⟩
      | newline =>
          rw [hopening] at h
          cases h
          exact ⟨[], rfl, rfl⟩
      | slash =>
          rw [hopening] at h hfits
          obtain rfl : c = '/' := hfits
          exact slash?_before h hrest hopen
      | doubleQuote =>
          rw [hopening] at h hfits
          obtain rfl : c = '"' := hfits
          exact quotedLiteral?_before h rest
      | singleQuote =>
          rw [hopening] at h hfits
          obtain rfl : c = '\'' := hfits
          exact quotedLiteral?_before h rest
      | letter =>
          rw [hopening] at h
          cases h
          exact ⟨_, rfl, congrArg some (run_before _ _ more hrest)⟩
      | digit =>
          rw [hopening] at h hfits
          obtain rfl := Option.some.inj h
          rw [number_kind] at hrest
          obtain ⟨tail, htext, htail⟩ := number_before hfits hrest
          exact ⟨tail, htext, congrArg some htail⟩
      | minus =>
          rw [hopening] at h hfits
          obtain rfl : c = '-' := hfits
          rw [opened?] at h
          split at h
          · next hdigit =>
              obtain ⟨d, more, rfl⟩ := List.exists_cons_of_ne_nil (show more ≠ [] by
                rintro rfl
                cases hdigit)
              obtain rfl := Option.some.inj h
              rw [number_kind] at hrest
              obtain ⟨tail, htext, htail⟩ := number_before hdigit hrest
              exact ⟨d :: tail, htext, (if_pos hdigit).trans (congrArg some htail)⟩
          · cases h
      | punctuation kind =>
          rw [hopening] at h
          cases h
          exact ⟨[], rfl, rfl⟩
      | nothing =>
          rw [hopening] at h
          cases h

/-! ## What follows a piece -/

theorem prolongs_punctuation {c : Char} {kind : TokenKind} (h : punctuation? c = some kind)
    (d : Char) : prolongs (.token kind) d = false := by
  have hall : ∀ kind ∈ punctuations, prolongs (.token kind) d = false := by
    simp [punctuations, prolongs]
  exact hall kind (mem_punctuations h)

theorem stopsBefore_slash? (h : slash? text = some p) : StopsBefore (prolongs p.kind) p.rest := by
  have hregex : ∀ {text : List Char}, regex? text = some p →
      StopsBefore (prolongs p.kind) p.rest := by
    intro text h
    unfold regex? at h
    split at h
    · cases h
    · cases h
      exact stopsBefore_dropWhile _ _
  unfold slash? at h
  split at h
  · cases h
  split at h
  · cases h
    exact stopsBefore_dropWhile _ _
  split at h
  · split at h
    · cases h
      intro c hc
      rfl
    · exact hregex h
  · exact hregex h

theorem stopsBefore_fraction {head : List Char} (h : StopsBefore isAsciiDigit text) :
    StopsBefore isAsciiDigit (fraction head text).rest := by
  unfold fraction
  split
  · split
    · exact stopsBefore_dropWhile _ _
    · exact h
  · exact h

/-- What follows a number is no digit, and no point either if it begins a piece. -/
theorem stopsBefore_number_rest (sign text : List Char)
    (hnext : (number sign text).rest = [] ∨ (first? (number sign text).rest).isSome) :
    StopsBefore (prolongs (.token .number)) (number sign text).rest := by
  have hdigit : StopsBefore isAsciiDigit (number sign text).rest :=
    stopsBefore_fraction (stopsBefore_dropWhile _ _)
  intro c hc
  have hpoint : c ≠ '.' := by
    rintro rfl
    rcases hnext with hnil | hsome
    · rw [hnil] at hc
      cases hc
    · obtain ⟨more, hmore⟩ := List.head?_eq_some_iff.mp hc
      rw [hmore] at hsome
      cases hsome
  simp [prolongs, hdigit c hc, hpoint]

/-- A piece is as long as it can be: what follows it, if it is a piece again, does
not prolong it. -/
theorem stopsBefore_rest (h : first? text = some p)
    (hnext : p.rest = [] ∨ (first? p.rest).isSome) : StopsBefore (prolongs p.kind) p.rest := by
  cases text with
  | nil => cases h
  | cons c more =>
      have hfits := opening_fits c
      rw [first?_cons] at h
      cases hopening : opening c with
      | blank =>
          rw [hopening] at h
          cases h
          exact stopsBefore_dropWhile _ _
      | newline =>
          rw [hopening] at h
          cases h
          intro d hd
          rfl
      | slash =>
          rw [hopening] at h
          exact stopsBefore_slash? h
      | doubleQuote =>
          rw [hopening] at h
          rw [quotedLiteral?_kind h]
          intro d hd
          rfl
      | singleQuote =>
          rw [hopening] at h
          rw [quotedLiteral?_kind h]
          intro d hd
          rfl
      | letter =>
          rw [hopening] at h
          cases h
          exact stopsBefore_dropWhile _ _
      | digit =>
          rw [hopening] at h
          obtain rfl := Option.some.inj h
          rw [number_kind]
          exact stopsBefore_number_rest _ _ hnext
      | minus =>
          rw [hopening, opened?] at h
          split at h
          · obtain rfl := Option.some.inj h
            rw [number_kind]
            exact stopsBefore_number_rest _ _ hnext
          · cases h
      | punctuation kind =>
          rw [hopening] at h hfits
          cases h
          intro d hd
          exact prolongs_punctuation hfits d
      | nothing =>
          rw [hopening] at h
          cases h

end

end Piece

end Rulebook
