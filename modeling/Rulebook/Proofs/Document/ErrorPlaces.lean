import Rulebook.Proofs.Surface.ViablePrefix
import Rulebook.Proofs.Text.Lines
import Rulebook.Proofs.Token.Tiling

/-! # Where errors are shown

An error in a text is shown at the character with which no piece begins, or at the token
at which the parser is stuck. The message names the line and the column of its start and
shows the line with a caret below.
-/

namespace Rulebook

open Text

/-! ## Characters that begin nothing -/

/-- Scanning fails behind the segments that are cut off, at a character with which no piece
begins. -/
theorem Scan.exists_of_ofCharsFrom_error {place place' : Position} {text : List Char} {c : Char}
    (h : ofCharsFrom place text = .error (place', c)) : ∃ segments rest,
      CutUpTo (c :: rest) text segments ∧ Piece.first? (c :: rest) = none ∧
        place' = place.advance (Segment.join segments) := by
  fun_induction ofCharsFrom place text with
  | case1 => cases h
  | case2 place d more hnone =>
      cases h
      exact ⟨[], more, .done, hnone, rfl⟩
  | case3 place d more p hfirst e hrest ih =>
      cases h
      obtain ⟨segments, rest, hcut, hnone, rfl⟩ := ih hrest
      refine ⟨⟨p.kind, p.text⟩ :: segments, rest, .cons hfirst hcut, hnone, ?_⟩
      rw [Segment.join_cons, Position.advance_append, Position.past_eq_advance]
  | case4 => cases h

/-- A name has letters, digits and underscores only. -/
theorem Piece.isIdentifierPart_of_first? {text : List Char} {p : Piece} (h : first? text = some p)
    (hkind : p.kind = .token .identifier) : ∀ c ∈ p.text, isIdentifierPart c := by
  cases text with
  | nil => cases h
  | cons c rest =>
      rw [first?_cons] at h
      have hfits := opening_fits c
      have hmem := opened?_kind_mem h
      rw [hkind] at hmem
      cases hopening : opening c with
      | letter =>
          rw [hopening] at h hfits
          cases h
          have hstart : isIdentifierPart c = true := by
            rw [isIdentifierPart, show isIdentifierStart c = true from hfits, Bool.true_or]
          exact List.forall_mem_cons.mpr ⟨hstart, fun d hd => List.mem_takeWhile_imp hd⟩
      | punctuation kind =>
          rw [hopening] at hmem hfits
          obtain rfl := PieceKind.token.inj (List.mem_singleton.mp hmem)
          simpa [punctuations] using mem_punctuations hfits
      | blank | newline | slash | doubleQuote | singleQuote | digit | minus | nothing =>
          simp [hopening, Opening.kinds] at hmem

theorem Scan.newline_notMem_identifier {text : List Char} {scan : Scan}
    (h : ofChars text = .ok scan) {t : Token TokenKind} (ht : t ∈ scan.tokens) (hkind : t.kind = .identifier) :
    '\n' ∉ t.lexeme.toList := by
  obtain ⟨rest, p, hfirst, hpiece, hlexeme⟩ := exists_first? h ht
  rw [hlexeme]
  rw [hkind] at hpiece
  intro hmem
  have hpart := Piece.isIdentifierPart_of_first? hfirst hpiece _ hmem
  revert hpart
  decide

/-- The place of a token is the one behind the text in front of it. -/
theorem Token.StandsIn.place_eq {text : List Char} {t : Token TokenKind} (h : t.StandsIn text) :
    (⟨t.start, t.line, t.column⟩ : Position) = Position.start.advance (text.take t.start) := by
  have hstart : t.start ≤ text.length := h.start_le_stop.trans h.stop_le_length
  have hlength : (text.take t.start).length = t.start := by
    rw [List.length_take, Nat.min_eq_left hstart]
  have hline := Position.start_advance_line (text.take t.start)
  have hcolumn := Position.start_advance_column (text.take t.start)
  have hoffset := Position.advance_offset Position.start (text.take t.start)
  rw [← h.line] at hline
  rw [hlength, ← h.column, Int.natCast_inj] at hcolumn
  rw [hlength] at hoffset
  rw [← hline, ← hcolumn]
  generalize Position.start.advance (text.take t.start) = place at hoffset
  obtain ⟨offset, line, column⟩ := place
  simp only [Position.start, Nat.zero_add] at hoffset
  rw [hoffset]

/-- The place of a token points into the line in which the token begins. -/
theorem Token.StandsIn.pointsInto {text : List Char} {t : Token TokenKind} (h : t.StandsIn text) :
    (⟨t.start, t.line, t.column⟩ : Position).PointsInto text (lineAt text t.start) := by
  have hlength : (text.take t.start).length = t.start := by
    rw [List.length_take, Nat.min_eq_left (h.start_le_stop.trans h.stop_le_length)]
  have hpoints := Position.pointsInto_advance (text.take t.start) (text.drop t.start)
  rwa [List.take_append_drop, ← h.place_eq, hlength] at hpoints

/-! ## What is said about a fault -/

/-- The name of the kind of token that a fault is about. -/
def SyntaxFault.kindName? : SyntaxFault → Option String
  | expectedToken _ found => some found
  | expectedFieldBody _ found => some found
  | expectedOptionValue found => some found
  | missingSemicolon _ found => some found
  | unexpectedToken found => some found
  | emptyGroup => some TokenKind.openParen.name
  | unexpectedChar _ => none
  | other _ => none

theorem newline_notMem_append {a b : String} (ha : '\n' ∉ a.toList) (hb : '\n' ∉ b.toList) :
    '\n' ∉ (a ++ b).toList := by
  rw [String.toList_append, List.mem_append, not_or]
  exact ⟨ha, hb⟩

/-- A character is told on one line. -/
theorem SyntaxFault.newline_notMem_unexpectedChar (c : Char) :
    '\n' ∉ (unexpectedChar c).text.toList := by
  refine newline_notMem_append (by decide) ?_
  rw [String.quotedText, String.toList_ofList]
  exact newline_notMem_quoted _

/-- An error at the place behind the front of a text points there, into the line it shows. -/
theorem SyntaxError.pointsInto_ofPlace (front back : List Char) (fault : SyntaxFault) :
    let e := ofPlace (front ++ back) fault (Position.start.advance front)
    (⟨front.length, e.line, e.column⟩ : Position).PointsInto (front ++ back) e.sourceLine := by
  have hoffset : (Position.start.advance front).offset = front.length :=
    (Position.advance_offset _ _).trans (Nat.zero_add _)
  have hpoints := Position.pointsInto_advance front back
  rw [← hoffset] at hpoints ⊢
  exact hpoints

/-- Behind the last newline in front there is one character for each column in front: the
indentation that is counted back to the start of the line is the one that the column gives. -/
theorem SyntaxError.indent_ofPlace (front back : List Char) (fault : SyntaxFault) :
    let e := ofPlace (front ++ back) fault (Position.start.advance front)
    e.indent = e.column - 1 := by
  have hoffset : (Position.start.advance front).offset = front.length :=
    (Position.advance_offset _ _).trans (Nat.zero_add _)
  simp only [ofPlace, hoffset, lineStart, List.take_left]
  rw [← Position.past_eq_advance, Position.past]
  cases lastNewline? front with
  | none => simp only [Position.start, Nat.sub_zero, Nat.add_sub_cancel_left]
  | some index => exact Nat.sub_add_eq _ _ _

theorem TokenKind.newline_notMem_name (kind : TokenKind) : '\n' ∉ kind.name.toList := by
  cases kind <;> decide

namespace Document

theorem Stuck.Tells.newline_notMem {taken : Tokens} {s : Stuck} (h : s.Tells taken)
    (hnames : ∀ t ∈ taken, t.kind = .identifier → '\n' ∉ t.lexeme.toList) :
    '\n' ∉ s.fault.text.toList := by
  have hnext := fun left => TokenKind.newline_notMem_name (nextKind left)
  cases h with
  | expectedToken kind left =>
      refine newline_notMem_append ?_ (hnext left)
      exact newline_notMem_append
        (newline_notMem_append (by decide) kind.newline_notMem_name) (by decide)
  | expectedFieldBody hmem hname left =>
      refine newline_notMem_append ?_ (hnext left)
      exact newline_notMem_append
        (newline_notMem_append (by decide) (hnames _ hmem hname)) (by decide)
  | expectedOptionValue left => exact newline_notMem_append (by decide) (hnext left)
  | missingSemicolon hmem hname left =>
      refine newline_notMem_append (newline_notMem_append ?_ (hnext left)) (by decide)
      exact newline_notMem_append
        (newline_notMem_append (by decide) (hnames _ hmem hname)) (by decide)
  | unexpectedToken left => exact newline_notMem_append (by decide) (hnext left)
  | emptyGroup hlast hopen left => exact (by decide : '\n' ∉ SyntaxFault.emptyGroup.text.toList)

/-- What an error is about, and where that starts: a character with which no piece begins,
behind segments that were cut off; or a token that comes first among those that were left,
of the kind that is told, which stands in the text where it says. The last one is that of
the end, which starts where the text ends. -/
inductive Offends (text : List Char) : SyntaxFault → Nat → Prop
  | char {c : Char} {segments : List Segment} {rest : List Char}
      (hcut : CutUpTo (c :: rest) text segments) (hnone : Piece.first? (c :: rest) = none) :
      Offends text (.unexpectedChar c) (Segment.join segments).length
  | token {scan : Scan} {s : Stuck} {t : Token TokenKind} {more : Tokens}
      (hscan : Scan.ofChars text = .ok scan) (hstuck : ofTokens scan.tokens = .error s)
      (hleft : s.left ++ [scan.endToken] = t :: more) (hall : t :: more <:+ scan.all)
      (hkind : s.fault.kindName? = some t.kind.name) (hstands : t.StandsIn text)
      (hend : more = [] → t.start = text.length) : Offends text s.fault t.start

/-- The token that is reported is the first one that was left, and of the kind that is
told. -/
theorem Stuck.exists_reported {scan : Scan} {s : Stuck} (h : ofTokens scan.tokens = .error s)
    (hend : scan.endToken.kind = .endOfText) :
    ∃ t more, s.left ++ [scan.endToken] = t :: more ∧ t :: more <:+ scan.all ∧
      s.fault.kindName? = some t.kind.name ∧ s.left.head?.getD scan.endToken = t := by
  obtain ⟨front, htokens, htells, -, -⟩ := ofTokens_eq_error h
  have hleft : s.left <:+ scan.tokens := by
    rw [htokens]
    cases htells with
    | emptyGroup hlast hopen left =>
        obtain ⟨past, rfl⟩ := hlast
        exact ⟨past, by rw [List.append_assoc]; rfl⟩
    | expectedToken | expectedFieldBody | expectedOptionValue | missingSemicolon
    | unexpectedToken =>
        exact List.suffix_append front _
  have hkind : ∀ t more, s.left ++ [scan.endToken] = t :: more → nextKind s.left = t.kind := by
    intro t more heq
    generalize s.left = left at heq
    cases left with
    | nil => rw [← (List.cons.inj heq).1, hend]; rfl
    | cons u rest => rw [← (List.cons.inj heq).1]; rfl
  obtain ⟨past, hpast⟩ := hleft
  obtain ⟨t, more, heq⟩ := List.exists_cons_of_ne_nil
    (show s.left ++ [scan.endToken] ≠ [] by simp)
  refine ⟨t, more, heq, ⟨past, ?_⟩, ?_, ?_⟩
  · rw [← heq, ← List.append_assoc, hpast, Scan.all]
  · have hnext := hkind t more heq
    cases htells with
    | emptyGroup hlast hopen left => rw [← (List.cons.inj heq).1, SyntaxFault.kindName?, hopen]
    | expectedToken | expectedFieldBody | expectedOptionValue | missingSemicolon
    | unexpectedToken =>
        rw [← hnext]
        rfl
  · generalize s.left = left at heq
    cases left with
    | nil => exact (List.cons.inj heq).1
    | cons u rest => exact (List.cons.inj heq).1

/-- An error in a text tells, on one line, what is wrong, and then the line and the column
of what is wrong; it shows that line of the text, and a caret below the column. -/
theorem parse_error_place {text : String} {e : SyntaxError} (h : parse text = .error e) :
    ∃ offset shown,
      e.message = e.fault.text ++ " at " ++ toString e.line ++ ":" ++ toString e.column ++ "\n"
        ++ String.ofList shown ++ "\n" ++ String.ofList (List.replicate (e.column - 1) ' ') ++ "^" ∧
      '\n' ∉ e.fault.text.toList ∧
      (⟨offset, e.line, e.column⟩ : Position).PointsInto text.toList shown ∧
      Offends text.toList e.fault offset := by
  rcases parse_eq_error h with hscan | ⟨scan, s, hscan, hstuck, rfl⟩
  · unfold Scan.ofChars at hscan
    split at hscan
    · cases hscan
    · next place c hfrom =>
        cases hscan
        obtain ⟨segments, rest, hcut, hnone, rfl⟩ := Scan.exists_of_ofCharsFrom_error hfrom
        have hpoints := SyntaxError.pointsInto_ofPlace (Segment.join segments) (c :: rest)
          (.unexpectedChar c)
        have hindent := SyntaxError.indent_ofPlace (Segment.join segments) (c :: rest)
          (.unexpectedChar c)
        rw [hcut.append_eq] at hpoints hindent
        exact ⟨_, _, by rw [SyntaxError.message, hindent],
          SyntaxFault.newline_notMem_unexpectedChar c, hpoints, .char hcut hnone⟩
  · have htiling := Scan.tiling_of_ofChars hscan
    obtain ⟨t, more, hleft, hall, hkind, hreported⟩ :=
      Stuck.exists_reported hstuck htiling.endToken_kind
    obtain ⟨front, htokens, htells, -, -⟩ := ofTokens_eq_error hstuck
    have hstands := htiling.standsIn t (hall.subset List.mem_cons_self)
    rw [Stuck.toError, hreported, SyntaxError.ofToken]
    refine ⟨t.start, _, rfl, ?_, hstands.pointsInto,
      .token hscan hstuck hleft hall hkind hstands ?_⟩
    · refine htells.newline_notMem fun name hname hidentifier => ?_
      refine Scan.newline_notMem_identifier hscan ?_ hidentifier
      rw [htokens]
      exact List.mem_append_left _ hname
    · rintro rfl
      have hlast : scan.endToken = t := by simpa using congrArg List.getLast? hleft
      rw [← hlast]
      exact htiling.endToken_start

/-- The end of a text is on its last line, which may be empty. -/
theorem parse_error_lastLine :
    ∃ e, parse "t \x7b // 1\n/* 2\n*/\n" = .error e ∧
      e.message = "Expected IDENT, got EOF at 4:1\n\n^" ∧
      (⟨17, e.line, e.column⟩ : Position).PointsInto "t \x7b // 1\n/* 2\n*/\n".toList [] ∧
      Offends "t \x7b // 1\n/* 2\n*/\n".toList e.fault 17 := by
  have hparse : parse "t \x7b // 1\n/* 2\n*/\n" =
      .error ⟨.expectedToken "IDENT" "EOF", 4, 1, [], 0⟩ := by cbv
  obtain ⟨offset, shown, -, -, hpoints, hoffends⟩ := parse_error_place hparse
  obtain rfl : offset = 17 := hpoints.offset_eq.trans (by cbv)
  obtain rfl : [] = shown := by
    have hshown := hpoints.shown_eq
    rw [show ("t \x7b // 1\n/* 2\n*/\n".toList.splitOn '\n')[4 - 1]? = some [] by cbv] at hshown
    exact Option.some.inj hshown
  exact ⟨⟨.expectedToken "IDENT" "EOF", 4, 1, [], 0⟩, hparse, rfl, hpoints, hoffends⟩

end Document

end Rulebook
