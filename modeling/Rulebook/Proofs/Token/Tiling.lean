import Rulebook.Proofs.Reading
import Rulebook.Proofs.Token.Cut
import Rulebook.Proofs.Token.Pieces

/-! # Tokens tile their text

The lexemes of a scan stand in its text one behind the other, and nothing but layout
stands between them. Lines and columns are those that the newlines in front of a token
give it, wherever these newlines stand.
-/

namespace Rulebook

open Text
open Piece (closing)

/-! ## Lines and columns -/

namespace Text

/-- The index of the last newline of a text; it is minus one if there is none. -/
def lastNewline (text : List Char) : Int :=
  match (text.idxsOf '\n').getLast? with
  | some index => index
  | none => -1

theorem lastNewline_append_newline (text : List Char) :
    lastNewline (text ++ ['\n']) = text.length := by
  simp [lastNewline]

theorem lastNewline_append_of_ne {c : Char} (h : c ≠ '\n') (text : List Char) :
    lastNewline (text ++ [c]) = lastNewline text := by
  simp [lastNewline, h]

theorem Position.start_advance_line (text : List Char) :
    (Position.start.advance text).line = 1 + text.count '\n' := by
  induction text using List.reverseRecOn with
  | nil => rfl
  | append_singleton text c ih =>
      rw [Position.advance_append, Position.advance_cons, Position.advance_nil, Position.step,
        List.count_append, List.count_singleton]
      split
      · next hc =>
          simp only [ih, hc, beq_self_eq_true, if_true]
          omega
      · next hc => simp only [ih, beq_iff_eq, hc, if_false, Nat.add_zero]

theorem Position.start_advance_column (text : List Char) :
    ((Position.start.advance text).column : Int) = text.length - lastNewline text := by
  induction text using List.reverseRecOn with
  | nil => rfl
  | append_singleton text c ih =>
      rw [Position.advance_append, Position.advance_cons, Position.advance_nil, Position.step,
        List.length_append, List.length_singleton]
      split
      · next hc =>
          subst hc
          rw [lastNewline_append_newline]
          push_cast
          omega
      · next hc =>
          rw [lastNewline_append_of_ne hc]
          push_cast
          omega

end Text

/-! ## Layout -/

/-- Layout in front of some text: blanks, newlines and comments in a row. A line
comment goes on to the end of its line. -/
inductive IsLayout : List Char → List Char → Prop
  | nil (after : List Char) : IsLayout [] after
  | blanks {run rest after : List Char} (hrun : ∀ c ∈ run, Piece.isBlank c)
      (hrest : IsLayout rest after) : IsLayout (run ++ rest) after
  | newline {rest after : List Char} (hrest : IsLayout rest after) :
      IsLayout ('\n' :: rest) after
  | lineComment {body rest after : List Char} (hbody : '\n' ∉ body)
      (hend : ∀ c ∈ (rest ++ after).head?, c = '\n') (hrest : IsLayout rest after) :
      IsLayout ('/' :: '/' :: body ++ rest) after
  | blockComment {body rest after : List Char} (hbody : ¬ closing <:+: body)
      (hrest : IsLayout rest after) : IsLayout ('/' :: '*' :: body ++ '*' :: '/' :: rest) after

theorem IsLayout.append {first second after : List Char} (h : IsLayout first (second ++ after))
    (hsecond : IsLayout second after) : IsLayout (first ++ second) after := by
  generalize hfollow : second ++ after = follow at h
  induction h with
  | nil => exact hsecond
  | blanks hrun _ ih =>
      rw [List.append_assoc]
      exact .blanks hrun (ih hfollow)
  | newline _ ih => exact .newline (ih hfollow)
  | lineComment hbody hend _ ih =>
      rw [List.append_assoc]
      refine .lineComment hbody ?_ (ih hfollow)
      rwa [List.append_assoc, hfollow]
  | blockComment hbody _ ih =>
      rw [List.append_assoc]
      exact .blockComment hbody (ih hfollow)

namespace Piece

theorem regex?_ne_layout {text : List Char} {p : Piece} (h : regex? text = some p)
    (kind : LayoutKind) : p.kind ≠ .layout kind := by
  rw [regex?_kind h]
  exact PieceKind.noConfusion

theorem isLayout_of_slash? {text : List Char} {p : Piece} {kind : LayoutKind}
    (h : slash? text = some p) (hkind : p.kind = .layout kind) : IsLayout p.text p.rest := by
  unfold slash? at h
  split at h
  · cases h
  next c more =>
    split at h
    · cases h
      have hbody : '\n' ∉ more.takeWhile (· ≠ '\n') := fun hmem => by
        simpa using List.mem_takeWhile_imp hmem
      have hend : ∀ c ∈ (more.dropWhile (· ≠ '\n')).head?, c = '\n' := by
        intro c hc
        simpa using Sequence.stopsBefore_dropWhile (· ≠ '\n') more c hc
      have hline := IsLayout.lineComment hbody hend (.nil _)
      rwa [List.append_nil] at hline
    split at h
    · split at h
      · next body tail hbody =>
          cases h
          exact .blockComment (not_closing_of_blockBody? hbody) (.nil tail)
      · exact absurd hkind (regex?_ne_layout h kind)
    · exact absurd hkind (regex?_ne_layout h kind)

/-- A piece that is no token is layout. -/
theorem isLayout_of_first? {text : List Char} {p : Piece} {kind : LayoutKind}
    (h : first? text = some p) (hkind : p.kind = .layout kind) : IsLayout p.text p.rest := by
  cases text with
  | nil => cases h
  | cons c more =>
      have hfits := opening_fits c
      rw [first?_cons] at h
      cases hopening : opening c with
      | blank =>
          rw [hopening] at h hfits
          cases h
          have hall : ∀ d ∈ c :: more.takeWhile isBlank, isBlank d :=
            List.forall_mem_cons.mpr ⟨hfits, fun d hd => List.mem_takeWhile_imp hd⟩
          have hrun := IsLayout.blanks hall (.nil (more.dropWhile isBlank))
          rwa [List.append_nil] at hrun
      | newline =>
          rw [hopening] at h hfits
          cases h
          obtain rfl : c = '\n' := hfits
          exact .newline (.nil more)
      | slash =>
          rw [hopening] at h
          exact isLayout_of_slash? h hkind
      | doubleQuote | singleQuote | letter | digit | minus | punctuation | nothing =>
          have hmem := opened?_kind_mem h
          simp [hopening, hkind, Opening.kinds] at hmem

end Piece

/-! ## Tiling -/

/-- A token stands in a text: its lexeme is the part that it says it is, and its line
and its column are counted from the newlines in front of it. -/
structure Token.StandsIn (text : List Char) (t : Token TokenKind) : Prop where
  start_le_stop : t.start ≤ t.stop
  stop_le_length : t.stop ≤ text.length
  lexeme : t.lexeme.toList = text.extract t.start t.stop
  line : t.line = 1 + (text.take t.start).count '\n'
  column : (t.column : Int) = t.start - lastNewline (text.take t.start)

/-- Tokens tile a text from an offset on: one stands behind the other, with nothing but
layout in front of each, and the last one ends where the text ends. -/
def Tiles (text : List Char) : Nat → List (Token TokenKind) → Prop
  | offset, [] => offset = text.length
  | offset, t :: more =>
      offset ≤ t.start ∧ IsLayout (text.extract offset t.start) (text.drop t.start) ∧
        t.StandsIn text ∧ Tiles text t.stop more

namespace Tiles

variable {text : List Char} {offset : Nat} {tokens : List (Token TokenKind)}

theorem standsIn (h : Tiles text offset tokens) : ∀ t ∈ tokens, t.StandsIn text := by
  induction tokens generalizing offset with
  | nil => exact List.forall_mem_nil _
  | cons t more ih =>
      obtain ⟨_, _, hstands, hmore⟩ := h
      exact List.forall_mem_cons.mpr ⟨hstands, ih hmore⟩

theorem le_start (h : Tiles text offset tokens) : ∀ t ∈ tokens, offset ≤ t.start := by
  induction tokens generalizing offset with
  | nil => exact List.forall_mem_nil _
  | cons t more ih =>
      obtain ⟨hle, _, hstands, hmore⟩ := h
      refine List.forall_mem_cons.mpr ⟨hle, fun u hu => ?_⟩
      exact (hle.trans hstands.start_le_stop).trans (ih hmore u hu)

/-- Tokens that tile a text do not overlap, and they stand in order. -/
theorem pairwise (h : Tiles text offset tokens) :
    tokens.Pairwise fun t u => t.stop ≤ u.start := by
  induction tokens generalizing offset with
  | nil => exact .nil
  | cons t more ih =>
      obtain ⟨_, _, _, hmore⟩ := h
      exact .cons hmore.le_start (ih hmore)

end Tiles

section

variable (kind : TokenKind) (front lexeme rest : List Char)

theorem Token.start_ofText :
    (Token.ofText kind (Position.start.advance front) lexeme).start = front.length := by
  rw [Token.ofText, Position.advance_offset]
  exact Nat.zero_add _

theorem Token.stop_ofText :
    (Token.ofText kind (Position.start.advance front) lexeme).stop =
      (front ++ lexeme).length := by
  rw [List.length_append]
  exact congrArg (· + lexeme.length) (Token.start_ofText kind front lexeme)

/-- The token of a piece stands where the piece was cut. -/
theorem Token.standsIn_ofText :
    (Token.ofText kind (Position.start.advance front) lexeme).StandsIn
      (front ++ lexeme ++ rest) := by
  have htake : (front ++ lexeme ++ rest).take front.length = front := by
    rw [List.append_assoc, List.take_left]
  refine ⟨Nat.le_add_right _ _, ?_, ?_, ?_, ?_⟩
  · rw [Token.stop_ofText]
    exact (List.prefix_append (front ++ lexeme) rest).length_le
  · rw [Token.start_ofText, Token.stop_ofText]
    simp [Token.ofText]
  · rw [Token.start_ofText, htake]
    exact Position.start_advance_line front
  · rw [Token.start_ofText, htake]
    exact Position.start_advance_column front

end

/-- A token behind layout goes in front of tokens that tile the rest. -/
theorem Tiles.cons_ofText {kind : TokenKind} {done gap lexeme rest : List Char}
    {more : List (Token TokenKind)} (hgap : IsLayout gap (lexeme ++ rest))
    (hmore : Tiles (done ++ gap ++ lexeme ++ rest) (done ++ gap ++ lexeme).length more) :
    Tiles (done ++ gap ++ lexeme ++ rest) done.length
      (.ofText kind (Position.start.advance (done ++ gap)) lexeme :: more) := by
  refine ⟨?_, ?_, Token.standsIn_ofText kind (done ++ gap) lexeme rest, ?_⟩
  · rw [Token.start_ofText, List.length_append]
    exact Nat.le_add_right _ _
  · rw [Token.start_ofText]
    simpa using hgap
  · rwa [Token.stop_ofText]

/-- The tokens of a cut tile the whole text, from the end of the last token on that
was cut before. -/
theorem Cut.tiles {text : List Char} {segments : List Segment} (h : Cut text segments)
    {done gap : List Char} (hgap : IsLayout gap text) :
    Tiles (done ++ gap ++ text) done.length
      (Segment.tokens (Position.start.advance (done ++ gap)) segments ++
        [.ofText .endOfText (Position.start.advance (done ++ gap ++ text)) []]) := by
  -- Layout is added to the gap; a token takes the gap in front of it and begins a new one.
  induction h generalizing done gap with
  | nil =>
      have hend : Tiles (done ++ gap ++ [] ++ []) (done ++ gap ++ []).length [] := by
        rw [List.append_nil]
        rfl
      have htiles : Tiles (done ++ gap ++ [] ++ []) done.length
          [.ofText .endOfText (Position.start.advance (done ++ gap)) []] :=
        Tiles.cons_ofText hgap hend
      rw [List.append_nil, List.append_nil] at htiles
      rwa [List.append_nil]
  | @cons text rest s more hfirst hmore ih =>
      obtain ⟨kind, lexeme⟩ := s
      obtain rfl : lexeme ++ rest = text := Piece.first?_append hfirst
      rw [← List.append_assoc]
      cases kind with
      | layout kind =>
          have hpiece : IsLayout lexeme rest := Piece.isLayout_of_first? hfirst rfl
          have htiles := @ih done (gap ++ lexeme) (hgap.append hpiece)
          rwa [← List.append_assoc, Position.advance_append .start (done ++ gap)] at htiles
      | token kind =>
          refine Tiles.cons_ofText hgap ?_
          have htiles := @ih (done ++ gap ++ lexeme) [] (.nil rest)
          rwa [List.append_nil, Position.advance_append .start (done ++ gap)] at htiles

/-- A scan is a tiling of a text by its tokens: they tile the text in their order, none
overlaps another, each stands where it says, and the token of the end, which alone is
empty, stands behind them. -/
structure Scan.Tiling (text : List Char) (scan : Scan) : Prop where
  tiles : Tiles text 0 scan.all
  pairwise : scan.all.Pairwise fun t u => t.stop ≤ u.start
  standsIn : ∀ t ∈ scan.all, t.StandsIn text
  lexeme_ne : ∀ t ∈ scan.tokens, t.lexeme ≠ ""
  kind_ne : ∀ t ∈ scan.tokens, t.kind ≠ .endOfText
  endToken_kind : scan.endToken.kind = .endOfText
  endToken_lexeme : scan.endToken.lexeme = ""
  endToken_start : scan.endToken.start = text.length
  endToken_stop : scan.endToken.stop = text.length

/-- Every scan is a tiling of its text. -/
theorem Scan.tiling_of_ofChars {text : List Char} {scan : Scan} (h : ofChars text = .ok scan) :
    scan.Tiling text := by
  have hfrom := ofCharsFrom_eq_ok_iff.mpr (ofChars_eq_ok_iff.mp h)
  obtain ⟨segments, hcut, rfl⟩ := ofChars_eq_ok_iff.mp h
  have htiles : Tiles text 0 (Scan.all ⟨_, _⟩) := @Cut.tiles _ _ hcut [] [] (.nil text)
  refine ⟨htiles, htiles.pairwise, htiles.standsIn, fun t ht => ?_, fun t ht heq => ?_, rfl, rfl,
    Token.start_ofText .endOfText text [], ?_⟩
  · obtain ⟨_, p, hfirst, _, hlexeme⟩ := exists_piece hfrom ht
    rw [hlexeme]
    simpa using Piece.first?_text_ne_nil hfirst
  · obtain ⟨_, p, hfirst, hkind, _⟩ := exists_piece hfrom ht
    exact Piece.first?_kind_ne_endOfText hfirst (heq ▸ hkind)
  · have hstop := Token.stop_ofText .endOfText text []
    rwa [List.append_nil] at hstop

/-- A string, a comment and a regular expression that go over several lines: what
follows them has its own line and column. -/
theorem Scan.tiling_acrossLines :
    ∃ scan, ofChars "a 'x\ny' /* p\nq */ b // r\n /s\\\nt/i c".toList = .ok scan ∧
      scan.Tiling "a 'x\ny' /* p\nq */ b // r\n /s\\\nt/i c".toList ∧
      scan.all.map (fun t => (t.lexeme, t.start, t.line, t.column)) =
        [("a", 0, 1, 1), ("'x\ny'", 2, 1, 3), ("b", 18, 3, 6), ("/s\\\nt/i", 26, 4, 2),
          ("c", 34, 5, 5), ("", 35, 5, 6)] := by
  have hscan : (ofChars "a 'x\ny' /* p\nq */ b // r\n /s\\\nt/i c".toList).map
      (fun scan => scan.all.map fun t => (t.lexeme, t.start, t.line, t.column)) =
        .ok [("a", 0, 1, 1), ("'x\ny'", 2, 1, 3), ("b", 18, 3, 6), ("/s\\\nt/i", 26, 4, 2),
          ("c", 34, 5, 5), ("", 35, 5, 6)] := by
    cbv
  obtain ⟨scan, h, hall⟩ := exists_of_map_eq_ok hscan
  exact ⟨scan, h, tiling_of_ofChars h, hall⟩

end Rulebook
