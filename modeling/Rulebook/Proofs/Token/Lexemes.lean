import Rulebook.Proofs.Token.Comments

/-! # Texts made of lexemes

Lexemes that stand on a line each make a text that is scanned to just these lexemes. A
newline prolongs no token, so each is cut as if it stood alone; only a regular
expression that begins with a slash and a star depends on what follows it.
-/

namespace Rulebook

open Piece (closing)
open Sequence (StopsBefore)

/-- A text that is one token of a kind as a whole. -/
def IsLexeme (kind : TokenKind) (text : String) : Prop :=
  Piece.first? text.toList = some ⟨.token kind, text.toList, []⟩

instance (kind : TokenKind) (text : String) : Decidable (IsLexeme kind text) :=
  inferInstanceAs (Decidable (_ = _))

theorem TokenKind.name_injective : Function.Injective TokenKind.name := by
  intro a b h
  cases a <;> cases b <;> first | rfl | simp [TokenKind.name] at h

/-- The character that is a token of a kind as a whole, for the kinds with just one. -/
def TokenKind.mark : TokenKind → Char
  | .colon => ':'
  | .semicolon => ';'
  | .comma => ','
  | .bar => '|'
  | .openParen => '('
  | .closeParen => ')'
  | .openBrace => '\x7b'
  | .closeBrace => '\x7d'
  | .equals => '='
  | .question => '?'
  | .star => '*'
  | .plus => '+'
  | _ => ' '

theorem Piece.eq_mark_of_punctuation? {c : Char} {kind : TokenKind}
    (h : punctuation? c = some kind) : c = kind.mark := by
  have hite : ∀ {d : Char} {k : TokenKind} {more : Option TokenKind}, d = k.mark →
      (∀ kind ∈ more, c = kind.mark) →
      ∀ kind ∈ (if c = d then some k else more), c = kind.mark := by
    intro d k more hd hmore
    split
    · next hc =>
        rintro kind ⟨⟩
        rw [hc, hd]
    · exact hmore
  suffices ∀ kind ∈ punctuation? c, c = kind.mark from this kind h
  unfold punctuation?
  iterate 12 refine hite rfl ?_
  simp

/-- The kind of a token that is a single character tells its lexeme. -/
theorem IsLexeme.toList_eq {kind : TokenKind} {text : String} (h : IsLexeme kind text)
    (hkind : kind ∈ Piece.punctuations) : text.toList = [kind.mark] := by
  rw [IsLexeme] at h
  cases htext : text.toList with
  | nil =>
      rw [htext] at h
      cases h
  | cons c rest =>
      rw [htext, Piece.first?_cons] at h
      have hfits := Piece.opening_fits c
      have hmem := Piece.opened?_kind_mem h
      cases hopening : Piece.opening c with
      | punctuation other =>
          rw [hopening] at h hfits
          cases h
          rw [Piece.eq_mark_of_punctuation? hfits]
      | blank | newline | slash | doubleQuote | singleQuote | letter | digit | minus | nothing =>
          simp [hopening, Piece.Opening.kinds] at hmem <;>
            simp [hmem, Piece.punctuations] at hkind

/-- The text that has each of some lexemes on a line of its own. -/
def linesOf (lexemes : List (TokenKind × String)) : List Char :=
  lexemes.flatMap fun l => l.2.toList ++ ['\n']

theorem Piece.prolongs_newline (kind : TokenKind) : prolongs (.token kind) '\n' = false := by
  cases kind <;> rfl

/-- A lexeme on a line of its own is cut off, and so is the end of its line. -/
theorem Cut.cons_line {kind : TokenKind} {text : String} {rest : List Char}
    {more : List Segment} (h : IsLexeme kind text)
    (hopen : ∀ tail, kind = .regex → text.toList = '/' :: '*' :: tail →
      ¬ closing <:+: tail ++ '\n' :: rest)
    (hmore : Cut rest more) :
    Cut (text.toList ++ '\n' :: rest)
      (⟨.token kind, text.toList⟩ :: ⟨.layout .newline, ['\n']⟩ :: more) := by
  have hnewline : Piece.first? ('\n' :: rest) = some ⟨.layout .newline, ['\n'], rest⟩ := rfl
  have hlexeme : Piece.first? (text.toList ++ '\n' :: rest) =
      some ⟨.token kind, text.toList, '\n' :: rest⟩ := by
    refine Piece.first?_before h (Sequence.stopsBefore_cons.mpr (Piece.prolongs_newline kind)) ?_
    intro tail hkind
    exact hopen tail (PieceKind.token.inj hkind)
  exact .cons hlexeme (.cons hnewline hmore)

/-- Lexemes on lines of their own are scanned to tokens with these lexemes, unless one of
them is a regular expression that is closed as a comment further on. -/
theorem Scan.exists_of_lexemes {lexemes : List (TokenKind × String)}
    (h : ∀ l ∈ lexemes, IsLexeme l.1 l.2)
    (hopen : ∀ ahead text tail behind, lexemes = ahead ++ (.regex, text) :: behind →
      text.toList = '/' :: '*' :: tail → ¬ closing <:+: tail ++ '\n' :: linesOf behind) :
    ∃ scan, ofChars (linesOf lexemes) = .ok scan ∧
      scan.tokens.map (fun t => (t.kind, t.lexeme)) = lexemes := by
  suffices ∃ segments, Cut (linesOf lexemes) segments ∧ Segment.lexemes segments = lexemes by
    obtain ⟨segments, hcut, hlexemes⟩ := this
    exact ⟨_, ofChars_eq_ok_iff.mpr ⟨segments, hcut, rfl⟩,
      (Segment.map_tokens _ _).trans hlexemes⟩
  induction lexemes with
  | nil => exact ⟨[], .nil, rfl⟩
  | cons l rest ih =>
      obtain ⟨kind, text⟩ := l
      obtain ⟨segments, hcut, hlexemes⟩ := ih (fun l hl => h l (List.mem_cons_of_mem _ hl))
        fun ahead other tail behind heq => hopen ((kind, text) :: ahead) other tail behind (by
          rw [heq]
          rfl)
      refine ⟨⟨.token kind, text.toList⟩ :: ⟨.layout .newline, ['\n']⟩ :: segments, ?_, ?_⟩
      · rw [linesOf, List.flatMap_cons, List.append_assoc]
        refine Cut.cons_line (h _ List.mem_cons_self) ?_ hcut
        rintro tail rfl
        exact hopen [] text tail rest rfl
      · rw [Segment.lexemes, List.filterMap_cons, List.filterMap_cons, String.ofList_toList]
        exact congrArg _ hlexemes

end Rulebook
