import Rulebook.Proofs.Token.Tiling

/-! # Comments between tokens

A comment may be put in front of a text or behind any of its tokens, the end included, and
the tokens stay the same, unless it closes what was open: a slash and a star begin a regular
expression only as long as no star and slash follow, and a comment brings some with it. A
line comment that ends the text takes what is put behind it up to the next newline.
-/

namespace Rulebook

open Text
open Piece (closing)
open Sequence (StopsBefore)

/-- What stands between two parts of a text. -/
theorem Text.extract_append (front middle back : List Char) :
    (front ++ middle ++ back).extract front.length (front ++ middle).length = middle := by
  simp

/-- A comment with its end, which for a line comment is a newline. -/
inductive IsComment : List Char → Prop
  | block {body : List Char} (hbody : ¬ closing <:+: body) :
      IsComment ('/' :: '*' :: body ++ ['*', '/'])
  | line {body : List Char} (hbody : '\n' ∉ body) :
      IsComment ('/' :: '/' :: body ++ ['\n'])

/-- The kinds and lexemes of all tokens. -/
def Scan.lexemes (scan : Scan) : List (TokenKind × String) :=
  scan.all.map fun t => (t.kind, t.lexeme)

namespace Piece

/-- A star and a slash that follow each other in two texts in a row are in one of them,
if the first text does not end with a star. -/
theorem closing_infix_of_append {front back : List Char} (hlast : front.getLast? ≠ some '*')
    (h : closing <:+: front ++ back) : closing <:+: front ∨ closing <:+: back := by
  induction front with
  | nil => exact .inr h
  | cons c more ih =>
      cases more with
      | nil =>
          rcases List.infix_cons_iff.mp h with hprefix | hwithin
          · exact absurd (congrArg some (List.cons_prefix_cons.mp hprefix).1.symm) hlast
          · exact .inr hwithin
      | cons d more =>
          rw [List.cons_append, List.cons_append, closing_infix_cons_iff] at h
          rw [closing_infix_cons_iff]
          rcases h with hpair | hwithin
          · exact .inl (.inl hpair)
          · exact (ih (by simpa using hlast) hwithin).imp_left .inr

/-- No star and slash follow a regular expression that begins like a comment. -/
theorem not_closing_of_regex {text tail rest : List Char}
    (h : first? text = some ⟨.token .regex, '/' :: '*' :: tail, rest⟩) :
    ¬ closing <:+: tail ++ rest := by
  obtain rfl : '/' :: '*' :: (tail ++ rest) = text := first?_append h
  rw [first?_cons] at h
  have hslash : slash? ('*' :: (tail ++ rest)) = some ⟨.token .regex, '/' :: '*' :: tail, rest⟩ := h
  rw [slash?_star] at hslash
  split at hslash
  · cases hslash
  · next hnone => exact blockBody?_eq_none_iff.mp hnone

/-- A line comment is two slashes with the rest of their line. -/
theorem eq_cons_of_lineComment {text lexeme rest : List Char}
    (h : first? text = some ⟨.layout .lineComment, lexeme, rest⟩) :
    ∃ body, lexeme = '/' :: '/' :: body ∧ '\n' ∉ body := by
  cases text with
  | nil => cases h
  | cons c more =>
      rw [first?_cons] at h
      have hmem := opened?_kind_mem h
      cases hopening : opening c with
      | slash =>
          rw [hopening] at h
          change slash? more = _ at h
          unfold slash? at h
          split at h
          · cases h
          next d after =>
            split at h
            · cases h
              exact ⟨_, rfl, fun hmem => by simpa using List.mem_takeWhile_imp hmem⟩
            split at h
            · split at h
              · cases h
              · cases regex?_kind h
            · cases regex?_kind h
      | punctuation kind =>
          rw [hopening] at hmem
          cases List.mem_singleton.mp hmem
      | blank | newline | doubleQuote | singleQuote | letter | digit | minus | nothing =>
          simp [hopening, Opening.kinds] at hmem

end Piece

/-! ## Cutting a text with a comment -/

namespace Segment

/-- The kinds and lexemes of the tokens among segments. -/
def lexemes (segments : List Segment) : List (TokenKind × String) :=
  segments.filterMap fun s =>
    match s.kind with
    | .layout _ => none
    | .token kind => some (kind, String.ofList s.text)

theorem map_tokens (place : Position) (segments : List Segment) :
    (tokens place segments).map (fun t => (t.kind, t.lexeme)) = lexemes segments := by
  induction segments generalizing place with
  | nil => rfl
  | cons s more ih =>
      rw [tokens, lexemes, List.filterMap_cons]
      cases s.kind with
      | layout => exact ih _
      | token => exact congrArg _ (ih _)

theorem lexemes_append (front back : List Segment) :
    lexemes (front ++ back) = lexemes front ++ lexemes back := List.filterMap_append

/-- A token among segments is one of them at its place, between the segments of the tokens
in front of it and of those behind it. -/
theorem exists_of_tokens_eq {place : Position} {segments : List Segment}
    {front back : List (Token TokenKind)} {t : Token TokenKind}
    (h : tokens place segments = front ++ t :: back) :
    ∃ ahead kind text behind, segments = ahead ++ ⟨.token kind, text⟩ :: behind ∧
      tokens place ahead = front ∧ t = .ofText kind (place.advance (join ahead)) text ∧
      tokens ((place.advance (join ahead)).advance text) behind = back := by
  induction segments generalizing place front with
  | nil => simp [tokens] at h
  | cons s more ih =>
      obtain ⟨kind, text⟩ := s
      cases kind with
      | layout kind =>
          obtain ⟨ahead, tokenKind, lexeme, behind, rfl, hahead, ht, hbehind⟩ := ih h
          refine ⟨⟨.layout kind, text⟩ :: ahead, tokenKind, lexeme, behind, rfl, hahead, ?_⟩
          rw [join_cons, Position.advance_append]
          exact ⟨ht, hbehind⟩
      | token kind =>
          cases front with
          | nil =>
              obtain ⟨rfl, rfl⟩ := List.cons.inj h
              exact ⟨[], kind, text, more, rfl, rfl, rfl, rfl⟩
          | cons first front =>
              obtain ⟨rfl, hmore⟩ := List.cons.inj h
              obtain ⟨ahead, tokenKind, lexeme, behind, rfl, hahead, ht, hbehind⟩ := ih hmore
              refine ⟨⟨.token kind, text⟩ :: ahead, tokenKind, lexeme, behind, rfl,
                congrArg _ hahead, ?_⟩
              rw [join_cons, Position.advance_append]
              exact ⟨ht, hbehind⟩

/-- A token is a segment at its place. -/
theorem mem_tokens_iff {place : Position} {segments : List Segment} {t : Token TokenKind} :
    t ∈ tokens place segments ↔ ∃ front kind text back,
      segments = front ++ ⟨.token kind, text⟩ :: back ∧
        t = .ofText kind (place.advance (join front)) text := by
  constructor
  · intro h
    obtain ⟨_, _, hsplit⟩ := List.append_of_mem h
    obtain ⟨front, kind, text, back, hsegments, -, ht, -⟩ := exists_of_tokens_eq hsplit
    exact ⟨front, kind, text, back, hsegments, ht⟩
  · rintro ⟨front, kind, text, back, rfl, rfl⟩
    rw [tokens_append]
    exact List.mem_append_right _ List.mem_cons_self

end Segment

/-- Every text that is cut may have a comment in front of it, which leaves no token. -/
theorem IsComment.exists_cut {comment : List Char} (h : IsComment comment) {rest : List Char}
    {more : List Segment} (hmore : Cut rest more) :
    ∃ layout, Cut (comment ++ rest) (layout ++ more) ∧ Segment.lexemes layout = [] := by
  cases h with
  | @block body hbody =>
      refine ⟨[⟨.layout .blockComment, '/' :: '*' :: body ++ ['*', '/']⟩], .cons ?_ hmore, rfl⟩
      have hslash : Piece.slash? ('*' :: (body ++ '*' :: '/' :: rest)) = _ := Piece.slash?_star _
      rw [Piece.blockBody?_of_not_closing hbody rest] at hslash
      rw [List.append_assoc]
      exact hslash
  | @line body hbody =>
      have hnewline : Piece.first? ('\n' :: rest) = some ⟨.layout .newline, ['\n'], rest⟩ := rfl
      refine ⟨[⟨.layout .lineComment, '/' :: '/' :: body⟩, ⟨.layout .newline, ['\n']⟩],
        .cons ?_ (.cons hnewline hmore), rfl⟩
      have hall : ∀ c ∈ body, decide (c ≠ '\n') = true := fun c hc =>
        decide_eq_true fun heq => hbody (heq ▸ hc)
      have hstop : StopsBefore (fun c => decide (c ≠ '\n')) ('\n' :: rest) :=
        Sequence.stopsBefore_cons.mpr (decide_eq_false (not_not.mpr rfl))
      have hslash : Piece.slash? ('/' :: (body ++ '\n' :: rest)) = _ := Piece.slash?_line _
      rw [Piece.run, Sequence.takeWhile_append hall hstop,
        Sequence.dropWhile_append hall hstop] at hslash
      rw [List.append_assoc]
      exact hslash

/-- A line comment at the end takes in a comment on one line that is put behind it, up to the
newline that may end it. -/
theorem IsComment.exists_cut_behind {comment body : List Char} (h : IsComment comment)
    (hline : ∀ inner, comment = '/' :: '*' :: inner ++ ['*', '/'] → '\n' ∉ inner)
    (hbody : '\n' ∉ body) :
    ∃ layout, Cut ('/' :: '/' :: body ++ comment) layout ∧ Segment.lexemes layout = [] := by
  have hfirst : ∀ {inner rest : List Char}, '\n' ∉ inner →
      StopsBefore (fun c => decide (c ≠ '\n')) rest →
      Piece.first? ('/' :: '/' :: inner ++ rest) =
        some ⟨.layout .lineComment, '/' :: '/' :: inner, rest⟩ := by
    intro inner rest hinner hstop
    have hall : ∀ c ∈ inner, decide (c ≠ '\n') = true := fun c hc =>
      decide_eq_true fun heq => hinner (heq ▸ hc)
    have hslash : Piece.slash? ('/' :: (inner ++ rest)) = _ := Piece.slash?_line _
    rw [Piece.run, Sequence.takeWhile_append hall hstop,
      Sequence.dropWhile_append hall hstop] at hslash
    exact hslash
  have happend : ∀ {inner : List Char}, '\n' ∉ inner → '\n' ∉ body ++ inner := by
    intro inner hinner hmem
    exact (List.mem_append.mp hmem).elim hbody hinner
  cases h with
  | @block inner =>
      have hinner : '\n' ∉ '/' :: '*' :: inner ++ ['*', '/'] := by
        simpa using hline inner rfl
      have hcomment := hfirst (happend hinner) (Sequence.stopsBefore_nil _)
      rw [List.append_nil] at hcomment
      exact ⟨[⟨.layout .lineComment, _⟩], .cons hcomment .nil, rfl⟩
  | @line inner hinner =>
      have hslashes : '\n' ∉ '/' :: '/' :: inner := by simpa using hinner
      have hstop : StopsBefore (fun c => decide (c ≠ '\n')) ['\n'] :=
        Sequence.stopsBefore_cons.mpr (decide_eq_false (not_not.mpr rfl))
      have hcomment := hfirst (happend hslashes) hstop
      have hnewline : Piece.first? ['\n'] = some ⟨.layout .newline, ['\n'], []⟩ := rfl
      refine ⟨[⟨.layout .lineComment, '/' :: '/' :: (body ++ '/' :: '/' :: inner)⟩,
        ⟨.layout .newline, ['\n']⟩], ?_, rfl⟩
      rw [← List.append_assoc]
      exact .cons hcomment (.cons hnewline .nil)

theorem IsComment.getLast?_ne {comment : List Char} (h : IsComment comment) (front : List Char) :
    (front ++ comment).getLast? ≠ some '*' := by
  cases h <;> simp [List.getLast?_append, List.getLast?_cons]

/-- A slash prolongs only a line comment. -/
theorem Piece.prolongs_slash {kind : PieceKind} (h : kind ≠ .layout .lineComment) :
    prolongs kind '/' = false := by
  cases kind with
  | token kind => cases kind <;> rfl
  | layout kind =>
      cases kind with
      | lineComment => exact absurd rfl h
      | blanks | newline | blockComment => rfl

/-- Segments are cut as before when another text follows them that prolongs none of
them and turns none of them into a comment. -/
theorem Cut.replace_rest {front back back' : List Segment} {rest rest' : List Char}
    (h : Cut (Segment.join front ++ rest) (front ++ back)) (hrest : Cut rest' back')
    (hlast : ∀ s ∈ front.getLast?, StopsBefore (Piece.prolongs s.kind) rest')
    (hopen : ∀ ahead tail behind, front = ahead ++ ⟨.token .regex, '/' :: '*' :: tail⟩ :: behind →
      ¬ closing <:+: tail ++ (Segment.join behind ++ rest')) :
    Cut (Segment.join front ++ rest') (front ++ back') := by
  induction front with
  | nil => exact hrest
  | cons s more ih =>
      obtain ⟨kind, text⟩ := s
      obtain ⟨after, hfirst, hmore⟩ := cons_iff.mp h
      rw [Segment.join_cons, List.append_assoc] at hfirst
      have happend : text ++ after = text ++ (Segment.join more ++ rest) :=
        Piece.first?_append hfirst
      obtain rfl := List.append_cancel_left happend
      have hih := ih hmore
        (fun s hs => hlast s (by rw [List.getLast?_cons, Option.mem_def.mp hs]; rfl))
        (fun ahead tail behind heq => hopen (⟨kind, text⟩ :: ahead) tail behind (by rw [heq]; rfl))
      -- What stands behind the segment begins with the same character as before.
      have hstop : StopsBefore (Piece.prolongs kind) (Segment.join more ++ rest') := by
        cases more with
        | nil => exact hlast ⟨kind, text⟩ rfl
        | cons u behind =>
            have hnext := Piece.stopsBefore_rest hfirst hmore.eq_nil_or_isSome
            obtain ⟨_, hu, _⟩ := cons_iff.mp hmore
            have hne : Segment.join (u :: behind) ≠ [] :=
              List.append_ne_nil_of_left_ne_nil (Piece.first?_text_ne_nil hu) _
            rw [Sequence.stopsBefore_append hne] at hnext ⊢
            exact hnext
      have hpiece := Piece.first?_before hfirst hstop fun tail hkind htext =>
        hopen [] tail more (by cases hkind; cases htext; rfl)
      rw [Segment.join_cons, List.append_assoc]
      exact .cons hpiece hih

/-- Nothing behind a regular expression that begins like a comment closes it as one. -/
theorem Cut.not_closing_behind_regex {text tail : List Char} {ahead behind : List Segment}
    (h : Cut text (ahead ++ ⟨.token .regex, '/' :: '*' :: tail⟩ :: behind)) :
    ¬ closing <:+: tail ++ Segment.join behind := by
  obtain ⟨_, _, hbehind⟩ := h.exists_rest
  obtain ⟨rest, hfirst, hrest⟩ := cons_iff.mp hbehind
  rw [hrest.join_eq]
  exact Piece.not_closing_of_regex hfirst

/-- A place in front of all tokens or behind one of them splits the segments there; what
stands in front of the end of the text may be layout. -/
theorem Segment.exists_split {text : List Char} {segments : List Segment} {place : Nat}
    (hcut : Cut text segments)
    (h : place = 0 ∨ ∃ t ∈ (Scan.mk (tokens .start segments) (Position.start.advance text)).all,
      t.stop = place) :
    ∃ front back, segments = front ++ back ∧ place = (join front).length ∧
      ∀ s ∈ front.getLast?, back = [] ∨ ∃ kind, s.kind = .token kind := by
  rcases h with rfl | ⟨t, ht, rfl⟩
  · exact ⟨[], segments, rfl, rfl, by simp⟩
  rcases List.mem_append.mp ht with ht | ht
  · obtain ⟨front, kind, lexeme, back, rfl, rfl⟩ := mem_tokens_iff.mp ht
    refine ⟨front ++ [⟨.token kind, lexeme⟩], back, by simp, ?_, by simp⟩
    rw [Token.stop_ofText, join_append, join_cons, join_nil, List.append_nil]
  · obtain rfl := List.mem_singleton.mp ht
    refine ⟨segments, [], (List.append_nil _).symm, ?_, fun _ _ => .inl rfl⟩
    have hstop := Token.stop_ofText .endOfText text []
    rw [List.append_nil] at hstop
    rw [hcut.join_eq]
    exact hstop

/-- A regular expression in front of a place begins like a comment and is left open up
to that place, if this is known of all tokens in front of it. -/
theorem Segment.not_closing_of_tokens {ahead behind back : List Segment}
    {tail comment rest : List Char} {front : List Segment}
    (hfront : front = ahead ++ ⟨.token .regex, '/' :: '*' :: tail⟩ :: behind)
    (hopen : ∀ t ∈ tokens .start (front ++ back), t.stop ≤ (join front).length →
      ['/', '*'] <+: t.lexeme.toList →
      ¬ closing <:+: (join front ++ rest).extract (t.start + 2) (join front).length ++ comment) :
    ¬ closing <:+: tail ++ join behind ++ comment := by
  subst hfront
  have hsplit : ahead ++ ⟨.token .regex, '/' :: '*' :: tail⟩ :: behind ++ back =
      ahead ++ ⟨.token .regex, '/' :: '*' :: tail⟩ :: (behind ++ back) := by simp
  have hkept := hopen _ (mem_tokens_iff.mpr ⟨ahead, .regex, _, _, hsplit, rfl⟩)
  rw [Token.stop_ofText, Token.start_ofText] at hkept
  have hjoin : join (ahead ++ ⟨.token .regex, '/' :: '*' :: tail⟩ :: behind) =
      (join ahead ++ ['/', '*']) ++ (tail ++ join behind) := by simp
  have hextract := extract_append (join ahead ++ ['/', '*']) (tail ++ join behind) rest
  rw [← hjoin, List.length_append] at hextract
  rw [← hextract]
  refine hkept ?_ ?_
  · simp
  · simp [Token.ofText]

/-- What follows the first segments of a cut does not prolong the last of them. -/
theorem Cut.stopsBefore_rest {front back : List Segment} {rest : List Char}
    (h : Cut (Segment.join front ++ rest) (front ++ back)) :
    ∀ s ∈ front.getLast?, StopsBefore (Piece.prolongs s.kind) rest := by
  intro s hs
  obtain ⟨ahead, rfl⟩ := List.getLast?_eq_some_iff.mp hs
  rw [List.append_assoc] at h
  obtain ⟨left, hleft, hbehind⟩ := h.exists_rest
  obtain ⟨after, hfirst, hback⟩ := cons_iff.mp hbehind
  have hafter : rest = after := by
    rw [Segment.join_append, List.append_assoc] at hleft
    have hjoin := List.append_cancel_left hleft
    rw [← Piece.first?_append hfirst, Segment.join_cons, Segment.join_nil, List.append_nil] at hjoin
    exact List.append_cancel_left hjoin
  rw [hafter]
  exact Piece.stopsBefore_rest hfirst hback.eq_nil_or_isSome

/-- The last piece of a text is a line comment, which no newline ends. -/
def EndsInLineComment (text : List Char) : Prop :=
  ∃ front body, CutUpTo ('/' :: '/' :: body) text front ∧ '\n' ∉ body

namespace Scan

variable {text comment : List Char} {front back : List Segment}

/-- A scan is known by the lexemes of its segments. -/
theorem lexemes_of_cut (segments : List Segment) (stop : Position) :
    lexemes ⟨Segment.tokens .start segments, stop⟩ =
      Segment.lexemes segments ++ [(.endOfText, "")] := by
  rw [lexemes, all, List.map_append, Segment.map_tokens]
  rfl

/-- A comment that no line comment in front of it takes in is layout of its own. -/
theorem exists_cut_insert {rest : List Char} (hcut : Cut (Segment.join front ++ rest) (front ++ back))
    (hback : Cut rest back) (hcomment : IsComment comment)
    (hlast : ∀ s ∈ front.getLast?, s.kind ≠ .layout .lineComment)
    (hopen : ∀ ahead tail behind, front = ahead ++ ⟨.token .regex, '/' :: '*' :: tail⟩ :: behind →
      ¬ closing <:+: tail ++ Segment.join behind ++ comment) :
    ∃ layout, Cut (Segment.join front ++ (comment ++ rest)) (front ++ (layout ++ back)) ∧
      Segment.lexemes layout = [] := by
  obtain ⟨layout, hlayout, hnone⟩ := hcomment.exists_cut hback
  refine ⟨layout, hcut.replace_rest hlayout ?_ ?_, hnone⟩
  · intro s hs
    cases hcomment <;>
      exact Sequence.stopsBefore_cons.mpr (Piece.prolongs_slash (hlast s hs))
  · intro ahead tail behind hfront hclosing
    have hbehind : ¬ closing <:+: tail ++ Segment.join behind ++ rest := by
      rw [hfront, List.append_assoc, List.cons_append] at hcut
      have hnever := hcut.not_closing_behind_regex
      rwa [Segment.join_append, hback.join_eq, ← List.append_assoc] at hnever
    -- The comment does not end with a star, so nothing is closed across its end.
    rw [← List.append_assoc, ← List.append_assoc] at hclosing
    rcases Piece.closing_infix_of_append (hcomment.getLast?_ne _) hclosing with hwithin | hwithin
    · exact hopen ahead tail behind hfront hwithin
    · exact hbehind (hwithin.trans (List.suffix_append _ _).isInfix)

/-- A comment on one line behind a line comment that ends the text becomes a part of it. -/
theorem exists_cut_insert_behind {s : Segment} (hcut : Cut text (front ++ [s]))
    (hkind : s.kind = .layout .lineComment) (hcomment : IsComment comment)
    (hopen : ∀ ahead tail behind,
      front ++ [s] = ahead ++ ⟨.token .regex, '/' :: '*' :: tail⟩ :: behind →
      ¬ closing <:+: tail ++ Segment.join behind ++ comment)
    (hline : EndsInLineComment text →
      ∀ inner, comment = '/' :: '*' :: inner ++ ['*', '/'] → '\n' ∉ inner) :
    ∃ layout, Cut (text ++ comment) (front ++ layout) ∧ Segment.lexemes layout = [] := by
  obtain ⟨rest, hupTo, hrest⟩ := hcut.exists_cutUpTo
  obtain ⟨kind, lexeme⟩ := s
  obtain rfl := hkind
  obtain ⟨after, hfirst, hnil⟩ := Cut.cons_iff.mp hrest
  obtain ⟨body, rfl, hbody⟩ := Piece.eq_cons_of_lineComment hfirst
  obtain rfl : after = [] := hnil.join_eq.symm
  obtain rfl : rest = '/' :: '/' :: body := by
    simpa using (Piece.first?_append hfirst).symm
  obtain ⟨layout, hlayout, hnone⟩ :=
    hcomment.exists_cut_behind (hline ⟨front, body, hupTo, hbody⟩) hbody
  have happend := hupTo.append_eq
  rw [← happend] at hcut
  refine ⟨layout, ?_, hnone⟩
  rw [← happend, List.append_assoc]
  refine hcut.replace_rest hlayout ?_ ?_
  · intro s hs
    exact (Sequence.stopsBefore_append (by simp) comment).mpr (hcut.stopsBefore_rest s hs)
  · rintro ahead tail behind rfl
    have hnever :=
      hopen ahead tail (behind ++ [⟨.layout .lineComment, '/' :: '/' :: body⟩]) (by simp)
    simpa [Segment.join] using hnever

end Scan

/-- A comment in front of a text or behind any of its tokens, the end included, leaves the
kinds and lexemes of all tokens as they are, unless it closes a regular expression in front of
it that begins with a slash and a star, or goes over several lines behind a line comment that
ends the text. -/
theorem Scan.lexemes_insert_comment {text comment : List Char} {scan : Scan} {place : Nat}
    (h : ofChars text = .ok scan) (hplace : place = 0 ∨ ∃ t ∈ scan.all, t.stop = place)
    (hcomment : IsComment comment)
    (hopen : ∀ t ∈ scan.tokens, t.stop ≤ place → ['/', '*'] <+: t.lexeme.toList →
      ¬ closing <:+: text.extract (t.start + 2) place ++ comment)
    (hline : place = text.length → EndsInLineComment text →
      ∀ inner, comment = '/' :: '*' :: inner ++ ['*', '/'] → '\n' ∉ inner) :
    ∃ after, ofChars (text.take place ++ comment ++ text.drop place) = .ok after ∧
      after.lexemes = scan.lexemes := by
  obtain ⟨segments, hcut, rfl⟩ := ofChars_eq_ok_iff.mp h
  obtain ⟨front, back, rfl, rfl, hlast⟩ := Segment.exists_split hcut hplace
  obtain ⟨rest, rfl, hback⟩ := hcut.exists_rest
  have hopened : ∀ ahead tail behind,
      front = ahead ++ ⟨.token .regex, '/' :: '*' :: tail⟩ :: behind →
      ¬ closing <:+: tail ++ Segment.join behind ++ comment := fun _ _ _ hfront =>
    Segment.not_closing_of_tokens hfront hopen
  rw [List.take_left, List.drop_left, lexemes_of_cut]
  by_cases hbefore : ∀ s ∈ front.getLast?, s.kind ≠ .layout .lineComment
  · obtain ⟨layout, hinsert, hnone⟩ := exists_cut_insert hcut hback hcomment hbefore hopened
    rw [List.append_assoc]
    refine ⟨_, ofChars_eq_ok_iff.mpr ⟨_, hinsert, rfl⟩, ?_⟩
    rw [lexemes_of_cut, Segment.lexemes_append, Segment.lexemes_append, Segment.lexemes_append,
      hnone, List.nil_append]
  · -- A line comment in front of the place can only be the end of the text.
    obtain ⟨s, hs, hkind⟩ : ∃ s ∈ front.getLast?, s.kind = .layout .lineComment := by
      simpa using hbefore
    obtain rfl : back = [] := by
      rcases hlast s hs with hend | ⟨kind, htoken⟩
      · exact hend
      · cases hkind.symm.trans htoken
    obtain rfl : rest = [] := hback.join_eq.symm
    simp only [List.append_nil] at hcut hline ⊢
    obtain ⟨ahead, rfl⟩ := List.getLast?_eq_some_iff.mp hs
    obtain ⟨layout, hinsert, hnone⟩ :=
      exists_cut_insert_behind hcut hkind hcomment hopened (hline trivial)
    refine ⟨_, ofChars_eq_ok_iff.mpr ⟨_, hinsert, rfl⟩, ?_⟩
    have hlayout : Segment.lexemes [s] = [] := by simp [Segment.lexemes, hkind]
    rw [lexemes_of_cut, Segment.lexemes_append, Segment.lexemes_append, hnone, hlayout]

/-- A line comment behind a line comment that ends the text, with a regular expression in front
that begins with a slash and a star, and no star and slash behind it. -/
theorem Scan.lexemes_insert_lineComment :
    ∃ scan after, ofChars "/*a/ b // x".toList = .ok scan ∧
      EndsInLineComment "/*a/ b // x".toList ∧
      ofChars "/*a/ b // x// c\n".toList = .ok after ∧ after.lexemes = scan.lexemes ∧
      after.lexemes = [(.regex, "/*a/"), (.identifier, "b"), (.endOfText, "")] := by
  have hscan : (ofChars "/*a/ b // x".toList).map (fun scan => (scan.tokens, scan.lexemes,
      scan.endToken)) =
      .ok ([⟨.regex, "/*a/", 0, 4, 1, 1⟩, ⟨.identifier, "b", 5, 6, 1, 6⟩],
        [(.regex, "/*a/"), (.identifier, "b"), (.endOfText, "")],
        ⟨.endOfText, "", 11, 11, 1, 12⟩) := by
    cbv
  obtain ⟨scan, h, heq⟩ := exists_of_map_eq_ok hscan
  obtain ⟨htokens, hrest⟩ := Prod.mk.inj heq
  obtain ⟨hlexemes, hend⟩ := Prod.mk.inj hrest
  have hplace : ∃ t ∈ scan.all, t.stop = 11 :=
    ⟨scan.endToken, by simp [all], by rw [hend]⟩
  have hcomment : IsComment "// c\n".toList :=
    .line (show '\n' ∉ " c".toList by decide)
  have hopen : ∀ t ∈ scan.tokens, t.stop ≤ 11 → ['/', '*'] <+: t.lexeme.toList →
      ¬ closing <:+: "/*a/ b // x".toList.extract (t.start + 2) 11 ++ "// c\n".toList := by
    rw [htokens]
    decide
  have hends : EndsInLineComment "/*a/ b // x".toList :=
    ⟨[⟨.token .regex, "/*a/".toList⟩, ⟨.layout .blanks, [' ']⟩, ⟨.token .identifier, ['b']⟩,
      ⟨.layout .blanks, [' ']⟩], " x".toList,
      .cons (by cbv) (.cons (by cbv) (.cons (by cbv) (.cons (by cbv) .done))), by decide⟩
  obtain ⟨after, hafter, hsame⟩ := lexemes_insert_comment h (.inr hplace) hcomment hopen
    (fun _ _ inner hblock => by simp at hblock)
  exact ⟨scan, after, h, hends, hafter, hsame, hsame.trans hlexemes⟩

/-- A block comment closes a regular expression in front of it that begins with a slash
and a star: both together are one comment. Behind a line comment that ends the text, it is
over with its first line, and what stands on the others is read anew. -/
theorem Scan.lexemes_insert_blockComment_ne :
    (∃ scan after, ofChars "/*a/".toList = .ok scan ∧ (∃ t ∈ scan.all, t.stop = 4) ∧
      IsComment "/* c */".toList ∧ ofChars "/*a//* c */".toList = .ok after ∧
      after.lexemes ≠ scan.lexemes) ∧
    ∃ scan after, ofChars "a // x".toList = .ok scan ∧ (∃ t ∈ scan.all, t.stop = 6) ∧
      IsComment "/*\nq\n//*/".toList ∧ ofChars "a // x/*\nq\n//*/".toList = .ok after ∧
      after.lexemes ≠ scan.lexemes := by
  constructor
  · have hscan : (ofChars "/*a/".toList).map (fun scan => (scan.tokens, scan.lexemes)) =
        .ok ([⟨.regex, "/*a/", 0, 4, 1, 1⟩], [(.regex, "/*a/"), (.endOfText, "")]) := by
      cbv
    have hcommented : (ofChars "/*a//* c */".toList).map lexemes = .ok [(.endOfText, "")] := by
      cbv
    obtain ⟨scan, h, heq⟩ := exists_of_map_eq_ok hscan
    obtain ⟨after, hafter, hnone⟩ := exists_of_map_eq_ok hcommented
    obtain ⟨htokens, hlexemes⟩ := Prod.mk.inj heq
    refine ⟨scan, after, h, ⟨⟨.regex, "/*a/", 0, 4, 1, 1⟩, by simp [all, htokens], rfl⟩,
      .block (show ¬ closing <:+: " c ".toList by decide), hafter, ?_⟩
    rw [hlexemes, hnone]
    decide
  · have hscan : (ofChars "a // x".toList).map (fun scan => (scan.endToken, scan.lexemes)) =
        .ok (⟨.endOfText, "", 6, 6, 1, 7⟩, [(.identifier, "a"), (.endOfText, "")]) := by
      cbv
    have hcommented : (ofChars "a // x/*\nq\n//*/".toList).map lexemes =
        .ok [(.identifier, "a"), (.identifier, "q"), (.endOfText, "")] := by
      cbv
    obtain ⟨scan, h, heq⟩ := exists_of_map_eq_ok hscan
    obtain ⟨after, hafter, hmore⟩ := exists_of_map_eq_ok hcommented
    obtain ⟨hend, hlexemes⟩ := Prod.mk.inj heq
    refine ⟨scan, after, h, ⟨scan.endToken, by simp [all], by rw [hend]⟩,
      .block (show ¬ closing <:+: "\nq\n//".toList by decide), hafter, ?_⟩
    rw [hlexemes, hmore]
    decide

end Rulebook
