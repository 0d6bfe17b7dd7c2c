import Rulebook.Proofs.Sequence
import Rulebook.Proofs.Surface.Syntax

/-! # Blocks of rules in a row of tokens

A block of rules opens where the word `rules` is directly in front of a brace, and goes
on to the next closing brace. No derivation is needed to find it, since that word and an
opening brace stand together nowhere else in a document.
-/

namespace Rulebook

open Document (Tokens)
open Sequence (StopsBefore)

/-- Whether a token is the word in front of a block of rules. -/
def Token.isRulesWord (t : Token TokenKind) : Bool := t.kind = .identifier && t.lexeme = "rules"

/-- Whether a token is of a kind. -/
def Token.hasKind (kind : TokenKind) (t : Token TokenKind) : Bool := t.kind = kind

/-- The tokens inside the blocks of rules, without the braces around them. -/
def blockTokens (tokens : Tokens) : Tokens :=
  match tokens with
  | [] => []
  | t :: rest =>
      match rest with
      | [] => []
      | next :: more =>
          if t.isRulesWord && next.hasKind .openBrace then
            more.takeWhile (!·.hasKind .closeBrace) ++
              blockTokens (more.dropWhile (!·.hasKind .closeBrace))
          else blockTokens (next :: more)
termination_by tokens.length
decreasing_by
  · have := (List.dropWhile_suffix (l := more) (!·.hasKind .closeBrace)).length_le
    simp only [List.length_cons]
    omega
  · simp

section

variable {t u : Token TokenKind} {tokens rest : Tokens}

theorem blockTokens_block (ht : t.isRulesWord) (hu : u.hasKind .openBrace)
    (htokens : ∀ v ∈ tokens, v.hasKind .closeBrace = false)
    (hrest : ∀ v ∈ rest.head?, v.hasKind .closeBrace) :
    blockTokens (t :: u :: (tokens ++ rest)) = tokens ++ blockTokens rest := by
  have hall : ∀ v ∈ tokens, (!v.hasKind .closeBrace) = true := by simpa using htokens
  have hstop : StopsBefore (fun v => !v.hasKind .closeBrace) rest := by
    simpa [StopsBefore] using hrest
  rw [blockTokens, if_pos (by simp [ht, hu]), Sequence.takeWhile_append hall hstop,
    Sequence.dropWhile_append hall hstop]

theorem blockTokens_cons (h : t.isRulesWord = false ∨ StopsBefore (Token.hasKind .openBrace) rest) :
    blockTokens (t :: rest) = blockTokens rest := by
  cases rest with
  | nil => rw [blockTokens, blockTokens]
  | cons u more =>
      rw [Sequence.stopsBefore_cons] at h
      rw [blockTokens, if_neg]
      rcases h with h | h <;> simp [h]

end

/-- The tokens inside the blocks of rules are some of all, in their order. -/
theorem blockTokens_sublist (tokens : Tokens) : (blockTokens tokens).Sublist tokens := by
  fun_induction blockTokens tokens with
  | case1 => exact .slnil
  | case2 t => exact List.nil_sublist _
  | case3 t next more hblock ih =>
      apply List.Sublist.cons
      apply List.Sublist.cons
      have happend := (List.Sublist.refl (more.takeWhile (!·.hasKind .closeBrace))).append ih
      rwa [List.takeWhile_append_dropWhile] at happend
  | case4 t next more hblock ih => exact ih.cons t

/-- Tokens without a block of rules, in front of which and behind which no brace
opens one. -/
structure IsBlockless (tokens : Tokens) : Prop where
  stops : StopsBefore (Token.hasKind .openBrace) tokens
  skipped : ∀ rest, StopsBefore (Token.hasKind .openBrace) rest →
    blockTokens (tokens ++ rest) = blockTokens rest

namespace IsBlockless

variable {t u : Token TokenKind} {tokens rest : Tokens}

theorem stops_append (h : IsBlockless tokens) (hrest : StopsBefore (Token.hasKind .openBrace) rest) :
    StopsBefore (Token.hasKind .openBrace) (tokens ++ rest) := by
  cases tokens with
  | nil => exact hrest
  | cons t more => exact (Sequence.stopsBefore_append (List.cons_ne_nil t more) rest).mpr h.stops

theorem nil : IsBlockless [] := ⟨Sequence.stopsBefore_nil _, fun _ _ => rfl⟩

theorem append (h : IsBlockless tokens) (hrest : IsBlockless rest) :
    IsBlockless (tokens ++ rest) := by
  refine ⟨h.stops_append hrest.stops, fun more hmore => ?_⟩
  rw [List.append_assoc, h.skipped _ (hrest.stops_append hmore), hrest.skipped _ hmore]

theorem cons (ht : t.hasKind .openBrace = false) (h : IsBlockless tokens) :
    IsBlockless (t :: tokens) := by
  refine ⟨Sequence.stopsBefore_cons.mpr ht, fun more hmore => ?_⟩
  rw [List.cons_append, blockTokens_cons (.inr (h.stops_append hmore)), h.skipped _ hmore]

/-- A brace that another token opens is passed over. -/
theorem cons_brace (ht : t.hasKind .openBrace = false) (hword : t.isRulesWord = false)
    (hu : u.hasKind .openBrace) (h : IsBlockless tokens) : IsBlockless (t :: u :: tokens) := by
  refine ⟨Sequence.stopsBefore_cons.mpr ht, fun more hmore => ?_⟩
  have hbrace : u.isRulesWord = false := by
    simp_all [Token.isRulesWord, Token.hasKind]
  rw [List.cons_append, List.cons_append, blockTokens_cons (.inl hword),
    blockTokens_cons (.inl hbrace), h.skipped _ hmore]

theorem of_forall (h : ∀ t ∈ tokens, t.hasKind .openBrace = false) : IsBlockless tokens := by
  induction tokens with
  | nil => exact nil
  | cons t rest ih =>
      obtain ⟨ht, hrest⟩ := List.forall_mem_cons.mp h
      exact (ih hrest).cons ht

theorem flatMap {δ : Type} {f : δ → Tokens} {ds : List δ} (h : ∀ d ∈ ds, IsBlockless (f d)) :
    IsBlockless (ds.flatMap f) := by
  induction ds with
  | nil => exact nil
  | cons d rest ih =>
      obtain ⟨hd, hrest⟩ := List.forall_mem_cons.mp h
      exact hd.append (ih hrest)

end IsBlockless

namespace Surface

/-- A terminal is of no other kind than its own. -/
theorem Terminal.hasKind_eq {kind : TokenKind} (terminal : Terminal kind) (other : TokenKind) :
    terminal.token.hasKind other = decide (kind = other) := by
  rw [Token.hasKind, terminal.kind_eq]

/-! ## Fields without rules -/

theorem OptionValue.hasKind_openBrace (v : OptionValue) :
    v.token.hasKind .openBrace = Bool.false := by
  cases v <;> exact Terminal.hasKind_eq _ _

theorem OptionEntry.isBlockless (o : OptionEntry) : IsBlockless o.tokens := by
  refine .of_forall ?_
  simp [OptionEntry.tokens, Terminal.hasKind_eq, OptionValue.hasKind_openBrace]

theorem isBlockless_optionalComma (comma : Option (Terminal .comma)) :
    IsBlockless (optionalToken comma) := by
  refine .of_forall ?_
  cases comma <;> simp [optionalToken, Terminal.hasKind_eq]

theorem OptionList.isBlockless (l : OptionList) : IsBlockless l.tokens := by
  cases l with
  | none => exact .nil
  | some first more trailing =>
      refine (first.isBlockless.append (.flatMap fun o _ => ?_)).append
        (isBlockless_optionalComma trailing)
      exact o.entry.isBlockless.cons (Terminal.hasKind_eq _ _)

theorem Declared.isBlockless (d : Declared) : IsBlockless d.tokens := by
  have hclosing : IsBlockless [d.declaration.closing.token] :=
    IsBlockless.nil.cons (Terminal.hasKind_eq _ _)
  -- The brace of a declaration stands behind a colon.
  have hopening : IsBlockless (d.declaration.colon.token :: d.declaration.opening.token ::
      (d.declaration.options.tokens ++ [d.declaration.closing.token])) :=
    .cons_brace (Terminal.hasKind_eq _ _) (by simp [Token.isRulesWord, Terminal.kind_eq])
      (Terminal.hasKind_eq _ _) (d.declaration.options.isBlockless.append hclosing)
  exact (hopening.cons (Terminal.hasKind_eq _ _)).append (isBlockless_optionalComma d.comma)

/-! ## Blocks of rules -/

/-- The kinds of token in a sequence of items. -/
def itemKinds : List TokenKind :=
  [.identifier, .equals, .singleQuoted, .doubleQuoted, .openParen, .closeParen, .bar, .question,
   .star, .plus]

mutual

theorem Item.kind_mem (i : Item) : ∀ t ∈ i.tokens, t.kind ∈ itemKinds := by
  cases i with
  | mk label scalar suffix =>
      have hlabel : ∀ t ∈ labelTokens label, t.kind ∈ itemKinds := by
        cases label <;> simp [labelTokens, Terminal.kind_eq, itemKinds]
      have hsuffix : ∀ t ∈ suffixTokens suffix, t.kind ∈ itemKinds := by
        rcases suffix with _ | _ | _ | _ <;>
          simp [suffixTokens, Suffix.token, Terminal.kind_eq, itemKinds]
      rw [Item.tokens]
      simp only [List.forall_mem_append]
      exact ⟨⟨hlabel, scalar.kind_mem⟩, hsuffix⟩

theorem Scalar.kind_mem (d : Scalar) : ∀ t ∈ d.tokens, t.kind ∈ itemKinds := by
  cases d with
  | singleQuoted literal | doubleQuoted literal | name name =>
      simp [Scalar.tokens, Terminal.kind_eq, itemKinds]
  | group opening first more closing =>
      rw [Scalar.tokens]
      simp only [List.forall_mem_append, List.forall_mem_cons]
      exact ⟨⟨by simp [opening.kind_eq, itemKinds], first.kind_mem, kind_mem_elements more⟩,
        by simp [closing.kind_eq, itemKinds], List.forall_mem_nil _⟩

theorem Element.kind_mem (e : Element) : ∀ t ∈ e.tokens, t.kind ∈ itemKinds := by
  cases e with
  | bar bar => simp [Element.tokens, Terminal.kind_eq, itemKinds]
  | item item =>
      rw [Element.tokens]
      exact item.kind_mem

theorem kind_mem_elements (es : List Element) : ∀ t ∈ elementTokens es, t.kind ∈ itemKinds := by
  cases es with
  | nil => simp [elementTokens]
  | cons e rest =>
      rw [elementTokens]
      exact List.forall_mem_append.mpr ⟨e.kind_mem, kind_mem_elements rest⟩

end

theorem kind_mem_sequence (items : Surface.Sequence) :
    ∀ t ∈ sequenceTokens items, t.kind ∈ itemKinds := by
  intro t ht
  obtain ⟨item, _, hitem⟩ := List.mem_flatMap.mp ht
  exact item.kind_mem t hitem

/-- A rule has tokens of the kinds for items, a colon and a semicolon. -/
theorem Rule.kind_mem (r : Rule) :
    ∀ t ∈ r.tokens, t.kind ∈ TokenKind.colon :: TokenKind.semicolon :: itemKinds := by
  have hitems : ∀ items : Surface.Sequence, ∀ t ∈ sequenceTokens items,
      t.kind ∈ TokenKind.colon :: TokenKind.semicolon :: itemKinds := fun items t ht =>
    List.mem_cons_of_mem _ (List.mem_cons_of_mem _ (kind_mem_sequence items t ht))
  have halternatives : ∀ t ∈ r.alternatives.flatMap Alternative.tokens,
      t.kind ∈ TokenKind.colon :: TokenKind.semicolon :: itemKinds := by
    intro t ht
    obtain ⟨a, _, ha⟩ := List.mem_flatMap.mp ht
    rcases List.mem_cons.mp ha with rfl | ha
    · simp [a.bar.kind_eq, itemKinds]
    · exact hitems a.sequence t ha
  simp only [Rule.tokens, List.forall_mem_cons, List.forall_mem_append]
  exact ⟨by simp [r.name.kind_eq, itemKinds], by simp [r.colon.kind_eq],
    ⟨hitems r.lead, halternatives⟩, by simp [r.semicolon.kind_eq], List.forall_mem_nil _⟩

/-- No rule has a token of any other kind. -/
theorem Rule.kind_ne {kind : TokenKind}
    (h : kind ∉ TokenKind.colon :: TokenKind.semicolon :: itemKinds) (r : Rule) :
    ∀ t ∈ r.tokens, t.kind ≠ kind :=
  fun t ht heq => h (heq ▸ r.kind_mem t ht)

theorem Rule.hasKind_closeBrace (r : Rule) : ∀ t ∈ r.tokens, t.hasKind .closeBrace = false :=
  fun t ht => decide_eq_false (r.kind_ne (by decide) t ht)

/-! ## Documents -/

/-- The rules of a field, in order. -/
def Field.blockRules : Field → List Rule
  | .rules _ _ _ block _ => block
  | _ => []

/-- The rules of a derivation, in order. -/
def Derivation.rules (d : Derivation) : List Rule := d.flatMap Field.blockRules

theorem Field.stopsBefore_tokens (f : Field) (rest : Tokens) :
    StopsBefore (Token.hasKind .openBrace) (f.tokens ++ rest) := by
  cases f <;> exact Sequence.stopsBefore_cons.mpr (Terminal.hasKind_eq _ _)

theorem Derivation.stopsBefore_tokens (d : Derivation) :
    StopsBefore (Token.hasKind .openBrace) d.tokens := by
  cases d with
  | nil => exact Sequence.stopsBefore_nil _
  | cons f rest => exact f.stopsBefore_tokens (rest.flatMap Field.tokens)

theorem Field.blockTokens_append (f : Field) {rest : Tokens}
    (hrest : StopsBefore (Token.hasKind .openBrace) rest) :
    blockTokens (f.tokens ++ rest) = f.blockRules.flatMap Rule.tokens ++ blockTokens rest := by
  cases f with
  | rules keyword spelled opening block closing =>
      have hword : keyword.token.isRulesWord := by simp [Token.isRulesWord, keyword.kind_eq, spelled]
      have hblock : ∀ t ∈ block.flatMap Rule.tokens, t.hasKind .closeBrace = false := by
        intro t ht
        obtain ⟨r, _, hr⟩ := List.mem_flatMap.mp ht
        exact r.hasKind_closeBrace t hr
      have hclosing : closing.token.isRulesWord = false := by
        simp [Token.isRulesWord, closing.kind_eq]
      rw [Field.tokens, List.cons_append, List.cons_append, List.append_assoc,
        blockTokens_block hword (Terminal.hasKind_eq _ _) hblock
          (by simp [Terminal.hasKind_eq]),
        List.singleton_append, blockTokens_cons (.inl hclosing)]
      rfl
  | declarations name notRules opening declared closing =>
      have hname : name.token.isRulesWord = false := by simp [Token.isRulesWord, notRules]
      have hinner : IsBlockless (declared.flatMap Declared.tokens ++ [closing.token]) :=
        (IsBlockless.flatMap fun d _ => d.isBlockless).append
          (IsBlockless.nil.cons (Terminal.hasKind_eq _ _))
      exact (hinner.cons_brace (Terminal.hasKind_eq _ _) hname (Terminal.hasKind_eq _ _)).skipped
        rest hrest
  | setting name colon value =>
      have hsetting : IsBlockless [name.token, colon.token, value.token] := by
        refine .of_forall ?_
        simp [Terminal.hasKind_eq, OptionValue.hasKind_openBrace]
      exact hsetting.skipped rest hrest

/-- The tokens inside the blocks of a document are those of its rules. -/
theorem Derivation.blockTokens_tokens (d : Derivation) :
    blockTokens d.tokens = d.rules.flatMap Rule.tokens := by
  induction d with
  | nil => exact blockTokens.eq_def []
  | cons f rest ih =>
      have hskip := f.blockTokens_append (Derivation.stopsBefore_tokens rest)
      have htokens : Derivation.tokens (f :: rest) = f.tokens ++ Derivation.tokens rest := rfl
      have hrules : Derivation.rules (f :: rest) = f.blockRules ++ Derivation.rules rest := rfl
      rw [htokens, hskip, ih, hrules, List.flatMap_append]

end Surface

end Rulebook
