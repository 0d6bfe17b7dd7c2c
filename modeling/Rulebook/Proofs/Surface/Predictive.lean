import Rulebook.Proofs.Document.Outcome
import Rulebook.Proofs.Surface.Soundness

/-! # Predictive steps

A step that reads a construct looks no further than at the token that comes next, and it
does not take a token unless the construct can still be completed. So a step that is
stuck has taken the beginning of a construct, and what it has found next rules out every
other rest. Both are kept when steps are put together.
-/

namespace Rulebook.Surface

open Document (Tokens)

/-! ## Tokens to complete a construct -/

/-- The tokens with which constructs are completed. -/
inductive Filler
  | name
  | colon
  | semicolon
  | openBrace
  | closeBrace
  | closeParen

namespace Filler

/-- The kind of a filler. -/
def kind : Filler → TokenKind
  | name => .identifier
  | colon => .colon
  | semicolon => .semicolon
  | openBrace => .openBrace
  | closeBrace => .closeBrace
  | closeParen => .closeParen

/-- The lexeme of a filler. -/
def lexeme : Filler → String
  | name => "x"
  | colon => ":"
  | semicolon => ";"
  | openBrace => "\x7b"
  | closeBrace => "\x7d"
  | closeParen => ")"

/-- A filler as a token, which stands in no text. -/
def token (f : Filler) : Token TokenKind := { kind := f.kind, lexeme := f.lexeme }

/-- A filler as a terminal of its kind. -/
def terminal (f : Filler) : Terminal f.kind := ⟨f.token, rfl⟩

end Filler

/-- Tokens with which a construct begins: fillers complete it. -/
def Begins {δ : Type} (tokensOf : δ → Tokens) (front : Tokens) : Prop :=
  ∃ (d : δ) (fillers : List Filler), tokensOf d = front ++ fillers.map Filler.token

/-- Tokens that are a whole construct need no fillers. -/
theorem begins_of_eq {δ : Type} {tokensOf : δ → Tokens} {front : Tokens} (d : δ)
    (h : tokensOf d = front) : Begins tokensOf front := ⟨d, [], by
  rw [h, List.map_nil, List.append_nil]⟩

end Rulebook.Surface

namespace Rulebook.Document

open Surface

/-! ## Faults -/

/-- The tokens from the offending one on: the next one, or for an empty group the one
behind the parenthesis that opens it. -/
def Stuck.offending (s : Stuck) : Tokens :=
  match s.fault with
  | .emptyGroup => s.left.tail
  | _ => s.left

/-- What a fault says, when some tokens have been taken: it tells the kind of the next
token, or it is about the parenthesis that was taken last; the names in it are those of
identifiers that were taken. -/
inductive Stuck.Tells (taken : Tokens) : Stuck → Prop
  | expectedToken (kind : TokenKind) (left : Tokens) :
      Tells taken ⟨.expectedToken kind.name (nextKind left).name, left⟩
  | expectedFieldBody {name : Token TokenKind} (hmem : name ∈ taken)
      (hkind : name.kind = .identifier) (left : Tokens) :
      Tells taken ⟨.expectedFieldBody name.lexeme (nextKind left).name, left⟩
  | expectedOptionValue (left : Tokens) :
      Tells taken ⟨.expectedOptionValue (nextKind left).name, left⟩
  | missingSemicolon {name : Token TokenKind} (hmem : name ∈ taken)
      (hkind : name.kind = .identifier) (left : Tokens) :
      Tells taken ⟨.missingSemicolon name.lexeme (nextKind left).name, left⟩
  | unexpectedToken (left : Tokens) : Tells taken ⟨.unexpectedToken (nextKind left).name, left⟩
  | emptyGroup {opening : Token TokenKind} (hlast : [opening] <:+ taken)
      (hkind : opening.kind = .openParen) (left : Tokens) :
      Tells taken ⟨.emptyGroup, opening :: left⟩

theorem Stuck.Tells.append {taken : Tokens} {s : Stuck} (h : s.Tells taken) (past : Tokens) :
    s.Tells (past ++ taken) := by
  cases h with
  | expectedToken kind left => exact .expectedToken kind left
  | expectedFieldBody hmem hkind left =>
      exact .expectedFieldBody (List.mem_append_right past hmem) hkind left
  | expectedOptionValue left => exact .expectedOptionValue left
  | missingSemicolon hmem hkind left =>
      exact .missingSemicolon (List.mem_append_right past hmem) hkind left
  | unexpectedToken left => exact .unexpectedToken left
  | emptyGroup hlast hkind left =>
      exact .emptyGroup (hlast.trans (List.suffix_append past _)) hkind left

/-! ## Steps that predict -/

variable {δ ε α β : Type} {tokensOf : δ → Tokens} {past tokens rest : Tokens}

/-- A step over the rest of a construct, of which the tokens that are past have been taken.
If it is stuck, the tokens that were taken begin a construct. What it reads, and whether
it is stuck, does not depend on what follows the token that comes next in the end. -/
structure Predicts (tokensOf : δ → Tokens) (past : Tokens) (p : Tokens → Outcome α)
    (tokens : Tokens) : Prop where
  suffix : ∀ {value rest}, p tokens = .ok (value, rest) → rest <:+ tokens
  begins : ∀ {s}, p tokens = .error s → ∃ front, tokens = front ++ s.offending ∧
    s.Tells (past ++ front) ∧ Begins tokensOf (past ++ front)
  read_ahead : ∀ {value front left t more}, tokens = front ++ t :: more →
    p tokens = .ok (value, left ++ t :: more) → ∀ more',
      p (front ++ t :: more') = .ok (value, left ++ t :: more')
  stuck_ahead : ∀ {s front left t more}, tokens = front ++ t :: more →
    p tokens = .error s → s.offending = left ++ t :: more → ∀ more',
      ∃ s', p (front ++ t :: more') = .error s'

namespace Predicts

variable {p q : Tokens → Outcome α}

/-- Steps that do the same for the same next token. -/
theorem of_head (hq : Predicts tokensOf past q tokens)
    (h : ∀ ts, ts.head? = tokens.head? → p ts = q ts) : Predicts tokensOf past p tokens := by
  have htokens : p tokens = q tokens := h tokens rfl
  have hahead : ∀ {front t more}, tokens = front ++ t :: more → ∀ more',
      p (front ++ t :: more') = q (front ++ t :: more') := by
    rintro front t more rfl more'
    refine h _ ?_
    cases front <;> rfl
  refine ⟨?_, ?_, ?_, ?_⟩
  · rw [htokens]
    exact hq.suffix
  · rw [htokens]
    exact hq.begins
  · intro value front left t more heq hread more'
    rw [hahead heq]
    exact hq.read_ahead heq (htokens ▸ hread) more'
  · intro s front left t more heq hstuck hoffending more'
    rw [hahead heq]
    exact hq.stuck_ahead heq (htokens ▸ hstuck) hoffending more'

/-- A step that takes nothing. -/
theorem done (value : α) : Predicts tokensOf past (fun ts => .ok (value, ts)) tokens where
  suffix h := by
    cases h
    exact List.suffix_rfl
  begins h := by cases h
  read_ahead htokens h more' := by
    obtain ⟨rfl, hrest⟩ := Prod.mk.inj (Except.ok.inj h)
    rw [htokens] at hrest
    rw [List.append_cancel_right hrest]
  stuck_ahead _ h := by cases h

/-- A step that is stuck with a fault at the next token, while the construct can be
completed. -/
theorem stuck {fault : SyntaxFault} (opened : Tokens)
    (hoffending : ∀ ts, (⟨fault, opened ++ ts⟩ : Stuck).offending = ts)
    (htells : Stuck.Tells past ⟨fault, opened ++ tokens⟩) (hbegins : Begins tokensOf past) :
    Predicts (α := α) tokensOf past (fun ts => .error ⟨fault, opened ++ ts⟩) tokens where
  suffix h := by cases h
  begins h := by
    cases h
    refine ⟨[], (hoffending tokens).symm, ?_, ?_⟩
    · rwa [List.append_nil]
    · rwa [List.append_nil]
  read_ahead _ h := by cases h
  stuck_ahead _ _ _ _ := ⟨_, rfl⟩

/-- A step over the tokens behind the next one. -/
theorem cons {t : Token TokenKind} (h : Predicts tokensOf (past ++ [t]) p rest) :
    Predicts tokensOf past (fun ts => p ts.tail) (t :: rest) where
  suffix hread := (h.suffix hread).trans (List.suffix_cons t rest)
  begins hstuck := by
    obtain ⟨front, hrest, htells, hbegins⟩ := h.begins hstuck
    rw [List.append_assoc] at htells hbegins
    exact ⟨t :: front, by rw [List.cons_append, ← hrest], htells, hbegins⟩
  read_ahead {value front left u more} htokens hread more' := by
    have hsuffix := h.suffix hread
    cases front with
    | nil =>
        -- The token is taken, so it cannot be the next one in the end.
        obtain ⟨rfl, rfl⟩ := List.cons.inj htokens
        have := hsuffix.length_le
        simp at this
        omega
    | cons v front =>
        obtain ⟨rfl, hrest⟩ := List.cons.inj htokens
        exact h.read_ahead hrest hread more'
  stuck_ahead {s front left u more} htokens hstuck hoffending more' := by
    obtain ⟨taken, htaken, -, -⟩ := h.begins hstuck
    cases front with
    | nil =>
        obtain ⟨rfl, rfl⟩ := List.cons.inj htokens
        have := congrArg List.length htaken
        rw [hoffending] at this
        simp at this
        omega
    | cons v front =>
        obtain ⟨rfl, hrest⟩ := List.cons.inj htokens
        exact h.stuck_ahead hrest hstuck hoffending more'

/-- Two steps one after the other: what the first one reads is a part of the construct,
and the second one goes on behind it. -/
theorem andThen {partOf : ε → Tokens} {next : α → Tokens → Outcome β}
    (hp : Predicts partOf [] p tokens)
    (hpart : ∀ d, Begins tokensOf (past ++ partOf d))
    (hnext : ∀ {value rest}, p tokens = .ok (value, rest) →
      ∃ front, tokens = front ++ rest ∧ Predicts tokensOf (past ++ front) (next value) rest) :
    Predicts tokensOf past (fun ts => (p ts).andThen next) tokens where
  suffix h := by
    obtain ⟨value, rest, hread, h⟩ := Outcome.andThen_eq_ok.mp h
    obtain ⟨_, -, hnext⟩ := hnext hread
    exact (hnext.suffix h).trans (hp.suffix hread)
  begins h := by
    rcases Outcome.andThen_eq_error.mp h with h | ⟨value, rest, hread, h⟩
    · obtain ⟨front, htokens, htells, d, fillers, hd⟩ := hp.begins h
      obtain ⟨d', fillers', hd'⟩ := hpart d
      refine ⟨front, htokens, htells.append past, d', fillers ++ fillers', ?_⟩
      rw [hd', hd, List.nil_append, List.map_append, List.append_assoc, List.append_assoc,
        List.append_assoc]
    · obtain ⟨front, htokens, hnext⟩ := hnext hread
      obtain ⟨front', hrest, htells, hbegins⟩ := hnext.begins h
      rw [List.append_assoc] at htells hbegins
      exact ⟨front ++ front', by rw [List.append_assoc, ← hrest, htokens], htells, hbegins⟩
  read_ahead {value front left t more} htokens h more' := by
    obtain ⟨first, rest, hread, h⟩ := Outcome.andThen_eq_ok.mp h
    obtain ⟨taken, -, hnext⟩ := hnext hread
    obtain ⟨middle, hmiddle⟩ := hnext.suffix h
    obtain rfl : (middle ++ left) ++ t :: more = rest := by rw [List.append_assoc, hmiddle]
    exact Outcome.andThen_eq_ok.mpr ⟨first, _, hp.read_ahead htokens hread more',
      hnext.read_ahead rfl h more'⟩
  stuck_ahead {s front left t more} htokens h hoffending more' := by
    rcases Outcome.andThen_eq_error.mp h with h | ⟨first, rest, hread, h⟩
    · obtain ⟨s', hs'⟩ := hp.stuck_ahead htokens h hoffending more'
      exact ⟨s', Outcome.andThen_eq_error.mpr (.inl hs')⟩
    · obtain ⟨taken, -, hnext⟩ := hnext hread
      obtain ⟨middle, hrest, -, -⟩ := hnext.begins h
      obtain rfl : (middle ++ left) ++ t :: more = rest := by
        rw [List.append_assoc, ← hoffending, ← hrest]
      obtain ⟨s', hs'⟩ := hnext.stuck_ahead rfl h hoffending more'
      exact ⟨s', Outcome.andThen_eq_error.mpr
        (.inr ⟨first, _, hp.read_ahead htokens hread more', hs'⟩)⟩

/-- A choice that depends on the kind of the next token. -/
theorem choose {c : Tokens → Prop} [DecidablePred c]
    (hc : ∀ ts, nextKind ts = nextKind tokens → (c ts ↔ c tokens))
    (hp : c tokens → Predicts tokensOf past p tokens)
    (hq : ¬ c tokens → Predicts tokensOf past q tokens) :
    Predicts tokensOf past (fun ts => if c ts then p ts else q ts) tokens := by
  by_cases h : c tokens
  · exact (hp h).of_head fun ts hhead => if_pos ((hc ts (nextKind_eq_of_head? hhead)).mpr h)
  · exact (hq h).of_head fun ts hhead => if_neg (mt (hc ts (nextKind_eq_of_head? hhead)).mp h)

/-- A step that takes a token of a kind and goes on behind it. -/
theorem take {kind : TokenKind} {next : Token TokenKind → Tokens → Outcome β}
    (hbegins : Begins tokensOf past)
    (hnext : ∀ t rest, tokens = t :: rest → t.kind = kind →
      Predicts tokensOf (past ++ [t]) (next t) rest) :
    Predicts tokensOf past (fun ts => (outcome (Document.take kind ts)).andThen next) tokens := by
  have hstuck : Predicts (α := β) tokensOf past
      (fun ts => .error ⟨.expectedToken kind.name (nextKind tokens).name, ts⟩) tokens :=
    .stuck [] (fun _ => rfl) (.expectedToken kind tokens) hbegins
  cases tokens with
  | nil =>
      refine hstuck.of_head fun ts hhead => ?_
      obtain rfl := List.head?_eq_none_iff.mp hhead
      rfl
  | cons t rest =>
      by_cases hkind : t.kind = kind
      · refine (hnext t rest rfl hkind).cons.of_head fun ts hhead => ?_
        obtain ⟨more, rfl⟩ := List.head?_eq_some_iff.mp hhead
        rw [outcome_take_cons hkind, Outcome.ok_andThen, List.tail_cons]
      · refine hstuck.of_head fun ts hhead => ?_
        obtain ⟨more, rfl⟩ := List.head?_eq_some_iff.mp hhead
        rw [Document.take, if_neg hkind]
        rfl

/-- A step behind a token of a kind that may be left out. -/
theorem skip {kind : TokenKind}
    (h : ∀ t : Option (Terminal kind), tokens = optionalToken t ++ Document.skip kind tokens →
      Predicts tokensOf (past ++ optionalToken t) p (Document.skip kind tokens)) :
    Predicts tokensOf past (fun ts => p (Document.skip kind ts)) tokens := by
  cases tokens with
  | nil =>
      have hnone := h none rfl
      rw [optionalToken, Option.map_none, Option.toList_none, List.append_nil] at hnone
      refine hnone.of_head fun ts hhead => ?_
      rw [List.head?_eq_none_iff.mp hhead]
      rfl
  | cons t rest =>
      by_cases hkind : t.kind = kind
      · have hsome := h (some ⟨t, hkind⟩) (by rw [skip_cons hkind]; rfl)
        rw [skip_cons hkind] at hsome
        refine hsome.cons.of_head fun ts hhead => ?_
        obtain ⟨more, rfl⟩ := List.head?_eq_some_iff.mp hhead
        rw [skip_cons hkind, List.tail_cons]
      · have hne : nextKind (t :: rest) ≠ kind := hkind
        have hnone := h none (by rw [skip_of_ne hne]; rfl)
        rw [skip_of_ne hne, optionalToken, Option.map_none, Option.toList_none,
          List.append_nil] at hnone
        refine hnone.of_head fun ts hhead => ?_
        rw [skip_of_ne (nextKind_eq_of_head? hhead ▸ hne)]

/-- A construct and then more of them. -/
theorem many {p : Tokens → Outcome α} {q : Tokens → Outcome (List α)} {f : α → α}
    (hp : Predicts tokensOf [] p tokens)
    (hq : ∀ {value rest}, p tokens = .ok (value, rest) →
      (∃ d, tokens = tokensOf d ++ rest) ∧ Predicts (List.flatMap tokensOf) [] q rest ∧
        ∀ {more left}, q rest = .ok (more, left) → ∃ ds, rest = List.flatMap tokensOf ds ++ left) :
    Predicts (List.flatMap tokensOf) [] (fun ts => (p ts).andThen fun first ts =>
      (q ts).andThen fun more ts => .ok (f first :: more, ts)) tokens := by
  refine .andThen hp (fun d => begins_of_eq [d] (List.flatMap_singleton tokensOf d))
    fun {first middle} hfirst => ?_
  obtain ⟨⟨d, hd⟩, hmany, hread⟩ := hq hfirst
  refine ⟨tokensOf d, hd, ?_⟩
  refine .andThen hmany (fun ds => begins_of_eq (d :: ds) List.flatMap_cons)
    fun {more left} hmore => ?_
  obtain ⟨ds, hds⟩ := hread hmore
  exact ⟨List.flatMap tokensOf ds, hds, .done _⟩

end Predicts

end Rulebook.Document
