import Mathlib.Tactic
import Rulebook.Proofs.Surface.Acceptance
import Rulebook.Proofs.Surface.Essence
import Rulebook.Proofs.Token.Respacing

/-! # What of a text its tree depends on

Two texts have the same tree, but for the places in it, if and only if they have the same
lexemes after two kinds of token are deleted from each: commas, and bars that stand in
front of a rule for the eye only. The deletion is done on tokens alone, without a parser.
-/

namespace Rulebook

open Document (Tokens nextKind EndsSequence endsSequence_alternatives)

/-- Whether a bar follows outside of all parentheses, and in front of any semicolon. -/
def barAhead (depth : Nat) : Tokens → Bool
  | [] => false
  | t :: rest =>
      match t.kind with
      | .semicolon => false
      | .bar => depth = 0 || barAhead depth rest
      | .openParen => barAhead (depth + 1) rest
      | .closeParen => barAhead (depth - 1) rest
      | _ => barAhead depth rest

/-- Whether a token is a bar with an alternative behind it that is not empty, and with a
further bar behind that. -/
def isIdleBar (t : Token TokenKind) (rest : Tokens) : Bool :=
  t.kind = .bar && nextKind rest ≠ .bar && nextKind rest ≠ .semicolon && barAhead 0 rest

/-- Tokens without commas and without the idle bars that directly follow a colon. In the
tokens of a document such a colon is that of a rule. -/
def essentials (behindColon : Bool) : Tokens → Tokens
  | [] => []
  | t :: rest =>
      if t.kind = .comma || (behindColon && isIdleBar t rest) then essentials (t.kind = .colon) rest
      else t :: essentials (t.kind = .colon) rest

theorem essentials_sublist (behindColon : Bool) (tokens : Tokens) :
    List.Sublist (essentials behindColon tokens) tokens := by
  induction tokens generalizing behindColon with
  | nil => exact .slnil
  | cons t rest ih =>
      rw [essentials]
      split
      · exact (ih _).cons t
      · exact (ih _).cons_cons t

/-- A colon makes a difference for an idle bar only. -/
theorem essentials_behindColon {tokens : Tokens}
    (h : ∀ t rest, tokens = t :: rest → isIdleBar t rest = false) :
    essentials true tokens = essentials false tokens := by
  cases tokens with
  | nil => rfl
  | cons t rest => simp [essentials, h t rest rfl]

theorem isIdleBar_of_ne_bar {t : Token TokenKind} (h : t.kind ≠ .bar) (rest : Tokens) :
    isIdleBar t rest = false := by
  simp [isIdleBar, h]

/-! ## Tokens of which the same is left anywhere -/

/-- Of some tokens just these are essential, whatever follows them. -/
def Reduces (tokens left : Tokens) : Prop :=
  ∀ rest, essentials false (tokens ++ rest) = left ++ essentials false rest

namespace Reduces

variable {t : Token TokenKind} {tokens more left others : Tokens}

theorem nil : Reduces [] [] := fun _ => rfl

theorem append (h : Reduces tokens left) (hmore : Reduces more others) :
    Reduces (tokens ++ more) (left ++ others) := fun rest => by
  rw [List.append_assoc, h, hmore, List.append_assoc]

theorem flatMap {δ : Type} {tokensOf leftOf : δ → Tokens} {ds : List δ}
    (h : ∀ d ∈ ds, Reduces (tokensOf d) (leftOf d)) :
    Reduces (ds.flatMap tokensOf) (ds.flatMap leftOf) := by
  induction ds with
  | nil => exact nil
  | cons d rest ih =>
      obtain ⟨hd, hrest⟩ := List.forall_mem_cons.mp h
      exact hd.append (ih hrest)

theorem token (hcomma : t.kind ≠ .comma) (hcolon : t.kind ≠ .colon) : Reduces [t] [t] := by
  intro rest
  simp [essentials, hcomma, hcolon]

theorem comma (h : t.kind = .comma) : Reduces [t] [] := by
  intro rest
  simp [essentials, h]

/-- A colon is essential, and so is what follows it, if that is no bar. -/
theorem colon (ht : t.kind = .colon) (h : Reduces tokens left)
    (hbar : ∀ rest, nextKind (tokens ++ rest) ≠ .bar) : Reduces (t :: tokens) (t :: left) := by
  intro rest
  have hbehind : essentials true (tokens ++ rest) = essentials false (tokens ++ rest) := by
    refine essentials_behindColon fun u more heq => isIdleBar_of_ne_bar ?_ more
    have hne := hbar rest
    rwa [heq] at hne
  simp [essentials, ht, hbehind, h rest]

end Reduces

/-- Tokens within so many parentheses that are all essential, with no bar outside of all
parentheses among them. -/
structure Inert (depth : Nat) (tokens : Tokens) : Prop where
  reduces : Reduces tokens tokens
  barless : ∀ rest, barAhead depth (tokens ++ rest) = barAhead depth rest

namespace Inert

variable {depth : Nat} {t u : Token TokenKind} {tokens more : Tokens}

theorem nil : Inert depth [] := ⟨.nil, fun _ => rfl⟩

theorem append (h : Inert depth tokens) (hmore : Inert depth more) :
    Inert depth (tokens ++ more) :=
  ⟨h.reduces.append hmore.reduces, fun rest => by
    rw [List.append_assoc, h.barless, hmore.barless]⟩

theorem flatMap {δ : Type} {tokensOf : δ → Tokens} {ds : List δ}
    (h : ∀ d ∈ ds, Inert depth (tokensOf d)) : Inert depth (ds.flatMap tokensOf) := by
  induction ds with
  | nil => exact nil
  | cons d rest ih =>
      obtain ⟨hd, hrest⟩ := List.forall_mem_cons.mp h
      exact hd.append (ih hrest)

theorem token
    (h : t.kind ∉ [TokenKind.comma, .colon, .semicolon, .openParen, .closeParen])
    (hbar : t.kind = .bar → depth ≠ 0) : Inert depth [t] := by
  simp only [List.mem_cons, List.not_mem_nil, or_false, not_or] at h
  refine ⟨.token h.1 h.2.1, fun rest => ?_⟩
  rw [List.singleton_append, barAhead]
  split <;> simp_all

theorem parentheses (ht : t.kind = .openParen) (hu : u.kind = .closeParen)
    (h : Inert (depth + 1) tokens) : Inert depth (t :: tokens ++ [u]) := by
  have hopen : Reduces [t] [t] := .token (by simp [ht]) (by simp [ht])
  have hclose : Reduces [u] [u] := .token (by simp [hu]) (by simp [hu])
  refine ⟨(hopen.append h.reduces).append hclose, fun rest => ?_⟩
  rw [List.append_assoc, List.cons_append, barAhead, ht]
  simp only
  rw [h.barless, List.singleton_append, barAhead, hu]
  rfl

end Inert

namespace Surface

/-! ## Bodies of rules -/

theorem Terminal.inert {kind : TokenKind} (depth : Nat) (t : Terminal kind)
    (h : kind ∉ [TokenKind.comma, .colon, .semicolon, .openParen, .closeParen])
    (hbar : kind = .bar → depth ≠ 0) : Inert depth [t.token] :=
  .token (by rwa [t.kind_eq]) (by rwa [t.kind_eq])

theorem inert_label (depth : Nat) (label : Option Label) : Inert depth (labelTokens label) := by
  cases label with
  | none => exact .nil
  | some label =>
      exact (label.name.inert depth (by decide) (by simp)).append
        (label.equals.inert depth (by decide) (by simp))

theorem inert_suffix (depth : Nat) (suffix : Option Suffix) :
    Inert depth (suffixTokens suffix) := by
  cases suffix with
  | none => exact .nil
  | some s => cases s <;> exact Terminal.inert depth _ (by decide) (by simp)

mutual

theorem Item.inert (depth : Nat) (d : Item) : Inert depth d.tokens := by
  cases d with
  | mk label scalar suffix =>
      rw [Item.tokens]
      exact ((inert_label depth label).append (scalar.inert depth)).append
        (inert_suffix depth suffix)

theorem Scalar.inert (depth : Nat) (d : Scalar) : Inert depth d.tokens := by
  cases d with
  | group opening first more closing =>
      have hinside := (first.inert (depth + 1) (Nat.succ_ne_zero depth)).append
        (inert_elements (depth + 1) (Nat.succ_ne_zero depth) more)
      rw [Scalar.tokens]
      exact hinside.parentheses opening.kind_eq closing.kind_eq
  | _ =>
      rw [Scalar.tokens]
      exact Terminal.inert depth _ (by decide) (by simp)

theorem Element.inert (depth : Nat) (hdepth : depth ≠ 0) (d : Element) :
    Inert depth d.tokens := by
  cases d with
  | bar bar =>
      rw [Element.tokens]
      exact bar.inert depth (by decide) fun _ => hdepth
  | item item =>
      rw [Element.tokens]
      exact item.inert depth

theorem inert_elements (depth : Nat) (hdepth : depth ≠ 0) (ds : List Element) :
    Inert depth (elementTokens ds) := by
  cases ds with
  | nil => exact .nil
  | cons d rest =>
      rw [elementTokens]
      exact (d.inert depth hdepth).append (inert_elements depth hdepth rest)

end

theorem inert_sequence (items : Sequence) : Inert 0 (sequenceTokens items) :=
  .flatMap fun item _ => item.inert 0

theorem Terminal.reduces {kind : TokenKind} (t : Terminal kind) (hcomma : kind ≠ .comma)
    (hcolon : kind ≠ .colon) : Reduces [t.token] [t.token] :=
  .token (by rwa [t.kind_eq]) (by rwa [t.kind_eq])

theorem reduces_alternatives (alternatives : List Alternative) :
    Reduces (alternatives.flatMap Alternative.tokens) (alternatives.flatMap Alternative.tokens) :=
  .flatMap fun a _ =>
    (a.bar.reduces (by decide) (by decide)).append (inert_sequence a.sequence).reduces

theorem beginsItem_sequence (item : Item) (more : Sequence) (rest : Tokens) :
    Document.beginsItem (nextKind (sequenceTokens (item :: more) ++ rest)) := by
  rw [sequenceTokens, List.flatMap_cons, List.append_assoc, nextKind_append item.tokens_ne_nil]
  exact item.beginsItem

/-- A bar is idle if its alternative has items and a further bar follows. -/
theorem Alternative.isIdleBar_eq (a : Alternative) {rest : Tokens}
    (h : EndsSequence (nextKind rest)) :
    isIdleBar a.bar.token (sequenceTokens a.sequence ++ rest) =
      (!a.sequence.isEmpty && barAhead 0 rest) := by
  rw [isIdleBar, (inert_sequence a.sequence).barless]
  cases a.sequence with
  | nil => rcases h with h | h <;> simp [sequenceTokens, h]
  | cons item more =>
      have hbegins := beginsItem_sequence item more rest
      have hne : ∀ kind, Document.beginsItem kind = false →
          nextKind (sequenceTokens (item :: more) ++ rest) ≠ kind := by
        rintro kind hkind rfl
        cases hkind.symm.trans hbegins
      simp [hne .bar rfl, hne .semicolon rfl, a.bar.kind_eq]

theorem barAhead_alternatives (alternatives : List Alternative) (semicolon : Terminal .semicolon)
    (rest : Tokens) :
    barAhead 0 (alternatives.flatMap Alternative.tokens ++ semicolon.token :: rest) =
      !alternatives.isEmpty := by
  cases alternatives with
  | nil => simp [barAhead, semicolon.kind_eq]
  | cons a more => simp [Alternative.tokens, barAhead, a.bar.kind_eq]

/-- In front of the first alternative of a rule stands an idle bar exactly if the rule is
not plain. -/
theorem isIdleBar_alternatives (first : Alternative) (more : List Alternative)
    (semicolon : Terminal .semicolon) (rest : Tokens) :
    isIdleBar first.bar.token (sequenceTokens first.sequence ++
        (more.flatMap Alternative.tokens ++ semicolon.token :: rest)) =
      !(first.sequence.isEmpty || more.isEmpty) := by
  rw [first.isIdleBar_eq (endsSequence_alternatives more (semicolon.nextKind_cons rest)),
    barAhead_alternatives, Bool.not_or]

/-- A rule is reduced as its body is behind the colon. -/
theorem reduces_rule {name : Terminal .identifier} {colon : Terminal .colon}
    {semicolon : Terminal .semicolon} {lead lead' : Sequence}
    {alternatives alternatives' : List Alternative}
    (h : ∀ rest, essentials true (sequenceTokens lead ++
        alternatives.flatMap Alternative.tokens ++ semicolon.token :: rest) =
      essentials false (sequenceTokens lead' ++
        alternatives'.flatMap Alternative.tokens ++ semicolon.token :: rest)) :
    Reduces (Rule.mk name colon lead alternatives semicolon).tokens
      (Rule.mk name colon lead' alternatives' semicolon).tokens := by
  intro rest
  have hbody := (inert_sequence lead').reduces.append (reduces_alternatives alternatives')
  have hend := semicolon.reduces (by decide) (by decide) rest
  have hleft := hbody (semicolon.token :: rest)
  rw [← h, show semicolon.token :: rest = [semicolon.token] ++ rest from rfl, hend] at hleft
  simpa [Rule.tokens, essentials, name.kind_eq, colon.kind_eq] using hleft

/-- A rule is left plain. -/
theorem Rule.reduces (r : Rule) : Reduces r.tokens r.essence := by
  obtain ⟨name, colon, lead, alternatives, semicolon⟩ := r
  cases lead with
  | cons item items =>
      refine reduces_rule fun rest => essentials_behindColon fun t tokens heq => ?_
      have hbegins := beginsItem_sequence item items
        (alternatives.flatMap Alternative.tokens ++ semicolon.token :: rest)
      rw [← List.append_assoc, heq, nextKind_cons] at hbegins
      refine isIdleBar_of_ne_bar (fun hbar => ?_) tokens
      rw [hbar] at hbegins
      cases hbegins
  | nil =>
      cases alternatives with
      | nil =>
          refine reduces_rule fun rest => essentials_behindColon fun t tokens heq => ?_
          obtain ⟨rfl, -⟩ := List.cons.inj heq
          exact isIdleBar_of_ne_bar (by simp [semicolon.kind_eq]) _
      | cons first more =>
          have hbody : ∀ rest, sequenceTokens [] ++ (first :: more).flatMap Alternative.tokens ++
              semicolon.token :: rest = first.bar.token :: (sequenceTokens first.sequence ++
                (more.flatMap Alternative.tokens ++ semicolon.token :: rest)) := by
            simp [sequenceTokens, Alternative.tokens]
          cases h : first.sequence.isEmpty || more.isEmpty with
          | true =>
              simp only [essence, plain, h, if_true]
              refine reduces_rule fun rest => essentials_behindColon fun t tokens heq => ?_
              obtain ⟨rfl, rfl⟩ := List.cons.inj ((hbody rest).symm.trans heq)
              rw [isIdleBar_alternatives, h]
              rfl
          | false =>
              simp only [essence, plain, h]
              refine reduces_rule fun rest => ?_
              rw [hbody, essentials, isIdleBar_alternatives, h, first.bar.kind_eq,
                List.append_assoc]
              rfl

/-! ## Declarations -/

theorem reduces_optionalComma (comma : Option (Terminal .comma)) :
    Reduces (optionalToken comma) [] := by
  cases comma with
  | none => exact .nil
  | some comma => exact .comma comma.kind_eq

theorem OptionValue.reduces (v : OptionValue) : Reduces [v.token] [v.token] := by
  cases v <;> exact Terminal.reduces _ (by decide) (by decide)

theorem OptionValue.kind_ne_bar (v : OptionValue) : v.token.kind ≠ .bar := by
  cases v <;> simp [OptionValue.token, Terminal.kind_eq]

theorem OptionEntry.reduces (o : OptionEntry) : Reduces o.tokens o.tokens :=
  (o.name.reduces (by decide) (by decide)).append
    (.colon o.colon.kind_eq o.value.reduces fun _ => o.value.kind_ne_bar)

theorem FurtherOption.reduces (o : FurtherOption) : Reduces o.tokens o.entry.tokens :=
  (Reduces.comma o.comma.kind_eq).append o.entry.reduces

theorem OptionList.reduces (l : OptionList) :
    Reduces l.tokens (l.entries.flatMap OptionEntry.tokens) := by
  cases l with
  | none => exact .nil
  | some first more trailing =>
      have hall := first.reduces.append
        ((Reduces.flatMap fun (o : FurtherOption) (_ : o ∈ more) => o.reduces).append
          (reduces_optionalComma trailing))
      simpa [OptionList.tokens, OptionList.entries, List.flatMap_map] using hall

theorem Declared.reduces (d : Declared) : Reduces d.tokens d.essence := by
  obtain ⟨⟨name, colon, opening, options, closing⟩, comma⟩ := d
  have hoptions := (opening.reduces (by decide) (by decide)).append
    (options.reduces.append (closing.reduces (by decide) (by decide)))
  have hbody := Reduces.colon colon.kind_eq hoptions fun _ => by simp [opening.kind_eq]
  have hall := ((name.reduces (by decide) (by decide)).append hbody).append
    (reduces_optionalComma comma)
  simpa [Declared.tokens, Declaration.tokens, Declared.essence, Declaration.essence] using hall

/-! ## Documents -/

theorem Field.reduces (f : Field) : Reduces f.tokens f.essence := by
  cases f with
  | rules keyword spelled opening block closing =>
      have hrules : Reduces (block.flatMap Rule.tokens) (block.flatMap Rule.essence) :=
        .flatMap fun r _ => r.reduces
      exact (keyword.reduces (by decide) (by decide)).append
        ((opening.reduces (by decide) (by decide)).append
          (hrules.append (closing.reduces (by decide) (by decide))))
  | declarations name notRules opening declared closing =>
      have hdeclared : Reduces (declared.flatMap Declared.tokens)
          (declared.flatMap Declared.essence) :=
        .flatMap fun d _ => d.reduces
      exact (name.reduces (by decide) (by decide)).append
        ((opening.reduces (by decide) (by decide)).append
          (hdeclared.append (closing.reduces (by decide) (by decide))))
  | setting name colon value =>
      exact (name.reduces (by decide) (by decide)).append
        (.colon colon.kind_eq value.reduces fun _ => value.kind_ne_bar)

/-- Of the tokens of a derivation its essence is left. -/
theorem Derivation.reduces (d : Derivation) : Reduces d.tokens d.essence :=
  .flatMap fun f _ => f.reduces

end Surface

/-! ## Texts with the same tree -/

namespace Surface

/-- Trees are the same but for places exactly if the essences of their derivations have
the same lexemes. -/
theorem Derivation.same_iff_essence {d d' : Derivation}
    (h : ∀ t ∈ d.essence, IsLexeme t.kind t.lexeme)
    (h' : ∀ t ∈ d'.essence, IsLexeme t.kind t.lexeme) :
    d.tree.withoutPlaces.same d'.tree.withoutPlaces ↔
      d.essence.map (fun t => (t.kind, t.lexeme)) =
        d'.essence.map fun t => (t.kind, t.lexeme) := by
  have hprints : ∀ d : Derivation,
      Prints d.tree.withoutPlaces (d.essence.map (Token.moved fun _ => .nowhere)) := by
    intro d
    rw [Tree.withoutPlaces, ← d.tree_moved, ← d.essence_moved]
    exact (d.moved _).prints
  have hmoved : ∀ tokens : Tokens,
      Document.print (tokens.map (Token.moved fun _ => .nowhere)) = Document.print tokens := by
    intro tokens
    rw [Document.print, List.map_map]
    rfl
  constructor
  · intro hsame
    have hprint := (hprints d).keyed.print_eq hsame
    rw [(hprints d).print_eq, (hprints d').print_eq, hmoved, hmoved] at hprint
    exact Document.lexemes_eq_of_print h h' hprint
  · intro hlexemes
    rw [d.withoutPlaces_tree_eq hlexemes]
    exact (hprints d').keyed.same_self

end Surface

/-- Two texts have the same tree, but for the places in it, if and only if their tokens have
the same kinds and lexemes after the commas are deleted, and from each rule the bar behind
its colon that has an alternative with items behind it and a further bar. -/
theorem Document.same_iff_essentials {text text' : String} {t t' : Tree} (h : parse text = .ok t)
    (h' : parse text' = .ok t') :
    ∃ scan scan', Scan.ofChars text.toList = .ok scan ∧ Scan.ofChars text'.toList = .ok scan' ∧
      (t.withoutPlaces.same t'.withoutPlaces ↔
        (essentials false scan.all).map (fun t => (t.kind, t.lexeme)) =
          (essentials false scan'.all).map fun t => (t.kind, t.lexeme)) := by
  obtain ⟨scan, d, hscan, htokens, rfl⟩ := Surface.exists_derivation_of_parse h
  obtain ⟨scan', d', hscan', htokens', rfl⟩ := Surface.exists_derivation_of_parse h'
  refine ⟨scan, scan', hscan, hscan', ?_⟩
  have hessentials : ∀ {scan : Scan} {d : Surface.Derivation}, d.tokens = scan.tokens →
      essentials false scan.all = d.essence ++ [scan.endToken] := by
    intro scan d htokens
    rw [Scan.all, ← htokens, d.reduces]
    rfl
  have hlexemes : ∀ {text : List Char} {scan : Scan} {d : Surface.Derivation},
      Scan.ofChars text = .ok scan → d.tokens = scan.tokens →
      ∀ t ∈ d.essence, IsLexeme t.kind t.lexeme := by
    intro text scan d hscan htokens t ht
    have hsublist := essentials_sublist false (d.tokens ++ [])
    rw [d.reduces, List.append_nil] at hsublist
    refine Scan.isLexeme hscan t (htokens ▸ hsublist.subset ?_)
    exact List.mem_append_left _ ht
  rw [hessentials htokens, hessentials htokens', List.map_append, List.map_append,
    Surface.Derivation.same_iff_essence (hlexemes hscan htokens) (hlexemes hscan' htokens')]
  exact (List.append_left_inj [(TokenKind.endOfText, "")]).symm

/-- Commas and an idle bar make no difference, but a bar with no further one outside of
parentheses does. -/
theorem Document.same_iff_essentials_idleBar :
    (∃ t t', parse "t \x7b n: \x7b o: 1, \x7d, \x7d rules \x7b r: | a | b; \x7d" = .ok t ∧
      parse "t \x7b n: \x7b o: 1 \x7d \x7d rules \x7b r: a | b; \x7d" = .ok t' ∧
      t.withoutPlaces.same t'.withoutPlaces) ∧
    ∃ t t', parse "rules \x7b r: | (a | b); \x7d" = .ok t ∧
      parse "rules \x7b r: (a | b); \x7d" = .ok t' ∧ ¬ t.withoutPlaces.same t'.withoutPlaces := by
  constructor
  · obtain ⟨t, ht⟩ := exists_of_isOk (show
      (parse "t \x7b n: \x7b o: 1, \x7d, \x7d rules \x7b r: | a | b; \x7d").isOk by cbv)
    obtain ⟨t', ht'⟩ := exists_of_isOk (show
      (parse "t \x7b n: \x7b o: 1 \x7d \x7d rules \x7b r: a | b; \x7d").isOk by cbv)
    have hlexemes : (Scan.ofChars
        "t \x7b n: \x7b o: 1, \x7d, \x7d rules \x7b r: | a | b; \x7d".toList).map
          (fun scan => (essentials false scan.all).map fun t => (t.kind, t.lexeme)) =
        (Scan.ofChars "t \x7b n: \x7b o: 1 \x7d \x7d rules \x7b r: a | b; \x7d".toList).map
          (fun scan => (essentials false scan.all).map fun t => (t.kind, t.lexeme)) := by
      cbv
    obtain ⟨scan, scan', hscan, hscan', hiff⟩ := same_iff_essentials ht ht'
    rw [hscan, hscan'] at hlexemes
    exact ⟨t, t', ht, ht', hiff.mpr (Except.ok.inj hlexemes)⟩
  · obtain ⟨t, ht⟩ := exists_of_isOk (show (parse "rules \x7b r: | (a | b); \x7d").isOk by cbv)
    obtain ⟨t', ht'⟩ := exists_of_isOk (show (parse "rules \x7b r: (a | b); \x7d").isOk by cbv)
    have hlength : (Scan.ofChars "rules \x7b r: | (a | b); \x7d".toList).map
        (fun scan => (essentials false scan.all).length) = .ok 13 := by
      cbv
    have hlength' : (Scan.ofChars "rules \x7b r: (a | b); \x7d".toList).map
        (fun scan => (essentials false scan.all).length) = .ok 12 := by
      cbv
    obtain ⟨scan, scan', hscan, hscan', hiff⟩ := same_iff_essentials ht ht'
    rw [hscan] at hlength
    rw [hscan'] at hlength'
    refine ⟨t, t', ht, ht', fun hsame => ?_⟩
    have heq := congrArg List.length (hiff.mp hsame)
    rw [List.length_map, List.length_map] at heq
    cases (Except.ok.inj hlength).symm.trans (heq.trans (Except.ok.inj hlength'))

end Rulebook
