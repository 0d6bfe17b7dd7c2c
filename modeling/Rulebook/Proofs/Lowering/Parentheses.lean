import Rulebook.Proofs.Lowering.Alternatives
import Rulebook.Proofs.Token.Marks

/-! # Parentheses that change nothing

Items that stand next to each other may be put in parentheses, in a rule or at any depth
in its groups: without a label and a suffix the group is a list, which dissolves where the
items stood. So a text keeps its grammar when parentheses are put around them.
-/

namespace Rulebook

namespace Surface

open Document (Tokens)

/-! ## Runs of items -/

/-- A run of items stands in a sequence, between two rows of tokens: it is a part of the
sequence, or it stands among the items next to each other in a group of the sequence. -/
inductive SequenceRun (run : Sequence) : Tokens → Tokens → Sequence → Prop
  | here (front back : Sequence) :
      SequenceRun run (sequenceTokens front) (sequenceTokens back) (front ++ run ++ back)
  | within {before after : Tokens} {items : Sequence} {first : Element} {more : List Element}
      (front back : Sequence) (label : Option Label) (opening : Terminal .openParen)
      (ahead behind : List Element) (closing : Terminal .closeParen) (suffix : Option Suffix)
      (helements : first :: more = ahead ++ (items.map .item ++ behind))
      (hrun : SequenceRun run before after items) :
      SequenceRun run
        (sequenceTokens front ++ labelTokens label ++ opening.token :: elementTokens ahead ++ before)
        (after ++ elementTokens behind ++ closing.token :: suffixTokens suffix ++
          sequenceTokens back)
        (front ++ .mk label (.group opening first more closing) suffix :: back)

/-- A run of items stands in a rule, in front of its bars or behind one of them. -/
inductive RuleRun (run : Sequence) : Tokens → Tokens → Rule → Prop
  | lead {before after : Tokens} {items : Sequence} (name : Terminal .identifier)
      (colon : Terminal .colon) (alternatives : List Alternative) (semicolon : Terminal .semicolon)
      (hrun : SequenceRun run before after items) :
      RuleRun run (name.token :: colon.token :: before)
        (after ++ alternatives.flatMap Alternative.tokens ++ [semicolon.token])
        ⟨name, colon, items, alternatives, semicolon⟩
  | alternative {before after : Tokens} {items : Sequence} (name : Terminal .identifier)
      (colon : Terminal .colon) (lead : Sequence) (front : List Alternative)
      (bar : Terminal .bar) (back : List Alternative) (semicolon : Terminal .semicolon)
      (hrun : SequenceRun run before after items) :
      RuleRun run
        (name.token :: colon.token ::
          (sequenceTokens lead ++ front.flatMap Alternative.tokens ++ bar.token :: before))
        (after ++ back.flatMap Alternative.tokens ++ [semicolon.token])
        ⟨name, colon, lead, front ++ ⟨bar, items⟩ :: back, semicolon⟩

/-- A run of items stands in a document, in a rule of one of its blocks. -/
inductive DocumentRun (run : Sequence) : Tokens → Tokens → Derivation → Prop
  | rules {before after : Tokens} {r : Rule} (front back : List Field)
      (keyword : Terminal .identifier) (spelled : keyword.token.lexeme = "rules")
      (opening : Terminal .openBrace) (ahead behind : List Rule) (closing : Terminal .closeBrace)
      (hrun : RuleRun run before after r) :
      DocumentRun run
        (Derivation.tokens front ++ keyword.token :: opening.token :: ahead.flatMap Rule.tokens ++
          before)
        (after ++ behind.flatMap Rule.tokens ++ closing.token :: Derivation.tokens back)
        (front ++ .rules keyword spelled opening (ahead ++ r :: behind) closing :: back)

/-! ## Tokens around a run -/

theorem sequenceTokens_append (front back : Sequence) :
    sequenceTokens (front ++ back) = sequenceTokens front ++ sequenceTokens back :=
  List.flatMap_append

theorem elementTokens_append (front back : List Element) :
    elementTokens (front ++ back) = elementTokens front ++ elementTokens back := by
  induction front with
  | nil => rfl
  | cons element rest ih =>
      rw [List.cons_append, elementTokens, elementTokens, ih, List.append_assoc]

theorem Scalar.tokens_group {opening : Terminal .openParen} {first : Element}
    {more elements : List Element} {closing : Terminal .closeParen} (h : first :: more = elements) :
    (Scalar.group opening first more closing).tokens =
      opening.token :: (elementTokens elements ++ [closing.token]) := by
  rw [← h, Scalar.tokens, elementTokens, List.cons_append]

variable {run run' : Sequence} {before after : Tokens}

theorem SequenceRun.tokens_eq {items : Sequence} (h : SequenceRun run before after items) :
    sequenceTokens items = before ++ (sequenceTokens run ++ after) := by
  induction h with
  | here front back => rw [sequenceTokens_append, sequenceTokens_append, List.append_assoc]
  | within front back label opening ahead behind closing suffix helements _ ih =>
      rw [sequenceTokens_append, sequenceTokens, sequenceTokens, List.flatMap_cons, Item.tokens,
        Scalar.tokens_group helements, elementTokens_append, elementTokens_items, ih]
      simp [sequenceTokens]

theorem RuleRun.tokens_eq {r : Rule} (h : RuleRun run before after r) :
    r.tokens = before ++ (sequenceTokens run ++ after) := by
  cases h with
  | lead _ _ _ _ hrun =>
      rw [Rule.tokens, hrun.tokens_eq]
      simp
  | alternative _ _ _ _ _ _ _ hrun =>
      rw [Rule.tokens, List.flatMap_append, List.flatMap_cons, Alternative.tokens, hrun.tokens_eq]
      simp

theorem DocumentRun.tokens_eq {d : Derivation} (h : DocumentRun run before after d) :
    d.tokens = before ++ (sequenceTokens run ++ after) := by
  obtain ⟨_, _, _, _, _, _, _, _, hrun⟩ := h
  rw [Derivation.tokens, List.flatMap_append, List.flatMap_cons, Field.tokens,
    List.flatMap_append, List.flatMap_cons, hrun.tokens_eq]
  simp [Derivation.tokens]

/-! ## Another run in its place -/

theorem sequenceValues_append (front back : Sequence) :
    sequenceValues (front ++ back) = sequenceValues front ++ sequenceValues back := by
  simp [sequenceValues, Value.splice, Sequence.splice]

/-- What stands in front of elements adds the same to their parts, whatever they are. -/
theorem elementParts_congr (ahead : List Element) {elements elements' : List Element}
    (h : elementParts elements' = elementParts elements) :
    elementParts (ahead ++ elements') = elementParts (ahead ++ elements) := by
  induction ahead with
  | nil => exact h
  | cons element rest ih => rw [List.cons_append, List.cons_append, elementParts, elementParts, ih]

theorem Scalar.value_group {opening : Terminal .openParen} {first : Element}
    {more elements : List Element} {closing : Terminal .closeParen} (h : first :: more = elements) :
    (Scalar.group opening first more closing).value = groupValue (elementParts elements) := by
  rw [← h, Scalar.value, elementParts]

theorem sequenceTokens_ne_nil (h : run ≠ []) : sequenceTokens run ≠ [] := by
  obtain ⟨item, more, rfl⟩ := List.exists_cons_of_ne_nil h
  exact List.append_ne_nil_of_left_ne_nil item.tokens_ne_nil _

theorem SequenceRun.ne_nil {items : Sequence} (h : SequenceRun run before after items)
    (hne : run ≠ []) : items ≠ [] := by
  cases h with
  | here front back => simp [hne]
  | within => simp

/-- A run may be replaced by another one with the same values, and the sequence around it
keeps its values. -/
theorem SequenceRun.replace {items : Sequence} (h : SequenceRun run before after items)
    (hvalues : sequenceValues run' = sequenceValues run) (hne : run' ≠ []) :
    ∃ items', SequenceRun run' before after items' ∧
      sequenceValues items' = sequenceValues items := by
  induction h with
  | here front back =>
      refine ⟨_, .here front back, ?_⟩
      simp only [sequenceValues_append, hvalues]
  | @within before after items first more front back label opening ahead behind closing suffix
      helements _ ih =>
      obtain ⟨items', hrun', heq⟩ := ih
      have hfull : ahead ++ (items'.map Element.item ++ behind) ≠ [] := by
        simp [hrun'.ne_nil hne]
      obtain ⟨first', more', helements'⟩ := List.exists_cons_of_ne_nil hfull
      refine ⟨_, .within front back label opening ahead behind closing suffix helements'.symm hrun',
        ?_⟩
      have hparts : elementParts (ahead ++ (items'.map .item ++ behind)) =
          elementParts (ahead ++ (items.map .item ++ behind)) := by
        refine elementParts_congr ahead ?_
        rw [elementParts_items, elementParts_items, heq]
      rw [sequenceValues_append, sequenceValues_append, sequenceValues_cons, sequenceValues_cons,
        Item.value, Item.value, Scalar.value_group helements, Scalar.value_group helements'.symm,
        hparts]

theorem RuleRun.replace {r : Rule} (h : RuleRun run before after r)
    (hvalues : sequenceValues run' = sequenceValues run) (hne : run ≠ []) (hne' : run' ≠ []) :
    ∃ r', RuleRun run' before after r' ∧ r'.value = r.value := by
  cases h with
  | lead name colon alternatives semicolon hrun =>
      obtain ⟨items', hrun', heq⟩ := hrun.replace hvalues hne'
      refine ⟨_, .lead name colon alternatives semicolon hrun', ?_⟩
      simp [Rule.value, Rule.body, Rule.branches, heq, hrun.ne_nil hne, hrun'.ne_nil hne']
  | alternative name colon lead front bar back semicolon hrun =>
      obtain ⟨items', hrun', heq⟩ := hrun.replace hvalues hne'
      refine ⟨_, .alternative name colon lead front bar back semicolon hrun', ?_⟩
      simp [Rule.value, Rule.body, Rule.branches, heq]

/-- A run in a document may be replaced by another one with the same values, and the
document keeps its value. -/
theorem DocumentRun.replace {d : Derivation} (h : DocumentRun run before after d)
    (hvalues : sequenceValues run' = sequenceValues run) (hne : run ≠ []) (hne' : run' ≠ []) :
    ∃ d', DocumentRun run' before after d' ∧ d'.value = d.value := by
  obtain ⟨front, back, keyword, spelled, opening, ahead, behind, closing, hrun⟩ := h
  obtain ⟨r', hrun', heq⟩ := hrun.replace hvalues hne hne'
  refine ⟨_, .rules front back keyword spelled opening ahead behind closing hrun', ?_⟩
  simp [Derivation.value, Field.value, heq]

/-! ## A run in parentheses -/

/-- Items in parentheses are one item, whose list dissolves. -/
theorem exists_enclosed (opening : Terminal .openParen) (closing : Terminal .closeParen)
    (hne : run ≠ []) :
    ∃ item : Item, item.tokens = opening.token :: (sequenceTokens run ++ [closing.token]) ∧
      sequenceValues [item] = sequenceValues run := by
  have helements : run.map Element.item ++ [] ≠ [] := by simpa using hne
  obtain ⟨item, htokens, hvalue⟩ := exists_groupItem opening closing helements
  have hparts : groupValue (elementParts (run.map .item ++ [])) = .list (sequenceValues run) := by
    rw [elementParts_items, elementParts, List.modifyHead_cons, List.append_nil]
    rfl
  rw [elementTokens_items, elementTokens, List.append_nil] at htokens
  refine ⟨item, htokens, ?_⟩
  have hlist : Value.splice [.list (sequenceValues run)] = sequenceValues run :=
    List.flatMap_singleton ..
  rw [sequenceValues_cons, hvalue, hparts, hlist]
  exact List.append_nil _

/-- The lexemes of tokens, those in the middle in parentheses. -/
def enclosedLexemes (front middle back : Tokens) : List Lexeme :=
  front.map (fun t => (t.kind, t.lexeme)) ++ (.openParen, "(") ::
    (middle.map (fun t => (t.kind, t.lexeme)) ++ (.closeParen, ")") ::
      back.map fun t => (t.kind, t.lexeme))

/-- Tokens that put a run of a document in parentheses derive a document of the same value. -/
theorem DocumentRun.exists_enclosed {d : Derivation} (h : DocumentRun run before after d)
    (hne : run ≠ []) {tokens : Tokens}
    (htokens : Spelled tokens (enclosedLexemes before (sequenceTokens run) after)) :
    ∃ d' : Derivation, d'.tokens = tokens ∧ d'.value = d.value := by
  obtain ⟨item, hitem, hvalues⟩ := Surface.exists_enclosed (spelling .openParen "(")
    (spelling .closeParen ")") hne
  obtain ⟨d', hrun', hvalue'⟩ := h.replace hvalues hne (List.cons_ne_nil item [])
  have hspelled : Spelled d'.tokens (enclosedLexemes before (sequenceTokens run) after) := by
    rw [hrun'.tokens_eq, sequenceTokens, List.flatMap_singleton, hitem]
    simp [Spelled, enclosedLexemes, spelling]
  obtain ⟨d'', htokens'', hvalue''⟩ := exists_derivation_of_lexemes (hspelled.trans htokens.symm)
  exact ⟨d'', htokens'', hvalue''.trans hvalue'⟩

end Surface

/-! ## Parentheses in a text -/

/-- A text with parentheses from one place to another behind it. -/
def Text.enclose (start stop : Nat) (text : List Char) : List Char :=
  put '(' start (put ')' stop text)

/-- Parentheses around tokens in a row are two more tokens, and all others keep their kinds
and lexemes. -/
theorem Scan.enclose {text : List Char} {scan : Scan} (h : ofChars text = .ok scan)
    {front middle back : Document.Tokens} (hsplit : scan.tokens = front ++ (middle ++ back))
    {first last : Token TokenKind} (hfirst : first ∈ middle.head?) (hlast : last ∈ middle.getLast?) :
    ∃ after, ofChars (Text.enclose first.start last.stop text) = .ok after ∧
      Surface.Spelled after.tokens (Surface.enclosedLexemes front middle back) := by
  obtain ⟨more, rfl⟩ := List.head?_eq_some_iff.mp hfirst
  rw [← List.append_assoc] at hsplit
  have hbehind : Token.Between (front ++ first :: more) back last.stop := by
    refine .inl ⟨last, ?_, rfl⟩
    rw [List.getLast?_append, Option.mem_def.mp hlast]
    rfl
  obtain ⟨closed, closing, moved, hclosed, htokens, hclosing, hmoved⟩ :=
    insert_mark .closeParen h (by decide) hsplit hbehind
  rw [List.append_assoc] at htokens
  have hahead : Token.Between front (first :: more ++ closing :: moved) first.start :=
    .inr ⟨first, rfl, rfl⟩
  obtain ⟨after, opening, moved', hafter, htokens', hopening, hmoved'⟩ :=
    insert_mark .openParen hclosed (by decide) htokens hahead
  refine ⟨after, hafter, ?_⟩
  rw [Surface.Spelled, htokens', List.map_append, List.map_cons, hmoved', hopening,
    List.map_append, List.map_cons, List.map_cons, hmoved, hclosing]
  rfl

/-- A text with a grammar keeps it when items that stand next to each other are put in
parentheses, wherever they stand in its rules. So does every text with these tokens, however
they are placed. -/
theorem lowerText_enclose {text : String} {grammar : Value} (h : lowerText text = .ok grammar) :
    ∃ (scan : Scan) (d : Surface.Derivation),
      Scan.ofChars text.toList = .ok scan ∧ d.tokens = scan.tokens ∧
        ∀ {run : Surface.Sequence} {before after : Document.Tokens},
          Surface.DocumentRun run before after d → run ≠ [] →
          (∃ first ∈ (Surface.sequenceTokens run).head?,
            ∃ last ∈ (Surface.sequenceTokens run).getLast?,
              lowerText (String.ofList (Text.enclose first.start last.stop text.toList)) =
                .ok grammar) ∧
          ∀ text' scan', Scan.ofChars text'.toList = .ok scan' →
            Surface.Spelled scan'.tokens
              (Surface.enclosedLexemes before (Surface.sequenceTokens run) after) →
            lowerText text' = .ok grammar := by
  obtain ⟨scan, d, hscan, hd, rfl⟩ := exists_derivation_of_lowerText h
  refine ⟨scan, d, hscan, hd, fun {run before after} hrun hne => ?_⟩
  have hspelled : ∀ text' scan', Scan.ofChars text'.toList = .ok scan' →
      Surface.Spelled scan'.tokens
        (Surface.enclosedLexemes before (Surface.sequenceTokens run) after) →
      lowerText text' = .ok d.value := by
    intro text' scan' hscan' htokens
    obtain ⟨d', hd', hvalue⟩ := hrun.exists_enclosed hne htokens
    rw [lowerText_eq_ok hscan' hd', hvalue]
  obtain ⟨first, hfirst⟩ := Option.ne_none_iff_exists'.mp
    (mt List.head?_eq_none_iff.mp (Surface.sequenceTokens_ne_nil hne))
  obtain ⟨last, hlast⟩ := Option.ne_none_iff_exists'.mp
    (mt List.getLast?_eq_none_iff.mp (Surface.sequenceTokens_ne_nil hne))
  obtain ⟨after', hafter', htokens⟩ := Scan.enclose hscan (hd.symm.trans hrun.tokens_eq) hfirst hlast
  refine ⟨⟨first, hfirst, last, hlast, hspelled _ after' ?_ htokens⟩, hspelled⟩
  rwa [String.toList_ofList]

namespace Surface

/-- A terminal in the first line of a text. -/
def inFirstLine (kind : TokenKind) (text : String) (start : Nat) : Terminal kind :=
  ⟨⟨kind, text, start, start + text.length, 1, start + 1⟩, rfl⟩

/-- The items of `b c`. -/
def twoNames : Sequence :=
  [.mk none (.name (inFirstLine .identifier "b" 14)) none,
   .mk none (.name (inFirstLine .identifier "c" 16)) none]

/-- The elements of `b c | d`. -/
def choiceElements : List Element :=
  twoNames.map .item ++
    [.bar (inFirstLine .bar "|" 18), .item (.mk none (.name (inFirstLine .identifier "d" 20)) none)]

/-- The derivation of `rules { r: x=(b c | d)* e; }`. -/
def repeatedChoice : Derivation :=
  [.rules (inFirstLine .identifier "rules" 0) rfl (inFirstLine .openBrace "\x7b" 6)
    [⟨inFirstLine .identifier "r" 8, inFirstLine .colon ":" 9,
      [.mk (some ⟨inFirstLine .identifier "x" 11, inFirstLine .equals "=" 12⟩)
        (.group (inFirstLine .openParen "(" 13) (choiceElements.head (by decide)) choiceElements.tail
          (inFirstLine .closeParen ")" 21))
        (some (.many (inFirstLine .star "*" 22))),
       .mk none (.name (inFirstLine .identifier "e" 24)) none],
      [], inFirstLine .semicolon ";" 25⟩]
    (inFirstLine .closeBrace "\x7d" 27)]

end Surface

/-- Two items in the first part of a group with a label and a suffix. -/
theorem lowerText_enclose_inPart :
    ∃ grammar, lowerText "rules \x7b r: x=(b c | d)* e; \x7d" = .ok grammar ∧
      lowerText "rules \x7b r: x=((b c) | d)* e; \x7d" = .ok grammar := by
  have hscan : (Scan.ofChars "rules \x7b r: x=(b c | d)* e; \x7d".toList).map Scan.tokens =
      .ok Surface.repeatedChoice.tokens := by
    cbv
  obtain ⟨scan, h, htokens⟩ := exists_of_map_eq_ok hscan
  have hgrammar := lowerText_eq_ok h htokens.symm
  obtain ⟨scan', d, hscan', hd, henclose⟩ := lowerText_enclose hgrammar
  obtain rfl : scan' = scan := Except.ok.inj (hscan'.symm.trans h)
  obtain rfl : d = Surface.repeatedChoice :=
    Surface.Derivation.tokens_injective (hd.trans htokens)
  have hrun : Surface.DocumentRun Surface.twoNames _ _ Surface.repeatedChoice :=
    .rules [] [] _ rfl _ [] [] _ (.lead _ _ [] _ (.within [] _ _ _ [] _ _ _ rfl (.here [] [])))
  obtain ⟨⟨first, hfirst, last, hlast, henclosed⟩, -⟩ := henclose hrun (by simp [Surface.twoNames])
  cases hfirst
  cases hlast
  exact ⟨_, hgrammar, henclosed⟩

end Rulebook
