import Rulebook.Document.Parse
import Rulebook.Proofs.Reading

/-! # The steps of parsing

What each step over tokens reads, in terms of the steps below it. The bounds on
what is left have served their purpose here and do not show any more.
-/

namespace Rulebook.Document

variable {tokens rest : Tokens}

@[simp] theorem not_reads_stuck {α : Type} {bound : Nat} {fault : SyntaxFault} {left : Tokens}
    {value : α} : ¬ Reads (stuck fault left : Step α bound) value rest := not_reads_error

@[simp] theorem reads_take {kind : TokenKind} {t : Token TokenKind} :
    Reads (take kind tokens) t rest ↔ tokens = t :: rest ∧ t.kind = kind := by
  cases tokens with
  | nil => simp [take]
  | cons u more =>
      simp only [take]
      split
      next hkind =>
        simp only [reads_ok, List.cons.injEq]
        constructor
        · rintro ⟨rfl, rfl⟩
          exact ⟨⟨rfl, rfl⟩, hkind⟩
        · exact fun h => h.1
      next hkind =>
        simp only [not_reads_stuck, List.cons.injEq, false_iff, not_and]
        rintro ⟨rfl, rfl⟩ h
        exact hkind h

theorem skip_of_ne {kind : TokenKind} (h : nextKind tokens ≠ kind) : skip kind tokens = tokens := by
  cases tokens with
  | nil => rfl
  | cons t more => exact if_neg h

theorem skip_cons {kind : TokenKind} {t : Token TokenKind} (h : t.kind = kind) :
    skip kind (t :: rest) = rest := if_pos h

theorem reads_optionValue {t : Tree} :
    Reads (optionValue tokens) t rest ↔
      ∃ word role, tokens = word :: rest ∧ valueRole? word = some role ∧
        t = node .optionValue [(role, [leaf word])] := by
  cases tokens with
  | nil => simp [optionValue]
  | cons u more =>
      simp only [optionValue]
      split
      next role hrole =>
        simp only [reads_ok, List.cons.injEq]
        constructor
        · rintro ⟨rfl, rfl⟩
          exact ⟨u, role, ⟨rfl, rfl⟩, hrole, rfl⟩
        · rintro ⟨word, role', ⟨rfl, rfl⟩, hrole', rfl⟩
          rw [Option.some.inj (hrole'.symm.trans hrole)]
          exact ⟨rfl, rfl⟩
      next hnone =>
        simp only [not_reads_stuck, List.cons.injEq, false_iff]
        rintro ⟨word, role, ⟨rfl, rfl⟩, hrole, rfl⟩
        cases hnone.symm.trans hrole

theorem reads_option {t : Tree} :
    Reads (option tokens) t rest ↔
      ∃ name colon value middle, tokens = name :: colon :: middle ∧ name.kind = .identifier ∧
        colon.kind = .colon ∧ Reads (optionValue middle) value rest ∧
        t = node .option [(Role.name, [leaf name]), (Role.value, [value])] := by
  simp only [option, reads_bind, reads_take, reads_ok, exists_prop]
  constructor
  · rintro ⟨name, afterName, ⟨rfl, hname⟩, colon, middle, ⟨rfl, hcolon⟩, value, _, hvalue, rfl, rfl⟩
    exact ⟨name, colon, value, middle, rfl, hname, hcolon, hvalue, rfl⟩
  · rintro ⟨name, colon, value, middle, rfl, hname, hcolon, hvalue, rfl⟩
    exact ⟨name, _, ⟨rfl, hname⟩, colon, middle, ⟨rfl, hcolon⟩, value, rest, hvalue, rfl, rfl⟩

/-- Options end at a closing brace, or after an option without a comma; a comma
is followed by further options or the end. -/
theorem reads_options {ts : List Tree} :
    Reads (options tokens) ts rest ↔
      (nextKind tokens = .closeBrace ∧ ts = [] ∧ rest = tokens) ∨
      (nextKind tokens ≠ .closeBrace ∧ ∃ first middle, Reads (option tokens) first middle ∧
        ((nextKind middle ≠ .comma ∧ ts = [first] ∧ rest = middle) ∨
          ∃ comma more after, middle = comma :: after ∧ comma.kind = .comma ∧
            Reads (options after) more rest ∧ ts = first :: more)) := by
  rw [options]
  split
  next hclose => simp [hclose, eq_comm]
  next hclose =>
    simp only [hclose, false_and, false_or, not_false_eq_true, true_and, ne_eq, reads_bind]
    refine exists_congr fun first => exists_congr fun middle => ?_
    cases middle with
    | nil => grind [nextKind, reads_ok, → Reads.short]
    | cons t after =>
        by_cases hcomma : t.kind = .comma
        · simp only [hcomma, if_true, reads_bind, reads_ok]
          grind [nextKind]
        · simp only [hcomma, if_false, reads_ok]
          grind [nextKind]

theorem reads_token {t : Tree} :
    Reads (token tokens) t rest ↔
      ∃ name colon opening closing ts after, tokens = name :: colon :: opening :: after ∧
        name.kind = .identifier ∧ colon.kind = .colon ∧ opening.kind = .openBrace ∧
        Reads (options after) ts (closing :: rest) ∧ closing.kind = .closeBrace ∧
        t = node .token [(Role.name, [leaf name]), (Role.options, ts)] := by
  simp only [token, reads_bind, reads_take, reads_ok, exists_prop]
  constructor
  · rintro ⟨name, _, ⟨rfl, hname⟩, colon, _, ⟨rfl, hcolon⟩, opening, after, ⟨rfl, hopening⟩,
      ts, _, hts, closing, _, ⟨rfl, hclosing⟩, rfl, rfl⟩
    exact ⟨name, colon, opening, closing, ts, after, rfl, hname, hcolon, hopening, hts, hclosing, rfl⟩
  · rintro ⟨name, colon, opening, closing, ts, after, rfl, hname, hcolon, hopening, hts, hclosing, rfl⟩
    exact ⟨name, _, ⟨rfl, hname⟩, colon, _, ⟨rfl, hcolon⟩, opening, after, ⟨rfl, hopening⟩,
      ts, _, hts, closing, rest, ⟨rfl, hclosing⟩, rfl, rfl⟩

theorem reads_tokenList {ts : List Tree} :
    Reads (tokenList tokens) ts rest ↔
      (nextKind tokens = .closeBrace ∧ ts = [] ∧ rest = tokens) ∨
      (nextKind tokens ≠ .closeBrace ∧ ∃ first middle more, Reads (token tokens) first middle ∧
        Reads (tokenList (skip .comma middle)) more rest ∧ ts = first :: more) := by
  rw [tokenList]
  split
  next hclose => simp [hclose, eq_comm]
  next hclose =>
    simp only [hclose, reads_bind, reads_ok]
    grind

/-! ## Bodies of rules -/

/-- The role under which a token stands as a scalar. -/
def scalarRole? : TokenKind → Option String
  | .singleQuoted => some Role.singleQuoted
  | .doubleQuoted => some Role.doubleQuoted
  | .identifier => some Role.identifier
  | _ => none

theorem reads_item {t : Tree} :
    Reads (item tokens) t rest ↔
      ∃ value middle, Reads (scalar (label tokens).rest) value middle ∧
        rest = (suffix middle).rest ∧
        t = node .item ([(Role.name, (label tokens).value), (Role.scalar, [value])]
          ++ (suffix middle).value) := by
  rw [item]
  simp only [reads_bind, reads_ok]
  grind

/-- A scalar is a single token, or elements between parentheses, at least one. -/
theorem reads_scalar {t : Tree} :
    Reads (scalar tokens) t rest ↔
      (∃ word role, tokens = word :: rest ∧ scalarRole? word.kind = some role ∧
        t = node .scalar [(role, [leaf word])]) ∨
      (∃ opening closing ts after, tokens = opening :: after ∧ opening.kind = .openParen ∧
        Reads (elements after) ts (closing :: rest) ∧ closing.kind = .closeParen ∧ ts ≠ [] ∧
        t = node .scalar [(Role.group, [node .group [(Role.value, [node .expression
          [(Role.value, [node .choice [(Role.elements, ts)]])]])]])]) := by
  rw [scalar.eq_def]
  cases tokens with
  | nil => simp
  | cons u more =>
      dsimp only
      split
      next hkind => grind [reads_ok, scalarRole?]
      next hkind => grind [reads_ok, scalarRole?]
      next hkind => grind [reads_ok, scalarRole?]
      -- A parenthesis has no role as a scalar, which rules out the first alternative.
      next hkind =>
        have hrole : scalarRole? u.kind = none := by rw [hkind]; rfl
        simp only [reads_bind]
        constructor
        · rintro ⟨ts, middle, hts, h⟩
          split at h
          · exact absurd h not_reads_stuck
          next hne =>
            simp only [reads_bind, reads_take, reads_ok, exists_prop] at h
            obtain ⟨closing, _, ⟨rfl, hclosing⟩, rfl, rfl⟩ := h
            refine Or.inr ⟨u, closing, ts, more, rfl, hkind, hts, hclosing, ?_, rfl⟩
            simpa using hne
        · rintro (⟨word, role, heq, hword, -⟩ | ⟨opening, closing, ts, after, heq, -, hts, hclosing, hne, rfl⟩)
          · obtain ⟨rfl, rfl⟩ := List.cons.inj heq
            cases hrole.symm.trans hword
          · obtain ⟨rfl, rfl⟩ := List.cons.inj heq
            refine ⟨ts, _, hts, ?_⟩
            have hnotEmpty : ts.isEmpty = false := by simpa using hne
            simp only [hnotEmpty, Bool.false_eq_true, if_false, reads_bind, reads_take, reads_ok,
              exists_prop]
            exact ⟨closing, rest, ⟨rfl, hclosing⟩, trivial, rfl⟩
      next hsingle hdouble hname hopen =>
        have hrole : scalarRole? u.kind = none := by
          unfold scalarRole?
          split <;> simp_all
        grind [not_reads_stuck]

/-- Elements go on as long as a bar or the beginning of an item follows. -/
theorem reads_elements {ts : List Tree} :
    Reads (elements tokens) ts rest ↔
      (∃ bar more after, tokens = bar :: after ∧ bar.kind = .bar ∧
        Reads (elements after) more rest ∧ ts = leaf bar :: more) ∨
      (beginsItem (nextKind tokens) ∧ ∃ first middle more, Reads (item tokens) first middle ∧
        Reads (elements middle) more rest ∧ ts = first :: more) ∨
      (nextKind tokens ≠ .bar ∧ ¬ beginsItem (nextKind tokens) ∧ ts = [] ∧ rest = tokens) := by
  rw [elements.eq_def]
  cases tokens with
  | nil => simp [nextKind, beginsItem, eq_comm]
  | cons u more =>
      dsimp only
      split
      next hbar =>
        have hbegins : beginsItem u.kind = false := by rw [hbar]; rfl
        simp only [reads_bind, reads_ok]
        grind [nextKind]
      next hbar =>
        split
        next hbegins =>
          simp only [reads_bind, reads_ok]
          grind [nextKind]
        next hbegins => grind [nextKind, reads_ok]

/-- Items of a sequence go on as long as the beginning of an item follows. -/
theorem reads_expressions {ts : List Tree} :
    Reads (expressions tokens) ts rest ↔
      (beginsItem (nextKind tokens) ∧ ∃ first middle more, Reads (item tokens) first middle ∧
        Reads (expressions middle) more rest ∧
        ts = node .expression [(Role.value, [first])] :: more) ∨
      (¬ beginsItem (nextKind tokens) ∧ ts = [] ∧ rest = tokens) := by
  rw [expressions]
  split
  next hbegins =>
    simp only [hbegins, reads_bind, reads_ok]
    grind
  next hbegins => simp [hbegins, eq_comm]

theorem reads_sequence {t : Tree} :
    Reads (sequence tokens) t rest ↔
      ∃ items, Reads (expressions tokens) items rest ∧
        t = node .sequence [(Role.expression, items)] := by
  simp only [sequence, reads_bind, reads_ok]
  grind

/-- Branches go on as long as a bar follows. -/
theorem reads_branches {ts : List Tree} :
    Reads (branches tokens) ts rest ↔
      (∃ bar first middle more after, tokens = bar :: after ∧ bar.kind = .bar ∧
        Reads (sequence after) first middle ∧ Reads (branches middle) more rest ∧
        ts = branch first :: more) ∨
      (nextKind tokens ≠ .bar ∧ ts = [] ∧ rest = tokens) := by
  rw [branches.eq_def]
  cases tokens with
  | nil => simp [nextKind, eq_comm]
  | cons u more =>
      dsimp only
      split
      next hbar =>
        simp only [reads_bind, reads_ok]
        grind [nextKind]
      next hbar => grind [nextKind, reads_ok]

theorem reads_rule {t : Tree} :
    Reads (rule tokens) t rest ↔
      ∃ name colon semicolon first middle more after, tokens = name :: colon :: after ∧
        name.kind = .identifier ∧ colon.kind = .colon ∧ Reads (sequence after) first middle ∧
        Reads (branches middle) more (semicolon :: rest) ∧ semicolon.kind = .semicolon ∧
        t = node .rule [(Role.name, [leaf name]), (Role.body, leading first middle ++ more)] := by
  simp only [rule, reads_bind, reads_take]
  constructor
  · rintro ⟨name, _, ⟨rfl, hname⟩, colon, after, ⟨rfl, hcolon⟩, first, middle, hfirst,
      more, left, hmore, h⟩
    cases left with
    | nil => exact absurd h not_reads_stuck
    | cons semicolon left =>
        dsimp only at h
        split at h
        next hsemicolon =>
          obtain ⟨rfl, rfl⟩ := reads_ok.mp h
          exact ⟨name, colon, semicolon, first, middle, more, after, rfl, hname, hcolon, hfirst,
            hmore, hsemicolon, rfl⟩
        next => exact absurd h not_reads_stuck
  · rintro ⟨name, colon, semicolon, first, middle, more, after, rfl, hname, hcolon, hfirst, hmore,
      hsemicolon, rfl⟩
    refine ⟨name, _, ⟨rfl, hname⟩, colon, after, ⟨rfl, hcolon⟩, first, middle, hfirst,
      more, _, hmore, ?_⟩
    simp [hsemicolon]

/-! ## Fields -/

theorem reads_ruleList {ts : List Tree} :
    Reads (ruleList tokens) ts rest ↔
      (nextKind tokens = .closeBrace ∧ ts = [] ∧ rest = tokens) ∨
      (nextKind tokens ≠ .closeBrace ∧ ∃ first middle more, Reads (rule tokens) first middle ∧
        Reads (ruleList middle) more rest ∧ ts = first :: more) := by
  rw [ruleList]
  split
  next hclose => simp [hclose, eq_comm]
  next hclose =>
    simp only [hclose, reads_bind, reads_ok]
    grind

theorem reads_rules {t : Tree} :
    Reads (rules tokens) t rest ↔
      ∃ opening closing ts after, tokens = opening :: after ∧ opening.kind = .openBrace ∧
        Reads (ruleList after) ts (closing :: rest) ∧ closing.kind = .closeBrace ∧
        t = node .rules [(Role.rules, ts)] := by
  simp only [rules, reads_bind, reads_take, reads_ok, exists_prop]
  grind

theorem reads_fieldBody {name : Token TokenKind} {t : Tree} :
    Reads (fieldBody name tokens) t rest ↔
      (∃ opening closing ts after, tokens = opening :: after ∧ opening.kind = .openBrace ∧
        Reads (tokenList after) ts (closing :: rest) ∧ closing.kind = .closeBrace ∧
        t = node .field [(Role.name, [leaf name]), (Role.tokens, ts)]) ∨
      (∃ colon value after, tokens = colon :: after ∧ colon.kind = .colon ∧
        Reads (optionValue after) value rest ∧
        t = node .field [(Role.name, [leaf name]), (Role.value, [value])]) := by
  unfold fieldBody
  cases tokens with
  | nil => simp
  | cons u more =>
      dsimp only
      split
      next hopen =>
        simp only [reads_bind, reads_take, reads_ok, exists_prop]
        grind
      next hopen =>
        split
        next hcolon =>
          simp only [reads_bind, reads_ok]
          grind
        next => grind [not_reads_stuck]

theorem reads_field {t : Tree} :
    Reads (field tokens) t rest ↔
      ∃ name after, tokens = name :: after ∧ name.kind = .identifier ∧
        ((name.lexeme = "rules" ∧ nextKind after = .openBrace ∧
            ∃ block, Reads (rules after) block rest ∧
              t = node .field [(Role.rules, [block])]) ∨
          (¬ (name.lexeme = "rules" ∧ nextKind after = .openBrace) ∧
            Reads (fieldBody name after) t rest)) := by
  simp only [field, reads_bind, reads_take]
  constructor
  · rintro ⟨name, after, ⟨rfl, hname⟩, h⟩
    refine ⟨name, after, rfl, hname, ?_⟩
    split at h
    next hrules =>
      simp only [reads_bind, reads_ok] at h
      grind
    next hrules =>
      simp only [reads_bind, reads_ok] at h
      grind
  · rintro ⟨name, after, rfl, hname, h⟩
    refine ⟨name, after, ⟨rfl, hname⟩, ?_⟩
    split
    next hrules =>
      simp only [reads_bind, reads_ok]
      grind
    next hrules =>
      simp only [reads_bind, reads_ok]
      grind

/-- The fields of a document take all tokens. -/
theorem fields_eq_ok {ts : List Tree} :
    fields tokens = .ok ts ↔
      (tokens = [] ∧ ts = []) ∨
      ∃ first middle more, Reads (field tokens) first middle ∧ fields middle = .ok more ∧
        ts = first :: more := by
  rw [fields.eq_def]
  cases tokens with
  | nil => simp [reads_field, eq_comm]
  | cons u more =>
      simp only [reduceCtorEq, false_and, false_or]
      constructor
      · intro h
        cases hfield : field (u :: more) with
        | error e =>
            rw [hfield] at h
            cases h
        | ok first =>
            rw [hfield] at h
            change fields first.rest >>= (fun more => .ok (first.value :: more)) = _ at h
            cases hfields : fields first.rest with
            | error e =>
                rw [hfields] at h
                cases h
            | ok ts' =>
                rw [hfields] at h
                cases h
                exact ⟨_, _, ts', reads_ok.mpr ⟨rfl, rfl⟩, hfields, rfl⟩
      · rintro ⟨first, middle, ts', hfirst, hmore, rfl⟩
        rw [hfirst.eq_ok]
        change fields middle >>= (fun more => .ok (first :: more)) = _
        rw [hmore]
        rfl

end Rulebook.Document
