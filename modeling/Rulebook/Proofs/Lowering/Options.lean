import Mathlib
import Rulebook.Proofs.Grammar.Encodable
import Rulebook.Proofs.Lowering.Declarations
import Rulebook.Proofs.Lowering.Layout

/-! # Declarations survive lowering

A grammar has one field for each field of its document, in order and under the same name. Its
tokens are the declarations in the token sections and its rules those in the blocks of rules,
each as often as it stands there. Of the options of a declaration a token has each name once,
at the place where it first stands, with the value that it is given last.
-/

namespace Rulebook

open List (Forall₂)

/-! ## Distinct names -/

section

variable {α : Type*} [DecidableEq α]

theorem eraseDups_concat (xs : List α) (x : α) :
    (xs ++ [x]).eraseDups = if x ∈ xs then xs.eraseDups else xs.eraseDups ++ [x] := by
  rw [List.eraseDups_append]
  by_cases hx : x ∈ xs <;> simp [List.removeAll, hx, List.eraseDups_cons]

theorem nodup_eraseDups (xs : List α) : xs.eraseDups.Nodup := by
  induction xs using List.reverseRecOn with
  | nil => exact List.nodup_nil
  | append_singleton front x ih =>
      rw [eraseDups_concat]
      split
      · exact ih
      · next hx =>
          rw [← List.concat_eq_append]
          exact ih.concat (by rwa [List.mem_eraseDups])

end

namespace Surface

open Lowering (lower)

/-! ## Options -/

/-- The name of an option. -/
def OptionEntry.key (o : OptionEntry) : String := o.name.token.lexeme

/-- The names of the options of a declaration, each once and in the order in which they first
stand there. -/
def Declaration.keys (d : Declaration) : List String :=
  (d.options.entries.map OptionEntry.key).eraseDups

/-- An option of a token under a name has the value of the last of the entries with that
name. -/
structure IsLastOption (entries : List OptionEntry) (key : String) (option : Value × Value) :
    Prop where
  key_eq : option.1 = .data (.string key)
  last : ∃ front o back, entries = front ++ o :: back ∧ o.key = key ∧
    (∀ later ∈ back, later.key ≠ key) ∧ lower o.value.tree = .ok option.2

section

variable {entries : List OptionEntry} {o : OptionEntry} {key : String} {option : Value × Value}

theorem IsLastOption.concat (h : IsLastOption entries key option) (hkey : o.key ≠ key) :
    IsLastOption (entries ++ [o]) key option := by
  obtain ⟨front, last, back, hentries, hlast, hback, hlower⟩ := h.last
  refine ⟨h.key_eq, front, last, back ++ [o], ?_, hlast, ?_, hlower⟩
  · rw [hentries, List.append_assoc, List.cons_append]
  · intro later hlater
    rcases List.mem_append.mp hlater with hmem | hmem
    · exact hback later hmem
    · rwa [List.mem_singleton.mp hmem]

theorem isLastOption_self (hvalue : lower o.value.tree = .ok o.value.value) :
    IsLastOption (entries ++ [o]) o.key (.data (.string o.key), o.value.value) :=
  ⟨rfl, entries, o, [], rfl, rfl, by simp, hvalue⟩

theorem putEntry_cons_self (value : Value) (rest : List (Value × Value)) :
    putEntry ((.data (.string o.key), value) :: rest) o =
      (.data (.string o.key), o.value.value) :: rest := by
  have htext : (Value.data (.string o.name.token.lexeme)).isIndefinite = false := rfl
  rw [putEntry, Value.putOption, Value.sameWith_textName, htext]
  exact if_pos (by simp [OptionEntry.key])

theorem putEntry_cons_other (hkey : o.key ≠ key) (value : Value) (rest : List (Value × Value)) :
    putEntry ((.data (.string key), value) :: rest) o =
      (.data (.string key), value) :: putEntry rest o := by
  rw [putEntry, Value.putOption, Value.sameWith_textName, if_neg]
  · rfl
  · simpa [OptionEntry.key] using fun heq => absurd heq.symm hkey

/-- One more entry takes the place of the option with its name, if there is one, and comes
after all options if there is none. -/
theorem forall₂_putEntry {keys : List String} {options : List (Value × Value)}
    (hvalue : lower o.value.tree = .ok o.value.value) (distinct : keys.Nodup)
    (h : Forall₂ (IsLastOption entries) keys options) :
    Forall₂ (IsLastOption (entries ++ [o]))
      (if o.key ∈ keys then keys else keys ++ [o.key]) (putEntry options o) := by
  induction h with
  | nil => exact .cons (isLastOption_self hvalue) .nil
  | @cons key option keys options hoption hrest ih =>
      obtain ⟨hnew, hdistinct⟩ := List.nodup_cons.mp distinct
      obtain ⟨name, value⟩ := option
      obtain rfl : name = .data (.string key) := hoption.key_eq
      by_cases hkey : o.key = key
      · -- The names are distinct, so no other option is that of the new entry.
        subst hkey
        rw [if_pos List.mem_cons_self, putEntry_cons_self]
        have hothers : Forall₂ (IsLastOption (entries ++ [o])) keys options := by
          have hboth := (List.forall₂_and_left keys options).mpr
            ⟨fun key hmem (heq : o.key = key) => hnew (heq ▸ hmem), hrest⟩
          exact hboth.imp fun key option h => h.2.concat h.1
        exact .cons (isLastOption_self hvalue) hothers
      · have hkeys : (if o.key ∈ key :: keys then key :: keys else key :: keys ++ [o.key]) =
            key :: if o.key ∈ keys then keys else keys ++ [o.key] := by
          by_cases hmem : o.key ∈ keys <;> simp [hmem, hkey]
        rw [hkeys, putEntry_cons_other hkey]
        exact .cons (hoption.concat hkey) (ih hdistinct)

/-- The options that entries are put into one by one: the last of each name is left. -/
theorem forall₂_entries (h : ∀ o ∈ entries, lower o.value.tree = .ok o.value.value) :
    Forall₂ (IsLastOption entries) (entries.map OptionEntry.key).eraseDups
      (entries.foldl putEntry []) := by
  induction entries using List.reverseRecOn with
  | nil => exact .nil
  | append_singleton front o ih =>
      have hfront := ih fun o ho => h o (List.mem_append_left _ ho)
      have hput := forall₂_putEntry (h o (by simp)) (nodup_eraseDups _) hfront
      rw [List.map_append, List.map_singleton, eraseDups_concat, List.foldl_append, List.foldl_cons,
        List.foldl_nil]
      simpa only [List.mem_eraseDups] using hput

end

/-! ## What each part becomes -/

/-- What a declaration becomes: a token of its name, whose options have the distinct names of
the declaration. -/
structure Declaration.Becomes (d : Declaration) (v : Value) : Prop where
  lowered : lower d.tree = .ok v
  token : ∃ options, v = .tokenDef (.string d.name.token.lexeme) options ∧
    Forall₂ (IsLastOption d.options.entries) d.keys options

/-- What a rule becomes: a rule of its name. -/
structure Rule.Becomes (r : Rule) (v : Value) : Prop where
  lowered : lower r.tree = .ok v
  rule : ∃ body, v = .ruleDef (.string r.name.token.lexeme) body

/-- The name of a field; that of a block of rules is `rules`. -/
def Field.title : Field → String
  | .rules .. => "rules"
  | .declarations name .. | .setting name .. => name.token.lexeme

/-- Whether a field is a block of rules. -/
def Field.isBlock : Field → Bool
  | .rules .. => true
  | _ => false

/-- What a field becomes, by its name unless it is a block of rules. -/
structure Field.Becomes (f : Field) (v : Value) : Prop where
  lowered : lower f.tree = .ok v
  block : f.isBlock → ∃ rules, v = .rulesField rules (.string "rules")
  tokens : f.isBlock = false → f.title = "tokens" →
    ∃ tokens, v = .tokenSection tokens (.string "tokens")
  other : f.isBlock = false → f.title ≠ "tokens" → v = .otherField (.string f.title)

/-- What the fields of a document become: fields of the same names, with the declarations of
all token sections and the rules of all blocks. -/
structure Derivation.Becomes (d : Derivation) (values : List Value) : Prop where
  fields : Forall₂ Field.Becomes d values
  names : Value.names? values = some (d.map fun f => .string f.title)
  tokens : Forall₂ Declaration.Becomes d.sectionDeclarations (Value.tokens values)
  rules : Forall₂ Rule.Becomes d.rules (Value.rules values)

open Lowering (NumbersRead)

theorem OptionEntry.value_mem_tokens (o : OptionEntry) : o.value.token ∈ o.tokens := by
  simp [OptionEntry.tokens]

theorem Declaration.becomes_value {d : Declaration} (h : NumbersRead d.tokens) :
    d.Becomes d.value := by
  refine ⟨Lowering.lower_declaration_tree h, _, rfl, forall₂_entries ?_⟩
  intro o ho
  apply Lowering.lower_optionValue_tree
  refine h.of_subset fun t ht => Declaration.mem_tokens ho ?_
  rw [List.mem_singleton.mp ht]
  exact o.value_mem_tokens

theorem Rule.becomes_value (r : Rule) : r.Becomes r.value :=
  ⟨Lowering.lower_rule_tree r, r.body, rfl⟩

theorem Field.becomes_value {f : Field} (h : NumbersRead f.tokens) : f.Becomes f.value := by
  have hlower := Lowering.lower_field_tree h
  cases f with
  | rules => exact ⟨hlower, fun _ => ⟨_, rfl⟩, nofun, nofun⟩
  | declarations | setting =>
      refine ⟨hlower, nofun, ?_, ?_⟩
      · intro _ hname
        exact ⟨_, if_pos hname⟩
      · intro _ hname
        exact if_neg hname

theorem name?_namedFieldValue (name : String) (declared : List Declared) :
    (namedFieldValue name declared).name? = some (.string name) := by
  rw [namedFieldValue]
  split
  · next hname => rw [hname]; rfl
  · rfl

theorem Field.name?_value (f : Field) : f.value.name? = some (.string f.title) := by
  cases f with
  | rules => rfl
  | declarations | setting => exact name?_namedFieldValue _ _

theorem Derivation.names?_value (d : Derivation) :
    Value.names? (d.map Field.value) = some (d.map fun f => .string f.title) := by
  rw [Value.names?]
  induction d with
  | nil => rfl
  | cons f rest ih => rw [List.map_cons, List.mapM_cons, f.name?_value, ih]; rfl

theorem Field.mem_tokens_of_section {f : Field} {d : Declaration} (hd : d ∈ f.sectionDeclarations)
    {t : Token TokenKind} (ht : t ∈ d.tokens) : t ∈ f.tokens := by
  cases f with
  | rules | setting => cases hd
  | declarations name notRules opening declared closing =>
      rw [sectionDeclarations] at hd
      split at hd
      · obtain ⟨entry, hentry, rfl⟩ := List.mem_map.mp hd
        exact mem_tokens_of_declared hentry ht
      · cases hd

theorem Derivation.mem_tokens_of_section {d : Derivation} {declaration : Declaration}
    (hd : declaration ∈ d.sectionDeclarations) {t : Token TokenKind} (ht : t ∈ declaration.tokens) :
    t ∈ d.tokens := by
  obtain ⟨f, hf, hmem⟩ := List.mem_flatMap.mp hd
  exact List.mem_flatMap.mpr ⟨f, hf, Field.mem_tokens_of_section hmem ht⟩

/-- The values of the options in token sections are tokens of the document. -/
theorem Derivation.mem_tokens_of_option {d : Derivation} {declaration : Declaration}
    (hd : declaration ∈ d.sectionDeclarations) {o : OptionEntry}
    (ho : o ∈ declaration.options.entries) : o.value.token ∈ d.tokens :=
  mem_tokens_of_section hd (Declaration.mem_tokens ho o.value_mem_tokens)

theorem Derivation.becomes_value {d : Derivation} (h : NumbersRead d.tokens) :
    d.Becomes (d.map Field.value) := by
  refine ⟨?_, d.names?_value, ?_, ?_⟩
  · rw [List.forall₂_map_right_iff, List.forall₂_same]
    intro f hf
    exact Field.becomes_value (h.of_subset fun t ht => List.mem_flatMap.mpr ⟨f, hf, ht⟩)
  · rw [d.tokens_value, List.forall₂_map_right_iff, List.forall₂_same]
    intro declaration hd
    exact Declaration.becomes_value (h.of_subset fun t ht => mem_tokens_of_section hd ht)
  · rw [d.rules_value, List.forall₂_map_right_iff, List.forall₂_same]
    exact fun r _ => r.becomes_value

theorem Derivation.becomes_of_scan {d : Derivation} {text : List Char} {scan : Scan}
    (hscan : Scan.ofChars text = .ok scan) (htokens : d.tokens = scan.tokens) :
    d.Becomes (d.map Field.value) := by
  apply becomes_value
  rw [htokens]
  exact Lowering.numbersRead_scan hscan

end Surface

/-- The grammar of a text has one list of fields. -/
theorem fields_eq_of_lower {text : String} {fields others : List Value}
    (h : lowerText text = .ok (.grammar fields))
    (hlower : (Document.parse text).map Lowering.lower = .ok (.ok (.grammar others))) :
    fields = others := by
  obtain ⟨t, ht, hgrammar⟩ := exists_of_map_eq_ok hlower
  simpa [lowerText, ht, hgrammar] using h.symm

/-- Every text that is parsed is lowered, and its fields, declarations, options and rules are
all found again in the grammar. -/
theorem lowerText_keeps_declarations {text : String} {t : Tree} (h : Document.parse text = .ok t) :
    ∃ (scan : Scan) (d : Surface.Derivation) (fields : List Value),
      Scan.ofChars text.toList = .ok scan ∧ d.tokens = scan.tokens ∧ d.tree = t ∧
        lowerText text = .ok (.grammar fields) ∧ d.Becomes fields := by
  obtain ⟨scan, d, hscan, htokens, htree⟩ := Surface.exists_derivation_of_parse h
  exact ⟨scan, d, _, hscan, htokens, htree, lowerText_eq_ok hscan htokens,
    Surface.Derivation.becomes_of_scan hscan htokens⟩

/-- A document with a token and a rule that are declared twice, an option that is given twice,
and a setting under the name of a block of rules. -/
def repeatedText : String :=
  "tokens \x7bT:\x7ba:1,b:x,a:2\x7d\x7drules:y u\x7b\x7dtokens\x7bT:\x7b\x7d\x7drules\x7br:;r:;\x7d"

/-- The fields of the grammar of that document. -/
def repeatedFields : List Value :=
  [.tokenSection [.tokenDef (.string "T")
      [(.data (.string "a"), .number (.int 2)), (.data (.string "b"), .identifier (.string "x"))]]
      (.string "tokens"),
    .otherField (.string "rules"), .otherField (.string "u"),
    .tokenSection [.tokenDef (.string "T") []] (.string "tokens"),
    .rulesField [.ruleDef (.string "r") [], .ruleDef (.string "r") []] (.string "rules")]

theorem lowerText_keeps_repeated :
    ∃ (t : Tree) (scan : Scan) (d : Surface.Derivation),
      Document.parse repeatedText = .ok t ∧ Scan.ofChars repeatedText.toList = .ok scan ∧
        d.tokens = scan.tokens ∧ d.tree = t ∧
        lowerText repeatedText = .ok (.grammar repeatedFields) ∧ d.Becomes repeatedFields := by
  have hlower : (Document.parse repeatedText).map Lowering.lower =
      .ok (.ok (.grammar repeatedFields)) := by
    cbv
  obtain ⟨t, ht, -⟩ := exists_of_map_eq_ok hlower
  obtain ⟨scan, d, fields, hscan, htokens, htree, htext, hbecomes⟩ :=
    lowerText_keeps_declarations ht
  have heq := fields_eq_of_lower htext hlower
  exact ⟨t, scan, d, ht, hscan, htokens, htree, heq ▸ htext, heq ▸ hbecomes⟩

end Rulebook
