import Rulebook.Proofs.Sequence
import Rulebook.Proofs.Text.Lines
import Rulebook.Proofs.Text.Quoted
import Rulebook.Proofs.Tree.Moved
import Rulebook.Proofs.Tree.Same
import Rulebook.Token.Piece
import Rulebook.Tree.Outline

/-! # Reading back an outline

An outline has one line for each node and each token. What a line says is called its heading:
the depth, the role, the kind, and the lexeme of a token. Headings can be read off the lines if
kinds and roles are words, and the tree can be read off the headings if no role is used twice
or without children. So such a tree is told by its outline, but for the places of its tokens.
-/

namespace Rulebook

/-- A word: letters, digits and underscores, one or more. -/
def IsWord (s : String) : Prop := s.toList ≠ [] ∧ ∀ c ∈ s.toList, Piece.isIdentifierPart c

/-- The children of a node one by one, each with its role. -/
def Children.entries (children : Children) : List (String × Tree) :=
  children.flatMap fun (role, kids) => kids.map fun s => (role, s)

/-- What a line of an outline says. -/
structure Heading where
  depth : Nat
  role : String
  kind : String
  lexeme? : Option String
  deriving DecidableEq

namespace Heading

/-- The kind, and for a token its lexeme in quotes. -/
def text (h : Heading) : List Char :=
  h.kind.toList ++ (h.lexeme?.map fun lexeme => ' ' :: Text.quoted lexeme.toList).getD []

/-- The line of a heading. -/
def line (indent : List Char) (h : Heading) : List Char :=
  Tree.outlineLine indent h.depth h.role h.text

/-- The kind is a word, and the role is one if there is a role. -/
structure IsPlain (h : Heading) : Prop where
  kind : IsWord h.kind
  role : h.role = "" ∨ IsWord h.role

end Heading

namespace Tree

mutual

/-- The headings of a tree: one for each node and each token, from left to right and each in
front of those below it. -/
def headings (depth : Nat) (role : String) : Tree → List Heading
  | .leaf t => [⟨depth, role, t.kind, some t.lexeme⟩]
  | .node kind children => ⟨depth, role, kind, none⟩ :: roleHeadings (depth + 1) children
  | .plain _ => []

/-- The headings of children, role by role. -/
def roleHeadings (depth : Nat) : List (String × List Tree) → List Heading
  | [] => []
  | (role, kids) :: rest => kidHeadings depth role kids ++ roleHeadings depth rest

/-- The headings of the children under one role. -/
def kidHeadings (depth : Nat) (role : String) : List Tree → List Heading
  | [] => []
  | t :: rest => headings depth role t ++ kidHeadings depth role rest

end

/-- A tree whose outline can be read back: kinds and roles are words, and each node lists a
role once, with children. -/
inductive IsLabeled : Tree → Prop
  | leaf {t : Leaf} (kind : IsWord t.kind) : IsLabeled (.leaf t)
  | node {kind : String} {children : Children} (word : IsWord kind)
      (distinct : (children.map Prod.fst).Nodup)
      (used : ∀ entry ∈ children, IsWord entry.1 ∧ entry.2 ≠ [])
      (kids : ∀ entry ∈ children, ∀ s ∈ entry.2, IsLabeled s) : IsLabeled (.node kind children)

theorem IsLabeled.isKeyed {t : Tree} (h : IsLabeled t) : t.IsKeyed := by
  induction h with
  | leaf => exact .leaf _
  | node _ distinct _ _ ih => exact .node distinct ih

/-! ## Lines -/

theorem kidHeadings_eq_flatMap (depth : Nat) (role : String) (kids : List Tree) :
    kidHeadings depth role kids = kids.flatMap (headings depth role) := by
  induction kids with
  | nil => rfl
  | cons t rest ih => rw [kidHeadings, ih, List.flatMap_cons]

theorem roleHeadings_eq_flatMap (depth : Nat) (children : Children) :
    roleHeadings depth children =
      children.entries.flatMap fun entry => headings depth entry.1 entry.2 := by
  induction children with
  | nil => rfl
  | cons entry rest ih =>
      obtain ⟨role, kids⟩ := entry
      rw [roleHeadings, ih, kidHeadings_eq_flatMap, Children.entries, Children.entries,
        List.flatMap_cons, List.flatMap_append, List.flatMap_map]

section Lines

variable {indent : List Char}

/-- Wherever a tree stands, its outline has the lines of its headings. -/
def OutlinesHeadings (indent : List Char) (t : Tree) : Prop :=
  ∀ depth role, outlineLines indent depth role t =
    some ((headings depth role t).map (Heading.line indent))

theorem kidsOutline_eq {kids : List Tree} (h : ∀ s ∈ kids, OutlinesHeadings indent s)
    (depth : Nat) (role : String) : kidsOutline indent depth role kids =
      some ((kidHeadings depth role kids).map (Heading.line indent)) := by
  induction kids with
  | nil => rfl
  | cons s rest ih =>
      obtain ⟨hs, hrest⟩ := List.forall_mem_cons.mp h
      rw [kidsOutline, hs depth role, ih hrest, kidHeadings, List.map_append]
      rfl

theorem rolesOutline_eq {children : Children}
    (h : ∀ entry ∈ children, ∀ s ∈ entry.2, OutlinesHeadings indent s) (depth : Nat) :
    rolesOutline indent depth children =
      some ((roleHeadings depth children).map (Heading.line indent)) := by
  induction children with
  | nil => rfl
  | cons entry rest ih =>
      obtain ⟨hentry, hrest⟩ := List.forall_mem_cons.mp h
      rw [rolesOutline, kidsOutline_eq hentry depth, ih hrest, roleHeadings, List.map_append]
      rfl

/-- A tree of nodes and tokens has an outline, whose lines are those of its headings. -/
theorem IsKeyed.outlinesHeadings {t : Tree} (h : t.IsKeyed) : OutlinesHeadings indent t := by
  induction h with
  | leaf t => exact fun _ _ => rfl
  | node _ _ ih =>
      intro depth role
      rw [outlineLines, rolesOutline_eq ih, headings, List.map_cons]
      simp [Heading.line, Heading.text]

theorem IsKeyed.outline?_eq {t : Tree} (h : t.IsKeyed) (indent : String) :
    t.outline? indent = some (String.ofList
      (['\n'].intercalate ((headings 0 "" t).map (Heading.line indent.toList)))) := by
  rw [outline?, h.outlinesHeadings 0 ""]
  rfl

theorem IsKeyed.exists_outline {t : Tree} (h : t.IsKeyed) (indent : String) :
    ∃ outline, t.outline? indent = some outline := ⟨_, h.outline?_eq indent⟩

end Lines

/-! ## Headings from lines -/

end Tree

theorem Piece.isPrintable_of_isIdentifierPart {c : Char} (h : isIdentifierPart c) :
    Text.isPrintable c := by
  have hbounds : 32 ≤ c.toNat ∧ c.toNat < 127 := by
    simp only [isIdentifierPart, isIdentifierStart, Text.isAsciiDigit, Bool.or_eq_true,
      Bool.and_eq_true, decide_eq_true_eq, Char.le_def, UInt32.le_iff_toNat_le] at h
    rcases h with ((h | h) | rfl) | h
    · exact ⟨Nat.le_trans (by decide) h.1, Nat.lt_of_le_of_lt h.2 (by decide)⟩
    · exact ⟨Nat.le_trans (by decide) h.1, Nat.lt_of_le_of_lt h.2 (by decide)⟩
    · decide
    · exact ⟨Nat.le_trans (by decide) h.1, Nat.lt_of_le_of_lt h.2 (by decide)⟩
  rw [Text.isPrintable, if_pos hbounds.2]
  exact decide_eq_true hbounds.1

theorem IsWord.isPrintable {s : String} (h : IsWord s) : ∀ c ∈ s.toList, Text.isPrintable c :=
  fun c hc => Piece.isPrintable_of_isIdentifierPart (h.2 c hc)

theorem IsWord.exists_cons {s : String} (h : IsWord s) :
    ∃ c rest, s.toList = c :: rest ∧ Piece.isIdentifierPart c := by
  obtain ⟨c, rest, hs⟩ := List.exists_cons_of_ne_nil h.1
  exact ⟨c, rest, hs, h.2 c (hs ▸ List.mem_cons_self)⟩

namespace Heading

open Sequence (StopsBefore stopsBefore_cons stopsBefore_nil)

variable {a b : Heading} {h : Heading}

/-- What stands on the line of a heading behind the indentation. -/
def body (h : Heading) : List Char :=
  (if h.role.isEmpty then [] else h.role.toList ++ [':', ' ']) ++ h.text

theorem line_eq (indent : List Char) (h : Heading) :
    h.line indent = (List.replicate h.depth indent).flatten ++ h.body := by
  rw [line, Tree.outlineLine, body, List.append_assoc]

/-- The text behind a kind begins with a blank. -/
theorem stopsBefore_lexeme (lexeme? : Option String) : StopsBefore Piece.isIdentifierPart
    ((lexeme?.map fun lexeme => ' ' :: Text.quoted lexeme.toList).getD []) := by
  cases lexeme? with
  | none => exact stopsBefore_nil _
  | some lexeme => exact stopsBefore_cons.mpr (by decide)

theorem text_injective (ha : IsWord a.kind) (hb : IsWord b.kind) (h : a.text = b.text) :
    a.kind = b.kind ∧ a.lexeme? = b.lexeme? := by
  obtain ⟨hkind, hlexeme⟩ := Sequence.append_injective ha.2 hb.2 (stopsBefore_lexeme _)
    (stopsBefore_lexeme _) h
  refine ⟨String.toList_injective hkind, ?_⟩
  cases ha' : a.lexeme? with
  | none =>
      cases hb' : b.lexeme? with
      | none => rfl
      | some => simp [ha', hb'] at hlexeme
  | some lexeme =>
      cases hb' : b.lexeme? with
      | none => simp [ha', hb'] at hlexeme
      | some other =>
          simp only [ha', hb', Option.map_some, Option.getD_some, List.cons.injEq, true_and]
            at hlexeme
          rw [String.toList_injective (Text.quoted_injective hlexeme)]

theorem body_of_role (hrole : IsWord h.role) : h.body = h.role.toList ++ ':' :: ' ' :: h.text := by
  have hne : h.role.isEmpty = false := by
    rw [Bool.eq_false_iff, ne_eq, String.isEmpty_iff]
    intro hempty
    exact hrole.1 (by rw [hempty]; rfl)
  simp [body, hne]

theorem body_of_not_role (hrole : h.role = "") : h.body = h.text := by
  simp [body, hrole]

theorem body_injective (ha : a.IsPlain) (hb : b.IsPlain) (h : a.body = b.body) :
    a.role = b.role ∧ a.kind = b.kind ∧ a.lexeme? = b.lexeme? := by
  -- A role is followed by a colon, and a kind never is.
  have hmixed : ∀ {x y : Heading}, IsWord x.role → y.role = "" → IsWord y.kind →
      x.body ≠ y.body := by
    intro x y hx hy hkind heq
    rw [body_of_role hx, body_of_not_role hy] at heq
    obtain ⟨-, hrest⟩ := Sequence.append_injective hx.2 hkind.2
      (stopsBefore_cons.mpr (by decide)) (stopsBefore_lexeme _) heq
    cases hlexeme : y.lexeme? <;> simp [hlexeme] at hrest
  rcases ha.role with hrole | hrole
  · rcases hb.role with hrole' | hrole'
    · rw [body_of_not_role hrole, body_of_not_role hrole'] at h
      exact ⟨hrole.trans hrole'.symm, text_injective ha.kind hb.kind h⟩
    · exact absurd h.symm (hmixed hrole' hrole ha.kind)
  · rcases hb.role with hrole' | hrole'
    · exact absurd h (hmixed hrole hrole' hb.kind)
    · rw [body_of_role hrole, body_of_role hrole'] at h
      obtain ⟨hroles, hrest⟩ := Sequence.append_injective hrole.2 hrole'.2
        (stopsBefore_cons.mpr (by decide)) (stopsBefore_cons.mpr (by decide)) h
      simp only [List.cons.injEq, true_and] at hrest
      exact ⟨String.toList_injective hroles, text_injective ha.kind hb.kind hrest⟩

/-- Behind the indentation a line goes on with a word. -/
theorem IsPlain.exists_body (hplain : h.IsPlain) :
    ∃ c rest, h.body = c :: rest ∧ Piece.isIdentifierPart c := by
  rcases hplain.role with hrole | hrole
  · obtain ⟨c, rest, hs, hc⟩ := hplain.kind.exists_cons
    exact ⟨c, _, by rw [body_of_not_role hrole, text, hs, List.cons_append], hc⟩
  · obtain ⟨c, rest, hs, hc⟩ := hrole.exists_cons
    exact ⟨c, _, by rw [body_of_role hrole, hs, List.cons_append], hc⟩

/-- The indentation of a line is a run of blanks, two for each level. -/
theorem line_standard (h : Heading) :
    h.line Tree.standardIndent.toList = List.replicate (2 * h.depth) ' ' ++ h.body := by
  have hindent : Tree.standardIndent.toList = List.replicate 2 ' ' := rfl
  rw [line_eq, hindent, List.flatten_replicate_replicate, Nat.mul_comm]

/-- A heading is told by its line. -/
theorem line_injective (ha : a.IsPlain) (hb : b.IsPlain)
    (h : a.line Tree.standardIndent.toList = b.line Tree.standardIndent.toList) : a = b := by
  have hstop : ∀ {x : Heading}, x.IsPlain → StopsBefore (fun c => decide (c = ' ')) x.body := by
    intro x hx
    obtain ⟨c, rest, hbody, hc⟩ := hx.exists_body
    rw [hbody, stopsBefore_cons, decide_eq_false_iff_not]
    rintro rfl
    exact absurd hc (by decide)
  rw [line_standard, line_standard] at h
  obtain ⟨hindent, hbody⟩ :=
    Sequence.append_injective (by simp) (by simp) (hstop ha) (hstop hb) h
  have hdepth := congrArg List.length hindent
  rw [List.length_replicate, List.length_replicate] at hdepth
  obtain ⟨hrole, hkind, hlexeme⟩ := body_injective ha hb hbody
  obtain ⟨depth, role, kind, lexeme?⟩ := a
  obtain ⟨depth', role', kind', lexeme?'⟩ := b
  simp only [mk.injEq]
  exact ⟨by simpa using hdepth, hrole, hkind, hlexeme⟩

/-- The characters of a line print, whatever the lexeme holds. -/
theorem IsPlain.isPrintable_line (hplain : h.IsPlain) :
    ∀ c ∈ h.line Tree.standardIndent.toList, Text.isPrintable c := by
  have htext : ∀ c ∈ h.text, Text.isPrintable c := by
    rw [text, List.forall_mem_append]
    refine ⟨hplain.kind.isPrintable, ?_⟩
    cases h.lexeme? with
    | none => simp
    | some lexeme =>
        exact List.forall_mem_cons.mpr ⟨by decide, fun _ => Text.isPrintable_of_mem_quoted⟩
  have hbody : ∀ c ∈ h.body, Text.isPrintable c := by
    rcases hplain.role with hrole | hrole
    · rwa [body_of_not_role hrole]
    · rw [body_of_role hrole, List.forall_mem_append]
      refine ⟨hrole.isPrintable, ?_⟩
      exact List.forall_mem_cons.mpr ⟨by decide, List.forall_mem_cons.mpr ⟨by decide, htext⟩⟩
  rw [line_standard, List.forall_mem_append]
  refine ⟨fun c hc => ?_, hbody⟩
  rw [List.eq_of_mem_replicate hc]
  decide

theorem newline_notMem_line (hplain : h.IsPlain) :
    '\n' ∉ h.line Tree.standardIndent.toList :=
  Text.newline_notMem_of_isPrintable hplain.isPrintable_line

/-- Headings are told by their lines. -/
theorem lines_injective {as bs : List Heading} (has : ∀ a ∈ as, a.IsPlain)
    (hbs : ∀ b ∈ bs, b.IsPlain)
    (h : as.map (line Tree.standardIndent.toList) = bs.map (line Tree.standardIndent.toList)) :
    as = bs := by
  induction as generalizing bs with
  | nil => rw [List.map_nil, eq_comm, List.map_eq_nil_iff] at h; exact h.symm
  | cons a rest ih =>
      cases bs with
      | nil => cases h
      | cons b more =>
          obtain ⟨ha, hrest⟩ := List.forall_mem_cons.mp has
          obtain ⟨hb, hmore⟩ := List.forall_mem_cons.mp hbs
          obtain ⟨hline, hlines⟩ := List.cons.inj h
          rw [line_injective ha hb hline, ih hrest hmore hlines]

end Heading

namespace Tree

/-! ## Trees from headings -/

theorem IsLabeled.isPlain_headings {t : Tree} (h : IsLabeled t) {depth : Nat} {role : String}
    (hrole : role = "" ∨ IsWord role) : ∀ heading ∈ headings depth role t, heading.IsPlain := by
  induction h generalizing depth role with
  | leaf kind => simpa [headings] using Heading.IsPlain.mk kind hrole
  | node word distinct used kids ih =>
      rw [headings, List.forall_mem_cons]
      refine ⟨⟨word, hrole⟩, ?_⟩
      rw [roleHeadings_eq_flatMap]
      intro heading hheading
      obtain ⟨entry, hentry, hheading⟩ := List.mem_flatMap.mp hheading
      obtain ⟨⟨r, kids'⟩, hmem, hkid⟩ := List.mem_flatMap.mp hentry
      obtain ⟨s, hs, rfl⟩ := List.mem_map.mp hkid
      exact ih _ hmem s hs (.inr (used _ hmem).1) heading hheading

/-- What follows the headings of a tree stands no deeper than the tree. -/
def EndsAt (depth : Nat) (rest : List Heading) : Prop := ∀ h ∈ rest.head?, h.depth ≤ depth

@[simp] theorem endsAt_nil (depth : Nat) : EndsAt depth [] := by
  simp [EndsAt]

theorem headings_head? {t : Tree} (h : IsLabeled t) (depth : Nat) (role : String) :
    ∃ first rest, headings depth role t = first :: rest ∧ first.depth = depth := by
  cases h with
  | leaf => exact ⟨_, _, rfl, rfl⟩
  | node => exact ⟨_, _, headings.eq_2 .., rfl⟩

/-- What the headings of a tree tell: its role, the tree without places, and what follows. -/
def Told (s : Tree) : Prop :=
  ∀ {t : Tree}, IsLabeled t → ∀ {depth role role' rest rest'}, EndsAt depth rest →
    EndsAt depth rest' → headings depth role s ++ rest = headings depth role' t ++ rest' →
      role = role' ∧ s.withoutPlaces = t.withoutPlaces ∧ rest = rest'

/-- An entry without the places in its tree. -/
def entryWithoutPlaces (entry : String × Tree) : String × Tree := (entry.1, entry.2.withoutPlaces)

/-- The same children without the places in their trees. -/
def childrenWithoutPlaces (children : Children) : Children :=
  children.map fun entry => (entry.1, entry.2.map withoutPlaces)

theorem withoutPlaces_node (kind : String) (children : Children) :
    (node kind children).withoutPlaces = node kind (childrenWithoutPlaces children) := by
  rw [withoutPlaces, moved, movedRoles_eq_map]
  rfl

theorem entries_withoutPlaces (children : Children) :
    (childrenWithoutPlaces children).entries = children.entries.map entryWithoutPlaces := by
  simp [childrenWithoutPlaces, Children.entries, List.flatMap_map, List.map_flatMap,
    entryWithoutPlaces, Function.comp_def]

end Tree

namespace Children

/-- Each role is listed once, and with children. -/
structure IsProper (children : Children) : Prop where
  distinct : (children.map Prod.fst).Nodup
  used : ∀ entry ∈ children, entry.2 ≠ []

theorem IsProper.of_cons {entry : String × List Tree} {rest : Children}
    (h : IsProper (entry :: rest)) :
    entry.1 ∉ rest.map Prod.fst ∧ entry.2 ≠ [] ∧ IsProper rest := by
  obtain ⟨hrole, hdistinct⟩ := List.nodup_cons.mp h.distinct
  obtain ⟨hused, husedRest⟩ := List.forall_mem_cons.mp h.used
  exact ⟨hrole, hused, hdistinct, husedRest⟩

theorem IsProper.withoutPlaces {children : Children} (h : children.IsProper) :
    IsProper (Tree.childrenWithoutPlaces children) where
  distinct := by simpa [Tree.childrenWithoutPlaces, Function.comp_def] using h.distinct
  used := by
    intro entry hentry
    obtain ⟨entry', hmem, rfl⟩ := List.mem_map.mp hentry
    simpa using h.used entry' hmem

theorem forall_entries {children : Children} {P : Tree → Prop}
    (h : ∀ entry ∈ children, ∀ s ∈ entry.2, P s) : ∀ entry ∈ children.entries, P entry.2 := by
  intro entry hentry
  obtain ⟨⟨role, kids⟩, hmem, hkid⟩ := List.mem_flatMap.mp hentry
  obtain ⟨s, hs, rfl⟩ := List.mem_map.mp hkid
  exact h _ hmem s hs

theorem entries_cons_ne_nil {role : String} {kids : List Tree} (h : kids ≠ []) (rest : Children) :
    entries ((role, kids) :: rest) ≠ [] :=
  fun hnil => h (List.map_eq_nil_iff.mp (List.append_eq_nil_iff.mp hnil).1)

/-- A role that is not listed has no entries. -/
theorem stopsBefore_entries {role : String} {rest : Children} (h : role ∉ rest.map Prod.fst) :
    Sequence.StopsBefore (fun entry => decide (entry.1 = role)) (entries rest) := by
  intro entry hentry
  obtain ⟨⟨r, kids⟩, hmem, hkid⟩ := List.mem_flatMap.mp (List.mem_of_mem_head? hentry)
  obtain ⟨s, -, rfl⟩ := List.mem_map.mp hkid
  rw [decide_eq_false_iff_not]
  rintro rfl
  exact h (List.mem_map_of_mem hmem)

/-- Children that list each role once, and with children, are told by their entries. -/
theorem entries_injective {as bs : Children} (has : as.IsProper) (hbs : bs.IsProper)
    (h : entries as = entries bs) : as = bs := by
  induction as generalizing bs with
  | nil =>
      cases bs with
      | nil => rfl
      | cons entry more => exact absurd h.symm (entries_cons_ne_nil hbs.of_cons.2.1 more)
  | cons entry rest ih =>
      obtain ⟨role, kids⟩ := entry
      obtain ⟨hrole, hkids, hrest⟩ := has.of_cons
      cases bs with
      | nil => exact absurd h (entries_cons_ne_nil hkids rest)
      | cons entry' more =>
          obtain ⟨role', kids'⟩ := entry'
          obtain ⟨hrole', hkids', hmore⟩ := hbs.of_cons
          obtain rfl : role = role' := by
            obtain ⟨kid, others, rfl⟩ := List.exists_cons_of_ne_nil hkids
            obtain ⟨kid', others', rfl⟩ := List.exists_cons_of_ne_nil hkids'
            exact (Prod.mk.inj (List.cons.inj h).1).1
          obtain ⟨hhere, hfollowing⟩ := Sequence.append_injective (by simp) (by simp)
            (stopsBefore_entries hrole) (stopsBefore_entries hrole') h
          rw [List.map_injective_iff.mpr (fun _ _ hkid => (Prod.mk.inj hkid).2) hhere,
            ih hrest hmore hfollowing]

end Children

namespace Tree

theorem endsAt_flatMap {entries : List (String × Tree)} {rest : List Heading} {depth : Nat}
    (h : ∀ entry ∈ entries, IsLabeled entry.2) (hrest : EndsAt depth rest) :
    EndsAt (depth + 1)
      (entries.flatMap (fun entry => headings (depth + 1) entry.1 entry.2) ++ rest) := by
  cases entries with
  | nil => exact fun heading hheading => Nat.le_succ_of_le (hrest heading hheading)
  | cons entry more =>
      obtain ⟨first, others, hfirst, hdepth⟩ :=
        headings_head? (h entry List.mem_cons_self) (depth + 1) entry.1
      simp [EndsAt, hfirst, hdepth]

/-- Headings of trees in a row tell these trees. -/
theorem told_entries {as bs : List (String × Tree)} {rest rest' : List Heading} {depth : Nat}
    (has : ∀ entry ∈ as, IsLabeled entry.2 ∧ Told entry.2)
    (hbs : ∀ entry ∈ bs, IsLabeled entry.2) (hrest : EndsAt depth rest)
    (hrest' : EndsAt depth rest')
    (h : as.flatMap (fun entry => headings (depth + 1) entry.1 entry.2) ++ rest =
      bs.flatMap (fun entry => headings (depth + 1) entry.1 entry.2) ++ rest') :
    as.map entryWithoutPlaces = bs.map entryWithoutPlaces ∧ rest = rest' := by
  -- Headings of a further tree would stand too deep to follow.
  have hnone : ∀ {entry : String × Tree} {more others}, IsLabeled entry.2 →
      EndsAt depth more → more ≠ headings (depth + 1) entry.1 entry.2 ++ others := by
    rintro entry _ others hentry hmore rfl
    obtain ⟨first, _, hfirst, hdepth⟩ := headings_head? hentry (depth + 1) entry.1
    have hle := hmore first (by rw [hfirst]; rfl)
    omega
  induction as generalizing bs with
  | nil =>
      cases bs with
      | nil => exact ⟨rfl, h⟩
      | cons b more =>
          rw [List.flatMap_cons, List.append_assoc] at h
          exact absurd h (hnone (hbs b List.mem_cons_self) hrest)
  | cons a others ih =>
      obtain ⟨⟨ha, htold⟩, hothers⟩ := List.forall_mem_cons.mp has
      rw [List.flatMap_cons, List.append_assoc] at h
      cases bs with
      | nil => exact absurd h.symm (hnone ha hrest')
      | cons b more =>
          obtain ⟨hb, hmore⟩ := List.forall_mem_cons.mp hbs
          rw [List.flatMap_cons, List.append_assoc] at h
          obtain ⟨hrole, htree, hfollowing⟩ := htold hb
            (endsAt_flatMap (fun entry hentry => (hothers entry hentry).1) hrest)
            (endsAt_flatMap hmore hrest') h
          obtain ⟨hmaps, hrests⟩ := ih hothers hmore hfollowing
          rw [List.map_cons, List.map_cons, hmaps, entryWithoutPlaces, entryWithoutPlaces, hrole,
            htree]
          exact ⟨rfl, hrests⟩

/-- Trees that can be read back are told by their headings, whatever follows these. -/
theorem IsLabeled.told {s : Tree} (hs : IsLabeled s) : Told s := by
  induction hs with
  | @leaf a kind =>
      intro t ht depth role role' rest rest' hrest hrest' h
      cases ht with
      | @leaf b kind' =>
          obtain ⟨hheading, hfollowing⟩ := List.cons.inj h
          obtain ⟨-, hrole, hkind, hlexeme⟩ := Heading.mk.inj hheading
          refine ⟨hrole, ?_, hfollowing⟩
          rw [withoutPlaces, moved, moved, Token.moved, Token.moved, hkind,
            Option.some.inj hlexeme]
      | node => cases (Heading.mk.inj (List.cons.inj h).1).2.2.2
  | @node kind children word distinct used kids ih =>
      intro t ht depth role role' rest rest' hrest hrest' h
      cases ht with
      | leaf => cases (Heading.mk.inj (List.cons.inj h).1).2.2.2
      | @node kind' children' word' distinct' used' kids' =>
          rw [headings, headings, roleHeadings_eq_flatMap, roleHeadings_eq_flatMap] at h
          obtain ⟨hheading, hbelow⟩ := List.cons.inj h
          obtain ⟨-, hrole, hkind, -⟩ := Heading.mk.inj hheading
          have hentries : ∀ entry ∈ children.entries, IsLabeled entry.2 ∧ Told entry.2 :=
            Children.forall_entries (P := fun s => IsLabeled s ∧ Told s)
              fun entry hentry s hs => ⟨kids entry hentry s hs, ih entry hentry s hs⟩
          obtain ⟨hsame, hfollowing⟩ := told_entries hentries (Children.forall_entries kids')
            hrest hrest' hbelow
          refine ⟨hrole, ?_, hfollowing⟩
          have hproper : Children.IsProper children :=
            ⟨distinct, fun entry hentry => (used entry hentry).2⟩
          have hproper' : Children.IsProper children' :=
            ⟨distinct', fun entry hentry => (used' entry hentry).2⟩
          rw [← entries_withoutPlaces, ← entries_withoutPlaces] at hsame
          rw [withoutPlaces_node, withoutPlaces_node, hkind,
            Children.entries_injective hproper.withoutPlaces hproper'.withoutPlaces hsame]

/-! ## Trees from outlines -/

variable {s t : Tree} {outline : String}

/-- The lines of an outline are those of the headings, whatever the lexemes hold. -/
theorem IsLabeled.splitOn_outline (h : IsLabeled t)
    (houtline : t.outline? standardIndent = some outline) :
    outline.toList.splitOn '\n' =
      (headings 0 "" t).map (Heading.line standardIndent.toList) := by
  rw [h.isKeyed.outline?_eq, Option.some.injEq] at houtline
  rw [← houtline, String.toList_ofList]
  refine List.splitOn_intercalate '\n' ?_ ?_
  · intro line hline
    obtain ⟨heading, hheading, rfl⟩ := List.mem_map.mp hline
    exact Heading.newline_notMem_line (h.isPlain_headings (.inl rfl) heading hheading)
  · obtain ⟨first, rest, hfirst, -⟩ := headings_head? h 0 ""
    simp [hfirst]

/-- Trees that can be read back and have the same outline are the same, but for the places of
their tokens. -/
theorem IsLabeled.withoutPlaces_eq_of_outline (hs : IsLabeled s) (ht : IsLabeled t)
    (h : s.outline? standardIndent = t.outline? standardIndent) :
    s.withoutPlaces = t.withoutPlaces := by
  have houtline := hs.isKeyed.outline?_eq standardIndent
  have hlines := (hs.splitOn_outline houtline).symm.trans
    (ht.splitOn_outline (h.symm.trans houtline))
  have hheadings := Heading.lines_injective (hs.isPlain_headings (.inl rfl))
    (ht.isPlain_headings (.inl rfl)) hlines
  have happend : headings 0 "" s ++ [] = headings 0 "" t ++ [] := by rw [hheadings]
  exact (hs.told ht (endsAt_nil 0) (endsAt_nil 0) happend).2.1

section Places

variable (f : Span → Span)

mutual

/-- Places do not show in headings. -/
theorem headings_moved (depth : Nat) (role : String) (t : Tree) :
    headings depth role (t.moved f) = headings depth role t := by
  cases t with
  | leaf | plain => rfl
  | node kind children => rw [moved, headings, headings, roleHeadings_moved]

theorem roleHeadings_moved (depth : Nat) (children : List (String × List Tree)) :
    roleHeadings depth (movedRoles f children) = roleHeadings depth children := by
  cases children with
  | nil => rfl
  | cons entry rest =>
      rw [movedRoles, roleHeadings, roleHeadings, kidHeadings_moved, roleHeadings_moved]

theorem kidHeadings_moved (depth : Nat) (role : String) (kids : List Tree) :
    kidHeadings depth role (movedKids f kids) = kidHeadings depth role kids := by
  cases kids with
  | nil => rfl
  | cons t rest => rw [movedKids, kidHeadings, kidHeadings, headings_moved, kidHeadings_moved]

end

end Places

/-- Trees that are the same but for the places of their tokens have the same outline. -/
theorem IsKeyed.outline_eq_of_withoutPlaces (hs : s.IsKeyed) (ht : t.IsKeyed)
    (h : s.withoutPlaces = t.withoutPlaces) (indent : String) :
    s.outline? indent = t.outline? indent := by
  have hheadings : headings 0 "" s = headings 0 "" t := by
    rw [← headings_moved (fun _ => .nowhere) 0 "" s, ← headings_moved (fun _ => .nowhere) 0 "" t]
    exact congrArg (headings 0 "") h
  rw [hs.outline?_eq, ht.outline?_eq, hheadings]

end Tree

end Rulebook
