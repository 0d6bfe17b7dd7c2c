import Rulebook.Proofs.Document.ErrorPlaces
import Rulebook.Proofs.Document.Moved
import Rulebook.Proofs.Surface.Acceptance
import Rulebook.Proofs.Token.Continuation

/-! # Errors are found as early as possible

The tokens in front of the one that is found wrong begin the text of some document: the
text may be broken off there and be completed. With the one that is found wrong they
begin none. Both are said about texts, and hold of all of them, however they go on.
-/

namespace Rulebook

open Text

namespace Scan.Tiling

variable {text : List Char} {scan : Scan} {i j : Nat} {t u : Token TokenKind}

/-- A token begins in front of the ones behind it. -/
theorem start_lt_start (h : scan.Tiling text) (ht : scan.all[i]? = some t)
    (hu : scan.all[j]? = some u) (hij : i < j) : t.start < u.start := by
  obtain ⟨hi, rfl⟩ := List.getElem?_eq_some_iff.mp ht
  obtain ⟨hj, rfl⟩ := List.getElem?_eq_some_iff.mp hu
  have hbehind := List.pairwise_iff_getElem.mp h.pairwise i j hi hj hij
  have hstands := h.standsIn _ (List.getElem_mem hi)
  refine Nat.lt_of_lt_of_le (Nat.lt_of_le_of_ne hstands.start_le_stop fun hempty => ?_) hbehind
  -- Only the token of the end is empty, and nothing stands behind that one.
  have hlength : i < scan.tokens.length := by
    rw [all, List.length_append, List.length_singleton] at hj
    omega
  have hmem : scan.all[i] ∈ scan.tokens := by
    simp only [all, List.getElem_append_left hlength, List.getElem_mem]
  have hlexeme := hstands.lexeme
  rw [← hempty, List.extract_eq_take_drop, Nat.sub_self, List.take_zero] at hlexeme
  exact h.lexeme_ne _ hmem (String.toList_eq_nil_iff.mp hlexeme)

theorem index_eq_of_start (h : scan.Tiling text) (ht : scan.all[i]? = some t)
    (hu : scan.all[j]? = some u) (hstart : t.start = u.start) : i = j := by
  rcases Nat.lt_trichotomy i j with hij | hij | hij
  · exact absurd hstart (h.start_lt_start ht hu hij).ne
  · exact hij
  · exact absurd hstart (h.start_lt_start hu ht hij).ne'

end Scan.Tiling

namespace Surface.Filler

/-- A filler is a lexeme, and it closes nothing. -/
theorem isLexeme (f : Filler) :
    IsLexeme f.kind f.lexeme ∧ ¬ Piece.closing <:+: f.lexeme.toList := by
  cases f <;> exact ⟨by decide, by decide⟩

end Surface.Filler

namespace Document

open Surface (Derivation Filler)

/-! ## The token that is found wrong -/

/-- An error in a text is found at the token with this index: it is the token that is
reported, or for an empty group the one behind the parenthesis that is reported. -/
inductive FoundAt (text : List Char) (scan : Scan) (e : SyntaxError) : Nat → Prop
  | reported {index : Nat} {t : Token TokenKind} (hfault : e.fault ≠ .emptyGroup)
      (ht : scan.all[index]? = some t) (he : e = .ofToken text e.fault t) :
      FoundAt text scan e index
  | behind {index : Nat} {t : Token TokenKind} (hfault : e.fault = .emptyGroup)
      (ht : scan.all[index]? = some t) (hopen : t.kind = .openParen)
      (he : e = .ofToken text e.fault t) : FoundAt text scan e (index + 1)

/-- The tokens that were taken are those in front of the one that is found wrong. -/
theorem Stuck.foundAt {scan : Scan} {s : Stuck} {front : Tokens} (text : List Char)
    (htokens : scan.tokens = front ++ s.offending) (htells : s.Tells front) :
    FoundAt text scan (s.toError text scan) front.length := by
  have hnext : ∀ left : Tokens, (front ++ left ++ [scan.endToken])[front.length]? =
      some (left.head?.getD scan.endToken) := by
    intro left
    cases left <;> simp
  cases htells with
  | emptyGroup hlast hopen left =>
      obtain ⟨past, rfl⟩ := hlast
      rw [List.length_append]
      refine .behind rfl ?_ hopen rfl
      rw [Scan.all, htokens]
      simp
  | expectedToken | expectedFieldBody | expectedOptionValue | missingSemicolon | unexpectedToken =>
      refine .reported (by simp [toError, SyntaxError.ofToken]) ?_ rfl
      rw [Scan.all, htokens]
      exact hnext _

/-- An error tells at which token it is reported. -/
theorem index_eq_of_ofToken {text : List Char} {scan : Scan} (h : Scan.ofChars text = .ok scan)
    {fault : SyntaxFault} {i j : Nat} {t u : Token TokenKind} (ht : scan.all[i]? = some t)
    (hu : scan.all[j]? = some u)
    (heq : SyntaxError.ofToken text fault t = SyntaxError.ofToken text fault u) : i = j := by
  have htiling := Scan.tiling_of_ofChars h
  have hline : t.line = u.line := congrArg SyntaxError.line heq
  have hcolumn : t.column = u.column := congrArg SyntaxError.column heq
  have htstart := (htiling.standsIn t (List.mem_of_getElem? ht)).pointsInto.offset_eq
  have hustart := (htiling.standsIn u (List.mem_of_getElem? hu)).pointsInto.offset_eq
  rw [hline, hcolumn] at htstart
  exact htiling.index_eq_of_start ht hu (htstart.trans hustart.symm)

theorem FoundAt.unique {text : List Char} {scan : Scan} (h : Scan.ofChars text = .ok scan)
    {e : SyntaxError} {i j : Nat} (hi : FoundAt text scan e i) (hj : FoundAt text scan e j) :
    i = j := by
  cases hi with
  | reported hfault ht he =>
      cases hj with
      | reported _ hu heq => exact index_eq_of_ofToken h ht hu (he.symm.trans heq)
      | behind hempty => exact absurd hempty hfault
  | behind hfault ht _ he =>
      cases hj with
      | reported hnot => exact absurd hfault hnot
      | behind _ hu _ heq =>
          exact congrArg (· + 1) (index_eq_of_ofToken h ht hu (he.symm.trans heq))

/-! ## Texts that go on -/

/-- Tokens that begin a document are followed in some text by others that complete it. -/
theorem exists_text_of_begins {text : List Char} {scan : Scan} (h : Scan.ofChars text = .ok scan)
    {front rest : Tokens} (htokens : scan.tokens = front ++ rest)
    (hbegins : Surface.Begins Derivation.tokens front) :
    ∃ text' scan' tree, Scan.ofChars text' = .ok scan' ∧ front <+: scan'.tokens ∧
      ofTokens scan'.tokens = .ok tree := by
  obtain ⟨d, fillers, hd⟩ := hbegins
  have hlexemes : ∀ l ∈ fillers.map fun f => (f.kind, f.lexeme),
      IsLexeme l.1 l.2 ∧ ¬ Piece.closing <:+: l.2.toList :=
    List.forall_mem_map.mpr fun f _ => f.isLexeme
  obtain ⟨text', scan', more, hscan', htokens', hmore⟩ := Scan.exists_of_take h front.length
    (fun l hl => (hlexemes l hl).1) fun l hl => (hlexemes l hl).2
  rw [htokens, List.take_left] at htokens'
  have hmap : d.tokens.map (fun t => (t.kind, t.lexeme)) =
      scan'.tokens.map fun t => (t.kind, t.lexeme) := by
    rw [hd, htokens', List.map_append, List.map_append, hmore, List.map_map]
    rfl
  obtain ⟨tree, htree⟩ := exists_ofTokens_of_lexemes hmap (ofTokens_complete d)
  exact ⟨text', scan', tree, hscan', ⟨more, htokens'.symm⟩, htree⟩

/-- No text begins with tokens that were taken and the one at which the parser is stuck,
which may be that of the end. -/
theorem not_ofTokens_of_stuck {text text' : List Char} {scan scan' : Scan}
    (hscan : Scan.ofChars text = .ok scan) (hscan' : Scan.ofChars text' = .ok scan')
    {s : Stuck} (hstuck : ofTokens scan.tokens = .error s) {front : Tokens}
    (htokens : scan.tokens = front ++ s.offending)
    (hahead : ∀ t more, s.offending = t :: more → ∀ more' tree,
      ofTokens (front ++ t :: more') ≠ .ok tree)
    (hbegin : scan.lexemes.take (front.length + 1) <+: scan'.lexemes) (tree : Tree) :
    ofTokens scan'.tokens ≠ .ok tree := by
  intro hok
  have hend : scan'.lexemes = scan'.tokens.map (fun t => (t.kind, t.lexeme)) ++
      [(.endOfText, "")] := List.map_append
  have hlexemes : scan.lexemes = front.map (fun t => (t.kind, t.lexeme)) ++
      (s.offending.map (fun t => (t.kind, t.lexeme)) ++ [(.endOfText, "")]) := by
    rw [Scan.lexemes, Scan.all, htokens, List.map_append, List.map_append, List.append_assoc]
    rfl
  rw [hlexemes, hend, ← List.length_map, List.take_length_add_append] at hbegin
  cases hoffending : s.offending with
  | nil =>
      rw [hoffending] at hbegin htokens
      rcases List.prefix_concat_iff.mp hbegin with heq | hwithin
      · have hsame := List.append_cancel_right heq
        rw [← List.append_nil front, ← htokens] at hsame
        obtain ⟨tree', htree'⟩ := exists_ofTokens_of_lexemes hsame.symm hok
        cases hstuck.symm.trans htree'
      · -- The end of a text is no token of another one.
        have hmem := hwithin.subset (List.mem_append_right _ List.mem_cons_self)
        obtain ⟨t, ht, hkind⟩ := List.mem_map.mp hmem
        exact (Scan.tiling_of_ofChars hscan').kind_ne t ht (congrArg Prod.fst hkind)
  | cons t more =>
      rw [hoffending] at hbegin htokens
      rcases List.prefix_concat_iff.mp hbegin with heq | hwithin
      · have hkind := (List.append_inj' heq rfl).2
        have hmem : t ∈ scan.tokens := by
          rw [htokens]
          exact List.mem_append_right _ List.mem_cons_self
        exact (Scan.tiling_of_ofChars hscan).kind_ne t hmem
          (congrArg Prod.fst (List.singleton_inj.mp hkind))
      · obtain ⟨rest, hrest⟩ := hwithin
        obtain ⟨_, behind, hsplit, _, rfl⟩ := List.map_eq_append_iff.mp hrest.symm
        have hsame : scan'.tokens.map (fun t => (t.kind, t.lexeme)) =
            (front ++ t :: behind).map fun t => (t.kind, t.lexeme) := by
          rw [← hrest, List.map_append, List.map_cons, List.append_assoc]
          rfl
        obtain ⟨tree', htree'⟩ := exists_ofTokens_of_lexemes hsame hok
        exact hahead t more hoffending behind tree' htree'

/-- An error that the parser finds is found as early as possible: the tokens in front of
the one at which it is found, as they stand there, are the first ones of a text that is
parsed, and no text is parsed whose first tokens have the kinds and lexemes of these and
of that one, be it the end of the text. -/
theorem parse_error_earliest {text : String} {scan : Scan} {e : SyntaxError}
    (hscan : Scan.ofChars text.toList = .ok scan) (h : parse text = .error e) :
    (∃ index, FoundAt text.toList scan e index) ∧
    ∀ index, FoundAt text.toList scan e index →
      (∃ text' scan' tree, Scan.ofChars text'.toList = .ok scan' ∧
        scan.all.take index <+: scan'.tokens ∧ parse text' = .ok tree) ∧
      ∀ text' scan' tree, Scan.ofChars text'.toList = .ok scan' →
        scan.lexemes.take (index + 1) <+: scan'.lexemes → parse text' ≠ .ok tree := by
  rcases parse_eq_error h with hfailed | ⟨_, s, hscanned, hstuck, rfl⟩
  · cases hscan.symm.trans hfailed
  obtain rfl := Except.ok.inj (hscan.symm.trans hscanned)
  obtain ⟨front, htokens, htells, hbegins, hahead⟩ := ofTokens_eq_error hstuck
  have hfound := Stuck.foundAt text.toList htokens htells
  refine ⟨⟨_, hfound⟩, fun index hindex => ?_⟩
  obtain rfl := hfound.unique hscan hindex
  constructor
  · obtain ⟨text', scan', tree, hscan', hbegin, htree⟩ :=
      exists_text_of_begins hscan htokens hbegins
    rw [← String.toList_ofList (l := text')] at hscan'
    refine ⟨String.ofList text', scan', tree, hscan', ?_, ?_⟩
    · rwa [Scan.all, htokens, List.append_assoc, List.take_left]
    · exact (Surface.parse_eq_ok_iff_ofTokens hscan').mpr htree
  · intro text' scan' tree hscan' hbegin htree
    exact not_ofTokens_of_stuck hscan hscan' hstuck htokens hahead hbegin tree
      ((Surface.parse_eq_ok_iff_ofTokens hscan').mp htree)

/-- An option without a colon: its name may still be completed, its name and its value may not. -/
theorem parse_error_earliest_colon :
    ∃ scan e, Scan.ofChars "t { a: { b 1 } }".toList = .ok scan ∧
      parse "t { a: { b 1 } }" = .error e ∧
      FoundAt "t { a: { b 1 } }".toList scan e 6 ∧
      (∃ text' scan' tree, Scan.ofChars text'.toList = .ok scan' ∧
        scan.all.take 6 <+: scan'.tokens ∧ parse text' = .ok tree) ∧
      ∀ text' scan' tree, Scan.ofChars text'.toList = .ok scan' →
        scan.lexemes.take 7 <+: scan'.lexemes → parse text' ≠ .ok tree := by
  have hscan : (Scan.ofChars "t { a: { b 1 } }".toList).map
      (fun scan => scan.all[6]?) = .ok (some ⟨.number, "1", 11, 12, 1, 12⟩) := by cbv
  obtain ⟨scan, h, ht⟩ := exists_of_map_eq_ok hscan
  have hparse : parse "t { a: { b 1 } }" =
      .error ⟨.expectedToken "COLON" "NUMBER", 1, 12, "t { a: { b 1 } }".toList, 11⟩ := by
    cbv
  have hfound : FoundAt "t { a: { b 1 } }".toList scan
      ⟨.expectedToken "COLON" "NUMBER", 1, 12, "t { a: { b 1 } }".toList, 11⟩ 6 :=
    .reported (by decide) ht (by cbv)
  exact ⟨scan, _, h, hparse, hfound, (parse_error_earliest h hparse).2 6 hfound⟩

end Document

end Rulebook
