import Mathlib
import Rulebook.Proofs.Token.Tiling
import Rulebook.Token.Stream

/-! # Steps on a token stream

Whoever reads a stream looks ahead, takes tokens and reports faults, in any order and for as long
as it likes. Only a token that is taken moves the stream, and it does so by one place. So the
tokens taken are all tokens of the text in their order, and then its end again and again.
-/

namespace Rulebook

/-- The index of the end of the text among all tokens. -/
def Scan.endIndex (scan : Scan) : Nat := scan.all.findIdx (·.kind = .endOfText)

theorem Scan.endIndex_of_ofChars {text : List Char} {scan : Scan} (h : ofChars text = .ok scan) :
    scan.endIndex = scan.tokens.length := by
  have hnone : ∀ t ∈ scan.tokens, decide (t.kind = .endOfText) = false := fun t ht =>
    decide_eq_false ((tiling_of_ofChars h).kind_ne t ht)
  have hend : scan.endToken.kind = .endOfText := rfl
  rw [endIndex, all, List.findIdx_append, List.findIdx_eq_length_of_false hnone]
  simp [hend]

namespace TokenStream

variable {s : TokenStream}

theorem all_ofScan (text : List Char) (scan : Scan) :
    (ofScan text scan).all = scan.all.map Token.toLeaf := by
  simp [all, ofScan, Scan.all]

/-! ## Looking ahead -/

theorem ahead_advance (s : TokenStream) (count : Nat) :
    s.advance.ahead count = s.ahead (count + 1) := by
  simp only [ahead, advance, Nat.add_assoc, Nat.add_comm 1]

/-- What is ahead is a token of the text, or the last one from there on. -/
theorem getElem?_all (s : TokenStream) (count : Nat) :
    s.all[min (s.position + count) s.tokens.length]? = some (s.ahead count) := by
  rw [all, ahead, List.getD_eq_getElem?_getD]
  rcases Nat.lt_or_ge (s.position + count) s.tokens.length with hlt | hge
  · rw [Nat.min_eq_left hlt.le, List.getElem?_append_left hlt, List.getElem?_eq_getElem hlt,
      Option.getD_some]
  · rw [Nat.min_eq_right hge, List.getElem?_concat_length, List.getElem?_eq_none hge,
      Option.getD_none]

/-- Looking ahead never leads beyond the last token. -/
theorem peek?_natCast (s : TokenStream) (count : Nat) : s.peek? count = some (s.ahead count) := by
  have hplace : min ((s.position : Int) + count) s.tokens.length =
      (min (s.position + count) s.tokens.length : Nat) := by omega
  have hnonneg : ¬ ((min (s.position + count) s.tokens.length : Nat) : Int) < 0 := by omega
  rw [← getElem?_all, peek?]
  simp only [hplace, hnonneg, if_false, Int.toNat_natCast]

/-! ## Taking a token -/

/-- A program on a stream that is kept: an error leaves a stream, too. -/
abbrev Program (α : Type) := EStateM SyntaxError TokenStream α

/-- Takes the next token, which must be of a kind. -/
def demand (kind : String) : Program Leaf := do
  let s ← get
  if s.next.kind ≠ kind then throw (s.failAt (.expectedToken kind s.next.kind) s.next)
  set s.advance
  return s.next

/-- Demands the next token if it is of a kind. -/
def accept (kind : String) : Program (Option Leaf) := do
  let s ← get
  if s.next.kind = kind then return some (← demand kind)
  return none

theorem run_demand_of_eq {kind : String} (h : s.next.kind = kind) :
    (demand kind).run s = .ok s.next s.advance := by
  rw [demand, EStateM.run_bind, EStateM.run_get]
  simp only [h, ne_eq, not_true_eq_false, if_false, EStateM.run_bind, EStateM.run_set,
    EStateM.run_pure]

theorem run_demand_of_ne {kind : String} (h : s.next.kind ≠ kind) :
    (demand kind).run s = .error (s.fail (.expectedToken kind s.next.kind)) s := by
  rw [demand, EStateM.run_bind, EStateM.run_get]
  simp only [if_pos h]
  rfl

theorem run_accept_of_eq {kind : String} (h : s.next.kind = kind) :
    (accept kind).run s = .ok (some s.next) s.advance := by
  rw [accept, EStateM.run_bind, EStateM.run_get]
  simp only [if_pos h, EStateM.run_bind, run_demand_of_eq h, EStateM.run_pure]

theorem run_accept_of_ne {kind : String} (h : s.next.kind ≠ kind) :
    (accept kind).run s = .ok none s := by
  rw [accept, EStateM.run_bind, EStateM.run_get]
  simp only [if_neg h, EStateM.run_pure]

/-- To demand a token is to take it from a stream that is kept: an error leaves it as it was. -/
theorem run_demand (kind : String) (s : TokenStream) :
    (demand kind).run s = match s.take kind with
      | .ok (t, next) => .ok t next
      | .error e => .error e s := by
  by_cases h : s.next.kind = kind
  · simp [run_demand_of_eq h, take, take?, h]
  · simp [run_demand_of_ne h, take, take?, h]

theorem run_accept (kind : String) (s : TokenStream) :
    (accept kind).run s = match s.take? kind with
      | some (t, next) => .ok (some t) next
      | none => .ok none s := by
  by_cases h : s.next.kind = kind
  · simp [run_accept_of_eq h, take?, h]
  · simp [run_accept_of_ne h, take?, h]

theorem take_eq_ok_iff {kind : String} {taken : Leaf × TokenStream} :
    s.take kind = .ok taken ↔ s.take? kind = some taken := by
  rw [take]
  cases s.take? kind <;> simp

theorem take?_eq_some_iff {kind : String} {t : Leaf} {next : TokenStream} :
    s.take? kind = some (t, next) ↔ s.peek? 0 = some t ∧ t.kind = kind ∧ next = s.advance := by
  have hpeek : s.peek? 0 = some s.next := peek?_natCast s 0
  rw [take?, hpeek]
  constructor
  · intro h
    split at h
    · next hkind =>
        cases h
        exact ⟨rfl, hkind, rfl⟩
    · cases h
  · rintro ⟨hnext, rfl, rfl⟩
    cases hnext
    rw [if_pos rfl]

/-! ## Steps -/

/-- What is done with a stream: to look at a token ahead, to accept or to demand a token of a kind,
and to report a fault, at a token or else at the next one. -/
inductive Step
  | look (count : Nat)
  | accept (kind : String)
  | demand (kind : String)
  | report (fault : SyntaxFault) (place? : Option Leaf)

/-- What comes of a step: a token is shown or none is there, a token is taken or left, or there is
an error, which is raised or handed over. -/
inductive Answer
  | shown (t? : Option Leaf)
  | taken (t : Leaf)
  | left
  | raised (e : SyntaxError)
  | reported (e : SyntaxError)

/-- The token that is taken. -/
def Answer.taken? : Answer → Option Leaf
  | .taken t => some t
  | _ => none

/-- What a step does with the stream that it finds. -/
def Step.program : Step → Program Answer
  | .look count => do
      let s ← get
      return .shown (s.peek? count)
  | .accept kind => do
      let t? ← TokenStream.accept kind
      return (t?.map .taken).getD .left
  | .demand kind => do
      let t ← TokenStream.demand kind
      return .taken t
  | .report fault place? => do
      let s ← get
      return .reported ((place?.map (s.failAt fault)).getD (s.fail fault))

/-- Does a step, and gives the stream that it leaves. -/
def Step.run (s : TokenStream) (step : Step) : Answer × TokenStream :=
  match step.program.run s with
  | .ok answer next => (answer, next)
  | .error e next => (.raised e, next)

/-- The stream after steps. -/
def after (s : TokenStream) (steps : List Step) : TokenStream :=
  steps.foldl (fun state step => (step.run state).2) s

/-- The tokens that steps take, one after the other. -/
def taken (s : TokenStream) : List Step → List Leaf
  | [] => []
  | step :: rest => (step.run s).1.taken?.toList ++ taken (step.run s).2 rest

/-- A step takes the next token, and the stream goes on by one place, or it takes none, and the
stream stays as it is. -/
theorem run_step (s : TokenStream) (step : Step) :
    step.run s = (.taken s.next, s.advance) ∨
      (step.run s).1.taken? = none ∧ (step.run s).2 = s := by
  rw [Step.run]
  cases step with
  | look count => exact .inr ⟨rfl, rfl⟩
  | accept kind =>
      rw [Step.program, EStateM.run_bind]
      by_cases h : s.next.kind = kind
      · rw [run_accept_of_eq h]
        exact .inl rfl
      · rw [run_accept_of_ne h]
        exact .inr ⟨rfl, rfl⟩
  | demand kind =>
      rw [Step.program, EStateM.run_bind]
      by_cases h : s.next.kind = kind
      · rw [run_demand_of_eq h]
        exact .inl rfl
      · rw [run_demand_of_ne h]
        exact .inr ⟨rfl, rfl⟩
  | report fault place? => exact .inr ⟨rfl, rfl⟩

/-- Steps move a stream by one place for each token that they take. -/
theorem after_eq (s : TokenStream) (steps : List Step) :
    after s steps = { s with position := s.position + (taken s steps).length } := by
  induction steps generalizing s with
  | nil => rfl
  | cons step rest ih =>
      rw [after, List.foldl_cons, ← after, ih, taken]
      rcases run_step s step with h | ⟨hnone, hsame⟩
      · simp only [h, Answer.taken?, Option.toList_some, List.singleton_append, List.length_cons,
          advance, Nat.add_assoc, Nat.add_comm 1]
      · rw [hnone, hsame]
        rfl

/-- Steps take the tokens that are ahead, from the next one on. -/
theorem eq_ahead_of_taken {steps : List Step} {n : Nat} {t : Leaf}
    (h : (taken s steps)[n]? = some t) : t = s.ahead n := by
  induction steps generalizing s n with
  | nil => cases h
  | cons step rest ih =>
      rw [taken] at h
      rcases run_step s step with htaken | ⟨hnone, hsame⟩
      · -- What the other steps take is one place further on.
        rw [htaken] at h
        cases n with
        | zero => exact (Option.some.inj h).symm
        | succ n => exact (ih h).trans (ahead_advance s n)
      · rw [hnone, hsame] at h
        exact ih h

/-- What is ahead in the stream of a scan, at any position. -/
theorem getElem?_scan {text : List Char} {scan : Scan} (h : Scan.ofChars text = .ok scan)
    (position count : Nat) :
    (scan.all.map Token.toLeaf)[min (position + count) scan.endIndex]? =
      some (ahead { ofScan text scan with position } count) := by
  have hlength : scan.endIndex = (ofScan text scan).tokens.length := by
    rw [Scan.endIndex_of_ofChars h, ofScan, List.length_map]
  rw [← all_ofScan text, hlength]
  exact getElem?_all { ofScan text scan with position } count

/-- The stream of a scan after steps, whatever they are. The tokens that were taken are the tokens
of the text in their order, and then its end again and again, and the stream has moved by one
place for each of them. A step that takes no token leaves the stream as it is. To demand a token
succeeds where one is accepted, which is where the next one is of the kind. Looking ahead shows a
token wherever it looks, and what comes next is the token that is taken next. -/
theorem steps_take_in_order {text : List Char} {scan : Scan} (h : Scan.ofChars text = .ok scan)
    (steps : List Step) :
    let tokens := scan.all.map Token.toLeaf
    let start := ofScan text scan
    let s := after start steps
    (∀ n t, (taken start steps)[n]? = some t → tokens[min n scan.endIndex]? = some t) ∧
      s = { start with position := (taken start steps).length } ∧
      (∀ step : Step, (step.run s).1.taken? = none → (step.run s).2 = s) ∧
      (∀ kind, (demand kind).run s = match s.take kind with
        | .ok (t, next) => .ok t next
        | .error e => .error e s) ∧
      (∀ kind, (accept kind).run s = match s.take? kind with
        | some (t, next) => .ok (some t) next
        | none => .ok none s) ∧
      (∀ kind t next, (s.take kind = .ok (t, next) ↔ s.take? kind = some (t, next)) ∧
        (s.take? kind = some (t, next) ↔
          s.peek? 0 = some t ∧ t.kind = kind ∧ next = s.advance)) ∧
      (∀ count : Nat, ∃ t, s.peek? count = some t ∧
        tokens[min (s.position + count) scan.endIndex]? = some t) ∧
      ∀ more t, (taken s more).head? = some t → s.peek? 0 = some t := by
  intro tokens start s
  have hs : s = { start with position := (taken start steps).length } := by
    have hzero : start.position = 0 := rfl
    have hafter := after_eq start steps
    rwa [hzero, Nat.zero_add] at hafter
  refine ⟨?_, hs, ?_, fun kind => run_demand kind s, fun kind => run_accept kind s, ?_, ?_, ?_⟩
  · intro n t ht
    have hn : tokens[min (0 + n) scan.endIndex]? = some (start.ahead n) := getElem?_scan h 0 n
    rwa [Nat.zero_add, ← eq_ahead_of_taken ht] at hn
  · intro step hnone
    rcases run_step s step with htaken | ⟨-, hsame⟩
    · rw [htaken] at hnone
      cases hnone
    · exact hsame
  · exact fun kind t next => ⟨take_eq_ok_iff, take?_eq_some_iff⟩
  · intro count
    refine ⟨s.ahead count, peek?_natCast s count, ?_⟩
    have hcount := getElem?_scan h s.position count
    rw [hs] at hcount ⊢
    exact hcount
  · intro more t ht
    rw [List.head?_eq_getElem?] at ht
    rw [eq_ahead_of_taken ht]
    exact peek?_natCast s 0

/-- A text of three tokens. -/
def shortText : List Char := "a = 'b' // c\n".toList

/-- Steps of every kind, some of which fail, and some of which come behind the end of the text. -/
def mixedSteps : List Step :=
  [.look 7, .accept "EQ", .demand "IDENT", .report (.other "here") none, .demand "COLON",
    .accept "EQ", .look 1, .accept "SSTRING", .accept "IDENT", .demand "EOF", .look 3,
    .accept "EOF", .demand "IDENT"]

theorem steps_take_in_order_mixed :
    ∃ scan, Scan.ofChars shortText = .ok scan ∧ scan.endIndex = 3 ∧
      (taken (ofScan shortText scan) mixedSteps).map (·.lexeme) = ["a", "=", "'b'", "", ""] ∧
      (∀ n t, (taken (ofScan shortText scan) mixedSteps)[n]? = some t →
        (scan.all.map Token.toLeaf)[min n scan.endIndex]? = some t) ∧
      (after (ofScan shortText scan) mixedSteps).position = 5 := by
  have hscan : (Scan.ofChars shortText).map (fun scan =>
      (scan.endIndex, (taken (ofScan shortText scan) mixedSteps).map (·.lexeme))) =
        .ok (3, ["a", "=", "'b'", "", ""]) := by
    cbv
  obtain ⟨scan, h, hpair⟩ := exists_of_map_eq_ok hscan
  obtain ⟨hend, htaken⟩ := Prod.mk.inj hpair
  obtain ⟨horder, hafter, -⟩ := steps_take_in_order h mixedSteps
  refine ⟨scan, h, hend, htaken, horder, ?_⟩
  rw [hafter, ← List.length_map, htaken]
  rfl

end TokenStream

end Rulebook
