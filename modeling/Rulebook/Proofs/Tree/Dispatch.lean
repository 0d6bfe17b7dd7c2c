import Rulebook.Proofs.Reading
import Rulebook.Tree.Visitor

/-! # Which handlers a visit depends on

A visit starts at a tree and goes on as handlers and the default ask for it, but never beyond
what may be visited on behalf of the tree. So it calls the handlers for the kinds of the nodes
of the tree and no others, and visitors that agree on these do the same with it. The kinds of
tokens do not matter, whether or not there are handlers for them.
-/

namespace Rulebook

namespace Tree

/-- Some node of a tree is of a kind. -/
inductive Carries (kind : String) : Tree → Prop
  | here (children : Children) : Carries kind (.node kind children)
  | child {other : String} {children : Children} {role : String} {kids : List Tree} {s : Tree}
      (hrole : (role, kids) ∈ children) (hkid : s ∈ kids) (h : Carries kind s) :
      Carries kind (.node other children)

variable {kind other : String} {s t : Tree}

@[simp] theorem not_carries_leaf (kind : String) (t : Leaf) : ¬ Carries kind (.leaf t) := by
  rintro ⟨⟩

@[simp] theorem not_carries_plain (kind : String) (j : Json) : ¬ Carries kind (.plain j) := by
  rintro ⟨⟩

@[simp] theorem carries_node_iff {children : Children} : Carries kind (.node other children) ↔
    kind = other ∨ ∃ entry ∈ children, ∃ s ∈ entry.2, Carries kind s := by
  constructor
  · rintro (_ | ⟨hrole, hkid, h⟩)
    · exact .inl rfl
    · exact .inr ⟨_, hrole, _, hkid, h⟩
  · rintro (rfl | ⟨_, hrole, _, hkid, h⟩)
    · exact .here children
    · exact .child hrole hkid h

theorem Carries.of_below (hbelow : Below s t) (h : Carries kind s) : Carries kind t := by
  induction hbelow with
  | absent => exact absurd h (not_carries_plain kind .null)
  | child hrole hkid => exact .child hrole hkid h
  | trans _ _ ihst ihtu => exact ihtu (ihst h)

theorem Carries.of_visitable (hvisitable : Visitable s t) (h : Carries kind s) :
    Carries kind t := by
  cases hvisitable with
  | below hbelow => exact h.of_below hbelow
  | absent => exact absurd h (not_carries_plain kind .null)

end Tree

namespace Visitor

open Rulebook.Tree (Visitable)

variable {ε ρ : Type} {v w : Visitor ε ρ} {s t : Tree} {kind : String}

/-! ## One step of a visit -/

/-- What becomes of a tree, given what comes of the visits on its behalf. -/
def answer (v : Visitor ε ρ) (t : Tree) (visit : (s : Tree) → Visitable s t → Except ε ρ) :
    Except ε ρ :=
  match t with
  | .node kind children =>
      match v.handlers.lookup kind with
      | some handler => handler kind children visit
      | none => v.otherwise (.node kind children) visit
  | t => v.otherwise t visit

theorem visit_eq_answer (v : Visitor ε ρ) (t : Tree) :
    v.visit t = v.answer t fun s _ => v.visit s := by
  cases t with
  | node =>
      rw [visit]
      rfl
  | leaf | plain =>
      rw [visit]
      · rfl
      · intros
        contradiction

/-- Visitors have the same default and the same fallback, and the same handlers for the kinds
of the nodes of a tree. -/
structure AgreesOn (v w : Visitor ε ρ) (t : Tree) : Prop where
  default_eq : v.default? = w.default?
  fallback_eq : v.fallback = w.fallback
  handlers_eq : ∀ kind, t.Carries kind → v.handlers.lookup kind = w.handlers.lookup kind

theorem AgreesOn.of_visitable (h : v.AgreesOn w t) (hs : Visitable s t) : v.AgreesOn w s :=
  ⟨h.default_eq, h.fallback_eq, fun kind hkind => h.handlers_eq kind (hkind.of_visitable hs)⟩

theorem AgreesOn.otherwise_eq (h : v.AgreesOn w s) (t : Tree)
    (visit : (s : Tree) → Visitable s t → Except ε ρ) :
    v.otherwise t visit = w.otherwise t visit := by
  rw [otherwise, otherwise, h.default_eq, h.fallback_eq]

theorem AgreesOn.answer_eq (h : v.AgreesOn w t)
    (visit : (s : Tree) → Visitable s t → Except ε ρ) : v.answer t visit = w.answer t visit := by
  cases t with
  | node kind children =>
      rw [answer, answer, h.handlers_eq kind (.here children), h.otherwise_eq]
  | leaf | plain => exact h.otherwise_eq _ visit

/-! ## A whole visit -/

/-- Visitors that agree on a tree do the same with it. -/
theorem AgreesOn.visit_eq (h : v.AgreesOn w t) : v.visit t = w.visit t := by
  induction hrank : t.rank using Nat.strongRecOn generalizing t with
  | ind rank ih =>
      subst hrank
      have hbehalf : (fun (s : Tree) (_ : Visitable s t) => v.visit s) = fun s _ => w.visit s := by
        funext s hs
        exact ih s.rank hs.rank_lt (h.of_visitable hs) rfl
      calc v.visit t = v.answer t fun s _ => v.visit s := v.visit_eq_answer t
        _ = v.answer t fun s _ => w.visit s := by rw [hbehalf]
        _ = w.answer t fun s _ => w.visit s := h.answer_eq _
        _ = w.visit t := (w.visit_eq_answer t).symm

/-- A visit of a tree can call the handler for a kind: at the tree itself, or in a visit on its
behalf. -/
inductive CanCall (v : Visitor ε ρ) (kind : String) : Tree → Prop
  | here {children : Children} (h : v.handles kind) : CanCall v kind (.node kind children)
  | onBehalf {s t : Tree} (hs : Visitable s t) (h : CanCall v kind s) : CanCall v kind t

/-- The handlers that can be called are those for the kinds of nodes. -/
theorem canCall_iff : v.CanCall kind t ↔ v.handles kind ∧ t.Carries kind := by
  constructor
  · intro h
    induction h with
    | here h => exact ⟨h, .here _⟩
    | onBehalf hs _ ih => exact ⟨ih.1, ih.2.of_visitable hs⟩
  · rintro ⟨hhandles, h⟩
    induction h with
    | here => exact .here hhandles
    | child hrole hkid _ ih => exact .onBehalf (.below (.child hrole hkid)) ih

/-- The visitor with a handler for a kind, in place of any it had for this kind. -/
def register (v : Visitor ε ρ) (kind : String) (handler : Handler ε ρ) : Visitor ε ρ :=
  { v with handlers := (kind, handler) :: v.handlers }

theorem handles_register (v : Visitor ε ρ) (kind : String) (handler : Handler ε ρ) :
    (v.register kind handler).handles kind := by
  simp [handles, register]

/-- A handler for a kind that no node is of does not matter. -/
theorem agreesOn_register (h : ¬ t.Carries kind) (v : Visitor ε ρ) (handler : Handler ε ρ) :
    (v.register kind handler).AgreesOn v t := by
  refine ⟨rfl, rfl, fun other hother => ?_⟩
  have hne : other ≠ kind := fun heq => h (heq ▸ hother)
  rw [register, List.lookup_cons, beq_false_of_ne hne]

/-- Visitors with the same default, the same fallback, and the same handlers for the kinds of
the nodes of a tree do the same with it. The handlers that a visit can call are those for these
kinds. A handler for any other kind, such as one that only tokens are of, is a handler of the
visitor, and makes no difference whatever it does. -/
theorem visit_depends_on_carried (h : v.AgreesOn w t) :
    v.visit t = w.visit t ∧
      (∀ kind, v.CanCall kind t ↔ v.handles kind ∧ t.Carries kind) ∧
      ∀ kind, ¬ t.Carries kind → ∀ handler,
        (v.register kind handler).handles kind ∧
          (v.register kind handler).visit t = v.visit t :=
  ⟨h.visit_eq, fun _ => canCall_iff, fun kind hkind handler =>
    ⟨v.handles_register kind handler, (agreesOn_register hkind v handler).visit_eq⟩⟩

/-- A handler that tells its kind, and then what comes of the visits of the children. -/
def traced : Handler String (List String) := fun kind children visit => do
  let visits := (Visits.ofNode kind children visit).roles.flatMap Prod.snd
  return kind :: (← visits.mapM Prod.snd).flatten

/-- A default that tells the kind of a token and visits nothing on its behalf. -/
def tracedToken : DefaultHandler String (List String) := fun t visit =>
  match t, visit with
  | .leaf token, visit => do return token.kind :: (← visit Tree.absent (.absent rfl))
  | _, _ => .ok ["nothing"]

/-- A visitor with handlers for two kinds of node. -/
def tracer : Visitor String (List String) :=
  { handlers := [("sum", traced), ("number", traced)]
    default? := some tracedToken
    fallback := .strict Unhandled.message }

/-- The same with handlers in another order and two more, which fail. -/
def failingTracer : Visitor String (List String) :=
  { tracer with
    handlers := [("DIGITS", fun _ _ _ => .error "token"), ("number", traced),
      ("product", fun _ _ _ => .error "product"), ("sum", traced)] }

/-- A sum of one number, with nothing behind it. -/
def oneSummand : Tree :=
  .node "sum" [("items", [.node "number" [("digits", [.leaf ⟨"DIGITS", "1", 0, 1, 1, 1⟩])],
    Tree.absent])]

theorem carries_oneSummand {kind : String} :
    oneSummand.Carries kind ↔ kind = "sum" ∨ kind = "number" := by
  simp [oneSummand, Tree.absent]

/-- The handler for the kind of the token is there, and is not called. -/
theorem visit_depends_on_carried_oneSummand :
    failingTracer.AgreesOn tracer oneSummand ∧
      failingTracer.visit oneSummand = .ok ["sum", "number", "DIGITS", "nothing", "nothing"] ∧
      failingTracer.handles "DIGITS" ∧ ¬ failingTracer.CanCall "DIGITS" oneSummand ∧
      failingTracer.CanCall "number" oneSummand := by
  have hagree : failingTracer.AgreesOn tracer oneSummand := by
    refine ⟨rfl, rfl, fun kind hkind => ?_⟩
    rcases carries_oneSummand.mp hkind with rfl | rfl <;> rfl
  have hvisit : tracer.visit oneSummand =
      .ok ["sum", "number", "DIGITS", "nothing", "nothing"] := by
    simp [visit, tracer, traced, tracedToken, oneSummand, otherwise, Visits.ofNode, Tree.absent,
      List.lookup_cons]
  obtain ⟨hsame, hcalls, -⟩ := visit_depends_on_carried hagree
  refine ⟨hagree, hsame.trans hvisit, rfl, ?_, ?_⟩
  · rw [hcalls, carries_oneSummand]
    decide
  · rw [hcalls, carries_oneSummand]
    decide

end Visitor

end Rulebook
