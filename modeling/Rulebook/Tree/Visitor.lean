import Rulebook.Tree.Outline

/-! # Visiting labeled trees

A visitor has a handler for some kinds of node. A handler gets the children of
the node and decides which trees below it to visit in turn. What no handler is
for goes to a default, if there is one; else a strict visitor fails, and any
other leaves the tree unchanged.
-/

namespace Rulebook

namespace Tree

mutual

/-- The number of nodes of a tree. -/
def size : Tree → Nat
  | .leaf _ => 0
  | .node _ children => 1 + rolesSize children
  | .plain _ => 0

/-- The number of nodes of all children. -/
def rolesSize : List (String × List Tree) → Nat
  | [] => 0
  | (_, kids) :: rest => kidsSize kids + rolesSize rest

/-- The number of nodes of the children under one role. -/
def kidsSize : List Tree → Nat
  | [] => 0
  | t :: rest => t.size + kidsSize rest

end

theorem size_le_kidsSize {s : Tree} {kids : List Tree} (h : s ∈ kids) : s.size ≤ kidsSize kids := by
  induction kids with
  | nil => cases h
  | cons t rest ih =>
      rw [kidsSize]
      rcases List.mem_cons.mp h with rfl | hrest
      · omega
      · have := ih hrest
        omega

theorem kidsSize_le_rolesSize {role : String} {kids : List Tree}
    {children : List (String × List Tree)} (h : (role, kids) ∈ children) :
    kidsSize kids ≤ rolesSize children := by
  induction children with
  | nil => cases h
  | cons entry rest ih =>
      obtain ⟨role', kids'⟩ := entry
      rw [rolesSize]
      rcases List.mem_cons.mp h with heq | hrest
      · cases heq
        omega
      · have := ih hrest
        omega

/-- What stands below a tree: below a node its children, all that is below them,
and nothing at all. -/
inductive Below : Tree → Tree → Prop
  | absent (kind : String) (children : Children) : Below Tree.absent (.node kind children)
  | child {kind : String} {children : Children} {role : String} {kids : List Tree} {s : Tree}
      (hrole : (role, kids) ∈ children) (hkid : s ∈ kids) : Below s (.node kind children)
  | trans {s t u : Tree} (hst : Below s t) (htu : Below t u) : Below s u

theorem Below.size_lt {s t : Tree} (h : Below s t) : s.size < t.size := by
  induction h with
  | absent kind children =>
      simp only [Tree.absent, size]
      omega
  | child hrole hkid =>
      have := size_le_kidsSize hkid
      have := kidsSize_le_rolesSize hrole
      simp only [size]
      omega
  | trans _ _ ih₁ ih₂ => exact Nat.lt_trans ih₁ ih₂

/-- What may be visited on behalf of a tree: what is below it and, unless it is
nothing itself, nothing at all. -/
inductive Visitable : Tree → Tree → Prop
  | below {s t : Tree} (h : Below s t) : Visitable s t
  | absent {t : Tree} (h : t.isAbsent = false) : Visitable Tree.absent t

/-- The number of nodes, where nothing counts less than any other tree without
nodes. -/
def rank (t : Tree) : Nat := if t.isAbsent then 0 else t.size + 1

theorem rank_le (t : Tree) : t.rank ≤ t.size + 1 := by
  unfold rank
  split <;> omega

theorem lt_rank {t : Tree} (h : t.isAbsent = false) : t.size < t.rank := by
  simp [rank, h]

theorem isAbsent_eq_false_of_size_pos {t : Tree} (h : 0 < t.size) : t.isAbsent = false := by
  cases t with
  | leaf | node => rfl
  | plain => exact absurd h (by simp [size])

theorem Visitable.rank_lt {s t : Tree} (h : Visitable s t) : s.rank < t.rank := by
  cases h with
  | below h =>
      have hsize := h.size_lt
      have hs := s.rank_le
      have ht := lt_rank (isAbsent_eq_false_of_size_pos (Nat.zero_lt_of_lt hsize))
      omega
  | absent h => exact Nat.zero_lt_of_lt (lt_rank h)

end Tree

variable {ε ρ : Type}

/-- What a handler does with a node: it gets the kind, the children, and a way
to visit what may be visited on behalf of the node. -/
abbrev Handler (ε ρ : Type) :=
  (kind : String) → (children : Children) →
    ((s : Tree) → Tree.Visitable s (.node kind children) → Except ε ρ) → Except ε ρ

/-- What a default does with a tree: it gets the tree and a way to visit what may
be visited on its behalf. -/
abbrev DefaultHandler (ε ρ : Type) :=
  (t : Tree) → ((s : Tree) → Tree.Visitable s t → Except ε ρ) → Except ε ρ

/-- A tree that no handler of a strict visitor is for. -/
structure Unhandled where
  kind : Option String
  children : Option Children

/-- What is said of a tree that is not handled. -/
def Unhandled.message (u : Unhandled) : String :=
  "No handler for node kind " ++ (u.kind.map String.quotedText).getD "None"
    ++ (u.children.map fun children => " " ++ children.digest).getD ""

/-- What becomes of a tree that neither a handler nor a default is for: a result
made of the tree as it is, or an error. -/
inductive Fallback (ε ρ : Type)
  | unchanged (result : Tree → ρ)
  | strict (error : Unhandled → ε)

/-- A visitor with results in `ρ` and errors in `ε`. -/
structure Visitor (ε ρ : Type) where
  handlers : List (String × Handler ε ρ)
  default? : Option (DefaultHandler ε ρ) := none
  fallback : Fallback ε ρ

namespace Visitor

/-- Whether there is a handler for a kind. -/
def handles (v : Visitor ε ρ) (kind : String) : Bool := (v.handlers.lookup kind).isSome

/-- What is done with a tree that has no handler. -/
def otherwise (v : Visitor ε ρ) (t : Tree) (visit : (s : Tree) → Tree.Visitable s t → Except ε ρ) :
    Except ε ρ :=
  match v.default? with
  | some handler => handler t visit
  | none =>
      match v.fallback with
      | .unchanged result => .ok (result t)
      | .strict error => .error (error ⟨t.kind?, t.children?⟩)

/-- Visits a tree. -/
def visit (v : Visitor ε ρ) (t : Tree) : Except ε ρ :=
  match t with
  | .node kind children =>
      match v.handlers.lookup kind with
      | some handler => handler kind children fun s _visitable => v.visit s
      | none => v.otherwise (.node kind children) fun s _visitable => v.visit s
  | t => v.otherwise t fun s _visitable => v.visit s
termination_by t.rank
decreasing_by all_goals exact _visitable.rank_lt

end Visitor

/-- The children of a node, each with the outcome of its visit, and the outcome
of a visit of nothing. -/
structure Visits (ε ρ : Type) where
  roles : List (String × List (Tree × Except ε ρ))
  absent : Except ε ρ

namespace Visits

/-- The visits of the children of a node. -/
def ofNode (kind : String) (children : Children)
    (visit : (s : Tree) → Tree.Visitable s (.node kind children) → Except ε ρ) : Visits ε ρ :=
  { roles := children.attach.map fun ⟨(role, kids), hrole⟩ =>
      (role, kids.attach.map fun ⟨s, hkid⟩ => (s, visit s (.below (.child hrole hkid))))
    absent := visit Tree.absent (.absent rfl) }

/-- The children that were visited. -/
def children (v : Visits ε ρ) : Children :=
  v.roles.map fun (role, kids) => (role, kids.map Prod.fst)

/-- The children under a role with their outcomes. -/
def under (v : Visits ε ρ) (role : String) : List (Tree × Except ε ρ) :=
  (v.roles.lookup role).getD []

/-- The results for all children under a role, in order, or the first error
among them. -/
def all (v : Visits ε ρ) (role : String) : Except ε (List ρ) :=
  (v.under role).mapM Prod.snd

/-- The outcome for the first child under a role, or for nothing if there is
none. -/
def first (v : Visits ε ρ) (role : String) : Except ε ρ :=
  ((v.under role).head?.map Prod.snd).getD v.absent

end Visits

/-- A handler that visits children only. -/
def Handler.ofVisits (rule : Visits ε ρ → Except ε ρ) : Handler ε ρ :=
  fun kind children visit => rule (.ofNode kind children visit)

end Rulebook
