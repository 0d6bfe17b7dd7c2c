import Rulebook.Proofs.Document.Conformance
import Rulebook.Proofs.Lowering.Conforming
import Rulebook.Proofs.Lowering.Fields

/-! # The body of a rule, run by run

In a tree the sequences and branches of a rule may stand in any order. Sequences without
expressions are left out; of what remains each sequence gives its elements, and each maximal
run of branches gives one choice, in the order in which they stand.
-/

namespace Rulebook

open Rulebook.Tree (Conforms IsNode)

namespace Lowering

/-! ## Elements -/

/-- Whether a tree is a sequence without expressions. -/
def isEmptySequence : Tree → Bool
  | .node kind children => kind = NodeKind.sequence.name && (Children.under children Role.expression).isEmpty
  | _ => false

/-- The elements of a sequence: what its expressions give, with lists spliced in. -/
def SequenceElements (s : Tree) (elements : List Value) : Prop :=
  ∃ (children : Children) (values : List Value), s = .node NodeKind.sequence.name children ∧
    (children.under Role.expression).mapM lower = .ok values ∧ elements = Value.splice values

/-- The elements of a branch are those of its sequence. -/
def BranchElements (s : Tree) (elements : List Value) : Prop :=
  ∃ children : Children, s = .node NodeKind.branch.name children ∧
    children.One Role.value fun t => SequenceElements t elements

/-! ## Segments -/

/-- A segment of the body of a rule: a sequence, or branches next to each other. -/
inductive BodySegment
  | sequence (s : Tree)
  | branches (run : List Tree)

namespace BodySegment

/-- The trees of a segment. -/
def trees : BodySegment → List Tree
  | .sequence s => [s]
  | .branches run => run

/-- Whether a segment is a run of branches. -/
def isRun : BodySegment → Bool
  | .sequence _ => false
  | .branches _ => true

/-- A segment is a sequence, or consists of one branch or more. -/
def IsProper : BodySegment → Prop
  | .sequence s => s.IsNode .sequence
  | .branches run => run ≠ [] ∧ ∀ s ∈ run, s.IsNode .branch

/-- What a segment adds to a body: the elements of the sequence, or one choice with one
branch for each tree of the run. -/
inductive Gives : BodySegment → List Value → Prop
  | sequence {s : Tree} {elements : List Value} (h : SequenceElements s elements) :
      Gives (.sequence s) elements
  | branches {run : List Tree} {branches : List (List Value)}
      (h : List.Forall₂ BranchElements run branches) : Gives (.branches run) [.choice branches]

end BodySegment

/-- Trees are divided into segments, and no run of branches follows another one: each run is
as long as it can be. -/
structure AreSegments (segments : List BodySegment) (trees : List Tree) : Prop where
  trees_eq : segments.flatMap BodySegment.trees = trees
  proper : ∀ segment ∈ segments, segment.IsProper
  maximal : segments.IsChain fun a b => ¬ (a.isRun ∧ b.isRun)

namespace AreSegments

theorem cons {segment : BodySegment} {segments : List BodySegment} {trees : List Tree}
    (h : AreSegments segments trees) (proper : segment.IsProper)
    (apart : ∀ next ∈ segments.head?, ¬ (segment.isRun ∧ next.isRun)) :
    AreSegments (segment :: segments) (segment.trees ++ trees) where
  trees_eq := by rw [List.flatMap_cons, h.trees_eq]
  proper := List.forall_mem_cons.mpr ⟨proper, h.proper⟩
  maximal := List.isChain_cons.mpr ⟨apart, h.maximal⟩

theorem tail {segment : BodySegment} {segments : List BodySegment} {trees : List Tree}
    (h : AreSegments (segment :: segments) trees) :
    AreSegments segments (segments.flatMap BodySegment.trees) where
  trees_eq := rfl
  proper := fun other hother => h.proper other (List.mem_cons_of_mem _ hother)
  maximal := (List.isChain_cons.mp h.maximal).2

/-- A branch in front of segments belongs to the run that they begin with, if there is one. -/
theorem exists_cons_branch {segments : List BodySegment} {trees : List Tree} {s : Tree}
    (h : AreSegments segments trees) (hs : s.IsNode .branch) :
    ∃ segments', AreSegments segments' (s :: trees) := by
  have halone : BodySegment.IsProper (.branches [s]) := ⟨List.cons_ne_nil _ _, by simpa using hs⟩
  obtain - | ⟨t | run, segments⟩ := segments
  · exact ⟨_, h.cons halone (by simp)⟩
  · exact ⟨_, h.cons halone (by simp [BodySegment.isRun])⟩
  · obtain ⟨-, hrun⟩ := h.proper _ List.mem_cons_self
    have hproper : BodySegment.IsProper (.branches (s :: run)) :=
      ⟨List.cons_ne_nil _ _, List.forall_mem_cons.mpr ⟨hs, hrun⟩⟩
    refine ⟨.branches (s :: run) :: segments, ?_⟩
    rw [← h.trees_eq]
    exact h.tail.cons hproper (List.isChain_cons.mp h.maximal).1

end AreSegments

/-- Sequences and branches in any order are divided into segments. -/
theorem exists_areSegments {trees : List Tree}
    (h : ∀ s ∈ trees, s.IsNode .sequence ∨ s.IsNode .branch) :
    ∃ segments, AreSegments segments trees := by
  induction trees with
  | nil => exact ⟨[], rfl, by simp, .nil⟩
  | cons s rest ih =>
      obtain ⟨hs, hrest⟩ := List.forall_mem_cons.mp h
      obtain ⟨segments, hsegments⟩ := ih hrest
      rcases hs with hsequence | hbranch
      · have hproper : BodySegment.IsProper (.sequence s) := hsequence
        exact ⟨_, hsegments.cons hproper (by simp [BodySegment.isRun])⟩
      · exact hsegments.exists_cons_branch hbranch

/-! ## Sequences and branches -/

variable {s : Tree} {elements : List Value}

/-- A sequence is lowered to the list of its elements, and to nothing without expressions. -/
theorem SequenceElements.lower_eq (h : SequenceElements s elements) :
    lower s = .ok (if isEmptySequence s then Value.nothing else .list elements) := by
  obtain ⟨children, values, rfl, hvalues, rfl⟩ := h
  rw [lower_kind, ruleFor, sequence, isUsed_outcomes, all_outcomes_eq_mapM, hvalues]
  cases hempty : (children.under Role.expression).isEmpty <;> simp [isEmptySequence, hempty]

theorem exists_sequenceElements (h : Conforms s) (hs : s.IsNode .sequence) :
    ∃ elements, SequenceElements s elements := by
  obtain ⟨children, rfl⟩ := hs
  obtain ⟨row, kids⟩ := Tree.conforms_node_iff.mp h
  obtain ⟨values, hvalues, -⟩ := exists_all fun t ht =>
    lowers_of_conforms (kids Role.expression t ht) .expression (row t ht)
  rw [all_outcomes_eq_mapM] at hvalues
  exact ⟨_, children, values, rfl, hvalues, rfl⟩

theorem SequenceElements.eq_nil (h : SequenceElements s elements) (hempty : isEmptySequence s) :
    elements = [] := by
  obtain ⟨children, values, rfl, hvalues, rfl⟩ := h
  have hnone : children.under Role.expression = [] := by simpa [isEmptySequence] using hempty
  rw [hnone] at hvalues
  cases hvalues
  rfl

/-- A branch is lowered to its elements. -/
theorem BranchElements.lower_eq (h : BranchElements s elements) :
    lower s = .ok (.branch elements) := by
  obtain ⟨children, rfl, t, hunder, helements⟩ := h
  rw [lower_kind, ruleFor, branch, first_outcomes, hunder, List.head?_cons, Option.getD_some,
    helements.lower_eq, ok_bind]
  cases hempty : isEmptySequence t with
  | true =>
      rw [helements.eq_nil hempty]
      rfl
  | false => cases elements <;> rfl

theorem exists_branchElements (h : Conforms s) (hs : s.IsNode .branch) :
    ∃ elements, BranchElements s elements := by
  obtain ⟨children, rfl⟩ := hs
  obtain ⟨⟨t, hunder, ht⟩, kids⟩ := Tree.conforms_node_iff.mp h
  obtain ⟨elements, helements⟩ :=
    exists_sequenceElements (kids Role.value t (by rw [hunder]; exact List.mem_cons_self)) ht
  exact ⟨elements, children, rfl, t, hunder, helements⟩

theorem SequenceElements.unique {elements' : List Value} (h : SequenceElements s elements)
    (h' : SequenceElements s elements') : elements = elements' := by
  obtain ⟨children, values, rfl, hvalues, rfl⟩ := h
  obtain ⟨_, values', heq, hvalues', rfl⟩ := h'
  obtain ⟨-, rfl⟩ := Tree.node.inj heq
  rw [Except.ok.inj (hvalues.symm.trans hvalues')]

theorem BranchElements.unique {elements' : List Value} (h : BranchElements s elements)
    (h' : BranchElements s elements') : elements = elements' :=
  Value.branch.inj (Except.ok.inj (h.lower_eq.symm.trans h'.lower_eq))

theorem rightUnique_branchElements : Relator.RightUnique BranchElements :=
  fun _ _ _ h h' => h.unique h'

/-- A segment gives one thing only. -/
theorem BodySegment.Gives.unique {segment : BodySegment} {part part' : List Value}
    (h : segment.Gives part) (h' : segment.Gives part') : part = part' := by
  cases h with
  | sequence helements =>
      cases h' with
      | sequence helements' => exact helements.unique helements'
  | branches hbranches =>
      cases h' with
      | branches hbranches' =>
          rw [List.right_unique_forall₂' rightUnique_branchElements hbranches hbranches']

theorem BodySegment.rightUnique_gives : Relator.RightUnique BodySegment.Gives :=
  fun _ _ _ h h' => h.unique h'

theorem forall₂_branchElements {run : List Tree} (h : ∀ s ∈ run, Conforms s ∧ s.IsNode .branch) :
    ∃ branches, List.Forall₂ BranchElements run branches := by
  induction run with
  | nil => exact ⟨[], .nil⟩
  | cons s rest ih =>
      obtain ⟨⟨hs, hbranch⟩, hrest⟩ := List.forall_mem_cons.mp h
      obtain ⟨elements, helements⟩ := exists_branchElements hs hbranch
      obtain ⟨branches, hbranches⟩ := ih hrest
      exact ⟨elements :: branches, .cons helements hbranches⟩

theorem mapM_lower_branches {run : List Tree} {branches : List (List Value)}
    (h : List.Forall₂ BranchElements run branches) :
    run.mapM lower = .ok (branches.map .branch) := by
  induction h with
  | nil => rfl
  | cons helements _ ih => rw [List.mapM_cons, helements.lower_eq, ok_bind, ih]; rfl

/-! ## Bodies -/

/-- The trees of a segment are lowered, and in front of other values they add to a body what
the segment gives: a run of branches does if a list follows it. -/
theorem BodySegment.exists_part {segment : BodySegment} (proper : segment.IsProper)
    (htrees : ∀ s ∈ segment.trees, Conforms s ∧ isEmptySequence s = false) :
    ∃ values part, segment.trees.mapM lower = .ok values ∧ segment.Gives part ∧
      (∀ rest : List Value,
        (segment.isRun → ∀ v ∈ rest.head?, ∃ elements, v = .list elements) →
          ruleBody (values ++ rest) = part ++ ruleBody rest) ∧
      (segment.isRun = false → ∃ elements, values = [.list elements]) := by
  cases segment with
  | sequence s =>
      obtain ⟨hs, hfull⟩ := htrees s List.mem_cons_self
      obtain ⟨elements, helements⟩ := exists_sequenceElements hs proper
      have hlower := helements.lower_eq
      rw [hfull] at hlower
      refine ⟨[.list elements], elements, ?_, .sequence helements,
        fun rest _ => ruleBody_cons_list elements rest, fun _ => ⟨elements, rfl⟩⟩
      rw [trees, List.mapM_cons, hlower]
      rfl
  | branches run =>
      obtain ⟨hne, hbranch⟩ := proper
      obtain ⟨branches, hbranches⟩ := forall₂_branchElements fun s hs =>
        ⟨(htrees s hs).1, hbranch s hs⟩
      have hfull : branches ≠ [] := by
        rintro rfl
        cases hbranches
        exact hne rfl
      refine ⟨branches.map .branch, [.choice branches], mapM_lower_branches hbranches,
        .branches hbranches, fun rest hrest => ruleBody_append_branches hfull (hrest rfl), ?_⟩
      intro hrun
      cases hrun

/-- The trees of segments are lowered, and their body is what the segments give one by one. -/
theorem exists_body {segments : List BodySegment} {trees : List Tree}
    (h : AreSegments segments trees) (htrees : ∀ s ∈ trees, Conforms s ∧ isEmptySequence s = false) :
    ∃ values parts, trees.mapM lower = .ok values ∧
      List.Forall₂ BodySegment.Gives segments parts ∧ ruleBody values = parts.flatten ∧
      -- The values begin with a list if the segments begin with a sequence.
      ((∀ segment ∈ segments.head?, segment.isRun = false) →
        ∀ v ∈ values.head?, ∃ elements, v = .list elements) := by
  induction segments generalizing trees with
  | nil =>
      obtain rfl := h.trees_eq
      exact ⟨[], [], rfl, .nil, ruleBody_nil, by simp⟩
  | cons segment segments ih =>
      obtain rfl := h.trees_eq
      rw [List.flatMap_cons, List.forall_mem_append] at htrees
      obtain ⟨more, parts, hmore, hparts, hbody, hhead⟩ := ih h.tail htrees.2
      obtain ⟨values, part, hvalues, hpart, hadds, hlist⟩ :=
        BodySegment.exists_part (h.proper segment List.mem_cons_self) htrees.1
      obtain ⟨hapart, -⟩ := List.isChain_cons.mp h.maximal
      refine ⟨values ++ more, part :: parts, ?_, .cons hpart hparts, ?_, ?_⟩
      · rw [List.flatMap_cons, List.mapM_append, hvalues, hmore]
        rfl
      · rw [hadds more, hbody, List.flatten_cons]
        exact fun hrun => hhead fun next hnext => by simpa [hrun] using hapart next hnext
      · intro hfirst
        obtain ⟨elements, rfl⟩ := hlist (hfirst segment rfl)
        simp

/-- Sequences without expressions are lowered to nothing, so it does not matter for the body
whether they are there. -/
theorem exists_values {trees : List Tree}
    (h : ∀ s ∈ trees, Conforms s ∧ (s.IsNode .sequence ∨ s.IsNode .branch)) :
    ∃ values, trees.mapM lower = .ok values ∧
      (trees.filter fun s => !isEmptySequence s).mapM lower =
        .ok (values.filter fun v => !v.isNone) := by
  induction trees with
  | nil => exact ⟨[], rfl, rfl⟩
  | cons s rest ih =>
      obtain ⟨⟨hs, hkind⟩, hrest⟩ := List.forall_mem_cons.mp h
      obtain ⟨values, hvalues, hkept⟩ := ih hrest
      obtain ⟨v, hv, hnone⟩ : ∃ v, lower s = .ok v ∧ v.isNone = isEmptySequence s := by
        rcases hkind with hsequence | hbranch
        · obtain ⟨elements, helements⟩ := exists_sequenceElements hs hsequence
          refine ⟨_, helements.lower_eq, ?_⟩
          cases isEmptySequence s <;> rfl
        · obtain ⟨elements, helements⟩ := exists_branchElements hs hbranch
          obtain ⟨children, rfl⟩ := hbranch
          exact ⟨_, helements.lower_eq, rfl⟩
      refine ⟨v :: values, ?_, ?_⟩
      · rw [List.mapM_cons, hv, hvalues]
        rfl
      · rw [List.filter_cons, List.filter_cons, hnone]
        split
        · rw [List.mapM_cons, hv, hkept]
          rfl
        · exact hkept

theorem ruleBody_filter (values : List Value) :
    ruleBody (values.filter fun v => !v.isNone) = ruleBody values := by
  simp [ruleBody]

/-- The body of a rule, whatever sequences and branches it holds in whatever order: without the
sequences that have no expressions, these are divided into sequences and maximal runs of
branches, and the body is what each of these segments gives, in order. -/
theorem lower_rule_segments {children : Children}
    (h : children.Each Role.body fun s => Conforms s ∧ (s.IsNode .sequence ∨ s.IsNode .branch)) :
    (∃ segments parts,
      AreSegments segments ((children.under Role.body).filter fun s => !isEmptySequence s) ∧
        List.Forall₂ BodySegment.Gives segments parts) ∧
    ∀ segments parts,
      AreSegments segments ((children.under Role.body).filter fun s => !isEmptySequence s) →
      List.Forall₂ BodySegment.Gives segments parts →
        lower (.node NodeKind.rule.name children) =
          (nameOf (outcomes children)).map fun name => .ruleDef name parts.flatten := by
  have hkept : ∀ s ∈ (children.under Role.body).filter fun s => !isEmptySequence s,
      (Conforms s ∧ (s.IsNode .sequence ∨ s.IsNode .branch)) ∧ isEmptySequence s = false := by
    intro s hs
    obtain ⟨hmem, hfull⟩ := List.mem_filter.mp hs
    exact ⟨h s hmem, by simpa using hfull⟩
  have hfull : ∀ s ∈ (children.under Role.body).filter fun s => !isEmptySequence s,
      Conforms s ∧ isEmptySequence s = false :=
    fun s hs => ⟨(hkept s hs).1.1, (hkept s hs).2⟩
  constructor
  · obtain ⟨segments, hsegments⟩ := exists_areSegments fun s hs => (hkept s hs).1.2
    obtain ⟨-, parts, -, hparts, -⟩ := exists_body hsegments hfull
    exact ⟨segments, parts, hsegments, hparts⟩
  · intro segments parts hsegments hparts
    obtain ⟨values, hvalues, hfiltered⟩ := exists_values h
    obtain ⟨kept, parts', hlower, hparts', hruleBody, -⟩ := exists_body hsegments hfull
    obtain rfl : kept = values.filter fun v => !v.isNone :=
      Except.ok.inj (hlower.symm.trans hfiltered)
    obtain rfl : parts' = parts :=
      List.right_unique_forall₂' BodySegment.rightUnique_gives hparts' hparts
    rw [lower_kind, ruleFor, rule, all_outcomes_eq_mapM, hvalues, ok_bind, ← ruleBody_filter,
      hruleBody]
    cases nameOf (outcomes children) <;> rfl

/-! ## Runs of two branches and of one

Between the first two branches stands a sequence without expressions, which does not keep
them apart. -/

/-- A sequence of one name. -/
def nameAlone (name : String) : Surface.Sequence :=
  [.mk none (.name ⟨⟨.identifier, name, 0, 0, 1, 1⟩, rfl⟩) none]

/-- The sequences and branches of a rule, in which these take turns. -/
def interleavedBody : List Tree :=
  [Surface.branchTree (nameAlone "a"), Surface.sequenceTree [], Surface.branchTree [],
   Surface.sequenceTree (nameAlone "b"), Surface.branchTree (nameAlone "c")]

/-- The roles of that rule. -/
def interleaved : Children :=
  [(Role.name, [Document.leaf ⟨.identifier, "r", 0, 0, 1, 1⟩]), (Role.body, interleavedBody)]

/-- Its segments. -/
def interleavedSegments : List BodySegment :=
  [.branches [Surface.branchTree (nameAlone "a"), Surface.branchTree []],
   .sequence (Surface.sequenceTree (nameAlone "b")),
   .branches [Surface.branchTree (nameAlone "c")]]

theorem sequenceElements_sequenceTree (items : Surface.Sequence) :
    SequenceElements (Surface.sequenceTree items) (Surface.sequenceValues items) := by
  have hunder := @under_filter [(Role.expression, Surface.expressionTrees items)] (by simp)
    Role.expression
  have hall := all_outcomes
    (fun item : Surface.Item => Document.node .expression [(Role.value, [item.tree])])
    Surface.Item.value hunder fun item _ => (lower_expression _).trans (lower_item_tree item)
  rw [all_outcomes_eq_mapM] at hall
  exact ⟨_, _, rfl, hall, rfl⟩

theorem branchElements_branchTree (items : Surface.Sequence) :
    BranchElements (Surface.branchTree items) (Surface.sequenceValues items) :=
  ⟨_, rfl, Surface.sequenceTree items, rfl, sequenceElements_sequenceTree items⟩

theorem lower_rule_segments_interleaved :
    lower (.node NodeKind.rule.name interleaved) = .ok (.ruleDef (.string "r")
      [.choice [[.ref (.string "a")], []], .ref (.string "b"), .choice [[.ref (.string "c")]]]) := by
  have hbranch : ∀ items, IsNode .branch (Surface.branchTree items) := fun _ => ⟨_, rfl⟩
  have hsequence : ∀ items, IsNode .sequence (Surface.sequenceTree items) := fun _ => ⟨_, rfl⟩
  have hbody : interleaved.Each Role.body fun s =>
      Conforms s ∧ (s.IsNode .sequence ∨ s.IsNode .branch) := by
    change ∀ s ∈ interleavedBody, _
    simp [interleavedBody, Surface.conforms_branchTree, Surface.conforms_sequenceTree, hbranch,
      hsequence]
  have hsegments : AreSegments interleavedSegments
      (interleavedBody.filter fun s => !isEmptySequence s) := by
    refine ⟨rfl, ?_, ?_⟩
    · simp [interleavedSegments, BodySegment.IsProper, hbranch, hsequence]
    · simp [interleavedSegments, BodySegment.isRun]
  have hparts : List.Forall₂ BodySegment.Gives interleavedSegments
      [[.choice [[.ref (.string "a")], []]], [.ref (.string "b")], [.choice [[.ref (.string "c")]]]] :=
    .cons (.branches (.cons (branchElements_branchTree _) (.cons (branchElements_branchTree _) .nil)))
      (.cons (.sequence (sequenceElements_sequenceTree _))
        (.cons (.branches (.cons (branchElements_branchTree _) .nil)) .nil))
  have hname : nameOf (outcomes interleaved) = .ok (.string "r") :=
    nameOf_outcomes (t := ⟨.identifier, "r", 0, 0, 1, 1⟩) rfl
  rw [(lower_rule_segments hbody).2 _ _ hsegments hparts, hname]
  rfl

end Lowering

end Rulebook
