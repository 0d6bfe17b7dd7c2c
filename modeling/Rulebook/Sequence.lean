/-! # Runs, groups and splices of a sequence

Three ways to restructure a sequence: adjacent items of one class are merged,
the items between boundaries are grouped, and items that are sequences
themselves are spliced in.
-/

namespace Rulebook.Sequence

variable {α κ : Type}

/-- The maximal runs of adjacent items with the same key. An item without a key
is a run of its own. -/
def runs (key : α → Option κ) (sameKey : κ → κ → Bool) : List α → List (List α)
  | [] => []
  | x :: rest =>
      match key x with
      | none => [x] :: runs key sameKey rest
      | some k =>
          let joins (y : α) : Bool := (key y).any fun k' => sameKey k' k
          (x :: rest.takeWhile joins) :: runs key sameKey (rest.dropWhile joins)
termination_by xs => xs.length
decreasing_by
  · exact Nat.lt_succ_self _
  · exact Nat.lt_succ_of_le (List.dropWhile_suffix _).length_le

/-- A sequence in which every run of two or more items is combined into one. -/
def mergeRuns (key : α → Option κ) (sameKey : κ → κ → Bool) (combine : List α → α)
    (xs : List α) : List α :=
  (runs key sameKey xs).map fun run =>
    match run with
    | [x] => x
    | _ => combine run

/-- The groups of items between boundaries, with the boundaries left out: one
group more than there are boundaries. -/
def groups (isBoundary : α → Bool) : List α → List (List α)
  | [] => [[]]
  | x :: rest =>
      if isBoundary x then [] :: groups isBoundary rest
      else match groups isBoundary rest with
        | [] => [[x]]
        | g :: more => (x :: g) :: more

/-- A sequence in which every item that has items of its own is replaced by
them. -/
def splice (items? : α → Option (List α)) (xs : List α) : List α :=
  xs.flatMap fun x => (items? x).getD [x]

end Rulebook.Sequence
