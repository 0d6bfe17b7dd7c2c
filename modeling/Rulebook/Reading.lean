/-! # Steps of a reader

A reader takes something off the head of a list and leaves the rest. Each step
carries the proof that the rest is below a bound, so that a reader which calls
itself on the rest is known to end.
-/

namespace Rulebook

/-- What was read and what is left of the input, which is shorter than `bound`. -/
structure Reading (σ α : Type) (bound : Nat) where
  value : α
  rest : List σ
  short : rest.length < bound

namespace Reading

variable {σ α β : Type} {bound : Nat}

/-- The same step under another name for what was read. -/
def map (f : α → β) (r : Reading σ α bound) : Reading σ β bound :=
  ⟨f r.value, r.rest, r.short⟩

/-- The same step within a larger bound. -/
def weaken {larger : Nat} (r : Reading σ α bound) (h : bound ≤ larger) : Reading σ α larger :=
  ⟨r.value, r.rest, Nat.lt_of_lt_of_le r.short h⟩

end Reading

end Rulebook
