/-! # Printing steps

A step prints lines and then gives a result or fails. Lines go to the output or
to the errors; lines of progress go to the errors, too, and are told apart.
-/

namespace Rulebook.Command

/-- Where a line goes. -/
inductive Channel
  | output
  | error
  | progress
  deriving Repr, DecidableEq

/-- Whether the lines of a channel stand among the errors. -/
def Channel.isForErrors : Channel → Bool
  | output => false
  | error | progress => true

/-- A line that is printed. The text may itself have several lines. -/
structure Line where
  channel : Channel
  text : String
  deriving Repr, DecidableEq

/-- The text of all printed lines of some channels, each ended by a newline. -/
def Line.textOf (isIncluded : Channel → Bool) (printed : List Line) : String :=
  String.join ((printed.filter fun line => isIncluded line.channel).map fun line => line.text ++ "\n")

theorem Line.textOf_append (isIncluded : Channel → Bool) (first second : List Line) :
    textOf isIncluded (first ++ second) = textOf isIncluded first ++ textOf isIncluded second := by
  simp [textOf]

/-- What a step has printed, and its result. -/
structure Step (ε α : Type) where
  printed : List Line
  result : Except ε α

namespace Step

variable {ε α β : Type}

/-- A step that prints nothing. -/
def ofExcept (result : Except ε α) : Step ε α := ⟨[], result⟩

/-- A step that prints one line. -/
def print (channel : Channel) (text : String) : Step ε Unit := ⟨[⟨channel, text⟩], .ok ()⟩

/-- A step that prints a line of progress if that is asked for. -/
def progress (isAsked : Bool) (text : String) : Step ε Unit :=
  if isAsked then print .progress text else ofExcept (.ok ())

/-- One step after another. A failure ends both. -/
def andThen (s : Step ε α) (next : α → Step ε β) : Step ε β :=
  match s.result with
  | .error e => ⟨s.printed, .error e⟩
  | .ok a => ⟨s.printed ++ (next a).printed, (next a).result⟩

theorem andThen_of_ok {s : Step ε α} {a : α} (h : s.result = .ok a) (next : α → Step ε β) :
    s.andThen next = ⟨s.printed ++ (next a).printed, (next a).result⟩ := by
  simp [andThen, h]

theorem andThen_of_error {s : Step ε α} {e : ε} (h : s.result = .error e) (next : α → Step ε β) :
    s.andThen next = ⟨s.printed, .error e⟩ := by
  simp [andThen, h]

instance : Monad (Step ε) where
  pure a := ofExcept (.ok a)
  bind := andThen

end Step

end Rulebook.Command
