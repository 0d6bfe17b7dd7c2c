import Rulebook.Pattern.Basic
import Rulebook.Reading

/-! # Reading patterns

A pattern is a choice of sequences, and a sequence is made of pieces: characters,
classes, sets, anchors and groups, each of which may be repeated. Where blanks
are not meant, comments may stand as well.
-/

namespace Rulebook.Pattern

/-- A step of a reader of patterns; there is none where the text is no pattern. -/
abbrev Step (α : Type) (bound : Nat) := Option (Reading Char α bound)

/-- A text without the blanks and comments at its head. A comment begins with a
number sign and ends with the line. -/
def skipIgnored (isComment : Bool) : List Char → List Char
  | [] => []
  | c :: rest =>
      if isComment then skipIgnored (c ≠ '\n') rest
      else if Text.isBlank c then skipIgnored false rest
      else if c = '#' then skipIgnored true rest
      else c :: rest

theorem length_skipIgnored_le (isComment : Bool) (text : List Char) :
    (skipIgnored isComment text).length ≤ text.length := by
  fun_induction skipIgnored isComment text with
  | case1 => exact Nat.le_refl _
  | case2 | case3 | case4 => exact Nat.le_succ_of_le ‹_›
  | case5 => exact Nat.le_refl _

/-- The text at which the next piece is looked for. -/
def ahead (flags : Flags) (text : List Char) : List Char :=
  if flags.verbose then skipIgnored false text else text

theorem length_ahead_le (flags : Flags) (text : List Char) :
    (ahead flags text).length ≤ text.length := by
  unfold ahead
  split
  next => exact length_skipIgnored_le false text
  next => exact Nat.le_refl _

theorem length_lt_of_ahead {flags : Flags} {text rest : List Char} {c : Char}
    (h : ahead flags text = c :: rest) : rest.length < text.length := by
  have bound := length_ahead_le flags text
  rw [h] at bound
  exact bound

/-! ## Escapes and sets -/

/-- What an escaped letter stands for; any other character stands for itself. -/
def escape? (c : Char) : Option Member :=
  match c with
  | 'w' => some (.ofClass .word false)
  | 'W' => some (.ofClass .word true)
  | 'd' => some (.ofClass .digit false)
  | 'D' => some (.ofClass .digit true)
  | 's' => some (.ofClass .space false)
  | 'S' => some (.ofClass .space true)
  | 'a' => some (.range '\x07' '\x07')
  | 'f' => some (.range '\x0c' '\x0c')
  | 'n' => some (.range '\n' '\n')
  | 'r' => some (.range '\r' '\r')
  | 't' => some (.range '\t' '\t')
  | 'v' => some (.range '\x0b' '\x0b')
  | c => if c.isAlphanum then none else some (.range c c)

/-- Reads a character of a set, or an escape. -/
def setItem (text : List Char) : Step Member text.length :=
  match text with
  | [] => none
  | ['\\'] => none
  | '\\' :: c :: rest =>
      (escape? c).map fun m => ⟨m, rest, Nat.lt_succ_of_lt (Nat.lt_succ_self _)⟩
  | c :: rest => some ⟨.range c c, rest, Nat.lt_succ_self _⟩

/-- The character that a member consists of. -/
def singleOf? : Member → Option Char
  | .range first last => if first = last then some first else none
  | .ofClass _ _ => none

/-- Reads a member of a set, with a hyphen that makes no range as a member of its
own. A range has to ascend. -/
def setMembers (text : List Char) : Step (List Member) text.length := do
  let first ← setItem text
  match singleOf? first.value, _after : first.rest with
  | some _, '-' :: ']' :: more =>
      return ⟨[first.value, .range '-' '-'], ']' :: more,
        Nat.lt_trans (by rw [_after]; exact Nat.lt_succ_self _) first.short⟩
  | some low, '-' :: rest =>
      let last ← setItem rest
      have short : last.rest.length < text.length :=
        Nat.lt_trans (Nat.lt_trans last.short (by rw [_after]; exact Nat.lt_succ_self _)) first.short
      match singleOf? last.value with
      | none => return ⟨[first.value, .range '-' '-', last.value], last.rest, short⟩
      | some high => if low ≤ high then return ⟨[.range low high], last.rest, short⟩ else none
  | _, _ => return ⟨[first.value], first.rest, first.short⟩

/-- Reads the members of a set up to the bracket that closes it. The first member
may itself be such a bracket. -/
def setBody (isFirst : Bool) (text : List Char) : Step (List Member) text.length :=
  match isFirst, text with
  | false, ']' :: rest => some ⟨[], rest, Nat.lt_succ_self _⟩
  | _, text =>
      match setMembers text with
      | none => none
      | some first =>
          match setBody false first.rest with
          | none => none
          | some more => some ⟨first.value ++ more.value, more.rest, Nat.lt_trans more.short first.short⟩
termination_by text.length
decreasing_by exact first.short

/-- Reads a set after the bracket that opens it. -/
def set (text : List Char) : Step CharSet text.length :=
  match text with
  | '^' :: rest =>
      (setBody true rest).map fun r => ⟨⟨r.value, true⟩, r.rest, Nat.lt_succ_of_lt r.short⟩
  | text => (setBody true text).map (·.map (⟨·, false⟩))

/-! ## Repetition -/

/-- How a piece is repeated: lazily, or only in the preferred way. -/
inductive Manner
  | greedy
  | lazily
  | atomically

/-- A pattern as it is repeated by a mark. -/
def repeated (mark : Char) (manner : Manner) (p : Pattern) : Pattern :=
  let isLazy := manner matches .lazily
  let inner :=
    if mark = '?' then if isLazy then either empty p else either p empty
    else if mark = '*' then many p isLazy
    else andThen p (many p isLazy)
  if manner matches .atomically then atomic inner else inner

/-- Whether a character is a mark of repetition. -/
def isMark (c : Char) : Bool := c = '?' || c = '*' || c = '+'

/-- Reads the mark of repetition after a piece, if there is one, and what says
in which manner. -/
def repetition (flags : Flags) (text : List Char) (p : Pattern) :
    Reading Char Pattern (text.length + 1) :=
  match _mark : ahead flags text with
  | [] => ⟨p, [], Nat.succ_pos _⟩
  | mark :: rest =>
      have rest_lt := length_lt_of_ahead _mark
      if isMark mark then
        match _manner : ahead flags rest with
        | '?' :: more =>
            ⟨repeated mark .lazily p, more,
              Nat.lt_succ_of_lt (Nat.lt_trans (length_lt_of_ahead _manner) rest_lt)⟩
        | '+' :: more =>
            ⟨repeated mark .atomically p, more,
              Nat.lt_succ_of_lt (Nat.lt_trans (length_lt_of_ahead _manner) rest_lt)⟩
        | _ => ⟨repeated mark .greedy p, rest, Nat.lt_succ_of_lt rest_lt⟩
      else ⟨p, text, Nat.lt_succ_self _⟩

/-! ## Pieces, sequences and choices -/

/-- The body of a group after its opening bracket: a group may say that it does
not capture. -/
def groupBody : List Char → Option (List Char)
  | '?' :: ':' :: rest => some rest
  | '?' :: _ => none
  | text => some text

theorem length_groupBody_le {text body : List Char} (h : groupBody text = some body) :
    body.length ≤ text.length := by
  unfold groupBody at h
  split at h
  next =>
    simp only [Option.some.injEq] at h
    simp only [← h, List.length_cons]
    omega
  next => contradiction
  next =>
    simp only [Option.some.injEq] at h
    exact Nat.le_of_eq (congrArg List.length h.symm)

mutual

/-- Reads one piece without its repetition. A mark of repetition is none. -/
def piece (flags : Flags) (text : List Char) : Step Pattern text.length :=
  match text with
  | [] => none
  | c :: rest =>
      if isMark c then none
      else if c = '\\' then
        match rest with
        | [] => none
        | e :: more =>
            (escape? e).map fun m => ⟨one ⟨[m], false⟩, more, Nat.lt_succ_of_lt (Nat.lt_succ_self _)⟩
      else if c = '.' then some ⟨dot, rest, Nat.lt_succ_self _⟩
      else if c = '^' then some ⟨start, rest, Nat.lt_succ_self _⟩
      else if c = '$' then some ⟨stop, rest, Nat.lt_succ_self _⟩
      else if c = '[' then (set rest).map fun r => ⟨one r.value, r.rest, Nat.lt_succ_of_lt r.short⟩
      else if c = '(' then
        match _body : groupBody rest with
        | none => none
        | some body =>
            have body_le := length_groupBody_le _body
            match choice flags body with
            | none => none
            | some inner =>
                match _close : ahead flags inner.rest with
                | ')' :: more =>
                    have more_lt := length_lt_of_ahead _close
                    some ⟨inner.value, more,
                      Nat.lt_of_lt_of_le more_lt
                        (Nat.le_of_lt_succ (Nat.lt_of_lt_of_le inner.short
                          (Nat.succ_le_succ (Nat.le_succ_of_le body_le))))⟩
                | _ => none
      else some ⟨one (.single c), rest, Nat.lt_succ_self _⟩
termination_by 3 * text.length
decreasing_by
  simp only [List.length_cons]
  omega

/-- Reads pieces with their repetitions up to a bar, a closing bracket or the
end. -/
def pieces (flags : Flags) (text : List Char) : Step Pattern (text.length + 1) :=
  match _at : ahead flags text with
  | [] => some ⟨empty, [], Nat.succ_pos _⟩
  | c :: rest =>
      have rest_lt := length_lt_of_ahead _at
      if c = '|' || c = ')' then some ⟨empty, text, Nat.lt_succ_self _⟩
      else
        match piece flags (c :: rest) with
        | none => none
        | some first =>
            have first_lt : first.rest.length < text.length :=
              Nat.lt_of_lt_of_le first.short rest_lt
            match repetition flags first.rest first.value with
            | ⟨whole, left, left_short⟩ =>
                have left_lt : left.length < text.length := Nat.lt_of_lt_of_le left_short first_lt
                match pieces flags left with
                | none => none
                | some more =>
                    some ⟨andThen whole more.value, more.rest,
                      Nat.lt_trans more.short (Nat.succ_lt_succ left_lt)⟩
termination_by 3 * text.length + 1
decreasing_by
  · simp only [List.length_cons]
    omega
  · omega

/-- Reads sequences with bars between them. -/
def choice (flags : Flags) (text : List Char) : Step Pattern (text.length + 1) :=
  match pieces flags text with
  | none => none
  | some first =>
      match _bar : ahead flags first.rest with
      | '|' :: rest =>
          have rest_lt : rest.length < text.length :=
            Nat.lt_of_lt_of_le (length_lt_of_ahead _bar) (Nat.le_of_lt_succ first.short)
          match choice flags rest with
          | none => none
          | some more =>
              some ⟨either first.value more.value, more.rest,
                Nat.lt_trans more.short (Nat.succ_lt_succ rest_lt)⟩
      | _ => some first
termination_by 3 * text.length + 2

end

/-- The pattern that a text spells. -/
def parse? (flags : Flags) (text : List Char) : Option Pattern :=
  match choice flags text with
  | none => none
  | some r => if (ahead flags r.rest).isEmpty then some r.value else none

end Rulebook.Pattern
