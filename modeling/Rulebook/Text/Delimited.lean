/-! # Words and delimited bodies at the head of a text -/

namespace Rulebook.Text

/-- What follows a word at the head of a text. -/
def after? : List Char → List Char → Option (List Char)
  | [], text => some text
  | c :: word, d :: text => if c = d then after? word text else none
  | _ :: _, [] => none

theorem eq_append_of_after? {word text rest : List Char} (h : after? word text = some rest) :
    text = word ++ rest := by
  induction word generalizing text with
  | nil => simpa [after?] using h
  | cons c word ih =>
      cases text with
      | nil => simp [after?] at h
      | cons d text =>
          simp only [after?] at h
          split at h
          next heq => rw [heq, ih h, List.cons_append]
          next => contradiction

theorem after?_append (word rest : List Char) : after? word (word ++ rest) = some rest := by
  induction word with
  | nil => rfl
  | cons c word ih => simp [after?, ih]

/-- The body of a literal up to its closing character, and what follows that
character. A backslash takes the next character with it, whatever it is; any
other character must be plain. -/
def delimited (close : Char) (plain : Char → Bool) : List Char → Option (List Char × List Char)
  | [] => none
  | c :: rest =>
      if c = close then some ([], rest)
      else if c = '\\' then
        match rest with
        | [] => none
        | e :: more =>
            match delimited close plain more with
            | none => none
            | some (body, tail) => some (c :: e :: body, tail)
      else if plain c then
        match delimited close plain rest with
        | none => none
        | some (body, tail) => some (c :: body, tail)
      else none

/-- A delimited body, its closing character and the rest make up the text. -/
theorem delimited_append {close : Char} {plain : Char → Bool} {text body rest : List Char}
    (h : delimited close plain text = some (body, rest)) : body ++ close :: rest = text := by
  fun_induction delimited close plain text generalizing body rest with
  | case1 => simp at h
  | case2 => simp_all
  | case3 => simp at h
  | case4 => simp at h
  | case5 e more inner tail hinner _ ih =>
      simp only [Option.some.injEq, Prod.mk.injEq] at h
      rw [← h.1, ← h.2, List.cons_append, List.cons_append, ih hinner]
  | case6 => simp at h
  | case7 c more _ _ _ inner tail hinner ih =>
      simp only [Option.some.injEq, Prod.mk.injEq] at h
      rw [← h.1, ← h.2, List.cons_append, ih hinner]
  | case8 => simp at h

theorem length_of_delimited {close : Char} {plain : Char → Bool} {text body rest : List Char}
    (h : delimited close plain text = some (body, rest)) : rest.length < text.length := by
  rw [← delimited_append h, List.length_append, List.length_cons]
  omega

end Rulebook.Text
