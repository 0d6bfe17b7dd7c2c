import Rulebook.Proofs.Json.Number
import Rulebook.Proofs.Json.String

/-! # Steps of reading a data text

What the reader does at the head of a text, one lemma for each way that a value
can begin and for each way that elements and members can go on.
-/

namespace Rulebook.Json

open Text

variable {text tail rest : List Char} {j : Json}

/-! ## Names -/

theorem exists_name_of_named? {named : List (List Char × Json)}
    (h : named? named text = some (j, rest)) : ∃ n ∈ named, text = n.1 ++ rest ∧ n.2 = j := by
  induction named with
  | nil => cases h
  | cons n more ih =>
      obtain ⟨name, k⟩ := n
      unfold named? at h
      split at h
      · next r hr =>
          cases h
          exact ⟨_, List.mem_cons_self, eq_append_of_after? hr, rfl⟩
      · obtain ⟨n, hn, htext, hvalue⟩ := ih h
        exact ⟨n, List.mem_cons_of_mem _ hn, htext, hvalue⟩

/-- A text that begins with no name is not read as one. -/
theorem readName?_eq_none (h : ∀ n ∈ names, ∀ rest, text ≠ n.1 ++ rest) : readName? text = none := by
  unfold readName?
  split
  · next j rest hnamed =>
      obtain ⟨n, hn, htext, -⟩ := exists_name_of_named? hnamed
      exact absurd htext (h n hn rest)
  · rfl

theorem readName?_eq_none_of_head {c : Char} (h : ∀ n ∈ names, n.1.head? ≠ some c) :
    readName? (c :: tail) = none := by
  refine readName?_eq_none ?_
  intro n hn rest htext
  have hhead := congrArg List.head? htext
  obtain ⟨d, more, hd⟩ := List.exists_cons_of_ne_nil (names_ne_nil n hn)
  rw [hd, List.cons_append, List.head?_cons, List.head?_cons] at hhead
  exact h n hn (by rw [hd, List.head?_cons, hhead])

theorem reads_name (h : named? names text = some (j, rest)) : Reads (readValue text) j rest := by
  have hname : ∃ short, readName? text = some ⟨j, rest, short⟩ := by
    unfold readName?
    split
    · next j' rest' hnamed =>
        rw [h] at hnamed
        cases hnamed
        exact ⟨length_of_named? names_ne_nil h, rfl⟩
    · next hnone =>
        rw [h] at hnone
        cases hnone
  obtain ⟨short, hname⟩ := hname
  rw [readValue.eq_def, hname]
  exact reads_ok.mpr ⟨rfl, rfl⟩

/-! ## Strings, arrays and objects -/

theorem reads_string {s : String} (h : Reads (readString tail) s rest) :
    Reads (readValue ('"' :: tail)) (.string s) rest := by
  rw [readValue, readName?_eq_none_of_head (by decide)]
  simp only
  rw [h.eq_ok]
  exact reads_ok.mpr ⟨rfl, rfl⟩

theorem reads_emptyArray (h : skipSpace tail = ']' :: rest) :
    Reads (readValue ('[' :: tail)) (.array []) rest := by
  rw [readValue, readName?_eq_none_of_head (by decide)]
  simp only
  split
  · next rest' hspace =>
      rw [h] at hspace
      cases hspace
      exact reads_ok.mpr ⟨rfl, rfl⟩
  · next hspace => exact absurd h (hspace _)

theorem reads_array {js : List Json} (hne : (skipSpace tail).head? ≠ some ']')
    (h : Reads (readElements (skipSpace tail)) js rest) :
    Reads (readValue ('[' :: tail)) (.array js) rest := by
  rw [readValue, readName?_eq_none_of_head (by decide)]
  simp only
  split
  · next rest' hspace => exact absurd (congrArg List.head? hspace) hne
  · rw [h.eq_ok]
    exact reads_ok.mpr ⟨rfl, rfl⟩

theorem reads_emptyObject (h : skipSpace tail = '\x7d' :: rest) :
    Reads (readValue ('\x7b' :: tail)) (.object []) rest := by
  rw [readValue, readName?_eq_none_of_head (by decide)]
  simp only
  split
  · next rest' hspace =>
      rw [h] at hspace
      cases hspace
      exact reads_ok.mpr ⟨rfl, rfl⟩
  · next hspace => exact absurd h (hspace _)

theorem reads_object {members : List (String × Json)} (hne : (skipSpace tail).head? ≠ some '\x7d')
    (h : Reads (readMembers (skipSpace tail)) members rest) :
    Reads (readValue ('\x7b' :: tail)) (ofMembers members) rest := by
  rw [readValue, readName?_eq_none_of_head (by decide)]
  simp only
  split
  · next rest' hspace => exact absurd (congrArg List.head? hspace) hne
  · rw [h.eq_ok]
    exact reads_ok.mpr ⟨rfl, rfl⟩

/-- What begins like no other value is read as a number. -/
theorem readValue_eq_readNumber {c : Char} (hname : readName? (c :: tail) = none)
    (hstring : c ≠ '"') (harray : c ≠ '[') (hobject : c ≠ '\x7b') :
    readValue (c :: tail) = readNumber (c :: tail) := by
  rw [readValue, hname]
  · exact fun _ heq => hstring (List.cons.inj heq).1
  · exact fun _ heq => harray (List.cons.inj heq).1
  · exact fun _ heq => hobject (List.cons.inj heq).1

/-! ## Elements and members -/

/-- After an element comes the closing bracket, or a comma and more elements. -/
theorem reads_elements {middle : List Char} {js : List Json} (h : Reads (readValue text) j middle)
    (hafter : (skipSpace middle = ']' :: rest ∧ js = []) ∨
      ∃ tail, skipSpace middle = ',' :: tail ∧ Reads (readElements (skipSpace tail)) js rest) :
    Reads (readElements text) (j :: js) rest := by
  rw [readElements, h.eq_ok]
  refine reads_bind.mpr ⟨j, middle, reads_ok.mpr ⟨rfl, rfl⟩, ?_⟩
  simp only
  rcases hafter with ⟨hclose, rfl⟩ | ⟨tail, hcomma, hmore⟩
  · split
    · next heq => cases hclose.symm.trans heq
    · next heq =>
        cases hclose.symm.trans heq
        exact reads_ok.mpr ⟨rfl, rfl⟩
    · next hnot => exact absurd hclose (hnot _)
  · split
    · next heq =>
        cases hcomma.symm.trans heq
        rw [hmore.eq_ok]
        exact reads_ok.mpr ⟨rfl, rfl⟩
    · next heq => cases hcomma.symm.trans heq
    · next hnot _ => exact absurd hcomma (hnot _)

/-- A member at the head of a text, up to what follows its value. -/
inductive ReadsMember (key : String) (j : Json) (middle : List Char) : List Char → Prop
  | intro {tail afterKey afterColon : List Char} (key_read : Reads (readString tail) key afterKey)
      (colon : skipSpace afterKey = ':' :: afterColon)
      (value_read : Reads (readValue (skipSpace afterColon)) j middle) :
      ReadsMember key j middle ('"' :: tail)

/-- After a member comes the closing brace, or a comma and more members. -/
theorem reads_members {key : String} {middle : List Char} {members : List (String × Json)}
    (h : ReadsMember key j middle text)
    (hafter : (skipSpace middle = '\x7d' :: rest ∧ members = []) ∨
      ∃ tail, skipSpace middle = ',' :: tail ∧ Reads (readMembers (skipSpace tail)) members rest) :
    Reads (readMembers text) ((key, j) :: members) rest := by
  cases h with
  | @intro tail afterKey afterColon hkey hcolon hvalue =>
      rw [readMembers, hkey.eq_ok]
      refine reads_bind.mpr ⟨key, afterKey, reads_ok.mpr ⟨rfl, rfl⟩, ?_⟩
      simp only
      split
      · next heq =>
          cases hcolon.symm.trans heq
          rw [hvalue.eq_ok]
          refine reads_bind.mpr ⟨j, middle, reads_ok.mpr ⟨rfl, rfl⟩, ?_⟩
          simp only
          rcases hafter with ⟨hclose, rfl⟩ | ⟨tail, hcomma, hmore⟩
          · split
            · next heq => cases hclose.symm.trans heq
            · next heq =>
                cases hclose.symm.trans heq
                exact reads_ok.mpr ⟨rfl, rfl⟩
            · next hnot => exact absurd hclose (hnot _)
          · split
            · next heq =>
                cases hcomma.symm.trans heq
                rw [hmore.eq_ok]
                exact reads_ok.mpr ⟨rfl, rfl⟩
            · next heq => cases hcomma.symm.trans heq
            · next hnot _ => exact absurd hcomma (hnot _)
      · next hnot => exact absurd hcolon (hnot _)

end Rulebook.Json
