import Mathlib.Data.List.TakeWhile
import Rulebook.Proofs.Json.RoundTrip

/-! # What a data text is read as

Every text that is accepted is read as data that a text can hold: its whole numbers are
short enough to be read again, its other numbers are of the format, and of members with
one key only one is left.
-/

namespace Rulebook.Json

open Text Numeral Decimal Double

/-! ## Members -/

variable {members : List (String × Json)} {allowed : Int → Prop}

theorem mem_keys_put {key k : String} {j : Json} (h : k ∈ (put members key j).map Prod.fst) :
    k = key ∨ k ∈ members.map Prod.fst := by
  induction members with
  | nil => exact .inl (List.mem_singleton.mp h)
  | cons member rest ih =>
      obtain ⟨k', v⟩ := member
      rw [put] at h
      split at h
      · exact .inr h
      · rcases List.mem_cons.mp h with rfl | hrest
        · exact .inr List.mem_cons_self
        · exact (ih hrest).imp_right (List.mem_cons_of_mem _)

theorem nodup_keys_put (h : (members.map Prod.fst).Nodup) (key : String) (j : Json) :
    ((put members key j).map Prod.fst).Nodup := by
  induction members with
  | nil => exact List.nodup_singleton key
  | cons member rest ih =>
      obtain ⟨k, v⟩ := member
      obtain ⟨hnew, hrest⟩ := List.nodup_cons.mp h
      rw [put]
      split
      · exact h
      · next hkey =>
          refine List.nodup_cons.mpr ⟨?_, ih hrest⟩
          intro hmem
          rcases mem_keys_put hmem with heq | hmem
          · exact hkey heq
          · exact hnew hmem

theorem isData_of_mem_put (h : ∀ member ∈ members, IsData allowed member.2) {key : String} {j : Json}
    (hj : IsData allowed j) : ∀ member ∈ put members key j, IsData allowed member.2 := by
  induction members with
  | nil => exact List.forall_mem_singleton.mpr hj
  | cons first rest ih =>
      obtain ⟨hfirst, hrest⟩ := List.forall_mem_cons.mp h
      rw [put]
      split
      · exact List.forall_mem_cons.mpr ⟨hj, hrest⟩
      · exact List.forall_mem_cons.mpr ⟨hfirst, ih hrest⟩

/-- Members in the order in which they were written make an object with distinct keys. -/
theorem isData_ofMembers (h : ∀ member ∈ members, IsData allowed member.2) :
    IsData allowed (ofMembers members) := by
  -- The members before these are an object already.
  have hfold : ∀ written : List (String × Json), (written.map Prod.fst).Nodup →
      (∀ member ∈ written, IsData allowed member.2) →
      IsData allowed (.object (members.foldl (fun ms member => put ms member.1 member.2) written)) := by
    induction members with
    | nil => exact fun written distinct ok => .object distinct ok
    | cons member rest ih =>
        obtain ⟨hmember, hrest⟩ := List.forall_mem_cons.mp h
        intro written distinct ok
        exact ih hrest _ (nodup_keys_put distinct _ _) (isData_of_mem_put ok hmember)
  exact hfold [] List.nodup_nil (by simp)

/-! ## Numbers -/

theorem isAsciiDigit_of_mem_splitWhole {text : List Char} :
    ∀ c ∈ (splitWhole text).1, isAsciiDigit c := by
  intro c hc
  unfold splitWhole at hc
  split at hc
  · rw [List.mem_singleton.mp hc]
    decide
  · exact List.mem_takeWhile_imp hc

/-- A number that has a value is data, if its whole part is of digits. -/
theorem isData_of_value {n : NumberText} (hdigits : ∀ c ∈ n.whole, isAsciiDigit c)
    (hne : n.whole ≠ []) {j : Json} (h : n.value = .ok j) : IsData IsReadable j := by
  unfold NumberText.value at h
  split at h
  · split at h
    · cases h
    · next hlength =>
        cases h
        refine .int ?_
        have habs : (if n.negative then -(natOfDigits n.whole : Int) else natOfDigits n.whole).natAbs =
            natOfDigits n.whole := by
          split <;> omega
        rw [IsReadable, habs]
        exact (length_digitsOf_natOfDigits_le hdigits hne).trans (not_lt.mp hlength)
  · cases h
    exact .float (isNumber_ofDecimal _ _ _)

theorem isData_of_readNumber {text rest : List Char} {j : Json} (h : Reads (readNumber text) j rest) :
    IsData IsReadable j := by
  unfold readNumber at h
  dsimp only at h
  split at h
  · next hne =>
      cases hvalue : NumberText.value _ with
      | error e =>
          rw [hvalue] at h
          exact absurd h not_reads_error
      | ok value =>
          rw [hvalue, ok_bind] at h
          obtain ⟨rfl, -⟩ := reads_ok.mp h
          exact isData_of_value isAsciiDigit_of_mem_splitWhole hne hvalue
  · exact absurd h not_reads_error

theorem isData_of_readName? {text : List Char} {r : Reading Char Json text.length}
    (h : readName? text = some r) : IsData allowed r.value := by
  unfold readName? at h
  split at h
  · next j rest hnamed =>
      cases h
      obtain ⟨n, hn, -, rfl⟩ := exists_name_of_named? hnamed
      simp only [names, List.mem_cons, List.not_mem_nil, or_false] at hn
      rcases hn with rfl | rfl | rfl | rfl | rfl | rfl
      · exact .null
      · exact .bool true
      · exact .bool false
      · exact .notANumber
      · exact .float trivial
      · exact .float trivial
  · cases h

/-! ## Values -/

variable {text rest : List Char} {j : Json}

/-- How a value at the head of a text was read. -/
inductive ValueRead (text : List Char) (j : Json) (rest : List Char) : Prop
  | name {r : Reading Char Json text.length} (name_read : readName? text = some r)
      (value_eq : r.value = j) : ValueRead text j rest
  | string {s : String} (value_eq : .string s = j) : ValueRead text j rest
  | emptyArray (value_eq : .array [] = j) : ValueRead text j rest
  | array {tail : List Char} {js : List Json} (text_eq : text = '[' :: tail)
      (elements_read : Reads (readElements (skipSpace tail)) js rest) (value_eq : .array js = j) :
      ValueRead text j rest
  | emptyObject (value_eq : .object [] = j) : ValueRead text j rest
  | object {tail : List Char} {members : List (String × Json)} (text_eq : text = '\x7b' :: tail)
      (members_read : Reads (readMembers (skipSpace tail)) members rest)
      (value_eq : ofMembers members = j) : ValueRead text j rest
  | number (number_read : Reads (readNumber text) j rest) : ValueRead text j rest

theorem valueRead_of_reads (h : Reads (readValue text) j rest) : ValueRead text j rest := by
  unfold readValue at h
  split at h
  · next r hname =>
      obtain ⟨hvalue, -⟩ := reads_ok.mp h
      exact .name hname hvalue
  · split at h
    · obtain ⟨s, middle, hs, hrest⟩ := reads_bind.mp h
      exact .string (reads_ok.mp hrest).1
    · split at h
      · exact .emptyArray (reads_ok.mp h).1
      · obtain ⟨js, middle, hjs, hrest⟩ := reads_bind.mp h
        obtain ⟨hvalue, hmiddle⟩ := reads_ok.mp hrest
        exact .array rfl (hmiddle ▸ hjs) hvalue
    · split at h
      · exact .emptyObject (reads_ok.mp h).1
      · obtain ⟨members, middle, hmembers, hrest⟩ := reads_bind.mp h
        obtain ⟨hvalue, hmiddle⟩ := reads_ok.mp hrest
        exact .object rfl (hmiddle ▸ hmembers) hvalue
    · exact .number h

/-- The elements of an array were read as a first one and those after a comma, if any. -/
theorem elementsRead_of_reads {js : List Json} (h : Reads (readElements text) js rest) :
    ∃ first more, js = first :: more ∧ (∃ middle, Reads (readValue text) first middle) ∧
      (more = [] ∨ ∃ tail : List Char, tail.length < text.length ∧
        Reads (readElements (skipSpace tail)) more rest) := by
  unfold readElements at h
  obtain ⟨first, middle, hfirst, h⟩ := reads_bind.mp h
  dsimp only at h
  split at h
  · next tail hspace =>
      obtain ⟨more, last, hmore, hrest⟩ := reads_bind.mp h
      obtain ⟨rfl, hlast⟩ := reads_ok.mp hrest
      refine ⟨first, more, rfl, ⟨middle, hfirst⟩, .inr ⟨tail, ?_, hlast ▸ hmore⟩⟩
      have hshorter := length_skipSpace_le middle
      rw [hspace, List.length_cons] at hshorter
      exact Nat.lt_of_lt_of_le hshorter hfirst.short.le
  · obtain ⟨rfl, -⟩ := reads_ok.mp h
    exact ⟨first, [], rfl, ⟨middle, hfirst⟩, .inl rfl⟩
  · exact absurd h not_reads_error

/-- The members of an object were read as a first one and those after a comma, if any. -/
theorem membersRead_of_reads {members : List (String × Json)}
    (h : Reads (readMembers text) members rest) :
    ∃ key first more, members = (key, first) :: more ∧
      (∃ tail middle, tail.length < text.length ∧ Reads (readValue (skipSpace tail)) first middle) ∧
      (more = [] ∨ ∃ tail : List Char, tail.length < text.length ∧
        Reads (readMembers (skipSpace tail)) more rest) := by
  unfold readMembers at h
  split at h
  · next tail =>
      obtain ⟨key, afterKey, hkey, h⟩ := reads_bind.mp h
      dsimp only at h
      split at h
      · next afterColon hcolon =>
          have hcolon_le := length_skipSpace_le afterKey
          rw [hcolon, List.length_cons] at hcolon_le
          have hvalue_lt : afterColon.length < ('"' :: tail).length :=
            Nat.lt_of_lt_of_le hcolon_le (Nat.le_succ_of_le hkey.short.le)
          obtain ⟨first, middle, hfirst, h⟩ := reads_bind.mp h
          dsimp only at h
          split at h
          · next afterComma hspace =>
              obtain ⟨more, last, hmore, hrest⟩ := reads_bind.mp h
              obtain ⟨rfl, hlast⟩ := reads_ok.mp hrest
              refine ⟨key, first, more, rfl, ⟨afterColon, middle, hvalue_lt, hfirst⟩,
                .inr ⟨afterComma, ?_, hlast ▸ hmore⟩⟩
              have hshorter := length_skipSpace_le middle
              rw [hspace, List.length_cons] at hshorter
              have hmiddle := hfirst.short.trans_le (length_skipSpace_le afterColon)
              exact Nat.lt_of_lt_of_le hshorter (hmiddle.le.trans hvalue_lt.le)
          · obtain ⟨rfl, -⟩ := reads_ok.mp h
            exact ⟨key, first, [], rfl, ⟨afterColon, middle, hvalue_lt, hfirst⟩, .inl rfl⟩
          · exact absurd h not_reads_error
      · exact absurd h not_reads_error
  · exact absurd h not_reads_error

mutual

/-- A value at the head of a text is read as data. -/
theorem isData_of_readValue (text : List Char) {rest : List Char} {j : Json}
    (h : Reads (readValue text) j rest) : IsData IsReadable j := by
  cases valueRead_of_reads h with
  | name name_read value_eq => exact value_eq ▸ isData_of_readName? name_read
  | string value_eq => exact value_eq ▸ .string _
  | emptyArray value_eq => exact value_eq ▸ .array (by simp)
  | @array tail js text_eq elements_read value_eq =>
      have hshorter : (skipSpace tail).length < text.length := by
        rw [text_eq]
        exact Nat.lt_succ_of_le (length_skipSpace_le tail)
      exact value_eq ▸ .array (isData_of_readElements _ elements_read)
  | emptyObject value_eq => exact value_eq ▸ .object List.nodup_nil (by simp)
  | @object tail members text_eq members_read value_eq =>
      have hshorter : (skipSpace tail).length < text.length := by
        rw [text_eq]
        exact Nat.lt_succ_of_le (length_skipSpace_le tail)
      exact value_eq ▸ isData_ofMembers (isData_of_readMembers _ members_read)
  | number number_read => exact isData_of_readNumber number_read
termination_by (text.length, 0)

/-- The elements of an array are read as data. -/
theorem isData_of_readElements (text : List Char) {rest : List Char} {js : List Json}
    (h : Reads (readElements text) js rest) : ∀ j ∈ js, IsData IsReadable j := by
  obtain ⟨first, more, rfl, ⟨middle, hfirst⟩, hmore⟩ := elementsRead_of_reads h
  refine List.forall_mem_cons.mpr ⟨isData_of_readValue text hfirst, ?_⟩
  rcases hmore with rfl | ⟨tail, hlt, hmore⟩
  · simp
  · have hshorter := (length_skipSpace_le tail).trans_lt hlt
    exact isData_of_readElements _ hmore
termination_by (text.length, 1)

/-- The values of the members of an object are read as data. -/
theorem isData_of_readMembers (text : List Char) {rest : List Char} {members : List (String × Json)}
    (h : Reads (readMembers text) members rest) : ∀ member ∈ members, IsData IsReadable member.2 := by
  obtain ⟨key, first, more, rfl, ⟨afterColon, middle, hvalue_lt, hfirst⟩, hmore⟩ :=
    membersRead_of_reads h
  have hshorter := (length_skipSpace_le afterColon).trans_lt hvalue_lt
  refine List.forall_mem_cons.mpr ⟨isData_of_readValue _ hfirst, ?_⟩
  rcases hmore with rfl | ⟨tail, hlt, hmore⟩
  · simp
  · have hshorter := (length_skipSpace_le tail).trans_lt hlt
    exact isData_of_readMembers _ hmore
termination_by (text.length, 1)

end

/-- What a text is read as can be written and read again. -/
theorem isData_of_parse {text : String} {j : Json} (h : parse text = .ok j) : IsData IsReadable j := by
  unfold parse parseChars at h
  obtain ⟨r, hr, h⟩ := bind_eq_ok.mp h
  split at h
  · cases h
    exact isData_of_readValue _ ⟨r.short, hr⟩
  · cases h

end Rulebook.Json
