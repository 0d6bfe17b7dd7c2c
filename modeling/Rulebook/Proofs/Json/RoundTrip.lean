import Rulebook.Proofs.Json.Value

/-! # Writing and reading data texts

Data is read back from its text in every layout. A number ends where its text
does only if nothing comes next that could go on with it, so what follows is
part of the statement: a comma, white space, a closing bracket, or nothing.
-/

namespace Rulebook.Json

open Text Numeral Decimal

/-- Data that a text can hold: numbers of the format, not-a-number under its name,
whole numbers that are allowed, and objects whose keys are distinct. -/
inductive IsData (allowed : Int → Prop) : Json → Prop
  | null : IsData allowed .null
  | bool (b : Bool) : IsData allowed (.bool b)
  | int {i : Int} (ok : allowed i) : IsData allowed (.int i)
  | float {x : Double} (number : x.IsNumber) : IsData allowed (.float x)
  | notANumber : IsData allowed (.float (.nan true))
  | string (s : String) : IsData allowed (.string s)
  | array {elements : List Json} (ok : ∀ j ∈ elements, IsData allowed j) :
      IsData allowed (.array elements)
  | object {members : List (String × Json)} (distinct : (members.map Prod.fst).Nodup)
      (ok : ∀ member ∈ members, IsData allowed member.2) : IsData allowed (.object members)

/-- A whole number that is short enough to be read. -/
def IsReadable (i : Int) : Prop := (digitsOf i.natAbs).length ≤ maxIntegerDigits

/-! ## How values begin -/

/-- A text begins with what is neither white space nor a closing bracket. -/
def Begins (text : List Char) : Prop :=
  ∃ c more, text = c :: more ∧ isSpace c = false ∧ c ≠ ']'

theorem Begins.append {text : List Char} (h : Begins text) (rest : List Char) :
    Begins (text ++ rest) := by
  obtain ⟨c, more, rfl, hspace, hbracket⟩ := h
  exact ⟨c, more ++ rest, rfl, hspace, hbracket⟩

theorem skipSpace_of_begins {text : List Char} (h : Begins text) : skipSpace text = text := by
  obtain ⟨c, more, rfl, hspace, -⟩ := h
  exact Sequence.dropWhile_of_stopsBefore (Sequence.stopsBefore_cons.mpr hspace)

theorem skipSpace_append {blanks text : List Char} (h : ∀ c ∈ blanks, isSpace c) :
    skipSpace (blanks ++ text) = skipSpace text := by
  rw [skipSpace, List.dropWhile_append_of_pos h]
  rfl

/-- White space before a value is skipped, and nothing of the value. -/
theorem skipSpace_append_of_begins {blanks text : List Char} (hblanks : ∀ c ∈ blanks, isSpace c)
    (hbegins : Begins text) (rest : List Char) :
    skipSpace (blanks ++ (text ++ rest)) = text ++ rest := by
  rw [skipSpace_append hblanks, skipSpace_of_begins (hbegins.append rest)]

/-- The first character of a number, and the next one after a sign, is a digit. -/
theorem exists_digit_of_text {n : NumberText} (h : n.IsProper) :
    ∃ d more, isAsciiDigit d ∧ n.text = minusText n.negative ++ d :: more := by
  obtain ⟨d, more, hwhole⟩ := List.exists_cons_of_ne_nil h.whole_ne_nil
  refine ⟨d, more ++ pointText n.fraction ++ exponentPart n.exponent,
    h.whole_digits d (by rw [hwhole]; exact List.mem_cons_self), ?_⟩
  rw [NumberText.text, hwhole]
  simp only [List.append_assoc, List.cons_append]

theorem begins_text {n : NumberText} (h : n.IsProper) : Begins n.text := by
  obtain ⟨d, more, hd, htext⟩ := exists_digit_of_text h
  rw [htext]
  cases n.negative with
  | true => exact ⟨'-', d :: more, rfl, by decide, by decide⟩
  | false =>
      have hspace : isSpace d = false := forall_isAsciiDigit (p := fun d => isSpace d = false)
        (by decide) hd
      have hbracket : d ≠ ']' := forall_isAsciiDigit (p := fun d => d ≠ ']') (by decide) hd
      exact ⟨d, more, rfl, hspace, hbracket⟩

/-- No name begins with a digit or with a minus sign and a digit. -/
theorem readName?_text_eq_none {n : NumberText} (h : n.IsProper) (rest : List Char) :
    readName? (n.text ++ rest) = none := by
  obtain ⟨d, more, hd, htext⟩ := exists_digit_of_text h
  rw [htext]
  cases n.negative with
  | true =>
      refine readName?_eq_none ?_
      intro name hname rest' heq
      have hlong : ∀ n ∈ names, 2 ≤ n.1.length := by decide
      have hother : ∀ n ∈ names, n.1.take 2 ≠ ['-', d] :=
        forall_isAsciiDigit (p := fun d => ∀ n ∈ names, n.1.take 2 ≠ ['-', d]) (by decide) hd
      have htake := congrArg (List.take 2) heq
      rw [List.take_append_of_le_length (hlong name hname)] at htake
      exact hother name hname htake.symm
  | false =>
      refine readName?_eq_none_of_head ?_
      exact forall_isAsciiDigit (p := fun d => ∀ n ∈ names, n.1.head? ≠ some d) (by decide) hd

/-- A number is read as one where a value is expected. -/
theorem reads_value_of_number {n : NumberText} (h : n.IsProper) {rest : List Char} {j : Json}
    (hnumber : Reads (readNumber (n.text ++ rest)) j rest) :
    Reads (readValue (n.text ++ rest)) j rest := by
  obtain ⟨d, more, hd, htext⟩ := exists_digit_of_text h
  have hname := readName?_text_eq_none h rest
  rw [htext] at hname hnumber ⊢
  cases hnegative : n.negative with
  | true =>
      rw [hnegative] at hname hnumber
      rw [minusText, if_pos rfl, List.singleton_append, List.cons_append] at hname hnumber ⊢
      rw [readValue_eq_readNumber hname (by decide) (by decide) (by decide)]
      exact hnumber
  | false =>
      rw [hnegative] at hname hnumber
      rw [minusText, if_neg Bool.false_ne_true, List.nil_append, List.cons_append]
        at hname hnumber ⊢
      have hother : d ≠ '"' ∧ d ≠ '[' ∧ d ≠ '\x7b' :=
        forall_isAsciiDigit (p := fun d => d ≠ '"' ∧ d ≠ '[' ∧ d ≠ '\x7b') (by decide) hd
      rw [readValue_eq_readNumber hname hother.1 hother.2.1 hother.2.2]
      exact hnumber

/-! ## Scalars -/

/-- A whole number that is not too long is read back. -/
theorem reads_writtenInt {i : Int} (h : IsReadable i) {rest : List Char} (hrest : EndsNumber rest) :
    Reads (readValue (writtenInt i ++ rest)) (.int i) rest := by
  rw [← text_ofInt]
  exact reads_value_of_number (isProper_ofInt i) (reads_number (isProper_ofInt i) hrest (value_ofInt h))

/-- A number of the format is read back, under its name if it is an infinity. -/
theorem reads_writtenFloat {x : Double} (h : x.IsNumber) {rest : List Char}
    (hrest : EndsNumber rest) :
    Reads (readValue (DoubleFormat.data.write x ++ rest)) (.float x) rest := by
  cases x with
  | nan named => exact h.elim
  | infinity negative => cases negative <;> exact reads_name rfl
  | finite negative m q =>
      obtain ⟨n, hn⟩ := exists_writes_finite h negative
      rw [← hn.text_eq]
      exact reads_value_of_number hn.proper (reads_number hn.proper hrest hn.value_eq)

theorem begins_writtenFloat {x : Double} (h : x.IsNumber) : Begins (DoubleFormat.data.write x) := by
  cases x with
  | nan named => exact h.elim
  | infinity negative =>
      cases negative with
      | true => exact ⟨'-', "Infinity".toList, rfl, by decide, by decide⟩
      | false => exact ⟨'I', "nfinity".toList, rfl, by decide, by decide⟩
  | finite negative m q =>
      obtain ⟨n, hn⟩ := exists_writes_finite h negative
      rw [← hn.text_eq]
      exact begins_text hn.proper

theorem begins_writtenString (s : String) : Begins (writtenString s) :=
  ⟨'"', _, by rw [writtenString]; rfl, by decide, by decide⟩

variable {allowed : Int → Prop}

/-- Every value that is written begins like one. -/
theorem begins_write {j : Json} (h : IsData allowed j) (layout : Layout) :
    Begins (write layout j) := by
  cases h with
  | null => exact ⟨'n', "ull".toList, by rw [write]; rfl, by decide, by decide⟩
  | bool b =>
      cases b with
      | true => exact ⟨'t', "rue".toList, by rw [write]; rfl, by decide, by decide⟩
      | false => exact ⟨'f', "alse".toList, by rw [write]; rfl, by decide, by decide⟩
  | @int i ok =>
      rw [write, ← text_ofInt]
      exact begins_text (isProper_ofInt i)
  | float number =>
      rw [write]
      exact begins_writtenFloat number
  | notANumber => exact ⟨'N', "aN".toList, by rw [write]; rfl, by decide, by decide⟩
  | string s =>
      rw [write]
      exact begins_writtenString s
  | @array elements ok =>
      cases elements with
      | nil => exact ⟨'[', _, by rw [write], by decide, by decide⟩
      | cons j rest => exact ⟨'[', _, by rw [write]; rfl, by decide, by decide⟩
  | @object members distinct ok =>
      cases members with
      | nil => exact ⟨'\x7b', _, by rw [write], by decide, by decide⟩
      | cons member rest => exact ⟨'\x7b', _, by rw [write]; rfl, by decide, by decide⟩

/-! ## Layout -/

theorem isSpace_of_mem_lineBreak (layout : Layout) : ∀ c ∈ layout.lineBreak, isSpace c := by
  intro c hc
  cases layout with
  | compact => cases hc
  | indented level =>
      rcases List.mem_cons.mp hc with rfl | hspace
      · decide
      · rw [List.eq_of_mem_replicate hspace]
        decide

/-- A separator is a comma and white space. -/
theorem exists_separator (layout : Layout) :
    ∃ blanks, layout.separator = ',' :: blanks ∧ ∀ c ∈ blanks, isSpace c := by
  cases layout with
  | compact => exact ⟨[' '], rfl, List.forall_mem_singleton.mpr rfl⟩
  | indented level => exact ⟨_, rfl, isSpace_of_mem_lineBreak (.indented level)⟩

theorem continuesNumber_of_isSpace {c : Char} (h : isSpace c) : continuesNumber c = false := by
  simp only [isSpace, Bool.or_eq_true, decide_eq_true_eq] at h
  rcases h with ((rfl | rfl) | rfl) | rfl <;> decide

/-- White space ends a number. -/
theorem endsNumber_of_isSpace {blanks : List Char} (h : ∀ c ∈ blanks, isSpace c) :
    EndsNumber blanks :=
  fun c hc => continuesNumber_of_isSpace (h c (List.mem_of_mem_head? hc))

/-- White space and a closing bracket end a number. -/
theorem endsNumber_closing {blanks : List Char} (h : ∀ c ∈ blanks, isSpace c) {bracket : Char}
    (hbracket : continuesNumber bracket = false) (rest : List Char) :
    EndsNumber (blanks ++ bracket :: rest) := by
  cases blanks with
  | nil => exact Sequence.stopsBefore_cons.mpr hbracket
  | cons c more => exact Sequence.stopsBefore_cons.mpr (continuesNumber_of_isSpace (h c List.mem_cons_self))

theorem endsNumber_writeElements (layout : Layout) (js : List Json) {rest : List Char}
    (h : EndsNumber rest) : EndsNumber (writeElements layout js ++ rest) := by
  cases js with
  | nil => rwa [writeElements, List.nil_append]
  | cons j more =>
      obtain ⟨blanks, hblanks, -⟩ := exists_separator layout
      rw [writeElements, hblanks]
      exact Sequence.stopsBefore_cons.mpr (by decide)

theorem endsNumber_writeMembers (layout : Layout) (members : List (String × Json))
    {rest : List Char} (h : EndsNumber rest) :
    EndsNumber (writeMembers layout members ++ rest) := by
  cases members with
  | nil => rwa [writeMembers, List.nil_append]
  | cons member more =>
      obtain ⟨key, j⟩ := member
      obtain ⟨blanks, hblanks, -⟩ := exists_separator layout
      rw [writeMembers, hblanks]
      exact Sequence.stopsBefore_cons.mpr (by decide)

/-! ## Objects -/

theorem put_of_notMem {members : List (String × Json)} {key : String}
    (h : key ∉ members.map Prod.fst) (j : Json) : put members key j = members ++ [(key, j)] := by
  induction members with
  | nil => rfl
  | cons member rest ih =>
      obtain ⟨k, v⟩ := member
      rw [List.map_cons, List.mem_cons, not_or] at h
      rw [put, if_neg (Ne.symm h.1), ih h.2, List.cons_append]

theorem foldl_put {members written : List (String × Json)}
    (h : ((written ++ members).map Prod.fst).Nodup) :
    members.foldl (fun written member => put written member.1 member.2) written =
      written ++ members := by
  induction members generalizing written with
  | nil => rw [List.append_nil]; rfl
  | cons member rest ih =>
      have hnew : member.1 ∉ written.map Prod.fst := by
        intro hmem
        rw [List.map_append, List.nodup_append] at h
        exact h.2.2 _ hmem _ (by simp) rfl
      rw [List.foldl_cons, put_of_notMem hnew, ih (by simpa using h)]
      simp

/-- Members with distinct keys are an object as they stand. -/
theorem ofMembers_of_nodup {members : List (String × Json)} (h : (members.map Prod.fst).Nodup) :
    ofMembers members = .object members := by
  rw [ofMembers, foldl_put (by simpa using h), List.nil_append]

/-! ## Values -/

/-- A member is read up to what follows its value. -/
theorem readsMember_written (key : String) {j : Json} {layout : Layout} {middle : List Char}
    (hbegins : Begins (write layout j))
    (h : Reads (readValue (write layout j ++ middle)) j middle) :
    ReadsMember key j middle (writtenString key ++ ':' :: ' ' :: (write layout j ++ middle)) := by
  have hvalue : skipSpace (' ' :: (write layout j ++ middle)) = write layout j ++ middle :=
    skipSpace_of_begins (hbegins.append middle)
  rw [← hvalue] at h
  have hcolon : skipSpace (':' :: ' ' :: (write layout j ++ middle)) =
      ':' :: ' ' :: (write layout j ++ middle) := rfl
  rw [writtenString]
  simp only [List.cons_append, List.append_assoc, List.nil_append]
  exact .intro (reads_writtenString key _) hcolon h

/-- An array is read if its elements are, from the first one on. -/
theorem reads_array_of_elements {j : Json} {more : List Json} {layout : Layout} {rest : List Char}
    (hbegins : Begins (write layout.deeper j))
    (h : Reads (readElements (write layout.deeper j ++
      (writeElements layout.deeper more ++ (layout.lineBreak ++ ']' :: rest)))) (j :: more) rest) :
    Reads (readValue (write layout (.array (j :: more)) ++ rest)) (.array (j :: more)) rest := by
  have hspace := skipSpace_append_of_begins (isSpace_of_mem_lineBreak layout.deeper) hbegins
    (writeElements layout.deeper more ++ (layout.lineBreak ++ ']' :: rest))
  have htext : write layout (.array (j :: more)) ++ rest =
      '[' :: (layout.deeper.lineBreak ++ (write layout.deeper j ++
        (writeElements layout.deeper more ++ (layout.lineBreak ++ ']' :: rest)))) := by
    rw [write]
    simp only [List.cons_append, List.append_assoc, List.nil_append]
  rw [htext]
  refine reads_array ?_ ?_
  · rw [hspace]
    obtain ⟨c, text, hhead, -, hbracket⟩ := hbegins
    rw [hhead]
    intro heq
    exact hbracket (Option.some.inj heq)
  · rw [hspace]
    exact h

/-- An object with distinct keys is read if its members are, from the first one on. -/
theorem reads_object_of_members {key : String} {j : Json} {more : List (String × Json)}
    {layout : Layout} {rest : List Char} (distinct : (((key, j) :: more).map Prod.fst).Nodup)
    (h : Reads (readMembers (writtenString key ++ ':' :: ' ' :: (write layout.deeper j ++
      (writeMembers layout.deeper more ++ (layout.lineBreak ++ '\x7d' :: rest)))))
      ((key, j) :: more) rest) :
    Reads (readValue (write layout (.object ((key, j) :: more)) ++ rest))
      (.object ((key, j) :: more)) rest := by
  have hspace := skipSpace_append_of_begins (isSpace_of_mem_lineBreak layout.deeper)
    (begins_writtenString key) (':' :: ' ' :: (write layout.deeper j ++
      (writeMembers layout.deeper more ++ (layout.lineBreak ++ '\x7d' :: rest))))
  have htext : write layout (.object ((key, j) :: more)) ++ rest =
      '\x7b' :: (layout.deeper.lineBreak ++ (writtenString key ++
        ':' :: ' ' :: (write layout.deeper j ++ (writeMembers layout.deeper more ++
          (layout.lineBreak ++ '\x7d' :: rest))))) := by
    rw [write]
    simp only [List.cons_append, List.append_assoc, List.nil_append]
  rw [htext, ← ofMembers_of_nodup distinct]
  refine reads_object ?_ ?_
  · rw [hspace, writtenString]
    simp
  · rw [hspace]
    exact h

-- The rest is arbitrary up to its first character: within a container it is what
-- the writer puts next, so both further elements and further members carry it on.
mutual

/-- Data is read back from its text in every layout. -/
theorem reads_write (hallowed : ∀ i, allowed i → IsReadable i) (j : Json) (h : IsData allowed j)
    (layout : Layout) {rest : List Char} (hrest : EndsNumber rest) :
    Reads (readValue (write layout j ++ rest)) j rest := by
  cases j with
  | null =>
      rw [write]
      exact reads_name rfl
  | bool b =>
      rw [write]
      cases b <;> exact reads_name rfl
  | int i =>
      cases h with
      | int ok =>
          rw [write]
          exact reads_writtenInt (hallowed i ok) hrest
  | float x =>
      cases h with
      | float number =>
          rw [write]
          exact reads_writtenFloat number hrest
      | notANumber =>
          rw [write]
          exact reads_name rfl
  | string s =>
      rw [write, writtenString, List.cons_append, List.cons_append, List.append_assoc]
      exact reads_string (reads_writtenString s rest)
  | array elements =>
      cases h with
      | array ok =>
          cases elements with
          | nil =>
              rw [write]
              exact reads_emptyArray rfl
          | cons j more =>
              have hj := ok j List.mem_cons_self
              have hmore := fun k hk => ok k (List.mem_cons_of_mem j hk)
              have hclosing : EndsNumber (layout.lineBreak ++ ']' :: rest) :=
                endsNumber_closing (isSpace_of_mem_lineBreak layout) (by decide) rest
              have hvalue := reads_write hallowed j hj layout.deeper
                (endsNumber_writeElements layout.deeper more hclosing)
              have hafter := reads_writeElements hallowed more hmore layout.deeper
                (isSpace_of_mem_lineBreak layout) rest
              exact reads_array_of_elements (begins_write hj layout.deeper)
                (reads_elements hvalue hafter)
  | object members =>
      cases h with
      | object distinct ok =>
          cases members with
          | nil =>
              rw [write]
              exact reads_emptyObject rfl
          | cons member more =>
              obtain ⟨key, j⟩ := member
              have hj : IsData allowed j := ok _ List.mem_cons_self
              have hmore : ∀ member ∈ more, IsData allowed member.2 :=
                fun member hmember => ok member (List.mem_cons_of_mem _ hmember)
              have hclosing : EndsNumber (layout.lineBreak ++ '\x7d' :: rest) :=
                endsNumber_closing (isSpace_of_mem_lineBreak layout) (by decide) rest
              have hmember := readsMember_written key (begins_write hj layout.deeper)
                (reads_write hallowed j hj layout.deeper
                  (endsNumber_writeMembers layout.deeper more hclosing))
              have hafter := reads_writeMembers hallowed more hmore layout.deeper
                (isSpace_of_mem_lineBreak layout) rest
              exact reads_object_of_members distinct (reads_members hmember hafter)

/-- After a first element, further elements are read up to the closing bracket. -/
theorem reads_writeElements (hallowed : ∀ i, allowed i → IsReadable i) (js : List Json)
    (h : ∀ j ∈ js, IsData allowed j) (layout : Layout) {blanks : List Char}
    (hblanks : ∀ c ∈ blanks, isSpace c) (rest : List Char) :
    (skipSpace (writeElements layout js ++ (blanks ++ ']' :: rest)) = ']' :: rest ∧ js = []) ∨
      ∃ tail, skipSpace (writeElements layout js ++ (blanks ++ ']' :: rest)) = ',' :: tail ∧
        Reads (readElements (skipSpace tail)) js rest := by
  cases js with
  | nil =>
      left
      rw [writeElements, List.nil_append, skipSpace_append hblanks]
      exact ⟨rfl, rfl⟩
  | cons j more =>
      right
      obtain ⟨spaces, hseparator, hspaces⟩ := exists_separator layout
      have hj := h j List.mem_cons_self
      have hclosing : EndsNumber (blanks ++ ']' :: rest) :=
        endsNumber_closing hblanks (by decide) rest
      have hmore := reads_writeElements hallowed more
        (fun j hj => h j (List.mem_cons_of_mem _ hj)) layout hblanks rest
      have hvalue := reads_write hallowed j hj layout
        (endsNumber_writeElements layout more hclosing)
      rw [writeElements, hseparator]
      refine ⟨spaces ++ (write layout j ++ (writeElements layout more ++ (blanks ++ ']' :: rest))),
        ?_, ?_⟩
      · simp only [List.cons_append, List.append_assoc]
        rfl
      · rw [skipSpace_append_of_begins hspaces (begins_write hj layout)]
        exact reads_elements hvalue hmore

/-- After a first member, further members are read up to the closing brace. -/
theorem reads_writeMembers (hallowed : ∀ i, allowed i → IsReadable i)
    (members : List (String × Json)) (h : ∀ member ∈ members, IsData allowed member.2)
    (layout : Layout) {blanks : List Char} (hblanks : ∀ c ∈ blanks, isSpace c) (rest : List Char) :
    (skipSpace (writeMembers layout members ++ (blanks ++ '\x7d' :: rest)) = '\x7d' :: rest ∧
        members = []) ∨
      ∃ tail, skipSpace (writeMembers layout members ++ (blanks ++ '\x7d' :: rest)) = ',' :: tail ∧
        Reads (readMembers (skipSpace tail)) members rest := by
  cases members with
  | nil =>
      left
      rw [writeMembers, List.nil_append, skipSpace_append hblanks]
      exact ⟨rfl, rfl⟩
  | cons member more =>
      right
      obtain ⟨key, j⟩ := member
      obtain ⟨spaces, hseparator, hspaces⟩ := exists_separator layout
      have hj : IsData allowed j := h _ List.mem_cons_self
      have hclosing : EndsNumber (blanks ++ '\x7d' :: rest) :=
        endsNumber_closing hblanks (by decide) rest
      have hmore := reads_writeMembers hallowed more
        (fun member hmember => h member (List.mem_cons_of_mem _ hmember)) layout hblanks rest
      have hmember := readsMember_written key (begins_write hj layout)
        (reads_write hallowed j hj layout (endsNumber_writeMembers layout more hclosing))
      rw [writeMembers, hseparator]
      refine ⟨spaces ++ (writtenString key ++ ':' :: ' ' :: (write layout j ++
        (writeMembers layout more ++ (blanks ++ '\x7d' :: rest)))), ?_, ?_⟩
      · simp only [List.cons_append, List.append_assoc]
        rfl
      · rw [skipSpace_append_of_begins hspaces (begins_writtenString key)]
        exact reads_members hmember hmore

end

/-- Written data is read back, in every layout and with white space behind it. -/
theorem parseChars_write (hallowed : ∀ i, allowed i → IsReadable i) {j : Json}
    (h : IsData allowed j) (layout : Layout) {blanks : List Char} (hblanks : ∀ c ∈ blanks, isSpace c) :
    parseChars (write layout j ++ blanks) = .ok j := by
  have hread := reads_write hallowed j h layout (endsNumber_of_isSpace hblanks)
  have hspace : skipSpace (write layout j ++ blanks) = write layout j ++ blanks :=
    skipSpace_of_begins ((begins_write h layout).append blanks)
  have hrest : skipSpace blanks = [] := Sequence.dropWhile_of_forall hblanks
  rw [parseChars, hspace, hread.eq_ok]
  simp [hrest]

/-- Data is read back from its indented text, with white space behind it. -/
theorem parse_render_append (hallowed : ∀ i, allowed i → IsReadable i) {j : Json}
    (h : IsData allowed j) {blanks : String} (hblanks : ∀ c ∈ blanks.toList, isSpace c) :
    parse (j.render ++ blanks) = .ok j := by
  rw [parse, render, String.toList_append, String.toList_ofList]
  exact parseChars_write hallowed h _ hblanks

/-- Data is read back from its indented text. -/
theorem parse_render (hallowed : ∀ i, allowed i → IsReadable i) {j : Json} (h : IsData allowed j) :
    parse j.render = .ok j := by
  have hread := parse_render_append hallowed h (show ∀ c ∈ "".toList, isSpace c by simp)
  rwa [String.append_empty] at hread

/-! ## Equality with itself -/

theorem sameElements_self {elements : List Json} (h : ∀ j ∈ elements, j.same j = true) :
    sameElements elements elements = true := by
  induction elements with
  | nil => rw [sameElements]
  | cons j rest ih =>
      obtain ⟨hj, hrest⟩ := List.forall_mem_cons.mp h
      rw [sameElements, hj, ih hrest]
      rfl

/-- Members are equal to any with distinct keys that they are among. -/
theorem sameMembers_of_subset {as bs : List (String × Json)} (distinct : (bs.map Prod.fst).Nodup)
    (hsub : as ⊆ bs) (h : ∀ member ∈ as, member.2.same member.2 = true) :
    sameMembers as bs = true := by
  induction as with
  | nil => rw [sameMembers]
  | cons member rest ih =>
      obtain ⟨hmem, hrest⟩ := List.cons_subset.mp hsub
      obtain ⟨hmember, hothers⟩ := List.forall_mem_cons.mp h
      rw [sameMembers, Sequence.lookup_of_mem distinct hmem, ih hrest hothers, Bool.and_true]
      exact hmember

/-- Data that a text can hold is equal to itself, not-a-number included. -/
theorem IsData.same_self {j : Json} (h : IsData allowed j) : j.same j = true := by
  induction h with
  | null => simp [same, sameScalar]
  | bool b => simp [same, sameScalar, asInt?]
  | int ok => simp [same, sameScalar, asInt?]
  | @float x number => simp [same, sameScalar, x.same_self]
  | notANumber => simp [same, sameScalar, Double.same_self]
  | string s => simp [same, sameScalar]
  | array ok ih => rw [same, sameElements_self ih]
  | object distinct ok ih =>
      rw [same, sameMembers_of_subset distinct (List.Subset.refl _) ih, beq_self_eq_true]
      rfl

end Rulebook.Json
