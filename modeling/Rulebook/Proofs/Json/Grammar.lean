import Rulebook.Proofs.Json.RoundTrip

/-! # The grammar of JSON texts

The grammar of RFC 8259 as predicates on texts. It stands apart from the reader, which takes
the names of numbers as well that are not finite. What is written is in the grammar exactly
if all numbers in it are finite: the names of others are written outside of strings, where
no text of the grammar has a letter of them.
-/

namespace Rulebook.Json

open Text

/-! ## Numbers and strings -/

/-- Digits, at least one. -/
structure AreDigits (text : List Char) : Prop where
  ne_nil : text ≠ []
  isDigit : ∀ c ∈ text, isAsciiDigit c

/-- The fraction of a number, or none. -/
inductive IsFraction : List Char → Prop
  | none : IsFraction []
  | some {digits : List Char} (digits_ok : AreDigits digits) : IsFraction ('.' :: digits)

/-- The exponent of a number with a sign or without, or no exponent. -/
inductive IsExponent : List Char → Prop
  | none : IsExponent []
  | some {letter : Char} {sign digits : List Char} (letter_ok : letter ∈ ['e', 'E'])
      (sign_ok : sign ∈ [[], ['-'], ['+']]) (digits_ok : AreDigits digits) :
      IsExponent (letter :: (sign ++ digits))

/-- A number: its whole part is a zero, or begins with another digit. -/
inductive IsNumberLiteral : List Char → Prop
  | intro (negative : Bool) {whole fraction exponent : List Char} (whole_ok : AreDigits whole)
      (head_ok : whole = ['0'] ∨ whole.head? ≠ some '0') (fraction_ok : IsFraction fraction)
      (exponent_ok : IsExponent exponent) :
      IsNumberLiteral (minusText negative ++ whole ++ fraction ++ exponent)

/-- What stands between the quotes of a string. -/
inductive IsStringBody : List Char → Prop
  | nil : IsStringBody []
  | plain {c : Char} {rest : List Char} (notQuote : c ≠ '"') (notEscape : c ≠ '\\')
      (large : 32 ≤ c.toNat) (rest_ok : IsStringBody rest) : IsStringBody (c :: rest)
  | escape {e : Char} {rest : List Char} (escape_ok : (escapedChar? e).isSome)
      (rest_ok : IsStringBody rest) : IsStringBody ('\\' :: e :: rest)
  | code {a b c d : Char} {rest : List Char} (hex : ∀ digit ∈ [a, b, c, d], (hexValue? digit).isSome)
      (rest_ok : IsStringBody rest) : IsStringBody ('\\' :: 'u' :: a :: b :: c :: d :: rest)

/-! ## Values -/

/-- White space. -/
def AreBlanks (text : List Char) : Prop := ∀ c ∈ text, isSpace c

theorem areBlanks_nil : AreBlanks [] := by simp [AreBlanks]

/-- A string with its quotes, around this body. -/
def quoted (body : List Char) : List Char := '"' :: (body ++ ['"'])

/-- The constructs of a text: a value with white space around it, a value alone, the elements
of an array, a member of an object, and all of its members. -/
inductive Construct
  | text
  | value
  | elements
  | member
  | members

/-- The texts that the grammar derives for each construct. -/
inductive Derives : Construct → List Char → Prop
  | text {before value after : List Char} (before_ok : AreBlanks before)
      (value_ok : Derives .value value) (after_ok : AreBlanks after) :
      Derives .text (before ++ (value ++ after))
  | null : Derives .value "null".toList
  | true : Derives .value "true".toList
  | false : Derives .value "false".toList
  | number {text : List Char} (number_ok : IsNumberLiteral text) : Derives .value text
  | string {body : List Char} (body_ok : IsStringBody body) : Derives .value (quoted body)
  | emptyArray {blanks : List Char} (blanks_ok : AreBlanks blanks) :
      Derives .value ('[' :: (blanks ++ [']']))
  | array {elements : List Char} (elements_ok : Derives .elements elements) :
      Derives .value ('[' :: (elements ++ [']']))
  | emptyObject {blanks : List Char} (blanks_ok : AreBlanks blanks) :
      Derives .value ('\x7b' :: (blanks ++ ['\x7d']))
  | object {members : List Char} (members_ok : Derives .members members) :
      Derives .value ('\x7b' :: (members ++ ['\x7d']))
  | element {element : List Char} (element_ok : Derives .text element) : Derives .elements element
  | moreElements {element rest : List Char} (element_ok : Derives .text element)
      (rest_ok : Derives .elements rest) : Derives .elements (element ++ ',' :: rest)
  | member {before key after element : List Char} (before_ok : AreBlanks before)
      (key_ok : IsStringBody key) (after_ok : AreBlanks after) (element_ok : Derives .text element) :
      Derives .member (before ++ (quoted key ++ (after ++ ':' :: element)))
  | oneMember {member : List Char} (member_ok : Derives .member member) : Derives .members member
  | moreMembers {member rest : List Char} (member_ok : Derives .member member)
      (rest_ok : Derives .members rest) : Derives .members (member ++ ',' :: rest)

/-- A text of the grammar. -/
def IsText (text : List Char) : Prop := Derives .text text

/-! ## What stands outside of strings -/

/-- Where a character of a text stands. -/
inductive Zone
  | outside
  | inside
  | escaped
  deriving DecidableEq

/-- Where the next character stands. -/
def Zone.next : Zone → Char → Zone
  | .outside, c => if c = '"' then .inside else .outside
  | .inside, c => if c = '"' then .outside else if c = '\\' then .escaped else .inside
  | .escaped, _ => .inside

/-- A letter that the names `Infinity` and `NaN` have, and no name of the grammar. -/
def isStray (c : Char) : Bool := c = 'I' || c = 'N'

/-- The stray letters of a text that stand outside of its strings. -/
def strays (zone : Zone) : List Char → List Char
  | [] => []
  | c :: rest =>
      if zone = .outside ∧ isStray c then c :: strays (zone.next c) rest else strays (zone.next c) rest

/-- A part of a text without stray letters that begins and ends outside of strings. -/
def IsNeutral (text : List Char) : Prop :=
  ∀ rest, strays .outside (text ++ rest) = strays .outside rest

theorem isNeutral_nil : IsNeutral [] := fun _ => rfl

theorem IsNeutral.append {text more : List Char} (h : IsNeutral text) (hmore : IsNeutral more) :
    IsNeutral (text ++ more) := by
  intro rest
  rw [List.append_assoc, h, hmore]

/-- A character that opens no string and is no stray letter. -/
def isCalm (c : Char) : Bool := c != '"' && !isStray c

theorem IsNeutral.cons {c : Char} {text : List Char} (hcalm : isCalm c = true)
    (h : IsNeutral text) : IsNeutral (c :: text) := by
  obtain ⟨hquote, hstray⟩ : c ≠ '"' ∧ isStray c = false := by simpa [isCalm] using hcalm
  intro rest
  rw [List.cons_append, strays, if_neg (by simp [hstray]), Zone.next, if_neg hquote, h]

theorem isNeutral_of_all {text : List Char} (h : text.all isCalm = true) : IsNeutral text := by
  induction text with
  | nil => exact isNeutral_nil
  | cons c rest ih =>
      rw [List.all_cons, Bool.and_eq_true] at h
      exact .cons h.1 (ih h.2)

theorem strays_inside_body {body : List Char} (h : IsStringBody body) (rest : List Char) :
    strays .inside (body ++ '"' :: rest) = strays .outside rest := by
  induction h with
  | nil => rfl
  | plain notQuote notEscape large rest_ok ih =>
      rw [List.cons_append, strays, if_neg (by simp), Zone.next, if_neg notQuote, if_neg notEscape, ih]
  | escape escape_ok rest_ok ih => exact ih
  | @code a b c d more hex rest_ok ih =>
      have hhex : ∀ digit : Char, (hexValue? digit).isSome → digit ≠ '"' ∧ digit ≠ '\\' := by
        rintro digit hdigit
        constructor <;> (rintro rfl; revert hdigit; decide)
      simp only [List.forall_mem_cons] at hex
      obtain ⟨ha, hb, hc, hd, -⟩ := hex
      simp [strays, Zone.next, hhex a ha, hhex b hb, hhex c hc, hhex d hd, ih]

theorem isNeutral_quoted {body : List Char} (h : IsStringBody body) : IsNeutral (quoted body) := by
  intro rest
  rw [quoted, List.cons_append, List.append_assoc, List.singleton_append]
  exact strays_inside_body h rest

theorem isNeutral_of_areBlanks {blanks : List Char} (h : AreBlanks blanks) : IsNeutral blanks := by
  refine isNeutral_of_all (List.all_eq_true.mpr fun c hc => ?_)
  have hspace := h c hc
  simp only [isSpace, Bool.or_eq_true, decide_eq_true_eq] at hspace
  rcases hspace with ((rfl | rfl) | rfl) | rfl <;> decide

theorem AreDigits.isNeutral {digits : List Char} (h : AreDigits digits) : IsNeutral digits :=
  isNeutral_of_all <| List.all_eq_true.mpr fun _ hc =>
    forall_isAsciiDigit (p := fun c => isCalm c = true) (by decide) (h.isDigit _ hc)

theorem IsNumberLiteral.isNeutral {text : List Char} (h : IsNumberLiteral text) : IsNeutral text := by
  cases h with
  | @intro negative whole fraction exponent whole_ok head_ok fraction_ok exponent_ok =>
      have hsign : IsNeutral (minusText negative) := by
        cases negative <;> exact isNeutral_of_all (by decide)
      have hfraction : IsNeutral fraction := by
        cases fraction_ok with
        | none => exact isNeutral_nil
        | some digits_ok => exact .cons (by decide) digits_ok.isNeutral
      have hexponent : IsNeutral exponent := by
        cases exponent_ok with
        | none => exact isNeutral_nil
        | @some letter sign digits letter_ok sign_ok digits_ok =>
            have hletter : isCalm letter = true := by
              simp only [List.mem_cons, List.not_mem_nil, or_false] at letter_ok
              rcases letter_ok with rfl | rfl <;> decide
            have hsign : IsNeutral sign := by
              simp only [List.mem_cons, List.not_mem_nil, or_false] at sign_ok
              rcases sign_ok with rfl | rfl | rfl <;> exact isNeutral_of_all (by decide)
            exact .cons hletter (hsign.append digits_ok.isNeutral)
      exact ((hsign.append whole_ok.isNeutral).append hfraction).append hexponent

/-- What the grammar derives has no stray letter outside of its strings. -/
theorem Derives.isNeutral {construct : Construct} {text : List Char} (h : Derives construct text) :
    IsNeutral text := by
  induction h with
  | text before_ok _ after_ok ih =>
      exact (isNeutral_of_areBlanks before_ok).append (ih.append (isNeutral_of_areBlanks after_ok))
  | null | true | false => exact isNeutral_of_all (by decide)
  | number number_ok => exact number_ok.isNeutral
  | string body_ok => exact isNeutral_quoted body_ok
  | emptyArray blanks_ok | emptyObject blanks_ok =>
      exact .cons (by decide)
        ((isNeutral_of_areBlanks blanks_ok).append (isNeutral_of_all (by decide)))
  | array _ ih | object _ ih =>
      exact .cons (by decide) (ih.append (isNeutral_of_all (by decide)))
  | element _ ih | oneMember _ ih => exact ih
  | moreElements _ _ ih ih_rest | moreMembers _ _ ih ih_rest =>
      exact ih.append (.cons (by decide) ih_rest)
  | member before_ok key_ok after_ok _ ih =>
      exact (isNeutral_of_areBlanks before_ok).append ((isNeutral_quoted key_ok).append
        ((isNeutral_of_areBlanks after_ok).append (.cons (by decide) ih)))

/-! ## What is written -/

mutual

/-- Whether all numbers in data are finite. -/
def isFinite : Json → Bool
  | .float (.finite _ _ _) => true
  | .float _ => false
  | .array elements => areFinite elements
  | .object members => haveFinite members
  | _ => true

/-- Whether all numbers in the elements of an array are finite. -/
def areFinite : List Json → Bool
  | [] => true
  | j :: rest => j.isFinite && areFinite rest

/-- Whether all numbers in the members of an object are finite. -/
def haveFinite : List (String × Json) → Bool
  | [] => true
  | (_, j) :: rest => j.isFinite && haveFinite rest

end

theorem areFinite_iff {js : List Json} : areFinite js = true ↔ ∀ j ∈ js, j.isFinite = true := by
  induction js with
  | nil => simp [areFinite]
  | cons j rest ih => rw [areFinite, Bool.and_eq_true, ih, List.forall_mem_cons]

theorem haveFinite_iff {members : List (String × Json)} :
    haveFinite members = true ↔ ∀ member ∈ members, member.2.isFinite = true := by
  induction members with
  | nil => simp [haveFinite]
  | cons member rest ih => rw [haveFinite, Bool.and_eq_true, ih, List.forall_mem_cons]

theorem isNumberLiteral_text {n : NumberText} (h : n.IsProper) : IsNumberLiteral n.text := by
  refine .intro n.negative ⟨h.whole_ne_nil, h.whole_digits⟩ h.whole_head ?_ ?_
  · cases hfraction : n.fraction with
    | none => exact .none
    | some digits =>
        obtain ⟨hne, hdigits⟩ := h.fraction_digits digits hfraction
        exact .some ⟨hne, hdigits⟩
  · cases hexponent : n.exponent with
    | none => exact .none
    | some exponent =>
        obtain ⟨hne, hdigits⟩ := h.exponent_digits exponent hexponent
        have hsign : [if exponent.1 then '-' else '+'] ∈ [[], ['-'], ['+']] := by
          split <;> simp
        exact IsExponent.some (by simp) hsign ⟨hne, hdigits⟩

theorem IsStringBody.written_append {c : Char} {written rest : List Char} (h : IsWritten c written)
    (hrest : IsStringBody rest) : IsStringBody (written ++ rest) := by
  cases h with
  | escape e quoted short => exact .escape (by rw [quoted, Option.isSome_some]) hrest
  | code small =>
      have hlow : (hexValue? (Nat.digitChar (c.toNat / 16))).isSome := by
        rw [hexValue?_digitChar (by omega), Option.isSome_some]
      have hhigh : (hexValue? (Nat.digitChar (c.toNat % 16))).isSome := by
        rw [hexValue?_digitChar (by omega), Option.isSome_some]
      rw [hexDigits_of_lt small]
      refine .code ?_ hrest
      simp only [List.forall_mem_cons]
      exact ⟨by decide, by decide, hlow, hhigh, by simp⟩
  | plain notQuote notEscape large => exact .plain notQuote notEscape large hrest

theorem isStringBody_flatMap (chars : List Char) : IsStringBody (chars.flatMap writtenChar) := by
  induction chars with
  | nil => exact .nil
  | cons c rest ih =>
      rw [List.flatMap_cons]
      exact .written_append (isWritten_writtenChar c) ih

/-- The body of a string in writing. -/
abbrev writtenBody (s : String) : List Char := s.toList.flatMap writtenChar

theorem writtenString_eq_quoted (s : String) : writtenString s = quoted (writtenBody s) := rfl

/-- After its first element, an array is written on up to its closing bracket. -/
theorem derives_elements {layout : Layout} {j : Json} {more : List Json}
    (h : ∀ k ∈ j :: more, Derives .value (write layout k)) {before after : List Char}
    (before_ok : AreBlanks before) (after_ok : AreBlanks after) :
    Derives .elements (before ++ (write layout j ++ (writeElements layout more ++ after))) := by
  induction more generalizing j before with
  | nil =>
      rw [writeElements, List.nil_append]
      exact .element (.text before_ok (h j List.mem_cons_self) after_ok)
  | cons k rest ih =>
      obtain ⟨hj, hmore⟩ := List.forall_mem_cons.mp h
      obtain ⟨blanks, hseparator, blanks_ok⟩ := exists_separator layout
      have helement : Derives .text (before ++ (write layout j ++ [])) :=
        .text before_ok hj areBlanks_nil
      have helements := Derives.moreElements helement (ih hmore blanks_ok)
      rw [writeElements, hseparator]
      simpa only [List.append_assoc, List.cons_append, List.append_nil, List.nil_append]
        using helements

/-- After its first member, an object is written on up to its closing brace. -/
theorem derives_members {layout : Layout} {key : String} {j : Json} {more : List (String × Json)}
    (h : ∀ member ∈ (key, j) :: more, Derives .value (write layout member.2))
    {before after : List Char} (before_ok : AreBlanks before) (after_ok : AreBlanks after) :
    Derives .members (before ++ (writtenString key ++ ':' :: ' ' :: (write layout j ++
      (writeMembers layout more ++ after)))) := by
  have hspace : AreBlanks [' '] := List.forall_mem_singleton.mpr rfl
  induction more generalizing key j before with
  | nil =>
      have helement : Derives .text ([' '] ++ (write layout j ++ after)) :=
        .text hspace (h _ List.mem_cons_self) after_ok
      rw [writeMembers, List.nil_append]
      exact .oneMember (.member before_ok (isStringBody_flatMap _) areBlanks_nil helement)
  | cons member rest ih =>
      obtain ⟨k, i⟩ := member
      obtain ⟨hj, hmore⟩ := List.forall_mem_cons.mp h
      obtain ⟨blanks, hseparator, blanks_ok⟩ := exists_separator layout
      have helement : Derives .text ([' '] ++ (write layout j ++ [])) :=
        .text hspace hj areBlanks_nil
      have hmember : Derives .member (before ++ (quoted (writtenBody key) ++ ([] ++ ':' ::
          ([' '] ++ (write layout j ++ []))))) :=
        .member before_ok (isStringBody_flatMap _) areBlanks_nil helement
      have hmembers := Derives.moreMembers hmember (ih hmore blanks_ok)
      rw [writeMembers, hseparator]
      simpa only [List.append_assoc, List.cons_append, List.append_nil, List.nil_append,
        writtenString_eq_quoted] using hmembers

variable {allowed : Int → Prop}

/-- Data without infinities and not-a-number is written as a value of the grammar. -/
theorem derives_write {j : Json} (h : IsData allowed j) (hfinite : j.isFinite = true)
    (layout : Layout) : Derives .value (write layout j) := by
  induction h generalizing layout with
  | null => rw [write]; exact .null
  | bool b => cases b <;> rw [write]; exacts [.false, .true]
  | @int i ok =>
      rw [write, ← text_ofInt]
      exact .number (isNumberLiteral_text (isProper_ofInt i))
  | @float x number =>
      cases x with
      | nan named | infinity negative => cases hfinite
      | finite negative m q =>
          obtain ⟨n, hn⟩ := exists_writes_finite number negative
          rw [write, ← hn.text_eq]
          exact .number (isNumberLiteral_text hn.proper)
  | notANumber => cases hfinite
  | string s => rw [write]; exact .string (isStringBody_flatMap _)
  | @array elements ok ih =>
      rw [isFinite, areFinite_iff] at hfinite
      cases elements with
      | nil => rw [write]; exact .emptyArray areBlanks_nil
      | cons j more =>
          have helements := derives_elements
            (fun k hk => ih k hk (hfinite k hk) layout.deeper)
            (isSpace_of_mem_lineBreak layout.deeper) (isSpace_of_mem_lineBreak layout)
          rw [write]
          simpa only [List.append_assoc, List.cons_append] using Derives.array helements
  | @object members distinct ok ih =>
      rw [isFinite, haveFinite_iff] at hfinite
      cases members with
      | nil => rw [write]; exact .emptyObject areBlanks_nil
      | cons member more =>
          obtain ⟨key, j⟩ := member
          have hmembers := derives_members
            (fun m hm => ih m hm (hfinite m hm) layout.deeper)
            (isSpace_of_mem_lineBreak layout.deeper) (isSpace_of_mem_lineBreak layout)
          rw [write]
          simpa only [List.append_assoc, List.cons_append] using Derives.object hmembers

/-! ## Names of numbers -/

/-- A part of a text that begins and ends outside of strings. If no stray letter stands
outside of strings, something holds of what it was written for. -/
def Shows (text : List Char) (p : Prop) : Prop :=
  ∃ letters, (∀ rest, strays .outside (text ++ rest) = letters ++ strays .outside rest) ∧
    (letters = [] → p)

theorem Shows.mono {text : List Char} {p q : Prop} (h : Shows text p) (hpq : p → q) :
    Shows text q := by
  obtain ⟨letters, hletters, hp⟩ := h
  exact ⟨letters, hletters, fun hnil => hpq (hp hnil)⟩

theorem Shows.append {text more : List Char} {p q : Prop} (h : Shows text p) (hmore : Shows more q) :
    Shows (text ++ more) (p ∧ q) := by
  obtain ⟨letters, hletters, hp⟩ := h
  obtain ⟨others, hothers, hq⟩ := hmore
  refine ⟨letters ++ others, fun rest => ?_, fun hnil => ?_⟩
  · rw [List.append_assoc, hletters, hothers, List.append_assoc]
  · obtain ⟨hnil, hothers_nil⟩ := List.append_eq_nil_iff.mp hnil
    exact ⟨hp hnil, hq hothers_nil⟩

theorem IsNeutral.append_shows {text more : List Char} {p : Prop} (h : IsNeutral text)
    (hmore : Shows more p) : Shows (text ++ more) p := by
  obtain ⟨letters, hletters, hp⟩ := hmore
  exact ⟨letters, fun rest => by rw [List.append_assoc, h, hletters], hp⟩

theorem IsNeutral.shows {text : List Char} {p : Prop} (h : IsNeutral text) (hp : p) :
    Shows text p :=
  ⟨[], h, fun _ => hp⟩

theorem isNeutral_separator (layout : Layout) : IsNeutral layout.separator := by
  obtain ⟨blanks, hseparator, blanks_ok⟩ := exists_separator layout
  rw [hseparator]
  exact .cons (by decide) (isNeutral_of_areBlanks blanks_ok)

theorem isNeutral_lineBreak (layout : Layout) : IsNeutral layout.lineBreak :=
  isNeutral_of_areBlanks (isSpace_of_mem_lineBreak layout)

/-- What stands before the value of a member. -/
theorem isNeutral_key (key : String) : IsNeutral (writtenString key ++ [':', ' ']) :=
  (isNeutral_quoted (isStringBody_flatMap _)).append (isNeutral_of_all (by decide))

theorem shows_writeElements {layout : Layout} {js : List Json}
    (h : ∀ j ∈ js, Shows (write layout j) (j.isFinite = true)) :
    Shows (writeElements layout js) (∀ j ∈ js, j.isFinite = true) := by
  induction js with
  | nil => exact isNeutral_nil.shows (by simp)
  | cons j rest ih =>
      obtain ⟨hj, hrest⟩ := List.forall_mem_cons.mp h
      rw [writeElements, List.append_assoc]
      exact ((isNeutral_separator layout).append_shows (hj.append (ih hrest))).mono
        fun hfinite => List.forall_mem_cons.mpr hfinite

theorem shows_writeMembers {layout : Layout} {members : List (String × Json)}
    (h : ∀ member ∈ members, Shows (write layout member.2) (member.2.isFinite = true)) :
    Shows (writeMembers layout members) (∀ member ∈ members, member.2.isFinite = true) := by
  induction members with
  | nil => exact isNeutral_nil.shows (by simp)
  | cons member rest ih =>
      obtain ⟨key, j⟩ := member
      obtain ⟨hj, hrest⟩ := List.forall_mem_cons.mp h
      have hmember := ((isNeutral_separator layout).append (isNeutral_key key)).append_shows
        (hj.append (ih hrest))
      rw [writeMembers]
      simpa only [List.append_assoc, List.cons_append, List.nil_append] using
        hmember.mono fun hfinite => List.forall_mem_cons.mpr hfinite

/-- What data is written as shows all its numbers that are not finite. -/
theorem shows_write {j : Json} (h : IsData allowed j) (layout : Layout) :
    Shows (write layout j) (j.isFinite = true) := by
  have hfinite : ∀ {j : Json}, IsData allowed j → j.isFinite = true → ∀ layout,
      Shows (write layout j) (j.isFinite = true) :=
    fun hdata hj layout => (derives_write hdata hj layout).isNeutral.shows hj
  induction h generalizing layout with
  | null => exact hfinite .null rfl layout
  | bool b => exact hfinite (.bool b) rfl layout
  | int ok => exact hfinite (.int ok) rfl layout
  | string s => exact hfinite (.string s) rfl layout
  | @float x number =>
      cases x with
      | nan named => exact number.elim
      | finite negative m q => exact hfinite (.float number) rfl layout
      | infinity negative =>
          cases negative <;> rw [write] <;> exact ⟨['I'], fun _ => rfl, by simp⟩
  | notANumber =>
      rw [write]
      exact ⟨['N', 'N'], fun _ => rfl, by simp⟩
  | @array elements ok ih =>
      cases elements with
      | nil => exact hfinite (.array ok) rfl layout
      | cons j more =>
          obtain ⟨hj, hmore⟩ := List.forall_mem_cons.mp fun k hk => ih k hk layout.deeper
          have hclosing : IsNeutral (layout.lineBreak ++ [']']) :=
            (isNeutral_lineBreak layout).append (isNeutral_of_all (by decide))
          have hopening : IsNeutral ('[' :: layout.deeper.lineBreak) :=
            .cons (by decide) (isNeutral_lineBreak layout.deeper)
          have hall := hopening.append_shows
            (hj.append ((shows_writeElements hmore).append (hclosing.shows trivial)))
          rw [write, isFinite, areFinite_iff]
          simp only [List.append_assoc, List.cons_append] at hall ⊢
          exact hall.mono fun ⟨hj, hmore, _⟩ => List.forall_mem_cons.mpr ⟨hj, hmore⟩
  | @object members distinct ok ih =>
      cases members with
      | nil => exact hfinite (.object distinct ok) rfl layout
      | cons member more =>
          obtain ⟨key, j⟩ := member
          obtain ⟨hj, hmore⟩ := List.forall_mem_cons.mp fun m hm => ih m hm layout.deeper
          have hclosing : IsNeutral (layout.lineBreak ++ ['\x7d']) :=
            (isNeutral_lineBreak layout).append (isNeutral_of_all (by decide))
          have hopening : IsNeutral ('\x7b' :: layout.deeper.lineBreak) :=
            .cons (by decide) (isNeutral_lineBreak layout.deeper)
          have hall := (hopening.append (isNeutral_key key)).append_shows
            (hj.append ((shows_writeMembers hmore).append (hclosing.shows trivial)))
          rw [write, isFinite, haveFinite_iff]
          simp only [List.append_assoc, List.cons_append, List.nil_append] at hall ⊢
          exact hall.mono fun ⟨hj, hmore, _⟩ => List.forall_mem_cons.mpr ⟨hj, hmore⟩

/-- The text of data is in the grammar exactly if all numbers in the data are finite. -/
theorem isText_render_iff {j : Json} (h : IsData allowed j) :
    IsText j.render.toList ↔ j.isFinite = true := by
  rw [render, String.toList_ofList]
  constructor
  · intro htext
    obtain ⟨letters, hletters, hfinite⟩ := shows_write h (.indented 0)
    have hneutral := htext.isNeutral []
    rw [hletters []] at hneutral
    exact hfinite (List.append_eq_nil_iff.mp hneutral).1
  · intro hfinite
    have hvalue : Derives .text ([] ++ (write (.indented 0) j ++ [])) :=
      .text areBlanks_nil (derives_write h hfinite _) areBlanks_nil
    rwa [List.append_nil, List.nil_append] at hvalue

end Rulebook.Json
