import Rulebook.Charset.Basic
import Rulebook.Proofs.Reading

/-! # Characters as bytes

A code says which bytes stand for which characters, so it also says which bytes stand
for a text. A reader of single characters that follows a code reads a text exactly if
the bytes stand for it. Where it fails, the bytes before stand for a text, and no more
bytes from the first one on do.
-/

namespace Rulebook.Charset

/-- Which bytes stand for a character. -/
abbrev Code := Char → List UInt8 → Prop

/-- The bytes of the characters of a text in a row. -/
inductive Spells (code : Code) : List Char → List UInt8 → Prop
  | nil : Spells code [] []
  | cons {c : Char} {piece : List UInt8} {text : List Char} {bytes : List UInt8}
      (hpiece : code c piece) (htext : Spells code text bytes) :
      Spells code (c :: text) (piece ++ bytes)

/-- The first byte that cannot be decoded: the bytes before it stand for a text, and no
more bytes from the head on do. -/
structure FirstUndecodable (code : Code) (bytes : List UInt8) (index : Nat) : Prop where
  inside : index < bytes.length
  before : ∃ text, Spells code text (bytes.take index)
  beyond : ∀ n, index < n → n ≤ bytes.length → ¬ ∃ text, Spells code text (bytes.take n)

/-- A reader takes a character off the head of some bytes if and only if the bytes of
the character stand there. -/
structure Reader.Follows (reader : Reader) (code : Code) : Prop where
  reads_iff : ∀ {first rest c more},
    Reads (reader first rest) c more ↔ ∃ piece, code c piece ∧ first :: rest = piece ++ more
  ne_nil : ∀ {c piece}, code c piece → piece ≠ []

variable {reader : Reader} {code : Code} {bytes front back : List UInt8} {text : List Char}

theorem Spells.singleton {c : Char} {piece : List UInt8} (h : code c piece) :
    Spells code [c] piece := by
  have hsingle := Spells.cons h .nil
  rwa [List.append_nil] at hsingle

theorem Spells.append {more : List Char} (hfront : Spells code text front)
    (hback : Spells code more back) : Spells code (text ++ more) (front ++ back) := by
  induction hfront with
  | nil => exact hback
  | cons hpiece htext ih =>
      rw [List.cons_append, List.append_assoc]
      exact .cons hpiece ih

namespace Reader.Follows

theorem exists_piece (h : reader.Follows code) {first : UInt8} {rest : List UInt8}
    {r : Reading UInt8 Char (rest.length + 1)} (hr : reader first rest = .ok r) :
    ∃ piece, code r.value piece ∧ first :: rest = piece ++ r.rest := by
  apply h.reads_iff.mp
  rw [hr]
  exact reads_ok.mpr ⟨rfl, rfl⟩

/-- The character at the head of some bytes and what is behind it are determined. -/
theorem head_unique (h : reader.Follows code) {c d : Char} {p q : List UInt8}
    (hc : code c p) (hd : code d q) (heq : p ++ front = q ++ back) : c = d ∧ front = back := by
  obtain ⟨first, tail, rfl⟩ := List.exists_cons_of_ne_nil (h.ne_nil hc)
  have hfront : Reads (reader first (tail ++ front)) c front := h.reads_iff.mpr ⟨_, hc, rfl⟩
  have hback : Reads (reader first (tail ++ front)) d back := h.reads_iff.mpr ⟨_, hd, heq⟩
  have hsame := Except.ok.inj (hfront.eq_ok.symm.trans hback.eq_ok)
  exact ⟨congrArg Reading.value hsame, congrArg Reading.rest hsame⟩

/-- Bytes that stand for a text may be taken off the head of others that do. -/
theorem spells_of_append (h : reader.Follows code) {whole : List Char}
    (hfront : Spells code text front) (hwhole : Spells code whole (front ++ back)) :
    ∃ more, Spells code more back := by
  induction hfront generalizing whole with
  | nil => exact ⟨whole, hwhole⟩
  | @cons c piece text bytes hpiece htext ih =>
      rw [List.append_assoc] at hwhole
      generalize hall : piece ++ (bytes ++ back) = all at hwhole
      cases hwhole with
      | nil => exact absurd (List.append_eq_nil_iff.mp hall).1 (h.ne_nil hpiece)
      | cons hother hrest =>
          obtain ⟨-, rfl⟩ := h.head_unique hpiece hother hall
          exact ih hrest

theorem spells_of_readAll (h : reader.Follows code) {offset : Nat}
    (hread : reader.readAll offset bytes = .ok text) : Spells code text bytes := by
  fun_induction Reader.readAll reader offset bytes generalizing text with
  | case1 =>
      cases hread
      exact .nil
  | case2 => cases hread
  | case3 => cases hread
  | case4 offset first rest r hr more hmore ih =>
      cases hread
      obtain ⟨piece, hpiece, heq⟩ := h.exists_piece hr
      rw [heq]
      exact .cons hpiece (ih hmore)

theorem readAll_of_spells (h : reader.Follows code) (hspells : Spells code text bytes)
    (offset : Nat) : reader.readAll offset bytes = .ok text := by
  induction hspells generalizing offset with
  | nil => rw [Reader.readAll]
  | @cons c piece text bytes hpiece htext ih =>
      obtain ⟨first, tail, rfl⟩ := List.exists_cons_of_ne_nil (h.ne_nil hpiece)
      have hreads : Reads (reader first (tail ++ bytes)) c bytes :=
        h.reads_iff.mpr ⟨_, hpiece, rfl⟩
      rw [List.cons_append, Reader.readAll, hreads.eq_ok]
      simp only [ih]

/-- A text is read from the bytes that stand for it and from no others. -/
theorem readAll_eq_ok_iff (h : reader.Follows code) {offset : Nat} :
    reader.readAll offset bytes = .ok text ↔ Spells code text bytes :=
  ⟨h.spells_of_readAll, fun hspells => h.readAll_of_spells hspells offset⟩

/-- Where a reader fails, all before has been read, and no character is at the head of
the rest. -/
theorem exists_of_readAll_error (h : reader.Follows code) {offset : Nat} {e : Undecodable}
    (hread : reader.readAll offset bytes = .error e) :
    ∃ text front first rest, Spells code text front ∧ bytes = front ++ first :: rest ∧
      e.offset = offset + front.length ∧ reader first rest = .error e.fault := by
  fun_induction Reader.readAll reader offset bytes with
  | case1 => cases hread
  | case2 offset first rest fault hfault =>
      cases hread
      exact ⟨[], [], first, rest, .nil, rfl, rfl, hfault⟩
  | case3 offset first rest r hr e' hmore ih =>
      cases hread
      obtain ⟨text, front, next, tail, htext, hrest, hoffset, hfault⟩ := ih hmore
      obtain ⟨piece, hpiece, heq⟩ := h.exists_piece hr
      refine ⟨r.value :: text, piece ++ front, next, tail, .cons hpiece htext, ?_, ?_, hfault⟩
      · rw [heq, hrest, List.append_assoc]
      · have hlength := congrArg List.length heq
        rw [List.length_cons, List.length_append] at hlength
        rw [hoffset, List.length_append]
        omega
  | case4 => cases hread

/-- Behind bytes that stand for a text, a reader fails at the first byte that cannot be
decoded. -/
theorem firstUndecodable (h : reader.Follows code) (hfront : Spells code text front)
    {offset : Nat} {e : Undecodable} (hread : reader.readAll offset bytes = .error e) :
    offset ≤ e.offset ∧
      FirstUndecodable code (front ++ bytes) (front.length + (e.offset - offset)) := by
  obtain ⟨more, middle, first, rest, hmore, rfl, hoffset, hfault⟩ := h.exists_of_readAll_error hread
  have hindex : front.length + (e.offset - offset) = (front ++ middle).length := by
    rw [hoffset, List.length_append]
    omega
  refine ⟨by omega, ?_⟩
  rw [hindex, ← List.append_assoc]
  refine ⟨by simp, ⟨text ++ more, ?_⟩, ?_⟩
  · rw [List.take_left]
    exact hfront.append hmore
  · rintro n hn hle ⟨whole, hwhole⟩
    -- A longer text would have a character at the head of the rest.
    obtain ⟨k, rfl⟩ : ∃ k, n = (front ++ middle).length + (k + 1) :=
      ⟨n - (front ++ middle).length - 1, by omega⟩
    rw [List.take_length_add_append, List.take_succ_cons] at hwhole
    obtain ⟨tail, htail⟩ := h.spells_of_append (hfront.append hmore) hwhole
    generalize hall : first :: rest.take k = all at htail
    cases htail with
    | nil => cases hall
    | @cons c piece _ others hpiece =>
        have hreads : Reads (reader first rest) c (others ++ rest.drop k) := by
          refine h.reads_iff.mpr ⟨piece, hpiece, ?_⟩
          rw [← List.append_assoc, ← hall, List.cons_append, List.take_append_drop]
        rw [hfault] at hreads
        exact not_reads_error hreads

end Reader.Follows

end Rulebook.Charset
