import Rulebook.Proofs.Source.Undecodable
import Rulebook.Proofs.Text.Breaks
import Rulebook.Proofs.Token.Tiling

/-! # The line of an undecodable byte

The message about a file that is no text counts newline bytes in front of the offset that
it shows. A line of a text ends at a break, so the two counts differ by the carriage
returns that stand alone, which have no such byte, by the bytes of other characters that
have the value of a newline, which are found in UTF-16, and by the newline bytes between
the offset and the byte that cannot be decoded.
-/

namespace Rulebook

/-! ## Carriage returns that stand alone -/

/-- How many carriage returns of a text have no newline behind them. -/
def Text.loneReturns : List Char → Nat
  | [] => 0
  | c :: rest => (if c = '\r' ∧ rest.head? ≠ some '\n' then 1 else 0) + loneReturns rest

/-- The breaks of a text are its newlines and the carriage returns that stand alone. -/
theorem Text.count_newline_unifyBreaks (text : List Char) :
    (unifyBreaks text).count '\n' = text.count '\n' + loneReturns text := by
  fun_induction unifyBreaks text with
  | case1 rest ih => simp [loneReturns, ih, Nat.add_right_comm]
  | case2 rest hpair ih =>
      have halone : rest.head? ≠ some '\n' := fun hhead => by
        obtain ⟨tail, rfl⟩ := List.head?_eq_some_iff.mp hhead
        exact hpair tail rfl
      rw [loneReturns, if_pos ⟨rfl, halone⟩, List.count_cons_self, ih,
        List.count_cons_of_ne (by decide)]
      omega
  | case3 c rest _ hc ih =>
      rw [loneReturns, if_neg fun h => hc h.1, List.count_cons, List.count_cons, ih]
      omega
  | case4 => rfl

namespace Charset

/-! ## Newline bytes -/

variable {charset : Charset} {bytes piece : List UInt8} {c : Char} {text : List Char}

/-- How many of the bytes of a character have the value of a newline. In UTF-16 these
may be bytes of any character; the order of the bytes makes no difference. -/
def newlineBytes (charset : Charset) (c : Char) : Nat :=
  match charset with
  | utf16 | utf16LittleEndian | utf16BigEndian =>
      ((Utf16.unitsOf c.toNat).flatMap Utf16.ByteOrder.bigEndian.bytes).count 0x0a
  | utf8 | ascii | latin1 | windows1252 => if c = '\n' then 1 else 0

/-- How many bytes of other characters have the value of a newline. -/
def strayNewlines (charset : Charset) (text : List Char) : Nat :=
  ((text.filter (· ≠ '\n')).map charset.newlineBytes).sum

theorem newlineBytes_newline (charset : Charset) : charset.newlineBytes '\n' = 1 := by
  cases charset <;> decide

/-- The order of the bytes of a unit makes no difference to their count. -/
theorem Utf16.count_flatMap_bytes (order : ByteOrder) (units : List Nat) (byte : UInt8) :
    (units.flatMap order.bytes).count byte =
      (units.flatMap ByteOrder.bigEndian.bytes).count byte := by
  have hunit : ∀ unit, (order.bytes unit).Perm (ByteOrder.bigEndian.bytes unit) := by
    intro unit
    cases order with
    | littleEndian => exact .swap _ _ _
    | bigEndian => exact .refl _
  exact (List.Perm.flatMap_left units fun unit _ => hunit unit).count_eq byte

theorem ofNat_eq_newline_iff {n : Nat} (h : n < 256) : UInt8.ofNat n = 0x0a ↔ n = 0x0a := by
  rw [← UInt8.toNat_inj, UInt8.toNat_ofNat', Nat.mod_eq_of_lt h]
  rfl

theorem toNat_eq_newline_iff {c : Char} : c.toNat = 0x0a ↔ c = '\n' :=
  ⟨fun h => Char.toNat_inj.mp h, fun h => h ▸ rfl⟩

/-- A character of more than one byte has bytes from 0x80 on only. -/
theorem Utf8.count_newline (c : Char) :
    (String.utf8EncodeChar c).count 0x0a = if c = '\n' then 1 else 0 := by
  have hvalid : c.toNat.isValidChar := c.valid
  have hnone : ∀ numbers : List Nat, (∀ n ∈ numbers, 0x80 ≤ n ∧ n < 256) → 0x80 ≤ c.toNat →
      (numbers.map UInt8.ofNat).count 0x0a = if c = '\n' then 1 else 0 := by
    intro numbers hbounds hlarge
    rw [if_neg (by rw [← toNat_eq_newline_iff]; omega), List.count_eq_zero, List.mem_map]
    rintro ⟨n, hn, hnewline⟩
    obtain ⟨hle, hlt⟩ := hbounds n hn
    rw [ofNat_eq_newline_iff hlt] at hnewline
    omega
  rw [utf8EncodeChar_eq_bytesOf]
  simp only [← toNat_eq_newline_iff] at hnone ⊢
  generalize c.toNat = n at hvalid hnone ⊢
  unfold bytesOf
  split
  · rw [List.count_singleton]
    simp only [beq_iff_eq, ofNat_eq_newline_iff (show n < 256 by omega)]
  split
  · exact hnone [n / 64 + 0xc0, n % 64 + 0x80] (by simp; omega) (by omega)
  split
  · exact hnone [n / 4096 + 0xe0, n / 64 % 64 + 0x80, n % 64 + 0x80] (by simp; omega) (by omega)
  · exact hnone [n / 262144 + 0xf0, n / 4096 % 64 + 0x80, n / 64 % 64 + 0x80, n % 64 + 0x80]
      (by simp; omega) (by omega)

/-- Where a character has one byte, that of a newline belongs to no other. -/
theorem SingleByte.count_newline {charOf : UInt8 → Except Fault Char}
    (h : ∀ byte d, charOf byte = .ok d → (byte = 0x0a ↔ d = '\n'))
    (hpiece : SingleByte.code charOf c piece) :
    piece.count 0x0a = if c = '\n' then 1 else 0 := by
  obtain ⟨byte, hbyte, rfl⟩ := hpiece
  rw [List.count_singleton]
  simp only [beq_iff_eq, h byte c hbyte]

theorem SingleByte.latin1_newline {byte : UInt8} (h : latin1 byte = .ok c) :
    byte = 0x0a ↔ c = '\n' := by
  obtain rfl := Except.ok.inj h
  have hvalid : byte.toNat.isValidChar := .inl (by have := byte.toNat_lt; omega)
  rw [← toNat_eq_newline_iff, Char.toNat_ofNat, if_pos hvalid, ← UInt8.toNat_inj]
  rfl

theorem SingleByte.ascii_newline {byte : UInt8} (h : ascii byte = .ok c) :
    byte = 0x0a ↔ c = '\n' := by
  unfold ascii at h
  split at h
  · exact latin1_newline h
  · cases h

theorem SingleByte.windows1252_newline {byte : UInt8} (h : windows1252 byte = .ok c) :
    byte = 0x0a ↔ c = '\n' := by
  unfold windows1252 at h
  split at h
  · exact latin1_newline h
  next hlarge =>
  split at h
  · exact latin1_newline h
  · next d hrow =>
      obtain rfl := Except.ok.inj h
      have hother : ∀ entry ∈ windows1252Row, entry ≠ some '\n' := by decide
      have hne : d ≠ '\n' := fun heq => hother _ (List.mem_of_getElem? hrow) (heq ▸ rfl)
      refine iff_of_false (fun heq => hlarge ?_) hne
      rw [heq]
      decide
  · cases h

theorem count_newline_of_code (h : charset.code bytes c piece) :
    piece.count 0x0a = charset.newlineBytes c := by
  have hunits : ∀ order, Utf16.code order c piece → piece.count 0x0a =
      ((Utf16.unitsOf c.toNat).flatMap Utf16.ByteOrder.bigEndian.bytes).count 0x0a := by
    rintro order rfl
    exact Utf16.count_flatMap_bytes order _ _
  cases charset with
  | utf8 =>
      obtain rfl : piece = String.utf8EncodeChar c := h
      exact Utf8.count_newline c
  | utf16 => exact hunits _ h
  | utf16LittleEndian => exact hunits _ h
  | utf16BigEndian => exact hunits _ h
  | ascii => exact SingleByte.count_newline (fun _ _ => SingleByte.ascii_newline) h
  | latin1 => exact SingleByte.count_newline (fun _ _ => SingleByte.latin1_newline) h
  | windows1252 => exact SingleByte.count_newline (fun _ _ => SingleByte.windows1252_newline) h

/-- The newline bytes of a text are those of its newlines and the stray ones. -/
theorem Spells.count_newline (h : Spells (charset.code bytes) text piece) :
    piece.count 0x0a = text.count '\n' + charset.strayNewlines text := by
  generalize hcode : charset.code bytes = code at h
  induction h with
  | nil => rfl
  | @cons c front text back hpiece htext ih =>
      rw [List.count_append, count_newline_of_code (hcode ▸ hpiece), ih, List.count_cons]
      by_cases hc : c = '\n'
      · subst hc
        simp [newlineBytes_newline, strayNewlines]
        omega
      · simp [hc, strayNewlines]
        omega

end Charset

namespace Source

open Text Charset

variable {files : Files} {path encodingName : String} {e : UndecodableFile}

/-- The line in the message and the line of the text in front of the first byte that
cannot be decoded, which is the one that an error in the grammar would tell there, differ
by the newline bytes from the offset on and the carriage returns that stand alone, which
are left out, and by the stray newline bytes, which are counted. -/
theorem load_line_iff (h : load files path encodingName = .error (.undecodable e)) :
    ∃ charset index text, Encoding.ofName? encodingName = some (.text charset) ∧
      files.read (.ofString path) = .ok e.bytes ∧
      FirstUndecodable (charset.code e.bytes) e.bytes index ∧
      Spells (charset.code e.bytes) text (e.bytes.take index) ∧
      (e.line + ((e.bytes.take index).drop e.error.offset).count 0x0a + loneReturns text =
        (Position.start.advance (unifyBreaks text)).line + charset.strayNewlines text) ∧
      (e.line = (Position.start.advance (unifyBreaks text)).line ↔
        ((e.bytes.take index).drop e.error.offset).count 0x0a + loneReturns text =
          charset.strayNewlines text) := by
  obtain ⟨charset, hname, hread, rfl, rfl, hdecode⟩ := exists_charset_of_load h
  have hfirst := Charset.firstUndecodable_of_decode hdecode
  obtain ⟨text, htext⟩ := hfirst.before
  generalize hindex : e.error.offset + (charset.droppedMark e.bytes).length = index at hfirst htext
  -- The bytes in front of the index are those in front of the offset and the others.
  have hbytes : (e.bytes.take index).count 0x0a =
      (e.bytes.take e.error.offset).count 0x0a +
        ((e.bytes.take index).drop e.error.offset).count 0x0a := by
    have hsplit := List.take_append_drop e.error.offset (e.bytes.take index)
    rw [List.take_take, Nat.min_eq_left (by omega)] at hsplit
    rw [← List.count_append, hsplit]
  have hbalance : e.line + ((e.bytes.take index).drop e.error.offset).count 0x0a +
      loneReturns text =
        (Position.start.advance (unifyBreaks text)).line + charset.strayNewlines text := by
    rw [htext.count_newline] at hbytes
    rw [Position.start_advance_line, count_newline_unifyBreaks, UndecodableFile.line]
    omega
  exact ⟨charset, index, text, hname, hread, hfirst, htext, hbalance, by omega⟩

/-- Behind a pair and a newline the line is that of the text. -/
theorem load_line_pair :
    let bytes : List UInt8 := [0x61, 0x0d, 0x0a, 0x0a, 0x62, 0xff]
    ∃ e, load (oneFile "g.g" bytes) "g.g" "utf-8" = .error (.undecodable e) ∧
      Spells Utf8.code ['a', '\r', '\n', '\n', 'b'] (bytes.take e.error.offset) ∧
      e.line = (Position.start.advance (unifyBreaks ['a', '\r', '\n', '\n', 'b'])).line ∧
      e.line = 3 := by
  intro bytes
  have hcharset : Encoding.ofName? "utf-8" = some (.text .utf8) := by cbv
  have hload : load (oneFile "g.g" bytes) "g.g" "utf-8" =
      .error (.undecodable ⟨"g.g", "utf-8", bytes, ⟨5, .startByte⟩⟩) := by
    rw [load_eq_decode hcharset (by cbv) (by decide) (by decide)]
    cbv
  have hspells : Spells Utf8.code ['a', '\r', '\n', '\n', 'b'] (bytes.take 5) :=
    Utf8.follows.spells_of_readAll (show Utf8.reader.readAll 0 _ = _ by cbv)
  obtain ⟨charset, index, text, hname, -, hfirst, htext, -, hiff⟩ := load_line_iff hload
  obtain ⟨charset', hname', -, -, -, hdecode⟩ := exists_charset_of_load hload
  cases hname.symm.trans hcharset
  cases hname'.symm.trans hcharset
  obtain rfl : index = 5 := hfirst.unique (firstUndecodable_of_decode hdecode)
  have hsame : text = ['a', '\r', '\n', '\n', 'b'] := by
    have hread := Utf8.follows.readAll_of_spells htext 0
    exact Except.ok.inj (hread.symm.trans (Utf8.follows.readAll_of_spells hspells 0))
  subst hsame
  exact ⟨_, hload, hspells, hiff.mpr (by decide), by decide⟩

/-- A carriage return that stands alone ends a line, which is not counted; in UTF-16 the
character U+010A has a byte that is counted, but ends no line. -/
theorem load_line_wrong :
    (∃ e, load (oneFile "g.g" [0x61, 0x0d, 0xff]) "g.g" "utf-8" = .error (.undecodable e) ∧
      e.message = "g.g:1: cannot decode byte b'\\xff' at offset 2 as utf-8 (invalid start byte)" ∧
      FirstUndecodable Utf8.code [0x61, 0x0d, 0xff] 2 ∧
      Spells Utf8.code ['a', '\r'] [0x61, 0x0d] ∧
      (Position.start.advance (unifyBreaks ['a', '\r'])).line = 2) ∧
    (∃ e, load (oneFile "g.g" [0x0a, 0x01, 0x00, 0xdc]) "g.g" "utf-16-le" =
        .error (.undecodable e) ∧
      e.message =
        "g.g:2: cannot decode byte b'\\x00' at offset 2 as utf-16-le (illegal encoding)" ∧
      FirstUndecodable (Utf16.code .littleEndian) [0x0a, 0x01, 0x00, 0xdc] 2 ∧
      Spells (Utf16.code .littleEndian) ['\u010a'] [0x0a, 0x01] ∧
      (Position.start.advance (unifyBreaks ['\u010a'])).line = 1) := by
  have hutf8 : Encoding.ofName? "utf-8" = some (.text .utf8) := by cbv
  have hutf16 : Encoding.ofName? "utf-16-le" = some (.text .utf16LittleEndian) := by cbv
  have hreturn : Charset.utf8.decode [0x61, 0x0d, 0xff] = .error ⟨2, .startByte⟩ := by cbv
  have hunit : Charset.utf16LittleEndian.decode [0x0a, 0x01, 0x00, 0xdc] =
      .error ⟨2, .loneSurrogate⟩ := by cbv
  have hfirst := firstUndecodable_of_decode hreturn
  have hfirst' := firstUndecodable_of_decode hunit
  constructor
  · refine ⟨⟨"g.g", "utf-8", [0x61, 0x0d, 0xff], ⟨2, .startByte⟩⟩, ?_, by cbv, hfirst,
      Utf8.follows.spells_of_readAll (show Utf8.reader.readAll 0 _ = _ by cbv), by decide⟩
    rw [load_eq_decode hutf8 (by cbv) (by decide) (by decide), decode, hreturn]
  · refine ⟨⟨"g.g", "utf-16-le", [0x0a, 0x01, 0x00, 0xdc], ⟨2, .loneSurrogate⟩⟩, ?_, by cbv,
      hfirst', .singleton (by unfold Utf16.code; decide), by decide⟩
    rw [load_eq_decode hutf16 (by cbv) (by decide) (by decide), decode, hunit]

end Source

end Rulebook
