import Rulebook.Proofs.Source.Undecodable
import Rulebook.Proofs.Text.Breaks

/-! # Files in UTF-8

A file in UTF-8 is read if and only if its bytes are those of a text. What is read is that
text without a mark at its head and with one newline for each line break, so it holds no
carriage return, and how the lines of a file end makes no difference.
-/

namespace Rulebook

/-- A text without the mark at its head, if it has one. -/
def Text.withoutMark : List Char → List Char
  | '\ufeff' :: rest => rest
  | text => text

namespace Charset

variable {text : List Char} {bytes : List UInt8}

/-- Bytes stand for a text in UTF-8 exactly if they are its encoding. -/
theorem Utf8.spells_iff : Spells Utf8.code text bytes ↔ bytes = encodeUtf8 text := by
  constructor
  · intro h
    induction h with
    | nil => rfl
    | cons hpiece _ ih => rw [hpiece, ih, encodeUtf8, encodeUtf8, List.flatMap_cons]
  · rintro rfl
    induction text with
    | nil => exact .nil
    | cons c rest ih => exact .cons rfl ih

theorem encodeUtf8_mark_cons (rest : List Char) :
    encodeUtf8 ('\ufeff' :: rest) = Utf8.mark ++ encodeUtf8 rest := rfl

/-- Only a text with a mark at its head is encoded with one. -/
theorem exists_of_mark_prefix_encodeUtf8 (h : Utf8.mark <+: encodeUtf8 text) :
    ∃ rest, text = '\ufeff' :: rest := by
  obtain ⟨tail, htail⟩ := h
  cases text with
  | nil => cases htail
  | cons c rest =>
      obtain ⟨rfl, -⟩ := Utf8.follows.head_unique (c := '\ufeff') (d := c) rfl rfl htail
      exact ⟨rest, rfl⟩

/-- The mark is the same one before and after encoding. -/
theorem Utf8.withoutMark_encodeUtf8 (text : List Char) :
    withoutMark (encodeUtf8 text) = encodeUtf8 (Text.withoutMark text) := by
  by_cases hmark : mark <+: encodeUtf8 text
  · obtain ⟨rest, rfl⟩ := exists_of_mark_prefix_encodeUtf8 hmark
    rfl
  · rw [withoutMark_eq_self hmark, Text.withoutMark]
    · rintro rest rfl
      exact hmark (List.prefix_append _ _)

/-- Decoding undoes encoding but for a mark, and nothing else is decoded. -/
theorem decode_utf8_eq_ok_iff :
    utf8.decode bytes = .ok text ↔ ∃ t, bytes = encodeUtf8 t ∧ text = Text.withoutMark t := by
  have hdecode : utf8.decode bytes = .ok text ↔ Utf8.withoutMark bytes = encodeUtf8 text :=
    Utf8.follows.readAll_eq_ok_iff.trans Utf8.spells_iff
  rw [hdecode]
  constructor
  · intro h
    by_cases hmark : Utf8.mark <+: bytes
    · obtain ⟨rest, rfl⟩ := hmark
      rw [Utf8.withoutMark_append_mark] at h
      exact ⟨'\ufeff' :: text, by rw [h, encodeUtf8_mark_cons], rfl⟩
    · rw [Utf8.withoutMark_eq_self hmark] at h
      refine ⟨text, h, ?_⟩
      rw [Text.withoutMark]
      rintro rest rfl
      exact hmark (h ▸ List.prefix_append Utf8.mark (encodeUtf8 rest))
  · rintro ⟨t, rfl, rfl⟩
    exact Utf8.withoutMark_encodeUtf8 t

end Charset

theorem Text.return_notMem_withoutMark {text : List Char} (h : '\r' ∉ text) :
    '\r' ∉ withoutMark text := by
  unfold withoutMark
  split
  · exact fun hmem => h (List.mem_cons_of_mem _ hmem)
  · exact h

/-- The mark is no break and no part of one. -/
theorem Text.withoutMark_withBreaks (ending : Break) (text : List Char) :
    withoutMark (withBreaks ending text) = withBreaks ending (withoutMark text) := by
  cases text with
  | nil => rfl
  | cons c rest =>
      by_cases hnewline : c = '\n'
      · subst hnewline
        cases ending <;> rfl
      · rw [withBreaks_cons hnewline]
        by_cases hmark : c = '\ufeff'
        · rw [hmark, withoutMark, withoutMark]
        · rw [withoutMark, withoutMark, withBreaks_cons hnewline]
          · exact fun tail heq => hmark (List.cons.inj heq).1
          · exact fun tail heq => hmark (List.cons.inj heq).1

namespace Source

variable {files : Files} {path encodingName : String} {bytes : List UInt8} {text : List Char}

/-- What is read from bytes in UTF-8, and when they are refused. -/
theorem decode_utf8_eq_ok_iff : decode path encodingName (.text .utf8) bytes = .ok text ↔
    ∃ t, bytes = Charset.encodeUtf8 t ∧ text = Text.unifyBreaks (Text.withoutMark t) := by
  rw [decode]
  cases hdecode : Charset.utf8.decode bytes with
  | error e =>
      simp only [reduceCtorEq, false_iff]
      rintro ⟨t, hbytes, -⟩
      cases hdecode.symm.trans (Charset.decode_utf8_eq_ok_iff.mpr ⟨t, hbytes, rfl⟩)
  | ok read =>
      obtain ⟨t, rfl, rfl⟩ := Charset.decode_utf8_eq_ok_iff.mp hdecode
      simp only [Except.ok.injEq]
      constructor
      · rintro rfl
        exact ⟨t, rfl, rfl⟩
      · rintro ⟨t', hbytes, rfl⟩
        have hsame := Charset.decode_utf8_eq_ok_iff.mpr ⟨t', hbytes, rfl⟩
        rw [Except.ok.inj (hdecode.symm.trans hsame)]

theorem exists_decode_utf8_error_iff :
    (∃ e, decode path encodingName (.text .utf8) bytes = .error (.undecodable e)) ↔
      ¬ ∃ t, bytes = Charset.encodeUtf8 t := by
  constructor
  · rintro ⟨e, herror⟩ ⟨t, hbytes⟩
    cases herror.symm.trans (decode_utf8_eq_ok_iff.mpr ⟨t, hbytes, rfl⟩)
  · intro hnone
    cases hdecode : Charset.utf8.decode bytes with
    | error e => exact ⟨_, by rw [decode, hdecode]⟩
    | ok read =>
        obtain ⟨t, hbytes, -⟩ := Charset.decode_utf8_eq_ok_iff.mp hdecode
        exact absurd ⟨t, hbytes⟩ hnone

/-- A file in UTF-8, under any name of it, is read if and only if its bytes are those of a
text, and refused as undecodable otherwise. What is read are the lines of that text, from
behind a mark on, with a newline for each break: it is what replacing the pairs and then
the other carriage returns gives, no carriage return is left, and it does not show which
break the file has for its newlines. -/
theorem load_utf8_iff (hencoding : Encoding.ofName? encodingName = some (.text .utf8))
    (hname : hasNul encodingName = false) (hpath : hasNul path = false)
    (hread : files.read (.ofString path) = .ok bytes) :
    ((∃ text, load files path encodingName = .ok text) ↔ ∃ t, bytes = Charset.encodeUtf8 t) ∧
    ((∃ e, load files path encodingName = .error (.undecodable e)) ↔
      ¬ ∃ t, bytes = Charset.encodeUtf8 t) ∧
    (∀ text, load files path encodingName = .ok text ↔
      ∃ t lines, bytes = Charset.encodeUtf8 t ∧ Text.Broken (Text.withoutMark t) lines ∧
        text = ['\n'].intercalate lines ∧
        text = Text.replace ['\r'] ['\n'] (Text.replace ['\r', '\n'] ['\n'] (Text.withoutMark t))) ∧
    (∀ text, load files path encodingName = .ok text → '\r' ∉ text) ∧
    (∀ t ending, '\r' ∉ t → bytes = Charset.encodeUtf8 (Text.withBreaks ending t) →
      load files path encodingName = .ok (Text.withoutMark t)) := by
  rw [load_eq_decode hencoding hread hname hpath]
  refine ⟨?_, exists_decode_utf8_error_iff, ?_, ?_, ?_⟩
  · simp only [decode_utf8_eq_ok_iff]
    exact ⟨fun ⟨_, t, hbytes, _⟩ => ⟨t, hbytes⟩, fun ⟨t, hbytes⟩ => ⟨_, t, hbytes, rfl⟩⟩
  · intro text
    rw [decode_utf8_eq_ok_iff]
    constructor
    · rintro ⟨t, hbytes, rfl⟩
      obtain ⟨lines, hlines⟩ := Text.exists_broken (Text.withoutMark t)
      exact ⟨t, lines, hbytes, hlines, hlines.unifyBreaks_eq, Text.unifyBreaks_eq_replace _⟩
    · rintro ⟨t, lines, hbytes, hlines, rfl, -⟩
      exact ⟨t, hbytes, hlines.unifyBreaks_eq.symm⟩
  · intro text htext
    obtain ⟨t, -, rfl⟩ := decode_utf8_eq_ok_iff.mp htext
    exact Text.return_notMem_unifyBreaks _
  · intro t ending hplain hbytes
    refine decode_utf8_eq_ok_iff.mpr ⟨_, hbytes, ?_⟩
    rw [Text.withoutMark_withBreaks,
      Text.unifyBreaks_withBreaks ending (Text.return_notMem_withoutMark hplain)]

/-- A mark, a carriage return in front of a pair, and a carriage return at the end. -/
theorem load_utf8_mixedBreaks :
    let bytes : List UInt8 :=
      [0xef, 0xbb, 0xbf, 0xc3, 0xa9, 0x0d, 0x0d, 0x0a, 0x62, 0x0a, 0x0d]
    ∀ name ∈ ["utf-8", "UTF8", "u8", "utf 8", "cp65001", "utf-8-sig"],
      load (oneFile "g.g" bytes) "g.g" name = .ok ['é', '\n', '\n', 'b', '\n', '\n'] := by
  intro bytes name hname
  have hnames : ∀ name ∈ ["utf-8", "UTF8", "u8", "utf 8", "cp65001", "utf-8-sig"],
      Encoding.ofName? name = some (.text .utf8) ∧ hasNul name = false := by
    decide +kernel
  obtain ⟨hencoding, hnul⟩ := hnames name hname
  obtain ⟨-, -, hiff, -, -⟩ :=
    @load_utf8_iff (oneFile "g.g" bytes) "g.g" name bytes hencoding hnul (by decide) (by cbv)
  refine (hiff _).mpr ⟨['\ufeff', 'é', '\r', '\r', '\n', 'b', '\n', '\r'],
    [['é'], [], ['b'], [], []], by cbv, ?_, rfl, by simp [Text.withoutMark, Text.replace]⟩
  have hend : Text.Broken ['\r'] [[], []] :=
    .cons .carriageReturn Text.isLine_nil (by decide) (.last Text.isLine_nil)
  have hletter : Text.Broken ['b', '\n', '\r'] [['b'], [], []] :=
    .cons .newline (show Text.IsLine ['b'] by decide) (by decide) hend
  have hpair : Text.Broken ['\r', '\n', 'b', '\n', '\r'] [[], ['b'], [], []] :=
    .cons .both Text.isLine_nil (by decide) hletter
  exact .cons .carriageReturn (show Text.IsLine ['é'] by decide) (by decide) hpair

end Source

end Rulebook
