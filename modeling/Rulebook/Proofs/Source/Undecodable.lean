import Rulebook.Source
import Rulebook.Proofs.Charset.Decode

/-! # Files that are no text

The message about a file that is no text shows an offset and the byte of the file there.
The offset counts from behind a mark of UTF-8 that was dropped: it points at the first
byte that cannot be decoded if there is no such mark, and three bytes before it
otherwise.
-/

namespace Rulebook

open Charset (FirstUndecodable)

/-- There is one first byte at most that cannot be decoded. -/
theorem Charset.FirstUndecodable.unique {code : Charset.Code} {bytes : List UInt8} {i j : Nat}
    (hi : FirstUndecodable code bytes i) (hj : FirstUndecodable code bytes j) : i = j := by
  rcases Nat.lt_trichotomy i j with hlt | heq | hlt
  · exact absurd hj.before (hi.beyond j hlt (Nat.le_of_lt hj.inside))
  · exact heq
  · exact absurd hi.before (hj.beyond i hlt (Nat.le_of_lt hi.inside))

namespace Source

variable {files : Files} {path encodingName : String} {e : UndecodableFile}

/-- The text of a file that is there, in an encoding that is known. -/
theorem load_eq_decode {encoding : Encoding} {bytes : List UInt8}
    (hencoding : Encoding.ofName? encodingName = some encoding)
    (hread : files.read (.ofString path) = .ok bytes)
    (hname : hasNul encodingName = false) (hpath : hasNul path = false) :
    load files path encodingName = decode path encodingName encoding bytes := by
  simp only [load, hname, hpath, hencoding, hread, Bool.false_eq_true, if_false]

/-- A file that is no text was found and read in a known character set. -/
theorem exists_charset_of_load (h : load files path encodingName = .error (.undecodable e)) :
    ∃ charset, Encoding.ofName? encodingName = some (.text charset) ∧
      files.read (.ofString path) = .ok e.bytes ∧ e.path = path ∧ e.encoding = encodingName ∧
      charset.decode e.bytes = .error e.error := by
  unfold load at h
  split at h
  · cases h
  cases hname : Encoding.ofName? encodingName with
  | none =>
      rw [hname] at h
      cases h
  | some encoding =>
      rw [hname] at h
      dsimp only at h
      split at h
      · cases h
      cases hread : files.read (.ofString path) with
      | error failure =>
          rw [hread] at h
          cases h
      | ok bytes =>
          rw [hread] at h
          cases encoding with
          | binary name =>
              unfold decode at h
              dsimp only at h
              split at h <;> cases h
          | text charset =>
              unfold decode at h
              dsimp only at h
              cases hdecode : charset.decode bytes with
              | ok text =>
                  rw [hdecode] at h
                  cases h
              | error fault =>
                  rw [hdecode] at h
                  cases h
                  exact ⟨charset, rfl, rfl, rfl, rfl, hdecode⟩

/-- The first byte of a file that cannot be decoded stands behind the offset in the
message by the length of the mark that was dropped, so the offset is its index if and
only if no mark was dropped. The byte in the message is always the one at the offset. -/
theorem load_offset_iff_no_mark (h : load files path encodingName = .error (.undecodable e)) :
    ∃ charset byte, Encoding.ofName? encodingName = some (.text charset) ∧
      files.read (.ofString path) = .ok e.bytes ∧
      FirstUndecodable (charset.code e.bytes) e.bytes
        (e.error.offset + (charset.droppedMark e.bytes).length) ∧
      (FirstUndecodable (charset.code e.bytes) e.bytes e.error.offset ↔
        ¬ (charset = .utf8 ∧ Charset.Utf8.mark <+: e.bytes)) ∧
      e.bytes[e.error.offset]? = some byte ∧
      e.message = path ++ ":" ++ toString e.line ++ ": cannot decode byte "
        ++ String.ofList (Text.quotedBytes [byte]) ++ " at offset " ++ toString e.error.offset
        ++ " as " ++ encodingName ++ " (" ++ e.error.fault.text ++ ")" := by
  obtain ⟨charset, hname, hread, rfl, rfl, hdecode⟩ := exists_charset_of_load h
  have hfirst := Charset.firstUndecodable_of_decode hdecode
  have hinside : e.error.offset < e.bytes.length :=
    Nat.lt_of_le_of_lt (Nat.le_add_right _ _) hfirst.inside
  refine ⟨charset, e.bytes[e.error.offset], hname, hread, hfirst, ?_,
    List.getElem?_eq_getElem hinside, ?_⟩
  · constructor
    · rintro hreported hmark
      have hsame := hreported.unique hfirst
      rw [Charset.droppedMark, if_pos hmark] at hsame
      simp [Charset.Utf8.mark] at hsame
    · intro hmark
      rwa [Charset.droppedMark, if_neg hmark] at hfirst
  · have hbyte : e.byte = [e.bytes[e.error.offset]] := by
      rw [UndecodableFile.byte, List.drop_eq_getElem_cons hinside]
      rfl
    rw [UndecodableFile.message, hbyte]

/-- A single file in the working directory. -/
def oneFile (name : String) (bytes : List UInt8) : Files := ⟨[([name], .file bytes)], []⟩

/-- The mark of UTF-16 is counted: the offset is that of the lone surrogate. -/
theorem load_offset_unmarked :
    let bytes : List UInt8 := [0xff, 0xfe, 0x61, 0x00, 0x00, 0xdc, 0x62]
    ∃ e, load (oneFile "g.g" bytes) "g.g" "UTF-16" = .error (.undecodable e) ∧
      e.message =
        "g.g:1: cannot decode byte b'\\x00' at offset 4 as UTF-16 (illegal encoding)" ∧
      FirstUndecodable (Charset.Utf16.code .littleEndian) bytes 4 := by
  intro bytes
  have hcharset : Encoding.ofName? "UTF-16" = some (.text .utf16) := by cbv
  have hload : load (oneFile "g.g" bytes) "g.g" "UTF-16" =
      .error (.undecodable ⟨"g.g", "UTF-16", bytes, ⟨4, .loneSurrogate⟩⟩) := by
    rw [load_eq_decode hcharset (by cbv) (by decide) (by decide)]
    cbv
  obtain ⟨charset, byte, hname, -, -, hiff, -, -⟩ := load_offset_iff_no_mark hload
  cases hname.symm.trans hcharset
  exact ⟨_, hload, by cbv, hiff.mpr (by simp)⟩

/-- Behind a mark of UTF-8 the message shows the last byte of the mark, not the byte that
cannot be decoded. -/
theorem load_offset_marked :
    let bytes : List UInt8 := [0xef, 0xbb, 0xbf, 0x61, 0x62, 0xff]
    ∃ e, load (oneFile "g.g" bytes) "g.g" "utf-8" = .error (.undecodable e) ∧
      e.message = "g.g:1: cannot decode byte b'\\xbf' at offset 2 as utf-8 (invalid start byte)" ∧
      FirstUndecodable Charset.Utf8.code bytes 5 ∧ bytes[5]? = some 0xff ∧
      ¬ FirstUndecodable Charset.Utf8.code bytes e.error.offset := by
  intro bytes
  have hcharset : Encoding.ofName? "utf-8" = some (.text .utf8) := by cbv
  have hload : load (oneFile "g.g" bytes) "g.g" "utf-8" =
      .error (.undecodable ⟨"g.g", "utf-8", bytes, ⟨2, .startByte⟩⟩) := by
    rw [load_eq_decode hcharset (by cbv) (by decide) (by decide)]
    cbv
  obtain ⟨charset, hname, -, -, -, hdecode⟩ := exists_charset_of_load hload
  cases hname.symm.trans hcharset
  have hfirst := Charset.firstUndecodable_of_decode hdecode
  refine ⟨_, hload, by cbv, hfirst, rfl, ?_⟩
  intro hreported
  cases hreported.unique hfirst

end Source

end Rulebook
