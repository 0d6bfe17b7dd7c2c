import Rulebook.Proofs.Grammar.Encodable
import Rulebook.Proofs.Json.Accepted

/-! # Canonical texts

Loading checks little: data of any kind may stand where a name is expected, a text or an
object where a sequence is, and members may be missing, unknown or given twice. Still all
that is loaded has an encoding, and the text that it is dumped to stays as it is when it is
loaded and dumped again.
-/

namespace Rulebook.Value

open Json

variable {allowed : Int → Prop} {members : List (String × Json)} {key : String}

/-! ## Members -/

theorem isData_of_member (h : ∀ m ∈ members, IsData allowed m.2) {j : Json}
    (hj : member key members = .ok j) : IsData allowed j := by
  induction members with
  | nil => cases hj
  | cons m rest ih =>
      obtain ⟨hm, hrest⟩ := List.forall_mem_cons.mp h
      rw [member_cons] at hj
      split at hj
      · cases hj
        exact hm
      · exact ih hrest hj

theorem isData_memberOr (h : ∀ m ∈ members, IsData allowed m.2) {default : Json}
    (hdefault : IsData allowed default) : IsData allowed (memberOr key default members) := by
  induction members with
  | nil => exact hdefault
  | cons m rest ih =>
      obtain ⟨hm, hrest⟩ := List.forall_mem_cons.mp h
      rw [memberOr_cons]
      split
      · exact hm
      · exact ih hrest

/-- Of a text only the empty one is decoded as a sequence. -/
theorem eq_nil_of_decodeCharacters {s : String} {vs : List Value}
    (h : decodeCharacters s = .ok vs) : vs = [] := by
  unfold decodeCharacters at h
  split at h
  · exact (Except.ok.inj h).symm
  · cases h

/-! ## Values -/

mutual

/-- What is decoded has an encoding again. -/
theorem isEncodable_of_decode {j : Json} (hj : IsData allowed j) {v : Value}
    (h : decode j = .ok v) : IsEncodable (IsData allowed) v := by
  cases j with
  | array elements =>
      cases hj with
      | array ok =>
          rw [decode] at h
          obtain ⟨vs, hvs, h⟩ := bind_eq_ok.mp h
          cases h
          exact .tuple (isEncodable_of_decodeAll ok hvs)
  | object members =>
      cases hj with
      | object distinct ok =>
          unfold decode at h
          split at h
          · cases h
          · split at h
            · obtain ⟨vs, hvs, h⟩ := bind_eq_ok.mp h
              cases h
              exact .grammar (isEncodable_of_sequenceAt ok hvs)
            · obtain ⟨vs, hvs, h⟩ := bind_eq_ok.mp h
              cases h
              exact .tokenSection (isEncodable_of_sequenceAt ok hvs) (isData_memberOr ok (.string _))
            · obtain ⟨vs, hvs, h⟩ := bind_eq_ok.mp h
              cases h
              exact .rulesField (isEncodable_of_sequenceAt ok hvs) (isData_memberOr ok (.string _))
            · obtain ⟨name, hname, h⟩ := bind_eq_ok.mp h
              cases h
              exact .otherField (isData_of_member ok hname)
            · obtain ⟨name, hname, h⟩ := bind_eq_ok.mp h
              obtain ⟨options, hoptions, h⟩ := bind_eq_ok.mp h
              cases h
              exact isEncodable_of_optionsAt (isData_of_member ok hname) ok hoptions
            · obtain ⟨name, hname, h⟩ := bind_eq_ok.mp h
              obtain ⟨vs, hvs, h⟩ := bind_eq_ok.mp h
              cases h
              exact .ruleDef (isData_of_member ok hname) (isEncodable_of_sequenceAt ok hvs)
            · obtain ⟨value, hvalue, h⟩ := bind_eq_ok.mp h
              cases h
              exact .number (isData_of_member ok hvalue)
            · obtain ⟨pattern, hpattern, h⟩ := bind_eq_ok.mp h
              cases h
              exact .regex (isData_of_member ok hpattern) (isData_memberOr ok (.string _))
            · obtain ⟨text, htext, h⟩ := bind_eq_ok.mp h
              cases h
              exact .string (isData_of_member ok htext)
            · obtain ⟨name, hname, h⟩ := bind_eq_ok.mp h
              cases h
              exact .identifier (isData_of_member ok hname)
            · obtain ⟨value, hvalue, h⟩ := bind_eq_ok.mp h
              cases h
              exact .boolean (isData_of_member ok hvalue)
            · obtain ⟨name, hname, h⟩ := bind_eq_ok.mp h
              cases h
              exact .ref (isData_of_member ok hname)
            · obtain ⟨branches, hbranches, h⟩ := bind_eq_ok.mp h
              cases h
              exact .choice (isEncodable_of_branchesAt ok hbranches)
            · obtain ⟨value, hvalue, h⟩ := bind_eq_ok.mp h
              cases h
              exact .named (isEncodable_of_valueAt ok hvalue) (isData_memberOr ok .null)
                (isData_memberOr ok .null)
            · cases h
          · cases h
          · cases h
          · cases h
  | _ => cases h

/-- The values that a sequence encodes have encodings. -/
theorem isEncodable_of_decodeAll {js : List Json} (hjs : ∀ j ∈ js, IsData allowed j)
    {vs : List Value} (h : decodeAll js = .ok vs) : ∀ v ∈ vs, IsEncodable (IsData allowed) v := by
  cases js with
  | nil =>
      cases h
      simp
  | cons j rest =>
      obtain ⟨hj, hrest⟩ := List.forall_mem_cons.mp hjs
      rw [decodeAll] at h
      obtain ⟨v, hv, h⟩ := bind_eq_ok.mp h
      obtain ⟨more, hmore, h⟩ := bind_eq_ok.mp h
      cases h
      exact List.forall_mem_cons.mpr
        ⟨isEncodable_of_decode hj hv, isEncodable_of_decodeAll hrest hmore⟩

/-- Whatever is decoded as a sequence gives values with encodings. -/
theorem isEncodable_of_decodeSequence {j : Json} (hj : IsData allowed j) {vs : List Value}
    (h : decodeSequence j = .ok vs) : ∀ v ∈ vs, IsEncodable (IsData allowed) v := by
  cases j with
  | array elements =>
      cases hj with
      | array ok => exact isEncodable_of_decodeAll ok h
  | string s =>
      rw [eq_nil_of_decodeCharacters h]
      simp
  | object members =>
      cases members with
      | nil =>
          cases h
          simp
      | cons m rest => cases h
  | _ => cases h

/-- The sequences that a sequence encodes are of values with encodings. -/
theorem isEncodable_of_decodeBranches {js : List Json} (hjs : ∀ j ∈ js, IsData allowed j)
    {branches : List (List Value)} (h : decodeBranches js = .ok branches) :
    ∀ branch ∈ branches, ∀ v ∈ branch, IsEncodable (IsData allowed) v := by
  cases js with
  | nil =>
      cases h
      simp
  | cons j rest =>
      obtain ⟨hj, hrest⟩ := List.forall_mem_cons.mp hjs
      rw [decodeBranches] at h
      obtain ⟨first, hfirst, h⟩ := bind_eq_ok.mp h
      obtain ⟨more, hmore, h⟩ := bind_eq_ok.mp h
      cases h
      exact List.forall_mem_cons.mpr
        ⟨isEncodable_of_decodeSequence hj hfirst, isEncodable_of_decodeBranches hrest hmore⟩

/-- The options that the members of an object encode are named by their keys. -/
theorem exists_named_of_decodeOptions {members : List (String × Json)}
    (hmembers : ∀ m ∈ members, IsData allowed m.2) {options : List (Value × Value)}
    (h : decodeOptions members = .ok options) :
    ∃ named : List (String × Value), options = textOptions named ∧
      named.map Prod.fst = members.map Prod.fst ∧ ∀ o ∈ named, IsEncodable (IsData allowed) o.2 := by
  cases members with
  | nil =>
      cases h
      exact ⟨[], rfl, rfl, by simp⟩
  | cons m rest =>
      obtain ⟨key, j⟩ := m
      obtain ⟨hj, hrest⟩ := List.forall_mem_cons.mp hmembers
      rw [decodeOptions] at h
      obtain ⟨v, hv, h⟩ := bind_eq_ok.mp h
      obtain ⟨more, hmore, h⟩ := bind_eq_ok.mp h
      cases h
      obtain ⟨named, rfl, hkeys, hnamed⟩ := exists_named_of_decodeOptions hrest hmore
      refine ⟨(key, v) :: named, rfl, ?_, ?_⟩
      · rw [List.map_cons, List.map_cons, hkeys]
      · exact List.forall_mem_cons.mpr ⟨isEncodable_of_decode hj hv, hnamed⟩

theorem isEncodable_of_valueAt {members : List (String × Json)}
    (hmembers : ∀ m ∈ members, IsData allowed m.2) {key : String} {v : Value}
    (h : valueAt key members = .ok v) : IsEncodable (IsData allowed) v := by
  cases members with
  | nil => cases h
  | cons m rest =>
      obtain ⟨k, j⟩ := m
      obtain ⟨hj, hrest⟩ := List.forall_mem_cons.mp hmembers
      rw [valueAt] at h
      split at h
      · exact isEncodable_of_decode hj h
      · exact isEncodable_of_valueAt hrest h

theorem isEncodable_of_sequenceAt {members : List (String × Json)}
    (hmembers : ∀ m ∈ members, IsData allowed m.2) {key : String} {vs : List Value}
    (h : sequenceAt key members = .ok vs) : ∀ v ∈ vs, IsEncodable (IsData allowed) v := by
  cases members with
  | nil => cases h
  | cons m rest =>
      obtain ⟨k, j⟩ := m
      obtain ⟨hj, hrest⟩ := List.forall_mem_cons.mp hmembers
      rw [sequenceAt] at h
      split at h
      · exact isEncodable_of_decodeSequence hj h
      · exact isEncodable_of_sequenceAt hrest h

theorem isEncodable_of_branchesAt {members : List (String × Json)}
    (hmembers : ∀ m ∈ members, IsData allowed m.2) {key : String} {branches : List (List Value)}
    (h : branchesAt key members = .ok branches) :
    ∀ branch ∈ branches, ∀ v ∈ branch, IsEncodable (IsData allowed) v := by
  cases members with
  | nil => cases h
  | cons m rest =>
      obtain ⟨k, j⟩ := m
      obtain ⟨hj, hrest⟩ := List.forall_mem_cons.mp hmembers
      by_cases hkey : k = key
      · cases j with
        | array elements =>
            cases hj with
            | array ok =>
                rw [branchesAt, if_pos hkey] at h
                exact isEncodable_of_decodeBranches ok h
        | string s =>
            rw [branchesAt, if_pos hkey] at h
            intro branch hbranch
            rw [forall_of_mapM_eq_ok h (fun _ _ _ => eq_nil_of_decodeCharacters) branch hbranch]
            simp
        | object members =>
            rw [branchesAt, if_pos hkey] at h
            intro branch hbranch
            rw [forall_of_mapM_eq_ok h (fun _ _ _ => eq_nil_of_decodeCharacters) branch hbranch]
            simp
        | _ => simp [branchesAt, hkey] at h
      · have hothers : branchesAt key rest = .ok branches := by
          cases j <;> simpa [branchesAt, hkey] using h
        exact isEncodable_of_branchesAt hrest hothers

theorem isEncodable_of_optionsAt {members : List (String × Json)} {name : Json}
    (hname : IsData allowed name) (hmembers : ∀ m ∈ members, IsData allowed m.2) {key : String}
    {options : List (Value × Value)} (h : optionsAt key members = .ok options) :
    IsEncodable (IsData allowed) (.tokenDef name options) := by
  cases members with
  | nil => cases h
  | cons m rest =>
      obtain ⟨k, j⟩ := m
      obtain ⟨hj, hrest⟩ := List.forall_mem_cons.mp hmembers
      by_cases hkey : k = key
      · cases j with
        | object ms =>
            cases hj with
            | object distinct ok =>
                rw [optionsAt, if_pos hkey] at h
                obtain ⟨named, rfl, hkeys, hnamed⟩ := exists_named_of_decodeOptions ok h
                exact .tokenDef hname (hkeys ▸ distinct) hnamed
        | _ => simp [optionsAt, hkey] at h
      · have hothers : optionsAt key rest = .ok options := by
          cases j <;> simpa [optionsAt, hkey] using h
        exact isEncodable_of_optionsAt hname hrest hothers

end

/-! ## The canonical text -/

/-- What is loaded has an encoding, with whole numbers that are short enough to be read. -/
theorem isEncodable_of_load {text : String} {v : Value} (h : load text = .ok v) :
    IsEncodable (IsData IsReadable) v := by
  unfold load at h
  split at h
  · cases h
  · next j hparse =>
      split at h
      · cases h
      · next w hdecode =>
          cases h
          exact isEncodable_of_decode (isData_of_parse hparse) hdecode

/-- Whatever a text loads as is dumped, and the text that it is dumped to loads as an equal
value, which is dumped to this very text. -/
theorem dump_load_canonical {text : String} {v : Value} (h : load text = .ok v) :
    ∃ canonical w, v.dump = .ok canonical ∧ load canonical = .ok w ∧
      w.dump = .ok canonical ∧ w.same v = true := by
  have hv := isEncodable_of_load h
  obtain ⟨canonical, hdump, hload⟩ := exists_dump_of_isEncodable hv
  exact ⟨canonical, v, hdump, hload, hdump, same_self_of_isEncodable hv⟩

/-- Values with a text and an object in place of sequences, an unknown member, no name where
there is one by default, an object for a name, and not-a-number. -/
def looseData : Json :=
  .array [
    .object [("tokens", .string ""), ("extra", .array [.int 0]), ("type", .string "token_section")],
    .object [("type", .string "rule_def"), ("name", .object [("a", .null)]), ("body", .object [])],
    .object [("type", .string "number"), ("value", .float (.nan true))]]

/-- A text of such values is loaded, and has a canonical text. -/
theorem dump_load_looseData :
    ∃ v canonical w, load looseData.render = .ok v ∧ v.dump = .ok canonical ∧
      load canonical = .ok w ∧ w.dump = .ok canonical ∧ w.same v = true := by
  have hdata : IsData IsReadable looseData := by
    have hzero : IsData IsReadable (.array [.int 0]) :=
      .array (by simpa using IsData.int (by unfold IsReadable; decide))
    have hname : IsData IsReadable (.object [("a", .null)]) :=
      .object (by decide) (by simpa using IsData.null)
    refine .array (List.forall_mem_cons.mpr ⟨?_, List.forall_mem_cons.mpr ⟨?_,
      List.forall_mem_singleton.mpr ?_⟩⟩)
    · exact .object (by decide) (by simpa using ⟨.string "", hzero, .string "token_section"⟩)
    · exact .object (by decide)
        (by simpa using ⟨.string "rule_def", hname, .object List.nodup_nil (by simp)⟩)
    · exact .object (by decide) (by simpa using ⟨.string "number", .notANumber⟩)
  have hload : load looseData.render = .ok (.tuple
      [.tokenSection [] (.string "tokens"), .ruleDef (.object [("a", .null)]) [],
        .number (.float (.nan true))]) := by
    rw [load, parse_render (fun _ hi => hi) hdata]
    rfl
  obtain ⟨canonical, w, hdump, hagain⟩ := dump_load_canonical hload
  exact ⟨_, canonical, w, hload, hdump, hagain⟩

end Rulebook.Value
