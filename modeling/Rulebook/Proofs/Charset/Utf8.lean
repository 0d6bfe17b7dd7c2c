import Mathlib
import Rulebook.Charset.Utf8
import Rulebook.Proofs.Charset.Code

/-! # The code of UTF-8

A character takes the bytes of its code point, one to four of them. The reader takes
exactly these: what the first byte announces, the bounds of the second and six bits from
each byte that follows leave one form for every character.
-/

namespace Rulebook.Charset

namespace Utf8

/-- A character takes the one to four bytes of its encoding. -/
def code : Code := fun c piece => piece = String.utf8EncodeChar c

theorem reads_readTails_zero {bits least greatest n : Nat} {rest more : List UInt8} :
    Reads (readTails ⟨bits, 0, least, greatest⟩ rest) n more ↔ bits = n ∧ rest = more := by
  rw [readTails, reads_ok]

/-- A byte within the bounds is taken, and its six bits are added to the code point. -/
theorem reads_readTails_succ {bits tails least greatest n : Nat} {rest more : List UInt8} :
    Reads (readTails ⟨bits, tails + 1, least, greatest⟩ rest) n more ↔
      ∃ byte after, rest = byte :: after ∧ least ≤ byte.toNat ∧ byte.toNat ≤ greatest ∧
        Reads (readTails ⟨bits * 64 + (byte.toNat - 0x80), tails, 0x80, 0xbf⟩ after) n more := by
  cases rest with
  | nil => simp [readTails]
  | cons byte after =>
      rw [readTails]
      constructor
      · intro h
        split at h
        · next hbounds =>
            rw [Bool.and_eq_true, decide_eq_true_eq, decide_eq_true_eq] at hbounds
            refine ⟨byte, after, rfl, hbounds.1, hbounds.2, ?_⟩
            split at h
            · exact absurd h not_reads_error
            · next r hr =>
                obtain ⟨rfl, rfl⟩ := reads_ok.mp h
                rw [hr]
                exact reads_ok.mpr ⟨rfl, rfl⟩
        · exact absurd h not_reads_error
      · rintro ⟨_, _, heq, hleast, hgreatest, h⟩
        obtain ⟨rfl, rfl⟩ := List.cons.inj heq
        rw [if_pos (by simp [hleast, hgreatest]), h.eq_ok]
        exact reads_ok.mpr ⟨rfl, rfl⟩

theorem reads_reader {first : UInt8} {rest more : List UInt8} {c : Char} :
    Reads (reader first rest) c more ↔
      ∃ lead n, lead? first = some lead ∧ Reads (readTails lead rest) n more ∧
        Char.ofNat n = c := by
  unfold reader
  constructor
  · intro h
    split at h
    · exact absurd h not_reads_error
    · next lead hlead =>
        split at h
        · exact absurd h not_reads_error
        · next r hr =>
            obtain ⟨hvalue, rfl⟩ := reads_ok.mp h
            exact ⟨lead, r.value, hlead, by rw [hr]; exact reads_ok.mpr ⟨rfl, rfl⟩, hvalue⟩
  · rintro ⟨lead, n, hlead, h, rfl⟩
    simp only [hlead]
    rw [h.eq_ok]
    exact reads_ok.mpr ⟨rfl, rfl⟩

/-- The bytes of a code point, of which there are one to four. -/
def bytesOf (n : Nat) : List UInt8 :=
  if n < 0x80 then [.ofNat n]
  else if n < 0x800 then [.ofNat (n / 64 + 0xc0), .ofNat (n % 64 + 0x80)]
  else if n < 0x10000 then
    [.ofNat (n / 4096 + 0xe0), .ofNat (n / 64 % 64 + 0x80), .ofNat (n % 64 + 0x80)]
  else
    [.ofNat (n / 262144 + 0xf0), .ofNat (n / 4096 % 64 + 0x80), .ofNat (n / 64 % 64 + 0x80),
      .ofNat (n % 64 + 0x80)]

theorem utf8EncodeChar_eq_bytesOf (c : Char) : String.utf8EncodeChar c = bytesOf c.toNat := by
  have hc : c.val.toNat = c.toNat := rfl
  have hvalid : c.toNat.isValidChar := c.valid
  simp only [String.utf8EncodeChar, bytesOf, hc]
  generalize c.toNat = n at hvalid
  split
  · rw [if_pos (by omega)]
  split
  · rw [if_neg (by omega), if_pos (by omega), Nat.mod_eq_of_lt (by omega : n / 64 < 32)]
  split
  · rw [if_neg (by omega), if_neg (by omega), if_pos (by omega),
      Nat.mod_eq_of_lt (by omega : n / 4096 < 16)]
  · rw [if_neg (by omega), if_neg (by omega), if_neg (by omega),
      Nat.mod_eq_of_lt (by omega : n / 262144 < 8)]

/-- What a lead announces is taken from the bytes of a code point. -/
theorem reads_bytesOf {first : UInt8} {rest more : List UInt8} {n : Nat} (hvalid : n.isValidChar)
    (h : first :: rest = bytesOf n ++ more) :
    ∃ lead, lead? first = some lead ∧ Reads (readTails lead rest) n more := by
  have hbyte : ∀ {m : Nat}, m < 256 → (UInt8.ofNat m).toNat = m := by
    intro m hm
    rw [UInt8.toNat_ofNat', Nat.mod_eq_of_lt hm]
  unfold bytesOf at h
  split at h
  · obtain ⟨rfl, rfl⟩ := List.cons.inj h
    refine ⟨⟨n, 0, 0x80, 0xbf⟩, ?_, reads_readTails_zero.mpr ⟨rfl, rfl⟩⟩
    simp only [lead?, hbyte (show n < 256 by omega)]
    rw [if_pos (by omega)]
  split at h
  · obtain ⟨rfl, rfl⟩ := List.cons.inj h
    refine ⟨⟨n / 64, 1, 0x80, 0xbf⟩, ?_, reads_readTails_succ.mpr ⟨_, _, rfl, ?_⟩⟩
    · simp only [lead?, hbyte (show n / 64 + 0xc0 < 256 by omega)]
      rw [if_neg (by omega), if_neg (by omega), if_pos (by omega), Nat.add_sub_cancel]
    · rw [hbyte (by omega)]
      refine ⟨by omega, by omega, reads_readTails_zero.mpr ⟨by omega, rfl⟩⟩
  split at h
  · obtain ⟨rfl, rfl⟩ := List.cons.inj h
    refine ⟨⟨n / 4096, 2, if n / 4096 = 0 then 0xa0 else 0x80,
      if n / 4096 = 0xd then 0x9f else 0xbf⟩, ?_, reads_readTails_succ.mpr ⟨_, _, rfl, ?_⟩⟩
    · simp only [lead?, hbyte (show n / 4096 + 0xe0 < 256 by omega)]
      rw [if_neg (by omega), if_neg (by omega), if_neg (by omega), if_pos (by omega),
        Nat.add_sub_cancel]
      simp
    · rw [hbyte (by omega)]
      refine ⟨by split <;> omega, by split <;> omega, reads_readTails_succ.mpr ⟨_, _, rfl, ?_⟩⟩
      rw [hbyte (by omega)]
      exact ⟨by omega, by omega, reads_readTails_zero.mpr ⟨by omega, rfl⟩⟩
  · obtain ⟨rfl, rfl⟩ := List.cons.inj h
    refine ⟨⟨n / 262144, 3, if n / 262144 = 0 then 0x90 else 0x80,
      if n / 262144 = 4 then 0x8f else 0xbf⟩, ?_, reads_readTails_succ.mpr ⟨_, _, rfl, ?_⟩⟩
    · simp only [lead?, hbyte (show n / 262144 + 0xf0 < 256 by omega)]
      rw [if_neg (by omega), if_neg (by omega), if_neg (by omega), if_neg (by omega),
        if_pos (by omega), Nat.add_sub_cancel]
      simp
    · rw [hbyte (by omega)]
      refine ⟨by split <;> omega, by split <;> omega, reads_readTails_succ.mpr ⟨_, _, rfl, ?_⟩⟩
      rw [hbyte (by omega)]
      refine ⟨by omega, by omega, reads_readTails_succ.mpr ⟨_, _, rfl, ?_⟩⟩
      rw [hbyte (by omega)]
      exact ⟨by omega, by omega, reads_readTails_zero.mpr ⟨by omega, rfl⟩⟩

theorem bytesOf_of_reads {first : UInt8} {rest more : List UInt8} {lead : Lead} {n : Nat} 
    (hlead : lead? first = some lead) (h : Reads (readTails lead rest) n more) :
    n.isValidChar ∧ first :: rest = bytesOf n ++ more := by
  have hbyte : ∀ (byte : UInt8) {m : Nat}, m = byte.toNat → UInt8.ofNat m = byte := by
    rintro byte _ rfl
    exact UInt8.ofNat_toNat
  simp only [lead?] at hlead
  split at hlead
  · obtain rfl := Option.some.inj hlead
    obtain ⟨rfl, rfl⟩ := reads_readTails_zero.mp h
    rw [bytesOf, if_pos (by omega), hbyte first rfl]
    exact ⟨.inl (by omega), rfl⟩
  split at hlead
  · cases hlead
  split at hlead
  · obtain rfl := Option.some.inj hlead
    obtain ⟨b, _, rfl, _, _, h⟩ := reads_readTails_succ.mp h
    obtain ⟨rfl, rfl⟩ := reads_readTails_zero.mp h
    rw [bytesOf, if_neg (by omega), if_pos (by omega), hbyte first (by omega),
      hbyte b (by omega)]
    exact ⟨.inl (by omega), rfl⟩
  split at hlead
  · obtain rfl := Option.some.inj hlead
    obtain ⟨b, _, rfl, hleast, hgreatest, h⟩ := reads_readTails_succ.mp h
    obtain ⟨b', _, rfl, _, _, h⟩ := reads_readTails_succ.mp h
    obtain ⟨rfl, rfl⟩ := reads_readTails_zero.mp h
    have : 0x80 ≤ b.toNat ∧ b.toNat ≤ 0xbf := by constructor <;> grind
    have hlow : first.toNat = 0xe0 → 0xa0 ≤ b.toNat := fun h => by rwa [if_pos h] at hleast
    have hhigh : first.toNat = 0xed → b.toNat ≤ 0x9f := fun h => by rwa [if_pos h] at hgreatest
    rw [bytesOf, if_neg (by omega), if_neg (by omega), if_pos (by omega),
      hbyte first (by omega), hbyte b (by omega), hbyte b' (by omega)]
    exact ⟨by omega, rfl⟩
  split at hlead
  · obtain rfl := Option.some.inj hlead
    obtain ⟨b, _, rfl, hleast, hgreatest, h⟩ := reads_readTails_succ.mp h
    obtain ⟨b', _, rfl, _, _, h⟩ := reads_readTails_succ.mp h
    obtain ⟨b'', _, rfl, _, _, h⟩ := reads_readTails_succ.mp h
    obtain ⟨rfl, rfl⟩ := reads_readTails_zero.mp h
    have : 0x80 ≤ b.toNat ∧ b.toNat ≤ 0xbf := by constructor <;> grind
    have hlow : first.toNat = 0xf0 → 0x90 ≤ b.toNat := fun h => by rwa [if_pos h] at hleast
    have hhigh : first.toNat = 0xf4 → b.toNat ≤ 0x8f := fun h => by rwa [if_pos h] at hgreatest
    rw [bytesOf, if_neg (by omega), if_neg (by omega), if_neg (by omega),
      hbyte first (by omega), hbyte b (by omega), hbyte b' (by omega),
      hbyte b'' (by omega)]
    exact ⟨by omega, rfl⟩
  · cases hlead

theorem reads_reader_iff {first : UInt8} {rest more : List UInt8} {c : Char} :
    Reads (reader first rest) c more ↔ first :: rest = String.utf8EncodeChar c ++ more := by
  rw [utf8EncodeChar_eq_bytesOf, reads_reader]
  constructor
  · rintro ⟨lead, n, hlead, hreads, rfl⟩
    obtain ⟨hvalid, hbytes⟩ := bytesOf_of_reads hlead hreads
    rwa [Char.toNat_ofNat, if_pos hvalid]
  · intro h
    obtain ⟨lead, hlead, hreads⟩ := reads_bytesOf c.valid h
    exact ⟨lead, c.toNat, hlead, hreads, Char.ofNat_toNat c⟩

theorem follows : reader.Follows code := by
  refine ⟨?_, ?_⟩
  · intro first rest c more
    rw [reads_reader_iff]
    constructor
    · intro h
      exact ⟨_, rfl, h⟩
    · rintro ⟨_, rfl, h⟩
      exact h
  · rintro c _ rfl
    rw [← List.length_pos_iff, String.length_utf8EncodeChar]
    exact c.utf8Size_pos

/-- The mark in front of a text. -/
def mark : List UInt8 := [0xef, 0xbb, 0xbf]

/-- The mark stands for a character itself. -/
theorem spells_mark : Spells code ['\ufeff'] mark := .singleton rfl

theorem withoutMark_append_mark (rest : List UInt8) : withoutMark (mark ++ rest) = rest := rfl

theorem withoutMark_eq_self {bytes : List UInt8} (h : ¬ mark <+: bytes) :
    withoutMark bytes = bytes := by
  unfold withoutMark
  split
  · next rest => exact absurd ⟨rest, rfl⟩ h
  · rfl

end Utf8

end Rulebook.Charset
