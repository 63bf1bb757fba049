import SourceAtlas.Text.Utf8
import Mathlib.Tactic.Common

/-!
# Reading back UTF-8

A character is read from exactly the bytes that it is written as. So decoding accepts exactly what
encoding gives, and gives back the text.
-/

namespace SourceAtlas.Utf8

open List

variable {n value done length : Nat} {first low high : UInt8} {bytes tail : Bytes} {text : Text}
  {c : Char}

/-! ## The bytes of a character -/

section Written

variable {c : Char}

theorem utf8EncodeChar_one (h : c.toNat < 0x80) :
    String.utf8EncodeChar c = [UInt8.ofNat c.toNat] := by
  unfold String.utf8EncodeChar
  rw [Char.toNat_val]
  exact if_pos (by omega)

theorem utf8EncodeChar_two (hlow : 0x80 ≤ c.toNat) (hhigh : c.toNat < 0x800) :
    String.utf8EncodeChar c =
      [UInt8.ofNat (c.toNat / 64 % 32 + 0xC0), UInt8.ofNat (c.toNat % 64 + 0x80)] := by
  unfold String.utf8EncodeChar
  rw [Char.toNat_val]
  exact (if_neg (by omega)).trans (if_pos (by omega))

theorem utf8EncodeChar_three (hlow : 0x800 ≤ c.toNat) (hhigh : c.toNat < 0x10000) :
    String.utf8EncodeChar c =
      [UInt8.ofNat (c.toNat / 4096 % 16 + 0xE0), UInt8.ofNat (c.toNat / 64 % 64 + 0x80),
        UInt8.ofNat (c.toNat % 64 + 0x80)] := by
  unfold String.utf8EncodeChar
  rw [Char.toNat_val]
  exact (if_neg (by omega)).trans ((if_neg (by omega)).trans (if_pos (by omega)))

theorem utf8EncodeChar_four (hlow : 0x10000 ≤ c.toNat) :
    String.utf8EncodeChar c =
      [UInt8.ofNat (c.toNat / 262144 % 8 + 0xF0), UInt8.ofNat (c.toNat / 4096 % 64 + 0x80),
        UInt8.ofNat (c.toNat / 64 % 64 + 0x80), UInt8.ofNat (c.toNat % 64 + 0x80)] := by
  unfold String.utf8EncodeChar
  rw [Char.toNat_val]
  exact (if_neg (by omega)).trans ((if_neg (by omega)).trans (if_neg (by omega)))

theorem toNat_ofNat_small (h : n < 256) : (UInt8.ofNat n).toNat = n :=
  UInt8.toNat_ofNat_of_lt' h

theorem toNat_lt (c : Char) : c.toNat < 0xD800 ∨ 0xDFFF < c.toNat ∧ c.toNat < 0x110000 :=
  c.valid

theorem toNat_ofNat_of_lt (h : n < 0xD800 ∨ 0xDFFF < n ∧ n < 0x110000) :
    (Char.ofNat n).toNat = n := by
  have hvalid : n.isValidChar := h
  rw [Char.ofNat, dif_pos hvalid]
  rfl

end Written

/-! ## Reading one character -/

/-- The second byte is narrowed so that no character has a longer form, none is half of a pair and
none is too great. -/
theorem mem_secondRange_iff {b : UInt8} :
    (secondRange first).1.toNat ≤ b.toNat ∧ b.toNat ≤ (secondRange first).2.toNat ↔
      0x80 ≤ b.toNat ∧ b.toNat ≤ 0xBF ∧
        (first.toNat = 0xE0 → 0xA0 ≤ b.toNat) ∧ (first.toNat = 0xED → b.toNat ≤ 0x9F) ∧
        (first.toNat = 0xF0 → 0x90 ≤ b.toNat) ∧ (first.toNat = 0xF4 → b.toNat ≤ 0x8F) := by
  unfold secondRange
  simp only [← UInt8.toNat_inj, UInt8.reduceToNat]
  split_ifs <;> simp only [UInt8.reduceToNat] <;> omega

theorem readTail_succ_eq_char_iff {owed : Nat} :
    readTail value done low high (owed + 1) bytes = .char c length ↔
      ∃ b rest, bytes = b :: rest ∧ (low.toNat ≤ b.toNat ∧ b.toNat ≤ high.toNat) ∧
        readTail (value * 64 + b.toNat % 64) (done + 1) 0x80 0xBF owed rest = .char c length := by
  cases bytes with
  | nil => simp [readTail]
  | cons b rest =>
    have hbounds : (decide (low ≤ b) && decide (b ≤ high)) = true ↔
        low.toNat ≤ b.toNat ∧ b.toNat ≤ high.toNat := by
      rw [Bool.and_eq_true, decide_eq_true_iff, decide_eq_true_iff, UInt8.le_iff_toNat_le,
        UInt8.le_iff_toNat_le]
    rw [readTail]
    constructor
    · intro h
      by_cases hin : (decide (low ≤ b) && decide (b ≤ high)) = true
      · rw [if_pos hin] at h
        exact ⟨b, rest, rfl, hbounds.mp hin, h⟩
      · rw [if_neg hin] at h
        cases h
    · rintro ⟨b, rest, hbytes, hin, h⟩
      obtain ⟨rfl, rfl⟩ := cons.inj hbytes
      rw [if_pos (hbounds.mpr hin)]
      exact h

theorem readTail_zero_eq_char_iff :
    readTail value done low high 0 bytes = .char c length ↔ Char.ofNat value = c ∧ done = length := by
  rw [readTail, Step.char.injEq]

/-- How the first byte decides: how many bytes must follow it and which bits it gives. -/
theorem readChar_cases (first : UInt8) (rest : Bytes) :
    (first.toNat < 0x80 ∧ readChar first rest = readTail first.toNat 1 (secondRange first).1
      (secondRange first).2 0 rest) ∨
    (0xC2 ≤ first.toNat ∧ first.toNat < 0xE0 ∧ readChar first rest =
      readTail (first.toNat % 32) 1 (secondRange first).1 (secondRange first).2 1 rest) ∨
    (0xE0 ≤ first.toNat ∧ first.toNat < 0xF0 ∧ readChar first rest =
      readTail (first.toNat % 16) 1 (secondRange first).1 (secondRange first).2 2 rest) ∨
    (0xF0 ≤ first.toNat ∧ first.toNat < 0xF5 ∧ readChar first rest =
      readTail (first.toNat % 8) 1 (secondRange first).1 (secondRange first).2 3 rest) ∨
    ((0x80 ≤ first.toNat ∧ first.toNat < 0xC2 ∨ 0xF5 ≤ first.toNat) ∧
      readChar first rest = .bad .invalidStart 1) := by
  unfold readChar followers? leadBits
  simp only [UInt8.lt_iff_toNat_lt, UInt8.reduceToNat]
  split_ifs <;> simp <;> omega

theorem readChar_of_utf8EncodeChar (h : String.utf8EncodeChar c = first :: tail) (more : Bytes) :
    readChar first (tail ++ more) = .char c (tail.length + 1) := by
  have hvalid := toNat_lt c
  have hcases := readChar_cases first (tail ++ more)
  have hself : ∀ {value : Nat}, value = c.toNat → Char.ofNat value = c := by
    rintro value rfl
    exact Char.ofNat_toNat c
  by_cases hone : c.toNat < 0x80
  · rw [utf8EncodeChar_one hone] at h
    obtain ⟨rfl, rfl⟩ := cons.inj h
    rw [toNat_ofNat_small (by omega)] at hcases
    obtain ⟨-, hread⟩ := hcases.resolve_right (by omega)
    exact hread.trans (readTail_zero_eq_char_iff.mpr ⟨hself (by omega), rfl⟩)
  by_cases htwo : c.toNat < 0x800
  · rw [utf8EncodeChar_two (by omega) htwo] at h
    obtain ⟨rfl, rfl⟩ := cons.inj h
    rw [toNat_ofNat_small (by omega)] at hcases
    obtain ⟨-, -, hread⟩ := (hcases.resolve_left (by omega)).resolve_right (by omega)
    clear hcases
    rw [hread, cons_append, readTail_succ_eq_char_iff]
    refine ⟨_, _, rfl, mem_secondRange_iff.mpr ?_, readTail_zero_eq_char_iff.mpr ⟨hself ?_, rfl⟩⟩
    all_goals simp (disch := omega) only [toNat_ofNat_small]
    all_goals omega
  by_cases hthree : c.toNat < 0x10000
  · rw [utf8EncodeChar_three (by omega) hthree] at h
    obtain ⟨rfl, rfl⟩ := cons.inj h
    rw [toNat_ofNat_small (by omega)] at hcases
    obtain ⟨-, -, hread⟩ := ((hcases.resolve_left (by omega)).resolve_left (by omega)).resolve_right
      (by omega)
    clear hcases
    rw [hread, cons_append, readTail_succ_eq_char_iff]
    refine ⟨_, _, rfl, mem_secondRange_iff.mpr ?_, readTail_succ_eq_char_iff.mpr ⟨_, _, rfl, ?_,
      readTail_zero_eq_char_iff.mpr ⟨hself ?_, rfl⟩⟩⟩
    all_goals simp (disch := omega) only [toNat_ofNat_small, UInt8.reduceToNat]
    all_goals omega
  · rw [utf8EncodeChar_four (by omega)] at h
    obtain ⟨rfl, rfl⟩ := cons.inj h
    rw [toNat_ofNat_small (by omega)] at hcases
    obtain ⟨-, -, hread⟩ := (((hcases.resolve_left (by omega)).resolve_left (by omega)).resolve_left
      (by omega)).resolve_right (by omega)
    clear hcases
    rw [hread, cons_append, readTail_succ_eq_char_iff]
    refine ⟨_, _, rfl, mem_secondRange_iff.mpr ?_, readTail_succ_eq_char_iff.mpr ⟨_, _, rfl, ?_,
      readTail_succ_eq_char_iff.mpr ⟨_, _, rfl, ?_,
        readTail_zero_eq_char_iff.mpr ⟨hself ?_, rfl⟩⟩⟩⟩
    all_goals simp (disch := omega) only [toNat_ofNat_small, UInt8.reduceToNat]
    all_goals omega

theorem exists_of_readChar {rest : Bytes} (h : readChar first rest = .char c length) :
    ∃ tail more, rest = tail ++ more ∧ String.utf8EncodeChar c = first :: tail ∧
      length = tail.length + 1 := by
  have hcases := readChar_cases first rest
  rw [h] at hcases
  have hbyte : ∀ {n : Nat} {b : UInt8}, n = b.toNat → UInt8.ofNat n = b := by
    rintro n b rfl
    exact UInt8.ofNat_toNat
  obtain ⟨hhigh, hread⟩ | ⟨hlow, hhigh, hread⟩ | ⟨hlow, hhigh, hread⟩ | ⟨hlow, hhigh, hread⟩ |
    ⟨-, hbad⟩ := hcases
  · obtain ⟨rfl, rfl⟩ := readTail_zero_eq_char_iff.mp hread.symm
    have hvalue := toNat_ofNat_of_lt (n := first.toNat) (by omega)
    refine ⟨[], rest, rfl, ?_, rfl⟩
    rw [utf8EncodeChar_one (by omega), hvalue, hbyte rfl]
  · obtain ⟨b, more, rfl, hb, hread⟩ := readTail_succ_eq_char_iff.mp hread.symm
    obtain ⟨rfl, rfl⟩ := readTail_zero_eq_char_iff.mp hread
    rw [mem_secondRange_iff] at hb
    have hvalue := toNat_ofNat_of_lt (n := first.toNat % 32 * 64 + b.toNat % 64) (by omega)
    refine ⟨[b], more, rfl, ?_, rfl⟩
    rw [utf8EncodeChar_two (by omega) (by omega), hvalue, hbyte (b := first) (by omega),
      hbyte (b := b) (by omega)]
  · obtain ⟨b, more, rfl, hb, hread⟩ := readTail_succ_eq_char_iff.mp hread.symm
    obtain ⟨d, more, rfl, hd, hread⟩ := readTail_succ_eq_char_iff.mp hread
    obtain ⟨rfl, rfl⟩ := readTail_zero_eq_char_iff.mp hread
    rw [mem_secondRange_iff] at hb
    simp only [UInt8.reduceToNat] at hd
    have hvalue := toNat_ofNat_of_lt
      (n := (first.toNat % 16 * 64 + b.toNat % 64) * 64 + d.toNat % 64) (by omega)
    refine ⟨[b, d], more, rfl, ?_, rfl⟩
    rw [utf8EncodeChar_three (by omega) (by omega), hvalue, hbyte (b := first) (by omega),
      hbyte (b := b) (by omega), hbyte (b := d) (by omega)]
  · obtain ⟨b, more, rfl, hb, hread⟩ := readTail_succ_eq_char_iff.mp hread.symm
    obtain ⟨d, more, rfl, hd, hread⟩ := readTail_succ_eq_char_iff.mp hread
    obtain ⟨e, more, rfl, he, hread⟩ := readTail_succ_eq_char_iff.mp hread
    obtain ⟨rfl, rfl⟩ := readTail_zero_eq_char_iff.mp hread
    rw [mem_secondRange_iff] at hb
    simp only [UInt8.reduceToNat] at hd he
    have hvalue := toNat_ofNat_of_lt
      (n := ((first.toNat % 8 * 64 + b.toNat % 64) * 64 + d.toNat % 64) * 64 + e.toNat % 64)
      (by omega)
    refine ⟨[b, d, e], more, rfl, ?_, rfl⟩
    rw [utf8EncodeChar_four (by omega), hvalue, hbyte (b := first) (by omega),
      hbyte (b := b) (by omega), hbyte (b := d) (by omega), hbyte (b := e) (by omega)]
  · cases hbad

/-! ## Texts -/

theorem decodeFrom_append (tail : Bytes) (index : Nat) (more : Bytes) :
    decodeFrom tail.length index (tail ++ more) = decodeFrom 0 (index + tail.length) more := by
  induction tail generalizing index with
  | nil => rfl
  | cons b tail ih =>
    rw [length_cons, cons_append, decodeFrom, if_pos (Nat.succ_pos _), Nat.add_sub_cancel,
      ih, Nat.add_assoc, Nat.add_comm 1]

theorem decodeFrom_of_char (h : String.utf8EncodeChar c = first :: tail) (index : Nat)
    (more : Bytes) :
    decodeFrom 0 index (first :: (tail ++ more)) =
      (decodeFrom 0 (index + 1 + tail.length) more).map (c :: ·) := by
  rw [decodeFrom, if_neg (Nat.lt_irrefl 0), readChar_of_utf8EncodeChar h]
  dsimp only
  rw [Nat.add_sub_cancel, decodeFrom_append]

theorem decodeFrom_encode (index : Nat) (text : Text) :
    decodeFrom 0 index (encode text) = .ok text := by
  induction text generalizing index with
  | nil => rfl
  | cons c text ih =>
    have hcons : encode (c :: text) = String.utf8EncodeChar c ++ encode text := rfl
    cases hbytes : String.utf8EncodeChar c with
    | nil =>
      have hlength := congrArg length hbytes
      rw [String.length_utf8EncodeChar] at hlength
      exact absurd hlength (Nat.ne_of_gt c.utf8Size_pos)
    | cons first tail =>
      rw [hcons, hbytes, cons_append, decodeFrom_of_char hbytes, ih]
      rfl

theorem eq_encode_of_decodeFrom {index : Nat} (h : decodeFrom 0 index bytes = .ok text) :
    bytes = encode text := by
  -- a character takes at least one byte, so the rest is shorter
  induction hlength : bytes.length using Nat.strongRecOn generalizing index bytes text with
  | ind length ih =>
    cases bytes with
    | nil =>
      obtain rfl := Except.ok.inj h
      rfl
    | cons first rest =>
      cases hread : readChar first rest with
      | bad reason count =>
        rw [decodeFrom, if_neg (Nat.lt_irrefl 0), hread] at h
        cases h
      | char c count =>
        obtain ⟨tail, more, rfl, hbytes, -⟩ := exists_of_readChar hread
        rw [decodeFrom_of_char hbytes] at h
        cases hmore : decodeFrom 0 (index + 1 + tail.length) more with
        | error fault =>
          rw [hmore] at h
          cases h
        | ok others =>
          rw [hmore] at h
          obtain rfl := Except.ok.inj h
          have hshorter : more.length < length := by
            rw [← hlength, length_cons, length_append]
            omega
          have hencode : encode (c :: others) = String.utf8EncodeChar c ++ encode others := rfl
          rw [hencode, hbytes, ih _ hshorter hmore rfl, cons_append]

/-- Decoding accepts exactly what encoding gives, and only unifies its line breaks. -/
theorem decode_eq_ok_iff :
    decode bytes = .ok text ↔ ∃ written, bytes = encode written ∧ text = unifyBreaks written := by
  unfold decode
  constructor
  · intro h
    cases hdecode : decodeFrom 0 0 bytes with
    | error fault =>
      rw [hdecode] at h
      cases h
    | ok written =>
      rw [hdecode] at h
      exact ⟨written, eq_encode_of_decodeFrom hdecode, (Except.ok.inj h).symm⟩
  · rintro ⟨written, rfl, rfl⟩
    rw [decodeFrom_encode]
    rfl

end SourceAtlas.Utf8
