import SourceAtlas.Text.Basic
import SourceAtlas.Text.Digit
import SourceAtlas.Text.Word
import Mathlib.Data.List.TakeWhile
import Mathlib.Tactic.Common

/-!
# Kinds of characters

Word characters, blanks and line breaks: which of them exclude each other.
-/

namespace SourceAtlas

open List

variable {ranges : Ranges} {c : Char}

def wideBlanks : Ranges :=
  [(0x85, 0x85), (0xA0, 0xA0), (0x1680, 0x1680), (0x2000, 0x200A), (0x2028, 0x2029),
    (0x202F, 0x202F), (0x205F, 0x205F), (0x3000, 0x3000)]

theorem Ranges.contains_iff :
    ranges.contains c = true ↔ ∃ range ∈ ranges, range.1 ≤ c.toNat ∧ c.toNat ≤ range.2 := by
  simp [Ranges.contains]

theorem toNat_le_or_contains_of_isBlank (h : isBlank c = true) :
    c.toNat ≤ 32 ∨ wideBlanks.contains c = true := by
  simp only [isBlank, Bool.or_eq_true, Bool.and_eq_true, decide_eq_true_eq, beq_iff_eq] at h
  simp only [wideBlanks, Ranges.contains, any_cons, any_nil, Bool.or_false,
    Bool.or_eq_true, Bool.and_eq_true, decide_eq_true_eq]
  omega

theorem wideBlanks_apart : (alphanumericRanges.all fun range => wideBlanks.all fun blank =>
    Nat.blt blank.2 range.1 || Nat.blt range.2 blank.1) = true := by
  decide +kernel

theorem toNat_of_isAlphanum (h : c.isAlphanum = true) : 48 ≤ c.toNat ∧ c.toNat < 0x80 := by
  have hranges : ((decide ('A'.val ≤ c.val ∧ c.val ≤ 'Z'.val) ||
    ('a'.val ≤ c.val && c.val ≤ 'z'.val)) || ('0'.val ≤ c.val && c.val ≤ '9'.val)) = true := h
  have hval : c.toNat = c.val.toNat := rfl
  simp [UInt32.le_iff_toNat_le] at hranges
  omega

theorem isWord_eq_false_of_isBlank (h : isBlank c = true) : isWord c = false := by
  have hunderscore : c ≠ '_' := by
    rintro rfl
    exact absurd h (by decide)
  have halphanumeric : isAlphanumeric c = false := by
    rcases toNat_le_or_contains_of_isBlank h with hascii | hwide
    · have hlt : c.toNat < 0x80 := by omega
      have hnone : c.isAlphanum = false := by
        rw [Bool.eq_false_iff]
        intro halphanum
        have hbound := toNat_of_isAlphanum halphanum
        omega
      simp [isAlphanumeric, hlt, hnone]
    · obtain ⟨blank, hblank, hlow, hhigh⟩ := Ranges.contains_iff.mp hwide
      have hbig : ∀ blank ∈ wideBlanks, 0x80 ≤ blank.1 := by decide
      have hge : ¬ c.toNat < 0x80 := by
        have := hbig blank hblank
        omega
      have hnone : alphanumericRanges.contains c = false := by
        rw [Bool.eq_false_iff, ne_eq, Ranges.contains_iff]
        rintro ⟨range, hrange, hleft, hright⟩
        have hapart := all_eq_true.mp (all_eq_true.mp wideBlanks_apart range hrange)
          blank hblank
        simp only [Bool.or_eq_true, Nat.blt_eq] at hapart
        omega
      simp [isAlphanumeric, hge, hnone]
  simp [isWord, hunderscore, halphanumeric]

theorem isBlank_eq_false_of_isWord (h : isWord c = true) : isBlank c = false := by
  by_contra hblank
  rw [isWord_eq_false_of_isBlank (by simpa using hblank)] at h
  cases h

theorem isBlank_of_isLineBreak (h : isLineBreak c = true) : isBlank c = true := by
  simp only [isLineBreak, Bool.or_eq_true, Bool.and_eq_true, decide_eq_true_eq, beq_iff_eq] at h
  simp only [isBlank, Bool.or_eq_true, Bool.and_eq_true, decide_eq_true_eq, beq_iff_eq]
  omega

theorem isAlphanumeric_of_isAlphanum (h : c.isAlphanum = true) : isAlphanumeric c = true := by
  simp [isAlphanumeric, (toNat_of_isAlphanum h).2, h]

theorem isWord_of_isNameStart (h : isNameStart c = true) : isWord c = true := by
  simp only [isNameStart, Bool.or_eq_true, beq_iff_eq] at h
  rcases h with rfl | halpha
  · rfl
  · have halnum : c.isAlphanum = true := by simp [Char.isAlphanum, halpha]
    simp [isWord, isAlphanumeric_of_isAlphanum halnum]

theorem isNameStart_eq_false_of_isDigit (h : c.isDigit = true) : isNameStart c = false := by
  have hdigit : ('0'.val ≤ c.val && c.val ≤ '9'.val) = true := h
  have hunderscore : c ≠ '_' := by
    rintro rfl
    cases h
  have halpha : c.isAlpha = false := by
    rw [Bool.eq_false_iff]
    intro halpha
    have hranges : (decide ('A'.val ≤ c.val ∧ c.val ≤ 'Z'.val) ||
      ('a'.val ≤ c.val && c.val ≤ 'z'.val)) = true := halpha
    simp [UInt32.le_iff_toNat_le] at hdigit hranges
    omega
  simp [isNameStart, hunderscore, halpha]

/-- When each range takes away what it covers and nothing is left, everything is covered. -/
theorem exists_covering {covers : Nat × Nat → Nat → Bool} {codes : List Nat}
    (h : ranges.foldl (fun codes range => codes.dropWhile (covers range)) codes = []) :
    ∀ code ∈ codes, ∃ range ∈ ranges, covers range code = true := by
  induction ranges generalizing codes with
  | nil =>
    obtain rfl : codes = [] := h
    simp
  | cons range ranges ih =>
    intro code hcode
    rw [← takeWhile_append_dropWhile (p := covers range) (l := codes)] at hcode
    rcases mem_append.mp hcode with hcovered | hleft
    · exact ⟨range, by simp, mem_takeWhile_imp hcovered⟩
    · obtain ⟨other, hother, hcovers⟩ := ih h code hleft
      exact ⟨other, mem_cons_of_mem range hother, hcovers⟩

/-- Whether the ten digits from `first` on are ASCII digits or lie in the range. -/
def coversDigits (range : Nat × Nat) (first : Nat) : Bool :=
  first == 0x30 || (Nat.ble 0x80 first && Nat.ble range.1 first && Nat.ble (first + 9) range.2)

theorem digitZeros_covered : alphanumericRanges.foldl
    (fun codes range => codes.dropWhile (coversDigits range)) digitZeros = [] := by
  decide +kernel

theorem isWord_of_isDecimalDigit (h : isDecimalDigit c = true) : isWord c = true := by
  obtain ⟨value, hvalue⟩ := Option.isSome_iff_exists.mp h
  obtain ⟨first, hfirst, hrange⟩ := exists_of_findSome?_eq_some hvalue
  simp only [Option.ite_none_right_eq_some] at hrange
  obtain ⟨⟨hlow, hhigh⟩, -⟩ := hrange
  obtain ⟨range, hrange, hcovers⟩ := exists_covering digitZeros_covered first hfirst
  simp only [coversDigits, Bool.or_eq_true, Bool.and_eq_true, beq_iff_eq, Nat.ble_eq] at hcovers
  rcases hcovers with rfl | ⟨⟨hbig, hleft⟩, hright⟩
  · have hdigit : c.isDigit = true := by
      have hval : c.toNat = c.val.toNat := rfl
      simp only [Char.isDigit, Bool.and_eq_true, decide_eq_true_eq, ge_iff_le,
        UInt32.le_iff_toNat_le]
      constructor
      · change 48 ≤ c.val.toNat
        omega
      · change c.val.toNat ≤ 57
        omega
    have halnum : c.isAlphanum = true := by simp [Char.isAlphanum, hdigit]
    simp [isWord, isAlphanumeric_of_isAlphanum halnum]
  · have hcontains : alphanumericRanges.contains c = true :=
      Ranges.contains_iff.mpr ⟨range, hrange, by omega, by omega⟩
    have hlarge : ¬ c.toNat < 0x80 := by omega
    simp [isWord, isAlphanumeric, hlarge, hcontains]

theorem isDecimalDigit_of_isDigit (h : c.isDigit = true) : isDecimalDigit c = true := by
  have hrange : 0x30 ≤ c.toNat ∧ c.toNat < 0x30 + 10 := by
    simp only [Char.isDigit, ge_iff_le, Bool.and_eq_true, decide_eq_true_eq, UInt32.le_iff_toNat_le] at h
    exact ⟨h.1, Nat.lt_succ_of_le h.2⟩
  rw [isDecimalDigit, digitValue?, findSome?_isSome_iff]
  exact ⟨0x30, by decide, by rw [if_pos hrange, Option.isSome_some]⟩

end SourceAtlas
