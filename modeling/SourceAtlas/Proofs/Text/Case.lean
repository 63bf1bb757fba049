import SourceAtlas.Text.Case
import Mathlib.Tactic.Common

/-!
# Lower case is settled

No character that lower case gives is itself a capital, so a text in lower case stays as it is when
it is put in lower case again.
-/

namespace SourceAtlas

open List Option

variable {run : CaseRun} {n m : Nat} {c d : Char} {text : List Char}

namespace CaseRun

def lowest (run : CaseRun) : Nat :=
  (Int.ofNat run.first + run.offset).toNat

def highest (run : CaseRun) : Nat :=
  (Int.ofNat run.last + run.offset).toNat

/-- Whether what a run gives lies below another run, above it, or between its code points. -/
def misses (run other : CaseRun) : Bool :=
  Nat.blt run.highest other.first || Nat.blt other.last run.lowest ||
    ((Nat.beq run.stride 2 || Nat.beq run.first run.last) && Nat.beq other.stride 2 &&
      Nat.blt 0 run.lowest && Nat.beq ((run.lowest + other.first) % 2) 1)

theorem target?_eq_none_of_misses {other : CaseRun} (hrun : run.target? n = some m)
    (hmisses : run.misses other = true) : other.target? m = none := by
  simp only [misses, lowest, highest, Bool.or_eq_true, Bool.and_eq_true, Nat.blt_eq, Nat.beq_eq,
    Int.ofNat_eq_natCast] at hmisses
  unfold target? at hrun ⊢
  by_cases hin : run.first ≤ n ∧ n ≤ run.last ∧ (n - run.first) % run.stride = 0
  · rw [if_pos hin, Int.ofNat_eq_natCast] at hrun
    obtain rfl := some.inj hrun
    rw [if_neg]
    rintro ⟨hfirst, hlast, hstride⟩
    obtain (hbelow | habove) | ⟨⟨⟨hstep | hsingle, hother⟩, hpositive⟩, hparity⟩ := hmisses
    · omega
    · omega
    · rw [hstep] at hin
      rw [hother] at hstride
      omega
    · rw [hother] at hstride
      omega
  · rw [if_neg hin] at hrun
    cases hrun

theorem lowest_le_of_target? (h : run.target? n = some m) : run.lowest ≤ m := by
  unfold target? at h
  split at h
  · next hin =>
    obtain rfl := some.inj h
    unfold lowest
    simp only [Int.ofNat_eq_natCast]
    omega
  · cases h

end CaseRun

def capitalRuns : List CaseRun :=
  ⟨0x41, 0x5A, 1, 32⟩ :: ⟨0x130, 0x130, 2, 0⟩ :: lowerRuns

def IsSmall (n : Nat) : Prop :=
  ∀ run ∈ capitalRuns, run.target? n = none

theorem isSmall_iff : IsSmall n ↔ ¬(0x41 ≤ n ∧ n ≤ 0x5A) ∧ n ≠ 0x130 ∧
    lowerRuns.findSome? (·.target? n) = none := by
  unfold IsSmall capitalRuns
  rw [forall_mem_cons, forall_mem_cons, findSome?_eq_none_iff]
  simp only [CaseRun.target?, Nat.mod_one, and_true, ite_eq_right_iff, reduceCtorEq, imp_false]
  refine and_congr_right fun _ => and_congr_left fun _ => ?_
  omega

/-- The dot above a letter and the two small sigmas are in none of the runs. -/
theorem isSmall_of_mem (h : n ∈ [0x307, 0x3C2, 0x3C3]) : IsSmall n := by
  have hruns : ([0x307, 0x3C2, 0x3C3].all fun n =>
      (lowerRuns.findSome? (·.target? n)).isNone) = true := by decide +kernel
  have hnone := isNone_iff_eq_none.mp (all_eq_true.mp hruns n h)
  simp only [mem_cons, not_mem_nil, or_false] at h
  exact isSmall_iff.mpr ⟨by omega, by omega, hnone⟩

theorem lowerRuns_bounds : (lowerRuns.all fun run =>
    Nat.ble 0x80 run.first && Nat.blt 0x5C run.lowest) = true := by
  decide +kernel

theorem IsSmall.ne_sigma (h : IsSmall n) : n ≠ 0x3A3 := by
  rintro rfl
  have hfound : (lowerRuns.findSome? (·.target? 0x3A3)).isSome = true := by decide +kernel
  rw [(isSmall_iff.mp h).2.2] at hfound
  cases hfound

/-! ## Characters -/

theorem toNat_toLower (c : Char) :
    c.toLower.toNat = if 0x41 ≤ c.toNat ∧ c.toNat ≤ 0x5A then c.toNat + 32 else c.toNat := by
  unfold Char.toLower
  by_cases hletter : 0x41 ≤ c.toNat ∧ c.toNat ≤ 0x5A
  · have hval : c.val ≥ 'A'.val ∧ c.val ≤ 'Z'.val := by
      rw [ge_iff_le, UInt32.le_iff_toNat_le, UInt32.le_iff_toNat_le]
      exact hletter
    rw [dif_pos hval, if_pos hletter, Char.toNat_mk, UInt32.toNat_add]
    exact Nat.mod_eq_of_lt (by rw [Char.toNat_val]; change c.toNat + 32 < _; omega)
  · have hval : ¬(c.val ≥ 'A'.val ∧ c.val ≤ 'Z'.val) := by
      rw [ge_iff_le, UInt32.le_iff_toNat_le, UInt32.le_iff_toNat_le]
      exact hletter
    rw [dif_neg hval, if_neg hletter]

theorem lowerChar_of_isSmall (h : IsSmall c.toNat) : lowerChar c = [c] := by
  obtain ⟨hletter, hdotted, hfound⟩ := isSmall_iff.mp h
  have hlower : c.toLower = c := by
    rw [← Char.toNat_inj, toNat_toLower, if_neg hletter]
  unfold lowerChar
  rw [hfound, getD_none, Char.ofNat_toNat, hlower, if_neg hdotted, ite_self]

theorem isSmall_of_toNat_lt (hascii : n < 0x80) (hletter : ¬(0x41 ≤ n ∧ n ≤ 0x5A)) : IsSmall n := by
  refine isSmall_iff.mpr ⟨hletter, by omega, findSome?_eq_none_iff.mpr fun run hrun => ?_⟩
  have hbounds := Bool.and_eq_true_iff.mp (all_eq_true.mp lowerRuns_bounds run hrun)
  have hfirst := Nat.le_of_ble_eq_true hbounds.1
  rw [CaseRun.target?, if_neg (by omega)]

/-- A code point that is no character stands for the null character. -/
theorem isSmall_toNat_ofNat (h : IsSmall n) : IsSmall (Char.ofNat n).toNat := by
  by_cases hvalid : n.isValidChar
  · rwa [Char.ofNat, dif_pos hvalid]
  · rw [Char.ofNat, dif_neg hvalid]
    exact isSmall_of_toNat_lt (by decide) (by decide)

theorem lowerRuns_miss_capitalRuns : ((⟨0x41, 0x5A, 1, 32⟩ :: lowerRuns : List CaseRun).all fun run =>
    capitalRuns.all run.misses) = true := by
  decide +kernel

theorem isSmall_of_target? (hrun : run ∈ (⟨0x41, 0x5A, 1, 32⟩ :: lowerRuns : List CaseRun))
    (htarget : run.target? n = some m) : IsSmall m := by
  intro other hother
  have hall := all_eq_true.mp lowerRuns_miss_capitalRuns run hrun
  exact CaseRun.target?_eq_none_of_misses htarget (all_eq_true.mp hall other hother)

theorem isSmall_of_mem_lowerChar (h : d ∈ lowerChar c) : IsSmall d.toNat := by
  unfold lowerChar at h
  by_cases hascii : c.toNat < 0x80
  · rw [if_pos hascii, mem_singleton] at h
    rw [h, toNat_toLower]
    by_cases hletter : 0x41 ≤ c.toNat ∧ c.toNat ≤ 0x5A
    · rw [if_pos hletter]
      exact isSmall_of_toNat_lt (by omega) (by omega)
    · rw [if_neg hletter]
      exact isSmall_of_toNat_lt hascii hletter
  rw [if_neg hascii] at h
  by_cases hdotted : c.toNat = 0x130
  · rw [if_pos hdotted, mem_cons, mem_singleton] at h
    obtain rfl | rfl := h
    · exact isSmall_of_toNat_lt (by decide) (by decide)
    · exact isSmall_toNat_ofNat (isSmall_of_mem (by decide))
  rw [if_neg hdotted, mem_singleton] at h
  subst h
  apply isSmall_toNat_ofNat
  cases hfound : lowerRuns.findSome? (·.target? c.toNat) with
  | none => exact isSmall_iff.mpr ⟨by rw [getD_none]; omega, hdotted, hfound⟩
  | some m =>
    obtain ⟨run, hrun, htarget⟩ := exists_of_findSome?_eq_some hfound
    exact isSmall_of_target? (mem_cons_of_mem _ hrun) htarget

/-! ## Texts -/

theorem isSmall_of_mem_lower (h : d ∈ lower text) : IsSmall d.toNat := by
  have hfrom : ∀ before, d ∈ lowerFrom before text → IsSmall d.toNat := by
    clear h
    induction text with
    | nil => exact fun before hmem => nomatch hmem
    | cons c rest ih =>
      intro before hmem
      rw [lowerFrom, mem_append] at hmem
      obtain hchanged | hrest := hmem
      · by_cases hsigma : c.toNat = 0x3A3
        · -- both small sigmas are settled
          have hsmall : ∀ {n : Nat}, n = 0x3C2 ∨ n = 0x3C3 → IsSmall (Char.ofNat n).toNat := by
            rintro n (rfl | rfl)
            · exact isSmall_toNat_ofNat (isSmall_of_mem (by decide))
            · exact isSmall_toNat_ofNat (isSmall_of_mem (by decide))
          rw [if_pos hsigma] at hchanged
          split at hchanged
          · exact mem_singleton.mp hchanged ▸ hsmall (Or.inl rfl)
          · exact mem_singleton.mp hchanged ▸ hsmall (Or.inr rfl)
        · rw [if_neg hsigma] at hchanged
          exact isSmall_of_mem_lowerChar hchanged
      · exact ih _ hrest
  exact hfrom [] h

theorem lower_of_isSmall (h : ∀ c ∈ text, IsSmall c.toNat) : lower text = text := by
  have hfrom : ∀ before, lowerFrom before text = text := by
    induction text with
    | nil => exact fun before => rfl
    | cons c rest ih =>
      intro before
      obtain ⟨hfirst, hrest⟩ := forall_mem_cons.mp h
      rw [lowerFrom, if_neg hfirst.ne_sigma, lowerChar_of_isSmall hfirst, ih hrest,
        singleton_append]
  exact hfrom []

theorem lower_of_ascii (h : ∀ c ∈ text, c.toNat < 0x80) : lower text = text.map Char.toLower := by
  have hfrom : ∀ before, lowerFrom before text = text.map Char.toLower := by
    induction text with
    | nil => exact fun before => rfl
    | cons c rest ih =>
      intro before
      obtain ⟨hfirst, hrest⟩ := forall_mem_cons.mp h
      have hsigma : c.toNat ≠ 0x3A3 := by omega
      rw [lowerFrom, if_neg hsigma, lowerChar, if_pos hfirst, ih hrest, map_cons,
        singleton_append]
  exact hfrom []

theorem backslash_mem_lowerChar_iff : '\\' ∈ lowerChar c ↔ c = '\\' := by
  have hslash : '\\'.toNat = 0x5C := rfl
  constructor
  · intro h
    unfold lowerChar at h
    split at h
    · have hcode := congrArg Char.toNat (mem_singleton.mp h)
      rw [toNat_toLower] at hcode
      split at hcode
      · omega
      · exact Char.toNat_inj.mp hcode.symm
    · split at h
      · simp at h
      · have hcode := congrArg Char.toNat (mem_singleton.mp h)
        cases hfound : lowerRuns.findSome? (·.target? c.toNat) with
        | none =>
          rw [hfound, getD_none, Char.ofNat_toNat] at hcode
          exact Char.toNat_inj.mp hcode.symm
        | some m =>
          -- whatever a run gives lies above the backslash
          obtain ⟨run, hrun, htarget⟩ := exists_of_findSome?_eq_some hfound
          have hbounds := Bool.and_eq_true_iff.mp (all_eq_true.mp lowerRuns_bounds run hrun)
          have habove := Nat.le_of_ble_eq_true hbounds.2
          have hm := run.lowest_le_of_target? htarget
          rw [hfound, getD_some, hslash, Char.ofNat] at hcode
          by_cases hvalid : m.isValidChar
          · rw [dif_pos hvalid] at hcode
            change 0x5C = m at hcode
            omega
          · rw [dif_neg hvalid] at hcode
            cases hcode
  · rintro rfl
    exact mem_singleton.mpr rfl

theorem backslash_mem_lower_iff : '\\' ∈ lower text ↔ '\\' ∈ text := by
  have hfrom : ∀ before, '\\' ∈ lowerFrom before text ↔ '\\' ∈ text := by
    induction text with
    | nil => exact fun before => Iff.rfl
    | cons c rest ih =>
      intro before
      rw [lowerFrom, mem_append, mem_cons, ih, @eq_comm _ '\\']
      apply or_congr_left
      by_cases hsigma : c.toNat = 0x3A3
      · have hc : c ≠ '\\' := by
          rintro rfl
          cases hsigma
        rw [if_pos hsigma]
        split <;> simp [hc]
      · rw [if_neg hsigma]
        exact backslash_mem_lowerChar_iff
  exact hfrom []

/-- Lower case is settled: putting a text in lower case twice is putting it there once. -/
@[simp] theorem lower_lower (text : List Char) : lower (lower text) = lower text :=
  lower_of_isSmall fun _ => isSmall_of_mem_lower

end SourceAtlas
