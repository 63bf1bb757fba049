import SourceAtlas.Text.Basic
import Mathlib.Data.List.Nodup

/-!
# Sorting by a text

Files and members are sorted by one of their texts. Items with distinct texts then stand in strictly
increasing order, and a sort leaves items that are equal to it in the order they came in.
-/

namespace SourceAtlas

open List

variable {α : Type}

/-- Sorting is stable: it does not rearrange items of which each may stand before each. -/
theorem filter_mergeSort {precedes : α → α → Bool} {wanted : α → Bool}
    (htrans : ∀ a b c, precedes a b = true → precedes b c = true → precedes a c = true)
    (htotal : ∀ a b, (precedes a b || precedes b a) = true)
    (hwanted : ∀ a b, wanted a = true → wanted b = true → precedes a b = true) (items : List α) :
    (items.mergeSort precedes).filter wanted = items.filter wanted := by
  have hpairwise : (items.filter wanted).Pairwise fun a b => precedes a b = true := by
    apply pairwise_of_forall_mem_list
    intro a ha b hb
    exact hwanted a b (mem_filter.mp ha).2 (mem_filter.mp hb).2
  have hsub : (items.filter wanted).Sublist (items.mergeSort precedes) :=
    sublist_mergeSort htrans htotal hpairwise filter_sublist
  have hlength : (items.filter wanted).length = ((items.mergeSort precedes).filter wanted).length :=
    ((mergeSort_perm items precedes).filter wanted).length_eq.symm
  have hfiltered := hsub.filter wanted
  simp only [filter_filter, Bool.and_self] at hfiltered
  exact (hfiltered.eq_of_length hlength).symm

theorem pairwise_mergeSort_key (key : α → Text) (items : List α) :
    (items.mergeSort fun first second => !decide (key second < key first)).Pairwise
      fun first second => ¬key second < key first := by
  have hsorted : (items.mergeSort fun first second => !decide (key second < key first)).Pairwise
      fun first second => (!decide (key second < key first)) = true := by
    apply pairwise_mergeSort
    · intro first second third hfirst hsecond
      rw [Bool.not_eq_true', decide_eq_false_iff_not] at hfirst hsecond ⊢
      exact List.le_trans hfirst hsecond
    · intro first second
      rw [Bool.or_eq_true, Bool.not_eq_true', Bool.not_eq_true', decide_eq_false_iff_not,
        decide_eq_false_iff_not]
      exact List.le_total ..
  apply hsorted.imp
  intro first second hle
  exact decide_eq_false_iff_not.mp (Bool.not_eq_true' _ ▸ hle)

theorem increasing_mergeSort_key {key : α → Text} {items : List α} (h : (items.map key).Nodup) :
    ((items.mergeSort fun first second => !decide (key second < key first)).map key).Pairwise
      (· < ·) := by
  have hperm := mergeSort_perm items fun first second => !decide (key second < key first)
  have hnodup := (hperm.map key).nodup_iff.mpr h
  apply pairwise_map.mpr
  apply ((pairwise_mergeSort_key key items).and (pairwise_map.mp hnodup)).imp
  rintro first second ⟨hle, hne⟩
  exact (List.le_iff_lt_or_eq.mp hle).resolve_right hne

end SourceAtlas
