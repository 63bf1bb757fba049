import SourceAtlas.Header.Basic
import SourceAtlas.Proofs.Text.Drawn
import SourceAtlas.Proofs.TypeReading

/-!
# Types are drawn from the text

A type in front of a name or behind a colon is a piece of the text with its blanks squeezed, and so
are the types of a list. A type that nobody wrote is always called the same.
-/

namespace SourceAtlas

open List

variable {source text : Text}

theorem drawnFrom_unknownType (source : Text) : DrawnFrom source unknownType :=
  .of_joints (by decide)

theorem DrawnFrom.typeOrUnknown (h : DrawnFrom source text) : DrawnFrom source (typeOrUnknown text) := by
  unfold SourceAtlas.typeOrUnknown
  split
  · exact drawnFrom_unknownType source
  · exact h

theorem prefix_typeTokenFront (depth : Nat) (text : Text) : typeTokenFront depth text <+: text := by
  fun_induction typeTokenFront depth text with
  | case1 => exact prefix_rfl
  | case2 => exact nil_prefix
  | case3 depth rest hnot ih => simpa using ih
  | case4 => exact nil_prefix
  | case5 rest outer ih => simpa using ih
  | case6 => exact nil_prefix
  | case7 depth c rest _ _ _ _ ih => simpa using ih

theorem trailingType_subset (text : Text) : trailingType text ⊆ text := by
  intro c hc
  have hmem := (prefix_typeTokenFront 0 text.reverse).subset (mem_reverse.mp hc)
  exact mem_reverse.mp hmem

theorem TypeReading.front_subset (state : TypeReading) (text : Text) : state.front text ⊆ text := by
  induction text generalizing state with
  | nil => exact Subset.refl []
  | cons c rest ih =>
    rw [front]
    cases state.step? c rest.head? with
    | none => exact nil_subset _
    | some after => exact cons_subset_cons c (ih after)

theorem drawnFrom_readType (text : Text) (start : Nat) : DrawnFrom text (readType text start) := by
  have hfront := TypeReading.typeFront_eq ⟨0, none, (text.take start).getLast? == some '=', false⟩
    (text.take start).getLast? rfl (text.drop start)
  have hsubset := TypeReading.front_subset
    ⟨0, none, (text.take start).getLast? == some '=', false⟩ (text.drop start)
  rw [← hfront] at hsubset
  have hpart := Subset.trans hsubset (drop_subset start text)
  exact .trans (.of_subset hpart) (drawnFrom_squeeze _)

theorem splitTypeList_drawn {list : Text} (h : list ⊆ text) :
    ∀ type ∈ splitTypeList list, DrawnFrom (unbroken text) type := by
  intro type htype
  obtain ⟨part, hpart, rfl⟩ := mem_map.mp htype
  apply drawnFrom_unbroken_squeeze
  have hmem := mem_of_mem_filter hpart
  cases hsplit : splitCommas (trim list) with
  | none =>
    rw [hsplit] at hmem
    exact Subset.trans (subset_of_mem_splitOn hmem) h
  | some parts =>
    rw [hsplit] at hmem
    exact Subset.trans (subset_of_mem_splitTopLevel hsplit hmem)
      (Subset.trans (trim_subset list) h)

end SourceAtlas
