import SourceAtlas.Header.Basic
import SourceAtlas.Proofs.Text.Basic

/-!
# Words in front of a header
-/

namespace SourceAtlas

open List Option

variable {text rest : Text} {choices : List Text}

theorem skipBlanks?_eq_some_iff :
    skipBlanks? text = some rest ↔
      ∃ c tail, text = c :: tail ∧ isBlank c = true ∧ rest = trimLeft tail := by
  cases text with
  | nil => simp [skipBlanks?]
  | cons c tail =>
    simp only [skipBlanks?, ite_none_right_eq_some, some.injEq, cons.injEq]
    constructor
    · rintro ⟨hblank, rfl⟩
      exact ⟨c, tail, ⟨rfl, rfl⟩, hblank, rfl⟩
    · rintro ⟨c', tail', ⟨rfl, rfl⟩, hblank, rfl⟩
      exact ⟨hblank, rfl⟩

theorem skipBlanks?_suffix (h : skipBlanks? text = some rest) : rest <:+ text := by
  obtain ⟨c, tail, rfl, -, rfl⟩ := skipBlanks?_eq_some_iff.mp h
  exact (trimLeft_suffix tail).trans (suffix_cons c tail)

theorem dropWord?_eq_some (h : dropWord? choices text = some rest) :
    ∃ word ∈ choices, ∃ c tail,
      text = word ++ c :: tail ∧ isBlank c = true ∧ rest = trimLeft tail := by
  obtain ⟨word, hword, hrest⟩ := exists_of_findSome?_eq_some h
  obtain ⟨after, hhead, hskip⟩ := bind_eq_some_iff.mp hrest
  obtain ⟨c, tail, rfl, hblank, hrest⟩ := skipBlanks?_eq_some_iff.mp hskip
  exact ⟨word, hword, c, tail, dropHead?_eq_some_iff.mp hhead, hblank, hrest⟩

theorem dropWord?_word (hsolid : ∀ word ∈ choices, ∀ c ∈ word, isBlank c = false) {word : Text}
    (hword : word ∈ choices) {blank : Char} (hblank : isBlank blank = true) (tail : Text) :
    dropWord? choices (word ++ blank :: tail) = some (trimLeft tail) := by
  have hrun : ∀ other ∈ choices, ∀ (c : Char) (rest : Text), isBlank c = true →
      (other ++ c :: rest).takeWhile (!isBlank ·) = other := by
    intro other hother c rest hc
    exact takeWhile_append_of_stop (fun d hd => by simp [hsolid other hother d hd]) (by simp [hc])
  have hsome : (dropWord? choices (word ++ blank :: tail)).isSome = true := by
    rw [dropWord?, findSome?_isSome_iff]
    refine ⟨word, hword, ?_⟩
    rw [dropHead?_eq_some_iff.mpr rfl, bind_some, skipBlanks?, if_pos hblank]
    rfl
  obtain ⟨rest, hrest⟩ := isSome_iff_exists.mp hsome
  obtain ⟨other, hother, c, more, htext, hc, rfl⟩ := dropWord?_eq_some hrest
  obtain rfl : word = other := by
    rw [← hrun word hword blank tail hblank, htext, hrun other hother c more hc]
  rw [hrest, (cons.inj (append_cancel_left htext)).2]

theorem dropWord?_suffix (h : dropWord? choices text = some rest) : rest <:+ text := by
  obtain ⟨word, _, c, tail, rfl, _, rfl⟩ := dropWord?_eq_some h
  exact (trimLeft_suffix tail).trans
    ((suffix_cons c tail).trans (suffix_append word (c :: tail)))

theorem length_lt_of_dropWord? (h : dropWord? choices text = some rest) :
    rest.length < text.length := by
  obtain ⟨word, _, c, tail, rfl, _, rfl⟩ := dropWord?_eq_some h
  have hle := (trimLeft_suffix tail).length_le
  simp only [length_append, length_cons]
  omega

end SourceAtlas
