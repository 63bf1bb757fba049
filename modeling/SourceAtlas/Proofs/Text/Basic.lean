import SourceAtlas.Text.Basic
import Mathlib.Data.List.DropRight
import Mathlib.Data.List.Infix
import Mathlib.Data.List.TakeWhile

/-!
# Cutting text

What the cutting functions leave of a text, said by equations between the text and its pieces.
-/

namespace SourceAtlas

open List

variable {drop keep kind : Char → Bool} {text rest front head tail : Text} {c : Char}

theorem drop_length_takeWhile (keep : Char → Bool) (text : Text) :
    text.drop (text.takeWhile keep).length = text.dropWhile keep := by
  induction text with
  | nil => rfl
  | cons c rest ih =>
    by_cases hc : keep c = true
    · simpa [hc] using ih
    · simp [hc]

theorem of_dropWhile_eq_cons (h : text.dropWhile drop = c :: rest) : drop c = false := by
  have hhead := head?_dropWhile_not drop text
  simpa [h] using hhead

theorem forall_mem_of_any (h : text.any keep = false) : ∀ c ∈ text, keep c = false := by
  simpa using h

theorem takeWhile_append_of_stop {keep : Char → Bool} {front rest : Text}
    (hfront : ∀ c ∈ front, keep c = true) (hrest : ∀ c ∈ rest.head?, keep c = false) :
    (front ++ rest).takeWhile keep = front := by
  rw [takeWhile_append_of_pos hfront]
  cases rest with
  | nil => simp
  | cons c rest => simp [hrest c rfl]

theorem dropWhile_append_of_stop (hfront : ∀ c ∈ front, keep c = true)
    (hrest : ∀ c ∈ rest.head?, keep c = false) :
    (front ++ rest).dropWhile keep = rest := by
  rw [dropWhile_append_of_pos hfront]
  cases rest with
  | nil => rfl
  | cons c rest => simp [hrest c rfl]

theorem dropWhile_append_right (hrest : ∀ c ∈ rest.head?, keep c = false) (front : Text) :
    (front ++ rest).dropWhile keep = front.dropWhile keep ++ rest := by
  have hstop : rest.dropWhile keep = rest := by
    cases rest with
    | nil => rfl
    | cons c rest => simp [hrest c rfl]
  rw [dropWhile_append]
  split
  · next hempty => rw [hstop, List.isEmpty_iff.mp hempty, nil_append]
  · rfl

theorem takeWhile_append_right (hrest : ∀ c ∈ rest.head?, keep c = false) (front : Text) :
    (front ++ rest).takeWhile keep = front.takeWhile keep := by
  rw [takeWhile_append]
  split
  · next hall =>
    have hstop : rest.takeWhile keep = [] := by
      cases rest with
      | nil => rfl
      | cons c rest => rw [takeWhile_cons, hrest c rfl]; rfl
    rw [hstop, append_nil]
    exact ((List.takeWhile_prefix keep).eq_of_length hall).symm
  · rfl

theorem takeWhile_append_of_getLast? (hlast : ∃ c, text.getLast? = some c ∧ keep c = false)
    (more : Text) :
    (text ++ more).takeWhile keep = text.takeWhile keep := by
  obtain ⟨c, hc, hkeep⟩ := hlast
  rw [takeWhile_append]
  split
  · next hall =>
    have hwhole := (List.takeWhile_prefix keep).eq_of_length hall
    have hmem : c ∈ text.takeWhile keep := hwhole.symm ▸ mem_of_getLast? hc
    rw [mem_takeWhile_imp hmem] at hkeep
    cases hkeep
  · rfl

theorem ne_of_kind {d : Char} (hc : kind c = true) (hd : kind d = false) : c ≠ d := by
  rintro rfl
  rw [hc] at hd
  cases hd

theorem notMem_of_kind {signs : Text} (hc : kind c = true)
    (hsigns : signs.any kind = false) : c ∉ signs :=
  fun hmem => ne_of_kind hc (forall_mem_of_any hsigns c hmem) rfl

theorem startsWith_iff : startsWith head text = true ↔ head <+: text :=
  isPrefixOf_iff_prefix

theorem dropHead?_eq_some_iff : dropHead? head text = some rest ↔ text = head ++ rest := by
  unfold dropHead?
  constructor
  · intro h
    split at h
    · next hstart =>
      obtain ⟨tail, rfl⟩ := startsWith_iff.mp hstart
      simpa using h
    · cases h
  · rintro rfl
    simp [startsWith_iff.mpr (prefix_append head rest)]

theorem dropHead?_eq_none_iff : dropHead? head text = none ↔ ¬ head <+: text := by
  rw [Option.eq_none_iff_forall_ne_some]
  constructor
  · rintro h ⟨rest, rfl⟩
    exact h rest (dropHead?_eq_some_iff.mpr rfl)
  · intro h rest hrest
    exact h ⟨rest, (dropHead?_eq_some_iff.mp hrest).symm⟩

theorem trimLeft_suffix (text : Text) : trimLeft text <:+ text :=
  dropWhile_suffix _

theorem suffix_of_trimLeft_eq_cons (h : trimLeft text = c :: tail) : tail <:+ text := by
  have hcons : tail <:+ trimLeft text := h ▸ suffix_cons c tail
  exact hcons.trans (trimLeft_suffix text)

theorem trimLeft_trimLeft (text : Text) : trimLeft (trimLeft text) = trimLeft text :=
  dropWhile_idempotent isBlank text

theorem takeWhile_isBlank_append_trimLeft (text : Text) :
    text.takeWhile isBlank ++ trimLeft text = text :=
  takeWhile_append_dropWhile

theorem getLast?_of_suffix (h : tail <:+ text) (hne : tail ≠ []) :
    tail.getLast? = text.getLast? := by
  obtain ⟨front, rfl⟩ := h
  rw [getLast?_append_of_ne_nil _ hne]

theorem mem_getLast?_of_suffix (h : tail <:+ text) (hc : c ∈ tail.getLast?) :
    c ∈ text.getLast? := by
  have hne : tail ≠ [] := by
    rintro rfl
    cases hc
  rwa [← getLast?_of_suffix h hne]

theorem dropWhile_ne_nil_of_getLast? (hlast : text.getLast? = some c) (h : drop c = false) :
    text.dropWhile drop ≠ [] := by
  intro hnil
  rw [dropWhile_eq_nil_iff.mp hnil c (mem_of_getLast? hlast)] at h
  cases h

theorem getLast?_dropWhile (hlast : text.getLast? = some c) (h : drop c = false) :
    (text.dropWhile drop).getLast? = some c := by
  rw [getLast?_of_suffix (dropWhile_suffix drop) (dropWhile_ne_nil_of_getLast? hlast h), hlast]

theorem dropWhile_append_of_getLast? (hlast : text.getLast? = some c) (h : drop c = false)
    (more : Text) :
    (text ++ more).dropWhile drop = text.dropWhile drop ++ more := by
  rw [dropWhile_append, if_neg]
  rw [List.isEmpty_iff]
  exact dropWhile_ne_nil_of_getLast? hlast h

theorem splitOn_append {separator : Char} {part : Text} (h : separator ∉ part) (rest : Text) :
    splitOn separator (part ++ separator :: rest) = part :: splitOn separator rest := by
  induction part with
  | nil => simp [splitOn]
  | cons c part ih =>
    have hc : c ≠ separator := by
      rintro rfl
      exact h (by simp)
    have hpart := ih fun hmem => h (mem_cons_of_mem c hmem)
    rw [cons_append, splitOn, if_neg hc, hpart]

theorem forall_mem_joinWith {p : Char → Prop} {separator : Text}
    (hseparator : ∀ c ∈ separator, p c) {parts : List Text} (h : ∀ part ∈ parts, ∀ c ∈ part, p c) :
    ∀ c ∈ joinWith separator parts, p c := by
  induction parts with
  | nil => simp [joinWith]
  | cons part parts ih =>
    have hpart := h part (by simp)
    have hparts := ih fun part hpart => h part (by simp [hpart])
    cases parts with
    | nil => exact hpart
    | cons second parts =>
      intro c hc
      simp only [joinWith, mem_append] at hc
      rcases hc with (hc | hc) | hc
      · exact hpart c hc
      · exact hseparator c hc
      · exact hparts c hc

theorem append_eq_append_cons {first second : Text} (h : first ++ second = front ++ c :: rest) :
    (∃ tail, first = front ++ c :: tail ∧ rest = tail ++ second) ∨
      ∃ lead, second = lead ++ c :: rest ∧ front = first ++ lead := by
  rcases append_eq_append_iff.mp h with ⟨lead, hfront, hsecond⟩ | ⟨tail, hfirst, hrest⟩
  · exact Or.inr ⟨lead, hsecond, hfront⟩
  · cases tail with
    | nil => exact Or.inr ⟨[], hrest.symm, by simpa using hfirst.symm⟩
    | cons d tail =>
      obtain ⟨rfl, rfl⟩ := cons.inj hrest
      exact Or.inl ⟨tail, hfirst, rfl⟩

theorem exists_append_dropEndWhile (drop : Char → Bool) (text : Text) :
    ∃ tail, text = dropEndWhile drop text ++ tail ∧ ∀ c ∈ tail, drop c = true := by
  refine ⟨(text.reverse.takeWhile drop).reverse, ?_, ?_⟩
  · rw [dropEndWhile, ← reverse_append, takeWhile_append_dropWhile,
      reverse_reverse]
  · intro c hc
    exact mem_takeWhile_imp (mem_reverse.mp hc)

theorem mem_dropWhile_of_mem (hc : drop c = false) (h : c ∈ text) : c ∈ text.dropWhile drop := by
  rw [← takeWhile_append_dropWhile (p := drop) (l := text), mem_append] at h
  refine h.resolve_left fun hmem => ?_
  rw [mem_takeWhile_imp hmem] at hc
  cases hc

theorem mem_dropEndWhile_of_mem (hc : drop c = false) (h : c ∈ text) : c ∈ dropEndWhile drop text :=
  mem_reverse.mpr (mem_dropWhile_of_mem hc (mem_reverse.mpr h))

theorem exists_blanks_append_trim (text : Text) :
    ∃ lead tail, text = lead ++ trim text ++ tail ∧
      (∀ c ∈ lead, isBlank c = true) ∧ ∀ c ∈ tail, isBlank c = true := by
  obtain ⟨tail, htail, hblank⟩ := exists_append_dropEndWhile isBlank (trimLeft text)
  refine ⟨text.takeWhile isBlank, tail, ?_, fun c hc => mem_takeWhile_imp hc, hblank⟩
  calc
    text = text.takeWhile isBlank ++ trimLeft text :=
      (takeWhile_isBlank_append_trimLeft text).symm
    _ = text.takeWhile isBlank ++ (trim text ++ tail) := by
      rw [htail]
      rfl
    _ = text.takeWhile isBlank ++ trim text ++ tail := (append_assoc ..).symm

end SourceAtlas
