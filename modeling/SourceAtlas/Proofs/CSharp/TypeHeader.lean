import SourceAtlas.Proofs.CSharp.Source
import SourceAtlas.Proofs.Declaration.Extent

/-!
# Type headers among other text

A type header opens with modifiers and a keyword, each a whole word with blanks behind it, and a name
follows. Nothing else that is written in a source is taken for a header, and the header of a written
type is read back.
-/

namespace SourceAtlas.CSharp

open List Option

variable {choices : List Text} {tail text : Text} {c : Char} {before : Option Char}

/-! ## Words in front of a header -/

variable {word rest : Text}

theorem isWord_of_mem_typeModifiers (h : word ∈ typeModifiers) : ∀ c ∈ word, isWord c = true := by
  have hall : typeModifiers.all (·.all isWord) = true := by decide
  exact all_eq_true.mp (all_eq_true.mp hall word h)

theorem isWord_of_mem_typeWords (h : word ∈ typeWords) : ∀ c ∈ word, isWord c = true := by
  have hall : typeWords.all (·.all isWord) = true := by decide
  exact all_eq_true.mp (all_eq_true.mp hall word h)

theorem trimLeft_word (hne : word ≠ []) (hword : ∀ c ∈ word, isWord c = true) (rest : Text) :
    trimLeft (word ++ rest) = word ++ rest := by
  obtain ⟨c, word, rfl⟩ := exists_cons_of_ne_nil hne
  exact trimLeft_cons_of_not_blank (isBlank_eq_false_of_isWord (hword c (by simp))) (word ++ rest)

theorem trimLeft_name (name : Identifier) (rest : Text) :
    trimLeft (name.text ++ rest) = name.text ++ rest :=
  trimLeft_word name.ne_nil (fun _ hc => name.isWord_of_mem hc) rest

theorem dropWord?_word {after : Text} (hchoices : ∀ choice ∈ choices, ∀ c ∈ choice, isWord c = true)
    (hword : ∀ c ∈ word, isWord c = true) (hrest : ∀ c ∈ rest.head?, isWord c = false)
    (h : dropWord? choices (word ++ rest) = some after) :
    word ∈ choices ∧ ∃ c tail, rest = c :: tail ∧ isBlank c = true ∧ after = trimLeft tail := by
  obtain ⟨choice, hchoice, c, tail, happend, hblank, rfl⟩ := dropWord?_eq_some h
  rcases eq_or_isWord_of_append_eq hword hrest (hchoices choice hchoice) happend with
    ⟨rfl, rfl⟩ | ⟨d, tail', hcons, hd⟩
  · exact ⟨hchoice, c, tail, rfl, hblank, rfl⟩
  · obtain ⟨rfl, -⟩ := cons.inj hcons
    rw [isWord_eq_false_of_isBlank hblank] at hd
    cases hd

theorem dropWord?_of_mem (hchoices : ∀ choice ∈ choices, ∀ c ∈ choice, isWord c = true)
    (hword : word ∈ choices) (tail : Text) :
    dropWord? choices (word ++ ' ' :: tail) = some (trimLeft tail) :=
  SourceAtlas.dropWord?_word
    (fun choice hchoice c hc => isBlank_eq_false_of_isWord (hchoices choice hchoice c hc)) hword rfl tail

theorem dropWord?_of_not_mem (hchoices : ∀ choice ∈ choices, ∀ c ∈ choice, isWord c = true)
    (hword : ∀ c ∈ word, isWord c = true) (hmem : word ∉ choices) (tail : Text) :
    dropWord? choices (word ++ ' ' :: tail) = none := by
  rw [eq_none_iff_forall_ne_some]
  intro after hafter
  exact hmem (dropWord?_word hchoices hword (by simp; decide) hafter).1

/-- The text after a keyword, with the names that may start there. -/
def nameStarts (after : Text) : List Text :=
  (dropWord? ["class".toList, "struct".toList] after).toList ++ [after]

/-- A header that starts with a word goes on after blanks: with another header behind a modifier, or
with a name behind a keyword. -/
theorem typeHeaderAt?_word {header : TypeHeader}
    (hword : ∀ c ∈ word, isWord c = true) (hrest : ∀ c ∈ rest.head?, isWord c = false)
    (h : typeHeaderAt? before (word ++ rest) = some header) :
    ∃ c tail, rest = c :: tail ∧ isBlank c = true ∧
      (typeHeaderAt? none (trimLeft tail) = some header ∨
        word ∈ typeWords ∧ (nameStarts (trimLeft tail)).findSome? namedHeader? ≠ none) := by
  unfold typeHeaderAt? at h
  split at h
  next =>
    cases hmodifier : dropWord? typeModifiers (word ++ rest) with
    | none =>
      rw [skipModifiers, hmodifier] at h
      simp only [bind, bind_eq_some_iff, Prod.exists] at h
      obtain ⟨keyword, kind, after, hkeyword, name, bases, _, hnamed, -⟩ := h
      obtain ⟨hmem, hafter⟩ := keywordAt?_eq_some hkeyword
      have htypeWord : keyword ∈ typeWords := mem_map.mpr ⟨_, hmem, rfl⟩
      obtain ⟨hsame, c, tail, rfl, hblank, rfl⟩ := dropWord?_word
        (by simpa using isWord_of_mem_typeWords htypeWord) hword hrest hafter
      refine ⟨c, tail, rfl, hblank, Or.inr ⟨?_, ?_⟩⟩
      · rwa [mem_singleton.mp hsame]
      · exact ne_none_iff_exists'.mpr ⟨_, hnamed⟩
    | some after =>
      obtain ⟨-, c, tail, rfl, hblank, rfl⟩ := dropWord?_word
        (fun _ => isWord_of_mem_typeModifiers) hword hrest hmodifier
      refine ⟨c, tail, rfl, hblank, Or.inl ?_⟩
      rw [skipModifiers, hmodifier] at h
      simp only [if_pos (length_lt_of_dropWord? hmodifier)] at h
      simpa [typeHeaderAt?] using h
  next => cases h

/-- A text that starts with one of some words starts with a word character. -/
theorem not_append_of_head? {choice : Text} (hchoices : choices.all (·.head?.any isWord) = true)
    (hchoice : choice ∈ choices) (h : ∀ c ∈ (choice ++ tail).head?, isWord c = false) : False := by
  have hhead := all_eq_true.mp hchoices choice hchoice
  cases choice with
  | nil => cases hhead
  | cons c choice =>
    have hfalse := h c rfl
    rw [show isWord c = true from hhead] at hfalse
    cases hfalse

theorem namedHeader?_cons (h : isNameStart c = false) : namedHeader? (c :: rest) = none := by
  simp [namedHeader?, h]

theorem findSome?_nameStarts_of_not_word (htext : ∀ c ∈ text.head?, isWord c = false) :
    (nameStarts text).findSome? namedHeader? = none := by
  have hnone : dropWord? ["class".toList, "struct".toList] text = none := by
    rw [eq_none_iff_forall_ne_some]
    intro after hafter
    obtain ⟨choice, hchoice, c, tail, rfl, -⟩ := dropWord?_eq_some hafter
    exact not_append_of_head? (by decide) hchoice htext
  rw [nameStarts, hnone, findSome?_eq_none_iff]
  intro start hstart
  obtain rfl := mem_singleton.mp hstart
  cases start with
  | nil => rfl
  | cons c tail =>
    apply namedHeader?_cons
    by_contra hstart
    have hfalse := htext c rfl
    rw [isWord_of_isNameStart (by simpa using hstart)] at hfalse
    cases hfalse

theorem findSome?_nameStarts (name : Identifier) {rest : Text}
    (hrest : ∀ c ∈ rest.head?, isWord c = false)
    (htrim : ∀ c ∈ (trimLeft rest).head?, isWord c = false) :
    (nameStarts (name.text ++ rest)).findSome? namedHeader? =
      namedHeader? (name.text ++ rest) := by
  have hwords : ∀ choice ∈ ["class".toList, "struct".toList], ∀ c ∈ choice, isWord c = true := by
    have hall : ["class".toList, "struct".toList].all (·.all isWord) = true := by decide
    exact fun choice hchoice => all_eq_true.mp (all_eq_true.mp hall choice hchoice)
  cases hdrop : dropWord? ["class".toList, "struct".toList] (name.text ++ rest) with
  | none =>
    rw [nameStarts, hdrop]
    simp
  | some after =>
    -- the name is spelled like a second keyword, but what comes after it is no name
    obtain ⟨-, c, tail, rfl, hblank, rfl⟩ :=
      dropWord?_word hwords (fun _ hc => name.isWord_of_mem hc) hrest hdrop
    have hnone : namedHeader? (trimLeft tail) = none := by
      rw [trimLeft_cons_of_blank hblank] at htrim
      have hstarts := findSome?_nameStarts_of_not_word htrim
      rw [findSome?_eq_none_iff] at hstarts
      exact hstarts _ (by simp [nameStarts])
    rw [nameStarts, hdrop]
    simp [hnone]

theorem isDottedWord_of_isWord (h : isWord c = true) : isDottedWord c = true := by
  simp [isDottedWord, h]

theorem typeHeaderAt?_of_not_word (h : ∀ c ∈ text.head?, isWord c = false) :
    typeHeaderAt? before text = none := by
  rw [eq_none_iff_forall_ne_some]
  intro header hheader
  obtain ⟨-, -, opener, hopener, tail, rfl⟩ := typeHeaderAt?_extent hheader
  exact not_append_of_head? (by decide) hopener h

section

variable {before : Option Char} (hword : ∀ c ∈ word, isWord c = true)

include hword

theorem typeHeaderAt?_unspaced (hrest : ∀ c ∈ rest.head?, isWord c = false ∧ isBlank c = false) :
    typeHeaderAt? before (word ++ rest) = none := by
  rw [eq_none_iff_forall_ne_some]
  intro header hheader
  obtain ⟨c, tail, rfl, hblank, -⟩ := typeHeaderAt?_word hword (fun c hc => (hrest c hc).1) hheader
  rw [(hrest c rfl).2] at hblank
  cases hblank

theorem typeHeaderAt?_lone (htail : ∀ c ∈ (trimLeft tail).head?, isWord c = false) :
    typeHeaderAt? before (word ++ ' ' :: tail) = none := by
  rw [eq_none_iff_forall_ne_some]
  intro header hheader
  obtain ⟨c, tail', hcons, -, hnext | ⟨-, hnamed⟩⟩ :=
    typeHeaderAt?_word hword (by simp; decide) hheader
  · obtain ⟨-, rfl⟩ := cons.inj hcons
    rw [typeHeaderAt?_of_not_word htail] at hnext
    cases hnext
  · obtain ⟨-, rfl⟩ := cons.inj hcons
    exact hnamed (findSome?_nameStarts_of_not_word htail)

theorem typeHeaderAt?_before (hne : word ∉ typeWords)
    (htail : typeHeaderAt? none (trimLeft tail) = none) :
    typeHeaderAt? before (word ++ ' ' :: tail) = none := by
  rw [eq_none_iff_forall_ne_some]
  intro header hheader
  obtain ⟨c, tail', hcons, -, hnext | ⟨hmem, -⟩⟩ :=
    typeHeaderAt?_word hword (by simp; decide) hheader
  · obtain ⟨-, rfl⟩ := cons.inj hcons
    rw [htail] at hnext
    cases hnext
  · exact hne hmem

end

theorem readsWords_typeHeaderAt :
    ReadsWords (fun _ => True) fun before text => typeHeaderAt? before text = none := by
  refine ⟨?_, ?_, ?_, ?_⟩
  · intro before c rest hc
    exact typeHeaderAt?_of_not_word (by simpa using hc)
  · intro c text hc
    simp [typeHeaderAt?, isDottedWord_of_isWord hc]
  · rintro before rest name - ⟨c, tail, rfl, hc, hblank⟩
    exact typeHeaderAt?_unspaced (fun _ h => name.isWord_of_mem h) (by simp [hc, hblank])
  · intro rest name _ hrest
    simp [typeHeaderAt?, isDottedWord]

/-! ## The name of a header -/

/-- A name is followed by its clauses unless type parameters or a parameter list come first. -/
theorem namedHeader?_name (name : Identifier) {rest : Text}
    (hrest : ∀ c ∈ rest.head?, isWord c = false)
    (htrim : ∀ c ∈ (trimLeft rest).head?, c ≠ '<' ∧ c ≠ '(') :
    ∃ last, namedHeader? (name.text ++ rest) =
      (clausesAt? last rest).map fun clauses => (name.text, clauses.1, clauses.2) := by
  obtain ⟨c, others, hname, hstart⟩ := name.exists_cons
  have htake : (name.text ++ rest).takeWhile isWord = name.text :=
    takeWhile_append_of_stop (fun _ hc => name.isWord_of_mem hc) hrest
  have hparameters : dropTypeParameters? rest = none := by
    unfold dropTypeParameters?
    split
    next heq => exact absurd rfl (htrim _ (by rw [heq]; rfl)).1
    next => rfl
  have hlist : dropParameterList? rest = none := by
    unfold dropParameterList?
    split
    next heq => exact absurd rfl (htrim _ (by rw [heq]; rfl)).2
    next => rfl
  refine ⟨name.text.getLast?.getD c, ?_⟩
  have hheader : namedHeader? (name.text ++ rest) =
      (clauseStarts (name.text.getLast?.getD c) rest).findSome? fun place =>
        (clausesAt? place.1 place.2).map fun clauses => (name.text, clauses.1, clauses.2) := by
    unfold namedHeader?
    split
    next d tail heq =>
      have hsame : d = c := by
        rw [hname] at heq
        exact (cons.inj heq).1.symm
      subst hsame
      simp only [hstart, if_true, htake, drop_left]
    next heq => simp [hname] at heq
  rw [hheader]
  simp only [clauseStarts, hparameters, hlist, toList_none, map_nil, nil_append,
    flatMap_cons, flatMap_nil, append_nil, findSome?_cons, findSome?_nil]
  cases clausesAt? (name.text.getLast?.getD c) rest <;> rfl

theorem typeHeaderAt?_parameter (hword : ∀ c ∈ word, isWord c = true)
    (name : Identifier) (hc : c = ',' ∨ c = ')') (tail : Text) :
    typeHeaderAt? before (word ++ ' ' :: (name.text ++ c :: tail)) = none := by
  have hmark : isWord c = false ∧ isBlank c = false ∧ c ≠ '<' ∧ c ≠ '(' := by
    rcases hc with rfl | rfl <;> decide
  have hhead : ∀ d ∈ (c :: tail).head?, isWord d = false ∧ isBlank d = false := by
    simp [hmark.1, hmark.2.1]
  have htrim := trimLeft_name name (c :: tail)
  rw [eq_none_iff_forall_ne_some]
  intro header hheader
  obtain ⟨d, tail', hcons, -, hnext | ⟨-, hnamed⟩⟩ :=
    typeHeaderAt?_word hword (by simp; decide) hheader
  · obtain ⟨-, rfl⟩ := cons.inj hcons
    rw [htrim, typeHeaderAt?_unspaced (fun _ h => name.isWord_of_mem h) hhead] at hnext
    cases hnext
  · obtain ⟨-, rfl⟩ := cons.inj hcons
    have hsame : trimLeft (c :: tail) = c :: tail := trimLeft_cons_of_not_blank hmark.2.1 tail
    have hafter : ∀ d ∈ (c :: tail).head?, isWord d = false := by simp [hmark.1]
    obtain ⟨last, hlast⟩ := namedHeader?_name name hafter (by simp [hsame, hmark.2.2])
    have hclauses : clausesAt? last (c :: tail) = none := by
      rcases hc with rfl | rfl <;>
        simp [clausesAt?, basesAt?, hsame, closesHeader, standsWord, dropHead?, startsWith, isBlank]
    rw [htrim, findSome?_nameStarts name hafter (by simp [hsame, hmark.1]), hlast,
      hclauses] at hnamed
    exact hnamed rfl

end SourceAtlas.CSharp
