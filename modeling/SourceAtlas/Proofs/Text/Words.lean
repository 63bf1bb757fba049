import SourceAtlas.Proofs.Text.Basic

/-!
# Words and trimmed text

Trimming leaves a text alone that neither starts nor ends with a blank. A tidy text is one whose
words have single spaces between them; squeezing leaves it alone.
-/

namespace SourceAtlas

open List

variable {blanks text front rest lead tail current first second word : Text} {c d blank : Char}
  {drop : Char → Bool}

/-! ## Trimming -/

theorem trimLeft_append_of_blanks (h : ∀ c ∈ blanks, isBlank c = true) (text : Text) :
    trimLeft (blanks ++ text) = trimLeft text :=
  dropWhile_append_of_pos h

theorem trimLeft_cons_of_blank (h : isBlank c = true) (rest : Text) :
    trimLeft (c :: rest) = trimLeft rest := by
  simp [trimLeft, h]

theorem trimLeft_cons_of_not_blank (h : isBlank c = false) (rest : Text) :
    trimLeft (c :: rest) = c :: rest := by
  simp [trimLeft, h]

theorem trimRight_append_of_blanks {blanks : Text} (h : ∀ c ∈ blanks, isBlank c = true)
    (text : Text) : trimRight (text ++ blanks) = trimRight text := by
  simp only [trimRight, dropEndWhile, reverse_append]
  rw [dropWhile_append_of_pos (by simpa using h)]

theorem dropEndWhile_append_singleton (h : drop c = false) (text : Text) :
    dropEndWhile drop (text ++ [c]) = text ++ [c] := by
  simp [dropEndWhile, h]

theorem dropEndWhile_append_of_mem (hmem : c ∈ text) (h : drop c = false) (front : Text) :
    dropEndWhile drop (front ++ text) = front ++ dropEndWhile drop text := by
  have hne : (text.reverse.dropWhile drop).isEmpty = false := by
    rw [Bool.eq_false_iff, ne_eq, List.isEmpty_iff, dropWhile_eq_nil_iff]
    intro hall
    rw [hall c (mem_reverse.mpr hmem)] at h
    cases h
  simp only [dropEndWhile, reverse_append, dropWhile_append, hne, Bool.false_eq_true,
    if_false, reverse_reverse]

theorem trimRight_append_singleton (h : isBlank c = false) (text : Text) :
    trimRight (text ++ [c]) = text ++ [c] :=
  dropEndWhile_append_singleton h text

theorem trimRight_of_getLast? (hlast : text.getLast? = some c) (h : isBlank c = false) :
    trimRight text = text := by
  obtain ⟨front, rfl⟩ := getLast?_eq_some_iff.mp hlast
  exact trimRight_append_singleton h front

theorem trimRight_append_of_getLast? (hlast : front.getLast? = some c) (h : isBlank c = false)
    (rest : Text) : trimRight (front ++ rest) = front ++ trimRight rest := by
  by_cases hrest : ∀ d ∈ rest, isBlank d = true
  · have hnil := trimRight_append_of_blanks hrest []
    rw [nil_append] at hnil
    rw [trimRight_append_of_blanks hrest, trimRight_of_getLast? hlast h, hnil]
    exact (append_nil front).symm
  · obtain ⟨d, hmem, hd⟩ : ∃ d ∈ rest, isBlank d = false := by simpa using hrest
    exact dropEndWhile_append_of_mem hmem hd front

theorem prefix_trimRight (hlast : front.getLast? = some c) (h : isBlank c = false) (rest : Text) :
    front <+: trimRight (front ++ rest) := by
  rw [trimRight_append_of_getLast? hlast h]
  exact prefix_append _ _

theorem trimLeft_of_head? (hhead : text.head? = some c) (h : isBlank c = false) :
    trimLeft text = text := by
  obtain ⟨rest, rfl⟩ := head?_eq_some_iff.mp hhead
  exact trimLeft_cons_of_not_blank h rest

theorem trimLeft_eq_self (h : ∀ c ∈ text.head?, isBlank c = false) : trimLeft text = text := by
  cases text with
  | nil => rfl
  | cons c rest => exact trimLeft_cons_of_not_blank (h c rfl) rest

theorem trimLeft_ne_nil_of_getLast? (hlast : text.getLast? = some c) (h : isBlank c = false) :
    trimLeft text ≠ [] :=
  dropWhile_ne_nil_of_getLast? hlast h

theorem getLast?_trimLeft (hlast : text.getLast? = some c) (h : isBlank c = false) :
    (trimLeft text).getLast? = some c :=
  getLast?_dropWhile hlast h

theorem trimLeft_append_of_getLast? (hlast : text.getLast? = some c) (h : isBlank c = false)
    (more : Text) : trimLeft (text ++ more) = trimLeft text ++ more :=
  dropWhile_append_of_getLast? hlast h more

theorem exists_blanks_of_trimLeft_eq (h : trimLeft text = rest) :
    ∃ blanks, text = blanks ++ rest ∧ ∀ c ∈ blanks, isBlank c = true :=
  ⟨text.takeWhile isBlank, by rw [← h, takeWhile_isBlank_append_trimLeft],
    fun _ hc => mem_takeWhile_imp hc⟩

/-- The blanks in front of a character are trimmed off whatever follows the character. -/
theorem exists_blanks_of_trimLeft_eq_cons (h : trimLeft text = c :: rest) :
    ∃ blanks, text = blanks ++ c :: rest ∧ ∀ more, trimLeft (blanks ++ c :: more) = c :: more := by
  obtain ⟨blanks, htext, hblanks⟩ := exists_blanks_of_trimLeft_eq h
  refine ⟨blanks, htext, fun more => ?_⟩
  rw [trimLeft_append_of_blanks hblanks, trimLeft_cons_of_not_blank (of_dropWhile_eq_cons h)]

theorem trim_append_of_blanks (h : ∀ c ∈ blanks, isBlank c = true) (text : Text) :
    trim (text ++ blanks) = trim text := by
  unfold trim trimLeft
  rw [dropWhile_append]
  split
  · next hempty => rw [dropWhile_eq_nil_iff.mpr h, List.isEmpty_iff.mp hempty]
  · exact trimRight_append_of_blanks h _

theorem trim_blanks_append (h : ∀ c ∈ blanks, isBlank c = true) (text : Text) :
    trim (blanks ++ text) = trim text := by
  rw [trim, trimLeft_append_of_blanks h, trim]

theorem trim_trim (text : Text) : trim (trim text) = trim text := by
  obtain ⟨lead, tail, htext, hlead, htail⟩ := exists_blanks_append_trim text
  have heq : trim text = trim (lead ++ trim text ++ tail) := congrArg trim htext
  rw [trim_append_of_blanks htail, trim_blanks_append hlead] at heq
  exact heq.symm

theorem trim_between (hlead : ∀ c ∈ lead, isBlank c = true) (htail : ∀ c ∈ tail, isBlank c = true)
    (hhead : text.head? = some c) (hc : isBlank c = false) (hlast : text.getLast? = some d)
    (hd : isBlank d = false) :
    trim (lead ++ text ++ tail) = text := by
  have hfront : (text ++ tail).head? = some c := by simp [head?_append, hhead]
  unfold trim
  rw [append_assoc, trimLeft_append_of_blanks hlead, trimLeft_of_head? hfront hc,
    trimRight_append_of_blanks htail, trimRight_of_getLast? hlast hd]

/-- A text with a character other than a blank is that character behind blanks, and more. -/
theorem exists_blanks_append (h : ∃ c ∈ text, isBlank c = false) :
    ∃ blanks c rest, text = blanks ++ c :: rest ∧ (∀ d ∈ blanks, isBlank d = true) ∧
      isBlank c = false := by
  cases hdrop : text.dropWhile isBlank with
  | nil =>
    obtain ⟨c, hmem, hc⟩ := h
    rw [dropWhile_eq_nil_iff.mp hdrop c hmem] at hc
    cases hc
  | cons c rest =>
    refine ⟨text.takeWhile isBlank, c, rest, ?_, fun d hd => mem_takeWhile_imp hd,
      of_dropWhile_eq_cons hdrop⟩
    rw [← hdrop, takeWhile_append_dropWhile]

theorem exists_trimRight_eq (h : ∃ c ∈ text, isBlank c = false) :
    ∃ front c, trimRight text = front ++ [c] ∧ isBlank c = false := by
  obtain ⟨c, hmem, hc⟩ := h
  cases hdrop : text.reverse.dropWhile isBlank with
  | nil =>
    rw [dropWhile_eq_nil_iff.mp hdrop c (mem_reverse.mpr hmem)] at hc
    cases hc
  | cons d rest =>
    refine ⟨rest.reverse, d, ?_, of_dropWhile_eq_cons hdrop⟩
    rw [trimRight, dropEndWhile, hdrop, reverse_cons]

theorem dropEndWhile_dropEndWhile (drop : Char → Bool) (text : Text) :
    dropEndWhile drop (dropEndWhile drop text) = dropEndWhile drop text := by
  simp only [dropEndWhile, reverse_reverse, dropWhile_idempotent]

theorem isBlankText_of_head? (hhead : text.head? = some c) (h : isBlank c = false) :
    isBlankText text = false := by
  obtain ⟨rest, rfl⟩ := head?_eq_some_iff.mp hhead
  simp [isBlankText, h]

theorem trim_of_ends (hhead : text.head? = some c) (hc : isBlank c = false)
    (hlast : text.getLast? = some d) (hd : isBlank d = false) :
    trim text = text := by
  rw [trim, trimLeft_of_head? hhead hc, trimRight_of_getLast? hlast hd]

theorem trimLeft_of_trim_eq (h : trim text = text) : trimLeft text = text := by
  have hsuffix := trimLeft_suffix text
  obtain ⟨tail, htail, -⟩ := exists_append_dropEndWhile isBlank (trimLeft text)
  apply hsuffix.eq_of_length
  have hlength := congrArg length htail
  have htrim : (dropEndWhile isBlank (trimLeft text)).length = text.length := congrArg length h
  have hle := hsuffix.length_le
  rw [length_append] at hlength
  omega

theorem trimRight_of_trim_eq (h : trim text = text) : trimRight text = text := by
  rwa [trim, trimLeft_of_trim_eq h] at h

theorem trim_of_solid (h : ∀ c ∈ text, isBlank c = false) : trim text = text := by
  cases hhead : text.head? with
  | none =>
    rw [head?_eq_none_iff.mp hhead]
    rfl
  | some c =>
    have hne : text ≠ [] := by
      rintro rfl
      cases hhead
    have hlast := getLast?_eq_some_getLast hne
    exact trim_of_ends hhead (h c (mem_of_mem_head? hhead)) hlast (h _ (getLast_mem hne))

/-! ## Words -/

theorem wordsFrom_nil (current : Text) :
    wordsFrom current [] = if current.isEmpty then [] else [current.reverse] :=
  rfl

theorem wordsFrom_cons (current : Text) (c : Char) (rest : Text) :
    wordsFrom current (c :: rest) =
      if isBlank c then
        if current.isEmpty then wordsFrom [] rest else current.reverse :: wordsFrom [] rest
      else wordsFrom (c :: current) rest :=
  rfl

theorem wordsFrom_append_of_not_blank (h : ∀ c ∈ word, isBlank c = false) (current rest : Text) :
    wordsFrom current (word ++ rest) = wordsFrom (word.reverse ++ current) rest := by
  induction word generalizing current with
  | nil => rfl
  | cons c word ih =>
    have hc : isBlank c = false := h c (by simp)
    have hword : ∀ d ∈ word, isBlank d = false := fun d hd => h d (by simp [hd])
    simp [wordsFrom_cons, hc, ih hword]

theorem words_of_word (hne : word ≠ []) (h : ∀ c ∈ word, isBlank c = false) :
    words word = [word] := by
  have hfrom := wordsFrom_append_of_not_blank h [] []
  simp only [append_nil] at hfrom
  simp [words, hfrom, wordsFrom_nil, hne]

theorem wordsFrom_append_blank (h : isBlank blank = true) (current text rest : Text) :
    wordsFrom current (text ++ blank :: rest) = wordsFrom current text ++ words rest := by
  induction text generalizing current with
  | nil => by_cases hempty : current = [] <;> simp [wordsFrom_nil, wordsFrom_cons, h, hempty, words]
  | cons c text ih =>
    rw [cons_append, wordsFrom_cons, wordsFrom_cons]
    split
    · split
      · exact ih []
      · rw [ih [], cons_append]
    · exact ih (c :: current)

theorem words_append_cons (h : isBlank blank = true) (text rest : Text) :
    words (text ++ blank :: rest) = words text ++ words rest :=
  wordsFrom_append_blank h [] text rest

theorem words_cons_blank (h : isBlank blank = true) (rest : Text) :
    words (blank :: rest) = words rest :=
  words_append_cons h [] rest

theorem words_append_of_head? (h : ∀ c ∈ rest.head?, isBlank c = true) (text : Text) :
    words (text ++ rest) = words text ++ words rest := by
  cases rest with
  | nil => simp [words, wordsFrom_nil]
  | cons c rest => rw [words_append_cons (h c rfl), words_cons_blank (h c rfl)]

theorem words_append_blank (hne : word ≠ []) (h : ∀ c ∈ word, isBlank c = false)
    (hblank : isBlank blank = true) (rest : Text) :
    words (word ++ blank :: rest) = word :: words rest := by
  rw [words_append_cons hblank, words_of_word hne h, singleton_append]

theorem exists_append_of_mem_wordsFrom (hcurrent : ∀ c ∈ current, isBlank c = false)
    (h : word ∈ wordsFrom current text) :
    ∃ before after, current.reverse ++ text = before ++ word ++ after ∧
      (∀ c ∈ before.getLast?, isBlank c = true) ∧ ∀ c ∈ after.head?, isBlank c = true := by
  induction text generalizing current with
  | nil =>
    by_cases hempty : current.isEmpty = true
    · simp [wordsFrom_nil, hempty] at h
    · simp only [wordsFrom_nil, hempty, Bool.false_eq_true, if_false, mem_singleton] at h
      exact ⟨[], [], by simp [h], by simp, by simp⟩
  | cons c rest ih =>
    rw [wordsFrom_cons] at h
    split at h
    · next hblank =>
      have later : word ∈ wordsFrom [] rest →
          ∃ before after, current.reverse ++ c :: rest = before ++ word ++ after ∧
            (∀ d ∈ before.getLast?, isBlank d = true) ∧
              ∀ d ∈ after.head?, isBlank d = true := by
        intro hlater
        obtain ⟨before, after, heq, hbefore, hafter⟩ := ih (by simp) hlater
        refine ⟨current.reverse ++ c :: before, after, ?_, ?_, hafter⟩
        · simp only [reverse_nil, nil_append] at heq
          simp [heq]
        · cases before with
          | nil => simpa using hblank
          | cons d before => simpa using hbefore
      split at h
      · exact later h
      · rcases mem_cons.mp h with rfl | hlater
        · exact ⟨[], c :: rest, by simp, by simp, by simpa using hblank⟩
        · exact later hlater
    · next hnot =>
      have hcurrent' : ∀ d ∈ c :: current, isBlank d = false := by
        simpa [hnot] using hcurrent
      obtain ⟨before, after, heq, hbefore, hafter⟩ := ih hcurrent' h
      exact ⟨before, after, by simpa using heq, hbefore, hafter⟩

theorem exists_append_of_mem_words (h : word ∈ words text) :
    ∃ before after, text = before ++ word ++ after ∧
      (∀ c ∈ before.getLast?, isBlank c = true) ∧ ∀ c ∈ after.head?, isBlank c = true := by
  simpa using exists_append_of_mem_wordsFrom (by simp) h

theorem of_mem_wordsFrom (hcurrent : ∀ c ∈ current, isBlank c = false)
    (h : word ∈ wordsFrom current text) : word ≠ [] ∧ ∀ c ∈ word, isBlank c = false := by
  have hword : ∀ {current : Text}, ¬ current.isEmpty = true → (∀ c ∈ current, isBlank c = false) →
      current.reverse ≠ [] ∧ ∀ c ∈ current.reverse, isBlank c = false := by
    intro current hne hcurrent
    exact ⟨by simpa using hne, fun c hc => hcurrent c (mem_reverse.mp hc)⟩
  induction text generalizing current with
  | nil =>
    rw [wordsFrom_nil] at h
    split at h
    · cases h
    · next hne =>
      obtain rfl := mem_singleton.mp h
      exact hword hne hcurrent
  | cons c rest ih =>
    rw [wordsFrom_cons] at h
    split at h
    · split at h
      · exact ih (by simp) h
      · next hne =>
        rcases mem_cons.mp h with rfl | hlater
        · exact hword hne hcurrent
        · exact ih (by simp) hlater
    · next hnot => exact ih (by simpa [hnot] using hcurrent) h

theorem of_mem_words (h : word ∈ words text) : word ≠ [] ∧ ∀ c ∈ word, isBlank c = false :=
  of_mem_wordsFrom (by simp) h

theorem words_joinWith {parts : List Text}
    (h : ∀ part ∈ parts, part ≠ [] ∧ ∀ c ∈ part, isBlank c = false) :
    words (joinWith [' '] parts) = parts := by
  induction parts with
  | nil => rfl
  | cons part parts ih =>
    obtain ⟨hne, hsolid⟩ := h part mem_cons_self
    have hparts := ih fun other hother => h other (mem_cons_of_mem part hother)
    cases parts with
    | nil => exact words_of_word hne hsolid
    | cons second parts =>
      rw [joinWith, append_assoc, singleton_append,
        words_append_blank hne hsolid (by decide), hparts]
      simp

theorem words_squeeze (text : Text) : words (squeeze text) = words text :=
  words_joinWith fun _ => of_mem_words

theorem squeeze_squeeze (text : Text) : squeeze (squeeze text) = squeeze text :=
  congrArg (joinWith [' ']) (words_squeeze text)

theorem flatten_words (text : Text) : (words text).flatten = text.filter (!isBlank ·) := by
  have hfrom : ∀ current, (wordsFrom current text).flatten =
      current.reverse ++ text.filter (!isBlank ·) := by
    induction text with
    | nil => intro current; by_cases hempty : current = [] <;> simp [wordsFrom_nil, hempty]
    | cons c rest ih =>
      intro current
      rw [wordsFrom_cons]
      split
      · next hblank =>
        split
        · next hempty => simp [ih, hblank, List.isEmpty_iff.mp hempty]
        · simp [ih, hblank]
      · next hnot => simp [ih, hnot]
  exact hfrom []

theorem filter_squeeze (text : Text) :
    (squeeze text).filter (!isBlank ·) = text.filter (!isBlank ·) := by
  rw [← flatten_words, words_squeeze, flatten_words]

theorem getLast?_trimRight (text : Text) :
    (trimRight text).getLast? = (text.filter (!isBlank ·)).getLast? := by
  by_cases hblank : ∀ c ∈ text, isBlank c = true
  · have hnil : text.filter (!isBlank ·) = [] := filter_eq_nil_iff.mpr (by simpa using hblank)
    have htrim := trimRight_append_of_blanks hblank []
    rw [nil_append] at htrim
    rw [hnil, htrim]
    rfl
  · obtain ⟨front, c, htrim, hc⟩ := exists_trimRight_eq (by simpa using hblank)
    obtain ⟨blanks, htext, hblanks⟩ := exists_append_dropEndWhile isBlank text
    have hnil : blanks.filter (!isBlank ·) = [] := filter_eq_nil_iff.mpr (by simpa using hblanks)
    change text = trimRight text ++ blanks at htext
    rw [htrim] at htext
    rw [htrim, htext]
    simp [hnil, hc]

theorem isBlank_of_mem_getLast?_trim (h : (trim text).getLast? = some c) : isBlank c = false := by
  rw [trim, getLast?_trimRight] at h
  simpa using (mem_filter.mp (mem_of_getLast? h)).2

theorem isBlank_of_mem_head?_trim (h : (trim text).head? = some c) : isBlank c = false := by
  obtain ⟨rest, hrest⟩ := head?_eq_some_iff.mp h
  obtain ⟨blanks, hleft, -⟩ := exists_append_dropEndWhile isBlank (trimLeft text)
  apply of_dropWhile_eq_cons
  change trimLeft text = trim text ++ blanks at hleft
  rw [hrest, cons_append] at hleft
  exact hleft

theorem getLast?_trimRight_append (h : (trimRight front).getLast? ≠ some c) (text : Text) :
    (trimRight (front ++ text)).getLast? = some c ↔ (trimRight text).getLast? = some c := by
  rw [getLast?_trimRight] at h
  rw [getLast?_trimRight, getLast?_trimRight, filter_append, getLast?_append]
  cases (text.filter (!isBlank ·)).getLast? with
  | none => simpa using h
  | some d => rw [Option.some_or]

theorem words_eq_nil_iff : words text = [] ↔ isBlankText text = true := by
  constructor
  · intro h
    have hnone := flatten_words text
    rw [h, flatten_nil, eq_comm, filter_eq_nil_iff] at hnone
    exact all_eq_true.mpr fun c hc => by simpa using hnone c hc
  · intro h
    have hnone : text.filter (!isBlank ·) = [] := by simpa [isBlankText] using h
    by_contra hne
    obtain ⟨word, others, hwords⟩ := exists_cons_of_ne_nil hne
    have hmem : word ∈ words text := hwords ▸ mem_cons_self
    rw [← flatten_words, hwords, flatten_cons, append_eq_nil_iff] at hnone
    exact (of_mem_words hmem).1 hnone.1

theorem words_blanks_append (h : ∀ c ∈ blanks, isBlank c = true) (text : Text) :
    words (blanks ++ text) = words text := by
  induction blanks with
  | nil => rfl
  | cons c blanks ih =>
    rw [cons_append, words_cons_blank (h c mem_cons_self)]
    exact ih fun d hd => h d (mem_cons_of_mem c hd)

theorem words_trim (text : Text) : words (trim text) = words text := by
  obtain ⟨lead, tail, htext, hlead, htail⟩ := exists_blanks_append_trim text
  have hnone : words tail = [] := words_eq_nil_iff.mpr (all_eq_true.mpr htail)
  have hhead : ∀ c ∈ tail.head?, isBlank c = true := fun c hc => htail c (mem_of_mem_head? hc)
  calc
    words (trim text) = words (trim text ++ tail) := by
      rw [words_append_of_head? hhead, hnone, append_nil]
    _ = words (lead ++ (trim text ++ tail)) := (words_blanks_append hlead _).symm
    _ = words text := by rw [← append_assoc, ← htext]

theorem exists_words_append (hne : word ≠ []) (h : ∀ c ∈ word, isBlank c = false) (text : Text) :
    ∃ front tail, text = front ++ tail ∧ words (word ++ text) = (word ++ front) :: words tail ∧
      (∀ c ∈ front, isBlank c = false) ∧ ∀ c ∈ tail.head?, isBlank c = true := by
  have htail : ∀ c ∈ (text.dropWhile (!isBlank ·)).head?, isBlank c = true := by
    intro c hc
    obtain ⟨rest, hrest⟩ := head?_eq_some_iff.mp hc
    simpa using of_dropWhile_eq_cons hrest
  have hfront : ∀ c ∈ text.takeWhile (!isBlank ·), isBlank c = false := by
    intro c hc
    simpa using mem_takeWhile_imp hc
  have hsolid : ∀ c ∈ word ++ text.takeWhile (!isBlank ·), isBlank c = false := by
    intro c hc
    rcases mem_append.mp hc with hc | hc
    · exact h c hc
    · exact hfront c hc
  refine ⟨text.takeWhile (!isBlank ·), text.dropWhile (!isBlank ·),
    takeWhile_append_dropWhile.symm, ?_, hfront, htail⟩
  calc
    words (word ++ text) = words (word ++ text.takeWhile (!isBlank ·) ++
        text.dropWhile (!isBlank ·)) := by
      rw [append_assoc, takeWhile_append_dropWhile]
    _ = _ := by
      rw [words_append_of_head? htail, words_of_word (by simp [hne]) hsolid, singleton_append]

/-- Squeezing keeps a word in front of a text, and the words of the text. -/
theorem exists_squeeze_append (hne : word ≠ []) (h : ∀ c ∈ word, isBlank c = false) (text : Text) :
    ∃ rest, squeeze (word ++ text) = word ++ rest ∧ words rest = words text ∧
      (isBlankText text = true → rest = []) := by
  obtain ⟨front, tail, rfl, hwords, hfront, htail⟩ := exists_words_append hne h text
  cases hlater : words tail with
  | nil =>
    refine ⟨front, ?_, ?_, ?_⟩
    · rw [squeeze, hwords, hlater, joinWith]
    · rw [words_append_of_head? htail, hlater, append_nil]
    · intro hblank
      rw [isBlankText, all_append, Bool.and_eq_true] at hblank
      refine eq_nil_iff_forall_not_mem.mpr fun c hc => ?_
      have hc' := all_eq_true.mp hblank.1 c hc
      rw [hfront c hc] at hc'
      cases hc'
  | cons second others =>
    refine ⟨front ++ ' ' :: squeeze tail, ?_, ?_, ?_⟩
    · rw [squeeze, hwords, squeeze, hlater, joinWith]
      · simp
      · simp
    · rw [words_append_cons (by decide), words_squeeze, words_append_of_head? htail]
    · intro hblank
      rw [← words_eq_nil_iff, words_append_of_head? htail, hlater] at hblank
      exact absurd hblank (by simp)

theorem squeeze_ne_nil (h : isBlankText text = false) : squeeze text ≠ [] := by
  intro hnil
  have hwords := words_squeeze text
  rw [hnil] at hwords
  rw [words_eq_nil_iff.mp hwords.symm] at h
  cases h

/-! ## Tidy text -/

/-- Words with single spaces between them. -/
inductive Tidy : Text → Prop where
  | word {word : Text} (ne : word ≠ []) (solid : ∀ c ∈ word, isBlank c = false) : Tidy word
  | spaced {word rest : Text} (ne : word ≠ []) (solid : ∀ c ∈ word, isBlank c = false)
      (tidy : Tidy rest) : Tidy (word ++ ' ' :: rest)

namespace Tidy

theorem append (hfirst : Tidy first) (hsecond : Tidy second) : Tidy (first ++ second) := by
  induction hfirst with
  | @word word hne hsolid =>
    cases hsecond with
    | word hne' hsolid' =>
      refine .word (by simp [hne]) ?_
      intro c hc
      rcases mem_append.mp hc with hc | hc
      · exact hsolid c hc
      · exact hsolid' c hc
    | @spaced word' rest hne' hsolid' htidy =>
      rw [← append_assoc]
      refine .spaced (by simp [hne]) ?_ htidy
      intro c hc
      rcases mem_append.mp hc with hc | hc
      · exact hsolid c hc
      · exact hsolid' c hc
  | @spaced word rest hne hsolid htidy ih =>
    rw [append_assoc, cons_append]
    exact .spaced hne hsolid ih

theorem append_space (hfirst : Tidy first) (hsecond : Tidy second) :
    Tidy (first ++ ' ' :: second) := by
  induction hfirst with
  | word hne hsolid => exact .spaced hne hsolid hsecond
  | @spaced word rest hne hsolid htidy ih =>
    rw [append_assoc, cons_append]
    exact .spaced hne hsolid ih

theorem words_ne_nil (h : Tidy text) : words text ≠ [] := by
  cases h with
  | word hne hsolid => simp [words_of_word hne hsolid]
  | spaced hne hsolid htidy =>
    rw [words_append_blank hne hsolid (by decide)]
    exact cons_ne_nil _ _

theorem squeeze (h : Tidy text) : squeeze text = text := by
  induction h with
  | word hne hsolid => simp [SourceAtlas.squeeze, words_of_word hne hsolid, joinWith]
  | @spaced word rest hne hsolid htidy ih =>
    unfold SourceAtlas.squeeze at ih ⊢
    rw [words_append_blank hne hsolid (by decide)]
    obtain ⟨first, others, hwords⟩ := exists_cons_of_ne_nil htidy.words_ne_nil
    rw [hwords] at ih ⊢
    simp [joinWith, ih]

theorem exists_head (h : Tidy text) : ∃ c, text.head? = some c ∧ isBlank c = false := by
  cases h with
  | word hne hsolid =>
    obtain ⟨c, rest, rfl⟩ := exists_cons_of_ne_nil hne
    exact ⟨c, rfl, hsolid c (by simp)⟩
  | spaced hne hsolid htidy =>
    obtain ⟨c, rest, rfl⟩ := exists_cons_of_ne_nil hne
    exact ⟨c, rfl, hsolid c (by simp)⟩

theorem exists_last (h : Tidy text) : ∃ c, text.getLast? = some c ∧ isBlank c = false := by
  induction h with
  | @word word hne hsolid =>
    exact ⟨word.getLast hne, getLast?_eq_some_getLast hne, hsolid _ (getLast_mem hne)⟩
  | spaced hne hsolid htidy ih =>
    obtain ⟨c, hlast, hc⟩ := ih
    exact ⟨c, by simp [getLast?_append, getLast?_cons, hlast], hc⟩

theorem trim_between (h : Tidy text) (hlead : ∀ c ∈ lead, isBlank c = true)
    (htail : ∀ c ∈ tail, isBlank c = true) :
    trim (lead ++ text ++ tail) = text := by
  obtain ⟨c, hhead, hc⟩ := h.exists_head
  obtain ⟨d, hlast, hd⟩ := h.exists_last
  exact SourceAtlas.trim_between hlead htail hhead hc hlast hd

theorem trim (h : Tidy text) : trim text = text := by
  have hnone : ∀ c ∈ ([] : Text), isBlank c = true := by simp
  simpa using h.trim_between hnone hnone

theorem isBlankText_eq_false (h : Tidy text) : isBlankText text = false := by
  obtain ⟨c, hhead, hc⟩ := h.exists_head
  exact isBlankText_of_head? hhead hc

end Tidy

end SourceAtlas
