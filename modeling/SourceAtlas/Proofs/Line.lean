import SourceAtlas.Dialect
import SourceAtlas.Line
import SourceAtlas.Proofs.Body
import SourceAtlas.Proofs.Text.Char
import SourceAtlas.Proofs.Text.Words

/-!
# Lines of code

A line that holds neither a comment nor a blank at its ends is read as it stands, however far it is
indented. Of any other line the code is its front, up to blanks or a comment.
-/

namespace SourceAtlas

open List Option

variable {front text rest more code line : Text} {quote c : Char}

/-! ## Comments at the end of a line -/

theorem codeFront_append_plain (h : ∀ c ∈ front, isQuote c = false ∧ c ≠ '/') (rest : Text) :
    codeFront none (front ++ rest) = (codeFront none rest).map (front ++ ·) := by
  induction front with
  | nil => simp
  | cons c front ih =>
    have hc := h c (by simp)
    have hslash : (c = '/' && (front ++ rest).head? == some '/') = false := by simp [hc.2]
    have htail := ih fun d hd => h d (by simp [hd])
    rw [cons_append]
    change (if isQuote c = true then _ else _) = _
    simp only [hc.1, hslash, Bool.false_eq_true, if_false, htail]
    cases codeFront none rest <;> rfl

theorem codeFront_of_plain (h : ∀ c ∈ line, isQuote c = false ∧ c ≠ '/') :
    codeFront none line = none := by
  have hfront := codeFront_append_plain h []
  rw [append_nil] at hfront
  rw [hfront, codeFront, map_none]

theorem codeFront_cons_quoted (h : c ≠ '\\') (rest : Text) :
    codeFront (some quote) (c :: rest) =
      (codeFront (if c = quote then none else some quote) rest).map (c :: ·) := by
  rw [codeFront.eq_def]
  simp only [h, if_false]
  split <;> rfl

theorem codeFront_inside (h : ∀ c ∈ front, c ≠ quote ∧ c ≠ '\\') (rest : Text) :
    codeFront (some quote) (front ++ rest) =
      (codeFront (some quote) rest).map (front ++ ·) := by
  induction front with
  | nil => simp
  | cons c front ih =>
    have hc := h c (by simp)
    have htail := ih fun d hd => h d (by simp [hd])
    rw [cons_append, codeFront_cons_quoted hc.2, if_neg hc.1, htail]
    cases codeFront (some quote) rest <;> rfl

theorem codeFront_quoted (hquote : isQuote quote = true) {inner : Text}
    (h : ∀ c ∈ inner, c ≠ quote ∧ c ≠ '\\') (rest : Text) :
    codeFront none (quote :: (inner ++ quote :: rest)) =
      (codeFront none rest).map (quote :: (inner ++ [quote]) ++ ·) := by
  have hslash : quote ≠ '\\' := by
    rintro rfl
    exact absurd hquote (by decide)
  change (if isQuote quote = true then _ else _) = _
  simp only [hquote, if_true]
  rw [codeFront_inside h, codeFront_cons_quoted hslash, if_pos rfl]
  cases codeFront none rest <;> simp

/-! ## Lines that are read as they stand -/

theorem Dialect.isComment_of_head? (dialect : Dialect) (hhead : line.head? = some c)
    (hc : c ∉ "/*#".toList) : dialect.isComment line = false := by
  have hmarks : dialect.commentMarks.all (·.head?.any "/*#".toList.contains) = true := by
    cases dialect <;> decide
  rw [Dialect.isComment, List.any_eq_false]
  intro mark hmark hstarts
  obtain ⟨d, hfirst, hmark⟩ := (Option.any_eq_true _ _).mp (all_eq_true.mp hmarks mark hmark)
  have hd : d ∈ "/*#".toList := contains_iff_mem.mp hmark
  obtain ⟨rest, rfl⟩ := startsWith_iff.mp hstarts
  rw [head?_append, hfirst, some_or, some.injEq] at hhead
  exact hc (hhead ▸ hd)

/-- A line of code: no comment, and no blanks but spaces between its ends. -/
structure IsCodeLine (line : Text) : Prop where
  first : ∃ c, line.head? = some c ∧ isBlank c = false ∧ c ∉ "/*#".toList
  last : ∃ c, line.getLast? = some c ∧ isBlank c = false
  spaced : ∀ c ∈ line, isBlank c = true → c = ' '
  uncommented : codeFront none line = none

namespace IsCodeLine

variable {line : Text}

theorem codeOf_indented (h : IsCodeLine line) (indent : Nat) :
    codeOf (replicate indent ' ' ++ line) = line := by
  obtain ⟨c, hfirst, hc, -⟩ := h.first
  obtain ⟨d, hlast, hd⟩ := h.last
  have hlead : ∀ e ∈ replicate indent ' ', isBlank e = true := by
    intro e he
    rw [eq_of_mem_replicate he]
    decide
  have hnone : ∀ e ∈ ([] : Text), isBlank e = true := by simp
  have htrim : trim (replicate indent ' ' ++ line) = line := by
    simpa using trim_between hlead hnone hfirst hc hlast hd
  rw [codeOf, htrim, dropLineComment, h.uncommented]

theorem isComment (h : IsCodeLine line) (dialect : Dialect) : dialect.isComment line = false := by
  obtain ⟨c, hfirst, -, hc⟩ := h.first
  exact dialect.isComment_of_head? hfirst hc

theorem isEmpty_eq_false (h : IsCodeLine line) : line.isEmpty = false := by
  obtain ⟨c, hfirst, -⟩ := h.first
  cases line with
  | nil => cases hfirst
  | cons c rest => rfl

theorem isLineBreak_eq_false (h : IsCodeLine line) (indent : Nat) :
    ∀ c ∈ replicate indent ' ' ++ line, isLineBreak c = false := by
  intro c hc
  by_contra hbreak
  have hblank : isBlank c = true := isBlank_of_isLineBreak (by simpa using hbreak)
  have hspace : c = ' ' := by
    rcases mem_append.mp hc with hc | hc
    · exact eq_of_mem_replicate hc
    · exact h.spaced c hc hblank
  subst hspace
  exact hbreak (by decide)

end IsCodeLine

/-! ## Code and what follows it -/

def EndsInCode (text : Text) : Prop :=
  ∀ c ∈ text.getLast?, isBlank c = false

/-- Whether a text can stand behind the code of a line: a blank, a comment or nothing comes first. -/
def FollowsCode (more : Text) : Prop :=
  ∀ c ∈ more.head?, isBlank c = true ∨ c = '/'

theorem EndsInCode.of_suffix (h : EndsInCode text) (hrest : rest <:+ text) : EndsInCode rest :=
  fun c hc => h c (mem_getLast?_of_suffix hrest hc)

theorem EndsInCode.exists_blanks_append (h : EndsInCode text) (hne : text ≠ []) :
    ∃ blanks c rest, text = blanks ++ c :: rest ∧ (∀ d ∈ blanks, isBlank d = true) ∧
      isBlank c = false := by
  apply SourceAtlas.exists_blanks_append
  exact ⟨text.getLast hne, getLast_mem hne, h _ (getLast?_eq_some_getLast hne)⟩

theorem FollowsCode.isWord_eq_false (h : FollowsCode more) :
    ∀ c ∈ more.head?, isWord c = false := by
  intro c hc
  rcases h c hc with hblank | rfl
  · exact isWord_eq_false_of_isBlank hblank
  · decide

theorem FollowsCode.prefix_of_append {word : Text} (hmore : FollowsCode more)
    (hword : ∀ c ∈ word, isWord c = true) (h : word <+: code ++ more) : word <+: code := by
  obtain ⟨rest, hrest⟩ := h
  rcases append_eq_append_iff.mp hrest with ⟨inner, rfl, -⟩ | ⟨inner, rfl, rfl⟩
  · exact prefix_append _ _
  · cases inner with
    | nil => simp
    | cons c inner =>
      have hc : isWord c = false := hmore.isWord_eq_false c rfl
      rw [hword c (by simp)] at hc
      cases hc

theorem EndsInCode.trimLeft_append (h : EndsInCode code) (hne : code ≠ []) (more : Text) :
    ∃ c rest, trimLeft code = c :: rest ∧ trimLeft (code ++ more) = c :: (rest ++ more) ∧
      (code ++ more).takeWhile isBlank = code.takeWhile isBlank := by
  obtain ⟨blanks, c, rest, rfl, hblanks, hc⟩ := h.exists_blanks_append hne
  have hstop : ∀ tail : Text, ∀ d ∈ (c :: tail).head?, isBlank d = false := by
    rintro tail d hd
    cases hd
    exact hc
  refine ⟨c, rest, dropWhile_append_of_stop hblanks (hstop rest), ?_, ?_⟩
  · rw [append_assoc]
    exact dropWhile_append_of_stop hblanks (hstop (rest ++ more))
  · rw [append_assoc, cons_append, takeWhile_append_of_stop hblanks (hstop _),
      takeWhile_append_of_stop hblanks (hstop _)]

theorem codeFront_eq_some {quote : Option Char}
    (h : codeFront quote line = some front) : ∃ tail, line = front ++ '/' :: tail := by
  have push : ∀ {read : Option Text} {c : Char} {rest front : Text},
      (∀ {inner}, read = some inner → ∃ tail, rest = inner ++ '/' :: tail) →
        read.map (c :: ·) = some front → ∃ tail, c :: rest = front ++ '/' :: tail := by
    intro read c rest front hread hmap
    obtain ⟨inner, hinner, rfl⟩ := map_eq_some_iff.mp hmap
    obtain ⟨tail, rfl⟩ := hread hinner
    exact ⟨tail, rfl⟩
  fun_induction codeFront quote line generalizing front with
  | case1 => cases h
  | case2 => cases h
  | case3 q d after ih =>
    obtain ⟨inner, hinner, rfl⟩ := map_eq_some_iff.mp h
    obtain ⟨tail, rfl⟩ := ih hinner
    exact ⟨tail, rfl⟩
  | case4 c rest hescape ih => exact push ih h
  | case5 c rest q hescape hquote ih => exact push ih h
  | case6 c rest hquote ih => exact push ih h
  | case7 c rest hquote hslash =>
    cases h
    simp only [Bool.and_eq_true, decide_eq_true_eq] at hslash
    exact ⟨rest, by rw [hslash.1]; rfl⟩
  | case8 c rest hquote hslash ih => exact push ih h

theorem endsInCode_trimRight (text : Text) : EndsInCode (trimRight text) := by
  intro c hc
  rw [trimRight, dropEndWhile, getLast?_reverse, mem_def] at hc
  cases hdrop : text.reverse.dropWhile isBlank with
  | nil =>
    rw [hdrop] at hc
    cases hc
  | cons d rest =>
    rw [hdrop] at hc
    cases hc
    exact of_dropWhile_eq_cons hdrop

theorem FollowsCode.of_blanks {blanks : Text} (hmore : FollowsCode more)
    (h : ∀ c ∈ blanks, isBlank c = true) : FollowsCode (blanks ++ more) := by
  cases blanks with
  | nil => exact hmore
  | cons c blanks =>
    intro d hd
    cases hd
    exact Or.inl (h c (by simp))

/-- The code of a line is the line up to blanks or a comment, without the blanks at its front. -/
theorem exists_codeOf_append (raw : Text) :
    ∃ more, trimLeft raw = codeOf raw ++ more ∧ FollowsCode more ∧ EndsInCode (codeOf raw) := by
  obtain ⟨blanks, hblanks, hall⟩ := exists_append_dropEndWhile isBlank (trimLeft raw)
  unfold codeOf dropLineComment
  have hnil : FollowsCode [] := fun c hc => by cases hc
  split
  · next front hfront =>
    obtain ⟨tail, htail⟩ := codeFront_eq_some hfront
    obtain ⟨gap, hgap, hgaps⟩ := exists_append_dropEndWhile isBlank front
    have hslash : FollowsCode ('/' :: (tail ++ blanks)) := by
      intro c hc
      cases hc
      exact Or.inr rfl
    refine ⟨gap ++ '/' :: (tail ++ blanks), ?_, hslash.of_blanks hgaps, endsInCode_trimRight front⟩
    calc
      trimLeft raw = trim raw ++ blanks := hblanks
      _ = front ++ '/' :: tail ++ blanks := by rw [htail]
      _ = trimRight front ++ gap ++ '/' :: tail ++ blanks := by rw [trimRight, ← hgap]
      _ = trimRight front ++ (gap ++ '/' :: (tail ++ blanks)) := by simp
  · exact ⟨blanks, hblanks, by simpa using hnil.of_blanks hall, endsInCode_trimRight _⟩

theorem FollowsCode.append (hmore : FollowsCode more) (hrest : FollowsCode rest) :
    FollowsCode (more ++ rest) := by
  cases more with
  | nil => exact hrest
  | cons c more => exact hmore

theorem followsCode_dropWhile (text : Text) :
    FollowsCode (text.dropWhile fun c => !isLineBreak c) := by
  intro c hc
  obtain ⟨rest, hrest⟩ := head?_eq_some_iff.mp hc
  have hbreak : isLineBreak c = true := by simpa using of_dropWhile_eq_cons hrest
  exact Or.inl (isBlank_of_isLineBreak hbreak)

/-- Code that reaches a character of its line is the front of the line from there on. -/
theorem exists_codeOf_drop {part tail : Text} (hc : isBlank c = false)
    (hne : (codeOf (part ++ c :: tail)).drop (trimLeft part).length ≠ []) :
    ∃ code more, codeOf (part ++ c :: tail) = trimLeft part ++ code ∧ c :: tail = code ++ more ∧
      EndsInCode code ∧ FollowsCode more := by
  obtain ⟨more, hmore, hfollows, hends⟩ := exists_codeOf_append (part ++ c :: tail)
  have htrim : trimLeft (part ++ c :: tail) = trimLeft part ++ c :: tail :=
    dropWhile_append_right (by simpa using hc) part
  rw [htrim] at hmore
  rcases append_eq_append_iff.mp hmore with ⟨code, hcode, hrest⟩ | ⟨inner, hinner, -⟩
  · exact ⟨code, more, hcode, hrest, hends.of_suffix (hcode ▸ suffix_append _ _), hfollows⟩
  · -- the code would end in front of the character
    rw [drop_eq_nil_of_le (by rw [hinner]; simp)] at hne
    exact absurd rfl hne

theorem depthAfter_of_openAfter {depth last : Nat}
    (h : openAfter depth line = some last) : depthAfter depth line = last := by
  have hcount := count_of_openAfter h
  unfold depthAfter
  omega

end SourceAtlas
