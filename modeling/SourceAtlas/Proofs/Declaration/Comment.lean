import SourceAtlas.Proofs.Declaration.Extent
import SourceAtlas.Proofs.Marker
import SourceAtlas.Proofs.Text.Lines

/-!
# A comment line in front of a text

A header that starts in a comment declares nothing, but it is passed over as a whole, and it may run
into the lines below. Everything else in a text is located as if the comment was not there.
-/

namespace SourceAtlas

open List

/-! ## Headers behind a front -/

theorem Dialect.typeHeaderAt?_newline (dialect : Dialect) (text : Text) :
    dialect.typeHeaderAt? (some '\n') text = dialect.typeHeaderAt? none text := by
  cases dialect <;> rfl

theorem headersFrom_newline (dialect : Dialect) (skip index : Nat) (text : Text) :
    headersFrom dialect skip (some '\n') index text = headersFrom dialect skip none index text := by
  cases text with
  | nil => rfl
  | cons c rest => rw [headersFrom, headersFrom, dialect.typeHeaderAt?_newline]

theorem headersFrom_shift (dialect : Dialect) (skip : Nat) (before : Option Char)
    (index count : Nat) (text : Text) :
    headersFrom dialect skip before (index + count) text =
      (headersFrom dialect skip before index text).map
        fun found => (found.1 + count, found.2.1 + count, found.2.2) := by
  induction text generalizing skip before index with
  | nil => rfl
  | cons c rest ih =>
    have hnext : index + count + 1 = index + 1 + count := by omega
    rw [headersFrom, headersFrom, hnext]
    split
    · exact ih _ _ _
    · split
      · simp only [ih, map_cons]
        congr 2
        simp only [Prod.mk.injEq, and_true]
        omega
      · exact ih _ _ _

/-- The headers of a text are those that start in its front and those behind it. The furthest of the
first reaches `left` characters behind the front, which the search passes over. -/
theorem headersFrom_append (dialect : Dialect) (skip : Nat) (before : Option Char) (index : Nat)
    (front text : Text) :
    ∃ found left, headersFrom dialect skip before index (front ++ text) =
        found ++ headersFrom dialect left (lastBefore before front) (index + front.length) text ∧
      skip - front.length ≤ left ∧
      (∀ entry ∈ found, entry.1 < index + front.length ∧
        entry.2.1 ≤ index + front.length + left) ∧
      (left = skip - front.length ∨
        ∃ entry ∈ found, entry.2.1 = index + front.length + left) := by
  induction front generalizing skip before index with
  | nil => exact ⟨[], skip, rfl, by simp, by simp, Or.inl (by simp)⟩
  | cons c front ih =>
    have hindex : index + (c :: front).length = index + 1 + front.length := by
      rw [length_cons]
      omega
    have hskip : skip - (c :: front).length = skip - 1 - front.length := by
      rw [length_cons]
      omega
    rw [hindex, hskip, lastBefore_cons, cons_append, headersFrom]
    split
    · exact ih (skip - 1) (some c) (index + 1)
    · next hnone =>
      have hzero : skip - 1 - front.length = 0 := by omega
      rw [hzero]
      split
      · next header hheader =>
        obtain ⟨found, left, heq, hleft, hfound, hlast⟩ :=
          ih ((c :: (front ++ text)).length - header.rest.length - 1) (some c) (index + 1)
        generalize (c :: (front ++ text)).length - header.rest.length = length at *
        refine ⟨(index, index + length, header) :: found, left, ?_, Nat.zero_le left, ?_, ?_⟩
        · simp only [heq, cons_append]
        · intro entry hentry
          rcases mem_cons.mp hentry with rfl | hentry
          · simp only
            omega
          · exact hfound entry hentry
        · -- the header found here may itself be the one that runs furthest
          rcases hlast with hlast | ⟨entry, hentry, hstop⟩
          · by_cases hreach : front.length < length
            · exact Or.inr ⟨_, mem_cons_self, by simp only; omega⟩
            · exact Or.inl (by omega)
          · exact Or.inr ⟨entry, mem_cons_of_mem _ hentry, hstop⟩
      · obtain ⟨found, left, heq, hleft, hfound, hlast⟩ := ih 0 (some c) (index + 1)
        rw [Nat.zero_sub] at hlast
        exact ⟨found, left, heq, Nat.zero_le left, hfound, hlast⟩

theorem headersFrom_apart {dialect : Dialect} {skip : Nat} {before : Option Char} {index : Nat}
    {text : Text} {first second : Nat × Nat × TypeHeader}
    (hfirst : first ∈ headersFrom dialect skip before index text)
    (hsecond : second ∈ headersFrom dialect skip before index text) (hne : first ≠ second) :
    first.2.1 ≤ second.1 ∨ second.2.1 ≤ first.1 := by
  have hpairwise := pairwise_iff_getElem.mp
    (pairwise_headersFrom dialect skip before index text)
  obtain ⟨i, hi, rfl⟩ := getElem_of_mem hfirst
  obtain ⟨j, hj, rfl⟩ := getElem_of_mem hsecond
  rcases Nat.lt_trichotomy i j with hlt | rfl | hlt
  · exact Or.inl (hpairwise i j hi hj hlt)
  · exact absurd rfl hne
  · exact Or.inr (hpairwise j i hj hi hlt)

/-! ## Lines and markers above -/

theorem afterLast_append (separator : Char) (front rest : Text) :
    afterLast separator (front ++ separator :: rest) = afterLast separator rest := by
  have hstop : ∀ text : Text, (text ++ separator :: front.reverse).takeWhile (· ≠ separator) =
      text.takeWhile (· ≠ separator) := by
    intro text
    induction text with
    | nil => simp
    | cons c text ih => by_cases hc : c = separator <;> simp_all
  simp only [afterLast, reverse_append, reverse_cons, append_assoc,
    singleton_append, hstop]

theorem afterLast_of_not_mem {separator : Char} {text : Text} (h : separator ∉ text) :
    afterLast separator text = text := by
  have hall : ∀ c ∈ text.reverse, decide (c ≠ separator) = true := by
    intro c hc
    rw [decide_eq_true_iff]
    rintro rfl
    exact h (mem_reverse.mp hc)
  rw [afterLast, takeWhile_eq_self_iff.mpr hall, reverse_reverse]

theorem length_afterLast_le (separator : Char) (text : Text) :
    (afterLast separator text).length ≤ text.length := by
  have hle := (List.takeWhile_prefix (· ≠ separator) (l := text.reverse)).length_le
  rw [length_reverse] at hle
  rwa [afterLast, length_reverse]

/-- A comment line at the far end of the lines above gives no markers. -/
theorem markerLinesAbove_append_comment {dialect : Dialect} {raw : Text}
    (hempty : (trim raw).isEmpty = false) (hcomment : dialect.isComment (trim raw) = true)
    (budget : Nat) (rows : List Text) :
    markerLinesAbove dialect budget (rows ++ [raw]) = markerLinesAbove dialect budget rows := by
  induction rows generalizing budget with
  | nil =>
    rcases budget with - | - | less <;> simp [markerLinesAbove, hempty, hcomment]
  | cons row rows ih =>
    cases budget with
    | zero => simp [markerLinesAbove]
    | succ less => simp only [cons_append, markerLinesAbove, ih]

/-! ## The comment -/

/-- A comment that takes up a line of its own. -/
structure LineComment where
  text : Text
  marked : "//".toList <+: text
  single : ∀ c ∈ text, isLineBreak c = false

def Declaration.shift (count : Nat) (declaration : Declaration) : Declaration :=
  { declaration with start := declaration.start + count, stop := declaration.stop + count }

/-- The declarations of a text whose first `skip` characters belong to an earlier header. -/
def declarationsBehind (dialect : Dialect) (skip : Nat) (text : Text) : List Declaration :=
  (headersFrom dialect skip none 0 text).filterMap (declarationAt? dialect text)

namespace LineComment

variable (comment : LineComment) (dialect : Dialect)

def above (text : Text) : Text :=
  comment.text ++ '\n' :: text

/-- A header that starts in the comment runs over the first `count` characters below it. -/
def RunsOver (text : Text) (count : Nat) : Prop :=
  ∃ entry ∈ headersFrom dialect 0 none 0 (comment.above text),
    entry.1 < comment.text.length ∧ entry.2.1 = comment.text.length + 1 + count

theorem exists_eq_cons : ∃ rest, comment.text = '/' :: '/' :: rest := by
  obtain ⟨rest, hrest⟩ := comment.marked
  exact ⟨rest, hrest.symm⟩

theorem isComment_trim :
    (trim comment.text).isEmpty = false ∧ dialect.isComment (trim comment.text) = true := by
  obtain ⟨rest, hrest⟩ := comment.exists_eq_cons
  have htrim : "//".toList <+: trim comment.text := by
    have hmark : "//".toList.getLast? = some '/' := rfl
    rw [hrest, trim, trimLeft_cons_of_not_blank (by decide)]
    exact prefix_trimRight hmark (by decide) rest
  have hmark : "//".toList ∈ dialect.commentMarks := by cases dialect <;> decide
  refine ⟨?_, any_eq_true.mpr ⟨_, hmark, startsWith_iff.mpr htrim⟩⟩
  obtain ⟨tail, htail⟩ := htrim
  rw [← htail]
  rfl

theorem startsStatement_eq_false (rest : Text) : dialect.startsStatement ('/' :: rest) = false := by
  have hpeel : dialect.peel ('/' :: rest) = ([], '/' :: rest) :=
    Dialect.peel_of_head? rfl (by decide) (by cases dialect <;> decide)
  have hblank : isBlankText ('/' :: rest) = false :=
    isBlankText_of_head? rfl (by decide)
  simp [Dialect.startsStatement, hpeel, hblank]

theorem declarationAt?_eq_none {text : Text} {start : Nat} (stop : Nat) (header : TypeHeader)
    (hpos : 0 < start) (hstart : start ≤ comment.text.length) :
    declarationAt? dialect (comment.above text) (start, stop, header) = none := by
  obtain ⟨rest, hrest⟩ := comment.exists_eq_cons
  have hfeed : '\n' ∉ comment.text := fun hmem =>
    absurd (comment.single '\n' hmem) (by decide)
  have hbefore : (comment.above text).take start = comment.text.take start :=
    take_append_of_le_length hstart
  have hline : afterLast '\n' (comment.text.take start) = '/' :: ('/' :: rest).take (start - 1) := by
    rw [afterLast_of_not_mem fun hmem => hfeed (mem_of_mem_take hmem), hrest,
      take_cons hpos]
  simp only [declarationAt?, hbefore, hline, startsStatement_eq_false, Bool.false_eq_true,
    if_false]

theorem declarationAt?_above (text : Text) (start stop : Nat) (header : TypeHeader) :
    declarationAt? dialect (comment.above text) (start + (comment.text.length + 1),
        stop + (comment.text.length + 1), header) =
      (declarationAt? dialect text (start, stop, header)).map
        (Declaration.shift (comment.text.length + 1)) := by
  have hbefore : (comment.above text).take (start + (comment.text.length + 1)) =
      comment.text ++ '\n' :: text.take start := by
    rw [above, show start + (comment.text.length + 1) = comment.text.length + (start + 1) by omega,
      take_length_add_append, take_succ_cons]
  have habove : ∀ sameLine : Text, sameLine.length ≤ (text.take start).length →
      (lines (dropEnd sameLine.length (comment.text ++ '\n' :: text.take start))) =
        comment.text :: lines (dropEnd sameLine.length (text.take start)) := by
    intro sameLine hle
    rw [← lines_append_newline comment.single]
    congr 1
    have hlength : (comment.text ++ '\n' :: text.take start).length - sameLine.length =
        comment.text.length + ((text.take start).length - sameLine.length + 1) := by
      rw [length_append, length_cons]
      omega
    rw [dropEnd, dropEnd, hlength, take_length_add_append, take_succ_cons]
  obtain ⟨hempty, hcomment⟩ := comment.isComment_trim dialect
  simp only [declarationAt?, hbefore, afterLast_append]
  split
  · simp only [declarationMarkers, habove _ (length_afterLast_le _ _), reverse_cons,
      markerLinesAbove_append_comment hempty hcomment, Option.map_some]
    rfl
  · rfl

/-- A header starts with a letter, so neither at the mark of the comment nor at its line feed. -/
theorem start_of_mem_headersFrom {text : Text} {start stop : Nat} {header : TypeHeader}
    (h : (start, stop, header) ∈ headersFrom dialect 0 none 0 (comment.above text))
    (hlt : start < comment.text.length + 1) : 0 < start ∧ start < comment.text.length := by
  obtain ⟨-, -, -, c, hc, hlower⟩ := headersFrom_bounds h
  obtain ⟨rest, hrest⟩ := comment.exists_eq_cons
  rw [Nat.sub_zero] at hc
  refine ⟨Nat.pos_of_ne_zero ?_, lt_of_le_of_ne (Nat.le_of_lt_succ hlt) ?_⟩
  · rintro rfl
    simp only [above, hrest, cons_append, getElem?_cons_zero, Option.some.injEq] at hc
    exact absurd hlower (hc ▸ by decide)
  · rintro rfl
    simp only [above, getElem?_append_right (le_refl _),
      Nat.sub_self, getElem?_cons_zero, Option.some.injEq] at hc
    exact absurd hlower (hc ▸ by decide)

theorem exists_locateDeclarations_above (text : Text) :
    ∃ left, locateDeclarations dialect (comment.above text) =
        (declarationsBehind dialect left text).map (·.shift (comment.text.length + 1)) ∧
      (left = 0 ∨ comment.RunsOver dialect text left) ∧
      ∀ count, comment.RunsOver dialect text count → count = left := by
  obtain ⟨found, left, heq, -, hfound, hlast⟩ :=
    headersFrom_append dialect 0 none 0 (comment.text ++ ['\n']) text
  have habove : comment.text ++ ['\n'] ++ text = comment.above text := by simp [above]
  have hlength : 0 + (comment.text ++ ['\n']).length = comment.text.length + 1 := by simp
  have hbefore : lastBefore none (comment.text ++ ['\n']) = some '\n' := by simp [lastBefore]
  rw [habove, hlength, hbefore, headersFrom_newline] at heq
  rw [hlength] at hfound hlast
  have hmem : ∀ {entry}, entry ∈ found →
      entry ∈ headersFrom dialect 0 none 0 (comment.above text) := by
    intro entry hentry
    rw [heq]
    exact mem_append_left _ hentry
  have hinside : ∀ entry ∈ found, 0 < entry.1 ∧ entry.1 < comment.text.length := by
    rintro ⟨start, stop, header⟩ hentry
    exact comment.start_of_mem_headersFrom dialect (hmem hentry) (hfound _ hentry).1
  have hnone : found.filterMap (declarationAt? dialect (comment.above text)) = [] := by
    rw [filterMap_eq_nil_iff]
    rintro ⟨start, stop, header⟩ hentry
    obtain ⟨hpos, hlt⟩ := hinside _ hentry
    exact comment.declarationAt?_eq_none dialect stop header hpos hlt.le
  have hshift : headersFrom dialect left none (comment.text.length + 1) text =
      (headersFrom dialect left none 0 text).map fun entry =>
        (entry.1 + (comment.text.length + 1), entry.2.1 + (comment.text.length + 1), entry.2.2) := by
    have hzero := headersFrom_shift dialect left none 0 (comment.text.length + 1) text
    rwa [Nat.zero_add] at hzero
  refine ⟨left, ?_, ?_, ?_⟩
  · rw [locateDeclarations, heq, filterMap_append, hnone, nil_append, hshift,
      filterMap_map, declarationsBehind, map_filterMap]
    apply filterMap_congr
    rintro ⟨start, stop, header⟩ -
    exact comment.declarationAt?_above dialect text start stop header
  · rcases hlast with hleft | ⟨entry, hentry, hstop⟩
    · exact Or.inl (by omega)
    · exact Or.inr ⟨entry, hmem hentry, (hinside entry hentry).2, hstop⟩
  · rintro count ⟨entry, hentry, hstart, hstop⟩
    have hcount : entry ∈ found := by
      rw [heq] at hentry
      refine (mem_append.mp hentry).resolve_right fun hlater => ?_
      obtain ⟨start, stop, header⟩ := entry
      have hbound := (headersFrom_bounds hlater).1
      simp only at hstart
      omega
    rcases hlast with hleft | ⟨furthest, hfurthest, hreach⟩
    · have hle := (hfound entry hcount).2
      omega
    · -- two headers of the comment cannot both reach the end of its line
      have hsame : entry = furthest := by
        by_contra hne
        have hapart := headersFrom_apart (hmem hcount) (hmem hfurthest) hne
        have hlt := (hinside furthest hfurthest).2
        omega
      subst hsame
      omega

/-- A comment without opening words has no header that could run over the text. -/
theorem not_runsOver (h : ∀ word ∈ dialect.openingWords, ¬ word <:+: comment.text) (text : Text)
    (count : Nat) : ¬ comment.RunsOver dialect text count := by
  rintro ⟨⟨start, stop, header⟩, hentry, hstart, -⟩
  obtain ⟨front, rest, hsplit, rfl, -, hheader, -⟩ := exists_of_mem_headersFrom hentry
  obtain ⟨-, -, word, hword, hprefix⟩ := Dialect.typeHeaderAt?_extent hheader
  apply h word hword
  have hlines : ∀ word ∈ dialect.openingWords, word.contains '\n' = false := by
    cases dialect <;> decide
  have hfeed : '\n' ∉ word := by simpa using hlines word hword
  rw [Nat.zero_add] at hstart
  obtain ⟨tail, htail, rfl⟩ : ∃ tail, comment.text = front ++ tail ∧ rest = tail ++ '\n' :: text := by
    rcases append_eq_append_iff.mp hsplit with ⟨lead, rfl, -⟩ | ⟨tail, htail, hrest⟩
    · simp only [length_append] at hstart
      omega
    · exact ⟨tail, htail, hrest⟩
  -- the word ends before the line feed
  have hword : word <+: tail := by
    by_cases hle : word.length ≤ tail.length
    · exact prefix_of_prefix_length_le hprefix (prefix_append _ _) hle
    · have hline : tail ++ ['\n'] <+: tail ++ '\n' :: text := ⟨text, by simp⟩
      have hlonger : tail ++ ['\n'] <+: word := by
        apply prefix_of_prefix_length_le hline hprefix
        rw [length_append, length_singleton]
        omega
      exact absurd (hlonger.subset (by simp)) hfeed
  rw [htail]
  exact hword.isInfix.trans (suffix_append front tail).isInfix

end LineComment

/-- A comment line in front of a text only moves the declarations, unless a header that starts in the
comment runs over some characters of the text: then those characters are not searched. A comment
without any of the words that open a declaration never runs over the text. -/
theorem locateDeclarations_below_comment (dialect : Dialect) (comment : LineComment) (text : Text) :
    ((∀ count, comment.RunsOver dialect text count → count = 0) →
      locateDeclarations dialect (comment.above text) =
        (locateDeclarations dialect text).map (·.shift (comment.text.length + 1))) ∧
    (∀ count, comment.RunsOver dialect text count →
      locateDeclarations dialect (comment.above text) =
        (declarationsBehind dialect count text).map (·.shift (comment.text.length + 1))) ∧
    ((∀ word ∈ dialect.openingWords, ¬ word <:+: comment.text) →
      ∀ count, ¬ comment.RunsOver dialect text count) := by
  obtain ⟨left, hlocate, hleft, hcount⟩ := comment.exists_locateDeclarations_above dialect text
  refine ⟨fun hnone => ?_, fun count hruns => ?_, fun h => comment.not_runsOver dialect h text⟩
  · obtain rfl : left = 0 := hleft.elim id (hnone left)
    exact hlocate
  · rw [hcount count hruns]
    exact hlocate

example : locateDeclarations .csharp "// keep this public\nclass Foo \x7b \x7d".toList = [] := by
  decide +kernel

end SourceAtlas
