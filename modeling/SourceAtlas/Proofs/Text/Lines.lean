import SourceAtlas.Proofs.Text.Basic

/-!
# Lines
-/

namespace SourceAtlas

open List

variable {c : Char} {line : Text} {rows : List Text}

theorem linesFrom_nil (current : Text) :
    linesFrom current [] = if current.isEmpty then [] else [current.reverse] :=
  rfl

theorem linesFrom_return (current rest : Text) :
    linesFrom current ('\r' :: '\n' :: rest) = current.reverse :: linesFrom [] rest :=
  rfl

/-- A line feed behind a carriage return apart, a character ends the line at hand or joins it. -/
theorem linesFrom_cons {text : Text} (h : c = '\r' → text.head? ≠ some '\n') (current : Text) :
    linesFrom current (c :: text) =
      if isLineBreak c then current.reverse :: linesFrom [] text
      else linesFrom (c :: current) text := by
  rw [linesFrom.eq_def]
  split
  · rename_i hnil
    cases hnil
  · rename_i rest hreturn
    cases hreturn
    exact absurd rfl (h rfl)
  · rename_i hrest
    cases hrest
    rfl

/-- Reading goes on inside the line at hand up to the next line break. -/
theorem linesFrom_append (h : ∀ c ∈ line, isLineBreak c = false) (current rest : Text) :
    linesFrom current (line ++ rest) = linesFrom (line.reverse ++ current) rest := by
  induction line generalizing current with
  | nil => rfl
  | cons c line ih =>
    have hc : isLineBreak c = false := h c (by simp)
    have hreturn : c = '\r' → (line ++ rest).head? ≠ some '\n' := by
      rintro rfl
      exact absurd hc (by decide)
    have hline : ∀ d ∈ line, isLineBreak d = false := fun d hd => h d (by simp [hd])
    rw [cons_append, linesFrom_cons hreturn]
    simp [hc, ih hline]

theorem linesFrom_newline (current rest : Text) :
    linesFrom current ('\n' :: rest) = current.reverse :: linesFrom [] rest := by
  rw [linesFrom_cons (fun h => absurd h (by decide))]
  simp [isLineBreak]

theorem linesFrom_append_newline (current front rest : Text) :
    linesFrom current (front ++ '\n' :: rest) =
      linesFrom current (front ++ ['\n']) ++ linesFrom [] rest := by
  fun_induction linesFrom current front with
  | case1 current hempty => simp [linesFrom_newline, linesFrom_nil]
  | case2 current hempty => simp [linesFrom_newline, linesFrom_nil]
  | case3 current front ih => simp [linesFrom_return, ih]
  | case4 current c front hfeed hbreak ih =>
    by_cases hreturn : c = '\r' ∧ front = []
    · obtain ⟨rfl, rfl⟩ := hreturn
      simp [linesFrom_return, linesFrom_nil]
    · have hhead : ∀ text : Text, c = '\r' → (front ++ text).head? ≠ some '\n' := by
        intro text hc hfeed'
        cases front with
        | nil => exact hreturn ⟨hc, rfl⟩
        | cons d front => exact hfeed front hc (by simpa using hfeed')
      rw [cons_append, cons_append, linesFrom_cons (hhead _),
        linesFrom_cons (hhead _), if_pos hbreak, if_pos hbreak, ih, cons_append]
  | case5 current c front hfeed hbreak ih =>
    have hreturn : ∀ text : Text, c = '\r' → text.head? ≠ some '\n' := by
      rintro text rfl
      exact absurd rfl hbreak
    rw [cons_append, cons_append, linesFrom_cons (hreturn _),
      linesFrom_cons (hreturn _), if_neg hbreak, if_neg hbreak, ih]

theorem lines_split (front rest : Text) :
    lines (front ++ '\n' :: rest) = lines (front ++ ['\n']) ++ lines rest :=
  linesFrom_append_newline [] front rest

theorem lines_append_newline (h : ∀ c ∈ line, isLineBreak c = false) (rest : Text) :
    lines (line ++ '\n' :: rest) = line :: lines rest := by
  rw [lines, linesFrom_append h, linesFrom_newline]
  simp [lines]

theorem lines_of_unbroken (h : ∀ c ∈ line, isLineBreak c = false) (hne : line ≠ []) :
    lines line = [line] := by
  have hlines := linesFrom_append h [] []
  rw [append_nil, append_nil, linesFrom_nil] at hlines
  rw [lines, hlines]
  simp [hne]

theorem exists_linesFrom_cons {current : Text} (hne : current ≠ []) (text : Text) :
    ∃ below, linesFrom current text =
      (current.reverse ++ text.takeWhile fun c => !isLineBreak c) :: below := by
  induction text generalizing current with
  | nil => exact ⟨[], by simp [linesFrom_nil, hne]⟩
  | cons c text ih =>
    by_cases hfeed : c = '\r' ∧ text.head? = some '\n'
    · obtain ⟨rfl, hhead⟩ := hfeed
      obtain ⟨rest, rfl⟩ : ∃ rest, text = '\n' :: rest := by
        cases text with
        | nil => cases hhead
        | cons d text => exact ⟨text, by rw [Option.some.inj hhead]⟩
      exact ⟨linesFrom [] rest, by simp [linesFrom_return, isLineBreak]⟩
    · rw [linesFrom_cons fun hc hhead => hfeed ⟨hc, hhead⟩]
      cases hbreak : isLineBreak c with
      | true => exact ⟨linesFrom [] text, by simp [hbreak]⟩
      | false =>
        obtain ⟨below, hbelow⟩ := ih (cons_ne_nil c current)
        exact ⟨below, by simp [hbreak, hbelow]⟩

/-- The lines above a character and the front of its own line depend on nothing that follows. -/
theorem exists_linesFrom_append (current front : Text) :
    ∃ above part, part <:+ current.reverse ++ front ∧
      ∀ c rest, isLineBreak c = false →
        linesFrom current (front ++ c :: rest) = above ++ linesFrom part.reverse (c :: rest) := by
  fun_induction linesFrom current front with
  | case1 current hempty =>
    rw [List.isEmpty_iff.mp hempty]
    exact ⟨[], [], suffix_rfl, fun c rest hc => rfl⟩
  | case2 current hempty => exact ⟨[], current.reverse, by simp, by simp⟩
  | case3 current front ih =>
    obtain ⟨above, part, hpart, hlines⟩ := ih
    refine ⟨current.reverse :: above, part, ?_, ?_⟩
    · exact hpart.trans ⟨current.reverse ++ ['\r', '\n'], by simp⟩
    · intro c rest hc
      simp [linesFrom_return, hlines c rest hc]
  | case4 current c front hfeed hbreak ih =>
    obtain ⟨above, part, hpart, hlines⟩ := ih
    refine ⟨current.reverse :: above, part, ?_, ?_⟩
    · exact hpart.trans ⟨current.reverse ++ [c], by simp⟩
    · intro d rest hd
      have hhead : c = '\r' → (front ++ d :: rest).head? ≠ some '\n' := by
        rintro hc hfeed'
        cases front with
        | nil =>
          cases hfeed'
          exact absurd hd (by decide)
        | cons e front => exact hfeed front hc (by rw [Option.some.inj hfeed'])
      rw [cons_append, linesFrom_cons hhead, if_pos hbreak, hlines d rest hd,
        cons_append]
  | case5 current c front hfeed hbreak ih =>
    obtain ⟨above, part, hpart, hlines⟩ := ih
    refine ⟨above, part, by simpa using hpart, ?_⟩
    intro d rest hd
    have hreturn : c = '\r' → (front ++ d :: rest).head? ≠ some '\n' := by
      rintro rfl
      exact absurd rfl hbreak
    rw [cons_append, linesFrom_cons hreturn, if_neg hbreak, hlines d rest hd]

/-- The line of a character: the part in front of it belongs to the text before it, and the line goes on
up to the next line break. -/
theorem exists_line_at (hc : isLineBreak c = false) (front rest : Text) :
    ∃ above below part, part <:+ front ∧ lines (front ++ [c]) = above ++ [part ++ [c]] ∧
      lines (front ++ c :: rest) =
        above ++ (part ++ c :: rest.takeWhile fun d => !isLineBreak d) :: below := by
  obtain ⟨above, part, hpart, hlines⟩ := exists_linesFrom_append [] front
  have hnext : ∀ rest, linesFrom part.reverse (c :: rest) = linesFrom (c :: part.reverse) rest := by
    intro rest
    have hreturn : c = '\r' → rest.head? ≠ some '\n' := by
      rintro rfl
      exact absurd hc (by decide)
    rw [linesFrom_cons hreturn, hc, if_neg Bool.false_ne_true]
  obtain ⟨below, hbelow⟩ := exists_linesFrom_cons (cons_ne_nil c part.reverse) rest
  refine ⟨above, below, part, hpart, ?_, ?_⟩
  · rw [lines, hlines c [] hc, hnext]
    simp [linesFrom_nil]
  · rw [lines, hlines c rest hc, hnext, hbelow]
    simp

def joinLines (rows : List Text) : Text :=
  rows.flatMap (· ++ ['\n'])

theorem exists_joinLines_concat (hne : rows ≠ []) : ∃ front, joinLines rows = front ++ ['\n'] := by
  obtain ⟨others, row, rfl⟩ := (eq_nil_or_concat rows).resolve_left hne
  exact ⟨joinLines others ++ row, by simp [joinLines]⟩

theorem lines_joinLines_append (h : ∀ row ∈ rows, ∀ c ∈ row, isLineBreak c = false) (rest : Text) :
    lines (joinLines rows ++ rest) = rows ++ lines rest := by
  induction rows with
  | nil => rfl
  | cons row rows ih =>
    have hrow : ∀ c ∈ row, isLineBreak c = false := h row (by simp)
    have hrows : ∀ row ∈ rows, ∀ c ∈ row, isLineBreak c = false :=
      fun other hmem => h other (by simp [hmem])
    have hsplit : joinLines (row :: rows) ++ rest = row ++ '\n' :: (joinLines rows ++ rest) := by
      simp [joinLines]
    rw [hsplit, lines_append_newline hrow, ih hrows, cons_append]

theorem lines_joinLines (h : ∀ row ∈ rows, ∀ c ∈ row, isLineBreak c = false) :
    lines (joinLines rows) = rows := by
  have hlines := lines_joinLines_append h []
  simpa [lines, linesFrom_nil] using hlines

theorem unbroken_of_all (h : rows.all (·.all fun c => !isLineBreak c) = true) :
    ∀ row ∈ rows, ∀ c ∈ row, isLineBreak c = false := by
  intro row hrow c hc
  simpa using all_eq_true.mp (all_eq_true.mp h row hrow) c hc

end SourceAtlas
