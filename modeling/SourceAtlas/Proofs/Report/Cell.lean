import SourceAtlas.Proofs.Text.Drawn
import SourceAtlas.Report.Endpoints

/-!
# Cells of a table

Bars in a cell are escaped, so a row of a table splits at its other bars into the cells it was made
of, and undoing the escapes gives back what was put into them.
-/

namespace SourceAtlas.Report

open List

variable {text : Text} {before : Option Char} {c : Char}

/-- Whether a bar ends a cell: not right behind a backslash. -/
def endsCell (before : Option Char) (c : Char) : Bool :=
  c == '|' && before != some '\\'

/-- The parts of a row between the bars that end cells. `before` is the character in front of it. -/
def barCells (before : Option Char) : Text → List Text
  | [] => [[]]
  | c :: rest =>
    if endsCell before c then [] :: barCells (some c) rest
    else (barCells (some c) rest).modifyHead (c :: ·)

def freeBars (before : Option Char) : Text → Nat
  | [] => 0
  | c :: rest => (if endsCell before c then 1 else 0) + freeBars (some c) rest

def unescapeBars (text : Text) : Text :=
  replaceAll ['\\', '|'] ['|'] text

theorem length_barCells (before : Option Char) (text : Text) :
    (barCells before text).length = freeBars before text + 1 := by
  induction text generalizing before with
  | nil => rfl
  | cons c rest ih =>
    rw [barCells, freeBars]
    split
    · rw [length_cons, ih]
      omega
    · rw [length_modifyHead, ih]
      omega

/-! ## Escaping -/

theorem cell_cons_bar (rest : Text) : cell ('|' :: rest) = '\\' :: '|' :: cell rest := rfl

theorem cell_cons (hc : c ≠ '|') (rest : Text) : cell (c :: rest) = c :: cell rest := by
  have hstart : startsWith ['|'] (c :: rest) = false := by
    rw [startsWith, isPrefixOf_cons_cons, beq_eq_false_iff_ne.mpr hc.symm, Bool.false_and]
  unfold cell replaceAll
  rw [replaceFrom, if_neg (Nat.lt_irrefl 0), hstart]
  rfl

theorem cell_append (first second : Text) : cell (first ++ second) = cell first ++ cell second := by
  induction first with
  | nil => rfl
  | cons c rest ih =>
    by_cases hc : c = '|'
    · subst hc
      rw [cons_append, cell_cons_bar, ih, cell_cons_bar]
      rfl
    · rw [cons_append, cell_cons hc, ih, cell_cons hc]
      rfl

theorem cell_of_notMem (h : '|' ∉ text) : cell text = text := by
  induction text with
  | nil => rfl
  | cons c rest ih =>
    rw [mem_cons, not_or] at h
    rw [cell_cons (Ne.symm h.1), ih h.2]

theorem notMem_cell (hc : c ∉ text) (hescape : c ∉ ['\\', '|']) : c ∉ cell text := by
  intro hmem
  obtain hmem | hmem := mem_append.mp (replaceFrom_subset ['|'] ['\\', '|'] 0 text hmem)
  · exact hc hmem
  · exact hescape hmem

theorem head?_cell_ne_bar (text : Text) : (cell text).head? ≠ some '|' := by
  cases text with
  | nil => decide
  | cons c rest =>
    by_cases hc : c = '|'
    · subst hc
      rw [cell_cons_bar, head?_cons]
      decide
    · rw [cell_cons hc, head?_cons]
      exact fun heq => hc (Option.some.inj heq)

/-- An escaped text reads back: a bar in it always stands behind its own backslash. -/
theorem unescapeBars_cell (text : Text) : unescapeBars (cell text) = text := by
  induction text with
  | nil => rfl
  | cons c rest ih =>
    by_cases hc : c = '|'
    · subst hc
      rw [cell_cons_bar]
      exact congrArg ('|' :: ·) ih
    · -- A backslash of the text itself is no escape, since a cell never starts with a bar.
      have hstart : startsWith ['\\', '|'] (c :: cell rest) = false := by
        rw [startsWith, isPrefixOf_cons_cons, Bool.and_eq_false_iff]
        right
        rw [Bool.eq_false_iff]
        intro hbar
        obtain ⟨tail, htail⟩ := isPrefixOf_iff_prefix.mp hbar
        exact head?_cell_ne_bar rest (htail ▸ rfl)
      rw [cell_cons hc]
      unfold unescapeBars replaceAll
      rw [replaceFrom, if_neg (Nat.lt_irrefl 0), hstart]
      exact congrArg (c :: ·) ih

theorem isBlank_of_head?_cell (hhead : ∀ d, text.head? = some d → isBlank d = false)
    (h : (cell text).head? = some c) : isBlank c = false := by
  cases text with
  | nil => cases h
  | cons d rest =>
    by_cases hd : d = '|'
    · subst hd
      obtain rfl := Option.some.inj h
      decide
    · rw [cell_cons hd] at h
      exact hhead c h

theorem getLast?_cell (text : Text) : (cell text).getLast? = text.getLast? := by
  cases hlast : text.getLast? with
  | none =>
    rw [getLast?_eq_none_iff.mp hlast]
    rfl
  | some d =>
    obtain ⟨front, rfl⟩ := getLast?_eq_some_iff.mp hlast
    rw [cell_append]
    by_cases hd : d = '|'
    · subst hd
      rw [cell_cons_bar, getLast?_append]
      rfl
    · rw [cell_cons hd, getLast?_append]
      rfl

theorem trim_cell (h : trim text = text) : trim (cell text) = cell text := by
  cases hlast : text.getLast? with
  | none =>
    rw [getLast?_eq_none_iff.mp hlast]
    rfl
  | some d =>
    have hd : isBlank d = false := isBlank_of_mem_getLast?_trim (h.symm ▸ hlast)
    have hcell : (cell text).getLast? = some d := (getLast?_cell text).trans hlast
    obtain ⟨front, hfront⟩ := getLast?_eq_some_iff.mp hcell
    obtain ⟨c, hc⟩ : ∃ c, (cell text).head? = some c := by
      rw [hfront]
      cases front with
      | nil => exact ⟨d, rfl⟩
      | cons c front => exact ⟨c, rfl⟩
    refine trim_of_ends hc (isBlank_of_head?_cell (fun e he => ?_) hc) hcell hd
    exact isBlank_of_mem_head?_trim (h.symm ▸ he)

/-! ## Rows -/

/-- A row with the given cells: a bar, and behind each cell another one. -/
def rowOf (parts : List Text) : Text :=
  '|' :: parts.flatMap fun part => ' ' :: (cell part ++ [' ', '|'])

theorem barCells_bar (hbefore : before ≠ some '\\') (rest : Text) :
    barCells before ('|' :: rest) = [] :: barCells (some '|') rest := by
  have hends : endsCell before '|' = true := by
    simp [endsCell, hbefore]
  rw [barCells, if_pos hends]

theorem barCells_cons (h : c ≠ '|' ∨ before = some '\\')
    (rest : Text) : barCells before (c :: rest) = (barCells (some c) rest).modifyHead (c :: ·) := by
  have hends : ¬endsCell before c = true := by
    simp only [endsCell, Bool.and_eq_true, beq_iff_eq, bne_iff_ne, not_and, not_not]
    exact fun hc => h.resolve_left (fun hne => hne hc)
  rw [barCells, if_neg hends]

theorem barCells_cell (before : Option Char) (text rest : Text) :
    barCells before (cell text ++ ' ' :: rest) =
      (barCells (some ' ') rest).modifyHead (fun first => cell text ++ ' ' :: first) := by
  induction text generalizing before with
  | nil => exact barCells_cons (Or.inl (by decide)) rest
  | cons c text ih =>
    by_cases hc : c = '|'
    · -- the backslash is passed first and stands in front of the bar
      subst hc
      rw [cell_cons_bar, cons_append, cons_append, barCells_cons (Or.inl (by decide)),
        barCells_cons (Or.inr rfl), ih, modifyHead_modifyHead, modifyHead_modifyHead]
      rfl
    · rw [cell_cons hc, cons_append, barCells_cons (Or.inl hc), ih, modifyHead_modifyHead]
      rfl

theorem barCells_flatMap (before : Option Char) (parts : List Text) :
    barCells before (parts.flatMap fun part => ' ' :: (cell part ++ [' ', '|'])) =
      parts.map (fun part => ' ' :: (cell part ++ [' '])) ++ [[]] := by
  induction parts generalizing before with
  | nil => rfl
  | cons part parts ih =>
    rw [flatMap_cons, cons_append, append_assoc, cons_append, cons_append,
      nil_append, barCells_cons (Or.inl (by decide)), barCells_cell, barCells_bar (by decide), ih]
    rfl

theorem barCells_rowOf (parts : List Text) :
    barCells none (rowOf parts) =
      [] :: (parts.map (fun part => ' ' :: (cell part ++ [' '])) ++ [[]]) := by
  rw [rowOf, barCells_bar (by decide), barCells_flatMap]

theorem freeBars_rowOf (parts : List Text) : freeBars none (rowOf parts) = parts.length + 1 := by
  have hlength := length_barCells none (rowOf parts)
  rw [barCells_rowOf, length_cons, length_append, length_map] at hlength
  exact (Nat.succ.inj hlength).symm

theorem map_barCells_rowOf {parts : List Text} (h : ∀ part ∈ parts, trim part = part) :
    (barCells none (rowOf parts)).map (fun text => unescapeBars (trim text)) =
      [] :: (parts ++ [[]]) := by
  have hblank : ∀ c ∈ [' '], isBlank c = true := by
    intro c hc
    rw [mem_singleton.mp hc]
    decide
  have hcell : ∀ part ∈ parts, unescapeBars (trim (' ' :: (cell part ++ [' ']))) = part := by
    intro part hpart
    have htrim : trim (' ' :: (cell part ++ [' '])) = trim (cell part) := by
      rw [← singleton_append, trim_blanks_append hblank, trim_append_of_blanks hblank]
    rw [htrim, trim_cell (h part hpart), unescapeBars_cell]
  rw [barCells_rowOf, map_cons, map_append, map_map]
  refine congrArg₂ List.cons rfl (congrArg₂ (· ++ ·) ?_ rfl)
  exact (map_congr_left hcell).trans (map_id' parts)

end SourceAtlas.Report
