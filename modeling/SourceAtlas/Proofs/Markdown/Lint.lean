import SourceAtlas.Markdown.Lint
import Mathlib.Data.List.TakeWhile

/-!
# What the linter keeps

The linter takes away blanks and blank lines only: the lines with something on them stay in their
order, without the blanks at their ends.
-/

namespace SourceAtlas

open List

theorem infix_joinWith {separator part : Text} {parts : List Text} (h : part ∈ parts) :
    part <:+: joinWith separator parts := by
  fun_induction joinWith separator parts with
  | case1 => exact absurd h not_mem_nil
  | case2 only =>
    obtain rfl := mem_singleton.mp h
    exact infix_rfl
  | case3 first rest _ ih =>
    rw [append_assoc]
    obtain rfl | hrest := mem_cons.mp h
    · exact (prefix_append ..).isInfix
    · have hsuffix := (suffix_append separator (joinWith separator rest)).trans
        (suffix_append first _)
      exact (ih hrest).trans hsuffix.isInfix

namespace Markdown

/-! ## One line at a time -/

def codeAfter (inCode : Bool) (lines : List Text) : Bool :=
  lines.foldl (fun inCode line => inCode ^^ togglesCode inCode line) inCode

@[simp] theorem codeAfter_nil (inCode : Bool) : codeAfter inCode [] = inCode := rfl

@[simp] theorem codeAfter_cons (inCode : Bool) (line : Text) (lines : List Text) :
    codeAfter inCode (line :: lines) = codeAfter (inCode ^^ togglesCode inCode line) lines := rfl

@[simp] theorem codeAfter_append (inCode : Bool) (front rest : List Text) :
    codeAfter inCode (front ++ rest) = codeAfter (codeAfter inCode front) rest :=
  foldl_append

def addition (inCode : Bool) (done : List Text) (line : Text) : List Text :=
  if togglesCode inCode line || inCode then [line]
  else if line.isEmpty then if needsBlank done then [[]] else []
  else if isHeading line then [] :: line :: if needsBlank done then [[]] else []
  else [line]

theorem layOut_cons (inCode : Bool) (done : List Text) (raw : Text) (rest : List Text) :
    layOut inCode done (raw :: rest) =
      layOut (inCode ^^ togglesCode inCode (trimRight raw))
        (addition inCode done (trimRight raw) ++ done) rest := by
  rw [layOut]
  unfold addition
  cases togglesCode inCode (trimRight raw) with
  | true => cases inCode <;> rfl
  | false =>
    cases inCode with
    | true => rfl
    | false =>
      cases (trimRight raw).isEmpty with
      | true => cases needsBlank done <;> rfl
      | false =>
        cases isHeading (trimRight raw) with
        | true => cases needsBlank done <;> rfl
        | false => rfl

theorem layOut_append (inCode : Bool) (done front rest : List Text) :
    layOut inCode done (front ++ rest) =
      layOut (codeAfter inCode (front.map trimRight)) (layOut inCode done front) rest := by
  induction front generalizing inCode done with
  | nil => rfl
  | cons raw front ih =>
    rw [cons_append, layOut_cons, ih, layOut_cons, map_cons, codeAfter_cons]

theorem exists_layOut_eq_append (inCode : Bool) (done lines : List Text) :
    ∃ more, layOut inCode done lines = more ++ done := by
  induction lines generalizing inCode done with
  | nil => exact ⟨[], rfl⟩
  | cons raw rest ih =>
    obtain ⟨more, hmore⟩ := ih (inCode ^^ togglesCode inCode (trimRight raw))
      (addition inCode done (trimRight raw) ++ done)
    refine ⟨more ++ addition inCode done (trimRight raw), ?_⟩
    rw [layOut_cons, hmore, append_assoc]

/-! ## The lines with something on them -/

def filled (lines : List Text) : List Text :=
  lines.filter fun line => !line.isEmpty

theorem filled_cons_nil (lines : List Text) : filled ([] :: lines) = filled lines := rfl

theorem filled_spaced (done : List Text) :
    filled (if needsBlank done then [] :: done else done) = filled done := by
  split
  · exact filled_cons_nil done
  · rfl

theorem reverse_filled_append_cons (line : Text) (lines done : List Text) :
    (filled lines).reverse ++ filled (line :: done) =
      (filled (line :: lines)).reverse ++ filled done := by
  unfold filled
  cases line <;> simp

theorem filled_layOut (inCode : Bool) (done lines : List Text) :
    filled (layOut inCode done lines) = (filled (lines.map trimRight)).reverse ++ filled done := by
  fun_induction layOut inCode done lines with
  | case1 inCode done => rfl
  | case2 inCode done raw rest line hcode ih =>
    exact ih.trans (reverse_filled_append_cons ..)
  | case3 done raw rest line hcode ih =>
    exact ih.trans (reverse_filled_append_cons ..)
  | case4 inCode done raw rest line hcode hinCode hempty ih =>
    have hblank : trimRight raw = [] := List.isEmpty_iff.mp hempty
    rw [ih, filled_spaced, map_cons, hblank, filled_cons_nil]
  | case5 inCode done raw rest line hcode hinCode hempty hheading ih =>
    rw [ih, filled_cons_nil, reverse_filled_append_cons, filled_spaced]
    rfl
  | case6 inCode done raw rest line hcode hinCode hempty hheading ih =>
    exact ih.trans (reverse_filled_append_cons ..)

theorem infix_lint {raw markdown : Text} (hraw : raw ∈ splitOn '\n' (unifyBreaks markdown))
    (hfilled : trimRight raw ≠ []) : trimRight raw <:+: lint markdown := by
  have hmem : trimRight raw ∈ filled (layOut false [] (splitOn '\n' (unifyBreaks markdown))) := by
    rw [filled_layOut, mem_append, mem_reverse]
    refine Or.inl (mem_filter.mpr ⟨mem_map_of_mem hraw, ?_⟩)
    simpa using hfilled
  unfold lint
  generalize layOut false [] (splitOn '\n' (unifyBreaks markdown)) = done at hmem ⊢
  have hkept : trimRight raw ∈ done.dropWhile (·.isEmpty) := by
    have hdone : trimRight raw ∈ done.takeWhile (·.isEmpty) ++ done.dropWhile (·.isEmpty) := by
      rw [takeWhile_append_dropWhile]
      exact (mem_filter.mp hmem).1
    refine (mem_append.mp hdone).resolve_left fun hblank => hfilled ?_
    exact List.isEmpty_iff.mp (mem_takeWhile_imp hblank)
  exact (infix_joinWith (mem_reverse.mpr hkept)).trans (prefix_append ..).isInfix

end Markdown

end SourceAtlas
