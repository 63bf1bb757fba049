import SourceAtlas.Proofs.Markdown.Lint
import SourceAtlas.Proofs.Text.Split
import SourceAtlas.Proofs.Text.Words

/-!
# The linter keeps tables

A line between two bars is neither blank nor a heading nor the end of a code block, and it has no
blanks at its end. So the linter keeps a block of such lines at the end of a document, whatever
stands in front of it.
-/

namespace SourceAtlas.Markdown

open List

/-- A single line between two bars. -/
structure IsTableLine (line : Text) : Prop where
  head : line.head? = some '|'
  last : line.getLast? = some '|'
  noFeed : '\n' ∉ line
  noReturn : '\r' ∉ line

variable {line front : Text} {inCode : Bool} {done block rest : List Text}

theorem layOut_tableLine (h : IsTableLine line) :
    layOut inCode done (line :: rest) = layOut inCode (line :: done) rest := by
  have htrim : trimRight line = line := trimRight_of_getLast? h.last (by decide)
  obtain ⟨tail, rfl⟩ := head?_eq_some_iff.mp h.head
  have htoggles : togglesCode inCode ('|' :: tail) = false := by
    cases inCode <;> rfl
  have hheading : isHeading ('|' :: tail) = false := rfl
  rw [layOut, htrim, htoggles, hheading]
  cases inCode <;> rfl

theorem layOut_block (h : ∀ line ∈ block, IsTableLine line) :
    layOut inCode done block = block.reverse ++ done := by
  induction block generalizing done with
  | nil => rfl
  | cons line rest ih =>
    rw [forall_mem_cons] at h
    rw [layOut_tableLine h.1, ih h.2, reverse_cons, append_assoc, singleton_append]

/-- The last line of a table is not blank, so no line is dropped from the end. -/
theorem dropWhile_isEmpty_block (hne : block ≠ []) (h : ∀ line ∈ block, IsTableLine line)
    (done : List Text) :
    (block.reverse ++ done).dropWhile (·.isEmpty) = block.reverse ++ done := by
  obtain ⟨line, others, hreverse⟩ := exists_cons_of_ne_nil (reverse_ne_nil_iff.mpr hne)
  have hline : IsTableLine line := h line (mem_reverse.mp (hreverse ▸ mem_cons_self))
  obtain ⟨tail, rfl⟩ := head?_eq_some_iff.mp hline.head
  rw [hreverse]
  rfl

theorem exists_splitOn_lint (front : Text) (hne : block ≠ []) (h : ∀ line ∈ block, IsTableLine line) :
    ∃ lead, splitOn '\n' (lint (front ++ '\n' :: joinWith ['\n'] block)) = lead ++ block ++ [[]] := by
  have hfeed : ∀ line ∈ block, '\n' ∉ line := fun line hline => (h line hline).noFeed
  have hreturn : '\r' ∉ joinWith ['\n'] block :=
    notMem_joinWith (by decide) fun line hline => (h line hline).noReturn
  obtain ⟨unified, hunified⟩ := exists_unifyBreaks_append front (joinWith ['\n'] block)
  rw [unifyBreaks_of_notMem hreturn] at hunified
  have hlint : lint (front ++ '\n' :: joinWith ['\n'] block) =
      joinWith ['\n'] ((layOut false [] (splitOn '\n' unified)).reverse ++ block) ++ ['\n'] := by
    unfold lint
    dsimp only
    rw [hunified, splitOn_append_cons, splitOn_joinWith_of_notMem hne hfeed, layOut_append, layOut_block h,
      dropWhile_isEmpty_block hne h, reverse_append, reverse_reverse]
  rw [hlint, splitOn_append_cons]
  -- Without lines in front of the block there is no line feed in front of it either.
  generalize (layOut false [] (splitOn '\n' unified)).reverse = lead
  by_cases hlead : lead = []
  · refine ⟨[], ?_⟩
    rw [hlead, nil_append, splitOn_joinWith_of_notMem hne hfeed]
    rfl
  · refine ⟨splitOn '\n' (joinWith ['\n'] lead), ?_⟩
    rw [joinWith_append _ hlead hne, append_assoc, singleton_append, splitOn_append_cons,
      splitOn_joinWith_of_notMem hne hfeed]
    rfl

end SourceAtlas.Markdown
