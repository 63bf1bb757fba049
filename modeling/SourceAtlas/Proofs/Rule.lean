import SourceAtlas.Rule
import SourceAtlas.Proofs.Text.Case
import SourceAtlas.Proofs.Text.Drawn

/-!
# Separators in rules

In a path and in a path pattern a backslash is as good as a slash, since both are compared with
forward slashes. A name pattern is compared as it is written, against a path without backslashes. So
a name pattern with a backslash matches nothing, and the kind of the separators matters to a rule
through such patterns only.
-/

namespace SourceAtlas

open List

variable {path pattern text : Text}

theorem notMem_forwardSlashes (text : Text) : '\\' ∉ forwardSlashes text := by
  intro h
  obtain ⟨c, -, hc⟩ := mem_map.mp h
  split at hc
  · cases hc
  · contradiction

theorem forwardSlashes_of_notMem (h : '\\' ∉ text) : forwardSlashes text = text := by
  have hkeep : ∀ c ∈ text, (if c = '\\' then '/' else c) = c := by
    intro c hc
    apply if_neg
    rintro rfl
    exact h hc
  exact (map_congr_left hkeep).trans (map_id text)

@[simp] theorem comparable_forwardSlashes (path : Text) :
    comparable (forwardSlashes path) = comparable path := by
  simp only [comparable, forwardSlashes_of_notMem (notMem_forwardSlashes path)]

theorem notMem_comparable (path : Text) : '\\' ∉ comparable path := by
  intro h
  exact notMem_forwardSlashes path (backslash_mem_lower_iff.mp h)

theorem pathMatches_forwardSlashes (path pattern : Text) :
    pathMatches (forwardSlashes path) (forwardSlashes pattern) = pathMatches path pattern := by
  simp only [pathMatches, comparable_forwardSlashes]

theorem nameMatches_of_backslash (h : '\\' ∈ pattern) (path : Text) :
    nameMatches path pattern = false := by
  have hblank : isBlank '\\' = false := by decide
  have hpattern : '\\' ∈ lower (trim pattern) := backslash_mem_lower_iff.mpr
    (mem_dropEndWhile_of_mem hblank (mem_dropWhile_of_mem hblank h))
  apply Bool.eq_false_iff.mpr
  intro hmatches
  have hoccurs := (Bool.and_eq_true_iff.mp hmatches).2
  exact notMem_comparable path (subset_of_occursIn hoccurs hpattern)

theorem nameMatches_forwardSlashes_path (path pattern : Text) :
    nameMatches (forwardSlashes path) pattern = nameMatches path pattern := by
  simp only [nameMatches, comparable_forwardSlashes]

/-- A name pattern as it takes effect: with a backslash it is as good as an empty one. -/
def effectiveName (pattern : Text) : Text :=
  if '\\' ∈ pattern then [] else pattern

theorem nameMatches_effectiveName (path pattern : Text) :
    nameMatches (forwardSlashes path) (forwardSlashes (effectiveName pattern)) =
      nameMatches path pattern := by
  unfold effectiveName
  split
  · next hbackslash => exact (nameMatches_of_backslash hbackslash path).symm
  · next hplain =>
    rw [forwardSlashes_of_notMem hplain, nameMatches_forwardSlashes_path]

namespace Rule

def withSlashes (rule : Rule) : Rule :=
  { rule with
    includePaths := rule.includePaths.map forwardSlashes
    excludePaths := rule.excludePaths.map forwardSlashes
    includeNames := rule.includeNames.map forwardSlashes
    excludeNames := rule.excludeNames.map forwardSlashes }

def effective (rule : Rule) : Rule :=
  { rule with
    includeNames := rule.includeNames.map effectiveName
    excludeNames := rule.excludeNames.map effectiveName }

theorem covers_effective (rule : Rule) (path extension : Text) :
    rule.effective.withSlashes.covers (forwardSlashes path) extension =
      rule.covers path extension := by
  simp only [covers, withSlashes, effective, any_map, Function.comp_def, isEmpty_map,
    pathMatches_forwardSlashes, nameMatches_effectiveName]

/-- Where every name pattern keeps its answer, the separators do not matter. -/
theorem covers_withSlashes_of_agree {rule : Rule} {path : Text}
    (h : ∀ pattern ∈ rule.includeNames ++ rule.excludeNames,
      nameMatches (forwardSlashes path) (forwardSlashes pattern) = nameMatches path pattern)
    (extension : Text) :
    rule.withSlashes.covers (forwardSlashes path) extension = rule.covers path extension := by
  have hany : ∀ names ⊆ rule.includeNames ++ rule.excludeNames,
      (names.any fun pattern => nameMatches (forwardSlashes path) (forwardSlashes pattern)) =
        names.any (nameMatches path) := by
    intro names hnames
    rw [Bool.eq_iff_iff, any_eq_true, any_eq_true]
    apply exists_congr
    intro pattern
    apply and_congr_right
    intro hpattern
    rw [h pattern (hnames hpattern)]
  simp only [covers, withSlashes, any_map, Function.comp_def, isEmpty_map,
    pathMatches_forwardSlashes, hany _ (subset_append_left ..),
    hany _ (subset_append_right ..)]

/-- The separators of a path and of all patterns of a rule matter through name patterns only. A rule
works like the rule with forward slashes in which every name pattern with a backslash is empty. So
forward slashes everywhere either leave the answer as it is, or one of the name patterns has a
backslash and matches as soon as it is written with slashes. -/
theorem covers_separators (rule : Rule) (path extension : Text) :
    rule.covers path extension =
        rule.effective.withSlashes.covers (forwardSlashes path) extension ∧
      (rule.withSlashes.covers (forwardSlashes path) extension = rule.covers path extension ∨
        ∃ pattern ∈ rule.includeNames ++ rule.excludeNames, '\\' ∈ pattern ∧
          nameMatches path pattern = false ∧
          nameMatches (forwardSlashes path) (forwardSlashes pattern) = true) := by
  refine ⟨(covers_effective rule path extension).symm, ?_⟩
  by_contra hnot
  obtain ⟨hdiffers, hnone⟩ := not_or.mp hnot
  apply hdiffers
  apply covers_withSlashes_of_agree
  intro pattern hpattern
  by_cases hbackslash : '\\' ∈ pattern
  · have hmisses := nameMatches_of_backslash hbackslash path
    have hstill : nameMatches (forwardSlashes path) (forwardSlashes pattern) ≠ true :=
      fun hmatches => hnone ⟨pattern, hpattern, hbackslash, hmisses, hmatches⟩
    exact (Bool.eq_false_iff.mpr hstill).trans hmisses.symm
  · rw [forwardSlashes_of_notMem hbackslash, nameMatches_forwardSlashes_path]

example :
    let rule : Rule := ⟨"Api".toList, none, [], [], ["src\\api".toList], [], []⟩
    rule.covers "src\\api\\Home.cs".toList ".cs".toList = false ∧
      rule.withSlashes.covers "src/api/Home.cs".toList ".cs".toList = true := by
  decide +kernel

end Rule

end SourceAtlas
