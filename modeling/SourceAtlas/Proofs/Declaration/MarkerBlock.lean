import SourceAtlas.Member.Scan
import SourceAtlas.Proofs.Line.Comment
import SourceAtlas.Proofs.Marker.Followed
import SourceAtlas.Proofs.Text.Drawn

/-!
# Marker blocks above types and members

The lines of markers above a type and those above a member are collected by two walks. The walks agree
on lines without a comment behind their code. Above a member such a comment does not count; above a type
it ends the block, so the markers of its line and of all lines further up are lost.
-/

namespace SourceAtlas

open List

variable {dialect : Dialect} {row : Text} {rows : List Text}

/-! ## Lines without a comment behind their code -/

/-- Whether a line is a comment as a whole or has no comment behind its code. -/
def Dialect.isUncommented (dialect : Dialect) (row : Text) : Bool :=
  dialect.isComment (trim row) || codeOf row == trim row

theorem Dialect.isUncommented_codeOf (dialect : Dialect) (row : Text) :
    dialect.isUncommented (codeOf row) = true := by
  simp [isUncommented, codeOf_codeOf, trim_codeOf]

/-- A line that is neither blank nor a comment gives its markers to both walks, or ends both. -/
theorem Dialect.codeOf_of_isUncommented (h : dialect.isUncommented row = true)
    (hidle : ((trim row).isEmpty || dialect.isComment (trim row)) = false) :
    codeOf row = trim row := by
  rw [Bool.or_eq_false_iff] at hidle
  simpa [isUncommented, hidle.2] using h

theorem markerLinesAbove_eq_memberMarkerLines {budget : Nat} (hbudget : rows.length ≤ budget)
    (h : ∀ row ∈ rows, dialect.isUncommented row = true) :
    markerLinesAbove dialect budget rows = memberMarkerLines dialect rows := by
  induction rows generalizing budget with
  | nil => cases budget <;> rfl
  | cons row rows ih =>
    have hrows : ∀ row ∈ rows, dialect.isUncommented row = true :=
      fun other hmem => h other (by simp [hmem])
    rw [length_cons] at hbudget
    obtain ⟨less, rfl⟩ : ∃ less, budget = less + 1 := ⟨budget - 1, by omega⟩
    have hidle := dialect.isEmpty_or_isComment_codeOf row
    rw [markerLinesAbove, memberMarkerLines]
    simp only [hidle]
    by_cases hempty : (trim row).isEmpty = true
    · simp only [hempty, Bool.true_or, if_true]
      exact ih (by omega) hrows
    · by_cases hcomment : dialect.isComment (trim row) = true
      · simp only [hempty, hcomment, Bool.or_true, if_true, Bool.false_eq_true, if_false]
        exact ih (by omega) hrows
      · have hcode := Dialect.codeOf_of_isUncommented (h row (by simp))
          (by simp [hempty, hcomment])
        simp only [hempty, hcomment, Bool.or_false, Bool.false_eq_true, if_false, hcode,
          ih (by omega : rows.length ≤ less) hrows]

theorem memberMarkerLines_map_codeOf (dialect : Dialect) (rows : List Text) :
    memberMarkerLines dialect (rows.map codeOf) = memberMarkerLines dialect rows := by
  induction rows with
  | nil => rfl
  | cons row rows ih => simp only [map_cons, memberMarkerLines, codeOf_codeOf, ih]

/-- Above a member the comments behind the code of a line do not count. -/
theorem memberMarkersAbove_map_codeOf (dialect : Dialect) (rows : List Text) :
    memberMarkersAbove dialect (rows.map codeOf) = memberMarkersAbove dialect rows := by
  rw [memberMarkersAbove, ← map_take, memberMarkerLines_map_codeOf, memberMarkersAbove]

theorem declarationMarkers_joinLines (dialect : Dialect)
    (h : ∀ row ∈ rows, ∀ c ∈ row, isLineBreak c = false) :
    declarationMarkers dialect (joinLines rows) [] =
      (markerLinesAbove dialect declarationLookback rows.reverse).reverse.flatten := by
  rw [declarationMarkers, lines_joinLines h, dialect.peel_nil, append_nil]
  rfl

theorem declarationMarkers_eq_memberMarkersAbove (hlength : rows.length ≤ declarationLookback)
    (hbreak : ∀ row ∈ rows, ∀ c ∈ row, isLineBreak c = false)
    (h : ∀ row ∈ rows, dialect.isUncommented row = true) :
    declarationMarkers dialect (joinLines rows) [] = memberMarkersAbove dialect rows.reverse := by
  have hwindow : rows.reverse.take memberLookback = rows.reverse := by
    apply take_of_length_le
    rw [length_reverse]
    exact hlength.trans (by decide)
  rw [declarationMarkers_joinLines dialect hbreak, memberMarkersAbove, hwindow,
    markerLinesAbove_eq_memberMarkerLines (by rwa [length_reverse])
      fun row hrow => h row (mem_reverse.mp hrow)]

/-! ## Markers with a comment behind them -/

/-- Whether a line holds markers, nothing else, and a comment behind them. -/
def Dialect.hasCommentedMarkers (dialect : Dialect) (row : Text) : Bool :=
  codeOf row != trim row && !(dialect.peel (codeOf row)).1.isEmpty &&
    (dialect.peel (codeOf row)).2.isEmpty

theorem isDottedWord_eq_false_of_followsCode {more : Text} (h : FollowsCode more) :
    ∀ c ∈ more.head?, isDottedWord c = false := by
  intro c hc
  have hdot : c ≠ '.' := by
    rintro rfl
    rcases h _ hc with hblank | hslash
    · exact absurd hblank (by decide)
    · exact absurd hslash (by decide)
  simp [isDottedWord, hdot, h.isWord_eq_false c hc]

/-- What is left of a line of markers with a comment behind them is the comment. -/
theorem Dialect.peel_of_hasCommentedMarkers (h : dialect.hasCommentedMarkers row = true) :
    (trim row).head? = some dialect.markerSign ∧ (dialect.peel (trim row)).2 ≠ [] := by
  simp only [hasCommentedMarkers, Bool.and_eq_true, bne_iff_ne, Bool.not_eq_true',
    isEmpty_eq_false_iff, List.isEmpty_iff] at h
  obtain ⟨⟨hne, hmarkers⟩, hrest⟩ := h
  rcases codeOf_cases row with heq | ⟨front, tail, -, heq, htrim⟩
  · exact absurd heq hne
  · obtain ⟨gap, hgap, hblanks⟩ := exists_append_dropEndWhile isBlank front
    have hrow : trim row = codeOf row ++ (gap ++ '/' :: tail) := by
      rw [htrim, heq, trimRight, ← append_assoc, ← hgap]
    have hslash : trimLeft (gap ++ '/' :: tail) = '/' :: tail := by
      rw [trimLeft_append_of_blanks hblanks]
      exact trimLeft_cons_of_not_blank (by decide) _
    have hfollows : FollowsCode (gap ++ '/' :: tail) := by
      refine FollowsCode.of_blanks ?_ hblanks
      intro c hc
      cases hc
      exact .inr rfl
    have hdetached : Detached (gap ++ '/' :: tail) := by
      refine ⟨isDottedWord_eq_false_of_followsCode hfollows, ?_⟩
      rw [hslash, head?_cons]
      decide
    have hsign : (trimLeft (gap ++ '/' :: tail)).head? ≠ some dialect.markerSign := by
      rw [hslash, head?_cons]
      cases dialect <;> decide
    constructor
    · have hhead := head?_of_peel hmarkers
      rw [trimLeft_eq_self fun c hc => isBlank_of_head?_codeOf hc] at hhead
      rw [hrow, head?_append, hhead, Option.some_or]
    · rw [hrow, peel_followed hdetached hsign (Prod.ext rfl hrest), hslash]
      exact cons_ne_nil _ _

theorem markerLinesAbove_of_hasCommentedMarkers (h : dialect.hasCommentedMarkers row = true)
    (budget : Nat) (rows : List Text) : markerLinesAbove dialect budget (row :: rows) = [] := by
  obtain ⟨hhead, hrest⟩ := dialect.peel_of_hasCommentedMarkers h
  have hempty : (trim row).isEmpty = false := by
    cases htrim : trim row with
    | nil =>
      rw [htrim] at hhead
      cases hhead
    | cons c tail => rfl
  have hcomment : dialect.isComment (trim row) = false := by
    apply dialect.isComment_of_head? hhead
    cases dialect <;> decide
  cases budget with
  | zero => rfl
  | succ less =>
    rw [markerLinesAbove]
    simp [hempty, hcomment, hrest]

theorem markerLinesAbove_append (hrow : ∀ budget, markerLinesAbove dialect budget (row :: rows) = [])
    (budget : Nat) (top : List Text) :
    markerLinesAbove dialect budget (top ++ row :: rows) = markerLinesAbove dialect budget top := by
  induction top generalizing budget with
  | nil =>
    rw [nil_append, hrow]
    cases budget <;> rfl
  | cons first top ih =>
    cases budget with
    | zero => rfl
    | succ less => simp only [cons_append, markerLinesAbove, ih]

/-- The two walks over the lines above a type or a member. They agree on what the lines hold in front of
comments, so on lines without a comment behind their code they agree. A comment behind the markers of a
line ends the walk for a type and changes nothing for a member. -/
theorem declarationMarkers_and_memberMarkersAbove (dialect : Dialect) {rows : List Text}
    (hlength : rows.length ≤ 10) (hbreak : ∀ row ∈ rows, ∀ c ∈ row, isLineBreak c = false) :
    declarationMarkers dialect (joinLines (rows.map codeOf)) [] =
        memberMarkersAbove dialect rows.reverse ∧
      ((∀ row ∈ rows, dialect.isUncommented row = true) →
        declarationMarkers dialect (joinLines rows) [] = memberMarkersAbove dialect rows.reverse) ∧
      ∀ front row back, rows = front ++ row :: back → dialect.hasCommentedMarkers row = true →
        declarationMarkers dialect (joinLines rows) [] =
            declarationMarkers dialect (joinLines back) [] ∧
          memberMarkersAbove dialect rows.reverse =
            memberMarkersAbove dialect (front ++ codeOf row :: back).reverse := by
  refine ⟨?_, declarationMarkers_eq_memberMarkersAbove hlength hbreak, ?_⟩
  · rw [← memberMarkersAbove_map_codeOf, map_reverse]
    apply declarationMarkers_eq_memberMarkersAbove
    · rwa [length_map]
    · intro code hcode c hc
      obtain ⟨row, hrow, rfl⟩ := mem_map.mp hcode
      exact hbreak row hrow c (trim_subset row ((prefix_codeOf_trim row).subset hc))
    · intro code hcode
      obtain ⟨row, -, rfl⟩ := mem_map.mp hcode
      exact dialect.isUncommented_codeOf row
  · rintro front row back rfl hrow
    constructor
    · rw [declarationMarkers_joinLines dialect hbreak, declarationMarkers_joinLines dialect
        fun other hmem => hbreak other (by simp [hmem]), reverse_append, reverse_cons,
        append_assoc, singleton_append,
        markerLinesAbove_append fun budget => markerLinesAbove_of_hasCommentedMarkers hrow budget _]
    · rw [← memberMarkersAbove_map_codeOf, ← memberMarkersAbove_map_codeOf dialect
        (front ++ codeOf row :: back).reverse]
      simp [codeOf_codeOf]

def upperRows : List Text :=
  ["[Route(\"api\")]", "  // the entry point"].map String.toList

def commentedRow : Text :=
  "[ApiController] // since 2.0".toList

theorem markers_below_upperRows :
    (∀ row ∈ upperRows, Dialect.csharp.isUncommented row = true) ∧
    declarationMarkers .csharp (joinLines upperRows) [] =
      memberMarkersAbove .csharp upperRows.reverse ∧
    Dialect.csharp.hasCommentedMarkers commentedRow = true ∧
    declarationMarkers .csharp (joinLines (upperRows ++ [commentedRow])) [] =
      declarationMarkers .csharp (joinLines []) [] ∧
    memberMarkersAbove .csharp (upperRows ++ [commentedRow]).reverse =
      memberMarkersAbove .csharp (upperRows ++ ["[ApiController]".toList]).reverse := by
  have hplain : ∀ row ∈ upperRows, Dialect.csharp.isUncommented row = true :=
    all_eq_true.mp (by decide +kernel)
  have hbreak : ∀ row ∈ upperRows ++ [commentedRow], ∀ c ∈ row, isLineBreak c = false :=
    unbroken_of_all (by decide +kernel)
  have hcode : codeOf commentedRow = "[ApiController]".toList := by decide +kernel
  have hpeel : Dialect.csharp.peel "[ApiController]".toList =
      ([⟨"ApiController".toList, .listed [], "ApiController".toList⟩], []) :=
    Dialect.peel_of_readMarkers? (by decide +kernel)
  have hcommented : Dialect.csharp.hasCommentedMarkers commentedRow = true := by
    unfold Dialect.hasCommentedMarkers
    rw [hcode, hpeel]
    decide +kernel
  obtain ⟨-, hagree, -⟩ := declarationMarkers_and_memberMarkersAbove .csharp
    (by decide : upperRows.length ≤ 10) fun row hrow => hbreak row (mem_append_left _ hrow)
  obtain ⟨-, -, hlost⟩ := declarationMarkers_and_memberMarkersAbove .csharp
    (by decide : (upperRows ++ [commentedRow]).length ≤ 10) hbreak
  obtain ⟨htype, hmember⟩ := hlost upperRows commentedRow [] rfl hcommented
  rw [hcode] at hmember
  exact ⟨hplain, hagree hplain, hcommented, htype, hmember⟩

end SourceAtlas
