import SourceAtlas.Proofs.CSharp.Rows
import SourceAtlas.Proofs.EnumConstant

/-!
# Scanning a written body

The lines of a member take the scan from depth zero back to depth zero and give the member, with the
marker above it. Run over all lines, the scan gives the members in the order they were written in,
and the constants of an enumeration line by line.
-/

namespace SourceAtlas.CSharp

/-! ## Lines without markers -/

theorem headerLine?_brace {c : Char} (hc : c = '{' ∨ c = '}') (below : List Text) :
    headerLine? .csharp false [c] below = none := by
  have hpeel : Dialect.csharp.peel [c] = ([], [c]) := by
    rcases hc with rfl | rfl <;> exact Dialect.peel_of_head? rfl (by decide) (by decide)
  have hcandidate : Dialect.csharp.isMemberCandidate [c] false = false := by
    rcases hc with rfl | rfl <;> decide
  simp [headerLine?, hpeel, hcandidate]

theorem VerbMarker.headerLine?_text (mark : VerbMarker) (below : List Text) :
    headerLine? .csharp false mark.text below = none := by
  simp [headerLine?, mark.peel_text]

namespace MemberSource

variable (member : MemberSource)

theorem head?_headerRow : member.headerRow.head? = some 'p' := by
  rw [headerRow_eq]
  rfl

theorem peel_headerRow : Dialect.csharp.peel member.headerRow = ([], member.headerRow) :=
  Dialect.peel_of_head? member.head?_headerRow (by decide) (by decide)

theorem isMemberCandidate_headerRow :
    Dialect.csharp.isMemberCandidate member.headerRow false = true := by
  have hpublic : dropHead? "public".toList member.headerRow =
      some (' ' :: ((member.type.expr.text ++ ' ' :: member.name.text) ++ member.ending)) :=
    dropHead?_eq_some_iff.mpr member.headerRow_eq
  have hspace : isWord ' ' = false := by decide
  refine List.any_eq_true.mpr ⟨"public".toList, by decide, ?_⟩
  simp only [hpublic, hspace, Bool.not_false]

theorem headerLine?_headerRow (below : List Text) :
    headerLine? .csharp false member.headerRow below = some ⟨member.headerRow, [], 0⟩ := by
  have hheader : Dialect.csharp.typeHeaderAt? none member.headerRow = none := by
    have hrow := member.typeHeaderAt?_headerRow none []
    rw [List.append_nil] at hrow
    exact hrow
  have htokens : Dialect.csharp.tokenize member.headerRow =
      some (member.readHeader member.terminator) := member.tokenize_headerRow
  have hclosed : ∀ start, (member.readHeader member.terminator).openParen = some start →
      (findParen member.headerRow start).isSome = true := by
    intro start hstart
    cases hform : member.form with
    | method mark parameters =>
      have hrow : member.headerRow =
          member.opening ++ '(' :: (parameterText parameters ++ [')']) := by
        simp [headerRow, ending, hform]
      obtain rfl : member.opening.length = start := by
        simpa [readHeader, terminator, hform] using hstart
      rw [hrow, member.findParen_method parameters]
      rfl
    | property => simp [readHeader, terminator, hform] at hstart
    | field => simp [readHeader, terminator, hform] at hstart
  simp only [headerLine?, peel_headerRow, member.isCodeLine_headerRow.isEmpty_eq_false,
    isMemberCandidate_headerRow, hheader, htokens]
  cases hparen : (member.readHeader member.terminator).openParen with
  | none => simp [hparen]
  | some start => simp [hparen, hclosed start hparen]

/-- What is reported of a member of the type `typeName`. -/
def report? (typeName : Text) : Option Member :=
  if isSuppressed typeName member.name.text then none else some member.summary

theorem lineMember?_headerRow (typeName : Text) {above : List Text} (below : List Text)
    (habove : memberMarkersAbove .csharp above = member.markers) :
    lineMember? .csharp typeName false ⟨member.headerRow, [], 0⟩ above below =
      member.report? typeName := by
  have hname : member.summary.name = member.name.text := rfl
  simp only [lineMember?, habove, List.append_nil, buildMember?_headerRow, Option.filter, hname,
    Bool.false_or, report?]
  cases isSuppressed typeName member.name.text <;> rfl

end MemberSource

/-! ## The lines of a member -/

section

variable (indent : Nat) (typeName : Text) {above below : List Text}

theorem membersFrom_headerRow (member : MemberSource)
    (habove : memberMarkersAbove .csharp above = member.markers) :
    membersFrom .csharp typeName false 0 above
        ((List.replicate indent ' ' ++ member.headerRow) :: below) =
      (member.report? typeName).toList ++ membersFrom .csharp typeName false 0
        ((List.replicate indent ' ' ++ member.headerRow) :: above) below := by
  have hcode := member.isCodeLine_headerRow
  rw [membersFrom_header hcode (hcode.codeOf_indented indent) (member.headerLine?_headerRow below),
    member.lineMember?_headerRow typeName below habove,
    depthAfter_of_openAfter (member.openAfter_headerRow 0)]

theorem membersFrom_blockRows (member : MemberSource) :
    membersFrom .csharp typeName false 0 above (indentRows indent member.blockRows ++ below) =
      membersFrom .csharp typeName false 0 ((indentRows indent member.blockRows).reverse ++ above)
        below := by
  unfold MemberSource.blockRows
  split
  next =>
    have hopen := (isRow_brace (c := '{') (Or.inl rfl)).isCodeLine
    have hclose := (isRow_brace (c := '}') (Or.inr rfl)).isCodeLine
    have hrows : indentRows indent [['{'], ['}']] ++ below =
        (List.replicate indent ' ' ++ ['{']) :: (List.replicate indent ' ' ++ ['}']) :: below := rfl
    rw [hrows, membersFrom_pass hopen (hopen.codeOf_indented indent)
        (headerLine?_brace (Or.inl rfl) _),
      membersFrom_inside hclose (hclose.codeOf_indented indent) (by decide)]
    rfl
  next => rfl

theorem unmarked_blockRows (member : MemberSource) :
    Unmarked .csharp ((indentRows indent member.blockRows).reverse ++
      (List.replicate indent ' ' ++ member.headerRow) :: above) := by
  unfold MemberSource.blockRows
  split
  next =>
    have hclose := (isRow_brace (c := '}') (Or.inr rfl)).isCodeLine
    have hpeel : Dialect.csharp.peel ['}'] = ([], ['}']) :=
      Dialect.peel_of_head? rfl (by decide) (by decide)
    exact unmarked_cons hclose (hclose.codeOf_indented indent) (by rw [hpeel])
  next =>
    have hcode := member.isCodeLine_headerRow
    exact unmarked_cons hcode (hcode.codeOf_indented indent) (by rw [member.peel_headerRow])

/-- The line of a marker is passed over and leaves the marker for the next line. -/
theorem membersFrom_markRows (mark? : Option VerbMarker) :
    membersFrom .csharp typeName false 0 above (indentRows indent (markRows mark?) ++ below) =
      membersFrom .csharp typeName false 0 ((indentRows indent (markRows mark?)).reverse ++ above)
        below := by
  cases mark? with
  | none => rfl
  | some mark =>
    have hcode := mark.isCodeLine_text
    have hrows : indentRows indent (markRows (some mark)) ++ below =
        (List.replicate indent ' ' ++ mark.text) :: below := rfl
    rw [hrows, membersFrom_pass hcode (hcode.codeOf_indented indent) (mark.headerLine?_text below),
      depthAfter_of_openAfter mark.openAfter_text]
    rfl

theorem markersAbove_markRows (mark? : Option VerbMarker) (habove : Unmarked .csharp above) :
    memberMarkersAbove .csharp ((indentRows indent (markRows mark?)).reverse ++ above) =
      (mark?.map (·.marker)).toList := by
  cases mark? with
  | none => exact habove.markersAbove
  | some mark =>
    have hcode := mark.isCodeLine_text
    exact habove.markersAbove_cons hcode (hcode.codeOf_indented indent) mark.peel_text

theorem reverse_rows (member : MemberSource) (above : List Text) :
    (indentRows indent member.rows).reverse ++ above =
      (indentRows indent member.blockRows).reverse ++
        (List.replicate indent ' ' ++ member.headerRow) ::
          ((indentRows indent (markRows member.mark?)).reverse ++ above) := by
  simp [MemberSource.rows, indentRows]

theorem membersFrom_rows (member : MemberSource) (habove : Unmarked .csharp above) :
    membersFrom .csharp typeName false 0 above (indentRows indent member.rows ++ below) =
      (member.report? typeName).toList ++ membersFrom .csharp typeName false 0
        ((indentRows indent member.rows).reverse ++ above) below := by
  have hmarkers : memberMarkersAbove .csharp _ = member.markers :=
    markersAbove_markRows indent member.mark? habove
  have hrows : indentRows indent member.rows ++ below = indentRows indent (markRows member.mark?) ++
      ((List.replicate indent ' ' ++ member.headerRow) ::
        (indentRows indent member.blockRows ++ below)) := by
    simp [MemberSource.rows, indentRows]
  -- the marker is seen from the header below it, and the block hides both from what follows
  rw [hrows, reverse_rows, membersFrom_markRows, membersFrom_headerRow indent typeName member hmarkers,
    membersFrom_blockRows]

theorem unmarked_rows (member : MemberSource) :
    Unmarked .csharp ((indentRows indent member.rows).reverse ++ above) := by
  rw [reverse_rows]
  exact unmarked_blockRows indent member

theorem membersFrom_members (members : List MemberSource) (habove : Unmarked .csharp above) :
    membersFrom .csharp typeName false 0 above (indentRows indent (members.flatMap (·.rows))) =
      (members.filter fun member => !isSuppressed typeName member.name.text).map (·.summary) := by
  induction members generalizing above with
  | nil => exact membersFrom_nil
  | cons member members ih =>
    have hrows : indentRows indent ((member :: members).flatMap (·.rows)) =
        indentRows indent member.rows ++ indentRows indent (members.flatMap (·.rows)) := by
      simp [indentRows]
    -- each member starts without markers above it, whatever the one before it was
    rw [hrows, membersFrom_rows indent typeName member habove,
      ih (unmarked_rows indent member)]
    cases hsuppressed : isSuppressed typeName member.name.text <;>
      simp [MemberSource.report?, hsuppressed]

end

/-! ## Constants -/

namespace ConstantSource

variable (constant : ConstantSource)

def reported : EnumConstant where
  name := ⟨constant.name.text, by
    obtain ⟨c, rest, hname, hstart⟩ := constant.name.exists_cons
    have hwords := List.all_eq_true.mpr fun c (hc : c ∈ constant.name.text) => constant.name.isWord_of_mem hc
    rw [hwords, hname, List.head?_cons, Option.any_some, hstart]
    rfl⟩
  value := constant.value.map fun value =>
    ⟨value.text, .unsigned (.decimal value.ne_nil (List.all_eq_true.mp value.digits))⟩

theorem text_reported : constant.reported.text = constant.text := by
  unfold reported EnumConstant.text constantText text
  cases constant.value <;> simp

theorem enumConstant?_text : enumConstant? constant.text = some constant.text := by
  rw [← constant.text_reported, EnumConstant.enumConstant?_text]

theorem comma_not_mem_text : ',' ∉ constant.text := by
  rw [← constant.text_reported]
  exact constant.reported.comma_not_mem

theorem tidy_text : Tidy constant.text := by
  unfold text
  split
  next value _ =>
    have hsign : Tidy ['='] := .word (by simp) (by simp; decide)
    have hdigits : Tidy value.text :=
      .word value.ne_nil fun c hc => isBlank_eq_false_of_isWord (value.isWord_of_mem c hc)
    simpa using constant.name.tidy.append_space (hsign.append_space hdigits)
  next => exact constant.name.tidy

theorem lineConstants_row (indent : Nat) :
    lineConstants .csharp (List.replicate indent ' ' ++ constant.row) = [constant.text] := by
  have hcode := constant.isCodeLine_row
  obtain ⟨c, hhead, hc⟩ := constant.exists_head?_row
  have hpeel : Dialect.csharp.peel constant.row = ([], constant.row) :=
    Dialect.peel_of_head? hhead (isBlank_eq_false_of_isWord hc) (ne_of_kind hc (by decide))
  have hparts : splitOn ',' constant.row = [constant.text, []] :=
    splitOn_append constant.comma_not_mem_text []
  have hnone : enumConstant? (trim []) = none := rfl
  rw [lineConstants]
  simp only [hcode.codeOf_indented indent, hcode.isEmpty_eq_false, hcode.isComment, hpeel, hparts]
  simp [constant.tidy_text.trim, constant.enumConstant?_text, hnone]

end ConstantSource

theorem lineConstants_constants (indent : Nat) (constants : List ConstantSource) :
    (indentRows indent (constants.map (·.row))).flatMap (lineConstants .csharp) =
      constants.map (·.text) := by
  induction constants with
  | nil => rfl
  | cons constant constants ih =>
    have hrows : indentRows indent ((constant :: constants).map (·.row)) =
        (List.replicate indent ' ' ++ constant.row) ::
          indentRows indent (constants.map (·.row)) := rfl
    rw [hrows, List.flatMap_cons, constant.lineConstants_row, ih]
    rfl

end SourceAtlas.CSharp
