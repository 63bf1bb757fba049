import SourceAtlas.Proofs.CSharp.BaseClause
import SourceAtlas.Proofs.CSharp.Members

/-!
# Reading a written file back

The headers that are found in a written file are those that were written, each with its body, and the
scan of a body gives the members or constants in it. A file is read back type by type.
-/

namespace SourceAtlas.CSharp

open List

namespace TypeSource

variable (layout : Layout) (type : TypeSource) {before : Option Char}

/-! ## One type -/

def inner : Text :=
  '\n' :: joinLines (indentRows layout.indent type.rows)

theorem text_append (rest : Text) : type.text layout ++ rest =
    type.header ++ layout.gap :: '{' :: (type.inner layout ++ '}' :: '\n' :: rest) := by
  simp [text, inner]

theorem lines_inner : lines (type.inner layout) = [] :: indentRows layout.indent type.rows := by
  have hrows : ∀ row ∈ [] :: indentRows layout.indent type.rows, ∀ c ∈ row,
      isLineBreak c = false := by
    intro row hrow
    rcases mem_cons.mp hrow with rfl | hrow
    · simp
    · obtain ⟨line, hline, rfl⟩ := mem_map.mp hrow
      exact (type.isRow line hline).isCodeLine.isLineBreak_eq_false layout.indent
  exact lines_joinLines hrows

theorem openAfter_inner : openAfter 0 (type.inner layout) = some 0 := by
  have hbreak : openAfter 0 ['\n'] = some 0 := openAfter_of_plain (by simp) 0
  have hinner := openAfter_append 0 ['\n'] (joinLines (indentRows layout.indent type.rows))
  rw [hbreak, Option.bind_some, type.openAfter_rows] at hinner
  exact hinner

theorem quiet_body : Quiet (layout.gap :: '{' :: (type.inner layout ++ ['}', '\n'])) := by
  have hgap : isWord layout.gap = false := isWord_eq_false_of_isBlank (isBlank_gap layout)
  have hopen : Quiet [layout.gap, '{', '\n'] := quiet_marks (by simp [hgap]; decide)
  have hrows := quiet_joinLines layout.indent type.isRow
  have hclose : Quiet ['}', '\n'] := quiet_marks (forall_mem_of_any (by decide))
  exact hopen.append (hrows.append hclose)

theorem headersFrom_text (hbefore : ∀ c ∈ before, isDottedWord c = false)
    (index : Nat) (rest : Text) :
    headersFrom .csharp 0 before index (type.text layout ++ rest) =
      (index, index + type.header.length, type.readHeader
          (layout.gap :: '{' :: (type.inner layout ++ '}' :: '\n' :: rest))) ::
        headersFrom .csharp 0 (some '\n') (index + (type.text layout).length) rest := by
  have hne : type.header ≠ [] := by
    unfold header
    simp
  have hheader : Dialect.csharp.typeHeaderAt? before _ = _ :=
    type.typeHeaderAt?_header layout hbefore (type.inner layout ++ '}' :: '\n' :: rest)
  have hbody : layout.gap :: '{' :: (type.inner layout ++ '}' :: '\n' :: rest) =
      layout.gap :: '{' :: (type.inner layout ++ ['}', '\n']) ++ rest := by simp
  have hlast : ∀ before, lastBefore before
      (layout.gap :: '{' :: (type.inner layout ++ ['}', '\n'])) = some '\n' := by
    simp [lastBefore, getLast?_cons, getLast?_append]
  have hlength : (type.text layout).length = type.header.length +
      (layout.gap :: '{' :: (type.inner layout ++ ['}', '\n'])).length := by
    have happend := congrArg length (type.text_append layout [])
    simpa using happend
  have hquiet : Unread (fun before text => Dialect.csharp.typeHeaderAt? before text = none)
      (lastBefore before type.header) (layout.gap :: '{' :: (type.inner layout ++ ['}', '\n'])) rest :=
    type.quiet_body layout _ rest
  rw [text_append, headersFrom_header hne hheader rfl]
  congr 1
  rw [hbody, headersFrom_unread hquiet, hlast, hlength, Nat.add_assoc]

/-- What is located for a type whose header starts at `start`. -/
def declaration (start : Nat) : Declaration where
  keyword := type.keyword
  kind := type.kind
  name := type.name.text
  start
  stop := start + type.header.length
  baseTypes := type.bases.map (·.expr.text)
  interfaces := []
  markers := []
  routeBase := type.routeBase

/-- The body of a type whose header starts at `start`. -/
def body (start : Nat) : Body where
  start := start + type.header.length + 1
  stop := start + type.header.length + 1 + (type.inner layout).length + 1
  text := type.inner layout

theorem body?_declaration (front rest : Text) :
    (type.declaration front.length).body? (front ++ (type.text layout ++ rest)) =
      some (type.body layout front.length) := by
  have hkind : (type.declaration front.length).kind ≠ .typeAlias := by
    show type.kind ≠ .typeAlias
    unfold kind
    cases type.content <;> simp
  have hgap : '{' ∉ [layout.gap] ∧ bridgesToBody false [layout.gap] = true := by
    unfold Layout.gap
    cases layout.braceBelow <;> decide
  have htext : front ++ (type.text layout ++ rest) = (front ++ type.header) ++
      ([layout.gap] ++ '{' :: (type.inner layout ++ '}' :: '\n' :: rest)) := by
    simp [type.text_append layout rest]
  have hstop : (type.declaration front.length).stop = (front ++ type.header).length := by
    simp [declaration]
  rw [Declaration.body?, hstop, htext, decide_eq_false hkind,
    extractBody?_of_openAfter hgap.1 hgap.2 (type.openAfter_inner layout)]
  simp [body]

theorem scanMembers_inner (hconstants : type.constants = []) :
    membersFrom .csharp type.name.text false 0 [] (lines (type.inner layout)) =
      type.reported.map (·.summary) := by
  have hempty : (codeOf []).isEmpty = true := rfl
  rw [lines_inner, membersFrom_empty hempty, rows, hconstants, map_nil, append_nil,
    membersFrom_members _ _ _ (unmarked_nil.empty hempty), reported]

theorem scanEnumValues_inner (hmembers : type.members = []) :
    scanEnumValues .csharp (type.inner layout) = type.constants.map (·.text) := by
  have hempty : lineConstants .csharp [] = [] := rfl
  rw [scanEnumValues, lines_inner, rows, hmembers, flatMap_nil, nil_append,
    flatMap_cons, hempty, lineConstants_constants, nil_append]

theorem buildType_declaration (start : Nat) :
    buildType .csharp (type.declaration start) (type.body layout start) = type.summary := by
  obtain ⟨name, bases, content⟩ := type
  cases content with
  | classBody members =>
    have hmembers := scanMembers_inner layout ⟨name, bases, .classBody members⟩ rfl
    simpa [buildType, declaration, body, summary, kind, constants, scanMembers,
      TypeKind.isInterfaceLike] using hmembers
  | recordBody members =>
    have hmembers := scanMembers_inner layout ⟨name, bases, .recordBody members⟩ rfl
    simpa [buildType, declaration, body, summary, kind, constants, scanMembers,
      TypeKind.isInterfaceLike] using hmembers
  | enumBody constants =>
    have hconstants := scanEnumValues_inner layout ⟨name, bases, .enumBody constants⟩ rfl
    simpa [buildType, declaration, body, summary, kind, reported, members] using hconstants

theorem baseTypes_readHeader (rest : Text) :
    ((type.readHeader rest).bases.map splitTypeList).getD [] = type.bases.map (·.expr.text) := by
  unfold readHeader
  cases hbases : type.bases with
  | nil => rfl
  | cons base bases => simp [splitTypeList_baseList (cons_ne_nil base bases)]

end TypeSource

/-! ## All types of a file -/

def fileText (layout : Layout) (types : List TypeSource) : Text :=
  types.flatMap (TypeSource.text layout)

/-- The types of a file with the offsets of their headers. The first one starts at `start`. -/
def placed (layout : Layout) (start : Nat) : List TypeSource → List (Nat × TypeSource)
  | [] => []
  | type :: types => (start, type) :: placed layout (start + (type.text layout).length) types

section

variable (layout : Layout)

theorem map_snd_placed (start : Nat) (types : List TypeSource) :
    (placed layout start types).map (·.2) = types := by
  induction types generalizing start with
  | nil => rfl
  | cons type types ih => simp [placed, ih]

theorem fileText_concat (done : List TypeSource) (type : TypeSource) :
    fileText layout (done ++ [type]) = fileText layout done ++ type.text layout := by
  simp [fileText]

/-- The first type of the rest of a file may be counted with the types in front of it. -/
theorem fileText_moves (done : List TypeSource) (type : TypeSource) (types : List TypeSource) :
    fileText layout (type :: types) = type.text layout ++ fileText layout types ∧
      fileText layout done ++ (type.text layout ++ fileText layout types) =
        fileText layout (done ++ [type]) ++ fileText layout types ∧
      (fileText layout done).length + (type.text layout).length =
        (fileText layout (done ++ [type])).length := by
  rw [fileText_concat, append_assoc, length_append]
  exact ⟨rfl, rfl, rfl⟩

theorem fileText_eq_nil_or_concat (types : List TypeSource) :
    fileText layout types = [] ∨
      ∃ front, fileText layout types = front ++ '\n' :: ['}', '\n'] := by
  rcases eq_nil_or_concat types with rfl | ⟨done, type, rfl⟩
  · exact Or.inl rfl
  · obtain ⟨front, hfront⟩ := exists_joinLines_concat
      (cons_ne_nil [] (indentRows layout.indent type.rows))
    have hinner : type.inner layout = front ++ ['\n'] := hfront
    refine Or.inr ⟨fileText layout done ++ (type.header ++ layout.gap :: '{' :: front), ?_⟩
    have htext := type.text_append layout []
    rw [append_nil, hinner] at htext
    rw [concat_eq_append, fileText_concat, htext]
    simp

theorem afterLast_fileText (types : List TypeSource) :
    afterLast '\n' (fileText layout types) = [] := by
  rcases fileText_eq_nil_or_concat layout types with hnil | ⟨front, hfront⟩
  · rw [hnil]
    rfl
  · simp [hfront, afterLast]

theorem declarationMarkers_fileText (types : List TypeSource) :
    declarationMarkers .csharp (fileText layout types) [] = [] := by
  have habove : ∀ budget,
      markerLinesAbove .csharp (budget + 1) (lines (fileText layout types)).reverse = [] := by
    intro budget
    rcases fileText_eq_nil_or_concat layout types with hnil | ⟨front, hfront⟩
    · rw [hnil]
      rfl
    · have hclose := (isRow_brace (c := '}') (Or.inr rfl)).isCodeLine
      have hpeel : Dialect.csharp.peel ['}'] = ([], ['}']) :=
        Dialect.peel_of_head? rfl (by decide) (by decide)
      have hlines : (lines (fileText layout types)).reverse =
          ['}'] :: (lines (front ++ ['\n'])).reverse := by
        rw [hfront, lines_split, reverse_append]
        rfl
      have htrim : trim ['}'] = ['}'] := rfl
      rw [hlines, markerLinesAbove]
      simp [htrim, hclose.isComment, hpeel]
  simp [declarationMarkers, declarationLookback, habove, peel_nil, isBlankText]

theorem declarationAt?_readHeader (done : List TypeSource) (type : TypeSource) (rest after : Text) :
    declarationAt? .csharp (fileText layout done ++ rest) ((fileText layout done).length,
        (fileText layout done).length + type.header.length, type.readHeader after) =
      some (type.declaration (fileText layout done).length) := by
  have hstarts : Dialect.csharp.startsStatement [] = true := rfl
  have hmarkers := declarationMarkers_fileText layout done
  have hbases := type.baseTypes_readHeader after
  simp only [declarationAt?, take_left, afterLast_fileText, hstarts, if_true, length_nil,
    dropEnd, Nat.sub_zero, take_length, hmarkers, hbases]
  rfl

theorem locate_placed (done types : List TypeSource) {before : Option Char}
    (hbefore : ∀ c ∈ before, isDottedWord c = false) :
    (headersFrom .csharp 0 before (fileText layout done).length (fileText layout types)).filterMap
        (declarationAt? .csharp (fileText layout done ++ fileText layout types)) =
      (placed layout (fileText layout done).length types).map fun place =>
        place.2.declaration place.1 := by
  -- a type that was read moves over to `done`; only the line feed behind it is seen from the next
  induction types generalizing done before with
  | nil => rfl
  | cons type types ih =>
    obtain ⟨htext, hdone, hlength⟩ := fileText_moves layout done type types
    have hnewline : ∀ c ∈ some '\n', isDottedWord c = false := by
      simp
      decide
    rw [htext, type.headersFrom_text layout hbefore, filterMap_cons,
      declarationAt?_readHeader, placed, map_cons, hdone, hlength, ih _ hnewline]

theorem recordedFrom_placed (done types : List TypeSource) {cursor : Nat}
    (hcursor : cursor ≤ (fileText layout done).length) :
    recordedFrom (fileText layout done ++ fileText layout types) cursor
        ((placed layout (fileText layout done).length types).map fun place =>
          place.2.declaration place.1) =
      (placed layout (fileText layout done).length types).map fun place =>
        (place.2.declaration place.1, place.2.body layout place.1) := by
  -- the cursor stops behind the closing brace, in front of the line feed that ends the type
  induction types generalizing done cursor with
  | nil => rfl
  | cons type types ih =>
    obtain ⟨htext, hdone, hlength⟩ := fileText_moves layout done type types
    have hstart : ¬ (type.declaration (fileText layout done).length).start < cursor :=
      Nat.not_lt.mpr hcursor
    have hbody := type.body?_declaration layout (fileText layout done) (fileText layout types)
    have hstop : (type.body layout (fileText layout done).length).stop + 1 ≤
        (fileText layout (done ++ [type])).length := by
      have happend := congrArg length (type.text_append layout [])
      simp only [append_nil, length_append, length_cons] at happend
      rw [← hlength, happend]
      simp only [TypeSource.body]
      omega
    rw [placed, map_cons, recordedFrom, if_neg hstart, htext, hbody]
    simp only
    rw [hdone, hlength, ih _ hstop, map_cons]

theorem scanTypes_fileText (types : List TypeSource) :
    scanTypes .csharp (fileText layout types) = types.map (·.summary) := by
  have hlocated : locateDeclarations .csharp (fileText layout types) =
      (placed layout 0 types).map fun place => place.2.declaration place.1 :=
    locate_placed layout [] types (by simp)
  have hrecorded : recordedDeclarations .csharp (fileText layout types) =
      (placed layout 0 types).map fun place =>
        (place.2.declaration place.1, place.2.body layout place.1) := by
    rw [recordedDeclarations, hlocated]
    exact recordedFrom_placed layout [] types (Nat.zero_le _)
  calc
    scanTypes .csharp (fileText layout types)
      = (placed layout 0 types).map (fun place => place.2.summary) := by
        rw [scanTypes, hrecorded, map_map]
        exact map_congr_left fun place _ => place.2.buildType_declaration layout place.1
    _ = ((placed layout 0 types).map (·.2)).map (·.summary) := by rw [map_map]; rfl
    _ = types.map (·.summary) := by rw [map_snd_placed]

end

/-! ## Endpoints -/

theorem TypeSource.endpoints_summary (type : TypeSource) :
    (Dialect.csharp.endpoints type.summary).map (fun endpoint =>
        (endpoint.httpMethod, endpoint.route, endpoint.container, endpoint.handler)) =
      type.endpoints := by
  have hmembers : type.summary.members = type.reported.map (·.summary) := rfl
  rw [Dialect.endpoints, hmembers, filterMap_map, map_filterMap, TypeSource.endpoints]
  apply filterMap_congr
  intro member _
  exact member.endpoint?_summary type.name.text type.routeBase

/-- A written file is read back: its types with their members and constants, and an endpoint for each
method under a verb marker. Members are left out only when their name is that of the type or starts
with an underscore and is no callback. -/
theorem scanBraceSource_fileText (layout : Layout) (types : List TypeSource)
    (path extension : Text) :
    let file := scanBraceSource .csharp ⟨path, extension, fileText layout types⟩
    file.types = types.map (·.summary) ∧
      file.endpoints.map (fun endpoint =>
          (endpoint.httpMethod, endpoint.route, endpoint.container, endpoint.handler)) =
        types.flatMap (·.endpoints) := by
  have htypes := scanTypes_fileText layout types
  refine ⟨htypes, ?_⟩
  simp only [scanBraceSource, htypes, flatMap_map, map_flatMap]
  simp only [TypeSource.endpoints_summary]

/-- A class whose only member has a name that starts with an underscore. -/
def counter : TypeSource where
  name := ⟨"Counter".toList, by decide⟩
  bases := []
  content := .classBody
    [{ type := ⟨.plain (.root ⟨"int".toList, by decide⟩), by decide, by decide⟩
       name := ⟨"_count".toList, by decide⟩
       form := .field }]

/-- Such a member is left out. -/
theorem scanBraceSource_counter :
    let text := "public class Counter\n\x7b\n    public int _count;\n\x7d\n".toList
    fileText ⟨true, 4⟩ [counter] = text ∧
      counter.members.map (·.name.text) = ["_count".toList] ∧
      (scanBraceSource .csharp ⟨"Counter.cs".toList, ".cs".toList, text⟩).types.map (·.members) =
        [[]] := by
  have htext : fileText ⟨true, 4⟩ [counter] =
      "public class Counter\n\x7b\n    public int _count;\n\x7d\n".toList := by decide
  have htypes := scanTypes_fileText ⟨true, 4⟩ [counter]
  refine ⟨htext, by decide, ?_⟩
  rw [htext] at htypes
  simp only [scanBraceSource, htypes]
  decide

end SourceAtlas.CSharp
