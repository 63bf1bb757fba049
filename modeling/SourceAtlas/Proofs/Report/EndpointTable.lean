import SourceAtlas.Proofs.Markdown.Block
import SourceAtlas.Proofs.Parser.WellFormed
import SourceAtlas.Proofs.Report.Cell
import SourceAtlas.Proofs.Text.Order
import SourceAtlas.Report.Template

/-!
# The endpoint table loses nothing

What the built-in parsers say about an endpoint has no line breaks, and its names no blanks around
them. So each endpoint has one line of the table and its six cells read back. The lines stand in the
order of the routes and HTTP methods, and those that agree in both in the order of the files.
-/

namespace SourceAtlas.Report

open List

variable {endpoint first second : Endpoint} {parts : List Text} {text : Text}
  {files : List FileSummary}

/-! ## The order of the rows -/

theorem endpointPrecedes_iff :
    endpointPrecedes first second = true ↔
      first.route < second.route ∨
        first.route = second.route ∧ ¬second.httpMethod < first.httpMethod := by
  unfold endpointPrecedes
  split
  · next hroute =>
    rw [Bool.not_eq_true', decide_eq_false_iff_not, hroute]
    have hirrefl := List.lt_irrefl second.route
    exact ⟨fun hle => Or.inr ⟨rfl, hle⟩, fun h => (h.resolve_left hirrefl).2⟩
  · next hroute =>
    rw [decide_eq_true_iff]
    exact ⟨Or.inl, fun h => h.resolve_right fun hsame => hroute hsame.1⟩

theorem endpointPrecedes_trans (first second third : Endpoint)
    (h : endpointPrecedes first second = true) (hnext : endpointPrecedes second third = true) :
    endpointPrecedes first third = true := by
  rw [endpointPrecedes_iff] at h hnext ⊢
  obtain hlt | ⟨hroute, hmethod⟩ := h
  · obtain hnext | ⟨hsame, -⟩ := hnext
    · exact Or.inl (List.lt_trans hlt hnext)
    · exact Or.inl (hsame ▸ hlt)
  · obtain hnext | ⟨hsame, hle⟩ := hnext
    · exact Or.inl (hroute ▸ hnext)
    · exact Or.inr ⟨hroute.trans hsame, List.le_trans hmethod hle⟩

theorem endpointPrecedes_total (first second : Endpoint) :
    (endpointPrecedes first second || endpointPrecedes second first) = true := by
  rw [Bool.or_eq_true, endpointPrecedes_iff, endpointPrecedes_iff]
  by_cases hroute : first.route = second.route
  · obtain hle | hle := List.le_total first.httpMethod second.httpMethod
    · exact Or.inl (Or.inr ⟨hroute, hle⟩)
    · exact Or.inr (Or.inr ⟨hroute.symm, hle⟩)
  · obtain hle | hle := List.le_total first.route second.route
    · exact Or.inl (Or.inl ((List.le_iff_lt_or_eq.mp hle).resolve_right hroute))
    · exact Or.inr (Or.inl ((List.le_iff_lt_or_eq.mp hle).resolve_right (Ne.symm hroute)))

theorem selectFiles_eq_filter (rule : Option Rule) (files : List FileSummary) :
    selectFiles rule files = files.filter fun file =>
      rule.all fun rule => !rule.hasFilters || rule.covers file.path file.extension := by
  cases rule with
  | none => exact (filter_true files).symm
  | some rule =>
    unfold selectFiles
    dsimp only
    split
    · next hfilters => simp [hfilters]
    · next hfilters => simp [hfilters]

/-! ## One row -/

def cellTexts (endpoint : Endpoint) : List Text :=
  [code endpoint.route, endpoint.httpMethod, endpoint.container, endpoint.handler,
    (endpoint.payloads.find? isRequest).getD [],
    (endpoint.payloads.find? fun payload => !isRequest payload).getD []]

/-- A text that a cell gives back. -/
structure IsCellText (text : Text) : Prop where
  noFeed : '\n' ∉ text
  noReturn : '\r' ∉ text
  trimmed : trim text = text

theorem cell_code (text : Text) : cell (code text) = code (cell text) := by
  have hmark : '\x60' ≠ '|' := by decide
  rw [code, cell_cons hmark, cell_append, cell_cons hmark]
  rfl

theorem line_ofEndpoint (h : '|' ∉ endpoint.httpMethod) :
    (EndpointRow.ofEndpoint endpoint).line = rowOf (cellTexts endpoint) := by
  have hstart : "| ".toList = ['|', ' '] := rfl
  have hmiddle : " | ".toList = [' ', '|', ' '] := rfl
  have hend : " |".toList = [' ', '|'] := rfl
  unfold EndpointRow.line EndpointRow.ofEndpoint rowOf cellTexts
  rw [hstart, hmiddle, hend]
  simp only [flatMap_cons, flatMap_nil, cell_code, cell_of_notMem h, append_assoc,
    cons_append, nil_append, append_nil]

theorem getLast?_rowOf (parts : List Text) : (rowOf parts).getLast? = some '|' := by
  obtain rfl | ⟨front, last, rfl⟩ := eq_nil_or_concat parts
  · rfl
  · rw [rowOf, concat_eq_append, flatMap_append, flatMap_singleton]
    apply getLast?_eq_some_iff.mpr
    refine ⟨'|' :: (front.flatMap (fun part => ' ' :: (cell part ++ [' ', '|'])) ++
      (' ' :: (cell last ++ [' ']))), ?_⟩
    simp only [cons_append, append_assoc, nil_append]

theorem notMem_rowOf {c : Char} (h : ∀ part ∈ parts, c ∉ part) (hc : c ∉ ['|', ' ', '\\']) :
    c ∉ rowOf parts := by
  simp only [mem_cons, not_mem_nil, or_false, not_or] at hc
  intro hmem
  obtain hbar | hmem := mem_cons.mp hmem
  · exact hc.1 hbar
  · obtain ⟨part, hpart, hmem⟩ := mem_flatMap.mp hmem
    have hcell : c ∉ cell part := notMem_cell (h part hpart) (by simp [hc])
    simp [hc, hcell] at hmem

theorem isTableLine_rowOf (h : ∀ part ∈ parts, IsCellText part) :
    Markdown.IsTableLine (rowOf parts) where
  head := rfl
  last := getLast?_rowOf parts
  noFeed := notMem_rowOf (fun part hpart => (h part hpart).noFeed) (by decide)
  noReturn := notMem_rowOf (fun part hpart => (h part hpart).noReturn) (by decide)

/-! ## What parsers say about endpoints -/

/-- Whether a file is what a built-in parser says about a text without carriage returns, in any
category. -/
def IsScanned (file : FileSummary) : Prop :=
  ∃ parser ∈ Parser.builtins, ∃ (source : Source) (read : FileSummary), '\r' ∉ source.text ∧
    parser.parse source = .ok read ∧ file = { read with category := file.category }

theorem isScanned_scanBraceSource (dialect : Dialect) {source : Source} (h : '\r' ∉ source.text) :
    IsScanned (scanBraceSource dialect source) :=
  ⟨dialect.parser, mem_builtins_iff.mpr (Or.inl ⟨dialect, rfl⟩), source, _, h,
    dialect.parse_parser source, rfl⟩

theorem isCellText_of_drawnFrom (hreturn : '\r' ∉ text) {part : Text}
    (h : DrawnFrom (unbroken text) part) (htrim : trim part = part) : IsCellText part where
  noFeed := notMem_of_drawnFrom_unbroken h
  noReturn := h.notMem (fun hmem => hreturn (unbroken_subset text hmem)) (by decide)
  trimmed := htrim

theorem isCellText_code (hreturn : '\r' ∉ text) {part : Text} (h : DrawnFrom (unbroken text) part) :
    IsCellText (code part) := by
  have hnotMem : ∀ {c : Char}, c ≠ '\x60' → c ∉ part → c ∉ code part := by
    intro c hmark hpart hmem
    simp only [code, mem_cons, mem_append, not_mem_nil, or_false] at hmem
    exact (hmem.resolve_left hmark).elim hpart hmark
  constructor
  · exact hnotMem (by decide) (notMem_of_drawnFrom_unbroken h)
  · exact hnotMem (by decide) (h.notMem (fun hmem => hreturn (unbroken_subset text hmem)) (by decide))
  · have hlast : (code part).getLast? = some '\x60' := by
      rw [code, ← cons_append, getLast?_concat]
    exact trim_of_ends rfl (by decide) hlast (by decide)

theorem plain_httpMethod (h : endpoint.httpMethod ∈ dottedOptions :: httpMethods) :
    IsCellText endpoint.httpMethod ∧ '|' ∉ endpoint.httpMethod := by
  have hplain : (dottedOptions :: httpMethods).all (fun method =>
      !method.contains '\n' && !method.contains '\r' && !method.contains '|' &&
        !method.any isBlank) = true := by decide
  have hmethod := all_eq_true.mp hplain _ h
  simp only [Bool.and_eq_true, Bool.not_eq_true', contains_eq_mem,
    decide_eq_false_iff_not] at hmethod
  obtain ⟨⟨⟨hfeed, hreturn⟩, hbar⟩, hblank⟩ := hmethod
  exact ⟨⟨hfeed, hreturn, trim_of_solid (forall_mem_of_any hblank)⟩, hbar⟩

theorem isCellText_of_isDrawnFrom (hreturn : '\r' ∉ text) (h : endpoint.IsDrawnFrom (unbroken text)) :
    ∀ part ∈ cellTexts endpoint, IsCellText part := by
  have hpayload : ∀ wanted : Text → Bool, IsCellText ((endpoint.payloads.find? wanted).getD []) := by
    intro wanted
    cases hfind : endpoint.payloads.find? wanted with
    | none => exact isCellText_of_drawnFrom hreturn (.nil _) rfl
    | some payload =>
      have hmem := mem_of_find?_eq_some hfind
      exact isCellText_of_drawnFrom hreturn (h.payloads payload hmem) (h.payloadsTrimmed payload hmem)
  intro part hpart
  simp only [cellTexts, mem_cons, not_mem_nil, or_false] at hpart
  obtain rfl | rfl | rfl | rfl | rfl | rfl := hpart
  · exact isCellText_code hreturn h.route
  · exact (plain_httpMethod h.httpMethod).1
  · exact isCellText_of_drawnFrom hreturn h.container h.containerTrimmed
  · exact isCellText_of_drawnFrom hreturn h.handler h.handlerTrimmed
  · exact hpayload _
  · exact hpayload _

theorem exists_drawnFrom_of_isScanned {file : FileSummary} (h : IsScanned file)
    (hendpoint : endpoint ∈ file.endpoints) :
    ∃ text, '\r' ∉ text ∧ endpoint.IsDrawnFrom (unbroken text) := by
  obtain ⟨parser, hparser, source, read, hreturn, hread, hfile⟩ := h
  rw [hfile] at hendpoint
  obtain ⟨dialect, rfl⟩ | rfl := mem_builtins_iff.mp hparser
  · rw [dialect.parse_parser] at hread
    obtain rfl := Except.ok.inj hread
    exact ⟨source.text, hreturn, scanTypes_endpoints_drawn hendpoint⟩
  · obtain rfl := Except.ok.inj hread
    exact absurd hendpoint not_mem_nil

/-! ## The whole table -/

def tableHead : List Text :=
  ["| Route | HTTP Method | Controller | Handler | Request DTO | Response DTO |".toList,
    "|-------|-------------|------------|---------|-------------|--------------|".toList]

theorem isTableLine_of_mem_tableHead {line : Text} (h : line ∈ tableHead) :
    Markdown.IsTableLine line := by
  simp only [tableHead, mem_cons, not_mem_nil, or_false] at h
  obtain h | h := h
  · rw [h]
    exact ⟨rfl, rfl, by decide, by decide⟩
  · rw [h]
    exact ⟨rfl, rfl, by decide, by decide⟩

/-- The only row of a table without endpoints has as many bars as any other. -/
theorem rowLines_nil {row : Text} (h : row ∈ rowLines []) :
    Markdown.IsTableLine row ∧ freeBars none row = 7 := by
  rw [mem_singleton.mp h]
  exact ⟨⟨rfl, rfl, by decide, by decide⟩, by decide⟩

theorem rowLines_of_ne_nil {ordered : List Endpoint} (hne : ordered ≠ [])
    (h : ∀ endpoint ∈ ordered, '|' ∉ endpoint.httpMethod) :
    rowLines (ordered.map EndpointRow.ofEndpoint) =
      ordered.map fun endpoint => rowOf (cellTexts endpoint) := by
  rw [rowLines, if_neg (by simpa using hne), map_map]
  exact map_congr_left fun endpoint hendpoint => line_ofEndpoint (h endpoint hendpoint)

theorem exists_splitOn_endpointTable (style : MarkdownStyle) (rule : Option Rule)
    (h : ∀ row ∈ rowLines (endpointRows rule files), Markdown.IsTableLine row) :
    ∃ lead, splitOn '\n' ((endpointContent rule files).builtin style) =
      lead ++ tableHead ++ rowLines (endpointRows rule files) ++ [[]] := by
  let block := tableHead ++ rowLines (endpointRows rule files)
  have hblock : block ≠ [] := cons_ne_nil _ _
  have hlines : ∀ line ∈ block, Markdown.IsTableLine line := by
    intro line hline
    obtain hline | hline := mem_append.mp hline
    · exact isTableLine_of_mem_tableHead hline
    · exact h line hline
  obtain ⟨heading, htable⟩ : ∃ heading, (endpointContent rule files).builtin style = Markdown.lint
      (joinWith ['\n'] (heading :: [] :: descriptionLines (rule.bind (·.description)) ++ block)) := by
    apply Exists.intro
    unfold endpointContent Content.builtin Content.builtinLines endpointLines
    dsimp only
    rw [append_assoc _ _ (rowLines _)]
    rfl
  rw [joinWith_append _ (cons_ne_nil heading _) hblock, append_assoc,
    singleton_append] at htable
  obtain ⟨lead, hlead⟩ := Markdown.exists_splitOn_lint (joinWith ['\n'] _) hblock hlines
  exact ⟨lead, by rw [htable, hlead, append_assoc lead tableHead]⟩

theorem isCellText_of_mem_selected {rule : Option Rule} (hfiles : ∀ file ∈ files, IsScanned file)
    (h : endpoint ∈ (selectFiles rule files).flatMap (·.endpoints)) :
    (∀ part ∈ cellTexts endpoint, IsCellText part) ∧ '|' ∉ endpoint.httpMethod := by
  obtain ⟨file, hfile, hendpoint⟩ := mem_flatMap.mp h
  rw [selectFiles_eq_filter] at hfile
  obtain ⟨text, hreturn, hdrawn⟩ :=
    exists_drawnFrom_of_isScanned (hfiles file (mem_of_mem_filter hfile)) hendpoint
  exact ⟨isCellText_of_isDrawnFrom hreturn hdrawn, (plain_httpMethod hdrawn.httpMethod).2⟩

/-- The endpoint table is well formed and loses nothing. Its rows are the last lines of the report,
one for each endpoint of the files that the rule selects, sorted by route and HTTP method and
otherwise in the order of the files; without endpoints there is one row. Each row has seven bars that
end cells, and the cells read back. -/
theorem endpointTable_lossless (style : MarkdownStyle) (rule : Option Rule)
    {files : List FileSummary} (hfiles : ∀ file ∈ files, IsScanned file) :
    let endpoints := (files.filter fun file => rule.all fun rule =>
      !rule.hasFilters || rule.covers file.path file.extension).flatMap (·.endpoints)
    ∃ (lead rows : List Text) (ordered : List Endpoint),
      splitOn '\n' ((endpointContent rule files).builtin style) = lead ++ tableHead ++ rows ++ [[]] ∧
      rows.length = max 1 endpoints.length ∧
      (∀ row ∈ rows, freeBars none row = 7) ∧
      ordered.Perm endpoints ∧
      (ordered.Pairwise fun first second => first.route < second.route ∨
        first.route = second.route ∧ ¬second.httpMethod < first.httpMethod) ∧
      (∀ route method, ordered.filter (fun endpoint =>
          endpoint.route == route && endpoint.httpMethod == method) =
        endpoints.filter fun endpoint => endpoint.route == route && endpoint.httpMethod == method) ∧
      (endpoints ≠ [] → Forall₂ (fun row endpoint =>
        (barCells none row).map (fun text => unescapeBars (trim text)) =
          [] :: (cellTexts endpoint ++ [[]])) rows ordered) := by
  intro endpoints
  have hselected : (selectFiles rule files).flatMap (·.endpoints) = endpoints :=
    congrArg _ (selectFiles_eq_filter rule files)
  let ordered := endpoints.mergeSort endpointPrecedes
  have hperm : ordered.Perm endpoints := mergeSort_perm endpoints endpointPrecedes
  have hcells : ∀ endpoint ∈ ordered,
      (∀ part ∈ cellTexts endpoint, IsCellText part) ∧ '|' ∉ endpoint.httpMethod := by
    intro endpoint hendpoint
    apply isCellText_of_mem_selected hfiles
    rw [hselected]
    exact hperm.mem_iff.mp hendpoint
  have hrows : endpointRows rule files = ordered.map EndpointRow.ofEndpoint := by
    rw [endpointRows, hselected]
  have hsorted : ordered.Pairwise fun first second => first.route < second.route ∨
      first.route = second.route ∧ ¬second.httpMethod < first.httpMethod := by
    have hprecedes : ordered.Pairwise fun first second => endpointPrecedes first second = true :=
      pairwise_mergeSort endpointPrecedes_trans endpointPrecedes_total endpoints
    exact hprecedes.imp fun h => endpointPrecedes_iff.mp h
  have hstable : ∀ route method, ordered.filter (fun endpoint =>
      endpoint.route == route && endpoint.httpMethod == method) =
        endpoints.filter fun endpoint => endpoint.route == route && endpoint.httpMethod == method := by
    intro route method
    apply filter_mergeSort endpointPrecedes_trans endpointPrecedes_total
    intro first second hfirst hsecond
    simp only [Bool.and_eq_true, beq_iff_eq] at hfirst hsecond
    rw [endpointPrecedes_iff, hfirst.1, hfirst.2, hsecond.1, hsecond.2]
    exact Or.inr ⟨rfl, List.le_refl method⟩
  -- Without endpoints the table has its one empty row.
  by_cases hnone : endpoints = []
  · have hordered : ordered = [] := perm_nil.mp (hnone ▸ hperm)
    rw [hordered, map_nil] at hrows
    obtain ⟨lead, hlead⟩ := exists_splitOn_endpointTable style rule fun row hrow =>
      (rowLines_nil (hrows ▸ hrow)).1
    refine ⟨lead, rowLines [], ordered, hrows ▸ hlead, ?_, fun row hrow => (rowLines_nil hrow).2,
      hperm, hsorted, hstable, fun hsome => absurd hnone hsome⟩
    rw [hnone]
    rfl
  · have hne : ordered ≠ [] := fun hordered => hnone (nil_perm.mp (hordered ▸ hperm))
    have hlines := rowLines_of_ne_nil hne fun endpoint hendpoint => (hcells endpoint hendpoint).2
    rw [← hrows] at hlines
    obtain ⟨lead, hlead⟩ := exists_splitOn_endpointTable style rule fun row hrow => by
      obtain ⟨endpoint, hendpoint, rfl⟩ := mem_map.mp (hlines ▸ hrow)
      exact isTableLine_rowOf (hcells endpoint hendpoint).1
    refine ⟨lead, _, ordered, hlines ▸ hlead, ?_, ?_, hperm, hsorted, hstable, fun _ => ?_⟩
    · rw [length_map, hperm.length_eq]
      exact (Nat.max_eq_right (length_pos_iff.mpr hnone)).symm
    · intro row hrow
      obtain ⟨endpoint, -, rfl⟩ := mem_map.mp hrow
      exact freeBars_rowOf (cellTexts endpoint)
    · rw [forall₂_map_left_iff, forall₂_same]
      intro endpoint hendpoint
      exact map_barCells_rowOf fun part hpart => ((hcells endpoint hendpoint).1 part hpart).trimmed

/-- A TypeScript source with bars in a route and in the types of a method. -/
def barSource : Source :=
  { path := "users.ts".toList
    extension := ".ts".toList
    text := "export class UsersController \x7b\n".toList ++ "  @Get('a|b')\n".toList ++
      "  find(filter: UserRequest | null)".toList ++ ": Promise<User | null> \x7b \x7d\n\x7d".toList }

theorem endpointTable_barSource :
    ∃ (lead : List Text) (row : Text),
      splitOn '\n' ((endpointContent none [scanBraceSource .typescript barSource]).builtin
        MarkdownStyle.standard) = lead ++ tableHead ++ [row] ++ [[]] ∧
      freeBars none row = 7 ∧
      (barCells none row).map (fun text => unescapeBars (trim text)) =
        [[], "\x60Users/a|b\x60".toList, "GET".toList, "UsersController".toList, "find".toList,
          "UserRequest | null".toList, "User | null".toList, []] := by
  have hscanned : ∀ file ∈ [scanBraceSource .typescript barSource], IsScanned file :=
    forall_mem_singleton.mpr (isScanned_scanBraceSource .typescript (by decide +kernel))
  have htexts : (scanBraceSource .typescript barSource).endpoints.map cellTexts =
      [["\x60Users/a|b\x60".toList, "GET".toList, "UsersController".toList, "find".toList,
        "UserRequest | null".toList, "User | null".toList]] := by
    simp only [scanBraceSource, scanTypes, buildType, scanMembers_eq_run]
    decide +kernel
  obtain ⟨endpoint, hendpoint, hcellTexts⟩ := map_eq_singleton_iff.mp htexts
  obtain ⟨lead, rows, ordered, hsplit, -, hbars, hperm, -, -, hcells⟩ :=
    endpointTable_lossless MarkdownStyle.standard none hscanned
  simp only [Option.all_none, filter_true, flatMap_singleton, hendpoint] at hperm hcells
  obtain rfl := perm_singleton.mp hperm
  obtain ⟨row, others, hrow, hothers, rfl⟩ :=
    forall₂_cons_right_iff.mp (hcells (cons_ne_nil endpoint []))
  obtain rfl := forall₂_nil_right_iff.mp hothers
  rw [hcellTexts] at hrow
  exact ⟨lead, row, hsplit, hbars row mem_cons_self, hrow⟩

end SourceAtlas.Report
