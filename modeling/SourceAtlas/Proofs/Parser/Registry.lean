import SourceAtlas.Parser.Registry

/-!
# The built-in parsers

They claim four extensions between them. A text with nothing in it declares nothing in a brace
language, but a script is a class even then.
-/

namespace SourceAtlas

open List

variable {extension : Text} {source : Source} {registry : Registry}

/-! ## The table -/

namespace Registry

theorem byExtension_builtin :
    builtin.byExtension = [(".cs".toList, Parser.csharp), (".ts".toList, Parser.typescript),
      (".tsx".toList, Parser.typescript), (".gd".toList, Parser.gdscript)] :=
  rfl

def builtinExtensions : List Text :=
  [".cs".toList, ".ts".toList, ".tsx".toList, ".gd".toList]

theorem mem_extensions_builtin :
    extension ∈ builtin.extensions ↔ extension ∈ builtinExtensions := by
  unfold extensions
  rw [byExtension_builtin, mem_mergeSort]
  rfl

theorem lower_of_mem (h : extension ∈ builtinExtensions) : lower extension = extension := by
  have hall : builtinExtensions.all (fun extension => lower extension = extension) := by decide
  exact of_decide_eq_true (all_eq_true.mp hall extension h)

theorem contains_extensions_builtin (extension : Text) :
    (builtin.extensions.map lower).contains extension = builtinExtensions.contains extension := by
  rw [Bool.eq_iff_iff, contains_iff_mem, contains_iff_mem, mem_map]
  constructor
  · rintro ⟨known, hknown, rfl⟩
    rw [mem_extensions_builtin] at hknown
    rwa [lower_of_mem hknown]
  · intro h
    exact ⟨extension, mem_extensions_builtin.mpr h, lower_of_mem h⟩

theorem mem_byExtension_of_parserFor? {extension : Text} {parser : Parser}
    (h : registry.parserFor? extension = some parser) :
    (lower extension, parser) ∈ registry.byExtension := by
  obtain ⟨before, after, htable, -⟩ := lookup_eq_some_iff.mp h
  rw [htable]
  exact mem_append_right _ mem_cons_self

theorem mem_of_parserFor? {parser : Parser} (h : builtin.parserFor? extension = some parser) :
    lower extension ∈ builtinExtensions :=
  mem_map_of_mem (f := Prod.fst) (mem_byExtension_of_parserFor? h)

end Registry

/-! ## Sources without text -/

theorem scanBraceSource_of_text_eq_nil (dialect : Dialect) (h : source.text = []) :
    scanBraceSource dialect source = .blank source.path source.extension := by
  have htypes : scanTypes dialect source.text = [] := by
    rw [h, scanTypes, recordedDeclarations, locateDeclarations, headersFrom]
    rfl
  unfold scanBraceSource
  rw [htypes]
  rfl

def Script.emptyClass (path : Text) : TypeSummary :=
  { name := stemOf path
    kind := .classType
    baseTypes := []
    interfaces := []
    members := []
    enumValues := []
    markers := []
    routeBase := [] }

theorem Script.scan_of_text_eq_nil (h : source.text = []) :
    Script.scan source =
      { FileSummary.blank source.path source.extension with
        types := [Script.emptyClass source.path] } := by
  unfold Script.scan
  rw [h]
  have hlines : lines [] = [] := by decide
  rw [hlines, Script.readLines]
  rfl

namespace Registry

/-- What the built-in parsers find in a source without text. -/
def emptySummary (path extension : Text) : FileSummary :=
  { FileSummary.blank path extension with
    types := if extension = ".gd".toList then [Script.emptyClass path] else [] }

theorem scan_builtin_of_text_eq_nil (htext : source.text = [])
    (hextension : source.extension ∈ builtinExtensions) :
    (builtin.scan source).file = emptySummary source.path source.extension := by
  have hscan : ∀ (parser : Parser) (file : FileSummary),
      builtin.parserFor? source.extension = some parser → parser.parse source = .ok file →
        (builtin.scan source).file = file := by
    intro parser file hparser hparse
    unfold scan parse?
    rw [hparser, Option.map_some, hparse]
  have hbrace : ∀ (parser : Parser) (dialect : Dialect),
      builtin.parserFor? source.extension = some parser →
      parser.parse source = .ok (scanBraceSource dialect source) →
      source.extension ≠ ".gd".toList →
        (builtin.scan source).file = emptySummary source.path source.extension := by
    intro parser dialect hparser hparse hother
    rw [emptySummary, if_neg hother]
    rw [scanBraceSource_of_text_eq_nil dialect htext] at hparse
    exact hscan parser _ hparser hparse
  have hcases : source.extension = ".cs".toList ∨ source.extension = ".ts".toList ∨
      source.extension = ".tsx".toList ∨ source.extension = ".gd".toList := by
    simpa [builtinExtensions] using hextension
  rcases hcases with h | h | h | h
  · exact hbrace Parser.csharp .csharp (by rw [h]; rfl) rfl (by rw [h]; decide)
  · exact hbrace Parser.typescript .typescript (by rw [h]; rfl) rfl (by rw [h]; decide)
  · exact hbrace Parser.typescript .typescript (by rw [h]; rfl) rfl (by rw [h]; decide)
  · rw [emptySummary, if_pos h]
    apply hscan Parser.gdscript _ (by rw [h]; rfl)
    exact congrArg Except.ok (Script.scan_of_text_eq_nil htext)

/-! ## Scanning many sources -/

theorem path_scan_builtin (source : Source) : (builtin.scan source).file.path = source.path := by
  unfold scan parse?
  cases hparser : builtin.parserFor? source.extension with
  | none => rfl
  | some parser =>
    have hmem := mem_byExtension_of_parserFor? hparser
    rw [byExtension_builtin] at hmem
    simp only [mem_cons, Prod.mk.injEq, not_mem_nil, or_false] at hmem
    rcases hmem with ⟨-, rfl⟩ | ⟨-, rfl⟩ | ⟨-, rfl⟩ | ⟨-, rfl⟩ <;> rfl

theorem scanAll_fst (registry : Registry) (sources : List Source) :
    (registry.scanAll sources).1 = sources.map fun source => (registry.scan source).file := by
  unfold scanAll
  simp

theorem mem_scanAll_snd {sources : List Source} {path : Text} :
    path ∈ (registry.scanAll sources).2 ↔
      ∃ source ∈ sources, source.path = path ∧ (registry.scan source).file.types = [] := by
  unfold scanAll
  constructor
  · simp only [mem_map, mem_filter]
    rintro ⟨-, ⟨⟨source, hsource, rfl⟩, hparsed⟩, rfl⟩
    exact ⟨source, hsource, rfl, by simpa [FileSummary.isParsed] using hparsed⟩
  · rintro ⟨source, hsource, rfl, htypes⟩
    have hparsed : (!(registry.scan source).file.isParsed) = true := by
      simp [FileSummary.isParsed, htypes]
    exact mem_map.mpr ⟨(source.path, (registry.scan source).file),
      mem_filter.mpr ⟨mem_map.mpr ⟨source, hsource, rfl⟩, hparsed⟩, rfl⟩

end Registry

end SourceAtlas
