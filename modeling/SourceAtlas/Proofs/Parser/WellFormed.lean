import SourceAtlas.Parser.Registry
import SourceAtlas.Proofs.Declaration.Drawn
import SourceAtlas.Proofs.Endpoint.Served
import SourceAtlas.Proofs.Parser.Recorded
import SourceAtlas.Proofs.Parser.Script

/-!
# Every summary is well formed

The built-in parsers give a summary of every text, however broken. Its names, types and signatures
are drawn from single lines, so none has a line feed; constants and members do not mix; hidden
members are left out; and the endpoints are those of the methods that serve them.
-/

namespace SourceAtlas

open List

variable {member : Member} {endpoint : Endpoint}

variable {source text : Text} {dialect : Dialect} {type : TypeSummary}

/-- Whether all that is said about a type, its name aside, is drawn from a source. -/
structure TypeSummary.IsDrawnFrom (source : Text) (type : TypeSummary) : Prop where
  baseTypes : ∀ base ∈ type.baseTypes, DrawnFrom source base
  interfaces : ∀ base ∈ type.interfaces, DrawnFrom source base
  members : ∀ member ∈ type.members, member.IsDrawnFrom source
  enumValues : ∀ value ∈ type.enumValues, DrawnFrom source value
  markers : ∀ marker ∈ type.markers, marker.CutFrom source
  routeBase : DrawnFrom source type.routeBase

/-- Whether a member is told on one line. -/
structure Member.IsUnbroken (member : Member) : Prop where
  name : '\n' ∉ member.name
  declaredType : '\n' ∉ member.declaredType
  signature : '\n' ∉ member.signature
  markers : ∀ marker ∈ member.markers, '\n' ∉ marker.text

/-- What a report relies on: constants only in enumerations and members only elsewhere, no hidden
member in a class or record, and nothing with a line feed in it. -/
structure TypeSummary.IsWellFormed (type : TypeSummary) : Prop where
  noMembers : type.kind = .enumeration → type.members = []
  noEnumValues : type.kind ≠ .enumeration → type.enumValues = []
  shown : type.kind = .classType ∨ type.kind = .record →
    ∀ member ∈ type.members, member.name.head? = some '_' → isLifecycleHook member.name = true
  members : ∀ member ∈ type.members, member.IsUnbroken
  baseTypes : ∀ base ∈ type.baseTypes, '\n' ∉ base
  interfaces : ∀ base ∈ type.interfaces, '\n' ∉ base
  enumValues : ∀ value ∈ type.enumValues, '\n' ∉ value
  markers : ∀ marker ∈ type.markers, '\n' ∉ marker.text
  routeBase : '\n' ∉ type.routeBase

/-! ## Line feeds -/

theorem notMem_of_drawnFrom_unbroken {part : Text} (h : DrawnFrom (unbroken text) part) :
    '\n' ∉ part :=
  h.notMem (notMem_unbroken text) (by decide)

theorem Marker.CutFrom.notMem_text {marker : Marker} (h : marker.CutFrom (unbroken text)) :
    '\n' ∉ marker.text :=
  notMem_of_drawnFrom_unbroken (.of_subset h.text)

theorem Member.IsDrawnFrom.isUnbroken (h : member.IsDrawnFrom (unbroken text)) :
    member.IsUnbroken where
  name := notMem_of_drawnFrom_unbroken h.name
  declaredType := notMem_of_drawnFrom_unbroken h.declaredType
  signature := notMem_of_drawnFrom_unbroken h.signature
  markers marker hmarker := (h.markers marker hmarker).notMem_text

theorem TypeSummary.IsDrawnFrom.isWellFormed (h : type.IsDrawnFrom (unbroken text))
    (hmembers : type.kind = .enumeration → type.members = [])
    (hvalues : type.kind ≠ .enumeration → type.enumValues = [])
    (hshown : type.kind = .classType ∨ type.kind = .record → ∀ member ∈ type.members,
      member.name.head? = some '_' → isLifecycleHook member.name = true) :
    type.IsWellFormed where
  noMembers := hmembers
  noEnumValues := hvalues
  shown := hshown
  members member hmember := (h.members member hmember).isUnbroken
  baseTypes base hbase := notMem_of_drawnFrom_unbroken (h.baseTypes base hbase)
  interfaces base hbase := notMem_of_drawnFrom_unbroken (h.interfaces base hbase)
  enumValues value hvalue := notMem_of_drawnFrom_unbroken (h.enumValues value hvalue)
  markers marker hmarker := (h.markers marker hmarker).notMem_text
  routeBase := notMem_of_drawnFrom_unbroken h.routeBase

/-! ## Brace languages -/

theorem exists_of_mem_scanTypes (h : type ∈ scanTypes dialect text) :
    ∃ declaration body, type = buildType dialect declaration body ∧
      declaration.IsDrawnFrom (unbroken text) ∧ ∀ row ∈ lines body.text, row ⊆ unbroken text := by
  obtain ⟨⟨declaration, body⟩, hrecorded, rfl⟩ := mem_map.mp h
  have hmem : declaration ∈ locateDeclarations dialect text :=
    (recordedFrom_sublist text 0 _).subset (mem_map_of_mem hrecorded)
  have hbody := (recordedFrom_mem (fun _ hlocated => (locateDeclarations_bounds hlocated).1)
    hrecorded).1
  obtain ⟨gap, tail, hdrop, -⟩ := extractBody?_eq_some_iff.mp hbody
  have hinside : body.text ⊆ text := by
    intro c hc
    apply drop_subset declaration.stop text
    rw [hdrop]
    exact mem_append_right gap (mem_cons_of_mem _ (mem_append_left _ hc))
  exact ⟨declaration, body, rfl, locateDeclarations_drawn hmem,
    fun row hrow => subset_unbroken_of_mem_lines hrow hinside⟩

section BuildType

variable {declaration : Declaration} {body : Body}

theorem of_mem_members_buildType (hmember : member ∈ (buildType dialect declaration body).members) :
    member ∈ scanMembers dialect declaration.name declaration.kind body.text := by
  unfold buildType at hmember
  dsimp only at hmember
  split at hmember
  · cases hmember
  · exact hmember

theorem of_mem_enumValues_buildType {value : Text}
    (hvalue : value ∈ (buildType dialect declaration body).enumValues) :
    value ∈ scanEnumValues dialect body.text := by
  unfold buildType at hvalue
  dsimp only at hvalue
  split at hvalue
  · exact hvalue
  · cases hvalue

theorem buildType_drawn (hdeclaration : declaration.IsDrawnFrom source)
    (hlines : ∀ row ∈ lines body.text, row ⊆ source) :
    (buildType dialect declaration body).IsDrawnFrom source where
  baseTypes := hdeclaration.baseTypes
  interfaces := hdeclaration.interfaces
  members member hmember := (scanMembers_drawn hlines member (of_mem_members_buildType hmember)).1
  enumValues value hvalue := scanEnumValues_drawn hlines value (of_mem_enumValues_buildType hvalue)
  markers := hdeclaration.markers
  routeBase := hdeclaration.routeBase

theorem isSuppressed_of_mem_buildType (hlines : ∀ row ∈ lines body.text, row ⊆ source)
    (hkind : declaration.kind = .classType ∨ declaration.kind = .record)
    (hmember : member ∈ (buildType dialect declaration body).members) :
    isSuppressed declaration.name member.name = false := by
  apply (scanMembers_drawn hlines member (of_mem_members_buildType hmember)).2
  obtain hclass | hrecord := hkind
  · rw [hclass]
    rfl
  · rw [hrecord]
    rfl

theorem buildType_isWellFormed (hdeclaration : declaration.IsDrawnFrom (unbroken text))
    (hlines : ∀ row ∈ lines body.text, row ⊆ unbroken text) :
    (buildType dialect declaration body).IsWellFormed := by
  apply (buildType_drawn hdeclaration hlines).isWellFormed
  · exact fun hkind => if_pos hkind
  · exact fun hkind => if_neg hkind
  · intro hkind member hmember hunderscore
    have hshown := isSuppressed_of_mem_buildType hlines hkind hmember
    rw [isSuppressed, hunderscore, Bool.or_eq_false_iff] at hshown
    simpa using hshown.2

theorem name_ne_of_mem_buildType (hlines : ∀ row ∈ lines body.text, row ⊆ source)
    (hkind : declaration.kind = .classType ∨ declaration.kind = .record)
    (hmember : member ∈ (buildType dialect declaration body).members) :
    member.name ≠ declaration.name := by
  have hshown := isSuppressed_of_mem_buildType hlines hkind hmember
  rw [isSuppressed, Bool.or_eq_false_iff] at hshown
  exact beq_eq_false_iff_ne.mp hshown.1

end BuildType

theorem scanTypes_endpoints_drawn
    (h : endpoint ∈ (scanTypes dialect text).flatMap dialect.endpoints) :
    endpoint.IsDrawnFrom (unbroken text) := by
  obtain ⟨type, htype, hendpoint⟩ := mem_flatMap.mp h
  obtain ⟨member, hmember, hserved⟩ := mem_filterMap.mp hendpoint
  obtain ⟨declaration, body, rfl, hdeclaration, hlines⟩ := exists_of_mem_scanTypes htype
  have hdrawn := @buildType_drawn _ dialect _ _ hdeclaration hlines
  exact Dialect.endpoint?_drawn (.of_subset hdeclaration.name) hdeclaration.trimmed hdrawn.routeBase
    (hdrawn.members member hmember) hserved

/-- A dotted text in place of an HTTP method comes from a dotted letter of the source. -/
theorem httpMethod_of_mem_endpoints
    (h : endpoint ∈ (scanTypes dialect text).flatMap dialect.endpoints) :
    endpoint.httpMethod ∈ httpMethods ∨
      dialect = .csharp ∧ endpoint.httpMethod = dottedOptions ∧ dottedI ∈ text := by
  obtain ⟨type, htype, hendpoint⟩ := mem_flatMap.mp h
  obtain ⟨member, hmember, hserved⟩ := mem_filterMap.mp hendpoint
  obtain ⟨marker, hmarker, hverb⟩ := (Dialect.isServedBy_of_endpoint? hserved).httpMethod
  obtain hplain | ⟨hdialect, hdotted, hmethod⟩ := Dialect.httpVerb?_eq_some hverb
  · exact Or.inl hplain
  · obtain ⟨declaration, body, rfl, hdeclaration, hlines⟩ := exists_of_mem_scanTypes htype
    have hcut := ((buildType_drawn hdeclaration hlines).members member hmember).markers marker hmarker
    exact Or.inr ⟨hdialect, hmethod, unbroken_subset text (hcut.name hdotted)⟩

/-! ## Scripts -/

theorem scan_isWellFormed (source : Source) :
    ∀ type ∈ (Script.scan source).types, type.IsWellFormed := by
  intro type htype
  obtain rfl := mem_singleton.mp htype
  have hlines : ∀ row ∈ lines source.text, row ⊆ unbroken source.text :=
    fun row hrow => subset_unbroken_of_mem_lines hrow (Subset.refl source.text)
  have hstart : (⟨none, [], [], [], []⟩ : Script.Progress).IsDrawnFrom (unbroken source.text) := by
    constructor <;> exact fun _ hmem => absurd hmem not_mem_nil
  have hread := Script.readLines_drawn hstart hlines
  apply TypeSummary.IsDrawnFrom.isWellFormed
  · exact
      { baseTypes := fun base hbase => .of_subset (hread.baseTypes base hbase)
        interfaces := fun _ hmem => absurd hmem not_mem_nil
        members := hread.members
        enumValues := fun _ hmem => absurd hmem not_mem_nil
        markers := hread.classMarkers
        routeBase := .nil _ }
  · intro hkind
    cases hkind
  · exact fun _ => rfl
  · intro _ member hmember hunderscore
    have hshown := hread.shown member hmember
    rw [Script.isHidden, hunderscore] at hshown
    simpa using hshown

/-! ## All built-in parsers -/

def Dialect.parser : Dialect → Parser
  | .csharp => .csharp
  | .typescript => .typescript

theorem Dialect.parse_parser (dialect : Dialect) (source : Source) :
    dialect.parser.parse source = .ok (scanBraceSource dialect source) := by
  cases dialect <;> rfl

/-- A built-in parser is that of a brace language or the one for scripts. -/
theorem mem_builtins_iff {parser : Parser} :
    parser ∈ Parser.builtins ↔ (∃ dialect : Dialect, parser = dialect.parser) ∨ parser = .gdscript := by
  simp only [Parser.builtins, mem_cons, not_mem_nil, or_false]
  constructor
  · rintro (rfl | rfl | rfl)
    · exact Or.inl ⟨.csharp, rfl⟩
    · exact Or.inl ⟨.typescript, rfl⟩
    · exact Or.inr rfl
  · rintro (⟨dialect, rfl⟩ | rfl)
    · cases dialect
      · exact Or.inl rfl
      · exact Or.inr (Or.inl rfl)
    · exact Or.inr (Or.inr rfl)

/-- Every built-in parser gives a well-formed summary of every source, and scripts have no
endpoints. In a brace language no member of a class or record has the name of its type, and the
endpoints are those of the methods with a verb marker, one for each and in their order; the HTTP
method is one of the known ones, but for a C# source that spells it with a dotted capital `I`. -/
theorem builtins_wellFormed (source : Source) :
    (∀ parser ∈ Parser.builtins, ∃ file, parser.parse source = .ok file ∧
      (∀ type ∈ file.types, type.IsWellFormed) ∧ ∀ endpoint ∈ file.endpoints, '\n' ∉ endpoint.route) ∧
    (∃ file, Parser.gdscript.parse source = .ok file ∧ file.endpoints = []) ∧
    ∀ dialect : Dialect, ∃ file, dialect.parser.parse source = .ok file ∧
      (∀ type ∈ file.types, type.kind = .classType ∨ type.kind = .record →
        ∀ member ∈ type.members, member.name ≠ type.name) ∧
      Forall₂ (Endpoint.IsServedBy dialect) file.endpoints (dialect.servers file.types) ∧
      ∀ endpoint ∈ file.endpoints, endpoint.httpMethod ∈ httpMethods ∨
        dialect = .csharp ∧ endpoint.httpMethod = dottedOptions ∧ dottedI ∈ source.text := by
  refine ⟨fun parser hparser => ?_, ⟨_, rfl, rfl⟩, fun dialect => ?_⟩
  · obtain ⟨dialect, rfl⟩ | rfl := mem_builtins_iff.mp hparser
    · refine ⟨_, dialect.parse_parser source, fun type htype => ?_, fun endpoint hendpoint => ?_⟩
      · obtain ⟨declaration, body, rfl, hdeclaration, hlines⟩ := exists_of_mem_scanTypes htype
        exact buildType_isWellFormed hdeclaration hlines
      · exact notMem_of_drawnFrom_unbroken (scanTypes_endpoints_drawn hendpoint).route
    · refine ⟨_, rfl, scan_isWellFormed source, fun endpoint hendpoint => ?_⟩
      exact absurd hendpoint not_mem_nil
  · have hserved := dialect.forall₂_flatMap_endpoints (scanTypes dialect source.text)
    refine ⟨_, dialect.parse_parser source, fun type htype hkind member hmember => ?_, hserved, ?_⟩
    · obtain ⟨declaration, body, rfl, -, hlines⟩ := exists_of_mem_scanTypes htype
      exact name_ne_of_mem_buildType hlines hkind hmember
    · exact fun endpoint hendpoint => httpMethod_of_mem_endpoints hendpoint

/-- A C# source that spells an HTTP method with a dotted capital `I`. -/
def dottedSource : Source :=
  { path := "Api.cs".toList
    extension := ".cs".toList
    text := "public class ApiController\n\x7b\n".toList ++ "  [HttpOpt\u0130ons(\"list\")]\n".toList ++
      "  public void List() \x7b \x7d\n\x7d\n".toList }

theorem dottedSource_served :
    ∃ file, Parser.csharp.parse dottedSource = .ok file ∧
      Forall₂ (Endpoint.IsServedBy .csharp) file.endpoints (Dialect.csharp.servers file.types) ∧
      file.endpoints.map (·.httpMethod) = [dottedOptions] ∧ dottedOptions ∉ httpMethods := by
  obtain ⟨file, hfile, -, hserved, -⟩ := (builtins_wellFormed dottedSource).2.2 .csharp
  obtain rfl := Except.ok.inj hfile
  refine ⟨_, rfl, hserved, ?_, by decide⟩
  simp only [scanBraceSource, scanTypes, buildType, scanMembers_eq_run]
  decide +kernel

end SourceAtlas
