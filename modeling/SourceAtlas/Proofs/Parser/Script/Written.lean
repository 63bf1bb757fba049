import SourceAtlas.Proofs.Header.Opening
import SourceAtlas.Proofs.Marker.Invocation
import SourceAtlas.Proofs.Parser.Script.ParameterRows

/-!
# Scripts as they are written

A script is written as the name of its class, its base and its members, each with its decorators on
lines of their own above it. Blank lines, comments and the indented lines of function bodies may stand
anywhere between these lines. Reading gives back what was written.
-/

namespace SourceAtlas

open List

theorem Invocation.peelDecorators_text (invocation : Invocation) :
    peelDecorators ('@' :: invocation.text) = ([invocation.marker []], []) := by
  have hends : EndsMarkers invocation.text [' '] := Or.inr ⟨by simp; decide, by decide⟩
  have hne : invocation.text ≠ [] := by
    obtain ⟨c, hhead, -⟩ := invocation.startsName_text
    rintro hnil
    simp [hnil] at hhead
  have hspaced : invocationLength? (invocation.text ++ [' ']) = some invocation.text.length :=
    invocation.invocationLength?_text (by simp) (by simp)
  have hlength := invocationLength?_of_append hends.unextended hspaced (Nat.le_refl _) hne
  have hread : readDecorator? ('@' :: invocation.text) = some ([invocation.marker []], []) := by
    refine readDecorator?_eq_some_iff.mpr ⟨_, _, _, rfl, hlength, ?_, rfl, ?_⟩
    · rw [take_length, invocation.build?_text]
    · rw [drop_length]
      rfl
  exact @Dialect.peel_of_readMarkers? .typescript _ _ (by
    rw [trimLeft_cons_of_not_blank (by decide)]
    exact hread)

namespace Script

/-! ## What is written -/

/-- A name that is shown. -/
structure ShownName extends PlainName where
  shown : text.head? ≠ some '_'

/-- A type as it stands behind a colon or an arrow. -/
structure TypeText where
  text : Text
  nonempty : text ≠ []
  trimmed : trim text = text
  plain : ':' ∉ text ∧ '=' ∉ text

/-- A member on a line of its own. -/
inductive Declaration where
  | function (name : ShownName) (parameters : { inner : Text // (splitCommas inner).isSome = true })
      (result : Option TypeText)
  | value (constant : Bool) (name : ShownName) (type : Option TypeText) (initial : Text)
  | signal (name : ShownName) (parameters : Text)
  | enumeration (name : ShownName) (body : Text)

def namedRow (keyword : String) (name : PlainName) (after : Text) : Text :=
  keyword.toList ++ ' ' :: (name.text ++ after)

namespace Declaration

def valueKeyword (constant : Bool) : String :=
  if constant then "const" else "var"

def keyword : Declaration → String
  | function _ _ _ => "func"
  | value constant _ _ _ => valueKeyword constant
  | signal _ _ => "signal"
  | enumeration _ _ => "enum"

def name : Declaration → ShownName
  | function name _ _ | value _ name _ _ | signal name _ | enumeration name _ => name

def after : Declaration → Text
  | function _ parameters result =>
    '(' :: (parameters.1 ++ ')' :: ((result.map (" -> ".toList ++ ·.text)).getD [] ++ [':']))
  | value _ _ type initial => (type.map (": ".toList ++ ·.text)).getD [] ++ " = ".toList ++ initial
  | signal _ parameters => '(' :: (parameters ++ [')'])
  | enumeration _ body => ' ' :: '{' :: (body ++ ['}'])

def row (declaration : Declaration) : Text :=
  namedRow declaration.keyword declaration.name.toPlainName declaration.after

/-- The member that a line declares, below the given markers. -/
def member (markers : List Marker) : Declaration → Member
  | function name parameters result =>
    { name := name.text
      kind := .method
      declaredType := (result.map (·.text)).getD unknownType
      signature := namedRow "func" name.toPlainName ('(' :: (parameters.1 ++ ')' ::
        (result.map (" -> ".toList ++ ·.text)).getD []))
      markers := markers }
  | value constant name type _ =>
    let declared := (type.map (·.text)).getD unknownType
    { name := name.text
      kind := if constant then .readonly else .property
      declaredType := declared
      signature := namedRow (valueKeyword constant) name.toPlainName
        (if declared = unknownType then [] else ": ".toList ++ declared)
      markers := markers }
  | signal name parameters =>
    { name := name.text
      kind := .signal
      declaredType := unknownType
      signature := namedRow "signal" name.toPlainName ('(' :: (parameters ++ [')']))
      markers := markers }
  | enumeration name _ =>
    { name := name.text
      kind := .field
      declaredType := unknownType
      signature := namedRow "enum" name.toPlainName []
      markers := markers }

end Declaration

def decoratorRow (decorator : Invocation) : Text :=
  '@' :: decorator.text

/-- A member below its decorators. -/
structure Entry where
  decorators : List Invocation
  declaration : Declaration
  plain : (decorators.map decoratorRow ++ [declaration.row]).all (!·.contains '#') = true

namespace Entry

def rows (entry : Entry) : List Text :=
  entry.decorators.map decoratorRow ++ [entry.declaration.row]

def member (entry : Entry) : Member :=
  entry.declaration.member (entry.decorators.map (·.marker []))

end Entry

/-- What a script declares. -/
structure Contents where
  className : Option PlainName
  base : Option PlainName
  entries : List Entry

namespace Contents

def rows (contents : Contents) : List Text :=
  contents.className.toList.map (namedRow "class_name" · []) ++
    (contents.base.toList.map (namedRow "extends" · []) ++ contents.entries.flatMap (·.rows))

def type (contents : Contents) (path : Text) : TypeSummary where
  name := (contents.className.map (·.text)).getD (stemOf path)
  kind := .classType
  baseTypes := contents.base.toList.map (·.text)
  interfaces := []
  members := contents.entries.map (·.member)
  enumValues := []
  markers := []
  routeBase := []

end Contents

/-- Rows that may stand between the others: blank rows, indented rows and comments. -/
def isFiller (row : Text) : Bool :=
  isBlankText row || row.head?.any fun c => c == ' ' || c == '\t' || c == '#'

variable {row : Text} {rows : List Text}

/-! ## Lines that start with a keyword -/

def keywords : List String :=
  ["class_name", "extends", "func", "var", "const", "signal", "enum"]

section

variable {keyword : String} (hkeyword : keyword ∈ keywords) (name : PlainName) (after : Text)

include hkeyword

theorem isBlank_of_mem_keyword : ∀ c ∈ keyword.toList, isBlank c = false := by
  have hsolid : keywords.all (·.toList.all (!isBlank ·)) = true := by decide
  intro c hc
  simpa using all_eq_true.mp (all_eq_true.mp hsolid keyword hkeyword) c hc

theorem exists_keyword_cons : ∃ c rest, keyword.toList = c :: rest ∧ isNameStart c = true := by
  have hstart : keywords.all (·.toList.head?.any isNameStart) = true := by decide
  obtain ⟨c, hhead, hc⟩ := (Option.any_eq_true ..).mp (all_eq_true.mp hstart keyword hkeyword)
  obtain ⟨rest, hrest⟩ := head?_eq_some_iff.mp hhead
  exact ⟨c, rest, hrest, hc⟩

theorem afterKeyword?_namedRow :
    afterKeyword? keyword (namedRow keyword name after) = some (name.text ++ after) := by
  obtain ⟨c, hhead, hc⟩ := name.startsName_append after
  have hsolid : ∀ word ∈ [keyword.toList], ∀ c ∈ word, isBlank c = false := by
    rintro word hword
    rw [mem_singleton.mp hword]
    exact isBlank_of_mem_keyword hkeyword
  rw [afterKeyword?, namedRow, dropWord?_word hsolid (mem_singleton_self _) (by decide),
    trimLeft_of_head? hhead (isBlank_eq_false_of_isWord (isWord_of_isNameStart hc))]

theorem afterKeyword?_of_ne {other : String} (hother : other.toList.all (!isBlank ·) = true)
    (hne : other ≠ keyword) : afterKeyword? other (namedRow keyword name after) = none := by
  have hrun : ∀ {word : Text} {blank : Char} (rest : Text), (∀ c ∈ word, isBlank c = false) →
      isBlank blank = true → (word ++ blank :: rest).takeWhile (!isBlank ·) = word := by
    intro word blank rest hword hblank
    exact takeWhile_append_of_stop (by simpa using hword) (by simpa using hblank)
  cases hafter : afterKeyword? other (namedRow keyword name after) with
  | none => rfl
  | some rest =>
    obtain ⟨word, hword, blank, tail, htext, hblank, -⟩ := dropWord?_eq_some hafter
    obtain rfl := mem_singleton.mp hword
    have hfirst := hrun (name.text ++ after) (isBlank_of_mem_keyword hkeyword)
      (by decide : isBlank ' ' = true)
    have hsecond := hrun tail (by simpa using hother) hblank
    rw [namedRow] at htext
    rw [← htext, hfirst] at hsecond
    exact absurd (String.toList_inj.mp hsecond.symm) hne

end

theorem splitWord?_name (name : PlainName) {after : Text}
    (hafter : ∀ c ∈ after.head?, isWord c = false) :
    splitWord? (name.text ++ after) = some (name.text, after) := by
  have hwords : ∀ c ∈ name.text, isWord c = true := fun c hc => name.isWord_of_mem hc
  unfold splitWord?
  simp [takeWhile_append_of_stop hwords hafter, dropWhile_append_of_stop hwords hafter,
    name.isEmpty_text]

theorem namedRow_append (keyword : String) (name : PlainName) (after more : Text) :
    namedRow keyword name (after ++ more) = namedRow keyword name after ++ more := by
  simp [namedRow]

theorem getLast?_namedRow (keyword : String) (name : PlainName) {after : Text} {c : Char}
    (hlast : after.getLast? = some c) : (namedRow keyword name after).getLast? = some c := by
  simp [namedRow, getLast?_append, getLast?_cons, hlast]

section

variable {keyword : String} (hkeyword : keyword ∈ keywords) (name : PlainName) (after : Text)

include hkeyword

theorem isPassedOver_namedRow : isPassedOver (namedRow keyword name after) = false := by
  obtain ⟨c, rest, hcons, hstart⟩ := exists_keyword_cons hkeyword
  have hword := isWord_of_isNameStart hstart
  have hblank : isBlankText (namedRow keyword name after) = false :=
    isBlankText_of_head? (by simp [namedRow, hcons]) (isBlank_eq_false_of_isWord hword)
  rw [isPassedOver, hblank]
  simp [namedRow, hcons, ne_of_kind hword (by decide : isWord ' ' = false),
    ne_of_kind hword (by decide : isWord '\t' = false),
    ne_of_kind hword (by decide : isWord '#' = false)]

theorem codeOfLine_namedRow (hplain : '#' ∉ namedRow keyword name after) :
    codeOfLine (namedRow keyword name after) = ([], trimRight (namedRow keyword name after)) := by
  obtain ⟨c, rest, hcons, hstart⟩ := exists_keyword_cons hkeyword
  have hword := isWord_of_isNameStart hstart
  have hrow : namedRow keyword name after = [c] ++ (rest ++ ' ' :: (name.text ++ after)) := by
    simp [namedRow, hcons]
  rw [codeOfLine, dropComment_of_notMem hplain, hrow,
    trimRight_append_of_getLast? rfl (isBlank_eq_false_of_isWord hword)]
  exact @Dialect.peel_of_head? .typescript _ _ rfl (isBlank_eq_false_of_isWord hword)
    (ne_of_kind hword (by decide : isWord '@' = false))

theorem dropStatic_namedRow :
    dropStatic (namedRow keyword name after) = namedRow keyword name after := by
  have hne : "static" ≠ keyword := by
    rintro rfl
    exact absurd hkeyword (by decide)
  rw [dropStatic, afterKeyword?_of_ne hkeyword name after (by decide) hne]
  rfl

theorem functionHeader?_of_ne (hne : "func" ≠ keyword) :
    functionHeader? (namedRow keyword name after) = none := by
  rw [functionHeader?, dropStatic_namedRow hkeyword,
    afterKeyword?_of_ne hkeyword name after (by decide) hne]
  rfl

theorem variableParts?_of_ne (hvar : "var" ≠ keyword) (hconst : "const" ≠ keyword) :
    variableParts? (namedRow keyword name after) = none := by
  rw [variableParts?, dropStatic_namedRow hkeyword]
  simp [afterKeyword?_of_ne hkeyword name after (by decide) hvar,
    afterKeyword?_of_ne hkeyword name after (by decide) hconst]

theorem readLine_namedRow (hclass : "class_name" ≠ keyword) (hextends : "extends" ≠ keyword)
    {raw : Text} (hpassed : isPassedOver raw = false)
    (hcode : codeOfLine raw = ([], namedRow keyword name after)) (progress : Progress)
    (below : List Text) :
    readLine progress raw below =
      (progress.add (member (namedRow keyword name after) below progress.pending).1,
        (member (namedRow keyword name after) below progress.pending).2) := by
  have hne : namedRow keyword name after ≠ [] := by simp [namedRow]
  have hname : className? (namedRow keyword name after) = none := by
    rw [className?, afterKeyword?_of_ne hkeyword name after (by decide) hclass]
    rfl
  have hbase : extendsBase? (namedRow keyword name after) = none := by
    rw [extendsBase?, afterKeyword?_of_ne hkeyword name after (by decide) hextends]
    rfl
  rw [readLine_member hpassed hcode hne hname hbase, append_nil]

end

/-! ## The lines of the class -/

theorem trimRight_namedRow_nil (keyword : String) (name : PlainName) :
    trimRight (namedRow keyword name []) = namedRow keyword name [] := by
  obtain ⟨front, c, hname⟩ := (eq_nil_or_concat name.text).resolve_left (by
    obtain ⟨c, rest, hcons, -⟩ := name.exists_cons
    simp [hcons])
  have hlast : (namedRow keyword name []).getLast? = some c := by
    simp [namedRow, hname, getLast?_append, getLast?_cons]
  exact trimRight_of_getLast? hlast (isBlank_eq_false_of_isWord (name.isWord_of_mem (by simp [hname])))

theorem codeOfLine_namedRow_nil {keyword : String} (hkeyword : keyword ∈ keywords) (name : PlainName) :
    codeOfLine (namedRow keyword name []) = ([], namedRow keyword name []) := by
  have hplain : keywords.all (!·.toList.contains '#') = true := by decide
  rw [codeOfLine_namedRow hkeyword, trimRight_namedRow_nil]
  intro hmem
  rcases mem_append.mp hmem with hmem | hmem
  · simpa [hmem] using all_eq_true.mp hplain keyword hkeyword
  · rw [append_nil, mem_cons] at hmem
    exact absurd (name.isWord_of_mem (hmem.resolve_left (by decide))) (by decide)

theorem readLine_classRow (name : PlainName) (progress : Progress) (below : List Text) :
    readLine progress (namedRow "class_name" name []) below =
      ({ progress with
          className := some name.text
          classMarkers := progress.classMarkers ++ progress.pending
          pending := [] }, below) := by
  have hkeyword : "class_name" ∈ keywords := by decide
  have hname : className? (namedRow "class_name" name []) = some (name.text, []) := by
    rw [className?, afterKeyword?_namedRow hkeyword, Option.bind_some]
    exact splitWord?_name name (by simp)
  rw [readLine_className (isPassedOver_namedRow hkeyword name [])
    (codeOfLine_namedRow_nil hkeyword name) (by simp [namedRow]) hname, Progress.describe, append_nil]
  rfl

theorem readLine_extendsRow (base : PlainName) (progress : Progress) (below : List Text) :
    readLine progress (namedRow "extends" base []) below =
      ({ progress with
          baseTypes := [base.text]
          classMarkers := progress.classMarkers ++ progress.pending
          pending := [] }, below) := by
  have hkeyword : "extends" ∈ keywords := by decide
  have hname : className? (namedRow "extends" base []) = none := by
    rw [className?, afterKeyword?_of_ne hkeyword base [] (by decide) (by decide)]
    rfl
  have hdotted : base.text.takeWhile isDottedWord = base.text := by
    rw [takeWhile_eq_self_iff]
    exact fun c hc => by simp [isDottedWord, base.isWord_of_mem hc]
  have hbase : extendsBase? (namedRow "extends" base []) = some base.text := by
    rw [extendsBase?, afterKeyword?_namedRow hkeyword, append_nil]
    simp only [Option.bind_eq_bind, Option.bind_some, hdotted, base.isEmpty_text]
    rfl
  rw [readLine_extends (isPassedOver_namedRow hkeyword base [])
    (codeOfLine_namedRow_nil hkeyword base) (by simp [namedRow]) hname hbase, Progress.describe,
    append_nil]

/-! ## Types -/

theorem resultType?_colon : resultType? [':'] = none := by
  decide

theorem resultType?_arrow (type : TypeText) :
    resultType? (" -> ".toList ++ type.text ++ [':']) = some type.text := by
  have hrest : dropHead? "->".toList (trimLeft (" -> ".toList ++ type.text ++ [':'])) =
      some (' ' :: (type.text ++ [':'])) := by
    rw [dropHead?_eq_some_iff]
    rfl
  have hstart : trimLeft (' ' :: (type.text ++ [':'])) = type.text ++ [':'] := by
    rw [trimLeft_cons_of_blank (by decide), trimLeft, dropWhile_append_right (by simp; decide)]
    exact congrArg (· ++ [':']) (trimLeft_of_trim_eq type.trimmed)
  have hrun : (type.text ++ [':']).takeWhile (· ≠ ':') = type.text := by
    apply takeWhile_append_of_stop
    · intro c hc
      have hne : c ≠ ':' := fun heq => type.plain.1 (heq ▸ hc)
      simpa using hne
    · simp
  unfold resultType?
  simp only [Option.bind_eq_bind, hrest, Option.bind_some, hstart, hrun]
  simp [type.nonempty, trimRight_of_trim_eq type.trimmed, isBlankText]

/-! ## Members -/

namespace Declaration

theorem functionHeader?_row (name : PlainName) (tail : Text) :
    functionHeader? (namedRow "func" name ('(' :: tail)) =
      some (name.text, (namedRow "func" name []).length) := by
  have hkeyword : "func" ∈ keywords := by decide
  have hlength : (namedRow "func" name ('(' :: tail)).length - tail.length - 1 =
      (namedRow "func" name []).length := by
    simp [namedRow]
    omega
  unfold functionHeader?
  rw [dropStatic_namedRow hkeyword, afterKeyword?_namedRow hkeyword]
  simp only [Option.bind_eq_bind, Option.bind_some]
  rw [splitWord?_name name (by simp; decide), Option.bind_some,
    trimLeft_cons_of_not_blank (by decide)]
  simp only [hlength]

theorem member_functionRow (name : PlainName) {parameters : Text} (hparameters : Balanced parameters)
    (tail : Text) (below : List Text) (markers : List Marker) :
    Script.member (namedRow "func" name ('(' :: (parameters ++ ')' :: tail))) below markers =
      (some (functionMember name.text markers (namedRow "func" name ('(' :: (parameters ++ [')'])))
        (resultType? tail)), below) := by
  have hrow : namedRow "func" name ('(' :: (parameters ++ ')' :: tail)) =
      namedRow "func" name ('(' :: (parameters ++ [')'])) ++ tail := by
    rw [← namedRow_append]
    simp
  have hclose : findParen (namedRow "func" name ('(' :: (parameters ++ ')' :: tail)))
      (namedRow "func" name []).length =
        some ((namedRow "func" name []).length + parameters.length + 1) := by
    rw [← findParen_enclosed hparameters (namedRow "func" name []) tail, ← namedRow_append]
    rfl
  have hlength : (namedRow "func" name ('(' :: (parameters ++ [')']))).length =
      (namedRow "func" name []).length + parameters.length + 1 + 1 := by
    simp [namedRow]
    omega
  rw [Script.member, functionHeader?_row]
  dsimp only
  rw [function_eq, joinParameters_of_closed (by rw [hclose]; rfl)]
  simp only [hclose, Option.map_some]
  rw [hrow, ← hlength, take_left, drop_left]

theorem member_function (name : ShownName)
    (parameters : { inner : Text // (splitCommas inner).isSome = true }) (result : Option TypeText)
    (below : List Text) (markers : List Marker) :
    Script.member (function name parameters result).row below markers =
      (some ((function name parameters result).member markers), below) := by
  obtain ⟨segments, hsegments, -⟩ :=
    Option.map_eq_some_iff.mp (Option.eq_some_of_isSome parameters.2)
  have hresult : resultType? ((result.map (" -> ".toList ++ ·.text)).getD [] ++ [':']) =
      result.map (·.text) := by
    cases result with
    | none => exact resultType?_colon
    | some type => exact resultType?_arrow type
  have hkind : (name.text == "_init".toList) = false := by
    rw [beq_eq_false_iff_ne]
    intro heq
    exact name.shown (by rw [heq]; rfl)
  have hsignature : namedRow "func" name.toPlainName ('(' :: (parameters.1 ++ [')'])) ++
      ((result.map (·.text)).map (" -> ".toList ++ ·)).getD [] =
        ((function name parameters result).member markers).signature := by
    rw [← namedRow_append, Option.map_map]
    exact congrArg (namedRow "func" name.toPlainName) (by simp; rfl)
  have hmember := member_functionRow name.toPlainName (closes_of_segmentsFrom hsegments)
    ((result.map (" -> ".toList ++ ·.text)).getD [] ++ [':']) below markers
  rw [hresult, functionMember, hkind, hsignature] at hmember
  exact hmember

variable (constant : Bool) (name : PlainName) {after : Text}

theorem findSome?_valueKeyword : ["var", "const"].findSome? (fun keyword =>
        (afterKeyword? keyword (namedRow (valueKeyword constant) name after)).map (keyword.toList, ·)) =
      some ((valueKeyword constant).toList, name.text ++ after) := by
  cases constant with
  | false =>
    have hafter := @afterKeyword?_namedRow "var" (by decide) name after
    simp [valueKeyword, hafter]
  | true =>
    have hvar := @afterKeyword?_of_ne "const" (by decide) name after "var" (by decide) (by decide)
    have hafter := @afterKeyword?_namedRow "const" (by decide) name after
    simp [valueKeyword, hvar, hafter]

theorem valueKeyword_mem : valueKeyword constant ∈ keywords := by
  cases constant <;> decide

theorem variableParts?_untyped (rest : Text) :
    variableParts? (namedRow (valueKeyword constant) name (' ' :: '=' :: rest)) =
      some ((valueKeyword constant).toList, name.text, unknownType) := by
  have hword : splitWord? (name.text ++ ' ' :: '=' :: rest) = some (name.text, ' ' :: '=' :: rest) :=
    splitWord?_name name (by simp; decide)
  have htrim : trimLeft (' ' :: '=' :: rest) = '=' :: rest := by
    rw [trimLeft_cons_of_blank (by decide), trimLeft_cons_of_not_blank (by decide)]
  unfold variableParts?
  simp only [dropStatic_namedRow (valueKeyword_mem constant), findSome?_valueKeyword,
    Option.bind_eq_bind, Option.bind_some, hword, htrim]

theorem variableParts?_typed (type : TypeText) (rest : Text) :
    variableParts? (namedRow (valueKeyword constant) name
        (':' :: ' ' :: (type.text ++ ' ' :: '=' :: rest))) =
      some ((valueKeyword constant).toList, name.text, type.text) := by
  have hword : ∀ more, splitWord? (name.text ++ ':' :: more) = some (name.text, ':' :: more) :=
    fun more => splitWord?_name name (by simp; decide)
  have hrun : (' ' :: (type.text ++ ' ' :: '=' :: rest)).takeWhile (fun c => c != '=' && c != ':') =
      [' '] ++ type.text ++ [' '] := by
    have hsplit : ' ' :: (type.text ++ ' ' :: '=' :: rest) =
        ([' '] ++ type.text ++ [' ']) ++ '=' :: rest := by simp
    rw [hsplit]
    apply takeWhile_append_of_stop
    · intro c hc
      simp only [mem_append, mem_singleton, or_assoc] at hc
      rcases hc with rfl | hc | rfl
      · rfl
      · have hequals : c ≠ '=' := fun heq => type.plain.2 (heq ▸ hc)
        have hcolon : c ≠ ':' := fun heq => type.plain.1 (heq ▸ hc)
        simp [hequals, hcolon]
      · rfl
    · simp
  have hblank : ∀ c ∈ [' '], isBlank c = true := by simp; decide
  have htrim : trim ([' '] ++ type.text ++ [' ']) = type.text := by
    rw [trim_append_of_blanks hblank, trim_blanks_append hblank, type.trimmed]
  have hdeclared : typeOrUnknown type.text = type.text := by simp [typeOrUnknown, type.nonempty]
  unfold variableParts?
  simp only [dropStatic_namedRow (valueKeyword_mem constant), findSome?_valueKeyword,
    Option.bind_eq_bind, Option.bind_some, hword,
    trimLeft_cons_of_not_blank (by decide : isBlank ':' = false), hrun, htrim, hdeclared]

theorem member_valueRow {declared : Text}
    (hparts : variableParts? (namedRow (valueKeyword constant) name after) =
      some ((valueKeyword constant).toList, name.text, declared))
    (below : List Text) (markers : List Marker) :
    Script.member (namedRow (valueKeyword constant) name after) below markers =
      (some
        { name := name.text
          kind := if constant then .readonly else .property
          declaredType := declared
          signature := namedRow (valueKeyword constant) name
            (if declared = unknownType then [] else ": ".toList ++ declared)
          markers := markers }, below) := by
  have hkeyword := valueKeyword_mem constant
  have hfunc : "func" ≠ valueKeyword constant := by cases constant <;> decide
  have hsignal : "signal" ≠ valueKeyword constant := by cases constant <;> decide
  have hkind : ((valueKeyword constant).toList == "const".toList) = constant := by
    cases constant <;> decide
  rw [Script.member, functionHeader?_of_ne hkeyword name after hfunc]
  unfold plainMember?
  rw [afterKeyword?_of_ne hkeyword name after (by decide) hsignal, Option.bind_none, hparts]
  simp only [hkind]
  by_cases hdeclared : declared = unknownType
  · simp [namedRow, hdeclared]
  · simp [namedRow, hdeclared]

theorem member_signalRow (parameters : Text) (below : List Text) (markers : List Marker) :
    Script.member (namedRow "signal" name ('(' :: (parameters ++ [')']))) below markers =
      (some
        { name := name.text
          kind := .signal
          declaredType := unknownType
          signature := namedRow "signal" name ('(' :: (parameters ++ [')']))
          markers := markers }, below) := by
  have hkeyword : "signal" ∈ keywords := by decide
  have hword : ∀ more, splitWord? (name.text ++ '(' :: more) = some (name.text, '(' :: more) :=
    fun more => splitWord?_name name (by simp; decide)
  have hsplit : namedRow "signal" name ('(' :: (parameters ++ [')'])) =
      namedRow "signal" name ('(' :: parameters) ++ [')'] := by
    rw [← namedRow_append]
    rfl
  have hsignature : trimRight (dropEndWhile (· == ':')
      (namedRow "signal" name ('(' :: (parameters ++ [')'])))) =
        namedRow "signal" name ('(' :: (parameters ++ [')'])) := by
    rw [hsplit, dropEndWhile_append_singleton (by decide), trimRight_append_singleton (by decide)]
  rw [Script.member, functionHeader?_of_ne hkeyword name _ (by decide)]
  unfold plainMember?
  rw [afterKeyword?_namedRow hkeyword, Option.bind_some, hword]
  simp only [hsignature]

theorem member_enumRow (rest : Text) (below : List Text) (markers : List Marker) :
    Script.member (namedRow "enum" name (' ' :: rest)) below markers =
      (some
        { name := name.text
          kind := .field
          declaredType := unknownType
          signature := namedRow "enum" name []
          markers := markers }, below) := by
  have hkeyword : "enum" ∈ keywords := by decide
  have hword : splitWord? (name.text ++ ' ' :: rest) = some (name.text, ' ' :: rest) :=
    splitWord?_name name (by simp; decide)
  rw [Script.member, functionHeader?_of_ne hkeyword name _ (by decide)]
  unfold plainMember?
  rw [afterKeyword?_of_ne hkeyword name _ (by decide) (by decide), Option.bind_none,
    variableParts?_of_ne hkeyword name _ (by decide) (by decide), afterKeyword?_namedRow hkeyword,
    Option.bind_some, hword]
  simp [namedRow]

theorem exists_trimRight_row (declaration : Declaration) :
    ∃ after,
      trimRight declaration.row = namedRow declaration.keyword declaration.name.toPlainName after ∧
      ∀ below markers,
        Script.member (namedRow declaration.keyword declaration.name.toPlainName after) below markers =
          (some (declaration.member markers), below) := by
  -- a line that ends with another character than a blank is not trimmed
  have hwhole : ∀ {c : Char}, declaration.after.getLast? = some c → isBlank c = false →
      trimRight declaration.row = declaration.row := fun hlast hc =>
    trimRight_of_getLast? (getLast?_namedRow _ _ hlast) hc
  cases declaration with
  | function name parameters result =>
    refine ⟨_, @hwhole ':' ?_ (by decide), member_function name parameters result⟩
    simp [after, getLast?_append, getLast?_cons]
  | value constant name type initial =>
    have htrim : ∀ front : Text, trimRight (namedRow (valueKeyword constant) name.toPlainName
        (front ++ " = ".toList ++ initial)) =
          namedRow (valueKeyword constant) name.toPlainName
            (front ++ " =".toList ++ trimRight (' ' :: initial)) := by
      intro front
      have hlast : (front ++ " =".toList).getLast? = some '=' := by simp
      have hsplit : front ++ " = ".toList ++ initial = (front ++ " =".toList) ++ ' ' :: initial := by
        simp
      have hrowLast := getLast?_namedRow (valueKeyword constant) name.toPlainName hlast
      have hrow := trimRight_append_of_getLast? hrowLast (by decide) (' ' :: initial)
      rwa [← namedRow_append, ← namedRow_append, ← hsplit] at hrow
    refine ⟨_, htrim _, ?_⟩
    cases type with
    | none => exact member_valueRow constant name.toPlainName (variableParts?_untyped constant _ _)
    | some type =>
      apply member_valueRow constant name.toPlainName
      simpa using variableParts?_typed constant name.toPlainName type (trimRight (' ' :: initial))
  | signal name parameters =>
    refine ⟨_, @hwhole ')' ?_ (by decide), member_signalRow name.toPlainName parameters⟩
    simp [after, getLast?_cons]
  | enumeration name body =>
    refine ⟨_, @hwhole '}' ?_ (by decide), member_enumRow name.toPlainName ('{' :: (body ++ ['}']))⟩
    simp [after, getLast?_cons]

theorem keyword_mem_drop (declaration : Declaration) : declaration.keyword ∈ keywords.drop 2 := by
  cases declaration with
  | function => exact (by decide : "func" ∈ keywords.drop 2)
  | value constant => cases constant <;> exact mem_of_elem_eq_true (by rfl)
  | signal => exact (by decide : "signal" ∈ keywords.drop 2)
  | enumeration => exact (by decide : "enum" ∈ keywords.drop 2)

theorem isHidden_name (markers : List Marker) (declaration : Declaration) :
    isHidden (declaration.member markers).name = false := by
  have hname : (declaration.member markers).name = declaration.name.text := by
    cases declaration <;> rfl
  have hhead : (declaration.name.text.head? == some '_') = false := by
    simpa using declaration.name.shown
  rw [hname, isHidden, hhead]
  rfl

theorem readLine_row (declaration : Declaration) (hplain : '#' ∉ declaration.row) (progress : Progress)
    (below : List Text) :
    readLine progress declaration.row below =
      ({ progress with
          pending := []
          members := progress.members ++ [declaration.member progress.pending] }, below) := by
  obtain ⟨after, htrim, hmember⟩ := declaration.exists_trimRight_row
  have hkeyword := mem_of_mem_drop declaration.keyword_mem_drop
  have hne : ∀ other ∉ keywords.drop 2, other ≠ declaration.keyword := by
    rintro other hother rfl
    exact hother declaration.keyword_mem_drop
  have hpassed := isPassedOver_namedRow hkeyword declaration.name.toPlainName declaration.after
  have hcode := codeOfLine_namedRow hkeyword declaration.name.toPlainName declaration.after hplain
  have hread := readLine_namedRow hkeyword _ after (hne _ (by decide)) (hne _ (by decide)) hpassed
    (hcode.trans (congrArg (Prod.mk []) htrim)) progress below
  rw [hmember] at hread
  rw [row, hread]
  simp [Progress.add, isHidden_name]

end Declaration

/-! ## Whole scripts -/

theorem codeOfLine_decoratorRow {decorator : Invocation} (hplain : '#' ∉ decoratorRow decorator) :
    codeOfLine (decoratorRow decorator) = ([decorator.marker []], []) := by
  have htrim : trimRight (['@'] ++ decorator.text) = ['@'] ++ decorator.text := by
    rw [trimRight_append_of_getLast? rfl (by decide), trimRight_of_trim_eq decorator.trim_text]
  rw [codeOfLine, dropComment_of_notMem hplain]
  exact (congrArg peelDecorators htrim).trans decorator.peelDecorators_text

theorem readLine_decoratorRow {decorator : Invocation} (hplain : '#' ∉ decoratorRow decorator)
    (progress : Progress) (below : List Text) :
    readLine progress (decoratorRow decorator) below =
      ({ progress with pending := progress.pending ++ [decorator.marker []] }, below) := by
  have hblank : isBlankText (decoratorRow decorator) = false := isBlankText_of_head? rfl (by decide)
  have hpassed : isPassedOver (decoratorRow decorator) = false := by
    rw [isPassedOver, hblank]
    rfl
  exact readLine_markers hpassed (codeOfLine_decoratorRow hplain) progress below

namespace Entry

variable (entry : Entry)

theorem notMem_rows : ∀ row ∈ entry.rows, '#' ∉ row := by
  intro row hrow
  simpa using all_eq_true.mp entry.plain row hrow

theorem notMem_decorator {decorator : Invocation} (h : decorator ∈ entry.decorators) :
    '#' ∉ decoratorRow decorator :=
  entry.notMem_rows _ (mem_append_left _ (mem_map_of_mem h))

theorem notMem_row : '#' ∉ entry.declaration.row :=
  entry.notMem_rows _ (mem_append_right _ (mem_singleton_self _))

end Entry

section

variable (className : Option Text) (baseTypes : List Text) (members : List Member)

theorem readLines_decorators (pending : List Marker) {decorators : List Invocation}
    (hplain : ∀ decorator ∈ decorators, '#' ∉ decoratorRow decorator) (rows : List Text) :
    readLines ⟨className, baseTypes, [], pending, members⟩ (decorators.map decoratorRow ++ rows) =
      readLines ⟨className, baseTypes, [], pending ++ decorators.map (·.marker []), members⟩ rows := by
  induction decorators generalizing pending with
  | nil => rw [map_nil, nil_append, map_nil, append_nil]
  | cons decorator decorators ih =>
    rw [map_cons, cons_append, readLines_cons,
      readLine_decoratorRow (hplain decorator mem_cons_self),
      ih _ fun other hother => hplain other (mem_cons_of_mem _ hother), append_assoc]
    rfl

theorem Entry.readLines_rows (entry : Entry) (rows : List Text) :
    readLines ⟨className, baseTypes, [], [], members⟩ (entry.rows ++ rows) =
      readLines ⟨className, baseTypes, [], [], members ++ [entry.member]⟩ rows := by
  rw [Entry.rows, append_assoc,
    readLines_decorators className baseTypes members [] fun _ h => entry.notMem_decorator h,
    singleton_append, readLines_cons, entry.declaration.readLine_row entry.notMem_row]
  rfl

theorem readLines_entries (entries : List Entry) :
    readLines ⟨className, baseTypes, [], [], members⟩ (entries.flatMap (·.rows)) =
      ⟨className, baseTypes, [], [], members ++ entries.map (·.member)⟩ := by
  induction entries generalizing members with
  | nil => rw [flatMap_nil, readLines_nil, map_nil, append_nil]
  | cons entry entries ih =>
    rw [flatMap_cons, entry.readLines_rows, ih, append_assoc]
    rfl

end

/-- What is read of the lines of a script, with nothing between them. -/
theorem Contents.readLines_rows (contents : Contents) :
    readLines .initial contents.rows =
      ⟨contents.className.map (·.text), contents.base.toList.map (·.text), [], [],
        contents.entries.map (·.member)⟩ := by
  obtain ⟨className, base, entries⟩ := contents
  have hbase : ∀ name, readLines ⟨name, [], [], [], []⟩
      (base.toList.map (namedRow "extends" · []) ++ entries.flatMap (·.rows)) =
        ⟨name, base.toList.map (·.text), [], [], entries.map (·.member)⟩ := by
    intro name
    cases base with
    | none => exact readLines_entries name [] [] entries
    | some base =>
      change readLines _ (namedRow "extends" base [] :: entries.flatMap (·.rows)) = _
      rw [readLines_cons, readLine_extendsRow]
      exact readLines_entries name [base.text] [] entries
  cases className with
  | none => exact hbase none
  | some name =>
    change readLines _ (namedRow "class_name" name [] :: (_ ++ _)) = _
    rw [readLines_cons, readLine_classRow]
    exact hbase (some name.text)

/-! ## Fillers -/

def StandsAlone (row : Text) : Prop :=
  ∃ next : Progress → Progress, ∀ progress below, readLine progress row below = (next progress, below)

theorem Contents.standsAlone (contents : Contents) : ∀ row ∈ contents.rows, StandsAlone row := by
  intro row hrow
  rcases mem_append.mp hrow with hrow | hrow
  · obtain ⟨name, -, rfl⟩ := mem_map.mp hrow
    exact ⟨_, readLine_classRow name⟩
  · rcases mem_append.mp hrow with hrow | hrow
    · obtain ⟨base, -, rfl⟩ := mem_map.mp hrow
      exact ⟨_, readLine_extendsRow base⟩
    · obtain ⟨entry, -, hrow⟩ := mem_flatMap.mp hrow
      rcases mem_append.mp hrow with hrow | hrow
      · obtain ⟨decorator, hdecorator, rfl⟩ := mem_map.mp hrow
        exact ⟨_, readLine_decoratorRow (entry.notMem_decorator hdecorator)⟩
      · obtain rfl := mem_singleton.mp hrow
        exact ⟨_, entry.declaration.readLine_row entry.notMem_row⟩

theorem isPassedOver_of_isFiller (h : isFiller row = true) : isPassedOver row = true := by
  rw [isFiller, Bool.or_eq_true] at h
  rcases h with hblank | hhead
  · simp [isPassedOver, hblank]
  · obtain ⟨c, hc, hfiller⟩ := (Option.any_eq_true ..).mp hhead
    rw [isPassedOver, hc]
    simp only [Bool.or_eq_true, beq_iff_eq, or_assoc] at hfiller ⊢
    rcases hfiller with rfl | rfl | rfl <;> simp

theorem readLines_filter (h : ∀ row ∈ rows.filter (!isFiller ·), StandsAlone row)
    (progress : Progress) :
    readLines progress rows = readLines progress (rows.filter (!isFiller ·)) := by
  induction rows generalizing progress with
  | nil => rfl
  | cons row rows ih =>
    cases hfiller : isFiller row with
    | true =>
      rw [filter_cons_of_neg (by simp [hfiller])] at h ⊢
      rw [readLines_cons, readLine_passedOver (isPassedOver_of_isFiller hfiller)]
      exact ih h progress
    | false =>
      rw [filter_cons_of_pos (by simp [hfiller])] at h ⊢
      obtain ⟨next, hnext⟩ := h row mem_cons_self
      rw [readLines_cons, readLines_cons, hnext, hnext]
      exact ih (fun other hother => h other (mem_cons_of_mem _ hother)) (next progress)

/-- Reading gives back what was written: one class with the members in their order, each with its
kind, its type and the markers above it, whatever fillers stand between the lines. -/
theorem scan_written (source : Source) (contents : Contents)
    (h : (lines source.text).filter (!isFiller ·) = contents.rows) :
    scan source =
      { path := source.path
        extension := source.extension
        types := [contents.type source.path]
        endpoints := []
        category := [] } := by
  have hfilter := readLines_filter (h ▸ contents.standsAlone) .initial
  rw [h, contents.readLines_rows] at hfilter
  unfold scan
  change readLines ⟨none, [], [], [], []⟩ (lines source.text) = _ at hfilter
  rw [hfilter]
  rfl

/-- A script with one member of each kind, among comments, blank lines and a function body. -/
def doorScript : Source :=
  { path := "scenes/door.gd".toList
    extension := ".gd".toList
    text := "# a door\nclass_name Door\nextends Node2D\n\n@export\n# in degrees\n".toList ++
      "@export_range(0, 90)\nvar angle: float = 0.0\nconst STEP = 5 \nsignal opened(by)\n".toList ++
      "enum State \x7b SHUT, OPEN \x7d\n\nfunc open(by: Node) -> bool:\n\tangle = 90\n".toList ++
      "\treturn true\n".toList }

def doorContents : Contents where
  className := some ⟨"Door".toList, by decide⟩
  base := some ⟨"Node2D".toList, by decide⟩
  entries :=
    [{ decorators :=
         [⟨⟨"export".toList, by decide⟩, none⟩,
          ⟨⟨"export_range".toList, by decide⟩,
            some ⟨"0, 90".toList, .of_inert (all_eq_true.mp (by decide))⟩⟩]
       declaration :=
         .value false ⟨⟨"angle".toList, by decide⟩, by decide⟩
           (some ⟨"float".toList, by decide, by decide, by decide⟩) "0.0".toList
       plain := by decide +kernel },
     { decorators := []
       declaration := .value true ⟨⟨"STEP".toList, by decide⟩, by decide⟩ none "5 ".toList
       plain := by decide +kernel },
     { decorators := []
       declaration := .signal ⟨⟨"opened".toList, by decide⟩, by decide⟩ "by".toList
       plain := by decide +kernel },
     { decorators := []
       declaration := .enumeration ⟨⟨"State".toList, by decide⟩, by decide⟩ " SHUT, OPEN ".toList
       plain := by decide +kernel },
     { decorators := []
       declaration :=
         .function ⟨⟨"open".toList, by decide⟩, by decide⟩ ⟨"by: Node".toList, by decide +kernel⟩
           (some ⟨"bool".toList, by decide, by decide, by decide⟩)
       plain := by decide +kernel }]

theorem scan_doorScript :
    (lines doorScript.text).filter (!isFiller ·) = doorContents.rows ∧
      scan doorScript =
        { path := doorScript.path
          extension := doorScript.extension
          types := [doorContents.type doorScript.path]
          endpoints := []
          category := [] } := by
  have hlines : (lines doorScript.text).filter (!isFiller ·) = doorContents.rows := by decide +kernel
  exact ⟨hlines, scan_written doorScript doorContents hlines⟩

end Script

end SourceAtlas
