import SourceAtlas.Proofs.Header.Parameters
import SourceAtlas.Proofs.Marker.Invocation
import SourceAtlas.Proofs.TypeScript.Tokenize

/-!
# TypeScript parameter lists

A parameter is written with its decorators, its name and its type, and a default value may follow. The
default value is cut off at the first top-level `=`. That sign may belong to the arrow of a function
type, and then the rest of the type is lost with it.
-/

namespace SourceAtlas.TypeScript

open List Option

/-! ## Entries -/

/-- An entry of a parameter list. Its type is the text behind the colon. -/
structure ParameterEntry where
  decorators : List Invocation
  name : Name isPlainStart
  isOptional : Bool
  type : Text
  single : IsPiece ',' type
  value : Option { value : Text // IsPiece ',' value }

namespace ParameterEntry

variable (entry : ParameterEntry)

/-- The name, the mark of an optional parameter and the colon. -/
def label : Text :=
  entry.name.text ++ (if entry.isOptional then ['?', ':'] else [':'])

def valueText : Text :=
  (entry.value.map fun value => ' ' :: '=' :: ' ' :: value.1).getD []

def core : Text :=
  entry.label ++ (entry.type ++ entry.valueText)

def text : Text :=
  entry.decorators.flatMap (·.decoratorText) ++ entry.core

def parameter : Parameter where
  name := entry.name.text
  declaredType := squeeze entry.type
  markers := entry.decorators.map (·.marker [])

/-- The type up to its first top-level `=`. -/
def keptType : Text :=
  ((segmentsFrom ['='] [] none entry.type).map (·.1)).getD []

/-- The parameter that is read: its type ends at the first top-level `=`, and without a type in front
of that there is none. -/
def decoded? : Option Parameter :=
  if isBlankText entry.keptType then none
  else some { entry.parameter with declaredType := squeeze entry.keptType }

/-! ## The text of an entry -/

theorem isNameChar_of_mem_name {c : Char} (h : c ∈ entry.name.text) : isNameChar c = true := by
  obtain ⟨d, rest, hcons, hopens, hrest⟩ := entry.name.exists_cons
  rw [hcons] at h
  rcases mem_cons.mp h with rfl | h
  · exact isNameChar_of_isPlainStart hopens
  · exact hrest c h

theorem of_mem_label {c : Char} (h : c ∈ entry.label) : isNameChar c = true ∨ c = '?' ∨ c = ':' := by
  rcases mem_append.mp h with h | h
  · exact Or.inl (entry.isNameChar_of_mem_name h)
  · split at h <;> simp at h <;> tauto

theorem isPiece_label {separator : Char} (h : isNameChar separator = false)
    (hmark : separator ≠ '?') (hcolon : separator ≠ ':') : IsPiece separator entry.label := by
  refine .of_not_mem (.of_inert fun c hc => ?_) fun hmem => ?_
  · rcases entry.of_mem_label hc with hc | rfl | rfl
    · exact isInert_of_isNameChar hc
    · rfl
    · rfl
  · rcases entry.of_mem_label hmem with hname | rfl | rfl
    · rw [hname] at h
      cases h
    · exact hmark rfl
    · exact hcolon rfl

theorem solid_label : ∀ c ∈ entry.label, isBlank c = false := by
  intro c hc
  rcases entry.of_mem_label hc with hc | rfl | rfl
  · exact isBlank_eq_false_of_isNameChar hc
  · rfl
  · rfl

theorem colon_mem_label : ':' ∈ entry.label := by
  unfold label
  split <;> simp

theorem exists_label_eq : ∃ c rest, entry.label = c :: rest ∧ isPlainStart c = true := by
  obtain ⟨c, rest, hcons, hopens, -⟩ := entry.name.exists_cons
  exact ⟨c, _, by rw [label, hcons, cons_append], hopens⟩

theorem label_ne_nil : entry.label ≠ [] :=
  ne_nil_of_mem entry.colon_mem_label

theorem isPiece_core : IsPiece ',' entry.core := by
  have hvalue : IsPiece ',' entry.valueText := by
    cases hvalue : entry.value with
    | none => simp [valueText, hvalue, IsPiece, segmentsFrom]
    | some value =>
      have hsign : IsPiece ',' [' ', '=', ' '] := rfl
      simpa [valueText, hvalue] using hsign.append value.2
  exact (entry.isPiece_label (by decide) (by decide) (by decide)).append (entry.single.append hvalue)

theorem isPiece_text : IsPiece ',' entry.text := by
  have hdecorators : IsPiece ',' (entry.decorators.flatMap (·.decoratorText)) := by
    induction entry.decorators with
    | nil => rfl
    | cons invocation invocations ih => exact invocation.isPiece_decoratorText.append ih
  exact hdecorators.append entry.isPiece_core

theorem isBlankText_text : isBlankText entry.text = false := by
  have hmem : ':' ∈ entry.text := by
    simp [text, core, entry.colon_mem_label]
  rw [Bool.eq_false_iff]
  intro hblank
  exact absurd (all_eq_true.mp hblank ':' hmem) (by decide)

/-! ## Reading an entry -/

theorem trimLeft_core : trimLeft entry.core = entry.core := by
  obtain ⟨c, rest, hlabel, -⟩ := entry.exists_label_eq
  have hc : isBlank c = false := entry.solid_label c (by simp [hlabel])
  rw [core, hlabel, cons_append]
  exact trimLeft_cons_of_not_blank hc _

theorem trim_core : trim entry.core = trimRight entry.core := by
  rw [trim, trimLeft_core]

theorem exists_trim_core : ∃ rest, trim entry.core = entry.label ++ rest := by
  have hlast := getLast?_eq_some_getLast entry.label_ne_nil
  have hsolid := entry.solid_label _ (mem_of_getLast? hlast)
  obtain ⟨rest, hrest⟩ := prefix_trimRight hlast hsolid (entry.type ++ entry.valueText)
  exact ⟨rest, entry.trim_core.trans hrest.symm⟩

theorem trim_text : trim entry.text =
    entry.decorators.flatMap (·.decoratorText) ++ trim entry.core := by
  have hleft : trimLeft entry.text = entry.text := by
    cases hdecorators : entry.decorators with
    | nil =>
      rw [text, hdecorators]
      exact entry.trimLeft_core
    | cons invocation invocations =>
      rw [text, hdecorators]
      exact trimLeft_cons_of_not_blank (by decide : isBlank '@' = false) _
  have hmem : ':' ∈ entry.core := mem_append_left _ entry.colon_mem_label
  rw [trim, hleft, trim_core, text]
  exact dropEndWhile_append_of_mem hmem (by decide) _

theorem peelDecorators_trim_text :
    peelDecorators (trim entry.text) = (entry.parameter.markers, trim entry.core) := by
  obtain ⟨rest, hrest⟩ := entry.exists_trim_core
  obtain ⟨c, tail, hlabel, hopens⟩ := entry.exists_label_eq
  have hname := isNameChar_of_isPlainStart hopens
  have hcore : trim entry.core = c :: (tail ++ rest) := by rw [hrest, hlabel, cons_append]
  have hpeel : peelDecorators (trim entry.core) = ([], trim entry.core) := by
    rw [hcore]
    exact @Dialect.peel_of_head? .typescript _ _ rfl (isBlank_eq_false_of_isNameChar hname)
      (ne_of_kind hname (by decide))
  have hparen : (trim entry.core).head? ≠ some '(' := by
    rw [hcore]
    simpa using ne_of_kind hname (by decide)
  rw [trim_text]
  exact peelDecorators_invocations hpeel hparen entry.decorators

theorem exists_segmentsFrom_valueText : ∃ blanks others,
    segmentsFrom ['='] [] none entry.valueText = some (blanks, others) ∧
      ∀ c ∈ blanks, isBlank c = true := by
  cases hvalue : entry.value with
  | none => exact ⟨[], [], by simp [valueText, hvalue, segmentsFrom], by simp⟩
  | some value =>
    obtain ⟨segments, hsegments, -⟩ := value.2.balanced.exists_segments ['=']
    refine ⟨[' '], (' ' :: segments.1) :: segments.2, ?_, all_eq_true.mp (by decide)⟩
    have htext : entry.valueText = ' ' :: '=' :: ' ' :: value.1 := by simp [valueText, hvalue]
    rw [htext, segmentsFrom_cons_inert (by decide) (Or.inl (by decide)),
      segmentsFrom_cut (by decide), segmentsFrom_cons_inert (by decide) (Or.inl (by decide)),
      hsegments]
    rfl

/-- What is left of an entry in front of the first top-level `=`. -/
theorem exists_splitTopLevel : ∃ others,
    splitTopLevel ['='] (trim entry.core) = some (trim (entry.label ++ entry.keptType) :: others) := by
  obtain ⟨⟨front, others⟩, hfront, -, hmore⟩ := entry.single.balanced.exists_segments ['=']
  obtain ⟨blanks, more, hvalue, hblanks⟩ := entry.exists_segmentsFrom_valueText
  have hkept : entry.keptType = front := by rw [keptType, hfront]; rfl
  have hcore : segmentsFrom ['='] [] none entry.core =
      some ((Segments.glue front others (blanks, more)).prepend entry.label) := by
    rw [core, (entry.isPiece_label (by decide) (by decide) (by decide)).segmentsFrom_append, hmore,
      hvalue]
    rfl
  have hfirst : trim (entry.label ++ (Segments.glue front others (blanks, more)).1) =
      trim (entry.label ++ front) := by
    cases others with
    | nil =>
      rw [Segments.glue, ← append_assoc]
      exact trim_append_of_blanks hblanks _
    | cons second others => rfl
  have hblank : isBlankText (entry.label ++ (Segments.glue front others (blanks, more)).1) = false := by
    obtain ⟨c, rest, hlabel, -⟩ := entry.exists_label_eq
    refine isBlankText_of_head? (by rw [hlabel]; rfl) (entry.solid_label c (by simp [hlabel]))
  refine ⟨(Segments.glue front others (blanks, more)).2.map trim, ?_⟩
  rw [splitTopLevel_trim (by decide) entry.isPiece_core.balanced, splitTopLevel, hcore, hkept,
    map_some, Segments.parts, Segments.prepend, hblank, Bool.and_false]
  simp only [Bool.false_eq_true, if_false, map_cons, hfirst]

theorem dropParameterWords_label (text : Text) :
    dropParameterWords (words (entry.label ++ text)) = words (entry.label ++ text) := by
  obtain ⟨front, tail, -, hwords, -⟩ :=
    exists_words_append entry.label_ne_nil entry.solid_label text
  have hplain : parameterWords.all (!·.contains ':') = true := by decide
  have hfirst : parameterWords.contains (entry.label ++ front) = false := by
    rw [Bool.eq_false_iff, ne_eq, contains_iff_mem]
    intro hmem
    have hcolon := all_eq_true.mp hplain _ hmem
    simp [entry.colon_mem_label] at hcolon
  rw [hwords]
  cases words tail with
  | nil => rfl
  | cons second others => rw [dropParameterWords, hfirst]; rfl

theorem splitName?_label (text : Text) :
    splitName? isPlainStart (entry.label ++ text) =
      some (entry.name.text, (if entry.isOptional then ['?', ':'] else [':']) ++ text) := by
  rw [label, append_assoc]
  apply splitName?_text
  split <;> simp <;> decide

theorem parameter?_trim_text : parameter? (trim entry.text) = entry.decoded? := by
  obtain ⟨others, hsplit⟩ := entry.exists_splitTopLevel
  obtain ⟨rest, hsqueeze, hwords, hblank⟩ :=
    exists_squeeze_append entry.label_ne_nil entry.solid_label entry.keptType
  have hjoin : joinWith [' '] (dropParameterWords (words (trim (entry.label ++ entry.keptType)))) =
      entry.label ++ rest := by
    rw [words_trim, dropParameterWords_label]
    exact hsqueeze
  have hdots : dropHead? "...".toList (entry.label ++ rest) = none := by
    obtain ⟨c, tail, hlabel, hopens⟩ := entry.exists_label_eq
    have hdot : c ≠ '.' := ne_of_kind hopens (by decide)
    rw [dropHead?_eq_none_iff, hlabel]
    rintro ⟨more, hmore⟩
    exact hdot (cons.inj hmore).1.symm
  have hcolon : trimLeft (':' :: rest) = ':' :: rest := trimLeft_cons_of_not_blank (by decide) _
  have hmark : trimLeft ('?' :: ':' :: rest) = '?' :: ':' :: rest :=
    trimLeft_cons_of_not_blank (by decide) _
  have hread : (if rest.isEmpty then none
      else some ⟨entry.name.text, typeOrUnknown (squeeze rest), entry.parameter.markers⟩) =
      entry.decoded? := by
    have hsame : squeeze rest = squeeze entry.keptType := congrArg (joinWith [' ']) hwords
    cases hkept : isBlankText entry.keptType with
    | true => simp [hblank hkept, decoded?, hkept]
    | false =>
      have hne : rest ≠ [] := by
        rintro rfl
        rw [words_eq_nil_iff.mp hwords.symm] at hkept
        cases hkept
      simp [hne, hsame, typeOrUnknown, squeeze_ne_nil hkept, decoded?, hkept, parameter]
  unfold parameter?
  simp only [peelDecorators_trim_text, hsplit, hjoin, hdots, getD_none, splitName?_label,
    bind_some]
  cases entry.isOptional with
  | true =>
    simp only [if_true, cons_append, nil_append, hmark, hcolon]
    exact hread
  | false =>
    simp only [Bool.false_eq_true, if_false, cons_append, nil_append, hcolon]
    exact hread

/-! ## What is lost -/

/-- The parameter is read as it is written exactly when its type is not blank and no top-level `=`
stands in it. -/
theorem decoded?_eq_some_iff : entry.decoded? = some entry.parameter ↔
    isBlankText entry.type = false ∧ IsPiece '=' entry.type := by
  obtain ⟨⟨front, others⟩, hfront, hjoin, -⟩ := entry.single.balanced.exists_segments ['=']
  have hkept : entry.keptType = front := by rw [keptType, hfront]; rfl
  cases others with
  | nil =>
    obtain rfl : front = entry.type := hjoin
    have hpiece : IsPiece '=' entry.type := hfront
    cases hblank : isBlankText entry.type <;> simp [decoded?, hkept, hblank, hpiece, parameter]
  | cons second others =>
    have hnot : ¬ IsPiece '=' entry.type := by
      intro hpiece
      cases hpiece.symm.trans hfront
    refine iff_of_false (fun hdecoded => ?_) fun h => hnot h.2
    -- the sign and what follows it are missing in the words that are left
    have hsqueeze : squeeze front = squeeze entry.type := by
      unfold decoded? at hdecoded
      split at hdecoded
      · cases hdecoded
      · rw [hkept] at hdecoded
        exact congrArg Parameter.declaredType (some.inj hdecoded)
    have hsolid : front.filter (!isBlank ·) = entry.type.filter (!isBlank ·) := by
      rw [← filter_squeeze, hsqueeze, filter_squeeze]
    have htype : entry.type = front ++ ('=' :: joinWith ['='] (second :: others)) := by
      rw [← hjoin]
      simp [joinWith]
    rw [htype, filter_append, self_eq_append_right, filter_eq_nil_iff] at hsolid
    exact hsolid '=' (by simp) (by decide)

end ParameterEntry

/-! ## Parameter lists -/

theorem exists_tokenize_name (name : Name isMemberStart) (rest : Text) :
    ∃ header, tokenize (name.text ++ '(' :: rest) = some header ∧
      header.openParen = some name.text.length := by
  have hended : terminated? ('(' :: rest) = some (.paren, '(' :: rest) := rfl
  refine ⟨_, tokenize_append .nil name (by simp; decide) hended, ?_⟩
  simp [headerAt]

/-- Nothing is left out and nothing is changed exactly when every item gives its own result. -/
theorem filterMap_eq_map_iff {α β : Type} {read : α → Option β} {whole : α → β} {items : List α} :
    items.filterMap read = items.map whole ↔ ∀ item ∈ items, read item = some (whole item) := by
  constructor
  · intro h
    induction items with
    | nil => simp
    | cons item items ih =>
      cases hread : read item with
      | none =>
        -- one result would be missing
        rw [filterMap_cons_none hread] at h
        have hlength := congrArg length h
        have hle := length_filterMap_le read items
        simp only [length_map, length_cons] at hlength
        omega
      | some found =>
        rw [filterMap_cons_some hread, map_cons] at h
        obtain ⟨rfl, hrest⟩ := cons.inj h
        exact forall_mem_cons.mpr ⟨hread, ih hrest⟩
  · intro h
    rw [filterMap_congr h, filterMap_eq_map']

/-- A parameter list is read entry by entry, and each type ends at its first top-level `=`. The list is
read as it is written exactly when every entry has a type and no such sign in it. -/
theorem parameters_entries (name : Name isMemberStart) (entries : List ParameterEntry) :
    Dialect.typescript.parameters (name.text ++
        '(' :: (joinWith [',', ' '] (entries.map (·.text)) ++ [')'])) =
      entries.filterMap (·.decoded?) ∧
    (Dialect.typescript.parameters (name.text ++
        '(' :: (joinWith [',', ' '] (entries.map (·.text)) ++ [')'])) =
      entries.map (·.parameter) ↔
        ∀ entry ∈ entries, isBlankText entry.type = false ∧ IsPiece '=' entry.type) := by
  obtain ⟨header, htokenize, hopen⟩ := exists_tokenize_name name
    (joinWith [',', ' '] (entries.map (·.text)) ++ [')'])
  have hread := @Dialect.parameters_joinWith .typescript header _ _ _ ParameterEntry.isPiece_text
    ParameterEntry.isBlankText_text entries htokenize hopen
  simp only [Dialect.parameter?, ParameterEntry.parameter?_trim_text] at hread
  refine ⟨hread, ?_⟩
  rw [hread, filterMap_eq_map_iff]
  exact forall₂_congr fun entry _ => entry.decoded?_eq_some_iff

/-- The entry `cb: (x: A) => B`. -/
def callbackEntry : ParameterEntry where
  decorators := []
  name := ⟨"cb".toList, by decide⟩
  isOptional := false
  type := " (x: A) => B".toList
  single := rfl
  value := none

/-- The entry `@Arg("m") map?: Map<string,  (y: B) => C> = new Map()`. -/
def mapEntry : ParameterEntry where
  decorators := [⟨⟨"Arg".toList, by decide⟩,
    some ⟨"\"m\"".toList, IsPiece.balanced (rfl : IsPiece ',' "\"m\"".toList)⟩⟩]
  name := ⟨"map".toList, by decide⟩
  isOptional := true
  type := " Map<string,  (y: B) => C>".toList
  single := rfl
  value := some ⟨"new Map()".toList, rfl⟩

theorem parameters_callback : Dialect.typescript.parameters
        "on(@Arg(\"m\") map?: Map<string,  (y: B) => C> = new Map())".toList =
      [⟨"map".toList, "Map<string, (y: B) => C>".toList,
        [⟨"Arg".toList, .listed [("0".toList, "\"m\"".toList)], "Arg(\"m\")".toList⟩]⟩] ∧
    Dialect.typescript.parameters "on(cb: (x: A) => B)".toList =
      [⟨"cb".toList, "(x: A)".toList, []⟩] ∧
    Dialect.typescript.parameters "on(cb: (x: A) => B)".toList ≠ [callbackEntry.parameter] := by
  have hmap := parameters_entries ⟨"on".toList, by decide⟩ [mapEntry]
  have hcallback := parameters_entries ⟨"on".toList, by decide⟩ [callbackEntry]
  refine ⟨(hmap.2.mpr ?_).trans (by decide), hcallback.1.trans (by decide), fun hsame => ?_⟩
  · intro entry hentry
    obtain rfl := mem_singleton.mp hentry
    exact ⟨by decide, rfl⟩
  · have hpiece := (hcallback.2.mp hsame callbackEntry mem_cons_self).2
    cases hpiece

end SourceAtlas.TypeScript
