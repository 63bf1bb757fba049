import SourceAtlas.Proofs.Entries
import SourceAtlas.Proofs.Marker.Invocation

/-!
# Markers with their arguments

An argument list holds positional and named values. It is read back as a table: each positional value
under its number, each named value under its key, in the order in which they are written. With it whole
markers are read back, from bracket groups and from decorators.
-/

namespace SourceAtlas

open List Option

/-! ## Arguments as they are written -/

/-- A value that top-level commas do not cut. -/
structure ArgumentValue where
  text : Text
  single : splitCommas text = some [text]

/-- Whether a text has the form of a named value: a name and a colon or an equals sign, with more
behind it. The operators `==` and `=>` name nothing. -/
def IsNamedForm (text : Text) : Prop :=
  ∃ (key : PlainName) (blanks : Text) (sign : Char) (value : Text),
    text = key.text ++ (blanks ++ sign :: value) ∧ (∀ c ∈ blanks, isBlank c = true) ∧
      (sign = ':' ∨ sign = '=' ∧ value.head? ≠ some '=' ∧ value.head? ≠ some '>') ∧
      isBlankText value = false

/-- A positional or a named value. -/
inductive ArgumentSource where
  | positional (value : ArgumentValue) (unnamed : ¬ IsNamedForm value.text)
  | named (key : PlainName) (value : ArgumentValue)

namespace ArgumentSource

def text : ArgumentSource → Text
  | .positional value _ => value.text
  | .named key value => key.text ++ " = ".toList ++ value.text

def key? : ArgumentSource → Option Text
  | .positional _ _ => none
  | .named key _ => some key.text

def entriesFrom (position : Nat) : List ArgumentSource → Entries Text Text
  | [] => []
  | .positional value _ :: rest => (natText position, value.text) :: entriesFrom (position + 1) rest
  | .named key value :: rest => (key.text, value.text) :: entriesFrom position rest

end ArgumentSource

/-- An argument list in which no key stands twice. -/
structure ArgumentList where
  items : List ArgumentSource
  distinct : (items.filterMap (·.key?)).Nodup

def ArgumentList.text (list : ArgumentList) : Text :=
  joinWith [',', ' '] (list.items.map (·.text))

/-- A marker with its arguments. Its name does not end in the word that names leave out. -/
structure MarkerSource where
  name : PlainName
  plain : endsWith "Attribute".toList name.text = false
  arguments : Option ArgumentList

/-! ## One argument -/

namespace ArgumentValue

variable (value : ArgumentValue)

theorem isPiece_text : IsPiece ',' value.text :=
  (IsPiece.of_splitTopLevel value.single).1

theorem isBlankText_text : isBlankText value.text = false :=
  (IsPiece.of_splitTopLevel value.single).2.1

theorem trim_text : trim value.text = value.text :=
  (IsPiece.of_splitTopLevel value.single).2.2

theorem ne_nil : value.text ≠ [] := by
  intro hnil
  have hblank := value.isBlankText_text
  rw [hnil] at hblank
  cases hblank

theorem exists_last : ∃ c, value.text.getLast? = some c ∧ isBlank c = false := by
  have hsolid : ∃ c ∈ value.text, isBlank c = false := by
    simpa [isBlankText] using value.isBlankText_text
  have htrim : trimRight value.text = value.text := calc
    trimRight value.text = trimRight (trim value.text) := by rw [value.trim_text]
    _ = trim value.text := dropEndWhile_dropEndWhile isBlank _
    _ = value.text := value.trim_text
  obtain ⟨front, c, htext, hc⟩ := exists_trimRight_eq hsolid
  exact ⟨c, by rw [← htrim, htext, getLast?_concat], hc⟩

end ArgumentValue

theorem isNamedForm_of_namedArgument? {part : Text} {found : Text × Text}
    (h : namedArgument? part = some found) : IsNamedForm part := by
  unfold namedArgument? at h
  split at h
  · next c tail =>
    split at h
    · next hstart =>
      have hname : ((c :: tail).takeWhile isWord).head?.any isNameStart = true := by
        simp [isWord_of_isNameStart hstart, hstart]
      have hpart : (c :: tail).takeWhile isWord ++ (((c :: tail).dropWhile isWord).takeWhile isBlank
          ++ trimLeft ((c :: tail).dropWhile isWord)) = c :: tail := by
        rw [takeWhile_isBlank_append_trimLeft, takeWhile_append_dropWhile]
      simp only [drop_length_takeWhile] at h
      generalize trimLeft ((c :: tail).dropWhile isWord) = behind at h hpart
      split at h
      · cases h
      · cases h
      · next sign value hequals harrow =>
        split at h
        · next hvalue =>
          refine ⟨⟨_, Bool.and_eq_true_iff.mpr ⟨hname, all_takeWhile⟩⟩, _, sign, value,
            hpart.symm, fun d hd => mem_takeWhile_imp hd, ?_, ?_⟩
          · rcases hvalue.1 with rfl | rfl
            · refine Or.inr ⟨rfl, ?_, ?_⟩
              · intro hhead
                obtain ⟨more, rfl⟩ := head?_eq_some_iff.mp hhead
                exact hequals more rfl rfl
              · intro hhead
                obtain ⟨more, rfl⟩ := head?_eq_some_iff.mp hhead
                exact harrow more rfl rfl
            · exact Or.inl rfl
          · rw [Bool.eq_false_iff]
            intro hblank
            apply hvalue.2
            rw [trim, trimLeft, dropWhile_eq_nil_iff.mpr (all_eq_true.mp hblank)]
            rfl
        · cases h
      · cases h
    · cases h
  · cases h

namespace ArgumentSource

variable (argument : ArgumentSource)

theorem namedArgument?_positional {value : ArgumentValue} (unnamed : ¬ IsNamedForm value.text) :
    namedArgument? value.text = none := by
  rw [eq_none_iff_forall_ne_some]
  exact fun found hfound => unnamed (isNamedForm_of_namedArgument? hfound)

theorem namedArgument?_named (key : PlainName) (value : ArgumentValue) :
    namedArgument? (named key value).text = some (key.text, value.text) := by
  obtain ⟨c, tail, hcons, hstart⟩ := key.exists_cons
  have htext : (named key value).text = key.text ++ ' ' :: '=' :: ' ' :: value.text := by
    simp [text]
  have hkey : (named key value).text.takeWhile isWord = key.text := by
    rw [htext]
    exact takeWhile_append_of_stop (fun d hd => key.isWord_of_mem hd) (by simp; decide)
  have hbehind : trimLeft ((named key value).text.drop key.text.length) = '=' :: ' ' :: value.text := by
    rw [htext, drop_left, trimLeft_cons_of_blank (by decide),
      trimLeft_cons_of_not_blank (by decide)]
  have hvalue : trim (' ' :: value.text) = value.text := by
    rw [trim, trimLeft_cons_of_blank (by decide)]
    exact value.trim_text
  unfold namedArgument?
  split
  next d rest heq =>
    obtain rfl : c = d := by
      rw [htext, hcons] at heq
      exact (cons.inj heq).1
    rw [if_pos hstart]
    simp only [hkey, hbehind]
    simp [hvalue, value.ne_nil]
  next heq => simp [htext, hcons] at heq

theorem isPiece_text : IsPiece ',' argument.text := by
  cases argument with
  | positional value _ => exact value.isPiece_text
  | named key value =>
    have hsign : IsPiece ',' " = ".toList := rfl
    exact ((key.isPiece_text (by decide)).append hsign).append value.isPiece_text

theorem trim_text : trim argument.text = argument.text := by
  cases argument with
  | positional value _ => exact value.trim_text
  | named key value =>
    obtain ⟨c, hhead, hstart⟩ := key.startsName_append (" = ".toList ++ value.text)
    obtain ⟨d, hlast, hd⟩ := value.exists_last
    rw [← append_assoc] at hhead
    exact trim_of_ends hhead (isBlank_eq_false_of_isWord (isWord_of_isNameStart hstart))
      (mem_getLast?_append_of_mem_getLast? hlast) hd

theorem isBlankText_text : isBlankText argument.text = false := by
  cases argument with
  | positional value _ => exact value.isBlankText_text
  | named key value =>
    obtain ⟨c, hhead, hstart⟩ := key.startsName_append (" = ".toList ++ value.text)
    rw [← append_assoc] at hhead
    exact isBlankText_of_head? hhead (isBlank_eq_false_of_isWord (isWord_of_isNameStart hstart))

end ArgumentSource

/-! ## The table of arguments -/

theorem natText_injective : Function.Injective natText := by
  intro m n h
  have hdigits := congrArg (Nat.ofDigitChars 10 · 0) h
  simpa [natText, Nat.ofDigitChars_ten_toDigits] using hdigits

theorem PlainName.ne_natText (name : PlainName) (n : Nat) : name.text ≠ natText n := by
  intro h
  obtain ⟨c, tail, hcons, hstart⟩ := name.exists_cons
  have hmem : c ∈ Nat.toDigits 10 n := by
    rw [← natText, ← h, hcons]
    exact mem_cons_self
  have hdigit := isNameStart_eq_false_of_isDigit
    (Nat.isDigit_of_mem_toDigits (by decide) (by decide) hmem)
  rw [hstart] at hdigit
  cases hdigit

namespace ArgumentSource

/-- The keys of the table are the numbers from the position on and the keys that are written. -/
theorem of_mem_keys_entriesFrom {position : Nat} {items : List ArgumentSource} {key : Text}
    (h : key ∈ (entriesFrom position items).map Prod.fst) :
    (∃ n, position ≤ n ∧ key = natText n) ∨ key ∈ items.filterMap (·.key?) := by
  induction items generalizing position with
  | nil => simp [entriesFrom] at h
  | cons argument items ih =>
    cases argument with
    | positional value unnamed =>
      rcases mem_cons.mp h with rfl | hrest
      · exact Or.inl ⟨position, le_rfl, rfl⟩
      · rcases ih hrest with ⟨n, hle, rfl⟩ | hkey
        · exact Or.inl ⟨n, by omega, rfl⟩
        · exact Or.inr hkey
    | named name value =>
      rcases mem_cons.mp h with rfl | hrest
      · exact Or.inr mem_cons_self
      · rcases ih hrest with hnumber | hkey
        · exact Or.inl hnumber
        · exact Or.inr (mem_cons_of_mem _ hkey)

theorem exists_name_of_mem_keys {items : List ArgumentSource} {key : Text}
    (h : key ∈ items.filterMap (·.key?)) : ∃ name : PlainName, key = name.text := by
  obtain ⟨argument, -, hkey⟩ := mem_filterMap.mp h
  cases argument with
  | positional value unnamed => cases hkey
  | named name value => exact ⟨name, (some.inj hkey).symm⟩

theorem nodup_keys_entriesFrom (position : Nat) {items : List ArgumentSource}
    (h : (items.filterMap (·.key?)).Nodup) : ((entriesFrom position items).map Prod.fst).Nodup := by
  induction items generalizing position with
  | nil => exact nodup_nil
  | cons argument items ih =>
    cases argument with
    | positional value unnamed =>
      refine nodup_cons.mpr ⟨fun hmem => ?_, ih (position + 1) h⟩
      rcases of_mem_keys_entriesFrom hmem with ⟨n, hle, hsame⟩ | hkey
      · have := natText_injective hsame
        omega
      · obtain ⟨name, hname⟩ := exists_name_of_mem_keys hkey
        exact name.ne_natText position hname.symm
    | named name value =>
      obtain ⟨hfresh, hnodup⟩ := nodup_cons.mp h
      refine nodup_cons.mpr ⟨fun hmem => ?_, ih position hnodup⟩
      rcases of_mem_keys_entriesFrom hmem with ⟨n, -, hsame⟩ | hkey
      · exact name.ne_natText n hsame
      · exact hfresh hkey

theorem fileArguments_text (position : Nat) (entries : Entries Text Text)
    (items : List ArgumentSource)
    (h : ((entries ++ entriesFrom position items).map Prod.fst).Nodup) :
    fileArguments position entries (items.map (·.text)) = entries ++ entriesFrom position items := by
  induction items generalizing position entries with
  | nil => simp [fileArguments, entriesFrom]
  | cons argument items ih =>
    cases argument with
    | positional value unnamed =>
      have hnext : ((entries ++ [(natText position, value.text)] ++
          entriesFrom (position + 1) items).map Prod.fst).Nodup := by
        simpa [entriesFrom] using h
      rw [map_cons, fileArguments, text, namedArgument?_positional unnamed]
      change fileArguments (position + 1) (Entries.put _ _ _) _ = _
      rw [Entries.put_of_nodup h, ih _ _ hnext, append_assoc]
      rfl
    | named name value =>
      have hnext : ((entries ++ [(name.text, value.text)] ++
          entriesFrom position items).map Prod.fst).Nodup := by
        simpa [entriesFrom] using h
      rw [map_cons, fileArguments, namedArgument?_named]
      change fileArguments position (Entries.put _ _ _) _ = _
      rw [Entries.put_of_nodup h, ih _ _ hnext, append_assoc]
      rfl

end ArgumentSource

namespace ArgumentList

variable (list : ArgumentList)

/-- The values under their numbers and keys, in the order in which they are written. -/
def entries : Entries Text Text :=
  ArgumentSource.entriesFrom 0 list.items

theorem balanced_text : Balanced list.text :=
  .joinWith (.of_inert (all_eq_true.mp (by decide)))
    (forall_mem_map.mpr fun argument _ => argument.isPiece_text.balanced)

theorem splitCommas_text (hne : list.items ≠ []) :
    splitCommas list.text = some (list.items.map (·.text)) :=
  splitCommas_joinWith_map ArgumentSource.isPiece_text ArgumentSource.isBlankText_text
    ArgumentSource.trim_text hne

theorem parse_text : Arguments.parse list.text = .listed list.entries := by
  by_cases hne : list.items = []
  · have htext : list.text = [] := by simp [text, hne, joinWith]
    rw [htext, entries, hne]
    rfl
  · have hsplit : splitCommas (trim list.text) = some (list.items.map (·.text)) := by
      rw [splitCommas, splitTopLevel_trim (by decide) list.balanced_text]
      exact list.splitCommas_text hne
    have hempty : (trim list.text).isEmpty = false := by
      rw [Bool.eq_false_iff]
      intro hempty
      rw [List.isEmpty_iff.mp hempty] at hsplit
      exact hne (map_eq_nil_iff.mp (some.inj hsplit).symm)
    have hparts : (list.items.map (·.text)).any (·.isEmpty) = false := by
      rw [Bool.eq_false_iff, ne_eq, List.any_eq_true]
      rintro ⟨part, hpart, hempty⟩
      obtain ⟨argument, -, rfl⟩ := mem_map.mp hpart
      have hblank := argument.isBlankText_text
      rw [List.isEmpty_iff.mp hempty] at hblank
      cases hblank
    have hfile := ArgumentSource.fileArguments_text 0 [] list.items
      (ArgumentSource.nodup_keys_entriesFrom 0 list.distinct)
    unfold Arguments.parse
    simp only [hempty, Bool.false_eq_true, if_false, hsplit, hparts, hfile]
    rfl

end ArgumentList

/-! ## Markers -/

namespace MarkerSource

variable (source : MarkerSource)

/-- The marker's name and argument list as they are written. -/
def invocation : Invocation where
  name := source.name
  arguments := source.arguments.map fun list => ⟨list.text, list.balanced_text⟩

def marker : Marker where
  name := source.name.text
  arguments := .listed ((source.arguments.map (·.entries)).getD [])
  text := source.invocation.text

/-- Dropping an ending that the name does not have leaves the marker as it is written. -/
theorem marker_invocation {ending : Text}
    (h : (!ending.isEmpty && endsWith ending source.name.text) = false) :
    source.invocation.marker ending = source.marker := by
  have hname : dropNameEnd ending source.name.text = source.name.text := by
    simp [dropNameEnd, h]
  cases harguments : source.arguments with
  | none =>
    have hparse : Arguments.parse [] = .listed [] := rfl
    simp [Invocation.marker, marker, invocation, hname, harguments, hparse]
  | some list => simp [Invocation.marker, marker, invocation, hname, harguments, list.parse_text]

theorem marker_attribute : source.invocation.marker "Attribute".toList = source.marker :=
  source.marker_invocation (by rw [source.plain, Bool.and_false])

theorem marker_decorator : source.invocation.marker [] = source.marker :=
  source.marker_invocation rfl

end MarkerSource

def attributesText (groups : List (MarkerGroup MarkerSource)) : Text :=
  groups.flatMap fun group => (group.map (·.invocation)).text

def decoratorsText (sources : List MarkerSource) : Text :=
  sources.flatMap fun source => source.invocation.decoratorText

/-- Markers are peeled off as they are written, in order and with their arguments, and what follows
them is left alone. The bracket groups may divide them in any way. -/
theorem peel_written_markers (groups : List (MarkerGroup MarkerSource)) (rest : Text) :
    (peelBracketed rest = ([], rest) →
      peelBracketed (attributesText groups ++ rest) =
        ((groups.flatMap (·.items)).map (·.marker), rest)) ∧
    (peelDecorators rest = ([], rest) → rest.head? ≠ some '(' →
      peelDecorators (decoratorsText (groups.flatMap (·.items)) ++ rest) =
        ((groups.flatMap (·.items)).map (·.marker), rest)) := by
  constructor
  · intro hrest
    have hpeel := peelBracketed_groups hrest (groups.map (·.map (·.invocation)))
    rw [flatMap_map, flatMap_map] at hpeel
    simp only [MarkerGroup.items_map, List.map_map, Function.comp_def,
      MarkerSource.marker_attribute] at hpeel
    rw [map_flatMap]
    exact hpeel
  · intro hrest hparen
    have hpeel := peelDecorators_invocations hrest hparen
      ((groups.flatMap (·.items)).map (·.invocation))
    rw [flatMap_map, List.map_map] at hpeel
    simp only [Function.comp_def, MarkerSource.marker_decorator] at hpeel
    exact hpeel

theorem not_isNamedForm {text : Text} (h : text.head?.any isNameStart = false) :
    ¬ IsNamedForm text := by
  rintro ⟨key, blanks, sign, value, rfl, -⟩
  obtain ⟨c, hhead, hstart⟩ := key.startsName_append (blanks ++ sign :: value)
  rw [hhead, any_some, hstart] at h
  cases h

/-- The marker `Route("a, b", Order = Max(1, 2), 7)`. -/
def routeMarker : MarkerSource where
  name := ⟨"Route".toList, by decide⟩
  plain := by decide
  arguments := some
    { items :=
        [.positional ⟨"\"a, b\"".toList, by decide +kernel⟩ (not_isNamedForm (by decide)),
          .named ⟨"Order".toList, by decide⟩ ⟨"Max(1, 2)".toList, by decide +kernel⟩,
          .positional ⟨"7".toList, by decide +kernel⟩ (not_isNamedForm (by decide))]
      distinct := by decide }

/-- The group `[Route("a, b", Order = Max(1, 2), 7), Obsolete]` with a space behind it. -/
def routeGroup : MarkerGroup MarkerSource where
  first := routeMarker
  others := [⟨⟨"Obsolete".toList, by decide⟩, by decide, none⟩]
  gap := [' ']
  blank := rfl

theorem peel_routeGroup :
    peelBracketed "[Route(\"a, b\", Order = Max(1, 2), 7), Obsolete] int Id".toList =
        ([routeMarker.marker, ⟨"Obsolete".toList, .listed [], "Obsolete".toList⟩], "int Id".toList) ∧
      peelDecorators "@Route(\"a, b\", Order = Max(1, 2), 7) @Obsolete int Id".toList =
        ([routeMarker.marker, ⟨"Obsolete".toList, .listed [], "Obsolete".toList⟩], "int Id".toList) ∧
      routeMarker.marker.arguments = .listed [("0".toList, "\"a, b\"".toList),
        ("Order".toList, "Max(1, 2)".toList), ("1".toList, "7".toList)] := by
  have hpeel := peel_written_markers [routeGroup] "int Id".toList
  have hbracketed : peelBracketed "int Id".toList = ([], "int Id".toList) := by
    rw [peelBracketed, peelWhile]
    rfl
  have hdecorators : peelDecorators "int Id".toList = ([], "int Id".toList) := by
    rw [peelDecorators, peelWhile]
    rfl
  exact ⟨hpeel.1 hbracketed, hpeel.2 hdecorators (by decide), rfl⟩

end SourceAtlas
