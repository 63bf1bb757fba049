import SourceAtlas.Proofs.CSharp.Tokenize
import SourceAtlas.Proofs.Header.Parameters
import SourceAtlas.Proofs.Marker.Arguments

/-!
# C# parameter lists

A parameter is written with its attributes, its modifiers, its type and its name, and a default value
may follow. The parameter list of a method is read back entry by entry.
-/

namespace SourceAtlas.CSharp

open List

/-- An entry of a parameter list. -/
structure ParameterEntry where
  attributes : List (MarkerGroup Invocation)
  modifiers : List { word : Text // word ∈ parameterWords }
  type : TypeExpr
  unmodified : type.text ∉ parameterWords
  name : Identifier
  value : Option ArgumentValue

namespace ParameterEntry

variable (entry : ParameterEntry)

def modifierText : Text :=
  entry.modifiers.flatMap fun modifier => modifier.1 ++ [' ']

def core : Text :=
  entry.modifierText ++ (entry.type.text ++ ' ' :: entry.name.text)

def valueText : Text :=
  (entry.value.map fun value => ' ' :: '=' :: ' ' :: value.text).getD []

def text : Text :=
  entry.attributes.flatMap (·.text) ++ (entry.core ++ entry.valueText)

def parameter : Parameter where
  name := entry.name.text
  declaredType := entry.type.text
  markers := entry.attributes.flatMap fun group => group.items.map (·.marker "Attribute".toList)

/-! ## The text of an entry -/

theorem isWord_of_mem_parameterWords {word : Text} (h : word ∈ parameterWords) :
    ∀ c ∈ word, isWord c = true := by
  have hall : parameterWords.all (·.all isWord) = true := by decide
  exact all_eq_true.mp (all_eq_true.mp hall word h)

theorem ne_nil_of_mem_parameterWords {word : Text} (h : word ∈ parameterWords) : word ≠ [] :=
  (by decide : ∀ word ∈ parameterWords, word ≠ []) word h

theorem tidy_plain : Tidy (entry.type.text ++ ' ' :: entry.name.text) :=
  entry.type.tidy_text.append_space entry.name.tidy

theorem words_core : words entry.core =
    entry.modifiers.map (·.1) ++ words (entry.type.text ++ ' ' :: entry.name.text) := by
  unfold core modifierText
  induction entry.modifiers with
  | nil => rfl
  | cons modifier modifiers ih =>
    have hsolid : ∀ c ∈ modifier.1, isBlank c = false := fun c hc =>
      isBlank_eq_false_of_isWord (isWord_of_mem_parameterWords modifier.2 c hc)
    rw [flatMap_cons, append_assoc, append_assoc, singleton_append,
      words_append_blank (ne_nil_of_mem_parameterWords modifier.2) hsolid (by decide), ih]
    rfl

theorem tidy_core : Tidy entry.core := by
  unfold core modifierText
  induction entry.modifiers with
  | nil => exact entry.tidy_plain
  | cons modifier modifiers ih =>
    have hsolid : ∀ c ∈ modifier.1, isBlank c = false := fun c hc =>
      isBlank_eq_false_of_isWord (isWord_of_mem_parameterWords modifier.2 c hc)
    rw [flatMap_cons, append_assoc, append_assoc, singleton_append]
    exact .spaced (ne_nil_of_mem_parameterWords modifier.2) hsolid ih

theorem isTypeChar_of_mem_core {c : Char} (h : c ∈ entry.core) : TypeSyntax.isTypeChar c = true := by
  simp only [core, modifierText, mem_append, mem_flatMap, mem_cons,
    not_mem_nil, or_false] at h
  rcases h with ⟨modifier, -, h | rfl⟩ | h | rfl | h
  · exact TypeSyntax.isTypeChar_of_isWord (isWord_of_mem_parameterWords modifier.2 c h)
  · rfl
  · exact entry.type.isTypeChar_of_mem_text h
  · rfl
  · exact TypeSyntax.isTypeChar_of_isWord (entry.name.isWord_of_mem h)

theorem exists_head_core : ∃ c, entry.core.head? = some c ∧ isWord c = true := by
  cases hmodifiers : entry.modifiers with
  | nil =>
    obtain ⟨name, -, rest, htext, -⟩ := entry.type.exists_name_append
    obtain ⟨c, tail, hcons, hstart⟩ := name.exists_cons
    exact ⟨c, by simp [core, modifierText, hmodifiers, htext, hcons], isWord_of_isNameStart hstart⟩
  | cons modifier modifiers =>
    obtain ⟨c, tail, hcons⟩ :=
      exists_cons_of_ne_nil (ne_nil_of_mem_parameterWords modifier.2)
    refine ⟨c, by simp [core, modifierText, hmodifiers, hcons], ?_⟩
    exact isWord_of_mem_parameterWords modifier.2 c (by simp [hcons])

theorem isPiece_core : IsPiece ',' entry.core := by
  have hinert : ∀ {front : Text}, (∀ c ∈ front, isWord c = true ∨ c = ' ') → IsPiece ',' front := by
    intro front hfront
    refine .of_not_mem (.of_inert fun c hc => ?_) fun hcomma => ?_
    · rcases hfront c hc with hword | rfl
      · exact isInert_of_isWord hword
      · rfl
    · rcases hfront ',' hcomma with hword | hspace
      · cases hword
      · cases hspace
  have htype : IsPiece ',' entry.type.text := by
    have hsegments := entry.type.segmentsFrom_text [] [] (by simp)
    simpa [IsPiece, segmentsFrom, Segments.prepend] using hsegments
  refine (hinert ?_).append (htype.append (hinert ?_))
  · intro c hc
    simp only [modifierText, mem_flatMap, mem_append, mem_singleton] at hc
    obtain ⟨modifier, -, hc | rfl⟩ := hc
    · exact Or.inl (isWord_of_mem_parameterWords modifier.2 c hc)
    · exact Or.inr rfl
  · intro c hc
    rcases mem_cons.mp hc with rfl | hc
    · exact Or.inr rfl
    · exact Or.inl (entry.name.isWord_of_mem hc)

theorem isPiece_text : IsPiece ',' entry.text := by
  have hvalue : IsPiece ',' entry.valueText := by
    cases hvalue : entry.value with
    | none => simp [valueText, hvalue, IsPiece, segmentsFrom]
    | some value =>
      have hsign : IsPiece ',' [' ', '=', ' '] := rfl
      simpa [valueText, hvalue] using hsign.append value.isPiece_text
  have hattributes : IsPiece ',' (entry.attributes.flatMap (·.text)) := by
    induction entry.attributes with
    | nil => rfl
    | cons group groups ih => exact (group.isPiece_text (by decide)).append ih
  exact hattributes.append (entry.isPiece_core.append hvalue)

theorem trim_text : trim entry.text = entry.text := by
  have hhead : ∃ c, entry.text.head? = some c ∧ isBlank c = false := by
    cases hattributes : entry.attributes with
    | nil =>
      obtain ⟨c, hhead, hword⟩ := entry.exists_head_core
      exact ⟨c, by simp [text, hattributes, hhead], isBlank_eq_false_of_isWord hword⟩
    | cons group groups =>
      exact ⟨'[', by simp [text, hattributes, MarkerGroup.text], by decide⟩
  have hlast : ∃ c, entry.text.getLast? = some c ∧ isBlank c = false := by
    cases hvalue : entry.value with
    | none =>
      obtain ⟨c, hlast, hblank⟩ := entry.tidy_core.exists_last
      exact ⟨c, by simp [text, valueText, hvalue, getLast?_append, hlast], hblank⟩
    | some value =>
      obtain ⟨c, hlast, hblank⟩ := value.exists_last
      exact ⟨c, by simp [text, valueText, hvalue, getLast?_append, getLast?_cons, hlast],
        hblank⟩
  obtain ⟨c, hhead, hc⟩ := hhead
  obtain ⟨d, hlast, hd⟩ := hlast
  exact trim_of_ends hhead hc hlast hd

theorem isBlankText_text : isBlankText entry.text = false := by
  obtain ⟨c, hhead, hword⟩ := entry.exists_head_core
  have hmem : c ∈ entry.text := by
    have hcore : c ∈ entry.core := mem_of_mem_head? hhead
    simp [text, hcore]
  rw [Bool.eq_false_iff]
  intro hblank
  rw [isWord_eq_false_of_isBlank (all_eq_true.mp hblank c hmem)] at hword
  cases hword

/-! ## Reading an entry -/

theorem peelBracketed_text : peelBracketed entry.text =
    (entry.parameter.markers, entry.core ++ entry.valueText) := by
  obtain ⟨c, hhead, hword⟩ := entry.exists_head_core
  obtain ⟨tail, hcore⟩ := head?_eq_some_iff.mp hhead
  have hrest : peelBracketed (entry.core ++ entry.valueText) =
      ([], entry.core ++ entry.valueText) := by
    have hbracket : c ≠ '[' := ne_of_kind hword (by decide)
    rw [hcore, cons_append]
    exact @Dialect.peel_of_head? .csharp _ _ rfl (isBlank_eq_false_of_isWord hword) hbracket
  exact peelBracketed_groups hrest entry.attributes

theorem exists_splitTopLevel :
    ∃ others, splitTopLevel ['='] (entry.core ++ entry.valueText) = some (entry.core :: others) := by
  have hpiece : ∀ {blanks : Text}, (∀ c ∈ blanks, c = ' ') → IsPiece '=' (entry.core ++ blanks) := by
    intro blanks hblanks
    refine .of_not_mem (entry.isPiece_core.balanced.append (.of_inert fun c hc => ?_)) fun hequals => ?_
    · rw [hblanks c hc]
      rfl
    · rcases mem_append.mp hequals with hequals | hequals
      · exact absurd (entry.isTypeChar_of_mem_core hequals) (by decide)
      · exact absurd (hblanks _ hequals) (by decide)
  cases hvalue : entry.value with
  | none =>
    have hsplit := (hpiece (by simp : ∀ c ∈ [], c = ' ')).splitTopLevel_eq
      (by rw [append_nil]; exact entry.tidy_core.isBlankText_eq_false)
    rw [append_nil, entry.tidy_core.trim] at hsplit
    exact ⟨[], by simpa [valueText, hvalue] using hsplit⟩
  | some value =>
    have hback : Balanced (' ' :: value.text) :=
      (Balanced.of_inert (all_eq_true.mp (by decide)) : Balanced [' ']).append
        value.isPiece_text.balanced
    obtain ⟨others, hsplit⟩ := (hpiece (by simp : ∀ c ∈ [' '], c = ' ')).splitTopLevel_first
      (by decide) hback
    have htrim : trim (entry.core ++ [' ']) = entry.core := by
      rw [trim_append_of_blanks (all_eq_true.mp (by decide)), entry.tidy_core.trim]
    rw [htrim, append_assoc] at hsplit
    exact ⟨others, by simpa [valueText, hvalue] using hsplit⟩

theorem dropWhile_words_core : (words entry.core).dropWhile parameterWords.contains =
    words (entry.type.text ++ ' ' :: entry.name.text) := by
  have hmodifiers : ∀ word ∈ entry.modifiers.map (·.1), parameterWords.contains word = true := by
    simp only [mem_map, contains_iff_mem]
    rintro word ⟨modifier, -, rfl⟩
    exact modifier.2
  obtain ⟨first, others, hwords⟩ := exists_cons_of_ne_nil entry.type.tidy_text.words_ne_nil
  have hfirst : ¬ parameterWords.contains first = true := by
    rw [contains_iff_mem]
    intro hmem
    -- a plain word of the type would be all of it
    have hwhole := entry.type.eq_text_of_mem_words (hwords ▸ mem_cons_self)
      (isWord_of_mem_parameterWords hmem)
    exact entry.unmodified (hwhole ▸ hmem)
  rw [words_core, dropWhile_append_of_pos hmodifiers, words_append_cons (by decide), hwords,
    cons_append, dropWhile_cons_of_neg hfirst]

theorem parameter?_text : parameter? entry.text = some entry.parameter := by
  obtain ⟨others, hsplit⟩ := entry.exists_splitTopLevel
  have hname : trailingType (entry.type.text ++ ' ' :: entry.name.text) = entry.name.text :=
    TypeSyntax.trailingType_append (.plain (.root entry.name)) entry.type.text
  have htype : trim (dropEnd entry.name.text.length (entry.type.text ++ ' ' :: entry.name.text)) =
      entry.type.text := by
    have hdrop : dropEnd entry.name.text.length (entry.type.text ++ ' ' :: entry.name.text) =
        entry.type.text ++ [' '] := by
      rw [← singleton_append, ← append_assoc, dropEnd, length_append,
        Nat.add_sub_cancel, take_left]
    rw [hdrop, trim_append_of_blanks (all_eq_true.mp (by decide)), entry.type.tidy_text.trim]
  have hjoin : joinWith [' '] (words (entry.type.text ++ ' ' :: entry.name.text)) =
      entry.type.text ++ ' ' :: entry.name.text := entry.tidy_plain.squeeze
  have hempty : entry.name.text.isEmpty = false := by simpa using entry.name.ne_nil
  have hwhole : entry.name.text ≠ entry.type.text ++ ' ' :: entry.name.text := by
    intro heq
    have hlength := congrArg length heq
    simp only [length_append, length_cons] at hlength
    omega
  unfold parameter?
  simp only [peelBracketed_text, hsplit, dropWhile_words_core]
  split
  next hnil => exact absurd hnil entry.tidy_plain.words_ne_nil
  next first others hwords =>
    rw [← hwords, hjoin]
    simp [hname, hempty, hwhole, htype, typeOrUnknown_text, parameter]

end ParameterEntry

theorem exists_tokenize_paren (modifiers : List Modifier) (type : TypeExpr) (name : Identifier)
    (rest : Text) :
    ∃ header, tokenize (memberLead modifiers type ++ name.text ++ '(' :: rest) = some header ∧
      header.openParen = some (memberLead modifiers type ++ name.text).length := by
  have hhead : ∀ c ∈ memberLead modifiers type ++ name.text ++ ['('], isUnassigned c = true := by
    intro c hc
    simp only [mem_append, mem_singleton] at hc
    rcases hc with (hc | hc) | rfl
    · exact isUnassigned_of_isTypeChar (isTypeChar_of_mem_memberLead hc)
    · exact isUnassigned_of_isTypeChar (TypeSyntax.isTypeChar_of_isWord (name.isWord_of_mem hc))
    · decide
  obtain ⟨inner, last, hassign⟩ := exists_assignmentFrom_append hhead 0 none
  have hsplit := hassign rest
  generalize assignmentFrom inner none last rest = split at hsplit
  simp only [append_assoc, singleton_append] at hsplit
  rw [← append_assoc, ← append_assoc] at hsplit
  have hspecial : specialName? (memberLead modifiers type ++ name.text ++ [] ++ '(' :: split.1) =
      none := specialName?_eq_none modifiers type (.root name) (by simp) (by simp)
  have hlast : ∀ c ∈ (memberLead modifiers type).getLast?, isWord c = false := by
    simp [memberLead]
    decide
  have hsearch : searchFrom nameAt? none 0 (memberLead modifiers type ++
      (name.text ++ '(' :: split.1)) = some _ :=
    searchFrom_nameAt? name (fun _ hc => isTypeChar_of_mem_memberLead hc) hlast
      (Or.inr (by simp [isTypeArgumentChar])) (by simp; decide)
      (congrArg dropTypeArguments? (trimLeft_cons_of_not_blank (by decide) split.1)) rfl
  rw [append_nil] at hspecial
  rw [← append_assoc] at hsearch
  refine ⟨_, tokenize_eq_header hsplit hspecial hsearch, ?_⟩
  simp [Named.header]

/-- The parameters of a method are read as they are written. -/
theorem parameters_method (modifiers : List Modifier) (type : TypeExpr) (name : Identifier)
    (entries : List ParameterEntry) :
    Dialect.csharp.parameters (memberLead modifiers type ++ name.text ++
      '(' :: (joinWith [',', ' '] (entries.map (·.text)) ++ [')'])) =
      entries.map (·.parameter) := by
  obtain ⟨header, htokenize, hopen⟩ := exists_tokenize_paren modifiers type name
    (joinWith [',', ' '] (entries.map (·.text)) ++ [')'])
  rw [@Dialect.parameters_joinWith .csharp header _ _ _ ParameterEntry.isPiece_text
    ParameterEntry.isBlankText_text entries htokenize hopen]
  simp only [ParameterEntry.trim_text, Dialect.parameter?, ParameterEntry.parameter?_text]
  rw [filterMap_eq_map']

end SourceAtlas.CSharp
