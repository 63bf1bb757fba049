import SourceAtlas.Proofs.CSharp.Source
import SourceAtlas.Proofs.Member.Scan

/-!
# Reading a member back

The header of a written member gives its name, its type and its kind, and its signature is the text
that was written up to the body or the semicolon.
-/

namespace SourceAtlas.CSharp

open List Option

namespace MemberSource

variable (member : MemberSource) {c : Char}

/-! ## Tokens -/

theorem opening_eq : member.opening =
    memberLead [publicModifier] member.type.expr ++ (TypeSyntax.root member.name).text := rfl

def readModifiers : List Text :=
  (words (modifierText [publicModifier] ++ member.type.expr.text)).filter modifierWords.contains

theorem eq_public_of_mem_readModifiers {word : Text} (h : word ∈ member.readModifiers) :
    word = "public".toList := by
  obtain ⟨hword, hmodifier⟩ := mem_filter.mp h
  have hmem : word ∈ modifierWords := by simpa using hmodifier
  have hwords : words (modifierText [publicModifier] ++ member.type.expr.text) =
      "public".toList :: words member.type.expr.text := by
    have hpublic : ∀ c ∈ "public".toList, isBlank c = false :=
      forall_mem_of_any (by decide)
    exact words_append_blank (by decide) hpublic (by decide : isBlank ' ' = true) _
  rw [hwords] at hword
  rcases mem_cons.mp hword with hword | hword
  · exact hword
  · -- a plain word of the type would be all of it, and that is no modifier
    have hplain := Modifier.isWord_of_mem ⟨word, hmem⟩
    obtain rfl := member.type.expr.eq_text_of_mem_words hword hplain
    exact absurd hmem member.type.not_modifier

def readHeader (terminator : Terminator) : Header where
  name := member.name.text
  declaredType := member.type.expr.text
  terminator
  nameStart := (memberLead [publicModifier] member.type.expr).length
  modifiers := member.readModifiers
  openParen := if terminator = .paren then some member.opening.length else none

theorem isTypeChar_of_mem_opening (h : c ∈ member.opening) : TypeSyntax.isTypeChar c = true := by
  rcases mem_append.mp h with h | h
  · exact isTypeChar_of_mem_memberLead h
  · exact TypeSyntax.isTypeChar_of_isWord (member.name.isWord_of_mem h)

/-- A written member is read with its name and type, whatever ends it. -/
theorem tokenize_opening (marks tail : Text) {rest : Text} {terminator : Terminator}
    (hmarks : ∀ c ∈ marks, isWord c = false ∧ (c != '(' && c != '{') = true)
    (htail : ∀ c ∈ tail.head?, c = '(' ∨ c = '{')
    (hunassigned : ∀ c ∈ marks ++ tail, isUnassigned c = true)
    (hblank : ∀ c ∈ (marks ++ tail).takeWhile isTypeArgumentChar, isBlank c = true)
    (hrest : dropTypeArguments? (trimLeft (marks ++ tail)) = some rest)
    (hterminator : terminatorAt? rest = some terminator)
    (hparen : terminator = .paren → rest = marks ++ tail) :
    tokenize (member.opening ++ (marks ++ tail)) = some (member.readHeader terminator) := by
  have hsplit : splitAssignment (member.opening ++ (marks ++ tail)) =
      (member.opening ++ (marks ++ tail), .none) := by
    apply splitAssignment_of_unassigned
    intro c hc
    rcases mem_append.mp hc with hc | hc
    · exact isUnassigned_of_isTypeChar (member.isTypeChar_of_mem_opening hc)
    · exact hunassigned c hc
  have hspecial : specialName? (member.opening ++ (marks ++ tail)) = none := by
    rw [← append_assoc, opening_eq]
    exact specialName?_eq_none [publicModifier] member.type.expr (.root member.name) hmarks htail
  have hafter : ∀ c ∈ (marks ++ tail).head?, isWord c = false := by
    intro c hc
    cases marks with
    | nil => rcases htail c hc with rfl | rfl <;> decide
    | cons d marks =>
      obtain rfl : d = c := by simpa using hc
      exact (hmarks d (by simp)).1
  have hlast : ∀ c ∈ (memberLead [publicModifier] member.type.expr).getLast?, isWord c = false := by
    simp [memberLead]
    decide
  have hsearch := searchFrom_nameAt? member.name (fun _ hc => isTypeChar_of_mem_memberLead hc)
    hlast (Or.inr hblank) hafter hrest hterminator
  rw [← append_assoc] at hsearch
  rw [tokenize_eq_header hsplit hspecial hsearch, opening, append_assoc,
    Named.header_memberLead _ _ _ _ rfl]
  simp only [readHeader, readModifiers, if_neg member.type.not_modifier]
  by_cases hnone : terminator = .none
  · simp [hnone]
  · by_cases hopen : terminator = .paren
    · simp [hopen, hparen hopen, opening]
    · simp [hnone, hopen]

/-! ## The three forms -/

theorem isTypeChar_of_mem_parameterText {parameters : List ParameterSource}
    (h : c ∈ parameterText parameters) : TypeSyntax.isTypeChar c = true := by
  have single : ∀ (parameter : ParameterSource), ∀ c ∈ parameter.text,
      TypeSyntax.isTypeChar c = true := by
    intro parameter c hc
    simp only [ParameterSource.text, mem_append, mem_cons] at hc
    rcases hc with hc | rfl | hc
    · exact parameter.type.isTypeChar_of_mem_text hc
    · rfl
    · exact TypeSyntax.isTypeChar_of_isWord (parameter.name.isWord_of_mem hc)
  refine forall_mem_joinWith (all_eq_true.mp (by decide)) ?_ c h
  intro text htext
  obtain ⟨parameter, -, rfl⟩ := mem_map.mp htext
  exact single parameter

theorem tokenize_method (parameters : List ParameterSource) :
    tokenize (member.opening ++ '(' :: (parameterText parameters ++ [')'])) =
      some (member.readHeader .paren) := by
  have hunassigned : ∀ c ∈ '(' :: (parameterText parameters ++ [')']), isUnassigned c = true := by
    intro c hc
    simp only [mem_cons, mem_append, not_mem_nil, or_false] at hc
    rcases hc with rfl | hc | rfl
    · decide
    · exact isUnassigned_of_isTypeChar (isTypeChar_of_mem_parameterText hc)
    · decide
  have hrest : dropTypeArguments? (trimLeft ('(' :: (parameterText parameters ++ [')']))) =
      some ('(' :: (parameterText parameters ++ [')'])) := by
    rw [trimLeft_cons_of_not_blank (by decide), dropTypeArguments?_cons (by decide)]
  exact member.tokenize_opening [] ('(' :: (parameterText parameters ++ [')'])) (by simp) (by simp)
    hunassigned (by simp [isTypeArgumentChar]) hrest rfl fun _ => rfl

theorem tokenize_property :
    tokenize (member.opening ++ " \x7b get; set; \x7d".toList) =
      some (member.readHeader .brace) := by
  have hmarks : ∀ c ∈ [' '], isWord c = false ∧ (c != '(' && c != '{') = true := by
    simp
    decide
  exact member.tokenize_opening [' '] "\x7b get; set; \x7d".toList hmarks (by simp)
    (all_eq_true.mp (by decide)) (all_eq_true.mp (by decide))
    (by decide : _ = some "\x7b get; set; \x7d".toList) rfl (by simp)

theorem tokenize_field : tokenize (member.opening ++ [';']) =
    some (member.readHeader .semicolon) := by
  have hmarks : ∀ c ∈ [';'], isWord c = false ∧ (c != '(' && c != '{') = true := by
    simp
    decide
  exact member.tokenize_opening [';'] [] hmarks (by simp) (all_eq_true.mp (by decide))
    (all_eq_true.mp (by decide)) (by decide : _ = some [';']) rfl (by simp)

theorem tokenize_bare : tokenize member.opening = some (member.readHeader .none) := by
  have htokens := member.tokenize_opening [] [] (by simp) (by simp) (by simp) (by simp)
    (by decide : _ = some []) rfl (by simp)
  simpa using htokens

/-! ## Signatures -/

theorem isQuote_eq_false_of_isTypeChar (h : TypeSyntax.isTypeChar c = true) :
    isQuote c = false := by
  have hc : c ∉ ['\x22', '\x27', '\x60'] := notMem_of_kind h (by decide)
  simpa [isQuote, and_assoc] using hc

theorem findParen_method (parameters : List ParameterSource) :
    findParen (member.opening ++ '(' :: (parameterText parameters ++ [')'])) member.opening.length =
      some (member.opening.length + 1 + (parameterText parameters).length) := by
  have hplain : ∀ c ∈ parameterText parameters, isQuote c = false ∧ c ≠ '(' ∧ c ≠ ')' := by
    intro c hc
    have htype := isTypeChar_of_mem_parameterText hc
    exact ⟨isQuote_eq_false_of_isTypeChar htype, ne_of_kind htype (by decide),
      ne_of_kind htype (by decide)⟩
  rw [findParen, findClosing, drop_left, closingFrom_opener (by decide),
    closingFrom_append_plain hplain, Int.zero_add, closingFrom_closer (by decide) (by decide)]

theorem trimRight_opening : trimRight member.opening = member.opening := by
  obtain ⟨front, c, hname, hc⟩ := member.name.exists_concat
  have hconcat : member.opening =
      memberLead [publicModifier] member.type.expr ++ front ++ [c] := by
    simp [opening, hname]
  rw [hconcat, trimRight_append_singleton (isBlank_eq_false_of_isWord hc)]

theorem finishMethod_method (parameters : List ParameterSource) :
    finishMethod (member.opening ++ '(' :: (parameterText parameters ++ [')']))
      (member.opening.length + 1 + (parameterText parameters).length) false =
      member.opening ++ '(' :: (parameterText parameters ++ [')']) := by
  have htake : (member.opening ++ '(' :: (parameterText parameters ++ [')'])).take
      (member.opening.length + 1 + (parameterText parameters).length + 1) =
      member.opening ++ '(' :: (parameterText parameters ++ [')']) := by
    apply take_of_length_le
    simp only [length_append, length_cons, length_nil]
    omega
  simp only [finishMethod, htake, Bool.false_and, Bool.false_eq_true, if_false]
  rw [← cons_append, ← append_assoc, trimRight_append_singleton (by decide)]

theorem finishValue_property :
    finishValue (member.opening ++ " \x7b get; set; \x7d".toList) (member.readHeader .brace) =
      member.opening ++ " \x7b get; set; \x7d".toList := by
  have hlength : (memberLead [publicModifier] member.type.expr).length + member.name.text.length =
      member.opening.length := by
    simp [opening]
  have hstart : indexOf? ['{'] (member.opening ++ " \x7b get; set; \x7d".toList)
      member.opening.length = some (member.opening.length + 1) := by
    simp [indexOf?, indexFrom?, startsWith]
  have hclose : findClosing (member.opening ++ " \x7b get; set; \x7d".toList)
      (member.opening.length + 1) '{' '}' = some (member.opening.length + 13) := by
    have hplain : ∀ c ∈ " get; set; ".toList, isQuote c = false ∧ c ≠ '{' ∧ c ≠ '}' := by
      simp [isQuote]
    rw [findClosing, drop_length_add_append]
    calc closingFrom '{' '}' 0 none (member.opening.length + 1)
          ('{' :: (" get; set; ".toList ++ ['}']))
        = closingFrom '{' '}' (0 + 1) none (member.opening.length + 1 + 1)
          (" get; set; ".toList ++ ['}']) := closingFrom_opener (by decide) _ _ _
      _ = closingFrom '{' '}' (0 + 1) none (member.opening.length + 1 + 1 + 11) ['}'] :=
          closingFrom_append_plain hplain _ _ _
      _ = some (member.opening.length + 13) := closingFrom_closer (by decide) (by decide) _ _
  have hbody : ((member.opening ++ " \x7b get; set; \x7d".toList).take
      (member.opening.length + 13)).drop (member.opening.length + 1 + 1) =
      " get; set; ".toList := by
    rw [take_length_add_append, Nat.add_assoc, drop_length_add_append]
    decide
  have hall : (member.opening ++ " \x7b get; set; \x7d".toList).take
      (member.opening.length + 13 + 1) = member.opening ++ " \x7b get; set; \x7d".toList := by
    rw [Nat.add_assoc, take_length_add_append]
    rfl
  have hend : trimRight (member.opening ++ " \x7b get; set; \x7d".toList) =
      member.opening ++ " \x7b get; set; \x7d".toList := by
    exact trimRight_of_getLast? (c := '}') (by simp) (by decide)
  have haccessors : holdsAccessorsOnly " get; set; ".toList = true := by decide
  simp only [finishValue, readHeader, reduceCtorEq, if_false, Terminator.text, hlength, hstart,
    hclose, hbody, haccessors, if_true, hall, hend]

theorem finishValue_field :
    finishValue (member.opening ++ [';']) (member.readHeader .semicolon) = member.opening := by
  have hlength : (memberLead [publicModifier] member.type.expr).length + member.name.text.length =
      member.opening.length := by
    simp [opening]
  have hstart : indexOf? [';'] (member.opening ++ [';']) member.opening.length =
      some member.opening.length := by
    simp [indexOf?, indexFrom?, startsWith]
  simp only [finishValue, readHeader, reduceCtorEq, if_false, Terminator.text, hlength, hstart,
    take_left, trimRight_opening]

/-! ## Members -/

theorem readModifiers_contains {word : Text} (h : word ≠ "public".toList) :
    member.readModifiers.contains word = false := by
  rw [contains_eq_mem, decide_eq_false_iff_not]
  exact fun hmem => h (member.eq_public_of_mem_readModifiers hmem)

theorem not_signal_of_mem_markers {marker : Marker} (h : marker ∈ member.markers) :
    (lower marker.name == "signal".toList) = false := by
  have hverb : ∀ verb : Verb, (lower verb.name == "signal".toList) = false := by
    intro verb
    cases verb <;> decide
  obtain ⟨mark, -, rfl⟩ : ∃ mark, member.mark? = some mark ∧ mark.marker = marker := by
    simpa [markers] using h
  exact hverb mark.verb

/-- The kind of a written member is read off what ends its header. -/
theorem memberKind_readHeader (terminator : Terminator) :
    memberKind (member.readHeader terminator) member.markers false =
      match terminator with
      | .paren => .method
      | .brace | .arrow | .bracket => .property
      | _ => .field := by
  have hevent := member.readModifiers_contains (by decide : "event".toList ≠ "public".toList)
  have hconst := member.readModifiers_contains (by decide : "const".toList ≠ "public".toList)
  have hreadonly := member.readModifiers_contains
    (by decide : "readonly".toList ≠ "public".toList)
  have hsignal : member.markers.any (fun marker => lower marker.name == "signal".toList) =
      false := by
    rw [List.any_eq_false]
    intro marker hmarker
    rw [member.not_signal_of_mem_markers hmarker]
    exact Bool.false_ne_true
  simp only [memberKind, readHeader, hevent, hconst, hreadonly, hsignal]
  cases terminator <;> rfl

def terminator : Terminator :=
  match member.form with
  | .method .. => .paren
  | .property => .brace
  | .field => .semicolon

theorem tokenize_headerRow :
    tokenize member.headerRow = some (member.readHeader member.terminator) := by
  unfold headerRow ending terminator
  cases member.form with
  | method mark parameters => exact member.tokenize_method parameters
  | property => exact member.tokenize_property
  | field => exact member.tokenize_field

theorem exists_tokenize_signature :
    ∃ terminator, tokenize member.signature = some (member.readHeader terminator) := by
  unfold signature headerRow ending
  cases member.form with
  | method mark parameters => exact ⟨_, member.tokenize_method parameters⟩
  | property => exact ⟨_, member.tokenize_property⟩
  | field => exact ⟨_, member.tokenize_bare⟩

theorem terminator_ne_none : member.terminator ≠ .none := by
  unfold terminator
  cases member.form <;> simp

theorem memberKind_terminator (follows : Bool) :
    memberKind (member.readHeader member.terminator) member.markers
      (follows && (member.readHeader member.terminator).terminator = .none) = member.kind := by
  have hfollows : (follows && decide ((member.readHeader member.terminator).terminator = .none)) =
      false := by
    simp [readHeader, member.terminator_ne_none]
  rw [hfollows, memberKind_readHeader]
  unfold terminator kind
  cases member.form <;> rfl

/-- Trimming keeps of a header line what is the signature of the member. -/
theorem trimmed?_headerRow :
    Dialect.csharp.trimmed? false member.headerRow (member.readHeader member.terminator) =
      some member.signature := by
  cases hform : member.form with
  | method mark parameters =>
    have hrow : member.headerRow = member.opening ++ '(' :: (parameterText parameters ++ [')']) := by
      simp [headerRow, ending, hform]
    have hparen : (member.readHeader member.terminator).openParen = some member.opening.length := by
      simp [readHeader, terminator, hform]
    rw [Dialect.trimmed?, hparen, elim_some]
    simp only [signature, hform, hrow, member.findParen_method parameters, map_some]
    exact congrArg some (member.finishMethod_method parameters)
  | property =>
    have hparen : (member.readHeader member.terminator).openParen = none := by
      simp [readHeader, terminator, hform]
    rw [Dialect.trimmed?, hparen, elim_none]
    simp only [headerRow, ending, signature, terminator, hform]
    exact congrArg some member.finishValue_property
  | field =>
    have hparen : (member.readHeader member.terminator).openParen = none := by
      simp [readHeader, terminator, hform]
    rw [Dialect.trimmed?, hparen, elim_none]
    simp only [headerRow, ending, signature, terminator, hform]
    exact congrArg some member.finishValue_field

theorem buildMember?_headerRow (follows : Bool) :
    buildMember? .csharp member.headerRow member.markers false follows = some member.summary := by
  have hheader : Dialect.csharp.tokenize member.headerRow = _ := member.tokenize_headerRow
  obtain ⟨final, hfinal⟩ := member.exists_tokenize_signature
  rw [buildMember?_of_trimmed? hheader member.trimmed?_headerRow hfinal, Dialect.memberKind,
    memberKind_terminator]
  rfl

end MemberSource

end SourceAtlas.CSharp
