import SourceAtlas.Proofs.CSharp.Signature
import SourceAtlas.Proofs.Declaration.Opening
import SourceAtlas.Proofs.Header.Parameters
import SourceAtlas.Proofs.TypeScript.TrimmedMember

/-!
# Headers up to their parameter list

The name, the kind and the modifiers of a method are read in front of its parameter list, and the type that
it returns in front of the list or behind it. So a header up to the open parenthesis of its list is read
alike whatever list follows, and where it starts a member in one text it does so in every other.
-/

namespace SourceAtlas

open List Option

variable {inner more lead : Text} {interfaceLike : Bool} {header : Header}

/-- Whether `lead` is a header up to the parenthesis of its parameter list, where `type` gives the type for
what follows the list. -/
structure Dialect.OpensList (dialect : Dialect) (lead : Text) (header : Header) (type : Text → Text) :
    Prop where
  openParen : header.openParen = some lead.length
  reads : ∀ more, ∃ declared, dialect.tokenize (lead ++ '(' :: more) =
    some { header with declaredType := declared }
  closes : ∀ {inner : Text} (after : Text), Balanced inner →
    dialect.tokenize (lead ++ '(' :: (inner ++ ')' :: after)) =
      some { header with declaredType := type after }

theorem findParen_enclosed (h : Balanced inner) (lead after : Text) :
    findParen (lead ++ '(' :: (inner ++ ')' :: after)) lead.length =
      some (lead.length + inner.length + 1) := by
  rw [findParen, findClosing, drop_left]
  exact h.closingFrom_enclosed rfl (by decide) lead.length after

/-! ## Reading the header -/

namespace CSharp

theorem exists_named_of_openParen {text : Text} {start : Nat}
    (h : tokenize text = some header) (hopen : header.openParen = some start) :
    ∃ named, named? (splitAssignment text).1 = some named ∧ named.terminator = .paren ∧
      named.terminatorStart = start := by
  obtain ⟨named, hnamed, rfl⟩ := map_eq_some_iff.mp ((tokenize_eq _).symm.trans h)
  obtain ⟨hterminator, hstart⟩ := ite_none_right_eq_some.mp hopen
  exact ⟨named, hnamed, Named.terminator_of_header hterminator (.inl rfl), some.inj hstart⟩

theorem tokenize_open (h : tokenize (lead ++ '(' :: more) = some header)
    (hopen : header.openParen = some lead.length) (other : Text) :
    tokenize (lead ++ '(' :: other) = some header := by
  have hfront : ∀ more : Text, lead ++ '(' :: more = lead ++ ['('] ++ more := by simp
  have hlast : (lead ++ ['(']).getLast? ≠ some '=' := by
    rw [getLast?_concat]
    decide
  rw [hfront] at h
  obtain ⟨named, hnamed, hends, hplace⟩ := exists_named_of_openParen h hopen
  have hlength : (lead ++ ['(']).length = lead.length + 1 := by simp
  obtain ⟨hshort, hsame⟩ := tokenize_of_append hlast hnamed (by omega) (.inl hends)
  have hstart := (place_of_named? hnamed).1
  rw [hfront, tokenize_append_of_paren hlast hshort (by omega) hends, hsame, h]

theorem opensList (h : tokenize (lead ++ '(' :: more) = some header)
    (hopen : header.openParen = some lead.length) :
    Dialect.csharp.OpensList lead header fun _ => header.declaredType :=
  ⟨hopen, fun more => ⟨_, tokenize_open h hopen more⟩, fun _ _ => tokenize_open h hopen _⟩

end CSharp

namespace TypeScript

/-- Headers of texts that start alike differ in their types only. -/
theorem headerAt_append (front rest other name : Text) (place : Nat) :
    headerAt (front ++ other) front.length name .paren place =
      { headerAt (front ++ rest) front.length name .paren place with
        declaredType := typeOrUnknown (writtenType (front ++ other) .paren place) } := by
  simp [headerAt]

theorem writtenType_enclosed (h : Balanced inner) (lead after : Text) :
    writtenType (lead ++ '(' :: (inner ++ ')' :: after)) .paren lead.length = resultOf after := by
  have hlist : lead ++ '(' :: (inner ++ ')' :: after) = lead ++ '(' :: (inner ++ [')']) ++ after := by simp
  have hlength : (lead ++ '(' :: (inner ++ [')'])).length = lead.length + inner.length + 1 + 1 := by
    simp
    omega
  rw [writtenType, if_pos rfl, findParen_enclosed h, map_some, getD_some, hlist,
    resultType_append hlength]

theorem opensList (h : tokenize (lead ++ '(' :: more) = some header)
    (hopen : header.openParen = some lead.length) :
    Dialect.typescript.OpensList lead header fun after => typeOrUnknown (resultOf after) := by
  obtain ⟨front, behind, name, tail, htext, hlength, hall⟩ := exists_front_of_openParen h hopen
  obtain ⟨hlead, -⟩ := append_inj htext hlength.symm
  rw [← hlead] at hall
  have hheader : header = headerAt (lead ++ '(' :: more) front.length name .paren lead.length :=
    some.inj (h.symm.trans (hall more))
  have hother : ∀ other, tokenize (lead ++ '(' :: other) = some { header with
      declaredType := typeOrUnknown (writtenType (lead ++ '(' :: other) .paren lead.length) } := by
    intro other
    rw [hall, hheader, hlead, append_assoc, append_assoc,
      headerAt_append front (behind ++ '(' :: more) (behind ++ '(' :: other)]
  refine ⟨hopen, fun other => ⟨_, hother other⟩, fun {inner} after hinner => ?_⟩
  have hclosed := hother (inner ++ ')' :: after)
  rwa [writtenType_enclosed hinner] at hclosed

end TypeScript

theorem Dialect.exists_opensList {dialect : Dialect}
    (h : dialect.tokenize (lead ++ '(' :: more) = some header)
    (hopen : header.openParen = some lead.length) : ∃ type, dialect.OpensList lead header type := by
  cases dialect with
  | csharp => exact ⟨_, CSharp.opensList h hopen⟩
  | typescript => exact ⟨_, TypeScript.opensList h hopen⟩

/-! ## Starting a member -/

theorem CSharp.isMemberCandidate_of_append
    (h : isMemberCandidate (lead ++ '(' :: more) interfaceLike = true) :
    isMemberCandidate (lead ++ ['(']) interfaceLike = true := by
  have hopen : (lead ++ ['(']).getLast? = some '(' := getLast?_concat
  have hfront : lead ++ '(' :: more = lead ++ ['('] ++ more := by simp
  cases interfaceLike with
  | true => simp [isMemberCandidate]
  | false =>
    have hwords : ∀ word ∈ accessWords, '(' ∉ word := by decide
    simp only [isMemberCandidate, Bool.false_eq_true, if_false, List.any_eq_true] at h ⊢
    obtain ⟨word, hword, hstands⟩ := h
    refine ⟨word, hword, ?_⟩
    rw [hfront, dropHead?_append_open hopen (hwords word hword)] at hstands
    cases hrest : dropHead? word (lead ++ ['(']) with
    | none =>
      rw [hrest] at hstands
      cases hstands
    | some rest =>
      rw [hrest] at hstands
      cases rest with
      | nil => rfl
      | cons c rest => exact hstands

namespace TypeScript

theorem closesShape_of_terminated? {after rest : Text} (h : terminated? after = some (.paren, rest)) :
    (afterTypeParameters (dropMark after)).any closesShape = true := by
  obtain ⟨place, hplace, hfound⟩ := exists_of_findSome?_eq_some h
  obtain ⟨terminator, hterminator, heq⟩ := map_eq_some_iff.mp hfound
  cases heq
  obtain ⟨tail, rfl⟩ := exists_of_terminatorAt?_paren hterminator
  exact any_eq_true.mpr ⟨_, hplace, rfl⟩

theorem exists_splitName?_of_openParen {text : Text} {start : Nat}
    (hword : dropWord? modifierWords text = none) (h : tokenize text = some header)
    (hopen : header.openParen = some start) :
    ∃ name after rest, splitName? isMemberStart text = some (name, after) ∧
      terminated? after = some (.paren, rest) := by
  have hends : modifierEnds text = [text] := by rw [modifierEnds, hword]
  rw [tokenize_eq, hends, findSome?_singleton] at h
  obtain ⟨⟨name, after⟩, hsplit, hfound⟩ := bind_eq_some_iff.mp h
  obtain ⟨⟨terminator, rest⟩, hterminated, rfl⟩ := map_eq_some_iff.mp hfound
  refine ⟨name, after, rest, hsplit, ?_⟩
  change (if terminator = .paren then some _ else none) = _ at hopen
  split at hopen
  · next hparen => rw [hterminated, hparen]
  · cases hopen

theorem isMemberCandidate_of_append
    (hheader : tokenize (lead ++ ['(']) = some header) (hopen : header.openParen = some lead.length)
    (h : isMemberCandidate (lead ++ '(' :: more) interfaceLike = true) :
    isMemberCandidate (lead ++ ['(']) interfaceLike = true := by
  have hlast : (lead ++ ['(']).getLast? = some '(' := getLast?_concat
  have hfront : lead ++ '(' :: more = lead ++ ['('] ++ more := by simp
  cases interfaceLike with
  | true => simp [isMemberCandidate]
  | false =>
    have hwords : ∀ word ∈ modifierWords, '(' ∉ word := by decide
    simp only [isMemberCandidate, Bool.false_eq_true, if_false] at h ⊢
    rw [hfront, dropWord?_append_open hlast hwords, isSome_map] at h
    cases hword : dropWord? modifierWords (lead ++ ['(']) with
    | some rest => rfl
    | none =>
      obtain ⟨name, after, rest, hsplit, hterminated⟩ :=
        exists_splitName?_of_openParen hword hheader hopen
      rw [hword, (splitName?_append_open (by decide) hlast hsplit more).1] at h
      rw [hsplit]
      simp only [isSome_none, Bool.false_eq_true, if_false, Bool.and_eq_true] at h ⊢
      exact ⟨h.1, closesShape_of_terminated? hterminated⟩

end TypeScript

namespace Dialect

variable {dialect : Dialect} {lead : Text} {header : Header} {type : Text → Text}

/-- A line that may declare a member may do so up to the parenthesis of its parameter list. -/
theorem OpensList.isMemberCandidate (h : dialect.OpensList lead header type)
    (hmember : dialect.isMemberCandidate (lead ++ '(' :: more) interfaceLike = true) :
    dialect.isMemberCandidate (lead ++ ['(']) interfaceLike = true := by
  cases dialect with
  | csharp => exact CSharp.isMemberCandidate_of_append hmember
  | typescript =>
    obtain ⟨declared, hheader⟩ := h.reads []
    exact TypeScript.isMemberCandidate_of_append hheader h.openParen hmember

/-! ## The signature -/

/-- What the signature of a method has behind the parameter list. -/
def listEnd : Dialect → Bool → Text → Text
  | .csharp, interfaceLike, after =>
    if interfaceLike && (trimLeft after).head? == some ';' then [';'] else []
  | .typescript, interfaceLike, after => TypeScript.methodSuffix interfaceLike after

theorem finishMethod_enclosed (dialect : Dialect) (lead inner after : Text) (interfaceLike : Bool) :
    dialect.finishMethod (lead ++ '(' :: (inner ++ ')' :: after)) (lead.length + inner.length + 1)
        interfaceLike =
      lead ++ '(' :: (inner ++ ')' :: dialect.listEnd interfaceLike after) := by
  have hlist : ∀ rest : Text, lead ++ '(' :: (inner ++ ')' :: rest) =
      lead ++ '(' :: (inner ++ [')']) ++ rest := by simp
  have hlength : (lead ++ '(' :: (inner ++ [')'])).length = lead.length + inner.length + 1 + 1 := by
    simp
    omega
  have hlast : (lead ++ '(' :: (inner ++ [')'])).getLast? = some ')' := by
    rw [← cons_append, ← append_assoc, getLast?_concat]
  rw [hlist after, hlist (dialect.listEnd interfaceLike after)]
  cases dialect with
  | csharp =>
    change CSharp.finishMethod _ _ _ = _
    rw [CSharp.finishMethod, ← hlength, take_left, drop_left,
      trimRight_of_getLast? hlast (by decide), listEnd]
    split
    · rfl
    · rw [append_nil]
  | typescript => exact TypeScript.finishMethod_append hlength hlast interfaceLike after

/-- Blanks in front of a parameter list do not change its parameters. -/
theorem OpensList.parameters_cons_blank (h : dialect.OpensList lead header type)
    (hinner : Balanced inner) {blank : Char} (hblank : isBlank blank = true) (after : Text) :
    dialect.parameters (lead ++ '(' :: (blank :: inner ++ ')' :: after)) =
      dialect.parameters (lead ++ '(' :: (inner ++ ')' :: after)) := by
  have hspaced : Balanced (blank :: inner) := .inert (isInert_of_isBlank hblank) hinner
  have hcommas : splitCommas (blank :: inner) = splitCommas inner := by
    have htrim : trim (blank :: inner) = trim inner :=
      trim_blanks_append (show ∀ c ∈ [blank], isBlank c = true by simpa using hblank) inner
    rw [splitCommas, splitCommas, ← splitTopLevel_trim (by decide) hspaced, htrim,
      splitTopLevel_trim (by decide) hinner]
  rw [parameters_eq hspaced (h.closes after hspaced) h.openParen,
    parameters_eq hinner (h.closes after hinner) h.openParen, hcommas]

/-! ## Texts that start alike -/

/-- Whether a text shows a member: its header is the given one, up to the type where that may follow the
parameter list. -/
def Shows (dialect : Dialect) (header : Header) (text : Text) : Prop :=
  ∃ declared, dialect.tokenize text = some { header with declaredType := declared } ∧
    (dialect = .csharp → declared = header.declaredType)

variable {text : Text} {start close : Nat}

theorem exists_lead_of_openParen (h : dialect.tokenize text = some header)
    (hopen : header.openParen = some start) :
    ∃ lead rest, text = lead ++ '(' :: rest ∧ lead.length = start := by
  cases dialect with
  | csharp =>
    obtain ⟨named, hnamed, hends, rfl⟩ := CSharp.exists_named_of_openParen h hopen
    obtain ⟨lead, rest, hhead, hplace⟩ := (CSharp.place_of_named? hnamed).2 hends
    obtain ⟨back, hback⟩ := CSharp.prefix_splitAssignment text
    refine ⟨lead, rest ++ back, ?_, hplace⟩
    rw [← hback, hhead, append_assoc, cons_append]
  | typescript =>
    obtain ⟨front, behind, -, rest, htext, hstart, -⟩ := TypeScript.exists_front_of_openParen h hopen
    exact ⟨front ++ behind, rest, htext, hstart⟩

theorem shows_of_front {other : Text} (h : dialect.tokenize text = some header)
    (hopen : header.openParen = some start) (hfront : text.take (start + 1) <+: other) :
    dialect.Shows header other := by
  obtain ⟨lead, rest, rfl, rfl⟩ := exists_lead_of_openParen h hopen
  obtain ⟨more, rfl⟩ := hfront
  rw [take_length_add_append, take_succ_cons, take_zero, append_assoc, singleton_append]
  cases dialect with
  | csharp => exact ⟨_, CSharp.tokenize_open h hopen more, fun _ => rfl⟩
  | typescript =>
    obtain ⟨declared, hread⟩ := (TypeScript.opensList h hopen).reads more
    exact ⟨declared, hread, by simp⟩

theorem prefix_finishMethod (dialect : Dialect) (hclose : findParen text start = some close)
    (interfaceLike : Bool) :
    text.take (close + 1) <+: dialect.finishMethod text close interfaceLike := by
  obtain ⟨-, hlength, ⟨front, hfront⟩, rest, htext, -⟩ := findClosing_eq_some hclose
  have hlast : (text.take (close + 1)).getLast? = some ')' := by rw [hfront, getLast?_concat]
  cases dialect with
  | csharp =>
    change _ <+: CSharp.finishMethod _ _ _
    rw [CSharp.finishMethod, trimRight_of_getLast? hlast (by decide)]
    split
    · exact prefix_append _ _
    · exact prefix_rfl
  | typescript =>
    have hfinish := TypeScript.finishMethod_append hlength hlast interfaceLike rest
    rw [← htext] at hfinish
    exact ⟨_, hfinish.symm⟩

/-- The text up to the parenthesis of its parameter list decides which method is seen. So neither a line
joined to an open list nor the cut behind a closed one changes it. -/
theorem shown_by_front (h : dialect.tokenize text = some header)
    (hopen : header.openParen = some start) :
    (∀ rest, dialect.Shows header (text.take (start + 1) ++ rest)) ∧
    (∀ limit below joined used, continueHeader? start limit text below = some (joined, used) →
      dialect.Shows header joined) ∧
    ∀ close interfaceLike, findParen text start = some close →
      dialect.Shows header (dialect.finishMethod text close interfaceLike) := by
  refine ⟨fun rest => shows_of_front h hopen (prefix_append _ rest), ?_, ?_⟩
  · intro limit below joined used hjoined
    have hfront : text <+: joined := of_continueHeader? prefix_rfl
      (fun raw _ joined hjoined => hjoined.trans (prefix_append _ _)) hjoined
    exact shows_of_front h hopen ((List.take_prefix _ _).trans hfront)
  · intro close interfaceLike hclose
    obtain ⟨hle, -⟩ := findClosing_eq_some hclose
    have hfront : text.take (start + 1) <+: text.take (close + 1) :=
      take_prefix_take_left (by omega)
    exact shows_of_front h hopen (hfront.trans ( prefix_finishMethod dialect hclose interfaceLike))

theorem shown_by_front_sum :
    csharp.Shows ⟨"operator +".toList, "Sum".toList, .paren, 18, ["public".toList, "static".toList], some 28⟩
        ("public static Sum operator +(Sum a".toList.take 29 ++ "string s = \x22)\x22) => s;".toList) ∧
      typescript.Shows ⟨"sum".toList, unknownType, .paren, 0, [], some 8⟩
        ("sum? <T>(id".toList.take 9 ++ "): T \x7b".toList) := by
  have hplus : csharp.tokenize "public static Sum operator +(Sum a".toList = some
      ⟨"operator +".toList, "Sum".toList, .paren, 18, ["public".toList, "static".toList], some 28⟩ := by
    decide +kernel
  have hsum : typescript.tokenize "sum? <T>(id".toList =
      some ⟨"sum".toList, unknownType, .paren, 0, [], some 8⟩ := by decide +kernel
  exact ⟨(shown_by_front hplus rfl).1 _, (shown_by_front hsum rfl).1 _⟩

end Dialect

end SourceAtlas
