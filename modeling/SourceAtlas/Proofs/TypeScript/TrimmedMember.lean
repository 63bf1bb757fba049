import SourceAtlas.Proofs.Member.Scan
import SourceAtlas.Proofs.TypeReading
import SourceAtlas.Proofs.TypeScript.Tokenize

/-!
# Members and their headers

The signature of a member is written anew from its header: the text up to the name or the closing
parenthesis, and the type with its blanks squeezed. Reading it gives the header's name. It gives the
header's type too, and itself when it is trimmed again, unless a semicolon is put behind a result type
that leaves a bracket or quote open: the semicolon is then read as a part of the type.
-/

namespace SourceAtlas.TypeScript

open List Option

variable {type name lead more text front : Text} {start close : Nat} {header : Header}

open TypeReading

/-! ## Types in a signature -/

/-- A type as it is written behind a name or a parameter list. -/
def typeSuffix (type : Text) : Text :=
  if type.isEmpty then [] else ": ".toList ++ type

theorem typeSuffix_of_ne_nil (h : type ≠ []) : typeSuffix type = ':' :: ' ' :: type := by
  rw [typeSuffix, if_neg (by simpa using h)]
  rfl

def resultOf (more : Text) : Text :=
  (dropHead? [':'] (trimLeft more)).elim [] read

def methodSuffix (interfaceLike : Bool) (more : Text) : Text :=
  typeSuffix (resultOf more) ++
    if interfaceLike && (trimRight more).getLast? == some ';' then [';'] else []

theorem typeOrUnknown_of_ne_nil (h : type ≠ []) : typeOrUnknown type = type := by
  rw [typeOrUnknown, if_neg (by simpa using h)]

theorem typeOrUnknown_ne_nil (type : Text) : typeOrUnknown type ≠ [] := by
  unfold typeOrUnknown
  split_ifs with h
  · decide
  · simpa using h

theorem getLast?_append_colon_ne (front : Text) {gap : Text} (h : ∀ c ∈ gap, isBlank c = true) :
    (front ++ ':' :: gap).getLast? ≠ some '=' := by
  rw [getLast?_append_of_ne_nil _ (cons_ne_nil _ _)]
  cases gap with
  | nil => simp
  | cons c gap =>
    rw [getLast?_cons_cons]
    intro hlast
    have hblank := h '=' (mem_of_mem_getLast? hlast)
    exact absurd hblank (by decide)

section

variable {front : Text} {close : Nat} (hlength : front.length = close + 1)
  (hlast : front.getLast? = some ')')

include hlength

theorem resultType_append (more : Text) : resultType (front ++ more) close = resultOf more := by
  have hdrop : (front ++ more).drop (close + 1) = more := by rw [← hlength, drop_left]
  unfold resultType resultOf
  rw [hdrop]
  cases htrim : trimLeft more with
  | nil => rfl
  | cons c rest =>
    by_cases hc : c = ':'
    · subst hc
      obtain ⟨blanks, hmore, -⟩ := exists_blanks_of_trimLeft_eq htrim
      obtain ⟨gap, hrest, hgap⟩ := exists_blanks_of_trimLeft_eq (rfl : trimLeft rest = _)
      have htext : front ++ more = front ++ blanks ++ ':' :: gap ++ trimLeft rest := by
        rw [hmore]
        nth_rewrite 1 [hrest]
        simp
      change readType (front ++ more) ((front ++ more).length - (trimLeft rest).length) = read rest
      rw [htext, length_append, Nat.add_sub_cancel, readType_eq, drop_left, read_trimLeft]
      rw [take_left]
      exact getLast?_append_colon_ne _ hgap
    · have hnone : dropHead? [':'] (c :: rest) = none :=
        dropHead?_eq_none_iff.mpr fun ⟨tail, htail⟩ => hc (cons.inj htail).1.symm
      rw [hnone]
      simp [hc]

include hlast

theorem finishMethod_append (interfaceLike : Bool) (more : Text) :
    finishMethod (front ++ more) close interfaceLike = front ++ methodSuffix interfaceLike more := by
  have htake : (front ++ more).take (close + 1) = front := by rw [← hlength, take_left]
  have hdrop : (front ++ more).drop (close + 1) = more := by rw [← hlength, drop_left]
  unfold finishMethod methodSuffix typeSuffix
  rw [htake, hdrop, resultType_append hlength, trimRight_of_getLast? hlast (by decide)]
  generalize (interfaceLike && (trimRight more).getLast? == some ';') = semicolon
  cases resultOf more <;> cases semicolon <;> simp

end

/-! ## Signatures of methods -/

/-- Whether the type behind a parameter list is read to the end of the text and leaves a bracket or
quote open there. -/
def ResultRunsOff (more : Text) : Prop :=
  ∃ type, dropHead? [':'] (trimLeft more) = some type ∧ TypeReading.RunsOff type

theorem resultOf_colon (type : Text) : resultOf (':' :: ' ' :: type) = read type :=
  read_cons_blank (by decide) type

theorem exists_of_resultOf_ne_nil (h : resultOf more ≠ []) :
    ∃ type, dropHead? [':'] (trimLeft more) = some type ∧ resultOf more = read type := by
  unfold resultOf at h ⊢
  cases htype : dropHead? [':'] (trimLeft more) with
  | none =>
    rw [htype] at h
    exact absurd rfl h
  | some type => exact ⟨type, rfl, rfl⟩

theorem getLast?_trimRight_of_colon (h : dropHead? [':'] (trimLeft more) = some type) :
    (trimRight more).getLast? = some ';' ↔ (trimRight type).getLast? = some ';' := by
  obtain ⟨blanks, rfl, -⟩ := exists_blanks_of_trimLeft_eq (dropHead?_eq_some_iff.mp h)
  rw [← append_assoc]
  refine getLast?_trimRight_append ?_ type
  rw [trimRight_append_singleton (by decide)]
  simp

section

variable {interfaceLike : Bool} {more : Text}
  (h : ¬ (interfaceLike = true ∧ ResultRunsOff more ∧ (trimRight more).getLast? = some ';'))

include h

theorem resultOf_methodSuffix : resultOf (methodSuffix interfaceLike more) = resultOf more := by
  unfold methodSuffix
  by_cases hnil : resultOf more = []
  · rw [hnil]
    split_ifs <;> rfl
  · obtain ⟨type, htype, hread⟩ := exists_of_resultOf_ne_nil hnil
    rw [typeSuffix_of_ne_nil hnil, cons_append, cons_append, resultOf_colon, hread]
    split_ifs with hends
    · obtain ⟨hlike, hlast⟩ := Bool.and_eq_true_iff.mp hends
      refine read_read_append_semicolon fun hoff => h ⟨hlike, ⟨type, htype, hoff⟩, ?_⟩
      exact beq_iff_eq.mp hlast
    · rw [append_nil, read_read]

omit h in
theorem getLast?_methodSuffix :
    (interfaceLike && (trimRight (methodSuffix interfaceLike more)).getLast? == some ';') =
      (interfaceLike && (trimRight more).getLast? == some ';') := by
  cases interfaceLike with
  | false => rfl
  | true =>
    rw [Bool.true_and, Bool.true_and, methodSuffix, Bool.true_and]
    by_cases hlast : (trimRight more).getLast? = some ';'
    · rw [hlast, if_pos (by decide), trimRight_append_singleton (by decide)]
      simp
    · have hbeq : ((trimRight more).getLast? == some ';') = false := beq_eq_false_iff_ne.mpr hlast
      rw [hbeq, if_neg (by decide), append_nil, beq_eq_false_iff_ne]
      intro hsuffix
      by_cases hnil : resultOf more = []
      · rw [hnil] at hsuffix
        cases hsuffix
      · -- a type that ends with a semicolon is read to the end of the text
        obtain ⟨type, htype, hread⟩ := exists_of_resultOf_ne_nil hnil
        have hcolon : (trimRight [':', ' ']).getLast? ≠ some ';' := by decide
        rw [typeSuffix_of_ne_nil hnil, hread] at hsuffix
        have hresult := (getLast?_trimRight_append hcolon (read type)).mp hsuffix
        exact hlast ((getLast?_trimRight_of_colon htype).mpr (runsOff_of_getLast?_read hresult).2)

theorem methodSuffix_methodSuffix :
    methodSuffix interfaceLike (methodSuffix interfaceLike more) = methodSuffix interfaceLike more := by
  rw [methodSuffix.eq_def interfaceLike (methodSuffix interfaceLike more), resultOf_methodSuffix h,
    getLast?_methodSuffix, ← methodSuffix]

end

theorem resultOf_methodSuffix_ne (hoff : ResultRunsOff more)
    (hlast : (trimRight more).getLast? = some ';') :
    typeOrUnknown (resultOf (methodSuffix true more)) ≠ typeOrUnknown (resultOf more) := by
  obtain ⟨type, htype, hoff⟩ := hoff
  have hread : resultOf more = read type := by rw [resultOf, htype, elim_some]
  have hne := read_ne_nil hoff
  have hsuffix : methodSuffix true more = ':' :: ' ' :: (read type ++ [';']) := by
    rw [methodSuffix, hread, hlast, if_pos (by decide), typeSuffix_of_ne_nil hne]
    rfl
  have hchars := filter_read_append_semicolon hoff
  have hne' : read (read type ++ [';']) ≠ [] := by
    intro hnil
    rw [hnil] at hchars
    simp at hchars
  rw [hsuffix, resultOf_colon, hread, typeOrUnknown_of_ne_nil hne, typeOrUnknown_of_ne_nil hne']
  intro hsame
  rw [hsame] at hchars
  simp at hchars

/-- The front of a method's text, up to the end of its parameter list. -/
structure MethodFront (name : Text) (start close : Nat) (front : Text) : Prop where
  length : front.length = close + 1
  last : front.getLast? = some ')'
  closes : ∀ more, findParen (front ++ more) start = some close
  reads : ∀ more, ∃ header, tokenize (front ++ more) = some header ∧ header.name = name ∧
    header.openParen = some start ∧ header.declaredType = typeOrUnknown (resultOf more)

theorem MethodFront.trimmed?
    (h : MethodFront name start close front) (hparen : header.openParen = some start)
    (interfaceLike : Bool) (more : Text) :
    Dialect.typescript.trimmed? interfaceLike (front ++ more) header =
      some (front ++ methodSuffix interfaceLike more) := by
  rw [Dialect.trimmed?, hparen, elim_some, h.closes, map_some]
  exact congrArg some (finishMethod_append h.length h.last interfaceLike more)

/-- The text of a method up to the end of its parameter list gives its name, whatever follows. -/
theorem exists_methodFront
    (hheader : tokenize text = some header) (hparen : header.openParen = some start)
    (hclose : findParen text start = some close) :
    ∃ front more, text = front ++ more ∧ MethodFront header.name start close front := by
  obtain ⟨lead, behind, name, tail, htext, hstart, hall⟩ := exists_front_of_openParen hheader hparen
  rw [htext, hall, some.injEq] at hheader
  have hname : name = header.name := congrArg Header.name hheader
  obtain ⟨hle, hlength, ⟨inside, hinside⟩, more, hmore, hcloses⟩ := findClosing_eq_some hclose
  generalize text.take (close + 1) = front at *
  -- the front goes on behind the opening parenthesis
  obtain ⟨inner, rfl⟩ : ∃ inner, front = lead ++ behind ++ '(' :: inner := by
    rcases append_eq_append_cons (hmore.symm.trans htext) with ⟨inner, hfront, -⟩ | ⟨extra, -, hshort⟩
    · exact ⟨inner, hfront⟩
    · rw [hshort, length_append] at hstart
      omega
  refine ⟨_, more, hmore, hlength, by rw [hinside]; simp, hcloses, fun others => ?_⟩
  have hfound := hall (inner ++ others)
  rw [← cons_append, ← append_assoc] at hfound
  refine ⟨_, hfound, hname, rfl, ?_⟩
  have hclosed : findParen (lead ++ behind ++ '(' :: inner ++ others) start = some close := hcloses others
  change typeOrUnknown (writtenType _ .paren start) = _
  rw [writtenType, if_pos rfl, hclosed, map_some, getD_some, resultType_append hlength]

/-! ## Signatures of values -/

/-- The mark of a name that `after` follows. -/
def markOf (after : Text) : Text :=
  ((trimLeft after).head?.filter isMark).toList

def valueSuffix (after type : Text) : Text :=
  markOf after ++ typeSuffix type

/-- A type that is written in a signature as it is; no type is the empty one. -/
structure IsKeptType (type : Text) : Prop where
  reads : read type = type
  known : type ≠ unknownType

def keptTypeOf (header : Header) : Text :=
  if header.terminator = .colon && header.declaredType != unknownType then header.declaredType else []

theorem markOf_eq (after : Text) : markOf after = [] ∨ markOf after = ['?'] ∨ markOf after = ['!'] := by
  unfold markOf
  cases (trimLeft after).head? with
  | none => exact Or.inl rfl
  | some c =>
    by_cases hc : isMark c = true
    · rw [filter_some, if_pos hc]
      simp only [isMark, Bool.or_eq_true, beq_iff_eq] at hc
      rcases hc with rfl | rfl
      · exact Or.inr (Or.inl rfl)
      · exact Or.inr (Or.inr rfl)
    · rw [filter_some, if_neg hc]
      exact Or.inl rfl

theorem of_valueSuffix (after type : Text) :
    markOf (valueSuffix after type) = markOf after ∧
      terminated? (valueSuffix after type) =
        some (if type = [] then .none else .colon, typeSuffix type) ∧
      ∀ c ∈ (valueSuffix after type).head?, isNameChar c = false := by
  unfold valueSuffix
  by_cases htype : type = []
  · subst htype
    rcases markOf_eq after with h | h | h <;> rw [h] <;>
      exact ⟨rfl, rfl, fun c hc => by cases hc <;> decide⟩
  · rw [typeSuffix_of_ne_nil htype, if_neg htype]
    rcases markOf_eq after with h | h | h <;> rw [h] <;>
      exact ⟨rfl, rfl, fun c hc => by cases hc; decide⟩

theorem readType_colon (front type : Text) :
    readType (front ++ ':' :: type) (front.length + 1) = read type := by
  have htext : front ++ ':' :: type = front ++ [':'] ++ type := by simp
  have hlength : front.length + 1 = (front ++ [':']).length := by simp
  rw [htext, hlength, readType_eq, drop_left]
  rw [take_left]
  exact getLast?_append_colon_ne front (forall_mem_nil _)

theorem trimRight_append_markOf (lead : Text) (name : Name isMemberStart) (after : Text) :
    trimRight (lead ++ name.text ++ markOf after) = lead ++ name.text ++ markOf after := by
  rcases markOf_eq after with h | h | h
  · obtain ⟨c, letters, hcons, -⟩ := name.exists_cons
    have hne : name.text ≠ [] := by simp [hcons]
    rw [h, append_nil]
    refine trimRight_of_getLast? (c := name.text.getLast hne) ?_
      (isBlank_eq_false_of_mem_name name (getLast_mem hne))
    rw [getLast?_append_of_ne_nil _ hne, getLast?_eq_some_getLast hne]
  · rw [h, trimRight_append_singleton (by decide)]
  · rw [h, trimRight_append_singleton (by decide)]

theorem finishValue_append {name : Name isMemberStart}
    (hstart : header.nameStart = lead.length) (hname : header.name = name.text)
    (hdeclared : header.declaredType ≠ []) (after : Text) :
    finishValue (lead ++ (name.text ++ after)) header =
      lead ++ (name.text ++ valueSuffix after (keptTypeOf header)) := by
  have hstop : header.nameStart + header.name.length = (lead ++ name.text).length := by
    rw [hstart, hname, length_append]
  have hfinish : finishValue (lead ++ (name.text ++ after)) header =
      if header.terminator = .colon && header.declaredType != unknownType then
        lead ++ name.text ++ markOf after ++ ": ".toList ++ header.declaredType
      else trimRight (lead ++ name.text ++ markOf after) := by
    unfold finishValue markOf
    dsimp only
    rw [hstop, ← append_assoc, take_left, drop_left]
    cases trimLeft after with
    | nil => simp
    | cons c rest =>
      by_cases hquestion : c = '?'
      · rw [hquestion]
        rfl
      · by_cases hexclamation : c = '!'
        · rw [hexclamation]
          rfl
        · have hc : isMark c = false := by simp [isMark, hquestion, hexclamation]
          simp [filter_some, hc, hquestion, hexclamation]
  rw [hfinish, valueSuffix, keptTypeOf]
  split_ifs
  · rw [typeSuffix_of_ne_nil hdeclared]
    simp
  · rw [trimRight_append_markOf]
    simp [typeSuffix]

theorem tokenize_value (hlead : Lead lead) (name : Name isMemberStart) (after : Text)
    (htype : IsKeptType type) :
    ∃ header, tokenize (lead ++ (name.text ++ valueSuffix after type)) = some header ∧
      header.name = name.text ∧ header.openParen = none ∧ header.nameStart = lead.length ∧
      header.declaredType = typeOrUnknown type ∧ keptTypeOf header = type := by
  obtain ⟨-, hends, hhead⟩ := of_valueSuffix after type
  have hfound := tokenize_append hlead name hhead hends
  by_cases hnil : type = []
  · subst hnil
    exact ⟨_, hfound, rfl, rfl, rfl, rfl, rfl⟩
  · rw [if_neg hnil, typeSuffix_of_ne_nil hnil] at hfound
    have htext : lead ++ (name.text ++ valueSuffix after type) =
        lead ++ name.text ++ markOf after ++ ':' :: ' ' :: type := by
      rw [valueSuffix, typeSuffix_of_ne_nil hnil]
      simp
    have hwritten : writtenType (lead ++ (name.text ++ valueSuffix after type)) .colon
        ((lead ++ (name.text ++ valueSuffix after type)).length - (':' :: ' ' :: type).length) =
          type := by
      rw [writtenType, if_neg (by decide), if_pos rfl, htext, length_append, Nat.add_sub_cancel,
        readType_colon, read_cons_blank (by decide), htype.reads]
    have hdeclared := congrArg typeOrUnknown hwritten
    refine ⟨_, hfound, rfl, rfl, rfl, hdeclared, ?_⟩
    unfold keptTypeOf headerAt
    rw [hwritten, typeOrUnknown_of_ne_nil hnil, if_pos]
    exact Bool.and_eq_true_iff.mpr ⟨rfl, bne_iff_ne.mpr htype.known⟩

theorem isKeptType_keptTypeOf
    (hdeclared : header.declaredType = typeOrUnknown type) (hread : read type = type)
    (hcolon : header.terminator ≠ .colon → type = []) :
    IsKeptType (keptTypeOf header) ∧ header.declaredType = typeOrUnknown (keptTypeOf header) := by
  unfold keptTypeOf
  split_ifs with h
  · obtain ⟨-, hknown⟩ := Bool.and_eq_true_iff.mp h
    have hne : type ≠ [] := by
      rintro rfl
      rw [hdeclared] at hknown
      exact absurd hknown (by decide)
    rw [hdeclared, typeOrUnknown_of_ne_nil hne] at hknown ⊢
    exact ⟨⟨hread, bne_iff_ne.mp hknown⟩, (typeOrUnknown_of_ne_nil hne).symm⟩
  · refine ⟨⟨rfl, by decide⟩, ?_⟩
    by_cases hends : header.terminator = .colon
    · have hunknown : header.declaredType = unknownType := by simpa [hends] using h
      exact hunknown
    · rw [hdeclared, hcolon hends]

/-- A value's header keeps its type for the signature, unless it is unknown. -/
theorem exists_valueFront (hheader : tokenize text = some header)
    (hparen : header.openParen = none) :
    ∃ lead, ∃ name : Name isMemberStart, ∃ after, Lead lead ∧ text = lead ++ (name.text ++ after) ∧
      header.name = name.text ∧ header.nameStart = lead.length ∧ IsKeptType (keptTypeOf header) ∧
      header.declaredType = typeOrUnknown (keptTypeOf header) := by
  obtain ⟨lead, name, after, terminator, rest, hlead, htext, -, hends, hheader⟩ :=
    exists_of_tokenize_eq_some hheader
  refine ⟨lead, name, after, hlead, htext, by rw [hheader]; rfl, by rw [hheader]; rfl, ?_⟩
  have hvalue : terminator ≠ .paren := by
    rintro rfl
    rw [hheader] at hparen
    cases hparen
  refine isKeptType_keptTypeOf (congrArg Header.declaredType hheader) ?_ fun hcolon => ?_
  · by_cases hcolon : terminator = .colon
    · subst hcolon
      obtain ⟨hsuffix, hends⟩ := of_terminated?_eq_some hends
      obtain ⟨type, rfl⟩ := exists_of_terminatorAt?_colon hends
      obtain ⟨front, rfl⟩ := hsuffix
      have hwhole : text = lead ++ name.text ++ front ++ ':' :: type := by
        rw [htext]
        simp
      rw [writtenType, if_neg (by decide), if_pos rfl, hwhole, length_append, Nat.add_sub_cancel,
        readType_colon, read_read]
    · rw [writtenType, if_neg hvalue, if_neg hcolon]
      rfl
  · rw [hheader] at hcolon
    exact (if_neg hvalue).trans (if_neg hcolon)

/-! ## Members -/

/-- Whether the result type behind the parameter list of a header's text is read to the end of the text
and leaves a bracket or quote open there. -/
def RunsOff (text : Text) (header : Header) : Prop :=
  ∃ start close, header.openParen = some start ∧ findParen text start = some close ∧
    ResultRunsOff (text.drop (close + 1))

/-- Whether a member has the type of a header, and its signature gives the same signature, name and
type once more. -/
def KeepsHeader (interfaceLike : Bool) (header : Header) (member : Member) : Prop :=
  member.declaredType = header.declaredType ∧
    ∀ markers follows, ∃ again,
      buildMember? .typescript member.signature markers interfaceLike follows = some again ∧
        again.signature = member.signature ∧ again.name = member.name ∧
        again.declaredType = member.declaredType

section

variable {text signature : Text} {header final : Header} {interfaceLike : Bool}

theorem exists_buildMember?_again (hfinal : tokenize signature = some final)
    (hstays : Dialect.typescript.trimmed? interfaceLike signature final = some signature)
    (markers : List Marker) (follows : Bool) :
    ∃ again, buildMember? .typescript signature markers interfaceLike follows = some again ∧
      again.signature = signature ∧ again.name = final.name ∧
      again.declaredType = final.declaredType := by
  have hread : Dialect.typescript.tokenize signature = some final := hfinal
  exact ⟨_, buildMember?_of_trimmed? hread hstays hread markers follows, rfl, rfl, rfl⟩

theorem of_trimmed?_value (hheader : tokenize text = some header) (hparen : header.openParen = none)
    (hsignature : Dialect.typescript.trimmed? interfaceLike text header = some signature)
    (hfinal : tokenize signature = some final) :
    final.name = header.name ∧ final.declaredType = header.declaredType ∧
      Dialect.typescript.trimmed? interfaceLike signature final = some signature := by
  obtain ⟨lead, name, after, hlead, rfl, hname, hstart, hkept, hdeclared⟩ :=
    exists_valueFront hheader hparen
  have hne : header.declaredType ≠ [] := hdeclared ▸ typeOrUnknown_ne_nil _
  rw [Dialect.trimmed?, hparen, elim_none, some.injEq] at hsignature
  obtain rfl : signature = lead ++ (name.text ++ valueSuffix after (keptTypeOf header)) :=
    hsignature.symm.trans (finishValue_append hstart hname hne after)
  obtain ⟨again, hagain, hname', hparen', hstart', hdeclared', hkept'⟩ :=
    tokenize_value hlead name after hkept
  obtain rfl : again = final := some.inj (hagain.symm.trans hfinal)
  refine ⟨hname'.trans hname.symm, hdeclared'.trans hdeclared.symm, ?_⟩
  have hne' : again.declaredType ≠ [] := hdeclared' ▸ typeOrUnknown_ne_nil _
  have hstays := finishValue_append hstart' hname' hne' (valueSuffix after (keptTypeOf header))
  rw [hkept', valueSuffix.eq_def (valueSuffix after (keptTypeOf header)),
    (of_valueSuffix after (keptTypeOf header)).1, ← valueSuffix] at hstays
  rw [Dialect.trimmed?, hparen', elim_none]
  exact congrArg some hstays

theorem exists_of_trimmed?_method (hheader : tokenize text = some header)
    (hparen : header.openParen = some start)
    (hsignature : Dialect.typescript.trimmed? interfaceLike text header = some signature)
    (hfinal : tokenize signature = some final) :
    ∃ front more close, text = front ++ more ∧ MethodFront header.name start close front ∧
      signature = front ++ methodSuffix interfaceLike more ∧ final.name = header.name ∧
      final.openParen = some start ∧ header.declaredType = typeOrUnknown (resultOf more) ∧
      final.declaredType = typeOrUnknown (resultOf (methodSuffix interfaceLike more)) := by
  have hcut := hsignature
  rw [Dialect.trimmed?, hparen, elim_some] at hcut
  obtain ⟨close, hclose, -⟩ := map_eq_some_iff.mp hcut
  obtain ⟨front, more, rfl, hfront⟩ := exists_methodFront hheader hparen hclose
  rw [hfront.trimmed? hparen, some.injEq] at hsignature
  subst hsignature
  obtain ⟨first, hfirst, -, -, htype⟩ := hfront.reads more
  obtain rfl : first = header := some.inj (hfirst.symm.trans hheader)
  obtain ⟨again, hagain, hname, hparen', htype'⟩ := hfront.reads (methodSuffix interfaceLike more)
  obtain rfl : again = final := some.inj (hagain.symm.trans hfinal)
  exact ⟨front, more, close, rfl, hfront, rfl, hname, hparen', htype, htype'⟩

theorem MethodFront.runsOff_iff
    (h : MethodFront name start close front) (hparen : header.openParen = some start) :
    RunsOff (front ++ more) header ↔ ResultRunsOff more := by
  have hdrop : (front ++ more).drop (close + 1) = more := by rw [← h.length, drop_left]
  constructor
  · rintro ⟨start', close', hstart, hclose, hoff⟩
    obtain rfl : start = start' := some.inj (hparen.symm.trans hstart)
    obtain rfl : close = close' := some.inj ((h.closes more).symm.trans hclose)
    rwa [hdrop] at hoff
  · intro hoff
    refine ⟨start, close, hparen, h.closes more, ?_⟩
    rwa [hdrop]

theorem MethodFront.getLast?_trimRight (h : MethodFront name start close front) (more : Text) :
    (trimRight (front ++ more)).getLast? = some ';' ↔ (trimRight more).getLast? = some ';' := by
  refine getLast?_trimRight_append ?_ more
  rw [trimRight_of_getLast? h.last (by decide), h.last]
  decide

end

/-- A member has the name of its header. It keeps the header's type, and its signature gives the same
member again, unless it is declared in an interface and a semicolon ends a text whose result type leaves
a bracket or quote open. -/
theorem buildMember?_name_and_keepsHeader_iff {text : Text} {header : Header} {markers : List Marker}
    {interfaceLike follows : Bool} {member : Member} (hheader : tokenize text = some header)
    (hmember : buildMember? .typescript text markers interfaceLike follows = some member) :
    member.name = header.name ∧
      (KeepsHeader interfaceLike header member ↔
        ¬ (interfaceLike = true ∧ RunsOff text header ∧ (trimRight text).getLast? = some ';')) := by
  rw [buildMember?_eq_bind] at hmember
  obtain ⟨first, hfirst, hmember⟩ := bind_eq_some_iff.mp hmember
  obtain rfl : header = first := some.inj (hheader.symm.trans hfirst)
  obtain ⟨signature, hsignature, hmember⟩ := bind_eq_some_iff.mp hmember
  obtain ⟨final, hfinal, rfl⟩ := map_eq_some_iff.mp hmember
  cases hparen : header.openParen with
  | none =>
    obtain ⟨hname, htype, hstays⟩ := of_trimmed?_value hheader hparen hsignature hfinal
    refine ⟨hname, iff_of_true ⟨htype, exists_buildMember?_again hfinal hstays⟩ ?_⟩
    rintro ⟨-, ⟨start, -, hstart, -⟩, -⟩
    rw [hparen] at hstart
    cases hstart
  | some start =>
    obtain ⟨front, more, close, rfl, hfront, rfl, hname, hparen', htype, htype'⟩ :=
      exists_of_trimmed?_method hheader hparen hsignature hfinal
    refine ⟨hname, ?_⟩
    rw [hfront.runsOff_iff hparen, hfront.getLast?_trimRight]
    constructor
    · -- the glued semicolon is read as a part of the type
      rintro ⟨hsame, -⟩ ⟨rfl, hoff, hlast⟩
      exact resultOf_methodSuffix_ne hoff hlast (htype'.symm.trans (hsame.trans htype))
    · intro hkeeps
      have hstays := hfront.trimmed? hparen' interfaceLike (methodSuffix interfaceLike more)
      rw [methodSuffix_methodSuffix hkeeps] at hstays
      refine ⟨?_, exists_buildMember?_again hfinal hstays⟩
      change final.declaredType = header.declaredType
      rw [htype', resultOf_methodSuffix hkeeps, htype]

def findText : Text :=
  "find<T>(ids: string[]):  Map<string,  T | null>;".toList

theorem buildMember?_find_keepsHeader :
    ∃ header member, tokenize findText = some header ∧
      buildMember? .typescript findText [] true false = some member ∧
      member.signature = "find<T>(ids: string[]): Map<string, T | null>;".toList ∧
      member.name = header.name ∧ KeepsHeader true header member := by
  have hheader : tokenize findText = some
      { name := "find".toList, declaredType := "Map<string, T | null>".toList, terminator := .paren,
        nameStart := 0, modifiers := [], openParen := some 7 } := by decide +kernel
  have hmember : buildMember? .typescript findText [] true false = some
      { name := "find".toList, kind := .method, declaredType := "Map<string, T | null>".toList,
        signature := "find<T>(ids: string[]): Map<string, T | null>;".toList, markers := [] } := by
    decide +kernel
  have hclose : findParen findText 7 = some 21 := by decide +kernel
  have htype : dropHead? [':'] (trimLeft (findText.drop 22)) =
      some "  Map<string,  T | null>;".toList := by decide +kernel
  -- the reading stops in front of the semicolon
  have hrun : (TypeReading.initial.run? "  Map<string,  T | null>;".toList).isNone = true := by
    decide +kernel
  obtain ⟨hname, hkeeps⟩ := buildMember?_name_and_keepsHeader_iff hheader hmember
  refine ⟨_, _, hheader, hmember, rfl, hname, hkeeps.mpr ?_⟩
  rintro ⟨-, ⟨start, close, hstart, hclose', type, htype', after, hrun', -⟩, -⟩
  obtain rfl := some.inj hstart
  obtain rfl := some.inj (hclose.symm.trans hclose')
  obtain rfl := some.inj (htype.symm.trans htype')
  rw [hrun'] at hrun
  cases hrun

example :
    (tokenize "find(): Map<string, T[];".toList).map Header.declaredType =
      some "Map<string, T[];".toList ∧
    (buildMember? .typescript "find(): Map<string, T[];".toList [] true false).map
      Member.declaredType = some "Map<string, T[];;".toList := by
  decide +kernel

end SourceAtlas.TypeScript
