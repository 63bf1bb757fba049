import SourceAtlas.Proofs.CSharp.Member
import SourceAtlas.Proofs.CSharp.TypeHeader
import SourceAtlas.Proofs.CSharp.VerbMarker

/-!
# The lines of a written body

Every line of a written body is a line of code in which no type header starts, and the braces of the
lines pair up.
-/

namespace SourceAtlas.CSharp

open List

/-! ## No header starts in a body -/

/-- Whether no type header starts in a text, whatever stands around it. -/
def Quiet (text : Text) : Prop :=
  ∀ before rest, Unread (fun before text => typeHeaderAt? before text = none) before text rest

theorem Quiet.append {first second : Text} (hfirst : Quiet first) (hsecond : Quiet second) :
    Quiet (first ++ second) :=
  fun before rest => (hfirst before (second ++ rest)).append (hsecond _ rest)

theorem quiet_marks {marks : Text} (h : ∀ c ∈ marks, isWord c = false) : Quiet marks :=
  fun _ _ => readsWords_typeHeaderAt.unread_marks h

/-- No header starts in a text without blanks that does not end inside a word. -/
theorem quiet_solid {text : Text} {c : Char} (hlast : text.getLast? = some c)
    (hc : isWord c = false) (hsolid : ∀ c ∈ text, isBlank c = false) : Quiet text := by
  induction text with
  | nil => cases hlast
  | cons d text ih =>
    intro before rest
    constructor
    · -- the word at this place ends inside the text, at a mark
      have hsplit := takeWhile_append_dropWhile (p := isWord) (l := d :: text)
      have hword : ∀ e ∈ (d :: text).takeWhile isWord, isWord e = true :=
        fun e he => mem_takeWhile_imp he
      cases hafter : (d :: text).dropWhile isWord with
      | nil =>
        have hall := dropWhile_eq_nil_iff.mp hafter c (mem_of_getLast? hlast)
        rw [hall] at hc
        cases hc
      | cons e more =>
        rw [hafter] at hsplit
        have hblank : isBlank e = false := hsolid e (by rw [← hsplit]; simp)
        have hmark : isWord e = false := of_dropWhile_eq_cons hafter
        rw [← cons_append, ← hsplit, append_assoc]
        exact typeHeaderAt?_unspaced hword (by simp [hmark, hblank])
    · cases text with
      | nil => trivial
      | cons e text =>
        have hlast' : (e :: text).getLast? = some c := by simpa using hlast
        exact ih hlast' (fun a ha => hsolid a (mem_cons_of_mem d ha)) (some d) rest

/-- A type with a name behind it is no header when it is none as a single word. -/
theorem typeHeaderAt?_type (type : TypeExpr) {before : Option Char} {tail : Text}
    (hword : (∀ c ∈ type.text, isWord c = true) →
      typeHeaderAt? before (type.text ++ ' ' :: tail) = none) :
    typeHeaderAt? before (type.text ++ ' ' :: tail) = none := by
  obtain ⟨name, -, others, htext, hothers⟩ := type.exists_name_append
  rcases hothers with rfl | ⟨c, others, rfl, hc⟩
  · apply hword
    rw [htext, append_nil]
    exact fun c hc => name.isWord_of_mem hc
  · rw [htext, append_assoc]
    refine typeHeaderAt?_unspaced (fun _ h => name.isWord_of_mem h) ?_
    simpa using ⟨TypeSyntax.isWord_eq_false_of_mem_marks hc,
      TypeSyntax.isBlank_eq_false_of_mem_marks hc⟩

section

variable {before : Option Char} {rest : Text}

theorem unread_type_name (type : TypeExpr) (name : Identifier)
    (htype : typeHeaderAt? before (type.text ++ ' ' :: (name.text ++ rest)) = none)
    (hname : typeHeaderAt? (some ' ') (name.text ++ rest) = none) :
    Unread (fun before text => typeHeaderAt? before text = none) before
      (type.text ++ ' ' :: name.text) rest := by
  refine (readsWords_typeHeaderAt.unread_type type (by simp) htype (by simp; decide)
    (by simp)).append ⟨readsWords_typeHeaderAt.mark (by decide), ?_⟩
  exact readsWords_typeHeaderAt.unread_name name hname

theorem unread_parameter (parameter : ParameterSource) {c : Char} (hc : c = ',' ∨ c = ')')
    (tail : Text) :
    Unread (fun before text => typeHeaderAt? before text = none) before parameter.text
      (c :: tail) := by
  have hmark : isWord c = false ∧ isBlank c = false := by rcases hc with rfl | rfl <;> decide
  apply unread_type_name
  · exact typeHeaderAt?_type parameter.type fun hword =>
    typeHeaderAt?_parameter hword parameter.name hc tail
  · exact typeHeaderAt?_unspaced (fun _ h => parameter.name.isWord_of_mem h) (by simpa using hmark)

theorem unread_parameterText (parameters : List ParameterSource) (tail : Text) :
    Unread (fun before text => typeHeaderAt? before text = none) before
      (parameterText parameters) (')' :: tail) := by
  induction parameters generalizing before with
  | nil => trivial
  | cons parameter parameters ih =>
    cases parameters with
    | nil => exact unread_parameter parameter (Or.inr rfl) tail
    | cons second parameters =>
      have htext : parameterText (parameter :: second :: parameters) =
          parameter.text ++ ',' :: ' ' :: parameterText (second :: parameters) := by
        simp [parameterText, joinWith]
      rw [htext]
      refine (unread_parameter parameter (Or.inl rfl) _).append ?_
      exact ⟨readsWords_typeHeaderAt.mark (by decide),
        readsWords_typeHeaderAt.mark (by decide), ih⟩

end

namespace MemberSource

variable (member : MemberSource)

theorem headerRow_eq : member.headerRow = "public".toList ++
    ' ' :: ((member.type.expr.text ++ ' ' :: member.name.text) ++ member.ending) := by
  have hpublic : publicModifier.1 = "public".toList := rfl
  simp only [headerRow, opening, memberLead, modifierText, flatMap_cons, flatMap_nil,
    append_nil, hpublic, append_assoc, cons_append, nil_append]

theorem quiet_ending : Quiet member.ending := by
  unfold ending
  split
  next _ parameters _ =>
    intro before rest
    refine ⟨readsWords_typeHeaderAt.mark (by decide), ?_⟩
    exact (unread_parameterText parameters rest).append
      (quiet_marks (forall_mem_of_any (by decide)) _ rest)
  next =>
    have hget : Quiet "get;".toList :=
      quiet_solid (c := ';') (by decide) (by decide) (forall_mem_of_any (by decide))
    have hset : Quiet "set;".toList :=
      quiet_solid (c := ';') (by decide) (by decide) (forall_mem_of_any (by decide))
    have hopen : Quiet " \x7b ".toList := quiet_marks (forall_mem_of_any (by decide))
    have hspace : Quiet " ".toList := quiet_marks (forall_mem_of_any (by decide))
    have hclose : Quiet " \x7d".toList := quiet_marks (forall_mem_of_any (by decide))
    exact (((hopen.append hget).append hspace).append hset).append hclose
  next => exact quiet_marks (forall_mem_of_any (by decide))

theorem typeHeaderAt?_name (before : Option Char) (rest : Text) :
    typeHeaderAt? before (member.name.text ++ (member.ending ++ rest)) = none := by
  have hword : ∀ c ∈ member.name.text, isWord c = true := fun _ h => member.name.isWord_of_mem h
  unfold ending
  split
  next => exact typeHeaderAt?_unspaced hword (by simp; decide)
  next =>
    have hbrace : ∀ c ∈ (trimLeft ("\x7b get; set; \x7d".toList ++ rest)).head?,
        isWord c = false := by
      simp [trimLeft, isBlank]
      decide
    exact typeHeaderAt?_lone hword hbrace
  next => exact typeHeaderAt?_unspaced hword (by simp; decide)

theorem typeHeaderAt?_typed (before : Option Char) (rest : Text) :
    typeHeaderAt? before (member.type.expr.text ++
      ' ' :: (member.name.text ++ (member.ending ++ rest))) = none := by
  apply typeHeaderAt?_type
  intro hword
  -- a single word in front of the name could only be a modifier of a header that follows
  apply typeHeaderAt?_before hword member.type.not_typeWord
  rw [trimLeft_name]
  exact member.typeHeaderAt?_name none rest

theorem typeHeaderAt?_headerRow (before : Option Char) (rest : Text) :
    typeHeaderAt? before (member.headerRow ++ rest) = none := by
  have htrim : trimLeft (member.type.expr.text ++
      ' ' :: (member.name.text ++ (member.ending ++ rest))) = member.type.expr.text ++
        ' ' :: (member.name.text ++ (member.ending ++ rest)) := by
    obtain ⟨c, hhead, hc⟩ := member.type.expr.tidy_text.exists_head
    obtain ⟨tail, htail⟩ := head?_eq_some_iff.mp hhead
    rw [htail, cons_append, trimLeft_cons_of_not_blank hc]
  rw [headerRow_eq]
  simp only [append_assoc, cons_append]
  apply typeHeaderAt?_before (all_eq_true.mp (by decide)) (by decide)
  rw [htrim]
  exact member.typeHeaderAt?_typed none rest

theorem quiet_headerRow : Quiet member.headerRow := by
  intro before rest
  have hfirst := member.typeHeaderAt?_headerRow before rest
  rw [headerRow_eq] at hfirst ⊢
  simp only [append_assoc, cons_append] at hfirst
  refine (readsWords_typeHeaderAt.unread_word (all_eq_true.mp (by decide)) ?_).append
    ⟨readsWords_typeHeaderAt.mark (by decide), ?_⟩
  · simpa only [append_assoc, cons_append] using hfirst
  · refine (unread_type_name member.type.expr member.name (member.typeHeaderAt?_typed _ rest)
      (member.typeHeaderAt?_name _ rest)).append (member.quiet_ending _ rest)

end MemberSource

theorem isBlank_eq_false_of_isTemplateChar {c : Char} (h : isTemplateChar c = true) :
    isBlank c = false := by
  simp only [isTemplateChar, Bool.or_eq_true] at h
  rcases h with h | h
  · exact isBlank_eq_false_of_isWord (by simp [isWord, h])
  · have hmem : c ∈ "/-\x7b\x7d".toList := contains_iff_mem.mp h
    exact forall_mem_of_any (by decide) c hmem

theorem VerbMarker.isBlank_eq_false_of_mem (mark : VerbMarker) :
    ∀ c ∈ mark.text, isBlank c = false := by
  intro c hc
  simp only [text, inner, argument, mem_cons, mem_append, not_mem_nil,
    or_false] at hc
  rcases hc with rfl | (hc | rfl | (rfl | hc | rfl) | rfl) | rfl
  · decide
  · exact isBlank_eq_false_of_isWord (mark.verb.isWord_of_mem_name c hc)
  · decide
  · decide
  · exact isBlank_eq_false_of_isTemplateChar (mark.template.isTemplateChar_of_mem hc)
  · decide
  · decide
  · decide

theorem VerbMarker.getLast?_text (mark : VerbMarker) : mark.text.getLast? = some ']' := by
  simp [text, getLast?_cons]

theorem VerbMarker.quiet_text (mark : VerbMarker) : Quiet mark.text :=
  quiet_solid mark.getLast?_text (by decide) mark.isBlank_eq_false_of_mem

theorem Digits.isWord_of_mem (value : Digits) : ∀ c ∈ value.text, isWord c = true :=
  fun c hc => isWord_of_isDecimalDigit (all_eq_true.mp value.digits c hc)

theorem ConstantSource.quiet_row (constant : ConstantSource) : Quiet constant.row := by
  have hname : ∀ c ∈ constant.name.text, isWord c = true :=
    fun _ h => constant.name.isWord_of_mem h
  have hcomma : ∀ {word : Text}, (∀ c ∈ word, isWord c = true) → Quiet (word ++ [',']) := by
    intro word hword
    refine quiet_solid (c := ',') (by simp) (by decide) ?_
    intro c hc
    rcases mem_append.mp hc with hc | hc
    · exact isBlank_eq_false_of_isWord (hword c hc)
    · obtain rfl := mem_singleton.mp hc
      decide
  unfold row text
  split
  next value _ =>
    intro before rest
    rw [append_assoc, append_assoc]
    refine (readsWords_typeHeaderAt.unread_word hname ?_).append ?_
    · have hsign : ∀ c ∈ (trimLeft ('=' :: ' ' :: (value.text ++ [','] ++ rest))).head?,
          isWord c = false := by
        rw [trimLeft_cons_of_not_blank (by decide)]
        simp
        decide
      exact typeHeaderAt?_lone hname hsign
    · exact ((quiet_marks (forall_mem_of_any (by decide))).append (hcomma value.isWord_of_mem)) _ rest
  next => exact hcomma hname

/-! ## Lines of code -/

/-- Whether the character may stand in the line of a member or a constant. -/
def isRowChar (c : Char) : Bool :=
  TypeSyntax.isTypeChar c || "()\x7b\x7d;=".toList.contains c

theorem isRowChar_of_isTypeChar {c : Char} (h : TypeSyntax.isTypeChar c = true) :
    isRowChar c = true := by
  simp [isRowChar, h]

theorem isCodeLine_of_kind {row : Text} {c d : Char} (hfirst : row.head? = some c)
    (hc : isWord c = true) (hlast : row.getLast? = some d) (hd : isBlank d = false)
    (hrow : ∀ c ∈ row, isRowChar c = true) : IsCodeLine row where
  first := by
    refine ⟨c, hfirst, isBlank_eq_false_of_isWord hc, ?_⟩
    intro hmem
    have hmark : isWord c = false := forall_mem_of_any (by decide) c hmem
    rw [hmark] at hc
    cases hc
  last := ⟨d, hlast, hd⟩
  spaced := by
    intro e he hblank
    have hchar := hrow e he
    simp only [isRowChar, Bool.or_eq_true] at hchar
    rcases hchar with htype | hmark
    · exact TypeSyntax.eq_space_of_isTypeChar htype hblank
    · have hsolid : isBlank e = false :=
        forall_mem_of_any (by decide) e (contains_iff_mem.mp hmark)
      rw [hsolid] at hblank
      cases hblank
  uncommented := by
    have hplain : ∀ e ∈ row, isQuote e = false ∧ e ≠ '/' := by
      intro e he
      refine ⟨?_, ne_of_kind (hrow e he) (by decide)⟩
      simp [isQuote, ne_of_kind (hrow e he) (by decide : isRowChar '\x22' = false),
        ne_of_kind (hrow e he) (by decide : isRowChar '\x27' = false),
        ne_of_kind (hrow e he) (by decide : isRowChar '\x60' = false)]
    exact codeFront_of_plain hplain

namespace MemberSource

variable (member : MemberSource)

theorem isRowChar_of_mem_headerRow : ∀ c ∈ member.headerRow, isRowChar c = true := by
  intro c hc
  rcases mem_append.mp hc with hc | hc
  · exact isRowChar_of_isTypeChar (member.isTypeChar_of_mem_opening hc)
  · unfold ending at hc
    split at hc
    next _ parameters _ =>
      simp only [mem_cons, mem_append, not_mem_nil, or_false] at hc
      rcases hc with rfl | hc | rfl
      · decide
      · exact isRowChar_of_isTypeChar (isTypeChar_of_mem_parameterText hc)
      · decide
    next => exact all_eq_true.mp (by decide) c hc
    next => exact all_eq_true.mp (by decide) c hc

theorem isCodeLine_headerRow : IsCodeLine member.headerRow := by
  have hlast : ∃ c, member.headerRow.getLast? = some c ∧ isBlank c = false := by
    have hending : ∃ front c, member.ending = front ++ [c] ∧ isBlank c = false := by
      unfold ending
      split
      next _ parameters _ => exact ⟨'(' :: parameterText parameters, ')', by simp, by decide⟩
      next => exact ⟨" \x7b get; set; ".toList, '}', by decide, by decide⟩
      next => exact ⟨[], ';', rfl, by decide⟩
    obtain ⟨front, c, hending, hc⟩ := hending
    refine ⟨c, ?_, hc⟩
    rw [headerRow, hending, ← append_assoc, getLast?_concat]
  obtain ⟨d, hd, hblank⟩ := hlast
  have hfirst : member.headerRow.head? = some 'p' := by
    rw [headerRow_eq]
    rfl
  exact isCodeLine_of_kind hfirst (by decide) hd hblank member.isRowChar_of_mem_headerRow

end MemberSource

theorem VerbMarker.isCodeLine_text (mark : VerbMarker) : IsCodeLine mark.text where
  first := ⟨'[', rfl, by decide, by decide⟩
  last := ⟨']', mark.getLast?_text, by decide⟩
  spaced := by
    intro c hc hblank
    rw [mark.isBlank_eq_false_of_mem c hc] at hblank
    cases hblank
  uncommented := by
    have hlead : ∀ c ∈ '[' :: (mark.verb.name ++ ['(']), isQuote c = false ∧ c ≠ '/' := by
      intro c hc
      simp only [mem_cons, mem_append, not_mem_nil, or_false] at hc
      rcases hc with rfl | hc | rfl
      · decide
      · have hword := mark.verb.isWord_of_mem_name c hc
        exact ⟨(isInert_iff.mp (isInert_of_isWord hword)).1, ne_of_kind hword (by decide)⟩
      · decide
    have htext : mark.text = '[' :: (mark.verb.name ++ ['(']) ++
        '\x22' :: (mark.template.text ++ '\x22' :: ")]".toList) := by
      simp [text, inner, argument]
    have hend : codeFront none ")]".toList = none := by decide
    rw [htext, codeFront_append_plain hlead,
      codeFront_quoted (by decide) mark.not_quote_of_mem_template, hend]
    rfl

theorem ConstantSource.isWord_or_of_mem_text (constant : ConstantSource) :
    ∀ c ∈ constant.text, isWord c = true ∨ c ∈ " =".toList := by
  have hname : ∀ c ∈ constant.name.text, isWord c = true :=
    fun _ h => constant.name.isWord_of_mem h
  intro c hc
  unfold text at hc
  split at hc
  next value _ =>
    simp only [mem_append] at hc
    rcases hc with (hc | hc) | hc
    · exact Or.inl (hname c hc)
    · have hsign : " = ".toList.all (" =".toList.contains ·) = true := by decide
      exact Or.inr (contains_iff_mem.mp (all_eq_true.mp hsign c hc))
    · exact Or.inl (value.isWord_of_mem c hc)
  next => exact Or.inl (hname c hc)

theorem ConstantSource.exists_head?_row (constant : ConstantSource) :
    ∃ c, constant.row.head? = some c ∧ isWord c = true := by
  obtain ⟨c, tail, hname, hc⟩ := constant.name.exists_cons
  refine ⟨c, ?_, isWord_of_isNameStart hc⟩
  unfold row text
  split <;> simp [hname]

theorem ConstantSource.isCodeLine_row (constant : ConstantSource) : IsCodeLine constant.row := by
  obtain ⟨c, hfirst, hc⟩ := constant.exists_head?_row
  refine isCodeLine_of_kind hfirst hc (d := ',') (by simp [row]) (by decide) ?_
  intro c hc
  rcases mem_append.mp hc with hc | hc
  · rcases constant.isWord_or_of_mem_text c hc with hword | hmark
    · exact isRowChar_of_isTypeChar (TypeSyntax.isTypeChar_of_isWord hword)
    · exact all_eq_true.mp (by decide) c hmark
  · exact all_eq_true.mp (by decide) c hc

/-! ## Braces -/

theorem MemberSource.openAfter_headerRow (member : MemberSource) (depth : Nat) :
    openAfter depth member.headerRow = some depth := by
  have hplain : ∀ {text : Text}, (∀ c ∈ text, TypeSyntax.isTypeChar c = true) →
      ∀ c ∈ text, c ≠ '{' ∧ c ≠ '}' := fun h c hc =>
    ⟨ne_of_kind (h c hc) (by decide), ne_of_kind (h c hc) (by decide)⟩
  have hopening : openAfter depth member.opening = some depth :=
    openAfter_of_plain (hplain fun c hc => member.isTypeChar_of_mem_opening hc) depth
  have hending : openAfter depth member.ending = some depth := by
    unfold ending
    split
    next _ parameters _ =>
      apply openAfter_of_plain
      intro c hc
      simp only [mem_cons, mem_append, not_mem_nil, or_false] at hc
      rcases hc with rfl | hc | rfl
      · decide
      · exact hplain (fun c hc => isTypeChar_of_mem_parameterText hc) c hc
      · decide
    next => rfl
    next => rfl
  rw [headerRow, openAfter_append, hopening, Option.bind_some, hending]

theorem VerbMarker.openAfter_text (mark : VerbMarker) : openAfter 0 mark.text = some 0 := by
  have hname : openAfter 0 mark.verb.name = some 0 := by
    apply openAfter_of_plain
    intro c hc
    have hword := mark.verb.isWord_of_mem_name c hc
    exact ⟨ne_of_kind hword (by decide), ne_of_kind hword (by decide)⟩
  simp [text, inner, argument, openAfter, openAfter_append, mark.template.paired, hname]

theorem ConstantSource.openAfter_row (constant : ConstantSource) (depth : Nat) :
    openAfter depth constant.row = some depth := by
  apply openAfter_of_plain
  intro c hc
  rcases mem_append.mp hc with hc | hc
  · rcases constant.isWord_or_of_mem_text c hc with hword | hmark
    · exact ⟨ne_of_kind hword (by decide), ne_of_kind hword (by decide)⟩
    · have hnone : " =".toList.all (fun c => c ≠ '{' && c ≠ '}') = true := by decide
      simpa using all_eq_true.mp hnone c hmark
  · obtain rfl := mem_singleton.mp hc
    decide

/-! ## All lines of a body -/

/-- A line of a body. -/
structure IsRow (row : Text) : Prop where
  isCodeLine : IsCodeLine row
  quiet : Quiet row

theorem isRow_brace {c : Char} (hc : c = '{' ∨ c = '}') : IsRow [c] := by
  rcases hc with rfl | rfl <;>
    exact ⟨⟨⟨_, rfl, by decide, by decide⟩, ⟨_, rfl, by decide⟩, by simp [isBlank], by decide⟩,
      quiet_marks (forall_mem_of_any (by decide))⟩

theorem MemberSource.isRow (member : MemberSource) : ∀ row ∈ member.rows, IsRow row := by
  intro row hrow
  rcases mem_append.mp hrow with hmark | hrow
  · obtain ⟨mark, -, rfl⟩ : ∃ mark, member.mark? = some mark ∧ mark.text = row := by
      simpa [markRows] using hmark
    exact ⟨mark.isCodeLine_text, mark.quiet_text⟩
  · rcases mem_cons.mp hrow with rfl | hblock
    · exact ⟨member.isCodeLine_headerRow, member.quiet_headerRow⟩
    · unfold blockRows at hblock
      split at hblock
      · simp only [mem_cons, not_mem_nil, or_false] at hblock
        rcases hblock with rfl | rfl
        · exact isRow_brace (Or.inl rfl)
        · exact isRow_brace (Or.inr rfl)
      · cases hblock

theorem TypeSource.isRow (type : TypeSource) : ∀ row ∈ type.rows, IsRow row := by
  intro row hrow
  rcases mem_append.mp hrow with hrow | hrow
  · obtain ⟨member, -, hmem⟩ := mem_flatMap.mp hrow
    exact member.isRow row hmem
  · obtain ⟨constant, -, rfl⟩ := mem_map.mp hrow
    exact ⟨constant.isCodeLine_row, constant.quiet_row⟩

theorem quiet_joinLines (indent : Nat) {rows : List Text} (h : ∀ row ∈ rows, IsRow row) :
    Quiet (joinLines (indentRows indent rows)) := by
  induction rows with
  | nil => exact fun _ _ => trivial
  | cons row rows ih =>
    have hlead : Quiet (replicate indent ' ') := by
      apply quiet_marks
      intro c hc
      rw [eq_of_mem_replicate hc]
      decide
    have hbreak : Quiet ['\n'] := quiet_marks (forall_mem_of_any (by decide))
    have hrow := (hlead.append (h row (by simp)).quiet).append hbreak
    exact hrow.append (ih fun other hother => h other (by simp [hother]))

theorem openAfter_joinLines (indent depth : Nat) (rows : List Text) :
    openAfter depth (joinLines (indentRows indent rows)) = rows.foldlM openAfter depth := by
  induction rows generalizing depth with
  | nil => rfl
  | cons row rows ih =>
    have hlead : ∀ depth, openAfter depth (replicate indent ' ') = some depth := by
      intro depth
      apply openAfter_of_plain
      intro c hc
      rw [eq_of_mem_replicate hc]
      decide
    have htext : joinLines (indentRows indent (row :: rows)) =
        replicate indent ' ' ++ (row ++ '\n' :: joinLines (indentRows indent rows)) := by
      simp [joinLines, indentRows]
    rw [htext, openAfter_append, hlead, Option.bind_some, openAfter_append, foldlM_cons]
    cases openAfter depth row with
    | none => rfl
    | some depth => simp [openAfter, ih]

theorem MemberSource.foldlM_openAfter_rows (member : MemberSource) :
    member.rows.foldlM openAfter 0 = some 0 := by
  have hmark : (markRows member.mark?).foldlM openAfter 0 = some 0 := by
    cases member.mark? with
    | none => rfl
    | some mark => simp [markRows, mark.openAfter_text]
  have hblock : member.blockRows.foldlM openAfter 0 = some 0 := by
    unfold blockRows
    split
    · simp [openAfter]
    · rfl
  rw [rows, foldlM_append, hmark]
  simp [member.openAfter_headerRow 0, hblock]

theorem TypeSource.openAfter_rows (type : TypeSource) (indent : Nat) :
    openAfter 0 (joinLines (indentRows indent type.rows)) = some 0 := by
  have hmembers : ∀ members : List MemberSource,
      (members.flatMap (·.rows)).foldlM openAfter 0 = some 0 := by
    intro members
    induction members with
    | nil => rfl
    | cons member members ih =>
      rw [flatMap_cons, foldlM_append, member.foldlM_openAfter_rows]
      exact ih
  have hconstants : ∀ constants : List ConstantSource,
      (constants.map (·.row)).foldlM openAfter 0 = some 0 := by
    intro constants
    induction constants with
    | nil => rfl
    | cons constant constants ih =>
      rw [map_cons, foldlM_cons, constant.openAfter_row 0]
      exact ih
  rw [openAfter_joinLines, TypeSource.rows, foldlM_append, hmembers]
  exact hconstants type.constants

end SourceAtlas.CSharp
