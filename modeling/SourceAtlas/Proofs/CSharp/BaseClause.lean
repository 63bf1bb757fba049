import SourceAtlas.Proofs.Balanced
import SourceAtlas.Proofs.CSharp.TypeHeader

/-!
# Base clauses

A base clause ends at the end of the line, before the body or before a constraint. A list of base
types without the word `where` is therefore read whole, and it comes apart again at its commas.
-/

namespace SourceAtlas.CSharp

open List

variable {rest : Text} {before : Option Char} {bases : List BaseType}

/-! ## The end of the clause -/

def NoConstraint (before : Option Char) (text : Text) : Prop :=
  before.any isWord = true ∨ standsWord "where".toList text = false

theorem standsWord_word {word : Text} (hword : ∀ c ∈ word, isWord c = true)
    (hne : word ≠ "where".toList) (hrest : ∀ c ∈ rest.head?, isWord c = false) :
    standsWord "where".toList (word ++ rest) = false := by
  unfold standsWord
  split
  next c tail hdrop =>
    have happend := dropHead?_eq_some_iff.mp hdrop
    rcases eq_or_isWord_of_append_eq hword hrest (all_eq_true.mp (by decide)) happend with
      ⟨rfl, -⟩ | ⟨d, tail', hcons, hd⟩
    · exact absurd rfl hne
    · obtain ⟨rfl, -⟩ := cons.inj hcons
      simp [hd]
  next hdrop =>
    have happend := dropHead?_eq_some_iff.mp hdrop
    rcases eq_or_isWord_of_append_eq hword hrest (all_eq_true.mp (by decide)) happend with
      ⟨rfl, -⟩ | ⟨d, tail', hcons, -⟩
    · exact absurd rfl hne
    · cases hcons
  next => rfl

theorem readsWords_noConstraint :
    ReadsWords (fun name => name.text ≠ "where".toList) NoConstraint := by
  refine ⟨?_, ?_, ?_, ?_⟩
  · intro before c rest hc
    have hhead : ∀ d ∈ (c :: rest).head?, isWord d = false := by simpa using hc
    have hnone : standsWord "where".toList ([] ++ c :: rest) = false :=
      standsWord_word (by simp) (by decide) hhead
    exact Or.inr hnone
  · intro c text hc
    exact Or.inl (by simpa using hc)
  · rintro before rest name hname ⟨c, tail, rfl, hc, -⟩
    exact Or.inr (standsWord_word (fun _ h => name.isWord_of_mem h) hname (by simpa using hc))
  · intro rest name hname hrest
    exact Or.inr (standsWord_word (fun _ h => name.isWord_of_mem h) hname hrest)

theorem closesHeader_eq_false {last : Char} {inner : Text}
    (hinner : ∀ c ∈ inner, TypeSyntax.isTypeChar c = true) (hsolid : ∃ c ∈ inner, isBlank c = false)
    (hunread : Unread NoConstraint (some last) inner rest) :
    closesHeader last (inner ++ rest) = false := by
  obtain ⟨gap, c, more, rfl, hgap, hc⟩ := exists_blanks_append hsolid
  have hspaces : ∀ d ∈ gap, d = ' ' := fun d hd =>
    TypeSyntax.eq_space_of_isTypeChar (hinner d (by simp [hd])) (hgap d hd)
  have hcons : gap ++ c :: more ++ rest = gap ++ c :: (more ++ rest) := by simp
  have htake : (gap ++ c :: (more ++ rest)).takeWhile isBlank = gap :=
    takeWhile_append_of_stop hgap (by simpa using hc)
  have htrim : trimLeft (gap ++ c :: (more ++ rest)) = c :: (more ++ rest) := by
    rw [trimLeft_append_of_blanks hgap, trimLeft_cons_of_not_blank hc]
  have hbreak : gap.contains '\n' = false := by
    rw [contains_eq_mem, decide_eq_false_iff_not]
    intro hmem
    exact absurd (hspaces _ hmem) (by decide)
  have hchar := hinner c (by simp)
  -- a constraint would have to start right here, behind the gap
  have hplace : NoConstraint (lastBefore (some last) gap) (c :: (more ++ rest)) :=
    hunread.right.1
  have hnone : (standsWord "where".toList (c :: (more ++ rest)) &&
      (!gap.isEmpty || !isWord last)) = false := by
    rcases hplace with hword | hstands
    · rcases eq_nil_or_concat gap with rfl | ⟨front, d, rfl⟩
      · have hlast : isWord last = true := hword
        simp [hlast]
      · have hd := hspaces d (by simp)
        subst hd
        simp [lastBefore] at hword
        exact absurd hword (by decide)
    · rw [hstands, Bool.false_and]
  unfold closesHeader
  simp only [hcons, htake, hbreak, htrim, Bool.false_or]
  split
  next heq => cases heq
  next heq => exact absurd (cons.inj heq).1 (ne_of_kind hchar (by decide))
  next heq => exact absurd (cons.inj heq).1 (ne_of_kind hchar (by decide))
  next => exact hnone

/-- A base clause reaches to the first place after which the header may end. -/
theorem clauseUpTo_closesHeader {front : Text} {c : Char} (hlast : front.getLast? = some c)
    (hc : isBlank c = false) (hfront : ∀ c ∈ front, TypeSyntax.isTypeChar c = true)
    (hunread : Unread NoConstraint before front rest)
    (hcloses : ∀ last, closesHeader last rest = true) :
    clauseUpTo closesHeader (front ++ rest) = (front, rest) := by
  induction front generalizing before with
  | nil => cases hlast
  | cons d front ih =>
    cases front with
    | nil => simp [clauseUpTo, hcloses]
    | cons e front =>
      have hlast' : (e :: front).getLast? = some c := by simpa using hlast
      -- the last character of the clause is still to come, so the header goes on here
      have hopen : closesHeader d (e :: front ++ rest) = false :=
        closesHeader_eq_false (fun a ha => hfront a (mem_cons_of_mem d ha))
          ⟨c, mem_of_getLast? hlast', hc⟩ hunread.2
      have htail := ih hlast' (fun a ha => hfront a (mem_cons_of_mem d ha)) hunread.2
      rw [cons_append, clauseUpTo, hopen, htail]
      simp

/-! ## A list of base types -/

theorem baseList_cons_cons (base second : BaseType) (bases : List BaseType) :
    baseList (base :: second :: bases) =
      base.expr.text ++ ',' :: ' ' :: baseList (second :: bases) := by
  simp [baseList, joinWith]

theorem isTypeChar_of_mem_baseList (bases : List BaseType) :
    ∀ c ∈ baseList bases, TypeSyntax.isTypeChar c = true := by
  apply forall_mem_joinWith (all_eq_true.mp (by decide))
  intro text htext
  obtain ⟨base, -, rfl⟩ := mem_map.mp htext
  exact fun c hc => base.expr.isTypeChar_of_mem_text hc

theorem tidy_baseList (hne : bases ≠ []) : Tidy (baseList bases) := by
  induction bases with
  | nil => exact absurd rfl hne
  | cons base bases ih =>
    cases bases with
    | nil => exact base.expr.tidy_text
    | cons second bases =>
      have hcomma : Tidy [','] := .word (by simp) (by simp; decide)
      have htext := (base.expr.tidy_text.append hcomma).append_space (ih (by simp))
      rw [baseList_cons_cons]
      simpa using htext

/-- A type expression that does not start with the word `where` starts no constraint. -/
theorem noConstraint_type (base : BaseType) (hrest : ∀ c ∈ rest.head?, isWord c = false) :
    NoConstraint before (base.expr.text ++ rest) := by
  obtain ⟨name, hname, others, htext, hothers⟩ := base.expr.exists_name_append
  rw [htext, append_assoc]
  refine Or.inr (standsWord_word (fun _ hc => name.isWord_of_mem hc) (base.not_where name hname) ?_)
  rcases hothers with rfl | ⟨c, others, rfl, hc⟩
  · exact hrest
  · simpa using TypeSyntax.isWord_eq_false_of_mem_marks hc

theorem unread_baseList (bases : List BaseType) (before : Option Char)
    (hrest : ∀ c ∈ rest.head?, isWord c = false) :
    Unread NoConstraint before (baseList bases) rest := by
  have single : ∀ (base : BaseType) (before : Option Char) {rest : Text},
      (∀ c ∈ rest.head?, isWord c = false) → Unread NoConstraint before base.expr.text rest :=
    fun base before rest hrest => readsWords_noConstraint.unread_type base.expr base.not_where
      (noConstraint_type base hrest) hrest (by simp)
  induction bases generalizing before with
  | nil => trivial
  | cons base bases ih =>
    cases bases with
    | nil => exact single base before hrest
    | cons second bases =>
      rw [baseList_cons_cons]
      refine (single base before (by simp; decide)).append ?_
      exact ⟨readsWords_noConstraint.mark (by decide), readsWords_noConstraint.mark (by decide),
        ih _⟩

theorem splitTypeList_baseList (hne : bases ≠ []) :
    splitTypeList (baseList bases) = bases.map (·.expr.text) := by
  have hpiece : ∀ base : BaseType, IsPiece ',' base.expr.text := by
    intro base
    have hsegments := base.expr.segmentsFrom_text [] [] (by simp)
    simpa [IsPiece, segmentsFrom, Segments.prepend] using hsegments
  have hsolid : ∀ base : BaseType, isBlankText base.expr.text = false := fun base =>
    base.expr.tidy_text.isBlankText_eq_false
  have hsqueeze : ∀ base : BaseType, squeeze base.expr.text = base.expr.text := fun base =>
    base.expr.tidy_text.squeeze
  have hparts : splitCommas (trim (baseList bases)) = some (bases.map (·.expr.text)) := by
    rw [(tidy_baseList hne).trim]
    exact splitCommas_joinWith_map hpiece hsolid (fun base => base.expr.tidy_text.trim) hne
  rw [splitTypeList, hparts]
  simp [hsolid, hsqueeze, filter_map, Function.comp_def]

/-! ## The header of a written type -/

theorem closesHeader_gap (layout : Layout) (last : Char) (rest : Text) :
    closesHeader last (layout.gap :: '{' :: rest) = true := by
  unfold Layout.gap
  split
  · simp [closesHeader, isBlank]
  · simp [closesHeader, trimLeft, isBlank]

theorem isBlank_gap (layout : Layout) : isBlank layout.gap = true := by
  unfold Layout.gap
  split <;> decide

theorem trimLeft_gap (layout : Layout) (rest : Text) :
    trimLeft (layout.gap :: '{' :: rest) = '{' :: rest := by
  rw [trimLeft_cons_of_blank (isBlank_gap layout), trimLeft_cons_of_not_blank (by decide)]

theorem basesAt?_baseList (hne : bases ≠ []) (layout : Layout) (rest : Text) :
    basesAt? (" : ".toList ++ baseList bases ++ layout.gap :: '{' :: rest) =
      some (baseList bases, layout.gap :: '{' :: rest) := by
  obtain ⟨c, hhead, hc⟩ := (tidy_baseList hne).exists_head
  obtain ⟨d, hlast, hd⟩ := (tidy_baseList hne).exists_last
  obtain ⟨tail, htail⟩ := head?_eq_some_iff.mp hhead
  have hchar : TypeSyntax.isTypeChar c = true :=
    isTypeChar_of_mem_baseList bases c (by simp [htail])
  have hcolon : trimLeft (" : ".toList ++ baseList bases ++ layout.gap :: '{' :: rest) =
      ':' :: ' ' :: (baseList bases ++ layout.gap :: '{' :: rest) := by
    have htext : " : ".toList ++ baseList bases ++ layout.gap :: '{' :: rest =
        ' ' :: ':' :: ' ' :: (baseList bases ++ layout.gap :: '{' :: rest) := by simp
    rw [htext, trimLeft_cons_of_blank (by decide), trimLeft_cons_of_not_blank (by decide)]
  have hstart : trimLeft (' ' :: (baseList bases ++ layout.gap :: '{' :: rest)) =
      baseList bases ++ layout.gap :: '{' :: rest := by
    rw [trimLeft_cons_of_blank (by decide), htail, cons_append, trimLeft_cons_of_not_blank hc]
  have hfirst : (baseList bases ++ layout.gap :: '{' :: rest).head? = some c := by
    rw [htail, cons_append, head?_cons]
  have hempty : (baseList bases ++ layout.gap :: '{' :: rest).isEmpty = false := by simp [htail]
  have hbrace : c ≠ '{' := ne_of_kind hchar (by decide)
  have hsemicolon : c ≠ ';' := ne_of_kind hchar (by decide)
  have hgap : isWord layout.gap = false := isWord_eq_false_of_isBlank (isBlank_gap layout)
  have hunread : Unread NoConstraint none (baseList bases) (layout.gap :: '{' :: rest) :=
    unread_baseList bases none (by simpa using hgap)
  have hclause := clauseUpTo_closesHeader hlast hd (isTypeChar_of_mem_baseList bases) hunread
    fun last => closesHeader_gap layout last rest
  rw [basesAt?, hcolon]
  simp only [hstart, hfirst, hempty, hclause]
  simp [hbrace, hsemicolon]

theorem clausesAt?_clauseText (bases : List BaseType) (layout : Layout) (last : Char)
    (rest : Text) :
    clausesAt? last (clauseText bases ++ layout.gap :: '{' :: rest) =
      some (if bases.isEmpty then none else some (baseList bases), layout.gap :: '{' :: rest) := by
  cases bases with
  | nil =>
    have hnone : basesAt? (layout.gap :: '{' :: rest) = none := by simp [basesAt?, trimLeft_gap]
    simp [clauseText, clausesAt?, hnone, closesHeader_gap]
  | cons base bases =>
    have hbases := basesAt?_baseList (cons_ne_nil base bases) layout rest
    simp only [clauseText, clausesAt?, isEmpty_cons, Bool.false_eq_true, if_false, hbases]

theorem head_clauseText (bases : List BaseType) (layout : Layout) (rest : Text) :
    (∀ c ∈ (clauseText bases ++ layout.gap :: '{' :: rest).head?, isWord c = false) ∧
      ∀ c ∈ (trimLeft (clauseText bases ++ layout.gap :: '{' :: rest)).head?,
        isWord c = false ∧ c ≠ '<' ∧ c ≠ '(' := by
  cases bases with
  | nil =>
    have hword := isWord_eq_false_of_isBlank (isBlank_gap layout)
    constructor
    · simpa [clauseText] using hword
    · simp [clauseText, trimLeft_gap]
      decide
  | cons base bases =>
    simp [clauseText, trimLeft, isBlank]
    decide

def TypeSource.readHeader (type : TypeSource) (rest : Text) : TypeHeader where
  keyword := type.keyword
  kind := type.kind
  name := type.name.text
  bases := if type.bases.isEmpty then none else some (baseList type.bases)
  interfaces := none
  rest := rest

theorem mem_typeKeywords (type : TypeSource) : (type.keyword, type.kind) ∈ typeKeywords := by
  unfold TypeSource.keyword TypeSource.kind
  cases type.content <;> dsimp only <;> decide

theorem keywordAt?_keyword (type : TypeSource) (tail : Text) :
    keywordAt? typeKeywords (type.keyword ++ ' ' :: tail) =
      some (type.keyword, type.kind, trimLeft tail) := by
  have hmem := mem_typeKeywords type
  have hunique : ∀ first ∈ typeKeywords, ∀ second ∈ typeKeywords,
      first.1 = second.1 → first = second := by decide
  have hwords : ∀ keyword ∈ typeKeywords, ∀ choice ∈ [keyword.1], ∀ c ∈ choice,
      isWord c = true := by
    intro keyword hkeyword choice hchoice
    rw [mem_singleton.mp hchoice]
    exact isWord_of_mem_typeWords (mem_map.mpr ⟨keyword, hkeyword, rfl⟩)
  have hdrop : dropWord? [type.keyword] (type.keyword ++ ' ' :: tail) = some (trimLeft tail) :=
    dropWord?_of_mem (hwords _ hmem) (by simp) tail
  cases hfound : keywordAt? typeKeywords (type.keyword ++ ' ' :: tail) with
  | none =>
    have hnone := findSome?_eq_none_iff.mp hfound _ hmem
    simp [hdrop] at hnone
  | some found =>
    obtain ⟨keyword, kind, after⟩ := found
    obtain ⟨hkeyword, hafter⟩ := keywordAt?_eq_some hfound
    have hsame := (dropWord?_word (hwords _ hkeyword)
      (hwords _ hmem type.keyword (by simp)) (by simp; decide) hafter).1
    have hpair := hunique _ hmem _ hkeyword (mem_singleton.mp hsame)
    simp only [Prod.mk.injEq] at hpair
    obtain ⟨rfl, rfl⟩ := hpair
    rw [hdrop] at hafter
    rw [Option.some.inj hafter]

theorem skipModifiers_header (type : TypeSource) (tail : Text) :
    skipModifiers typeModifiers ("public ".toList ++ type.keyword ++ ' ' :: tail) =
      type.keyword ++ ' ' :: tail := by
  have hmem : type.keyword ∈ typeWords := mem_map.mpr ⟨_, mem_typeKeywords type, rfl⟩
  have hapart : ∀ word ∈ typeWords, word ≠ [] ∧ word ∉ typeModifiers := by decide
  have hwords := isWord_of_mem_typeWords hmem
  have htrim := trimLeft_word (hapart _ hmem).1 hwords (' ' :: tail)
  have hpublic : "public ".toList ++ type.keyword ++ ' ' :: tail =
      "public".toList ++ ' ' :: (type.keyword ++ ' ' :: tail) := by simp
  have hdrop := dropWord?_of_mem (fun _ => isWord_of_mem_typeModifiers)
    (by decide : "public".toList ∈ typeModifiers) (type.keyword ++ ' ' :: tail)
  rw [htrim] at hdrop
  have hstop := dropWord?_of_not_mem (fun _ => isWord_of_mem_typeModifiers) hwords (hapart _ hmem).2 tail
  rw [hpublic, skipModifiers, hdrop]
  simp only [if_pos (length_lt_of_dropWord? hdrop)]
  rw [skipModifiers, hstop]

theorem TypeSource.typeHeaderAt?_header (type : TypeSource) (layout : Layout)
    (hbefore : ∀ c ∈ before, isDottedWord c = false) (rest : Text) :
    typeHeaderAt? before (type.header ++ layout.gap :: '{' :: rest) =
      some (type.readHeader (layout.gap :: '{' :: rest)) := by
  have hall : before.all (fun c => !isDottedWord c) = true := by
    cases before with
    | none => rfl
    | some c => simp [hbefore c rfl]
  have hname : trimLeft (type.name.text ++ clauseText type.bases ++ layout.gap :: '{' :: rest) =
      type.name.text ++ (clauseText type.bases ++ layout.gap :: '{' :: rest) := by
    rw [append_assoc, trimLeft_name]
  obtain ⟨hhead, hstart⟩ := head_clauseText type.bases layout rest
  obtain ⟨last, hnamed⟩ := namedHeader?_name type.name hhead fun c hc => (hstart c hc).2
  have hstarts := findSome?_nameStarts type.name hhead fun c hc => (hstart c hc).1
  rw [hnamed, clausesAt?_clauseText] at hstarts
  have htext : type.header ++ layout.gap :: '{' :: rest = "public ".toList ++ type.keyword ++
      ' ' :: (type.name.text ++ clauseText type.bases ++ layout.gap :: '{' :: rest) := by
    unfold TypeSource.header
    simp only [append_assoc, cons_append]
  unfold typeHeaderAt?
  rw [if_pos hall, htext, skipModifiers_header, keywordAt?_keyword, hname]
  simp only [bind, Option.bind]
  rw [show (dropWord? ["class".toList, "struct".toList] _).toList ++ [_] = nameStarts _ from rfl,
    hstarts]
  rfl

end SourceAtlas.CSharp
