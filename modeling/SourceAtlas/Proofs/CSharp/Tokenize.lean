import SourceAtlas.Header.CSharp
import SourceAtlas.Proofs.CSharp.WordReader

/-!
# Tokens of C# member headers

A header has modifiers, a type and a name in front of what ends it. No indexer or operator is seen
there, and the search for a name passes over modifiers and type unless angle brackets let an earlier
identifier pass for the name.
-/

namespace SourceAtlas.CSharp

open List Option

variable {c : Char} {front text after marks rest : Text} {modifiers : List Modifier} {index : Nat}
  {named : Named} {terminator : Terminator} {kind : Char → Bool}

/-! ## Splitting off a value -/

/-- Whether a character neither assigns nor opens a quoted part. -/
def isUnassigned (c : Char) : Bool :=
  c != '=' && c != '\x22' && c != '\x27'

theorem exists_assignmentFrom_cons (h : isUnassigned c = true) (depth : Nat)
    (before : Option Char) :
    ∃ inner, ∀ rest, assignmentFrom depth none before (c :: rest) =
      ((c :: (assignmentFrom inner none (some c) rest).1),
        (assignmentFrom inner none (some c) rest).2) := by
  simp only [isUnassigned, Bool.and_eq_true, bne_iff_ne] at h
  obtain ⟨⟨hassign, hdouble⟩, hsingle⟩ := h
  by_cases hopen : (c = '(' || c = '[' || c = '{') = true
  · refine ⟨depth + 1, fun rest => ?_⟩
    rw [assignmentFrom.eq_def]
    simp [hdouble, hsingle, hopen]
  · by_cases hclose : (c = ')' || c = ']' || c = '}') = true
    · refine ⟨depth - 1, fun rest => ?_⟩
      rw [assignmentFrom.eq_def]
      simp [hdouble, hsingle, hopen, hclose]
    · refine ⟨depth, fun rest => ?_⟩
      rw [assignmentFrom.eq_def]
      simp [hdouble, hsingle, hopen, hclose, hassign]

/-- A text without `=` and quotes stays in front of what is split off. -/
theorem exists_assignmentFrom_append (h : ∀ c ∈ front, isUnassigned c = true) (depth : Nat)
    (before : Option Char) :
    ∃ inner last, ∀ rest, assignmentFrom depth none before (front ++ rest) =
      ((front ++ (assignmentFrom inner none last rest).1),
        (assignmentFrom inner none last rest).2) := by
  induction front generalizing depth before with
  | nil => exact ⟨depth, before, fun _ => rfl⟩
  | cons c front ih =>
    obtain ⟨middle, hcons⟩ := exists_assignmentFrom_cons (h c (by simp)) depth before
    obtain ⟨inner, last, hfront⟩ := ih (fun d hd => h d (by simp [hd])) middle (some c)
    exact ⟨inner, last, fun rest => by rw [cons_append, hcons, hfront]; rfl⟩

theorem splitAssignment_of_unassigned (h : ∀ c ∈ text, isUnassigned c = true) :
    splitAssignment text = (text, .none) := by
  obtain ⟨inner, last, htext⟩ := exists_assignmentFrom_append h 0 none
  have hsplit := htext []
  rw [append_nil] at hsplit
  simpa [assignmentFrom, splitAssignment] using hsplit

/-! ## Indexers and operators -/

theorem of_isOperatorSymbol (h : isOperatorSymbol c = true) : isWord c = false ∧ isBlank c = false := by
  rw [isOperatorSymbol, Bool.not_eq_true', Bool.or_eq_false_iff, Bool.or_eq_false_iff] at h
  exact h.1

/-- The first of some blanks and a character behind them is of no kind that has neither. -/
theorem head?_append_of_blanks {gap : Text}
    (hkind : ∀ c, isBlank c = true → kind c = false) (hgap : ∀ c ∈ gap, isBlank c = true)
    (hc : kind c = false) (rest : Text) : ∀ d ∈ (gap ++ c :: rest).head?, kind d = false := by
  intro d hd
  cases gap with
  | nil =>
    obtain rfl : c = d := some.inj hd
    exact hc
  | cons e gap =>
    obtain rfl : e = d := some.inj hd
    exact hkind e (hgap e mem_cons_self)

section

variable {before : Option Char} {named : Named}

theorem indexerAt?_eq_some_iff :
    indexerAt? before index text = some named ↔
      opensName before = true ∧ before ≠ some '.' ∧ ∃ gap rest,
        text = "this".toList ++ (gap ++ '[' :: rest) ∧ (∀ c ∈ gap, isBlank c = true) ∧
        named = ⟨"this".toList, index, .bracket, index + ("this".toList ++ gap).length⟩ := by
  unfold indexerAt?
  generalize "this".toList = word
  have hplace : ∀ gap rest : Text, (word ++ (gap ++ '[' :: rest)).length - rest.length - 1 =
      (word ++ gap).length := by
    intro gap rest
    simp only [length_append, length_cons]
    omega
  constructor
  · intro h
    split at h
    next hopens =>
      simp only [Bool.and_eq_true, bne_iff_ne] at hopens
      simp only [bind_eq_bind, bind_eq_some_iff] at h
      obtain ⟨after, hhead, h⟩ := h
      split at h
      next tail htrim =>
        obtain rfl := dropHead?_eq_some_iff.mp hhead
        have hgap := takeWhile_isBlank_append_trimLeft after
        rw [htrim] at hgap
        refine ⟨hopens.1, hopens.2, after.takeWhile isBlank, tail, by rw [hgap],
          fun c hc => mem_takeWhile_imp hc, ?_⟩
        have hlength := hplace (after.takeWhile isBlank) tail
        rw [hgap] at hlength
        rw [← some.inj h, hlength]
      next => cases h
    next => cases h
  · rintro ⟨hopens, hdot, gap, rest, rfl, hgap, rfl⟩
    have htrim : trimLeft (gap ++ '[' :: rest) = '[' :: rest := by
      rw [trimLeft_append_of_blanks hgap, trimLeft_cons_of_not_blank (by decide)]
    have hhead : dropHead? word (word ++ (gap ++ '[' :: rest)) = some (gap ++ '[' :: rest) :=
      dropHead?_eq_some_iff.mpr rfl
    rw [if_pos (by simp [hopens, hdot])]
    simp only [hhead, bind_eq_bind, bind_some, htrim, hplace]

theorem take_operatorName (word gap symbol rest : Text) :
    (word ++ gap ++ symbol ++ rest).take ((word ++ gap ++ symbol ++ rest).length - rest.length) =
      word ++ gap ++ symbol := by
  rw [length_append, Nat.add_sub_cancel, take_left]

theorem operatorPlace (word gap symbol space rest : Text) :
    (word ++ gap ++ symbol ++ (space ++ '(' :: rest)).length - rest.length - 1 =
      (word ++ gap ++ symbol ++ space).length := by
  simp only [length_append, length_cons]
  omega

/-- The operator name that a text starts with: the word, its symbol and a parenthesis, with blanks
between them. -/
theorem exists_of_operatorAt? (h : operatorAt? before index text = some named) :
    opensName before = true ∧ ∃ gap symbol space rest,
      text = "operator".toList ++ gap ++ symbol ++ (space ++ '(' :: rest) ∧
      (∀ c ∈ gap, isBlank c = true) ∧ symbol ≠ [] ∧ (∀ c ∈ symbol, isOperatorSymbol c = true) ∧
      (∀ c ∈ space, isBlank c = true) ∧
      named = ⟨"operator".toList ++ gap ++ symbol, index, .paren,
        index + ("operator".toList ++ gap ++ symbol ++ space).length⟩ := by
  unfold operatorAt? at h
  generalize "operator".toList = word at h ⊢
  split at h
  next hopens =>
    simp only [bind_eq_bind, bind_eq_some_iff] at h
    obtain ⟨after, hhead, h⟩ := h
    obtain rfl := dropHead?_eq_some_iff.mp hhead
    split at h
    next hlt =>
      split at h
      next tail htrim =>
        have hgap := takeWhile_isBlank_append_trimLeft after
        have hsymbol : (trimLeft after).takeWhile isOperatorSymbol ++
            (trimLeft after).dropWhile isOperatorSymbol = trimLeft after :=
          takeWhile_append_dropWhile
        have hspace := takeWhile_isBlank_append_trimLeft
          ((trimLeft after).dropWhile isOperatorSymbol)
        rw [htrim] at hspace
        generalize hrest : (trimLeft after).dropWhile isOperatorSymbol = rest at *
        generalize hsym : (trimLeft after).takeWhile isOperatorSymbol = symbol at *
        have htext : word ++ after = word ++ after.takeWhile isBlank ++ symbol ++ rest := by
          rw [append_assoc, hsymbol, append_assoc, hgap]
        refine ⟨hopens, after.takeWhile isBlank, symbol, rest.takeWhile isBlank, tail,
          by rw [hspace, htext], fun c hc => mem_takeWhile_imp hc, ?_, ?_,
          fun c hc => mem_takeWhile_imp hc, ?_⟩
        · rintro rfl
          rw [← hsymbol, nil_append] at hlt
          exact Nat.lt_irrefl _ hlt
        · intro c hc
          rw [← hsym] at hc
          exact mem_takeWhile_imp hc
        · have hlength := operatorPlace word (after.takeWhile isBlank) symbol
            (rest.takeWhile isBlank) tail
          rw [hspace] at hlength
          rw [← some.inj h, htext, take_operatorName, hlength]
      next => cases h
    next => cases h
  next => cases h

theorem operatorAt?_append {gap symbol space : Text} (index : Nat)
    (hopens : opensName before = true) (hgap : ∀ c ∈ gap, isBlank c = true) (hne : symbol ≠ [])
    (hsymbol : ∀ c ∈ symbol, isOperatorSymbol c = true) (hspace : ∀ c ∈ space, isBlank c = true)
    (rest : Text) :
    operatorAt? before index ("operator".toList ++ gap ++ symbol ++ (space ++ '(' :: rest)) =
      some ⟨"operator".toList ++ gap ++ symbol, index, .paren,
        index + ("operator".toList ++ gap ++ symbol ++ space).length⟩ := by
  unfold operatorAt?
  generalize "operator".toList = word
  obtain ⟨c, symbol, rfl⟩ := exists_cons_of_ne_nil hne
  have hstop : ∀ d ∈ (space ++ '(' :: rest).head?, isOperatorSymbol d = false :=
    head?_append_of_blanks (fun d hd => by simp [isOperatorSymbol, hd]) hspace (by decide) rest
  have hhead : trimLeft (gap ++ (c :: symbol ++ (space ++ '(' :: rest))) =
      c :: symbol ++ (space ++ '(' :: rest) := by
    rw [trimLeft_append_of_blanks hgap, cons_append,
      trimLeft_cons_of_not_blank (of_isOperatorSymbol (hsymbol c (by simp))).2]
  have hdrop : (c :: symbol ++ (space ++ '(' :: rest)).dropWhile isOperatorSymbol =
      space ++ '(' :: rest := dropWhile_append_of_stop hsymbol hstop
  have htrim : trimLeft (space ++ '(' :: rest) = '(' :: rest := by
    rw [trimLeft_append_of_blanks hspace, trimLeft_cons_of_not_blank (by decide)]
  have htext : dropHead? word (word ++ gap ++ c :: symbol ++ (space ++ '(' :: rest)) =
      some (gap ++ (c :: symbol ++ (space ++ '(' :: rest))) :=
    dropHead?_eq_some_iff.mpr (by simp)
  have hlt : (space ++ '(' :: rest).length < (c :: symbol ++ (space ++ '(' :: rest)).length := by
    simp only [cons_append, length_cons, length_append]
    omega
  rw [if_pos hopens]
  simp only [htext, bind_eq_bind, bind_some, hhead, hdrop, if_pos hlt, htrim,
    take_operatorName, operatorPlace]

end

/-- A word at the start of a text is the first word there, or a longer word starts with it. -/
theorem eq_or_isWord_of_append_eq {first word : Text} (hfirst : ∀ c ∈ first, isWord c = true)
    (hrest : ∀ c ∈ rest.head?, isWord c = false) (hword : ∀ c ∈ word, isWord c = true)
    (h : first ++ rest = word ++ after) :
    (first = word ∧ rest = after) ∨ ∃ c tail, after = c :: tail ∧ isWord c = true := by
  rcases append_eq_append_iff.mp h with ⟨tail, rfl, rfl⟩ | ⟨tail, rfl, rfl⟩
  · cases tail with
    | nil => exact Or.inl (by simp)
    | cons c tail =>
      have hfalse := hrest c (by simp)
      rw [hword c (by simp)] at hfalse
      cases hfalse
  · cases tail with
    | nil => exact Or.inl (by simp)
    | cons c tail => exact Or.inr ⟨c, tail ++ rest, rfl, hfirst c (by simp)⟩

/-- A reader that finds only the special words, each as a whole word. -/
def ReadsSpecial (read : Option Char → Nat → Text → Option Named) : Prop :=
  ∀ {before index text named}, read before index text = some named → opensName before = true ∧
    ∃ word ∈ specialWords, ∃ after, text = word ++ after ∧ ∀ c ∈ after.head?, isWord c = false

theorem readsSpecial_indexerAt : ReadsSpecial indexerAt? := by
  intro before index text named h
  obtain ⟨hopens, -, gap, rest, htext, hgap, -⟩ := indexerAt?_eq_some_iff.mp h
  exact ⟨hopens, _, (by decide : "this".toList ∈ specialWords), _, htext,
    head?_append_of_blanks (fun _ => isWord_eq_false_of_isBlank) hgap (by decide) rest⟩

theorem readsSpecial_operatorAt : ReadsSpecial operatorAt? := by
  intro before index text named h
  obtain ⟨hopens, gap, symbol, space, rest, rfl, hgap, hne, hsymbol, -⟩ := exists_of_operatorAt? h
  obtain ⟨c, symbol, rfl⟩ := exists_cons_of_ne_nil hne
  rw [append_assoc, append_assoc]
  refine ⟨hopens, _, (by decide : "operator".toList ∈ specialWords), _, rfl, ?_⟩
  exact head?_append_of_blanks (fun _ => isWord_eq_false_of_isBlank) hgap
    (of_isOperatorSymbol (hsymbol c mem_cons_self)).1 _

variable {read : Option Char → Nat → Text → Option Named} {before : Option Char} {word rest : Text}

theorem isWord_of_mem_special (h : word ∈ specialWords) : ∀ c ∈ word, isWord c = true := by
  have hall : specialWords.all (·.all isWord) = true := by decide
  exact all_eq_true.mp (all_eq_true.mp hall word h)

theorem ReadsSpecial.miss_word (hread : ReadsSpecial read) (hword : ∀ c ∈ word, isWord c = true)
    (hne : word ∉ specialWords) (hrest : ∀ c ∈ rest.head?, isWord c = false) (index : Nat) :
    read before index (word ++ rest) = none := by
  rw [eq_none_iff_forall_ne_some]
  intro named hsome
  obtain ⟨-, special, hspecial, after, happend, hafter⟩ := hread hsome
  rcases eq_or_isWord_of_append_eq hword hrest (isWord_of_mem_special hspecial) happend with
    ⟨rfl, -⟩ | ⟨c, tail, rfl, hc⟩
  · exact hne hspecial
  · have hfalse := hafter c rfl
    rw [hc] at hfalse
    cases hfalse

theorem ReadsSpecial.readsWords (hread : ReadsSpecial read) :
    ReadsWords (fun _ => True) fun before text => ∀ index, read before index text = none := by
  refine ⟨?_, ?_, ?_, ?_⟩
  · intro before c rest hc index
    rw [eq_none_iff_forall_ne_some]
    intro named hsome
    obtain ⟨-, special, hspecial, after, happend, -⟩ := hread hsome
    obtain ⟨d, tail, rfl⟩ := exists_cons_of_ne_nil
      ((by decide : ∀ word ∈ specialWords, word ≠ []) special hspecial)
    have hword := isWord_of_mem_special hspecial d (by simp)
    rw [← (cons.inj happend).1, hc] at hword
    cases hword
  · intro c text hc index
    rw [eq_none_iff_forall_ne_some]
    intro named hsome
    have hopens := (hread hsome).1
    simp [opensName, hc] at hopens
  · rintro before rest name - ⟨c, tail, rfl, hc, -⟩
    exact hread.miss_word (fun _ h => name.isWord_of_mem h) name.not_mem_special (by simpa using hc)
  · intro rest name _ hrest
    exact hread.miss_word (fun _ h => name.isWord_of_mem h) name.not_mem_special hrest

/-! ## What stands in front of a name -/

abbrev Modifier := { word : Text // word ∈ modifierWords }

def modifierText (modifiers : List Modifier) : Text :=
  modifiers.flatMap fun modifier => modifier.1 ++ [' ']

/-- Modifiers and a type as they are written in front of a name. -/
def memberLead (modifiers : List Modifier) (type : TypeExpr) : Text :=
  modifierText modifiers ++ (type.text ++ [' '])

theorem Modifier.isWord_of_mem (modifier : Modifier) : ∀ c ∈ modifier.1, isWord c = true := by
  have hall : modifierWords.all (·.all isWord) = true := by decide
  exact all_eq_true.mp (all_eq_true.mp hall modifier.1 modifier.2)

theorem Modifier.not_mem_special (modifier : Modifier) : modifier.1 ∉ specialWords :=
  (by decide : ∀ word ∈ modifierWords, word ∉ specialWords) modifier.1 modifier.2

theorem isTypeChar_of_mem_modifierText (h : c ∈ modifierText modifiers) :
    TypeSyntax.isTypeChar c = true := by
  simp only [modifierText, mem_flatMap, mem_append, mem_singleton] at h
  obtain ⟨modifier, -, hc | rfl⟩ := h
  · exact TypeSyntax.isTypeChar_of_isWord (modifier.isWord_of_mem c hc)
  · rfl

theorem isTypeChar_of_mem_memberLead {type : TypeExpr} (h : c ∈ memberLead modifiers type) :
    TypeSyntax.isTypeChar c = true := by
  simp only [memberLead, mem_append, mem_singleton] at h
  rcases h with h | h | rfl
  · exact isTypeChar_of_mem_modifierText h
  · exact type.isTypeChar_of_mem_text h
  · rfl

theorem isUnassigned_of_isTypeChar (h : TypeSyntax.isTypeChar c = true) :
    isUnassigned c = true := by
  have hc : c ∉ ['=', '\x22', '\x27'] := notMem_of_kind h (by decide)
  simpa [isUnassigned, and_assoc] using hc

theorem getLast?_modifierText (modifiers : List Modifier) :
    ∀ c ∈ (modifierText modifiers).getLast?, c = ' ' := by
  intro c hc
  rcases eq_nil_or_concat modifiers with rfl | ⟨others, modifier, rfl⟩
  · cases hc
  · simpa [modifierText, getLast?_append] using hc.symm

theorem ReadsWords.unread_modifierText {known : Identifier → Prop}
    {miss : Option Char → Text → Prop} (hread : ReadsWords known miss)
    (hmiss : ∀ {before rest} (modifier : Modifier), miss before (modifier.1 ++ ' ' :: rest))
    (modifiers : List Modifier) : Unread miss before (modifierText modifiers) rest := by
  induction modifiers generalizing before with
  | nil => trivial
  | cons modifier modifiers ih =>
    have hword : Unread miss before modifier.1 (' ' :: (modifierText modifiers ++ rest)) :=
      hread.unread_word modifier.isWord_of_mem (hmiss modifier)
    have hspaced : Unread miss before (modifier.1 ++ [' ']) (modifierText modifiers ++ rest) :=
      hword.append (hread.unread_marks (forall_mem_of_any (by decide)))
    exact hspaced.append ih

/-- No special word is found in front of a name, in it or in the marks behind it. -/
theorem ReadsSpecial.searchFrom_eq_none (hread : ReadsSpecial read) (modifiers : List Modifier)
    (type : TypeExpr) (target : TypeSyntax .path) (hmarks : ∀ c ∈ marks, isWord c = false) :
    searchFrom read none 0 (memberLead modifiers type ++ target.text ++ marks) = none := by
  have hwords := hread.readsWords
  have htype : ∀ {shape : TypeShape} (type : TypeSyntax shape) {before : Option Char}
      {rest : Text}, (∀ c ∈ rest.head?, isWord c = false) →
      ∀ index, read before index (type.text ++ rest) = none := by
    intro shape type before rest hrest
    obtain ⟨name, -, others, htext, hothers⟩ := type.exists_name_append
    rw [htext, append_assoc]
    refine hread.miss_word (fun _ h => name.isWord_of_mem h) name.not_mem_special ?_
    rcases hothers with rfl | ⟨c, others, rfl, hc⟩
    · exact hrest
    · simpa using TypeSyntax.isWord_eq_false_of_mem_marks hc
  have hhead : ∀ c ∈ (marks ++ []).head?, isWord c = false := fun c hc =>
    hmarks c (mem_of_mem_head? (by simpa using hc))
  have hunread : Unread (fun before text => ∀ index, read before index text = none) none
      (memberLead modifiers type ++ target.text ++ marks) [] := by
    refine ((Unread.append ?_ (Unread.append ?_ ?_)).append ?_).append (hwords.unread_marks hmarks)
    · exact hwords.unread_modifierText (fun modifier =>
      hread.miss_word modifier.isWord_of_mem modifier.not_mem_special (by simp; decide)) modifiers
    · exact hwords.unread_type type (by simp) (htype type (by simp; decide)) (by simp; decide)
        (by simp)
    · exact hwords.unread_marks (forall_mem_of_any (by decide))
    · exact hwords.unread_type target (by simp) (htype target hhead) hhead (by simp)
  have hsearch := hunread.searchFrom_append 0
  rw [append_nil] at hsearch
  rw [hsearch, searchFrom]

theorem isPlain_of_isTypeChar (h : TypeSyntax.isTypeChar c = true) :
    (c != '(' && c != '{') = true := by
  have hc : c ∉ ['(', '{'] := notMem_of_kind h (by decide)
  simpa using hc

/-- Neither an indexer nor an operator is seen in a header that a name and marks end. -/
theorem specialName?_eq_none (modifiers : List Modifier) (type : TypeExpr)
    (target : TypeSyntax .path)
    (hmarks : ∀ c ∈ marks, isWord c = false ∧ (c != '(' && c != '{') = true)
    (hrest : ∀ c ∈ rest.head?, c = '(' ∨ c = '{') :
    specialName? (memberLead modifiers type ++ target.text ++ marks ++ rest) = none := by
  have hplain : ∀ c ∈ memberLead modifiers type ++ target.text ++ marks,
      (c != '(' && c != '{') = true := by
    intro c hc
    rcases mem_append.mp hc with hc | hc
    · rcases mem_append.mp hc with hc | hc
      · exact isPlain_of_isTypeChar (isTypeChar_of_mem_memberLead hc)
      · exact isPlain_of_isTypeChar (target.isTypeChar_of_mem_text hc)
    · exact (hmarks c hc).2
  have hstop : (memberLead modifiers type ++ target.text ++ marks ++ rest).takeWhile
      (fun c => c != '(' && c != '{') = memberLead modifiers type ++ target.text ++ marks := by
    refine takeWhile_append_of_stop hplain fun c hc => ?_
    rcases hrest c hc with rfl | rfl <;> rfl
  have hindexer := readsSpecial_indexerAt.searchFrom_eq_none modifiers type target
    fun c hc => (hmarks c hc).1
  have hnext : ∀ c ∈ marks ++ rest.take 1, isWord c = false := by
    intro c hc
    rcases mem_append.mp hc with hc | hc
    · exact (hmarks c hc).1
    · cases rest with
      | nil => cases hc
      | cons d rest =>
        obtain rfl : c = d := by simpa using hc
        rcases hrest c rfl with rfl | rfl <;> decide
  have hoperator := readsSpecial_operatorAt.searchFrom_eq_none modifiers type target hnext
  simp only [specialName?, hstop, take_left', hindexer]
  rw [take_length_add_append, append_assoc _ marks, hoperator]

/-! ## The name -/

variable {name : Identifier} {tail : Text}

theorem isTypeArgumentChar_of_kind (hsigns : "()=;{}".toList.any kind = false)
    (h : kind c = true) : isTypeArgumentChar c = true := by
  simpa [isTypeArgumentChar] using notMem_of_kind h hsigns

theorem isTypeArgumentChar_of_isTypeChar (h : TypeSyntax.isTypeChar c = true) :
    isTypeArgumentChar c = true :=
  isTypeArgumentChar_of_kind (by decide) h

theorem terminatorAt?_of_isTypeArgumentChar (h : isTypeArgumentChar c = true) (rest : Text) :
    terminatorAt? (c :: rest) = none := by
  have hne : ∀ {d : Char}, isTypeArgumentChar d = false → c ≠ d :=
    fun hd => ne_of_kind h hd
  unfold terminatorAt?
  split
  next heq => cases heq
  iterate 5 next heq => exact absurd (cons.inj heq).1 (hne (by decide))
  next => rfl

theorem nameAt?_eq_some (hhead : text.head? ≠ some '@')
    (h : nameAt? before index text = some named) :
    ∃ rest terminator, dropTypeArguments? (trimLeft (text.dropWhile isWord)) = some rest ∧
      terminatorAt? rest = some terminator := by
  unfold nameAt? at h
  simp only [beq_iff_eq, hhead, if_false] at h
  split at h
  next =>
    split at h
    next =>
      split at h
      next =>
        simp only [bind_eq_bind, bind_eq_some_iff] at h
        obtain ⟨rest, hrest, terminator, hterminator, -⟩ := h
        exact ⟨rest, terminator, hrest, hterminator⟩
      next => cases h
    next => cases h
  next => cases h

theorem nameAt?_name (name : Identifier) (hopens : opensName before = true)
    (hafter : ∀ c ∈ after.head?, isWord c = false)
    (hrest : dropTypeArguments? (trimLeft after) = some rest)
    (hterminator : terminatorAt? rest = some terminator) :
    nameAt? before index (name.text ++ after) =
      some ⟨name.text, index, terminator,
        index + (name.text.length + after.length - rest.length)⟩ := by
  have hdrop : (name.text ++ after).dropWhile isWord = after :=
    dropWhile_append_of_stop (fun _ hc => name.isWord_of_mem hc) hafter
  obtain ⟨c, others, hcons, hstart⟩ := name.exists_cons
  have hat : c ≠ '@' := ne_of_kind (isWord_of_isNameStart hstart) (by decide)
  have hhead : (name.text ++ after).head? = some c := by simp [hcons]
  unfold nameAt?
  simp only [hopens, if_true, hhead, some_beq_some, beq_iff_eq, hat, if_false, hdrop,
    hrest]
  split
  next heq =>
    rw [heq] at hhead
    obtain rfl := some.inj hhead
    simp [hstart, hterminator]
  next heq => simp [heq] at hhead

theorem dropTypeArguments?_before_name {inner : Text}
    (hinner : ∀ c ∈ inner, TypeSyntax.isTypeChar c = true) (name : Identifier)
    (htail : ∀ c ∈ tail.takeWhile isTypeArgumentChar, isBlank c = true) :
    dropTypeArguments? ('<' :: (inner ++ (name.text ++ tail))) = none := by
  obtain ⟨front, c, hname, hc⟩ := name.exists_concat
  have hrun : (inner ++ (name.text ++ tail)).takeWhile isTypeArgumentChar =
      inner ++ name.text ++ tail.takeWhile isTypeArgumentChar := by
    rw [← append_assoc, takeWhile_append_of_pos]
    intro d hd
    apply isTypeArgumentChar_of_isTypeChar
    rcases mem_append.mp hd with hd | hd
    · exact hinner d hd
    · exact TypeSyntax.isTypeChar_of_isWord (name.isWord_of_mem hd)
  have hclose : c ≠ '>' := ne_of_kind hc (by decide)
  have htrim : trimRight (inner ++ name.text ++ tail.takeWhile isTypeArgumentChar) =
      inner ++ front ++ [c] := by
    rw [trimRight_append_of_blanks htail, hname, ← append_assoc,
      trimRight_append_singleton (isBlank_eq_false_of_isWord hc)]
  simp only [dropTypeArguments?, hrun, htrim]
  simp [hclose]

theorem dropTypeArguments?_cons (h : c ≠ '<') (rest : Text) :
    dropTypeArguments? (c :: rest) = some (c :: rest) := by
  unfold dropTypeArguments?
  split
  next heq => exact absurd (cons.inj heq).1 h
  next => rfl

/-- No name is found before the name: what follows an earlier identifier is no terminator, and
angle brackets opened there do not close right before one. -/
theorem nameAt?_front (hne : front ≠ []) (hfront : ∀ c ∈ front, TypeSyntax.isTypeChar c = true)
    (hlast : ∀ c ∈ front.getLast?, isWord c = false)
    (hangle : '<' ∉ front ∨ ∀ c ∈ tail.takeWhile isTypeArgumentChar, isBlank c = true)
    (index : Nat) : nameAt? before index (front ++ (name.text ++ tail)) = none := by
  rw [eq_none_iff_forall_ne_some]
  intro named hsome
  have hhead : (front ++ (name.text ++ tail)).head? ≠ some '@' := by
    obtain ⟨c, others, rfl⟩ := exists_cons_of_ne_nil hne
    simpa using ne_of_kind (hfront c (by simp)) (by decide)
  obtain ⟨rest, terminator, hrest, hterminator⟩ := nameAt?_eq_some hhead hsome
  -- a word ends within `front`, since a mark or a blank is last there
  have hword : front.dropWhile isWord ≠ [] := by
    obtain ⟨others, c, rfl⟩ := (eq_nil_or_concat front).resolve_left hne
    intro hnil
    have hc := dropWhile_eq_nil_iff.mp hnil c (by simp)
    rw [hlast c (by simp)] at hc
    cases hc
  have hsuffix : front.dropWhile isWord <:+ front := dropWhile_suffix _
  rw [dropWhile_append, if_neg (by simpa using hword), trimLeft, dropWhile_append] at hrest
  cases htrim : (front.dropWhile isWord).dropWhile isBlank with
  | nil =>
    obtain ⟨c, others, hname, hstart⟩ := name.exists_cons
    have hc := isWord_of_isNameStart hstart
    have hblank := isBlank_eq_false_of_isWord hc
    have hopen : c ≠ '<' := ne_of_kind hc (by decide)
    simp only [htrim, isEmpty_nil, if_true, hname, cons_append, dropWhile_cons,
      hblank, Bool.false_eq_true, if_false, dropTypeArguments?_cons hopen] at hrest
    rw [← some.inj hrest, terminatorAt?_of_isTypeArgumentChar
      (isTypeArgumentChar_of_kind (by decide) hc)] at hterminator
    cases hterminator
  | cons c others =>
    have hmem : ∀ d ∈ c :: others, d ∈ front := fun d hd =>
      hsuffix.subset ((dropWhile_suffix _).subset (htrim ▸ hd))
    simp only [htrim, isEmpty_cons, Bool.false_eq_true, if_false, cons_append] at hrest
    by_cases hopen : c = '<'
    · subst hopen
      have htail := hangle.resolve_left (not_not_intro (hmem '<' (by simp)))
      rw [dropTypeArguments?_before_name (fun d hd => hfront d (hmem d (by simp [hd]))) name
        htail] at hrest
      cases hrest
    · rw [dropTypeArguments?_cons hopen] at hrest
      rw [← some.inj hrest, terminatorAt?_of_isTypeArgumentChar
        (isTypeArgumentChar_of_isTypeChar (hfront c (hmem c (by simp))))] at hterminator
      cases hterminator

/-- The search for a name stops at the first identifier after which a terminator comes. -/
theorem searchFrom_nameAt? (name : Identifier)
    (hfront : ∀ c ∈ front, TypeSyntax.isTypeChar c = true)
    (hlast : ∀ c ∈ front.getLast?, isWord c = false)
    (hangle : '<' ∉ front ∨ ∀ c ∈ after.takeWhile isTypeArgumentChar, isBlank c = true)
    (hafter : ∀ c ∈ after.head?, isWord c = false)
    (hrest : dropTypeArguments? (trimLeft after) = some rest)
    (hterminator : terminatorAt? rest = some terminator) :
    searchFrom nameAt? none 0 (front ++ (name.text ++ after)) =
      some ⟨name.text, front.length, terminator,
        front.length + (name.text.length + after.length - rest.length)⟩ := by
  have hunread : ∀ (front : Text) (before : Option Char),
      (∀ c ∈ front, TypeSyntax.isTypeChar c = true) → (∀ c ∈ front.getLast?, isWord c = false) →
      ('<' ∉ front ∨ ∀ c ∈ after.takeWhile isTypeArgumentChar, isBlank c = true) →
      Unread (fun before text => ∀ index, nameAt? before index text = none) before front
        (name.text ++ after) := by
    intro front
    induction front with
    | nil => exact fun _ _ _ _ => trivial
    | cons c front ih =>
      intro before hfront hlast hangle
      refine ⟨nameAt?_front (by simp) hfront hlast hangle, ih _ ?_ ?_ ?_⟩
      · exact fun d hd => hfront d (by simp [hd])
      · intro d hd
        exact hlast d (by simp only [mem_def] at hd; simp [getLast?_cons, hd])
      · exact hangle.imp_left fun hnot hmem => hnot (by simp [hmem])
  have hopens : opensName (lastBefore none front) = true := by
    rcases eq_nil_or_concat front with rfl | ⟨others, c, rfl⟩
    · rfl
    · have hword := hlast c (by simp)
      have hat : c ≠ '@' := ne_of_kind (hfront c (by simp)) (by decide)
      simp [lastBefore, opensName, hword, hat]
  rw [(hunread front none hfront hlast hangle).searchFrom_append 0, Nat.zero_add]
  obtain ⟨c, others, hname, -⟩ := name.exists_cons
  have hread : nameAt? (lastBefore none front) front.length (name.text ++ after) = some _ :=
    nameAt?_name name hopens hafter hrest hterminator
  rw [hname, cons_append] at hread ⊢
  rw [searchFrom, hread]

/-! ## Headers -/

def Named.header (named : Named) (signature : Text) (operator : Terminator) : Header :=
  let terminator := if named.terminator = .none then operator else named.terminator
  let lead := trimRight (signature.take named.start)
  let declared := trailingType lead
  { name := named.name
    declaredType := if modifierWords.contains declared then unknownType
      else typeOrUnknown declared
    terminator
    nameStart := named.start
    modifiers := (words lead).filter modifierWords.contains
    openParen := if terminator = .paren then some named.terminatorStart else none }

theorem tokenize_eq_header {signature head : Text} {operator : Terminator}
    (hsplit : splitAssignment signature = (head, operator)) (hspecial : specialName? head = none)
    (hsearch : searchFrom nameAt? none 0 head = some named) :
    tokenize signature = some (named.header signature operator) := by
  simp only [tokenize, hsplit, hspecial, hsearch, map_some]
  rfl

theorem trimRight_memberLead (modifiers : List Modifier) (type : TypeExpr) :
    trimRight (memberLead modifiers type) = modifierText modifiers ++ type.text := by
  obtain ⟨front, c, htext, -, hblank⟩ := type.exists_concat
  rw [memberLead, ← append_assoc, trimRight_append_of_blanks (all_eq_true.mp (by decide)), htext,
    ← append_assoc, trimRight_append_singleton hblank]

theorem trailingType_modifierText (modifiers : List Modifier) (type : TypeExpr) :
    trailingType (modifierText modifiers ++ type.text) = type.text := by
  rcases eq_nil_or_concat modifiers with rfl | ⟨others, modifier, rfl⟩
  · exact type.trailingType_text
  · simpa [modifierText] using type.trailingType_append (modifierText others ++ modifier.1)

theorem typeOrUnknown_text (type : TypeExpr) : typeOrUnknown type.text = type.text := by
  obtain ⟨front, c, htext, -⟩ := type.exists_concat
  simp [typeOrUnknown, htext]

theorem Named.header_memberLead (modifiers : List Modifier) (type : TypeExpr) (rest : Text)
    (operator : Terminator) (hstart : named.start = (memberLead modifiers type).length) :
    named.header (memberLead modifiers type ++ rest) operator =
      let terminator := if named.terminator = .none then operator else named.terminator
      { name := named.name
        declaredType := if type.text ∈ modifierWords then unknownType else type.text
        terminator
        nameStart := named.start
        modifiers := (words (modifierText modifiers ++ type.text)).filter modifierWords.contains
        openParen := if terminator = .paren then some named.terminatorStart else none } := by
  simp only [header, hstart, take_left', trimRight_memberLead, trailingType_modifierText,
    typeOrUnknown_text, contains_iff_mem]

end SourceAtlas.CSharp
