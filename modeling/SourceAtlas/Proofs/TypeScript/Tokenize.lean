import SourceAtlas.Header.TypeScript
import SourceAtlas.Proofs.Bracket
import SourceAtlas.Proofs.Header.Basic
import SourceAtlas.Proofs.Text.Words

/-!
# Tokens of TypeScript member headers

A header is a run of modifiers, a name and what ends the name. A modifier word may itself be the name:
it is one when no other name follows it. The module says which headers are read and gives every header
that is read back as such a text.
-/

namespace SourceAtlas.TypeScript

open List Option

variable {opens : Char → Bool} {text place rest : Text} {c : Char} {terminator : Terminator}

/-! ## Names -/

/-- A name: a character that may open it, and name characters behind that. -/
structure Name (opens : Char → Bool) where
  text : Text
  valid : (text.head?.any opens && text.tail.all isNameChar) = true

theorem Name.exists_cons (name : Name opens) :
    ∃ c rest, name.text = c :: rest ∧ opens c = true ∧ ∀ d ∈ rest, isNameChar d = true := by
  obtain ⟨hhead, htail⟩ := Bool.and_eq_true_iff.mp name.valid
  obtain ⟨c, hc, hopens⟩ := (Option.any_eq_true ..).mp hhead
  obtain ⟨rest, hcons⟩ := head?_eq_some_iff.mp hc
  rw [hcons, tail_cons] at htail
  exact ⟨c, rest, hcons, hopens, all_eq_true.mp htail⟩

theorem splitName?_text (name : Name opens) (hrest : ∀ c ∈ rest.head?, isNameChar c = false) :
    splitName? opens (name.text ++ rest) = some (name.text, rest) := by
  obtain ⟨c, tail, hcons, hopens, htail⟩ := name.exists_cons
  rw [hcons, cons_append, splitName?, if_pos hopens, takeWhile_append_of_stop htail hrest,
    dropWhile_append_of_stop htail hrest]

theorem of_splitName?_eq_some {name : Text} (h : splitName? opens text = some (name, rest)) :
    (∃ found : Name opens, found.text = name) ∧ text = name ++ rest ∧
      ∀ c ∈ rest.head?, isNameChar c = false := by
  cases text with
  | nil => cases h
  | cons c tail =>
    rw [splitName?, ite_none_right_eq_some] at h
    obtain ⟨hopens, heq⟩ := h
    obtain ⟨rfl, rfl⟩ := Prod.mk.inj (some.inj heq)
    refine ⟨⟨⟨c :: tail.takeWhile isNameChar, ?_⟩, rfl⟩, ?_, ?_⟩
    · rw [head?_cons, any_some, hopens, tail_cons, all_takeWhile]
      rfl
    · rw [cons_append, takeWhile_append_dropWhile]
    · intro d hd
      obtain ⟨more, hmore⟩ := head?_eq_some_iff.mp hd
      exact of_dropWhile_eq_cons hmore

theorem isNameChar_of_isPlainStart (h : isPlainStart c = true) : isNameChar c = true := by
  rw [isPlainStart, Bool.or_eq_true] at h
  rw [isNameChar, Bool.or_eq_true]
  exact h.imp_right isWord_of_isNameStart

theorem isInert_of_isNameChar (h : isNameChar c = true) : isInert c = true :=
  isInert_of_kind (by decide) h

theorem isBlank_eq_false_of_isNameChar (h : isNameChar c = true) : isBlank c = false := by
  simp only [isNameChar, Bool.or_eq_true, beq_iff_eq] at h
  rcases h with rfl | hword
  · rfl
  · exact isBlank_eq_false_of_isWord hword

theorem isBlank_eq_false_of_isMemberStart (h : isMemberStart c = true) : isBlank c = false := by
  simp only [isMemberStart, Bool.or_eq_true, beq_iff_eq] at h
  rcases h with rfl | hplain
  · rfl
  · exact isBlank_eq_false_of_isNameChar (isNameChar_of_isPlainStart hplain)

theorem isBlank_eq_false_of_mem_name (name : Name isMemberStart) (h : c ∈ name.text) :
    isBlank c = false := by
  obtain ⟨d, rest, hcons, hopens, hrest⟩ := name.exists_cons
  rw [hcons] at h
  rcases mem_cons.mp h with rfl | h
  · exact isBlank_eq_false_of_isMemberStart hopens
  · exact isBlank_eq_false_of_isNameChar (hrest c h)

/-! ## What ends a name -/

def isTerminator (c : Char) : Bool :=
  c == '(' || c == ':' || c == '=' || c == ';' || c == ',' || c == '{'

theorem terminatorAt?_cons_eq_none_iff :
    terminatorAt? (c :: rest) = none ↔ isTerminator c = false := by
  have hsign : ∀ {d : Char}, isTerminator d = true → ∀ terminator : Terminator,
      some terminator = none ↔ isTerminator d = false := fun hd terminator => by simp [hd]
  unfold terminatorAt?
  split
  next heq => cases heq
  iterate 7 next heq => rw [(cons.inj heq).1]; exact hsign (by decide) _
  next hparen hcolon _ hassign hsemicolon hcomma hbrace =>
    refine iff_of_true rfl (Bool.eq_false_iff.mpr fun hc => ?_)
    simp only [isTerminator, Bool.or_eq_true, beq_iff_eq] at hc
    rcases hc with ((((rfl | rfl) | rfl) | rfl) | rfl) | rfl
    · exact hparen _ rfl
    · exact hcolon _ rfl
    · exact hassign _ rfl
    · exact hsemicolon _ rfl
    · exact hcomma _ rfl
    · exact hbrace _ rfl

theorem terminatorAt?_eq_none_iff :
    terminatorAt? text = none ↔ ∃ c ∈ text.head?, isTerminator c = false := by
  cases text with
  | nil => simp [terminatorAt?]
  | cons c rest => rw [terminatorAt?_cons_eq_none_iff]; simp

theorem isMemberStart_eq_false_of_isTerminator (h : isTerminator c = true) :
    isMemberStart c = false := by
  simp only [isTerminator, Bool.or_eq_true, beq_iff_eq] at h
  rcases h with ((((rfl | rfl) | rfl) | rfl) | rfl) | rfl <;> decide

def isMark (c : Char) : Bool :=
  c == '?' || c == '!'

theorem dropMark_of_isMark (hc : isMark c = true) (h : trimLeft text = c :: rest) :
    dropMark text = rest := by
  unfold dropMark
  rw [h]
  simp only [isMark, Bool.or_eq_true, beq_iff_eq] at hc
  rcases hc with rfl | rfl <;> rfl

theorem dropMark_eq_self (h : ∀ c ∈ (trimLeft text).head?, isMark c = false) :
    dropMark text = text := by
  unfold dropMark
  split
  next heq => exact absurd (h '?' (by rw [heq]; rfl)) (by decide)
  next heq => exact absurd (h '!' (by rw [heq]; rfl)) (by decide)
  next => rfl

theorem dropMark_suffix (text : Text) : dropMark text <:+ text := by
  unfold dropMark
  split
  next heq => exact suffix_of_trimLeft_eq_cons heq
  next heq => exact suffix_of_trimLeft_eq_cons heq
  next => exact suffix_rfl

theorem typeParameterEnds_suffix (h : rest ∈ typeParameterEnds text) : rest <:+ text := by
  induction text with
  | nil => cases h
  | cons c text ih =>
    rw [typeParameterEnds] at h
    split_ifs at h
    · cases h
    · rcases mem_cons.mp h with rfl | h
      · exact suffix_cons c rest
      · exact (ih h).trans (suffix_cons c text)
    · exact (ih h).trans (suffix_cons c text)

theorem afterTypeParameters_suffix (h : rest ∈ afterTypeParameters text) : rest <:+ text := by
  unfold afterTypeParameters at h
  split at h
  next inner htrim =>
    obtain ⟨stop, hstop, rfl⟩ := mem_map.mp h
    exact ((trimLeft_suffix stop).trans (typeParameterEnds_suffix hstop)).trans
      (suffix_of_trimLeft_eq_cons htrim)
  next =>
    rw [mem_singleton.mp h]
    exact trimLeft_suffix text

theorem of_terminated?_eq_some {after : Text} (h : terminated? after = some (terminator, rest)) :
    rest <:+ after ∧ terminatorAt? rest = some terminator := by
  obtain ⟨place, hplace, hends⟩ := exists_of_findSome?_eq_some h
  obtain ⟨found, hfound, hsame⟩ := map_eq_some_iff.mp hends
  obtain ⟨rfl, rfl⟩ := Prod.mk.inj hsame
  exact ⟨(afterTypeParameters_suffix hplace).trans (dropMark_suffix after), hfound⟩

theorem isMemberStart_eq_false_of_terminated? {after : Text}
    (h : terminated? after = some (terminator, rest)) :
    ∀ c ∈ (trimLeft after).head?, isMemberStart c = false := by
  intro c hc
  by_contra hstart
  rw [Bool.not_eq_false] at hstart
  obtain ⟨tail, htrim⟩ := head?_eq_some_iff.mp hc
  have hmark : dropMark after = after := by
    refine dropMark_eq_self fun d hd => Bool.eq_false_iff.mpr fun hmark => ?_
    obtain rfl : c = d := some.inj (hc.symm.trans hd)
    simp only [isMark, Bool.or_eq_true, beq_iff_eq] at hmark
    rcases hmark with rfl | rfl <;> cases hstart
  have hends : afterTypeParameters after = [c :: tail] := by
    unfold afterTypeParameters
    rw [htrim]
    split
    next heq => exact absurd (cons.inj heq).1 (ne_of_kind hstart (by decide))
    next => rfl
  have hnone : terminatorAt? (c :: tail) = none := by
    rw [terminatorAt?_cons_eq_none_iff, Bool.eq_false_iff]
    intro hterminator
    rw [isMemberStart_eq_false_of_isTerminator hterminator] at hstart
    cases hstart
  rw [terminated?, hmark, hends, findSome?_cons, hnone] at h
  cases h

theorem exists_of_terminatorAt?_paren (h : terminatorAt? text = some .paren) :
    ∃ tail, text = '(' :: tail := by
  unfold terminatorAt? at h
  split at h
  next => cases h
  next tail => exact ⟨tail, rfl⟩
  all_goals cases h

/-- What follows a parenthesis does not change how the text in front of it starts. -/
theorem head?_trimLeft_append_paren (gap rest more : Text) :
    (trimLeft (gap ++ '(' :: rest)).head? = (trimLeft (gap ++ '(' :: more)).head? := by
  have htrim : ∀ more, trimLeft (gap ++ '(' :: more) = trimLeft gap ++ '(' :: more := fun more =>
    dropWhile_append_right (by simp; decide) gap
  rw [htrim, htrim]
  cases trimLeft gap <;> rfl

def firstTerminated? (places : List Text) : Option (Terminator × Text) :=
  places.findSome? fun rest => (terminatorAt? rest).map (·, rest)

theorem of_firstTerminated?_cons_paren {places : List Text}
    (h : firstTerminated? (place :: places) = some (.paren, rest)) :
    (∃ tail, place = '(' :: tail ∧ rest = '(' :: tail) ∨
      terminatorAt? place = none ∧ firstTerminated? places = some (.paren, rest) := by
  rw [firstTerminated?, findSome?_cons] at h
  cases hplace : terminatorAt? place with
  | none =>
    rw [hplace] at h
    exact Or.inr ⟨rfl, h⟩
  | some terminator =>
    rw [hplace, map_some] at h
    obtain ⟨rfl, rfl⟩ := Prod.mk.inj (some.inj h)
    obtain ⟨tail, rfl⟩ := exists_of_terminatorAt?_paren hplace
    exact Or.inl ⟨tail, rfl, rfl⟩

theorem firstTerminated?_cons_of_none (h : terminatorAt? place = none) (places : List Text) :
    firstTerminated? (place :: places) = firstTerminated? places := by
  rw [firstTerminated?, findSome?_cons, h]
  rfl

theorem exists_typeParameterEnds_paren
    (h : firstTerminated? ((typeParameterEnds text).map trimLeft) = some (.paren, rest)) :
    ∃ gap tail, text = gap ++ '(' :: tail ∧ rest = '(' :: tail ∧
      ∀ more, firstTerminated? ((typeParameterEnds (gap ++ '(' :: more)).map trimLeft) =
        some (.paren, '(' :: more) := by
  induction text with
  | nil => cases h
  | cons c text ih =>
    rw [typeParameterEnds] at h
    split_ifs at h with hstop hangle
    · cases h
    · subst hangle
      rcases of_firstTerminated?_cons_paren h with ⟨tail, hplace, rfl⟩ | ⟨hnone, hlater⟩
      · obtain ⟨blanks, rfl, htrim⟩ := exists_blanks_of_trimLeft_eq_cons hplace
        refine ⟨'>' :: blanks, tail, rfl, rfl, fun more => ?_⟩
        have hends : typeParameterEnds ('>' :: (blanks ++ '(' :: more)) =
          (blanks ++ '(' :: more) :: typeParameterEnds (blanks ++ '(' :: more) := rfl
        rw [cons_append, hends, map_cons, htrim]
        rfl
      · obtain ⟨gap, tail, rfl, rfl, hgap⟩ := ih hlater
        refine ⟨'>' :: gap, tail, rfl, rfl, fun more => ?_⟩
        -- a place that misses does so at its first character
        have hmiss : terminatorAt? (trimLeft (gap ++ '(' :: more)) = none := by
          rw [terminatorAt?_eq_none_iff] at hnone ⊢
          rwa [head?_trimLeft_append_paren gap more tail]
        have hends : typeParameterEnds ('>' :: (gap ++ '(' :: more)) =
          (gap ++ '(' :: more) :: typeParameterEnds (gap ++ '(' :: more) := rfl
        rw [cons_append, hends, map_cons, firstTerminated?_cons_of_none hmiss]
        exact hgap more
    · obtain ⟨gap, tail, rfl, rfl, hgap⟩ := ih h
      refine ⟨c :: gap, tail, rfl, rfl, fun more => ?_⟩
      rw [cons_append, typeParameterEnds, if_neg hstop, if_neg hangle]
      exact hgap more

theorem exists_afterTypeParameters_paren
    (h : firstTerminated? (afterTypeParameters text) = some (.paren, rest)) :
    ∃ gap tail, text = gap ++ '(' :: tail ∧ rest = '(' :: tail ∧
      ∀ more, firstTerminated? (afterTypeParameters (gap ++ '(' :: more)) =
        some (.paren, '(' :: more) := by
  unfold afterTypeParameters at h
  split at h
  next inner htrim =>
    obtain ⟨gap, tail, rfl, rfl, hgap⟩ := exists_typeParameterEnds_paren h
    obtain ⟨blanks, rfl, hblanks⟩ := exists_blanks_of_trimLeft_eq_cons htrim
    refine ⟨blanks ++ '<' :: gap, tail, by simp, rfl, fun more => ?_⟩
    unfold afterTypeParameters
    rw [append_assoc, cons_append, hblanks]
    exact hgap more
  next =>
    rcases of_firstTerminated?_cons_paren h with ⟨tail, hplace, rfl⟩ | ⟨-, hlater⟩
    · obtain ⟨blanks, rfl, hblanks⟩ := exists_blanks_of_trimLeft_eq_cons hplace
      refine ⟨blanks, tail, rfl, rfl, fun more => ?_⟩
      unfold afterTypeParameters
      rw [hblanks]
      rfl
    · cases hlater

theorem exists_of_terminatorAt?_colon (h : terminatorAt? text = some .colon) :
    ∃ tail, text = ':' :: tail := by
  unfold terminatorAt? at h
  split at h
  next => cases h
  next => cases h
  next tail => exact ⟨tail, rfl⟩
  all_goals cases h

theorem exists_terminated?_paren {after : Text} (h : terminated? after = some (.paren, rest)) :
    ∃ gap tail, after = gap ++ '(' :: tail ∧ rest = '(' :: tail ∧
      ∀ more, terminated? (gap ++ '(' :: more) = some (.paren, '(' :: more) := by
  obtain ⟨gap, tail, hdrop, rfl, hgap⟩ := exists_afterTypeParameters_paren h
  by_cases hmark : ∃ c ∈ (trimLeft after).head?, isMark c = true
  · obtain ⟨c, hc, hmark⟩ := hmark
    obtain ⟨unmarked, htrim⟩ := head?_eq_some_iff.mp hc
    rw [dropMark_of_isMark hmark htrim] at hdrop
    subst hdrop
    obtain ⟨blanks, rfl, hblanks⟩ := exists_blanks_of_trimLeft_eq_cons htrim
    refine ⟨blanks ++ c :: gap, tail, by simp, rfl, fun more => ?_⟩
    rw [append_assoc, cons_append, terminated?, dropMark_of_isMark hmark (hblanks _)]
    exact hgap more
  · have hunmarked : ∀ c ∈ (trimLeft after).head?, isMark c = false := fun c hc =>
      Bool.eq_false_iff.mpr fun hc' => hmark ⟨c, hc, hc'⟩
    rw [dropMark_eq_self hunmarked] at hdrop
    subst hdrop
    refine ⟨gap, tail, rfl, rfl, fun more => ?_⟩
    have hunmarked' : ∀ c ∈ (trimLeft (gap ++ '(' :: more)).head?, isMark c = false := by
      rwa [head?_trimLeft_append_paren gap more tail]
    rw [terminated?, dropMark_eq_self hunmarked']
    exact hgap more

/-! ## Modifiers -/

/-- A run of modifiers, each with blanks behind it. -/
inductive Lead : Text → Prop where
  | nil : Lead []
  | cons {word blanks rest : Text} (mem : word ∈ modifierWords) (ne : blanks ≠ [])
      (blank : ∀ c ∈ blanks, isBlank c = true) (more : Lead rest) : Lead (word ++ (blanks ++ rest))

theorem of_mem_modifierWords {word : Text} (h : word ∈ modifierWords) :
    word ≠ [] ∧ ∀ c ∈ word, isNameStart c = true := by
  have hall : modifierWords.all (fun word => !word.isEmpty && word.all isNameStart) = true := by decide
  obtain ⟨hne, hstart⟩ := Bool.and_eq_true_iff.mp (all_eq_true.mp hall word h)
  exact ⟨by simpa using hne, all_eq_true.mp hstart⟩

theorem solid_of_mem_modifierWords : ∀ word ∈ modifierWords, ∀ c ∈ word, isBlank c = false :=
  fun _ hword c hc =>
    isBlank_eq_false_of_isWord (isWord_of_isNameStart ((of_mem_modifierWords hword).2 c hc))

theorem modifierEnds_of_dropWord? (h : dropWord? modifierWords text = some rest) :
    modifierEnds text = modifierEnds rest ++ [text] := by
  rw [modifierEnds, h]
  simp only [length_lt_of_dropWord? h, if_true]

theorem dropWord?_eq_none (h : ∀ c ∈ text.head?, isMemberStart c = false) :
    dropWord? modifierWords text = none := by
  rw [eq_none_iff_forall_ne_some]
  intro rest hrest
  obtain ⟨word, hword, c, tail, rfl, -⟩ := dropWord?_eq_some hrest
  obtain ⟨hne, hstart⟩ := of_mem_modifierWords hword
  obtain ⟨d, letters, rfl⟩ := exists_cons_of_ne_nil hne
  have hmember : isMemberStart d = true := by
    simp [isMemberStart, isPlainStart, hstart d mem_cons_self]
  rw [h d rfl] at hmember
  cases hmember

theorem Lead.exists_modifierEnds {lead : Text} (h : Lead lead)
    (htext : ∃ c, text.head? = some c ∧ isBlank c = false) :
    (∃ c, (lead ++ text).head? = some c ∧ isBlank c = false) ∧
      ∃ others, modifierEnds (lead ++ text) = modifierEnds text ++ others := by
  -- along the modifiers; the text behind each starts with no blank
  induction h with
  | nil => exact ⟨htext, [], by simp⟩
  | @cons word blanks rest hmem hne hblank _ ih =>
    obtain ⟨⟨c, hhead, hc⟩, others, hends⟩ := ih
    obtain ⟨d, tail, rfl⟩ := exists_cons_of_ne_nil hne
    have htrim : trimLeft (tail ++ (rest ++ text)) = rest ++ text := by
      rw [trimLeft_append_of_blanks fun e he => hblank e (mem_cons_of_mem d he),
        trimLeft_of_head? hhead hc]
    have hdrop : dropWord? modifierWords (word ++ (d :: tail ++ rest) ++ text) =
        some (rest ++ text) := by
      have hword := dropWord?_word solid_of_mem_modifierWords hmem (hblank d mem_cons_self)
        (tail ++ (rest ++ text))
      rw [htrim] at hword
      simpa using hword
    constructor
    · obtain ⟨hwordne, hstart⟩ := of_mem_modifierWords hmem
      obtain ⟨e, letters, rfl⟩ := exists_cons_of_ne_nil hwordne
      exact ⟨e, rfl, solid_of_mem_modifierWords _ hmem e mem_cons_self⟩
    · refine ⟨others ++ [word ++ (d :: tail ++ rest) ++ text], ?_⟩
      rw [modifierEnds_of_dropWord? hdrop, hends, append_assoc]

theorem exists_lead_of_mem_modifierEnds {named : Text} (h : named ∈ modifierEnds text) :
    ∃ lead, Lead lead ∧ text = lead ++ named := by
  induction text using modifierEnds.induct with
  | case1 text hnone =>
    rw [modifierEnds, hnone, mem_singleton] at h
    exact ⟨[], .nil, h.symm⟩
  | case2 text rest hrest hlt ih =>
    rw [modifierEnds_of_dropWord? hrest, mem_append, mem_singleton] at h
    rcases h with h | rfl
    · obtain ⟨lead, hlead, hmore⟩ := ih h
      obtain ⟨word, hword, c, tail, rfl, hc, rfl⟩ := dropWord?_eq_some hrest
      refine ⟨word ++ (c :: tail.takeWhile isBlank ++ lead), .cons hword (by simp) ?_ hlead, ?_⟩
      · intro d hd
        rcases mem_cons.mp hd with rfl | hd
        · exact hc
        · exact mem_takeWhile_imp hd
      · simp only [append_assoc, cons_append, ← hmore, takeWhile_isBlank_append_trimLeft]
    · exact ⟨[], .nil, rfl⟩
  | case3 text rest hrest hnot => exact absurd (length_lt_of_dropWord? hrest) hnot

/-- A modifier word that is the name is tried as a modifier first, and no name is found behind it. -/
theorem modifierEnds_name (name : Name isMemberStart) {after : Text}
    (hafter : ∀ c ∈ after.head?, isNameChar c = false)
    (hnext : ∀ c ∈ (trimLeft after).head?, isMemberStart c = false) :
    modifierEnds (name.text ++ after) = [name.text ++ after] ∨
      modifierEnds (name.text ++ after) = [trimLeft after, name.text ++ after] := by
  cases hdrop : dropWord? modifierWords (name.text ++ after) with
  | none =>
    left
    rw [modifierEnds, hdrop]
  | some rest =>
    right
    obtain ⟨word, hword, c, tail, htext, hc, rfl⟩ := dropWord?_eq_some hdrop
    obtain rfl : after = c :: tail := by
      rcases append_eq_append_iff.mp htext with ⟨more, rfl, rfl⟩ | ⟨more, hname, hmore⟩
      · cases more with
        | nil => rfl
        | cons d more =>
          have hd := isWord_of_isNameStart ((of_mem_modifierWords hword).2 d (by simp))
          have hfalse := hafter d rfl
          rw [isNameChar, hd, Bool.or_true] at hfalse
          cases hfalse
      · cases more with
        | nil => exact hmore.symm
        | cons d more =>
          obtain ⟨rfl, -⟩ := cons.inj hmore
          rw [isBlank_eq_false_of_mem_name name (by simp [hname])] at hc
          cases hc
    rw [trimLeft_cons_of_blank hc] at hnext ⊢
    have hends : modifierEnds (trimLeft tail) = [trimLeft tail] := by
      rw [modifierEnds, dropWord?_eq_none hnext]
    rw [modifierEnds_of_dropWord? hdrop, hends, singleton_append]

/-! ## Headers -/

def writtenType (signature : Text) (terminator : Terminator) (position : Nat) : Text :=
  if terminator = .paren then ((findParen signature position).map (resultType signature)).getD []
  else if terminator = .colon then readType signature (position + 1)
  else []

def headerAt (signature : Text) (nameStart : Nat) (name : Text) (terminator : Terminator)
    (position : Nat) : Header where
  name
  declaredType := typeOrUnknown (writtenType signature terminator position)
  terminator
  nameStart
  modifiers := words (signature.take nameStart)
  openParen := if terminator = .paren then some position else none

theorem tokenize_eq (signature : Text) : tokenize signature =
    (modifierEnds signature).findSome? fun named =>
      (splitName? isMemberStart named).bind fun found =>
        (terminated? found.2).map fun ended =>
          headerAt signature (signature.length - named.length) found.1 ended.1
            (signature.length - ended.2.length) := by
  unfold tokenize
  congr 1
  funext named
  cases splitName? isMemberStart named with
  | none => rfl
  | some found =>
    cases hended : terminated? found.2 with
    | none => simp [hended]
    | some ended =>
      obtain ⟨terminator, rest⟩ := ended
      simp only [bind_eq_bind, bind_some, hended, map_some, headerAt]
      cases terminator with
      | paren =>
        cases hclose : findParen signature (signature.length - rest.length) <;>
          simp [writtenType, hclose]
      | _ => rfl

section

variable {lead after rest : Text} {terminator : Terminator}

theorem tokenize_append (hlead : Lead lead) (name : Name isMemberStart)
    (hafter : ∀ c ∈ after.head?, isNameChar c = false)
    (h : terminated? after = some (terminator, rest)) :
    tokenize (lead ++ (name.text ++ after)) =
      some (headerAt (lead ++ (name.text ++ after)) lead.length name.text terminator
        ((lead ++ (name.text ++ after)).length - rest.length)) := by
  obtain ⟨c, letters, hcons, hopens, -⟩ := name.exists_cons
  have hhead : ∃ c, (name.text ++ after).head? = some c ∧ isBlank c = false :=
    ⟨c, by rw [hcons]; rfl, isBlank_eq_false_of_isMemberStart hopens⟩
  obtain ⟨-, others, hends⟩ := hlead.exists_modifierEnds hhead
  have hnext := isMemberStart_eq_false_of_terminated? h
  have hmiss : splitName? isMemberStart (trimLeft after) = none := by
    cases htrim : trimLeft after with
    | nil => rfl
    | cons d tail => rw [splitName?, hnext d (by rw [htrim]; rfl)]; rfl
  have hstart : (lead ++ (name.text ++ after)).length - (name.text ++ after).length = lead.length := by
    simp
  rw [tokenize_eq, hends, findSome?_append]
  rcases modifierEnds_name name hafter hnext with hends | hends
  · rw [hends, findSome?_cons, splitName?_text name hafter, bind_some, h, map_some,
      hstart]
    rfl
  · rw [hends, findSome?_cons, hmiss, bind_none, findSome?_cons,
      splitName?_text name hafter, bind_some, h, map_some, hstart]
    rfl

theorem exists_of_tokenize_eq_some {header : Header} (h : tokenize text = some header) :
    ∃ lead, ∃ name : Name isMemberStart, ∃ after terminator rest, Lead lead ∧
      text = lead ++ (name.text ++ after) ∧ (∀ c ∈ after.head?, isNameChar c = false) ∧
      terminated? after = some (terminator, rest) ∧
      header = headerAt text lead.length name.text terminator (text.length - rest.length) := by
  rw [tokenize_eq] at h
  obtain ⟨named, hmem, h⟩ := exists_of_findSome?_eq_some h
  obtain ⟨lead, hlead, rfl⟩ := exists_lead_of_mem_modifierEnds hmem
  obtain ⟨⟨found, after⟩, hfound, h⟩ := bind_eq_some_iff.mp h
  obtain ⟨⟨terminator, rest⟩, hended, rfl⟩ := map_eq_some_iff.mp h
  obtain ⟨⟨name, rfl⟩, rfl, hafter⟩ := of_splitName?_eq_some hfound
  exact ⟨lead, name, after, terminator, rest, hlead, rfl, hafter, hended, by simp⟩

end

/-- A method is read up to the parenthesis of its parameter list, whatever follows. -/
theorem exists_front_of_openParen {header : Header} {start : Nat} (h : tokenize text = some header)
    (hopen : header.openParen = some start) :
    ∃ front behind name tail, text = front ++ behind ++ '(' :: tail ∧ (front ++ behind).length = start ∧
      ∀ other, tokenize (front ++ behind ++ '(' :: other) =
        some (headerAt (front ++ behind ++ '(' :: other) front.length name .paren start) := by
  obtain ⟨front, name, after, terminator, rest, hfront, rfl, hafter, hterminated, rfl⟩ :=
    exists_of_tokenize_eq_some h
  obtain ⟨rfl, hstart⟩ := ite_none_right_eq_some.mp hopen
  obtain ⟨gap, tail, rfl, rfl, hgap⟩ := exists_terminated?_paren hterminated
  have hplace : ∀ other, (front ++ (name.text ++ (gap ++ '(' :: other))).length -
      ('(' :: other).length = (front ++ (name.text ++ gap)).length := by
    intro other
    simp only [length_append, length_cons]
    omega
  rw [hplace, some.injEq] at hstart
  refine ⟨front, name.text ++ gap, name.text, tail, by simp, hstart, fun other => ?_⟩
  have hnext : ∀ c ∈ (gap ++ '(' :: other).head?, isNameChar c = false := by
    cases gap with
    | nil =>
      intro c hc
      cases hc
      decide
    | cons d gap => exact hafter
  have hfound := tokenize_append hfront name hnext (hgap other)
  rw [hplace, hstart] at hfound
  simpa using hfound

end SourceAtlas.TypeScript
