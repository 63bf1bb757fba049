import SourceAtlas.Proofs.CSharp.TruncatedHeader
import SourceAtlas.Proofs.TypeScript.TruncatedHeader

/-!
# Type headers in front of an open parenthesis

To the readers of a type header an open parenthesis ends a word and a run of blanks. So what a reader finds
in a text that ends with one, it finds in every longer text too, with the longer rest behind it: a text that
is a type header up to an open parenthesis is a type header whatever follows.
-/

namespace SourceAtlas

open List Option

variable {rest word start text : Text} {choices : List Text} {last : Char} {place : Char × Text}

/-! ## Readers in front of an open parenthesis -/

section

variable {text : Text} (hopen : text.getLast? = some '(')

include hopen

theorem getLast?_behind {c : Char} (hsuffix : c :: rest <:+ text) (hc : c ≠ '(') :
    rest.getLast? = some '(' := by
  rw [← getLast?_of_suffix hsuffix (cons_ne_nil c rest)] at hopen
  rw [← hopen]
  apply getLast?_of_suffix (suffix_cons c rest)
  rintro rfl
  exact hc (some.inj hopen)

theorem trimLeft_append_open (more : Text) : trimLeft (text ++ more) = trimLeft text ++ more :=
  trimLeft_append_of_getLast? hopen (by decide) more

theorem getLast?_trimLeft_open : (trimLeft text).getLast? = some '(' :=
  getLast?_trimLeft hopen (by decide)

theorem skipBlanks?_append_open (more : Text) :
    skipBlanks? (text ++ more) = (skipBlanks? text).map (· ++ more) := by
  cases text with
  | nil => cases hopen
  | cons c rest =>
    by_cases hc : isBlank c = true
    · have hrest : rest.getLast? = some '(' :=
        getLast?_behind hopen suffix_rfl (ne_of_kind hc (by decide))
      rw [cons_append, skipBlanks?, skipBlanks?, if_pos hc, if_pos hc, trimLeft_append_open hrest,
        map_some]
    · rw [cons_append, skipBlanks?, skipBlanks?, if_neg hc, if_neg hc, map_none]

theorem dropHead?_append_open (hword : '(' ∉ word) (more : Text) :
    dropHead? word (text ++ more) = (dropHead? word text).map (· ++ more) := by
  cases hhead : dropHead? word text with
  | some rest =>
    rw [map_some, dropHead?_eq_some_iff, dropHead?_eq_some_iff.mp hhead, append_assoc]
  | none =>
    rw [map_none, dropHead?_eq_none_iff]
    intro hlonger
    rcases prefix_or_prefix_of_prefix hlonger (prefix_append text more) with hshort | hlong
    · exact dropHead?_eq_none_iff.mp hhead hshort
    · -- the word would hold the parenthesis
      exact hword (hlong.subset (mem_of_mem_getLast? hopen))

theorem getLast?_of_dropHead? (hword : '(' ∉ word) (h : dropHead? word text = some rest) :
    rest.getLast? = some '(' := by
  obtain rfl := dropHead?_eq_some_iff.mp h
  have hne : rest ≠ [] := by
    rintro rfl
    rw [append_nil] at hopen
    exact hword (mem_of_mem_getLast? hopen)
  rw [← hopen, getLast?_of_suffix (suffix_append word rest) hne]

theorem dropWord?_append_open (hchoices : ∀ word ∈ choices, '(' ∉ word) (more : Text) :
    dropWord? choices (text ++ more) = (dropWord? choices text).map (· ++ more) := by
  induction choices with
  | nil => rfl
  | cons word choices ih =>
    rw [forall_mem_cons] at hchoices
    have hhead : (dropHead? word (text ++ more)).bind skipBlanks? =
        ((dropHead? word text).bind skipBlanks?).map (· ++ more) := by
      rw [dropHead?_append_open hopen hchoices.1]
      cases hrest : dropHead? word text with
      | none => rfl
      | some rest => exact skipBlanks?_append_open (getLast?_of_dropHead? hopen hchoices.1 hrest) more
    rw [dropWord?, dropWord?, findSome?_cons, findSome?_cons, hhead]
    cases (dropHead? word text).bind skipBlanks? with
    | none => exact ih hchoices.2
    | some rest => rfl

theorem getLast?_of_dropWord? (h : dropWord? choices text = some rest) :
    rest.getLast? = some '(' := by
  obtain ⟨word, -, c, tail, htext, hc, rfl⟩ := dropWord?_eq_some h
  exact getLast?_trimLeft_open
    (getLast?_behind hopen (htext ▸ suffix_append word _) (ne_of_kind hc (by decide)))

end

section

variable {modifiers : List Text} {keywords : List (Text × TypeKind)} {text : Text}

theorem skipModifiers_append_open (hmodifiers : ∀ word ∈ modifiers, '(' ∉ word)
    (hopen : text.getLast? = some '(') (more : Text) :
    skipModifiers modifiers (text ++ more) = skipModifiers modifiers text ++ more ∧
      (skipModifiers modifiers text).getLast? = some '(' := by
  induction hlength : text.length using Nat.strong_induction_on generalizing text with
  | _ length ih =>
    subst hlength
    rw [skipModifiers, skipModifiers.eq_def modifiers text, dropWord?_append_open hopen hmodifiers]
    cases hword : dropWord? modifiers text with
    | none => exact ⟨rfl, hopen⟩
    | some rest =>
      have hlt := length_lt_of_dropWord? hword
      have hlonger : (rest ++ more).length < (text ++ more).length := by
        rw [length_append, length_append]
        omega
      simp only [map_some, hlonger, hlt, if_true]
      exact ih _ hlt (getLast?_of_dropWord? hopen hword) rfl

theorem keywordAt?_append_open (hkeywords : ∀ entry ∈ keywords, '(' ∉ entry.1)
    (hopen : text.getLast? = some '(') {keyword after : Text} {kind : TypeKind}
    (h : keywordAt? keywords text = some (keyword, kind, after)) (more : Text) :
    keywordAt? keywords (text ++ more) = some (keyword, kind, after ++ more) ∧
      after.getLast? = some '(' := by
  induction keywords with
  | nil => cases h
  | cons entry keywords ih =>
    obtain ⟨word, wordKind⟩ := entry
    rw [forall_mem_cons] at hkeywords
    have hchoices : ∀ choice ∈ [word], '(' ∉ choice := by simpa using hkeywords.1
    rw [keywordAt?, findSome?_cons] at h ⊢
    simp only [dropWord?_append_open hopen hchoices] at h ⊢
    cases hword : dropWord? [word] text with
    | none =>
      rw [hword] at h
      exact ih hkeywords.2 h
    | some rest =>
      rw [hword] at h
      cases h
      exact ⟨rfl, getLast?_of_dropWord? hopen hword⟩

end

namespace CSharp

theorem typeParametersEnd_append {nested : Bool}
    (h : typeParametersEnd nested text = some rest) (more : Text) :
    typeParametersEnd nested (text ++ more) = some (rest ++ more) := by
  induction text generalizing nested with
  | nil => cases h
  | cons c text ih =>
    rw [typeParametersEnd] at h
    rw [cons_append, typeParametersEnd]
    split_ifs at h ⊢ with hangle hnested hclose hnested hstop
    · exact ih h
    · exact ih h
    · cases h
      rfl
    · exact ih h

theorem dropTypeParameters?_append_open (hopen : text.getLast? = some '(')
    (h : dropTypeParameters? text = some rest) (more : Text) :
    dropTypeParameters? (text ++ more) = some (rest ++ more) ∧ rest.getLast? = some '(' := by
  obtain ⟨tail, htrim, hend⟩ := dropTypeParameters?_eq_some_iff.mp h
  have htail : tail.getLast? = some '(' :=
    getLast?_behind hopen (htrim ▸ trimLeft_suffix text) (by decide)
  refine ⟨dropTypeParameters?_eq_some_iff.mpr ⟨tail ++ more, ?_, typeParametersEnd_append hend more⟩,
    getLast?_behind htail (typeParametersEnd_suffix hend) (by decide)⟩
  rw [trimLeft_append_open hopen, htrim, cons_append]

theorem dropParameterList?_append_open (hopen : text.getLast? = some '(')
    (h : dropParameterList? text = some rest) (more : Text) :
    dropParameterList? (text ++ more) = some (rest ++ more) ∧ rest.getLast? = some '(' := by
  obtain ⟨tail, c, htrim, hdrop⟩ := dropParameterList?_eq_some_iff.mp h
  have hc : c = ')' := by simpa using of_dropWhile_eq_cons hdrop
  have hrest : c :: rest <:+ text :=
    (hdrop ▸ dropWhile_suffix _ : c :: rest <:+ tail).trans (suffix_of_trimLeft_eq_cons htrim)
  refine ⟨dropParameterList?_eq_some_iff.mpr ⟨tail ++ more, c, ?_, ?_⟩,
    getLast?_behind hopen hrest (by rw [hc]; decide)⟩
  · rw [trimLeft_append_open hopen, htrim, cons_append]
  · rw [dropWhile_append, hdrop]
    rfl

theorem clauseStarts_append_open (hopen : text.getLast? = some '(')
    (h : place ∈ clauseStarts last text) (more : Text) :
    (place.1, place.2 ++ more) ∈ clauseStarts last (text ++ more) ∧ place.2.getLast? = some '(' := by
  obtain ⟨generic, hgeneric, hplace⟩ := mem_clauseStarts.mp h
  have hlonger : ((∃ rest, dropTypeParameters? (text ++ more) = some rest ∧
      ('>', rest) = (generic.1, generic.2 ++ more)) ∨ (generic.1, generic.2 ++ more) = (last, text ++ more)) ∧
      generic.2.getLast? = some '(' := by
    rcases hgeneric with ⟨rest, hrest, rfl⟩ | rfl
    · obtain ⟨happend, hlast⟩ := dropTypeParameters?_append_open hopen hrest more
      exact ⟨.inl ⟨rest ++ more, happend, rfl⟩, hlast⟩
    · exact ⟨.inr rfl, hopen⟩
  rw [mem_clauseStarts]
  rcases hplace with ⟨rest, hrest, rfl⟩ | rfl
  · obtain ⟨happend, hlast⟩ := dropParameterList?_append_open hlonger.2 hrest more
    exact ⟨⟨(generic.1, generic.2 ++ more), hlonger.1, .inl ⟨rest ++ more, happend, rfl⟩⟩, hlast⟩
  · exact ⟨⟨(place.1, place.2 ++ more), hlonger.1, .inr rfl⟩, hlonger.2⟩

theorem namedEnds_append_open (hopen : text.getLast? = some '(')
    (h : place ∈ namedEnds text) (more : Text) :
    (place.1, place.2 ++ more) ∈ namedEnds (text ++ more) ∧ place.2.getLast? = some '(' := by
  obtain ⟨c, hhead, hstart, hplace⟩ := mem_namedEnds.mp h
  have hrest : (text.dropWhile isWord).getLast? = some '(' := getLast?_dropWhile hopen (by decide)
  obtain ⟨hlonger, hlast⟩ := clauseStarts_append_open hrest hplace more
  refine ⟨mem_namedEnds.mpr ⟨c, ?_, hstart, ?_⟩, hlast⟩
  · rw [head?_append, hhead, some_or]
  · rwa [takeWhile_append_of_getLast? ⟨'(', hopen, by decide⟩,
      dropWhile_append_of_getLast? hopen (by decide)]

theorem headEnds_append_open (hopen : text.getLast? = some '(')
    (h : place ∈ headEnds text) (more : Text) :
    (place.1, place.2 ++ more) ∈ headEnds (text ++ more) ∧ place.2.getLast? = some '(' := by
  obtain ⟨named, ⟨keyword, kind, after, hkeyword, hnamed⟩, hplace⟩ := mem_headEnds.mp h
  have hmodifiers : ∀ word ∈ typeModifiers, '(' ∉ word := by decide
  have hkeywords : ∀ entry ∈ typeKeywords, '(' ∉ entry.1 := by decide
  have hwords : ∀ word ∈ ["class".toList, "struct".toList], '(' ∉ word := by decide
  obtain ⟨hskip, hskipped⟩ := skipModifiers_append_open hmodifiers hopen more
  obtain ⟨hlonger, hafter⟩ := keywordAt?_append_open hkeywords hskipped hkeyword more
  have hbehind : (dropWord? ["class".toList, "struct".toList] (after ++ more) = some (named ++ more) ∨
      named ++ more = after ++ more) ∧ named.getLast? = some '(' := by
    rcases hnamed with hword | rfl
    · refine ⟨.inl ?_, getLast?_of_dropWord? hafter hword⟩
      rw [dropWord?_append_open hafter hwords, hword, map_some]
    · exact ⟨.inr rfl, hafter⟩
  obtain ⟨hends, hlast⟩ := namedEnds_append_open hbehind.2 hplace more
  exact ⟨mem_headEnds.mpr ⟨named ++ more, ⟨keyword, kind, after ++ more, by rw [hskip, hlonger],
    hbehind.1⟩, hends⟩, hlast⟩

theorem standsWord_append_open (hword : '(' ∉ word) (hopen : text.getLast? = some '(')
    (h : standsWord word text = true) (more : Text) : standsWord word (text ++ more) = true := by
  unfold standsWord at h ⊢
  rw [dropHead?_append_open hopen hword]
  cases hrest : dropHead? word text with
  | none =>
    rw [hrest] at h
    cases h
  | some rest =>
    obtain ⟨c, tail, rfl⟩ := exists_cons_of_ne_nil (show rest ≠ [] by
      rintro rfl
      cases getLast?_of_dropHead? hopen hword hrest)
    rw [hrest] at h
    exact h

theorem closesHeader_append_open (hopen : text.getLast? = some '(')
    (h : closesHeader last text = true) (more : Text) :
    closesHeader last (text ++ more) = true := by
  obtain ⟨c, rest, htrim⟩ := exists_cons_of_ne_nil (trimLeft_ne_nil_of_getLast? hopen (by decide))
  have hlast := getLast?_trimLeft_open hopen
  have hlonger := trimLeft_append_open hopen more
  rw [htrim] at hlast hlonger
  refine closesHeader_congr ?_ htrim hlonger (fun hword => ?_) h
  · exact takeWhile_append_of_getLast? ⟨'(', hopen, by decide⟩ more
  · exact standsWord_append_open (by decide) hlast hword more

theorem isSome_clausesAt?_append_open (hopen : text.getLast? = some '(')
    (h : (clausesAt? last text).isSome) (more : Text) :
    (clausesAt? last (text ++ more)).isSome := by
  rw [isSome_clausesAt?_iff] at h ⊢
  rcases h with hbases | hcloses
  · left
    obtain ⟨after, hcolon⟩ := exists_colon_of_basesAt? hbases
    have hlonger : trimLeft (text ++ more) = ':' :: (after ++ more) := by
      rw [trimLeft_append_open hopen, hcolon, cons_append]
    rw [basesAt?_of_colon hcolon, isSome_clauseBehind_iff fun _ => endsBases_eq_false] at hbases
    obtain ⟨c, tail, rfl, hc⟩ := hbases
    rw [basesAt?_of_colon hlonger, isSome_clauseBehind_iff fun _ => endsBases_eq_false]
    exact ⟨c, tail ++ more, rfl, hc⟩
  · exact .inr (closesHeader_append_open hopen hcloses more)

theorem isSome_typeHeaderAt?_append_open (hopen : text.getLast? = some '(')
    (h : (typeHeaderAt? none text).isSome) (more : Text) : (typeHeaderAt? none (text ++ more)).isSome := by
  obtain ⟨header, hheader⟩ := isSome_iff_exists.mp h
  obtain ⟨named, place, hnamed, hplace, hclauses, -⟩ := exists_of_typeHeaderAt? hheader
  obtain ⟨hlonger, hlast⟩ :=
    headEnds_append_open hopen (mem_headEnds.mpr ⟨named, hnamed, hplace⟩) more
  exact isSome_typeHeaderAt? hlonger (isSome_clausesAt?_append_open hlast (by rw [hclauses]; rfl) more)

end CSharp

namespace TypeScript

theorem splitName?_append_open {opens : Char → Bool} (hopens : opens '(' = false) {name : Text}
    (hopen : text.getLast? = some '(') (h : splitName? opens text = some (name, rest))
    (more : Text) :
    splitName? opens (text ++ more) = some (name, rest ++ more) ∧ rest.getLast? = some '(' := by
  cases text with
  | nil => cases hopen
  | cons c text =>
    rw [splitName?] at h
    split at h
    · next hc =>
      cases h
      have htext : text.getLast? = some '(' :=
        getLast?_behind hopen suffix_rfl (ne_of_kind hc hopens)
      refine ⟨?_, getLast?_dropWhile htext (by decide)⟩
      rw [cons_append, splitName?, if_pos hc, takeWhile_append_of_getLast? ⟨'(', htext, by decide⟩,
        dropWhile_append_of_getLast? htext (by decide)]
    · cases h

theorem headerParameterEnds_append (h : rest ∈ headerParameterEnds text) (more : Text) :
    rest ++ more ∈ headerParameterEnds (text ++ more) := by
  induction text with
  | nil => cases h
  | cons c text ih =>
    rw [headerParameterEnds] at h
    rw [cons_append, headerParameterEnds]
    split_ifs at h ⊢ with hstop hangle
    · cases h
    · rcases mem_cons.mp h with rfl | hlater
      · exact mem_cons_self
      · exact mem_cons_of_mem _ (ih hlater)
    · exact ih h

theorem clauseStarts_append_open (hopen : text.getLast? = some '(')
    (h : start ∈ clauseStarts text) (more : Text) :
    start ++ more ∈ clauseStarts (text ++ more) ∧ start.getLast? = some '(' := by
  rw [mem_clauseStarts]
  rcases mem_clauseStarts.mp h with ⟨tail, htrim, hstart⟩ | rfl
  · have htail : tail.getLast? = some '(' :=
      getLast?_behind hopen (htrim ▸ trimLeft_suffix text) (by decide)
    refine ⟨.inl ⟨tail ++ more, ?_, headerParameterEnds_append hstart more⟩,
      getLast?_behind htail (headerParameterEnds_suffix hstart) (by decide)⟩
    rw [trimLeft_append_open hopen, htrim, cons_append]
  · exact ⟨.inr rfl, hopen⟩

theorem headEnds_append_open (hopen : text.getLast? = some '(')
    (h : start ∈ headEnds text) (more : Text) :
    start ++ more ∈ headEnds (text ++ more) ∧ start.getLast? = some '(' := by
  obtain ⟨name, afterName, ⟨keyword, kind, after, hkeyword, hname⟩, hstart⟩ := mem_headEnds.mp h
  have hmodifiers : ∀ word ∈ typeModifiers, '(' ∉ word := by decide
  have hkeywords : ∀ entry ∈ typeKeywords, '(' ∉ entry.1 := by decide
  obtain ⟨hskip, hskipped⟩ := skipModifiers_append_open hmodifiers hopen more
  obtain ⟨hlonger, hafter⟩ := keywordAt?_append_open hkeywords hskipped hkeyword more
  obtain ⟨hsplit, hbehind⟩ := splitName?_append_open (by decide) hafter hname more
  obtain ⟨hends, hlast⟩ := clauseStarts_append_open hbehind hstart more
  exact ⟨mem_headEnds.mpr ⟨name, afterName ++ more, ⟨keyword, kind, after ++ more,
    by rw [hskip, hlonger], hsplit⟩, hends⟩, hlast⟩

theorem isSome_clauseAt?_append_open {stops : Text → Bool}
    (hopen : text.getLast? = some '(') (h : (clauseAt? word stops text).isSome) (more : Text) :
    (clauseAt? word stops (text ++ more)).isSome := by
  obtain ⟨blank, tail, hskip, hblank⟩ := exists_word_of_clauseAt? h
  have hlonger : skipBlanks? (text ++ more) = some (word ++ blank :: (tail ++ more)) := by
    rw [skipBlanks?_append_open hopen, hskip, map_some, append_assoc, cons_append]
  rw [clauseAt?_of_word hskip hblank, isSome_clauseBehind_iff fun _ => stopsClause_eq_false] at h
  obtain ⟨c, rest, rfl, hc⟩ := h
  rw [clauseAt?_of_word hlonger hblank, isSome_clauseBehind_iff fun _ => stopsClause_eq_false]
  exact ⟨c, rest ++ more, rfl, hc⟩

theorem closesHeader_append_open (hopen : text.getLast? = some '(')
    (h : closesHeader text = true) (more : Text) : closesHeader (text ++ more) = true := by
  obtain ⟨c, rest, htrim⟩ := exists_cons_of_ne_nil (trimLeft_ne_nil_of_getLast? hopen (by decide))
  unfold closesHeader at h ⊢
  rw [takeWhile_append_of_getLast? ⟨'(', hopen, by decide⟩, trimLeft_append_open hopen]
  rw [htrim] at h ⊢
  exact h

theorem isSome_typeHeaderAt?_append_open (hopen : text.getLast? = some '(')
    (h : (typeHeaderAt? none text).isSome) (more : Text) : (typeHeaderAt? none (text ++ more)).isSome := by
  obtain ⟨header, hheader⟩ := isSome_iff_exists.mp h
  obtain ⟨after, start, hnamed, hstart, hclauses⟩ := exists_of_typeHeaderAt? hheader
  obtain ⟨hlonger, hlast⟩ :=
    headEnds_append_open hopen (mem_headEnds.mpr ⟨_, after, hnamed, hstart⟩) more
  refine isSome_typeHeaderAt? hlonger (isSome_clausesAt?_iff.mpr ?_)
  rcases isSome_clausesAt?_iff.mp (isSome_of_eq_some hclauses) with hbases | hinterfaces | hcloses
  · exact .inl (isSome_clauseAt?_append_open hlast hbases more)
  · exact .inr (.inl (isSome_clauseAt?_append_open hlast hinterfaces more))
  · exact .inr (.inr (closesHeader_append_open hlast hcloses more))

end TypeScript

theorem Dialect.isSome_typeHeaderAt?_append_open (dialect : Dialect)
    (hopen : text.getLast? = some '(') (h : (dialect.typeHeaderAt? none text).isSome) (more : Text) :
    (dialect.typeHeaderAt? none (text ++ more)).isSome := by
  cases dialect with
  | csharp => exact CSharp.isSome_typeHeaderAt?_append_open hopen h more
  | typescript => exact TypeScript.isSome_typeHeaderAt?_append_open hopen h more

end SourceAtlas
