import SourceAtlas.Proofs.Declaration.Truncation

/-!
# C# headers in a cut text

The clauses of a header may start behind its name, behind the type parameters or behind the parameter
list. A place that lies in the front of a text is found there as in the whole text, and a clause with
a character in that front is read there.
-/

namespace SourceAtlas.CSharp

open List Option

variable {nested : Bool} {text rest more code clause : Text} {last mark : Char}
  {place : Char × Text} {before : Option Char} {header : TypeHeader}

theorem typeParametersEnd_of_append
    (h : typeParametersEnd nested (text ++ more) = some (rest ++ more)) :
    typeParametersEnd nested text = some rest := by
  induction text generalizing nested with
  | nil =>
    have hle := (typeParametersEnd_suffix h).length_le
    rw [nil_append, length_cons, length_append] at hle
    omega
  | cons c text ih =>
    rw [cons_append, typeParametersEnd] at h
    rw [typeParametersEnd]
    split_ifs at h ⊢ with hopen hnested hclose hstop
    · exact ih h
    · exact ih h
    · rw [append_cancel_right (some.inj h)]
    · exact ih h

theorem local_dropTypeParameters? : Local dropTypeParameters? := by
  intro text more rest h
  obtain ⟨tail, htrim, hend⟩ := dropTypeParameters?_eq_some_iff.mp h
  have htail : tail <:+ text ++ more := suffix_of_trimLeft_eq_cons htrim
  obtain ⟨inner, rfl, -, -⟩ := exists_append_of_suffix htail
    ((suffix_cons '>' _).trans (typeParametersEnd_suffix hend))
  have hinner : trimLeft text = '<' :: inner := trimLeft_of_append htrim
  exact dropTypeParameters?_eq_some_iff.mpr ⟨inner, hinner, typeParametersEnd_of_append hend⟩

theorem local_dropParameterList? : Local dropParameterList? := by
  intro text more rest h
  obtain ⟨tail, c, htrim, hdrop⟩ := dropParameterList?_eq_some_iff.mp h
  have htail : tail <:+ text ++ more := suffix_of_trimLeft_eq_cons htrim
  have hrest : rest ++ more <:+ tail := by
    have hcons : c :: (rest ++ more) <:+ tail := hdrop ▸ dropWhile_suffix _
    exact (suffix_cons c _).trans hcons
  obtain ⟨inner, rfl, -, -⟩ := exists_append_of_suffix htail hrest
  have hinner : trimLeft text = '(' :: inner := trimLeft_of_append htrim
  exact dropParameterList?_eq_some_iff.mpr ⟨inner, c, hinner, dropWhile_of_append hdrop⟩

theorem clauseStarts_of_append (h : (mark, rest ++ more) ∈ clauseStarts last (text ++ more)) :
    (mark, rest) ∈ clauseStarts last text := by
  obtain ⟨⟨c, generic⟩, hgeneric, hplace⟩ := mem_clauseStarts.mp h
  -- the place behind the type parameters leaves `more` as well
  obtain ⟨inner, rfl, hinner⟩ : ∃ inner, generic = inner ++ more ∧
      ((∃ tail, dropTypeParameters? text = some tail ∧ ('>', tail) = (c, inner)) ∨
        (c, inner) = (last, text)) := by
    rcases hgeneric with ⟨tail, htail, heq⟩ | heq
    · cases heq
      have hkept : rest ++ more <:+ generic := by
        rcases hplace with ⟨after, hafter, heq⟩ | heq
        · cases heq
          exact dropParameterList?_suffix hafter
        · cases heq
          exact suffix_rfl
      obtain ⟨inner, rfl, -, -⟩ := exists_append_of_suffix (dropTypeParameters?_suffix htail) hkept
      exact ⟨inner, rfl, Or.inl ⟨inner, local_dropTypeParameters? htail, rfl⟩⟩
    · cases heq
      exact ⟨text, rfl, Or.inr rfl⟩
  refine mem_clauseStarts.mpr ⟨(c, inner), hinner, ?_⟩
  rcases hplace with ⟨after, hafter, heq⟩ | heq
  · cases heq
    exact Or.inl ⟨rest, local_dropParameterList? hafter, rfl⟩
  · obtain ⟨rfl, hsame⟩ := Prod.mk.inj heq
    exact Or.inr (by rw [append_cancel_right hsame])

theorem namedEnds_of_append (hmore : FollowsCode more)
    (h : (mark, rest ++ more) ∈ namedEnds (text ++ more)) : (mark, rest) ∈ namedEnds text := by
  obtain ⟨c, hc, hname, hplace⟩ := mem_namedEnds.mp h
  have hword : isWord c = true := isWord_of_isNameStart hname
  cases text with
  | nil =>
    rw [hmore.isWord_eq_false c hc] at hword
    cases hword
  | cons d text =>
    obtain rfl : d = c := some.inj hc
    have hdrop : (d :: text ++ more).dropWhile isWord = (d :: text).dropWhile isWord ++ more :=
      dropWhile_append_right hmore.isWord_eq_false _
    have htake : (d :: text ++ more).takeWhile isWord = (d :: text).takeWhile isWord :=
      takeWhile_append_right hmore.isWord_eq_false _
    rw [hdrop, htake] at hplace
    exact mem_namedEnds.mpr ⟨d, rfl, hname, clauseStarts_of_append hplace⟩

theorem headEnds_of_append (hmore : FollowsCode more)
    (h : (mark, rest ++ more) ∈ headEnds (text ++ more)) : (mark, rest) ∈ headEnds text := by
  obtain ⟨named, ⟨keyword, kind, after, hkeyword, hnamed⟩, hplace⟩ := mem_headEnds.mp h
  have hkept : rest ++ more <:+ named := namedEnds_suffix hplace
  have hafter := suffix_of_second hnamed
  -- each reader leaves `more`, so each of them reads the shorter text alike
  obtain ⟨after, rfl, hshort⟩ := keywordAt?_skipModifiers_of_append hkeyword (hkept.trans hafter)
  obtain ⟨named, rfl, -, -⟩ := exists_append_of_suffix hafter hkept
  refine mem_headEnds.mpr ⟨named, ⟨keyword, kind, after, hshort, ?_⟩, namedEnds_of_append hmore hplace⟩
  exact hnamed.imp (fun hword => local_dropWord? _ hword) append_cancel_right

theorem isSome_typeHeaderAt? (hplace : place ∈ headEnds text)
    (h : (clausesAt? place.1 place.2).isSome) : (typeHeaderAt? none text).isSome := by
  obtain ⟨named, ⟨keyword, kind, after, hkeyword, hnamed⟩, hplace⟩ := mem_headEnds.mp hplace
  obtain ⟨c, hc, hname, hplace⟩ := mem_namedEnds.mp hplace
  have hheader : (namedHeader? named).isSome := by
    obtain ⟨tail, rfl⟩ := head?_eq_some_iff.mp hc
    unfold namedHeader?
    simp only [hname, if_true, drop_length_takeWhile]
    rw [findSome?_isSome_iff]
    exact ⟨place, hplace, by rwa [isSome_map]⟩
  have hfound : ((dropWord? ["class".toList, "struct".toList] after).toList ++ [after]).findSome?
      namedHeader? |>.isSome := by
    rw [findSome?_isSome_iff]
    refine ⟨named, ?_, hheader⟩
    simpa only [mem_append, mem_toList, mem_singleton] using hnamed
  obtain ⟨⟨name, bases, rest⟩, hfound⟩ := isSome_iff_exists.mp hfound
  unfold typeHeaderAt?
  simp only [all_none, if_true, hkeyword, bind, bind_some, hfound, isSome_some]

theorem isSome_clausesAt?_iff :
    (clausesAt? last text).isSome ↔ (basesAt? text).isSome ∨ closesHeader last text = true := by
  unfold clausesAt?
  split
  · next hbases => simp [hbases]
  · next hbases => simp [hbases]

theorem endsBases_eq_false {c : Char} (h : isBlank c = true) : endsBases c = false := by
  by_contra hends
  simp only [endsBases, Bool.or_eq_false_iff, beq_eq_false_iff_ne, not_and_or, not_not] at hends
  rcases hends with rfl | rfl <;> cases h

theorem standsWord_of_append {word : Text} (hword : ∀ c ∈ word, isWord c = true)
    (hmore : FollowsCode more) (h : standsWord word (code ++ more) = true) :
    standsWord word code = true := by
  unfold standsWord at h
  have hprefix : word <+: code ++ more := by
    by_contra hnot
    rw [dropHead?_eq_none_iff.mpr hnot] at h
    cases h
  obtain ⟨rest, rfl⟩ := hmore.prefix_of_append hword hprefix
  have hhead : ∀ rest : Text, dropHead? word (word ++ rest) = some rest :=
    fun rest => dropHead?_eq_some_iff.mpr rfl
  unfold standsWord
  rw [append_assoc, hhead] at h
  rw [hhead]
  cases rest with
  | nil => rfl
  | cons c rest => exact h

/-- Whether a header closes depends on the blanks that come next and on the character behind them,
except for the word that opens a constraint. -/
theorem closesHeader_congr {other tail : Text} {c : Char}
    (hgap : other.takeWhile isBlank = text.takeWhile isBlank) (htext : trimLeft text = c :: rest)
    (hother : trimLeft other = c :: tail)
    (hword : standsWord "where".toList (c :: rest) = true →
      standsWord "where".toList (c :: tail) = true)
    (h : closesHeader last text = true) : closesHeader last other = true := by
  unfold closesHeader at h ⊢
  rw [htext] at h
  rw [hgap, hother]
  simp only [Bool.or_eq_true] at h ⊢
  rcases h with hbreak | h
  · exact Or.inl hbreak
  · right
    split at h
    · next heq => cases heq
    · next heq =>
      cases heq
      rfl
    · next heq =>
      cases heq
      rfl
    · rw [Bool.and_eq_true] at h
      split
      · next heq => cases heq
      · rfl
      · rfl
      · rw [hword h.1, h.2]
        rfl

/-- A header that closes in code closes there without what follows the code. -/
theorem closesHeader_of_append (hcode : EndsInCode code) (hmore : FollowsCode more)
    (h : closesHeader last (code ++ more) = true) : closesHeader last code = true := by
  by_cases hne : code = []
  · rw [hne]
    rfl
  · obtain ⟨c, rest, htrim, hlonger, hgap⟩ := hcode.trimLeft_append hne more
    refine closesHeader_congr hgap.symm hlonger htrim (fun hword => ?_) h
    exact standsWord_of_append (all_eq_true.mp (by decide)) hmore hword

theorem isSome_basesAt?_of_append (hcode : EndsInCode code)
    (h : basesAt? (code ++ more) = some (clause, rest))
    (hlength : more.length < clause.length + rest.length) : (basesAt? code).isSome := by
  have hne : code ≠ [] := by
    rintro rfl
    have hle := (basesAt?_extent h).2.length_le
    rw [nil_append, length_append] at hle
    omega
  obtain ⟨c, tail, htrim, hlonger, -⟩ := hcode.trimLeft_append hne more
  obtain ⟨after, hcolon⟩ := exists_colon_of_basesAt? (isSome_of_eq_some h)
  obtain ⟨rfl, rfl⟩ := cons.inj (hlonger.symm.trans hcolon)
  rw [basesAt?_of_colon hlonger] at h
  rw [basesAt?_of_colon htrim]
  exact isSome_clauseBehind_of_append (fun _ => endsBases_eq_false) h hlength

theorem isSome_clausesAt?_of_append {bases : Option Text} (hcode : EndsInCode code)
    (hmore : FollowsCode more) (h : clausesAt? last (code ++ more) = some (bases, rest))
    (hlength : more.length ≤ rest.length) :
    (clausesAt? last code).isSome := by
  rw [isSome_clausesAt?_iff]
  obtain ⟨⟨clause, rfl, hbases⟩ | ⟨rfl, -⟩, hcloses⟩ := clausesAt?_eq_some h
  · left
    have hpos := length_pos_iff.mpr (basesAt?_extent hbases).1
    exact isSome_basesAt?_of_append hcode hbases (by omega)
  · exact Or.inr (closesHeader_of_append hcode hmore (hcloses rfl))

theorem isSome_typeHeaderAt?_of_append (hcode : EndsInCode code) (hmore : FollowsCode more)
    (h : typeHeaderAt? before (code ++ more) = some header)
    (hlength : more.length ≤ header.rest.length) : (typeHeaderAt? none code).isSome := by
  obtain ⟨named, ⟨last, start⟩, hnamed, hplace, hclauses, -⟩ := exists_of_typeHeaderAt? h
  have hplace := mem_headEnds.mpr ⟨named, hnamed, hplace⟩
  have hsuffix : start <:+ code ++ more := (headEnds_extent hplace).1
  have hle : more.length ≤ start.length := hlength.trans (clausesAt?_extent hclauses).1.length_le
  obtain ⟨inner, rfl, hinner⟩ := exists_append_of_length_le hsuffix hle
  exact isSome_typeHeaderAt? (headEnds_of_append hmore hplace)
    (isSome_clausesAt?_of_append (hcode.of_suffix hinner) hmore hclauses hlength)

theorem isSome_typeHeaderAt?_of_mem_headEnds (hmore : FollowsCode more)
    (h : (last, more) ∈ headEnds (code ++ more)) :
    (typeHeaderAt? none code).isSome := by
  have hplace : (last, []) ∈ headEnds code := headEnds_of_append hmore h
  apply isSome_typeHeaderAt? hplace
  rw [isSome_clausesAt?_iff]
  exact Or.inr rfl

theorem isSome_typeHeaderAt?_of_basesAt? {start : Text} (hcode : EndsInCode code)
    (hmore : FollowsCode more) (hplace : (last, start) ∈ headEnds (code ++ more))
    (h : basesAt? start = some (clause, rest))
    (hlength : more.length < clause.length + rest.length) : (typeHeaderAt? none code).isSome := by
  have hsuffix : start <:+ code ++ more := (headEnds_extent hplace).1
  have hle := (basesAt?_extent h).2.length_le
  rw [length_append] at hle
  obtain ⟨inner, rfl, hinner⟩ := exists_append_of_length_le hsuffix (by omega)
  apply isSome_typeHeaderAt? (headEnds_of_append hmore hplace)
  rw [isSome_clausesAt?_iff]
  exact Or.inl (isSome_basesAt?_of_append (hcode.of_suffix hinner) h hlength)

end SourceAtlas.CSharp
