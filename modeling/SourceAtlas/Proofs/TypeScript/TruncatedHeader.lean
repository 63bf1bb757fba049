import SourceAtlas.Proofs.Declaration.Truncation

/-!
# TypeScript headers in a cut text

As in the other dialect, a place behind the name that lies in the front of a text is found there, and
so is a clause with a character in that front.
-/

namespace SourceAtlas.TypeScript

open List Option

variable {more text rest start word clause code : Text} {before : Option Char}
  {header : TypeHeader} {stops : Text → Bool} {bases interfaces : Option Text}

theorem isNameChar_eq_false_of_followsCode (h : FollowsCode more) :
    ∀ c ∈ more.head?, isNameChar c = false := by
  intro c hc
  rcases h c hc with hblank | rfl
  · have hdollar : c ≠ '$' := by
      rintro rfl
      cases hblank
    simp [isNameChar, hdollar, isWord_eq_false_of_isBlank hblank]
  · decide

theorem splitName?_of_append {name : Text} (hmore : FollowsCode more)
    (h : splitName? isPlainStart (text ++ more) = some (name, rest ++ more)) :
    splitName? isPlainStart text = some (name, rest) := by
  cases text with
  | nil =>
    rw [nil_append] at h
    cases more with
    | nil => cases h
    | cons c more =>
      rw [splitName?, ite_none_right_eq_some] at h
      have hc := isNameChar_of_isPlainStart h.1
      rw [isNameChar_eq_false_of_followsCode hmore c rfl] at hc
      cases hc
  | cons c text =>
    have hstop := isNameChar_eq_false_of_followsCode hmore
    rw [cons_append, splitName?, ite_none_right_eq_some,
      takeWhile_append_right hstop, dropWhile_append_right hstop] at h
    obtain ⟨hc, heq⟩ := h
    obtain ⟨rfl, hrest⟩ := Prod.mk.inj (some.inj heq)
    rw [splitName?, if_pos hc, append_cancel_right hrest]

theorem headerParameterEnds_of_append (h : rest ++ more ∈ headerParameterEnds (text ++ more)) :
    rest ∈ headerParameterEnds text := by
  induction text with
  | nil =>
    have hle := (headerParameterEnds_suffix h).length_le
    rw [nil_append, length_cons, length_append] at hle
    omega
  | cons c text ih =>
    rw [cons_append, headerParameterEnds] at h
    rw [headerParameterEnds]
    split_ifs at h ⊢ with hstop hclose
    · cases h
    · rcases mem_cons.mp h with heq | htail
      · rw [append_cancel_right heq]
        exact mem_cons_self
      · exact mem_cons_of_mem _ (ih htail)
    · exact ih h

theorem clauseStarts_of_append (h : rest ++ more ∈ clauseStarts (text ++ more)) :
    rest ∈ clauseStarts text := by
  rcases mem_clauseStarts.mp h with ⟨tail, htrim, hend⟩ | hsame
  · have htail : tail <:+ text ++ more := suffix_of_trimLeft_eq_cons htrim
    obtain ⟨inner, rfl, -, -⟩ := exists_append_of_suffix htail
      ((suffix_cons '>' _).trans (headerParameterEnds_suffix hend))
    have hinner : trimLeft text = '<' :: inner := trimLeft_of_append htrim
    exact mem_clauseStarts.mpr (Or.inl ⟨inner, hinner, headerParameterEnds_of_append hend⟩)
  · exact mem_clauseStarts.mpr (Or.inr (append_cancel_right hsame))

theorem headEnds_of_append (hmore : FollowsCode more) (h : rest ++ more ∈ headEnds (text ++ more)) :
    rest ∈ headEnds text := by
  obtain ⟨name, afterName, ⟨keyword, kind, after, hkeyword, hname⟩, hstart⟩ := mem_headEnds.mp h
  have hafterName : rest ++ more <:+ afterName := clauseStarts_suffix hstart
  have hafter : afterName <:+ after := splitName?_suffix hname
  obtain ⟨after, rfl, hshort⟩ :=
    keywordAt?_skipModifiers_of_append hkeyword (hafterName.trans hafter)
  obtain ⟨afterName, rfl, -, -⟩ := exists_append_of_suffix hafter hafterName
  exact mem_headEnds.mpr ⟨name, afterName,
    ⟨keyword, kind, after, hshort, splitName?_of_append hmore hname⟩, clauseStarts_of_append hstart⟩

theorem isSome_typeHeaderAt? (hstart : start ∈ headEnds text) (h : (clausesAt? start).isSome) :
    (typeHeaderAt? none text).isSome := by
  obtain ⟨name, afterName, ⟨keyword, kind, after, hkeyword, hname⟩, hstart⟩ :=
    mem_headEnds.mp hstart
  have hfound : ((clauseStarts afterName).findSome? clausesAt?).isSome :=
    findSome?_isSome_iff.mpr ⟨start, hstart, h⟩
  obtain ⟨⟨bases, interfaces, rest⟩, hfound⟩ := isSome_iff_exists.mp hfound
  unfold typeHeaderAt?
  simp only [all_none, if_true, hkeyword, bind, bind_some, hname, hfound,
    isSome_some]

theorem stopsClause_eq_false {c : Char} (h : isBlank c = true) : stopsClause c = false := by
  by_contra hstops
  simp only [stopsClause, Bool.or_eq_false_iff, beq_eq_false_iff_ne, not_and_or, not_not] at hstops
  rcases hstops with (rfl | rfl) | rfl <;> cases h

theorem isSome_clauseAt?_of_append (h : clauseAt? word stops (code ++ more) = some (clause, rest))
    (hlength : more.length < clause.length + rest.length) : (clauseAt? word stops code).isSome := by
  obtain ⟨blank, tail, hskip, hblank⟩ := exists_word_of_clauseAt? (isSome_of_eq_some h)
  rw [clauseAt?_of_word hskip hblank] at h
  have hle := (clauseBehind_extent h).2.length_le
  rw [length_append] at hle
  have hsuffix : tail <:+ code ++ more :=
    ((suffix_cons blank tail).trans (suffix_append word _)).trans (skipBlanks?_suffix hskip)
  obtain ⟨inner, rfl, -⟩ := exists_append_of_length_le hsuffix (by omega)
  have hcode : skipBlanks? code = some (word ++ blank :: inner) :=
    local_skipBlanks? (by rw [hskip, append_assoc, cons_append])
  rw [clauseAt?_of_word hcode hblank]
  exact isSome_clauseBehind_of_append (fun _ => stopsClause_eq_false) h hlength

theorem isSome_clausesAt?_iff :
    (clausesAt? text).isSome ↔
      (basesAt? text).isSome ∨ (interfacesAt? text).isSome ∨ closesHeader text = true := by
  unfold clausesAt?
  cases hbases : basesAt? text with
  | none =>
    cases hinterfaces : interfacesAt? text with
    | none => simp [hinterfaces]
    | some found => simp [hinterfaces]
  | some found =>
    cases hinterfaces : interfacesAt? found.2 with
    | none => simp [hinterfaces]
    | some found' => simp [hinterfaces]

theorem closesHeader_of_append (hcode : EndsInCode code) (h : closesHeader (code ++ more) = true) :
    closesHeader code = true := by
  by_cases hne : code = []
  · rw [hne]
    rfl
  · obtain ⟨c, rest, htrim, hlonger, hgap⟩ := hcode.trimLeft_append hne more
    unfold closesHeader at h ⊢
    rw [hgap, hlonger] at h
    rw [htrim]
    exact h

theorem isSome_clausesAt?_of_append (hcode : EndsInCode code)
    (h : clausesAt? (code ++ more) = some (bases, interfaces, rest))
    (hlength : more.length ≤ rest.length) : (clausesAt? code).isSome := by
  rw [isSome_clausesAt?_iff]
  obtain ⟨after, hbases, hinterfaces, hcloses⟩ := clausesAt?_eq_some h
  rcases hbases with ⟨clause, rfl, hbases⟩ | ⟨rfl, rfl⟩
  · left
    have hpos := length_pos_iff.mpr (clauseAt?_extent hbases).1
    have hle := (hinterfaces.extent fun hclause => (clauseAt?_extent hclause).2).1.length_le
    exact isSome_clauseAt?_of_append hbases (by omega)
  · right
    rcases hinterfaces with ⟨clause, rfl, hinterfaces⟩ | ⟨rfl, rfl⟩
    · have hpos := length_pos_iff.mpr (clauseAt?_extent hinterfaces).1
      exact Or.inl (isSome_clauseAt?_of_append hinterfaces (by omega))
    · exact Or.inr (closesHeader_of_append hcode (hcloses rfl rfl))

def firstClause? (text : Text) : Option (Text × Text) :=
  (basesAt? text).or (interfacesAt? text)

theorem firstClause?_suffix (h : firstClause? text = some (clause, rest)) :
    clause ++ rest <:+ text := by
  rcases or_eq_some_iff.mp h with hbases | ⟨-, hinterfaces⟩
  · exact (clauseAt?_extent hbases).2
  · exact (clauseAt?_extent hinterfaces).2

theorem isSome_clausesAt?_of_firstClause? (h : firstClause? (code ++ more) = some (clause, rest))
    (hlength : more.length < clause.length + rest.length) : (clausesAt? code).isSome := by
  rw [isSome_clausesAt?_iff]
  rcases or_eq_some_iff.mp h with hbases | ⟨-, hinterfaces⟩
  · exact Or.inl (isSome_clauseAt?_of_append hbases hlength)
  · exact Or.inr (Or.inl (isSome_clauseAt?_of_append hinterfaces hlength))

theorem isSome_typeHeaderAt?_of_append (hcode : EndsInCode code) (hmore : FollowsCode more)
    (h : typeHeaderAt? before (code ++ more) = some header)
    (hlength : more.length ≤ header.rest.length) : (typeHeaderAt? none code).isSome := by
  obtain ⟨after, start, hnamed, hstart, hclauses⟩ := exists_of_typeHeaderAt? h
  have hstart := mem_headEnds.mpr ⟨_, after, hnamed, hstart⟩
  have hle : more.length ≤ start.length := hlength.trans (clausesAt?_extent hclauses).1.length_le
  obtain ⟨inner, rfl, hinner⟩ := exists_append_of_length_le (headEnds_extent hstart).1 hle
  exact isSome_typeHeaderAt? (headEnds_of_append hmore hstart)
    (isSome_clausesAt?_of_append (hcode.of_suffix hinner) hclauses hlength)

theorem isSome_typeHeaderAt?_of_mem_headEnds (hmore : FollowsCode more)
    (h : more ∈ headEnds (code ++ more)) : (typeHeaderAt? none code).isSome := by
  have hstart : [] ∈ headEnds code := headEnds_of_append hmore h
  apply isSome_typeHeaderAt? hstart
  rw [isSome_clausesAt?_iff]
  exact Or.inr (Or.inr rfl)

theorem isSome_typeHeaderAt?_of_firstClause? (hmore : FollowsCode more)
    (hstart : start ∈ headEnds (code ++ more)) (h : firstClause? start = some (clause, rest))
    (hlength : more.length < clause.length + rest.length) : (typeHeaderAt? none code).isSome := by
  have hle := (firstClause?_suffix h).length_le
  rw [length_append] at hle
  obtain ⟨inner, rfl, -⟩ := exists_append_of_length_le (headEnds_extent hstart).1 (by omega)
  exact isSome_typeHeaderAt? (headEnds_of_append hmore hstart)
    (isSome_clausesAt?_of_firstClause? h hlength)

end SourceAtlas.TypeScript
