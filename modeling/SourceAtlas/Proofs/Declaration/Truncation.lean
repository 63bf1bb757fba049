import SourceAtlas.Proofs.Declaration.Extent
import SourceAtlas.Proofs.Line

/-!
# Type headers in a cut text

A header that ends within the front of a text is still a header when the text is cut behind that front.
Where the header ends may change, since the readers look at what follows, but a header it stays: the
end of a text closes a header as a line break does.
-/

namespace SourceAtlas

open List Option

variable {rest text kept more keyword clause : Text} {modifiers : List Text} {kind : TypeKind}
  {keywords : List (Text × TypeKind)}

/-- What a reader leaves of a text, if it leaves at least the end `more`. -/
theorem exists_append_of_suffix (h : rest <:+ text ++ more) (hkept : kept ++ more <:+ rest) :
    ∃ inner, rest = inner ++ more ∧ kept <:+ inner ∧ inner <:+ text := by
  obtain ⟨front, rfl⟩ := hkept
  obtain ⟨lead, hlead⟩ := h
  rw [← append_assoc, ← append_assoc] at hlead
  refine ⟨front ++ kept, by simp, suffix_append _ _, lead, ?_⟩
  rw [← append_assoc]
  exact append_cancel_right hlead

theorem exists_append_of_length_le (h : rest <:+ text ++ more) (hle : more.length ≤ rest.length) :
    ∃ inner, rest = inner ++ more ∧ inner <:+ text := by
  have hmore : [] ++ more <:+ rest :=
    suffix_of_suffix_length_le (suffix_append text more) h hle
  obtain ⟨inner, hrest, -, hinner⟩ := exists_append_of_suffix h hmore
  exact ⟨inner, hrest, hinner⟩

/-- Whether a reader does not look at what it leaves behind. -/
def Local (read : Text → Option Text) : Prop :=
  ∀ {text more rest}, read (text ++ more) = some (rest ++ more) → read text = some rest

/-- What is dropped from a text is dropped from its front, if all of the rest is left. -/
theorem dropWhile_of_append {drop : Char → Bool}
    (h : (text ++ more).dropWhile drop = rest ++ more) : text.dropWhile drop = rest := by
  rw [dropWhile_append] at h
  split at h
  · next hempty =>
    have hle : (more.dropWhile drop).length ≤ more.length := (dropWhile_suffix _).length_le
    rw [h, length_append] at hle
    rw [List.isEmpty_iff.mp hempty, eq_nil_of_length_eq_zero (by omega : rest.length = 0)]
  · exact append_cancel_right h

theorem trimLeft_of_append (h : trimLeft (text ++ more) = rest ++ more) : trimLeft text = rest :=
  dropWhile_of_append h

theorem local_dropHead? (head : Text) : Local (dropHead? head) := by
  intro text more rest h
  rw [dropHead?_eq_some_iff] at h ⊢
  rw [← append_assoc] at h
  exact append_cancel_right h

theorem local_skipBlanks? : Local skipBlanks? := by
  intro text more rest h
  obtain ⟨c, tail, htext, hblank, hrest⟩ := skipBlanks?_eq_some_iff.mp h
  cases text with
  | nil =>
    -- the blank would be part of what is left
    have hle := (trimLeft_suffix tail).length_le
    rw [nil_append] at htext
    rw [← hrest, htext, length_append, length_cons] at hle
    omega
  | cons d text =>
    obtain ⟨rfl, rfl⟩ := cons.inj htext
    exact skipBlanks?_eq_some_iff.mpr ⟨d, text, rfl, hblank, (trimLeft_of_append hrest.symm).symm⟩

theorem dropWord?_eq_none_of_append {choices : List Text}
    (h : dropWord? choices (text ++ more) = none) : dropWord? choices text = none := by
  rw [eq_none_iff_forall_ne_some]
  intro rest hrest
  obtain ⟨word, hword, c, tail, rfl, hblank, -⟩ := dropWord?_eq_some hrest
  rw [dropWord?, findSome?_eq_none_iff] at h
  have hnone := h word hword
  rw [append_assoc, dropHead?_eq_some_iff.mpr rfl] at hnone
  simp [skipBlanks?, hblank] at hnone

theorem local_dropWord? (choices : List Text) : Local (dropWord? choices) := by
  intro text more rest h
  induction choices with
  | nil => cases h
  | cons word choices ih =>
    rw [dropWord?, findSome?_cons] at h ⊢
    cases hlonger : (dropHead? word (text ++ more)).bind skipBlanks? with
    | some left =>
      simp only [hlonger, some.injEq] at h
      subst h
      obtain ⟨after, hhead, hskip⟩ := bind_eq_some_iff.mp hlonger
      have hafter : after <:+ text ++ more := by
        rw [dropHead?_eq_some_iff.mp hhead]
        exact suffix_append _ _
      obtain ⟨inner, rfl, -, -⟩ := exists_append_of_suffix hafter (skipBlanks?_suffix hskip)
      rw [local_dropHead? word hhead, bind_some, local_skipBlanks? hskip]
    | none =>
      simp only [hlonger] at h
      have hnone : dropWord? [word] (text ++ more) = none := by simpa [dropWord?] using hlonger
      have hword : (dropHead? word text).bind skipBlanks? = none := by
        simpa [dropWord?] using dropWord?_eq_none_of_append hnone
      rw [hword]
      exact ih h

theorem skipModifiers_of_append (h : skipModifiers modifiers (text ++ more) = rest ++ more) :
    skipModifiers modifiers text = rest := by
  induction hlength : text.length using Nat.strong_induction_on generalizing text with
  | _ length ih =>
    subst hlength
    rw [skipModifiers] at h ⊢
    cases hword : dropWord? modifiers (text ++ more) with
    | none =>
      rw [hword] at h
      rw [dropWord?_eq_none_of_append hword]
      exact append_cancel_right h
    | some left =>
      have hlt := length_lt_of_dropWord? hword
      rw [hword] at h
      simp only [hlt, if_true] at h
      obtain ⟨inner, rfl, -, -⟩ := exists_append_of_suffix (dropWord?_suffix hword)
        (h ▸ skipModifiers_suffix modifiers left)
      have hinner := local_dropWord? modifiers hword
      have hshorter := length_lt_of_dropWord? hinner
      rw [hinner]
      simp only [hshorter, if_true]
      exact ih _ hshorter h rfl

theorem keywordAt?_of_append
    (h : keywordAt? keywords (text ++ more) = some (keyword, kind, rest ++ more)) :
    keywordAt? keywords text = some (keyword, kind, rest) := by
  induction keywords with
  | nil => cases h
  | cons entry keywords ih =>
    rw [keywordAt?, findSome?_cons] at h ⊢
    cases hword : dropWord? [entry.1] (text ++ more) with
    | some left =>
      simp only [hword, map_some, some.injEq, Prod.mk.injEq] at h
      obtain ⟨rfl, rfl, rfl⟩ := h
      simp only [local_dropWord? [entry.1] hword, map_some]
    | none =>
      simp only [hword, map_none] at h
      simp only [dropWord?_eq_none_of_append hword, map_none]
      exact ih h

/-- Modifiers and keyword are read in the front of a text, if a reader of the rest leaves its end. -/
theorem keywordAt?_skipModifiers_of_append {after : Text}
    (h : keywordAt? keywords (skipModifiers modifiers (text ++ more)) = some (keyword, kind, after))
    (hkept : kept ++ more <:+ after) :
    ∃ inner, after = inner ++ more ∧
      keywordAt? keywords (skipModifiers modifiers text) = some (keyword, kind, inner) := by
  have hskip := skipModifiers_suffix modifiers (text ++ more)
  have hafter := dropWord?_suffix (keywordAt?_eq_some h).2
  obtain ⟨start, hstart, -, -⟩ := exists_append_of_suffix hskip (hkept.trans hafter)
  rw [hstart] at h hafter
  obtain ⟨inner, rfl, -, -⟩ := exists_append_of_suffix hafter hkept
  refine ⟨inner, rfl, ?_⟩
  rw [skipModifiers_of_append hstart]
  exact keywordAt?_of_append h

/-! ## Clauses -/

section

variable {ends : Char → Bool} {stops : Char → Text → Bool} {after : Text}

theorem isSome_clauseBehind_iff (hends : ∀ c, isBlank c = true → ends c = false) :
    (clauseBehind ends stops after).isSome ↔ ∃ c tail, after = c :: tail ∧ ends c = false := by
  unfold clauseBehind
  cases after with
  | nil => simp [trimLeft]
  | cons c tail =>
    cases hc : isBlank c with
    | true =>
      have hgap : (c :: tail).takeWhile isBlank = c :: tail.takeWhile isBlank := by
        rw [takeWhile_cons, hc, if_pos rfl]
      rw [hgap]
      constructor
      · intro _
        exact ⟨c, tail, rfl, hends c hc⟩
      · intro _
        split <;> simp
    | false =>
      have hgap : (c :: tail).takeWhile isBlank = [] := by
        rw [takeWhile_cons, hc, if_neg Bool.false_ne_true]
      rw [hgap, trimLeft_cons_of_not_blank hc, head?_cons, all_some]
      cases hend : ends c <;> simp [hend]

theorem isSome_clauseBehind_of_append {code : Text} {stops' : Char → Text → Bool}
    (hends : ∀ c, isBlank c = true → ends c = false)
    (h : clauseBehind ends stops (code ++ more) = some (clause, rest))
    (hlength : more.length < clause.length + rest.length) :
    (clauseBehind ends stops' code).isSome := by
  obtain ⟨c, tail, heq, hc⟩ := (isSome_clauseBehind_iff hends).mp (isSome_of_eq_some h)
  cases code with
  | nil =>
    have hle := (clauseBehind_extent h).2.length_le
    rw [nil_append, length_append] at hle
    omega
  | cons d code =>
    obtain ⟨rfl, -⟩ := cons.inj heq
    exact (isSome_clauseBehind_iff hends).mpr ⟨d, code, rfl, hc⟩

end

end SourceAtlas
