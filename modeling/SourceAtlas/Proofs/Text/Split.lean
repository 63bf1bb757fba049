import SourceAtlas.Proofs.Text.Lines

/-!
# Splitting and joining

Splitting at a separator undoes joining with it, for parts without the separator. Line breaks are
unified line by line.
-/

namespace SourceAtlas

open List

variable {separator c : Char} {part front rest : Text} {parts : List Text}

theorem splitOn_of_notMem (h : separator ∉ part) : splitOn separator part = [part] := by
  induction part with
  | nil => rfl
  | cons c part ih =>
    rw [mem_cons, not_or] at h
    rw [splitOn, if_neg (Ne.symm h.1), ih h.2]

theorem splitOn_ne_nil (separator : Char) (text : Text) : splitOn separator text ≠ [] := by
  cases text with
  | nil => exact cons_ne_nil [] []
  | cons c rest =>
    rw [splitOn]
    split
    · exact cons_ne_nil _ _
    · split
      · exact cons_ne_nil _ _
      · exact cons_ne_nil _ _

theorem splitOn_append_cons (separator : Char) (front rest : Text) :
    splitOn separator (front ++ separator :: rest) =
      splitOn separator front ++ splitOn separator rest := by
  induction front with
  | nil => simp [splitOn]
  | cons c front ih =>
    rw [cons_append, splitOn, splitOn, ih]
    split
    · rw [cons_append]
    · obtain ⟨first, others, hfirst⟩ := exists_cons_of_ne_nil (splitOn_ne_nil separator front)
      rw [hfirst, cons_append, cons_append]

theorem exists_append_of_splitOn {text first : Text} (h : splitOn separator text = first :: parts) :
    ∃ rest, text = first ++ rest ∧ ∀ c ∈ rest.head?, c = separator := by
  induction text generalizing first parts with
  | nil =>
    cases h
    exact ⟨[], rfl, by simp⟩
  | cons c text ih =>
    rw [splitOn] at h
    split at h
    · next hc =>
      cases h
      exact ⟨c :: text, rfl, by simp [hc]⟩
    · obtain ⟨second, others, hsecond⟩ := exists_cons_of_ne_nil (splitOn_ne_nil separator text)
      rw [hsecond] at h
      cases h
      obtain ⟨rest, rfl, hrest⟩ := ih hsecond
      exact ⟨rest, rfl, hrest⟩

theorem exists_splitOn_append (hfront : separator ∉ front) (rest : Text) :
    ∃ first others, splitOn separator rest = first :: others ∧
      splitOn separator (front ++ rest) = (front ++ first) :: others := by
  obtain ⟨first, others, hrest⟩ := exists_cons_of_ne_nil (splitOn_ne_nil separator rest)
  refine ⟨first, others, hrest, ?_⟩
  induction front with
  | nil => exact hrest
  | cons c front ih =>
    rw [mem_cons, not_or] at hfront
    rw [cons_append, splitOn, if_neg (Ne.symm hfront.1), ih hfront.2]
    rfl

theorem joinWith_cons (separator part : Text) {parts : List Text} (h : parts ≠ []) :
    joinWith separator (part :: parts) = part ++ separator ++ joinWith separator parts := by
  obtain ⟨second, rest, rfl⟩ := exists_cons_of_ne_nil h
  rw [joinWith]
  exact h

theorem head?_joinWith (h : part.head? = some c) (separator : Text) (parts : List Text) :
    (joinWith separator (part :: parts)).head? = some c := by
  by_cases hlast : parts = []
  · rw [hlast]
    exact h
  · rw [joinWith_cons _ _ hlast, append_assoc, head?_append, h, Option.some_or]

theorem exists_getLast?_joinWith {p : Char → Prop} (hne : parts ≠ [])
    (h : ∀ part ∈ parts, ∃ c, part.getLast? = some c ∧ p c) (separator : Text) :
    ∃ c, (joinWith separator parts).getLast? = some c ∧ p c := by
  induction parts with
  | nil => exact absurd rfl hne
  | cons part parts ih =>
    rw [forall_mem_cons] at h
    by_cases hlast : parts = []
    · rw [hlast]
      exact h.1
    · obtain ⟨c, hc, hkind⟩ := ih hlast h.2
      refine ⟨c, ?_, hkind⟩
      rw [joinWith_cons _ _ hlast, getLast?_append, hc, Option.some_or]

theorem joinWith_append (separator : Text) {first second : List Text} (hfirst : first ≠ [])
    (hsecond : second ≠ []) :
    joinWith separator (first ++ second) =
      joinWith separator first ++ separator ++ joinWith separator second := by
  induction first with
  | nil => exact absurd rfl hfirst
  | cons part parts ih =>
    by_cases hlast : parts = []
    · rw [hlast, singleton_append, joinWith_cons _ _ hsecond, joinWith]
    · rw [cons_append, joinWith_cons _ _ (append_ne_nil_of_left_ne_nil hlast _), ih hlast,
        joinWith_cons _ _ hlast]
      simp only [append_assoc]

theorem splitOn_joinWith_of_notMem (hne : parts ≠ []) (h : ∀ part ∈ parts, separator ∉ part) :
    splitOn separator (joinWith [separator] parts) = parts := by
  induction parts with
  | nil => exact absurd rfl hne
  | cons part parts ih =>
    rw [forall_mem_cons] at h
    by_cases hlast : parts = []
    · subst hlast
      exact splitOn_of_notMem h.1
    · rw [joinWith_cons _ _ hlast, append_assoc, singleton_append, splitOn_append h.1,
        ih hlast h.2]

theorem joinWith_splitOn (separator : Char) (text : Text) :
    joinWith [separator] (splitOn separator text) = text := by
  induction text with
  | nil => rfl
  | cons c text ih =>
    obtain ⟨first, others, hfirst⟩ := exists_cons_of_ne_nil (splitOn_ne_nil separator text)
    rw [splitOn]
    split
    · next hc => rw [joinWith_cons _ _ (splitOn_ne_nil separator text), ih, hc]; rfl
    · simp only [hfirst]
      rw [hfirst] at ih
      by_cases hothers : others = []
      · subst hothers
        exact congrArg (c :: ·) ih
      · rw [joinWith_cons _ _ hothers] at ih ⊢
        exact congrArg (c :: ·) ih

theorem notMem_of_mem_splitOn {text : Text} (h : part ∈ splitOn separator text) :
    separator ∉ part := by
  induction text generalizing part with
  | nil =>
    obtain rfl := mem_singleton.mp h
    exact not_mem_nil
  | cons c text ih =>
    rw [splitOn] at h
    split at h
    · obtain rfl | hlater := mem_cons.mp h
      · exact not_mem_nil
      · exact ih hlater
    · next hc =>
      obtain ⟨first, others, hfirst⟩ := exists_cons_of_ne_nil (splitOn_ne_nil separator text)
      rw [hfirst] at h ih
      obtain rfl | hlater := mem_cons.mp h
      · exact not_mem_cons_of_ne_of_not_mem (Ne.symm hc) (ih mem_cons_self)
      · exact ih (mem_cons_of_mem first hlater)

theorem notMem_joinWith (hc : c ≠ separator) (h : ∀ part ∈ parts, c ∉ part) :
    c ∉ joinWith [separator] parts := by
  have hparts : ∀ part ∈ parts, ∀ d ∈ part, d ≠ c := by
    rintro part hpart d hd rfl
    exact h part hpart hd
  have hseparator : ∀ d ∈ [separator], d ≠ c := by
    rintro d hd rfl
    exact hc (mem_singleton.mp hd)
  exact fun hmem => forall_mem_joinWith hseparator hparts c hmem rfl

theorem splitOn_joinWith_cons (first : Text) (h : ∀ part ∈ parts, separator ∉ part) :
    splitOn separator (joinWith [separator] (first :: parts)) = splitOn separator first ++ parts := by
  by_cases hne : parts = []
  · rw [hne, joinWith, append_nil]
  · rw [joinWith_cons _ _ hne, append_assoc, singleton_append, splitOn_append_cons,
      splitOn_joinWith_of_notMem hne h]

theorem exists_splitOn_concat (hc : c ≠ separator) (text : Text) :
    ∃ front last, splitOn separator (text ++ [c]) = front ++ [last ++ [c]] := by
  have hsingle : splitOn separator [c] = [[c]] := by rw [splitOn, if_neg hc]; rfl
  induction text with
  | nil => exact ⟨[], [], hsingle⟩
  | cons d text ih =>
    obtain ⟨front, last, hsplit⟩ := ih
    rw [cons_append, splitOn, hsplit]
    split
    · exact ⟨[] :: front, last, rfl⟩
    · cases front with
      | nil => exact ⟨[], d :: last, rfl⟩
      | cons first front => exact ⟨(d :: first) :: front, last, rfl⟩

/-- A text goes on behind a separator exactly when its parts go on. -/
theorem append_singleton_prefix_iff {text : Text} : part ++ [separator] <+: text ↔
    ∃ next, splitOn separator part ++ [next] <+: splitOn separator text := by
  constructor
  · rintro ⟨rest, rfl⟩
    obtain ⟨next, others, hrest⟩ := exists_cons_of_ne_nil (splitOn_ne_nil separator rest)
    refine ⟨next, others, ?_⟩
    simp [splitOn_append_cons, hrest]
  · rintro ⟨next, others, hsplit⟩
    refine ⟨joinWith [separator] (next :: others), ?_⟩
    rw [append_assoc, singleton_append] at hsplit
    rw [← joinWith_splitOn separator text, ← hsplit,
      joinWith_append _ (splitOn_ne_nil separator part) (cons_ne_nil next others),
      joinWith_splitOn]

/-! ## Line breaks -/

theorem notMem_unifyBreaks (text : Text) : '\r' ∉ unifyBreaks text := by
  fun_induction unifyBreaks text with
  | case1 => exact not_mem_nil
  | case2 rest ih => exact not_mem_cons_of_ne_of_not_mem (by decide) ih
  | case3 c rest _ ih =>
    apply not_mem_cons_of_ne_of_not_mem _ ih
    split
    · decide
    · next hc => exact Ne.symm hc

theorem unifyBreaks_of_notMem (h : '\r' ∉ rest) : unifyBreaks rest = rest := by
  fun_induction unifyBreaks rest with
  | case1 => rfl
  | case2 => exact absurd mem_cons_self h
  | case3 c rest _ ih =>
    rw [mem_cons, not_or] at h
    rw [if_neg (Ne.symm h.1), ih h.2]

/-- Behind a line feed line breaks are unified as if nothing stood in front. -/
theorem exists_unifyBreaks_append (front rest : Text) :
    ∃ unified, unifyBreaks (front ++ '\n' :: rest) = unified ++ '\n' :: unifyBreaks rest := by
  have hfeed : unifyBreaks ('\n' :: rest) = '\n' :: unifyBreaks rest := rfl
  fun_induction unifyBreaks front with
  | case1 => exact ⟨[], hfeed⟩
  | case2 front ih =>
    obtain ⟨unified, hunified⟩ := ih
    exact ⟨'\n' :: unified, congrArg ('\n' :: ·) hunified⟩
  | case3 c front hpair ih =>
    obtain ⟨unified, hunified⟩ := ih
    cases front with
    | nil =>
      by_cases hc : c = '\r'
      · subst hc
        exact ⟨[], rfl⟩
      · refine ⟨[c], ?_⟩
        rw [cons_append, unifyBreaks, if_neg hc]
        · exact congrArg (c :: ·) hfeed
        · exact fun _ hcr _ => hc hcr
    | cons d front =>
      refine ⟨(if c = '\r' then '\n' else c) :: unified, ?_⟩
      rw [cons_append, unifyBreaks, hunified, cons_append]
      intro tail hcr htail
      obtain ⟨hd, -⟩ := cons.inj htail
      exact hpair front hcr (congrArg (· :: front) hd)

end SourceAtlas
