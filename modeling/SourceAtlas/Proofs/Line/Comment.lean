import SourceAtlas.Proofs.Balanced
import SourceAtlas.Proofs.Line

/-!
# Comments behind code

A comment starts at the first `//` outside quotes. The code in front of it holds no comment, so it is
read as it stands when it is read again, and the line counts as a comment line with its comment exactly
if it does without it. Texts without a comment whose quotes are closed go behind each other.
-/

namespace SourceAtlas

open List Option

variable {c : Char} {rest line text front raw mark : Text} {quote : Option Char}
  {owed : List Char} {dialect : Dialect}

/-! ## Texts without a comment -/

def quoteAfter (quote : Option Char) : Text → Option Char
  | [] => quote
  | c :: rest =>
    match quote with
    | some q =>
      if c = '\\' then
        match rest with
        | [] => some q
        | _ :: after => quoteAfter (some q) after
      else if c = q then quoteAfter none rest
      else quoteAfter (some q) rest
    | none => if isQuote c then quoteAfter (some c) rest else quoteAfter none rest

theorem codeFront_escape (quote d : Char) (rest : Text) :
    codeFront (some quote) ('\\' :: d :: rest) =
      (codeFront (some quote) rest).map fun front => '\\' :: d :: front :=
  rfl

theorem codeFront_openQuote (h : isQuote c = true) (rest : Text) :
    codeFront none (c :: rest) = (codeFront (some c) rest).map (c :: ·) := by
  change (if isQuote c = true then _ else _) = _
  rw [if_pos h]

theorem codeFront_cons (hquote : isQuote c = false) (h : c = '/' → rest.head? ≠ some '/') :
    codeFront none (c :: rest) = (codeFront none rest).map (c :: ·) := by
  have hslash : (decide (c = '/') && rest.head? == some '/') = false := by
    by_cases hc : c = '/'
    · simp [hc, h hc]
    · simp [hc]
  change (if isQuote c = true then _ else if (c = '/' && rest.head? == some '/') = true then _
    else _) = _
  rw [hquote, hslash]
  rfl

theorem slashes_iff :
    (decide (c = '/') && rest.head? == some '/') = true ↔ c = '/' ∧ rest.head? = some '/' := by
  simp

theorem exists_slashes_of_codeFront (h : codeFront none line = some []) :
    ∃ rest, line = '/' :: '/' :: rest := by
  cases line with
  | nil => cases h
  | cons c tail =>
    by_cases hquote : isQuote c = true
    · rw [codeFront_openQuote hquote] at h
      obtain ⟨inner, -, hinner⟩ := map_eq_some_iff.mp h
      cases hinner
    · by_cases hslash : c = '/' ∧ tail.head? = some '/'
      · obtain ⟨rfl, hhead⟩ := hslash
        obtain ⟨rest, rfl⟩ := head?_eq_some_iff.mp hhead
        exact ⟨rest, rfl⟩
      · rw [codeFront_cons (by simpa using hquote) fun hc hhead => hslash ⟨hc, hhead⟩] at h
        obtain ⟨inner, -, hinner⟩ := map_eq_some_iff.mp h
        cases hinner

theorem codeFront_append_of_some (h : codeFront quote text = some front) (rest : Text) :
    codeFront quote (text ++ rest) = some front := by
  fun_induction codeFront quote text generalizing front with
  | case1 => cases h
  | case2 => cases h
  | case3 q d after ih =>
    obtain ⟨inner, hinner, rfl⟩ := map_eq_some_iff.mp h
    rw [cons_append, cons_append, codeFront_escape, ih hinner]
    rfl
  | case4 tail q hescape ih =>
    obtain ⟨inner, hinner, rfl⟩ := map_eq_some_iff.mp h
    rw [cons_append, codeFront_cons_quoted hescape, if_pos rfl, ih hinner]
    rfl
  | case5 c tail q hescape hne ih =>
    obtain ⟨inner, hinner, rfl⟩ := map_eq_some_iff.mp h
    rw [cons_append, codeFront_cons_quoted hescape, if_neg hne, ih hinner]
    rfl
  | case6 c tail hopens ih =>
    obtain ⟨inner, hinner, rfl⟩ := map_eq_some_iff.mp h
    rw [cons_append, codeFront_openQuote hopens, ih hinner]
    rfl
  | case7 c tail hopens hslash =>
    cases h
    obtain ⟨rfl, hhead⟩ := slashes_iff.mp hslash
    obtain ⟨after, rfl⟩ := head?_eq_some_iff.mp hhead
    rfl
  | case8 c tail hopens hslash ih =>
    obtain ⟨inner, hinner, rfl⟩ := map_eq_some_iff.mp h
    obtain ⟨after, rfl⟩ := codeFront_eq_some hinner
    have hplain : c = '/' → (inner ++ '/' :: after ++ rest).head? ≠ some '/' := by
      intro hc hhead
      apply hslash
      rw [slashes_iff]
      cases inner with
      | nil => exact ⟨hc, rfl⟩
      | cons d inner => exact ⟨hc, hhead⟩
    rw [cons_append, codeFront_cons (by simpa using hopens) hplain, ih hinner]
    rfl

theorem codeFront_eq_none_of_append (h : codeFront quote (text ++ rest) = none) :
    codeFront quote text = none := by
  rw [eq_none_iff_forall_ne_some]
  intro front hfront
  rw [codeFront_append_of_some hfront rest] at h
  cases h

theorem codeFront_codeFront (h : codeFront quote line = some front) :
    codeFront quote front = none := by
  obtain ⟨tail, rfl⟩ := codeFront_eq_some h
  rw [eq_none_iff_forall_ne_some]
  intro earlier hearlier
  -- such a comment would be the first one of the line
  rw [codeFront_append_of_some hearlier] at h
  cases h
  obtain ⟨other, hother⟩ := codeFront_eq_some hearlier
  have hlength := congrArg length hother
  rw [length_append, length_cons] at hlength
  omega

/-- Behind a text without a comment whose quotes are closed, the search goes on as from the start. -/
theorem codeFront_append (h : codeFront quote text = none) (hquote : quoteAfter quote text = none)
    (hjoint : text.getLast? ≠ some '/' ∨ rest.head? ≠ some '/') :
    codeFront quote (text ++ rest) = (codeFront none rest).map (text ++ ·) := by
  have push : ∀ {c : Char} {tail : Text} {quote : Option Char},
      codeFront quote (tail ++ rest) = (codeFront none rest).map (tail ++ ·) →
        (codeFront quote (tail ++ rest)).map (c :: ·) =
          (codeFront none rest).map (c :: tail ++ ·) := by
    intro c tail quote htail
    rw [htail, Option.map_map]
    rfl
  have later : ∀ {c : Char} {tail : Text}, (c :: tail).getLast? ≠ some '/' ∨ rest.head? ≠ some '/' →
      tail.getLast? ≠ some '/' ∨ rest.head? ≠ some '/' := by
    intro c tail hjoint
    rcases hjoint with hlast | hhead
    · exact .inl fun htail => hlast (mem_getLast?_of_suffix (suffix_cons c tail) htail)
    · exact .inr hhead
  fun_induction codeFront quote text with
  | case1 quote =>
    obtain rfl : quote = none := hquote
    simp
  | case2 => cases hquote
  | case3 q d after ih =>
    have hafter := ih (map_eq_none_iff.mp h) hquote (later (later hjoint))
    rw [cons_append, cons_append, codeFront_escape, hafter, Option.map_map]
    rfl
  | case4 tail q hescape ih =>
    have htail : quoteAfter none tail = none := by
      rw [quoteAfter.eq_def] at hquote
      simpa [hescape] using hquote
    rw [cons_append, codeFront_cons_quoted hescape, if_pos rfl]
    exact push (ih (map_eq_none_iff.mp h) htail (later hjoint))
  | case5 c tail q hescape hne ih =>
    have htail : quoteAfter (some q) tail = none := by
      rw [quoteAfter.eq_def] at hquote
      simpa [hescape, hne] using hquote
    rw [cons_append, codeFront_cons_quoted hescape, if_neg hne]
    exact push (ih (map_eq_none_iff.mp h) htail (later hjoint))
  | case6 c tail hopens ih =>
    have htail : quoteAfter (some c) tail = none := by
      rw [quoteAfter.eq_def] at hquote
      simpa [hopens] using hquote
    rw [cons_append, codeFront_openQuote hopens]
    exact push (ih (map_eq_none_iff.mp h) htail (later hjoint))
  | case7 c tail hopens hslash => cases h
  | case8 c tail hopens hslash ih =>
    have htail : quoteAfter none tail = none := by
      rw [quoteAfter.eq_def] at hquote
      simpa [hopens] using hquote
    have hplain : c = '/' → (tail ++ rest).head? ≠ some '/' := by
      rintro rfl hhead
      cases tail with
      | nil => exact hjoint.elim (fun hlast => hlast rfl) fun hrest => hrest hhead
      | cons d tail => exact hslash (slashes_iff.mpr ⟨rfl, hhead⟩)
    rw [cons_append, codeFront_cons (by simpa using hopens) hplain]
    exact push (ih (map_eq_none_iff.mp h) htail (later hjoint))

theorem Closes.quoteAfter_eq_none (h : Closes owed quote text) : quoteAfter quote text = none := by
  induction h with
  | nil => rfl
  | escaped closes ih => exact ih
  | @quoted owed quote c rest plain closes ih =>
    rw [quoteAfter.eq_def]
    by_cases hc : c = quote
    · simpa [hc, hc ▸ plain] using ih
    · simpa [plain, hc] using ih
  | quote opens closes ih => simpa [quoteAfter, opens] using ih
  | bracket plain opens closes ih => simpa [quoteAfter, plain] using ih
  | closer plain single ends closes ih => simpa [quoteAfter, plain] using ih
  | angle head closes ih => exact ih
  | inert plain closes ih => simpa [quoteAfter, (isInert_iff.mp plain).1] using ih

theorem Closes.codeFront_append (h : Closes owed quote text) (hcode : codeFront quote text = none)
    (hrest : rest.head? ≠ some '/') :
    codeFront quote (text ++ rest) = (codeFront none rest).map (text ++ ·) :=
  SourceAtlas.codeFront_append hcode h.quoteAfter_eq_none (.inr hrest)

/-! ## Code lines read again -/

theorem codeFront_blanks_append {blanks : Text} (h : ∀ c ∈ blanks, isBlank c = true) (text : Text) :
    codeFront none (blanks ++ text) = (codeFront none text).map (blanks ++ ·) := by
  apply codeFront_append_plain
  intro c hc
  exact ⟨(isInert_iff.mp (isInert_of_isBlank (h c hc))).1, ne_of_kind (h c hc) (by decide)⟩

theorem codeFront_trim_eq_none (h : codeFront none raw = none) :
    codeFront none (trim raw) = none := by
  obtain ⟨lead, tail, hraw, hlead, -⟩ := exists_blanks_append_trim raw
  rw [hraw] at h
  have hfront := codeFront_eq_none_of_append h
  rwa [codeFront_blanks_append hlead, map_eq_none_iff] at hfront

theorem codeOf_eq_trim (h : codeFront none raw = none) : codeOf raw = trim raw := by
  rw [codeOf, dropLineComment, codeFront_trim_eq_none h]

theorem codeOf_cases (raw : Text) :
    codeOf raw = trim raw ∨
      ∃ front tail, codeFront none (trim raw) = some front ∧ codeOf raw = trimRight front ∧
        trim raw = front ++ '/' :: tail := by
  unfold codeOf dropLineComment
  split
  · next front hfront =>
    obtain ⟨tail, htail⟩ := codeFront_eq_some hfront
    exact .inr ⟨front, tail, hfront, rfl, htail⟩
  · exact .inl rfl

theorem prefix_codeOf_trim (raw : Text) : codeOf raw <+: trim raw := by
  rcases codeOf_cases raw with heq | ⟨front, tail, -, heq, htrim⟩
  · rw [heq]
  · obtain ⟨blanks, hblanks, -⟩ := exists_append_dropEndWhile isBlank front
    exact ⟨blanks ++ '/' :: tail, by rw [heq, htrim, ← append_assoc, trimRight, ← hblanks]⟩

theorem isBlank_of_head?_codeOf (h : (codeOf raw).head? = some c) : isBlank c = false := by
  obtain ⟨more, hmore⟩ := prefix_codeOf_trim raw
  have hhead : (trim raw).head? = some c := by
    rw [← hmore, head?_append, h, some_or]
  exact isBlank_of_mem_head?_trim hhead

theorem trim_codeOf (raw : Text) : trim (codeOf raw) = codeOf raw := by
  obtain ⟨-, -, -, hends⟩ := exists_codeOf_append raw
  cases hcode : codeOf raw with
  | nil => rfl
  | cons c rest =>
    have hlast := getLast?_eq_some_getLast (cons_ne_nil c rest)
    rw [hcode] at hends
    exact trim_of_ends rfl (isBlank_of_head?_codeOf (by rw [hcode]; rfl)) hlast (hends _ hlast)

theorem codeOf_codeOf (raw : Text) : codeOf (codeOf raw) = codeOf raw := by
  rcases codeOf_cases raw with heq | ⟨front, tail, hfront, heq, -⟩
  · rw [heq, codeOf, trim_trim]
    exact heq
  · obtain ⟨blanks, hblanks, -⟩ := exists_append_dropEndWhile isBlank front
    have hnone : codeFront none (codeOf raw) = none := by
      have hfree := codeFront_codeFront hfront
      rw [hblanks] at hfree
      rw [heq]
      exact codeFront_eq_none_of_append hfree
    rw [codeOf_eq_trim hnone, trim_codeOf]

namespace Dialect

theorem isComment_of_front (h : front <+: line) (hfront : dialect.isComment front = true) :
    dialect.isComment line = true := by
  obtain ⟨mark, hmark, hstarts⟩ := any_eq_true.mp hfront
  exact any_eq_true.mpr ⟨mark, hmark, startsWith_iff.mpr ((startsWith_iff.mp hstarts).trans h)⟩

theorem isComment_slashes (dialect : Dialect) (rest : Text) :
    dialect.isComment ('/' :: '/' :: rest) = true := by
  cases dialect <;> rfl

theorem mem_commentMarks (h : mark ∈ dialect.commentMarks) :
    mark = ['/', '/'] ∨ mark = ['/', '*'] ∨ mark = ['*'] ∨ mark = ['#'] := by
  cases dialect with
  | csharp => simpa [commentMarks] using h
  | typescript =>
    have hmark : mark = ['/', '/'] ∨ mark = ['/', '*'] ∨ mark = ['*'] := by
      simpa [commentMarks] using h
    tauto

/-- No comment behind code starts in the mark of a comment line, its slashes apart. -/
theorem codeFront_mark (h : mark ∈ dialect.commentMarks) (hne : mark ≠ ['/', '/']) (rest : Text) :
    codeFront none (mark ++ rest) = (codeFront none rest).map (mark ++ ·) ∧
      ∃ c, mark.getLast? = some c ∧ isBlank c = false := by
  rcases mem_commentMarks h with rfl | rfl | rfl | rfl
  · exact absurd rfl hne
  all_goals exact ⟨codeFront_append rfl rfl (.inl (by decide)), _, rfl, by decide⟩

/-- A line is blank or a comment with a comment behind its code exactly if it is so without. -/
theorem isEmpty_or_isComment_codeOf (dialect : Dialect) (raw : Text) :
    ((codeOf raw).isEmpty || dialect.isComment (codeOf raw)) =
      ((trim raw).isEmpty || dialect.isComment (trim raw)) := by
  rcases codeOf_cases raw with heq | ⟨front, tail, hfront, heq, htrim⟩
  · rw [heq]
  · rw [Bool.eq_iff_iff, Bool.or_eq_true, Bool.or_eq_true, List.isEmpty_iff, List.isEmpty_iff]
    constructor
    · rintro (hnil | hcomment)
      · -- nothing stands in front of the comment
        have hblank : ∀ c ∈ front, isBlank c = true := by
          obtain ⟨blanks, hblanks, hall⟩ := exists_append_dropEndWhile isBlank front
          rw [hblanks, ← trimRight, ← heq, hnil]
          exact hall
        cases front with
        | nil =>
          obtain ⟨rest, hrest⟩ := exists_slashes_of_codeFront hfront
          exact .inr (by rw [hrest]; exact dialect.isComment_slashes rest)
        | cons c front =>
          have hc : isBlank c = false := isBlank_of_mem_head?_trim (by rw [htrim]; rfl)
          rw [hblank c (by simp)] at hc
          cases hc
      · exact .inr (isComment_of_front (prefix_codeOf_trim raw) hcomment)
    · rintro (hnil | hcomment)
      · rw [hnil] at htrim
        cases front <;> cases htrim
      · obtain ⟨mark, hmark, hstarts⟩ := any_eq_true.mp hcomment
        obtain ⟨rest, hrest⟩ := startsWith_iff.mp hstarts
        by_cases hslash : mark = ['/', '/']
        · rw [← hrest, hslash] at hfront
          cases hfront
          exact .inl heq
        · obtain ⟨hmap, c, hlast, hc⟩ := codeFront_mark hmark hslash rest
          rw [← hrest, hmap] at hfront
          obtain ⟨inner, -, rfl⟩ := map_eq_some_iff.mp hfront
          refine .inr (any_eq_true.mpr ⟨mark, hmark, startsWith_iff.mpr ?_⟩)
          rw [heq]
          exact prefix_trimRight hlast hc inner

end Dialect

end SourceAtlas
