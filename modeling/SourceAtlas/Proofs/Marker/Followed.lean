import SourceAtlas.Proofs.Marker

/-!
# Markers and what follows them

Markers that were read off a text are read off it whatever stands behind the text, unless that could be
taken for the rest of a name or for the arguments of a decorator. The other way round, what is read in
front of a place is read from the text up to that place alone, if an open parenthesis stands there.
-/

namespace SourceAtlas

open List

theorem trimLeft_trimLeft_append (text more : Text) :
    trimLeft (trimLeft text ++ more) = trimLeft (text ++ more) := by
  conv_rhs => rw [← takeWhile_isBlank_append_trimLeft text, append_assoc]
  exact (trimLeft_append_of_blanks (fun c hc => mem_takeWhile_imp hc) _).symm

theorem findClosing_of_append {opener closer : Char} {text more : Text} {start close : Nat}
    (h : findClosing (text ++ more) start opener closer = some close) (hclose : close < text.length) :
    findClosing text start opener closer = some close := by
  obtain ⟨-, -, -, -, -, hmore⟩ := findClosing_eq_some h
  have hcut := hmore (text.drop (close + 1))
  rwa [take_append_of_le_length hclose, take_append_drop] at hcut

/-! ## Texts that are no part of a marker in front of them -/

/-- Whether a text neither goes on with a dotted name nor opens a list of arguments. -/
def Detached (more : Text) : Prop :=
  (∀ c ∈ more.head?, isDottedWord c = false) ∧ (trimLeft more).head? ≠ some '('

/-- Whether the markers at the front of a text cannot go on in what follows the text. -/
def EndsMarkers (text more : Text) : Prop :=
  text.getLast? = some '(' ∨ Detached more

/-- Whether what follows a text does not go on with a marker at its end. Unlike `EndsMarkers`, a name
may follow a text that does not end in one. -/
def Unextended (text more : Text) : Prop :=
  text.getLast? = some '(' ∨ (trimLeft more).head? ≠ some '(' ∧
    ((∀ c ∈ more.head?, isDottedWord c = false) ∨ ∀ c ∈ text.getLast?, isDottedWord c = false)

section

variable {text more : Text}

theorem EndsMarkers.unextended (h : EndsMarkers text more) : Unextended text more :=
  h.imp_right fun hmore => ⟨hmore.2, Or.inl hmore.1⟩

theorem Unextended.of_suffix {rest : Text} (h : Unextended text more) (hrest : rest <:+ text)
    (hne : rest ≠ []) : Unextended rest more := by
  unfold Unextended at h ⊢
  rwa [getLast?_of_suffix hrest hne]

theorem Unextended.nameLength_append (h : Unextended text more) (hne : text ≠ []) :
    nameLength (text ++ more) = nameLength text := by
  have hend := getLast?_eq_some_getLast hne
  unfold nameLength
  rcases h with hlast | ⟨-, hmore | hlast⟩
  · rw [takeWhile_append_of_getLast? ⟨_, hlast, by decide⟩]
  · rw [takeWhile_append_right hmore]
  · rw [takeWhile_append_of_getLast? ⟨_, hend, hlast _ hend⟩]

theorem drop_argumentStart (text : Text) :
    text.drop (argumentStart text) =
      (text.drop (nameLength text)).dropWhile fun c => c == ' ' || c == '\t' := by
  rw [argumentStart, ← drop_drop, drop_length_takeWhile]

/-- No list of arguments opens behind the gap at the front of a text if none opens behind its blanks. -/
theorem head?_dropWhile_gap_ne (h : (trimLeft more).head? ≠ some '(') :
    (more.dropWhile fun c => c == ' ' || c == '\t').head? ≠ some '(' := by
  intro hhead
  obtain ⟨tail, htail⟩ := head?_eq_some_iff.mp hhead
  have hblanks : ∀ c ∈ more.takeWhile fun c => c == ' ' || c == '\t', isBlank c = true := by
    intro c hc
    have hgap := mem_takeWhile_imp hc
    simp only [Bool.or_eq_true, beq_iff_eq] at hgap
    rcases hgap with rfl | rfl <;> decide
  apply h
  rw [← takeWhile_append_dropWhile (p := fun c => c == ' ' || c == '\t') (l := more), htail,
    trimLeft_append_of_blanks hblanks]
  rfl

/-- A text that holds nothing but a name and a gap does not end in a parenthesis. -/
theorem Unextended.head?_ne (h : Unextended text more)
    (hgap : (text.drop (nameLength text)).dropWhile (fun c => c == ' ' || c == '\t') = []) :
    (trimLeft more).head? ≠ some '(' := by
  refine (h.resolve_left fun hlast => ?_).1
  have hmem : '(' ∈ text := mem_of_getLast? hlast
  rw [← takeWhile_append_dropWhile (p := isDottedWord) (l := text),
    ← drop_length_takeWhile, mem_append] at hmem
  rcases hmem with hmem | hmem
  · exact absurd (mem_takeWhile_imp hmem) (by decide)
  · exact absurd (dropWhile_eq_nil_iff.mp hgap _ hmem) (by decide)

/-- The place where arguments may start is the same in front of any text that is no part of them. -/
theorem Unextended.argumentStart_append (h : Unextended text more) (hne : text ≠ []) :
    ((text.drop (argumentStart text)).head? = some '(' →
      argumentStart (text ++ more) = argumentStart text) ∧
    (((text ++ more).drop (argumentStart (text ++ more))).head? = some '(' ↔
      (text.drop (argumentStart text)).head? = some '(') := by
  have hname : nameLength text ≤ text.length := (List.takeWhile_prefix _).length_le
  have hdrop : (text ++ more).drop (nameLength (text ++ more)) =
      text.drop (nameLength text) ++ more := by
    rw [h.nameLength_append hne, drop_append_of_le_length hname]
  rw [drop_argumentStart, drop_argumentStart, hdrop, dropWhile_append]
  split
  · next hempty =>
    rw [List.isEmpty_iff] at hempty
    rw [hempty]
    refine ⟨(by intro hhead; cases hhead), fun hhead => ?_, (by intro hhead; cases hhead)⟩
    exact absurd hhead (head?_dropWhile_gap_ne (h.head?_ne hempty))
  · next hempty =>
    rw [List.isEmpty_iff] at hempty
    constructor
    · intro _
      unfold argumentStart
      rw [hdrop, h.nameLength_append hne, takeWhile_append, if_neg]
      intro hlength
      apply hempty
      rw [← drop_length_takeWhile, hlength, drop_length]
    · rw [head?_append_of_ne_nil _ hempty]

theorem invocationLength?_followed {length : Nat} (hmore : Unextended text more)
    (h : invocationLength? text = some length) :
    length ≤ text.length ∧ invocationLength? (text ++ more) = some length := by
  cases text with
  | nil => cases h
  | cons c text =>
    have hc : isNameStart c = true := by
      by_contra hnot
      simp [invocationLength?, hnot] at h
    obtain ⟨hstart, hhead⟩ := hmore.argumentStart_append (cons_ne_nil c text)
    have hname := hmore.nameLength_append (cons_ne_nil c text)
    rw [cons_append] at hstart hhead hname ⊢
    rw [invocationLength?_eq hc] at h ⊢
    rw [hname]
    split at h
    · next hparen =>
      obtain ⟨close, hclose, rfl⟩ := Option.map_eq_some_iff.mp h
      obtain ⟨hlt, hlonger⟩ := findClosing_append hclose more
      refine ⟨hlt, ?_⟩
      rw [if_pos (hhead.mpr hparen), hstart hparen, findParen, ← cons_append, hlonger]
      rfl
    · next hparen =>
      cases h
      refine ⟨(List.takeWhile_prefix _).length_le, ?_⟩
      rw [if_neg fun hlonger => hparen (hhead.mp hlonger)]

theorem invocationLength?_of_append {length : Nat} (hmore : Unextended text more)
    (h : invocationLength? (text ++ more) = some length) (hlength : length ≤ text.length)
    (hne : text ≠ []) : invocationLength? text = some length := by
  cases text with
  | nil => exact absurd rfl hne
  | cons c text =>
    have hc : isNameStart c = true := by
      by_contra hnot
      simp [invocationLength?, hnot] at h
    obtain ⟨hstart, hhead⟩ := hmore.argumentStart_append (cons_ne_nil c text)
    have hname := hmore.nameLength_append (cons_ne_nil c text)
    rw [cons_append] at hstart hhead hname
    rw [cons_append, invocationLength?_eq hc] at h
    rw [invocationLength?_eq hc]
    split at h
    · next hlonger =>
      have hparen := hhead.mp hlonger
      obtain ⟨close, hclose, rfl⟩ := Option.map_eq_some_iff.mp h
      rw [hstart hparen, findParen, ← cons_append] at hclose
      rw [if_pos hparen, findParen, findClosing_of_append hclose hlength]
      rfl
    · next hlonger =>
      rw [if_neg fun hparen => hlonger (hhead.mpr hparen), ← hname, h]

end

/-! ## One reading -/

namespace Dialect

variable {dialect : Dialect} {text rest more : Text} {markers : List Marker}

theorem isBlank_markerSign (dialect : Dialect) : isBlank dialect.markerSign = false := by
  cases dialect <;> decide

theorem readMarkers?_followed (hmore : Unextended text more)
    (h : dialect.readMarkers? text = some (markers, rest)) :
    dialect.readMarkers? (text ++ more) = some (markers, trimLeft (rest ++ more)) := by
  cases dialect with
  | csharp =>
    obtain ⟨hhead, close, parts, hclose, hparts, hempty, hmarkers, rfl⟩ :=
      readBracketGroup?_eq_some_iff.mp h
    obtain ⟨hlt, hlonger⟩ := findClosing_append hclose more
    refine readBracketGroup?_eq_some_iff.mpr
      ⟨by rw [head?_append, hhead, Option.some_or], close, parts, hlonger, ?_, hempty,
        hmarkers, ?_⟩
    · rw [take_append_of_le_length hlt.le, hparts]
    · rw [drop_append_of_le_length hlt, trimLeft_trimLeft_append]
  | typescript =>
    obtain ⟨tail, length, marker, rfl, hlength, hmarker, rfl, rfl⟩ :=
      readDecorator?_eq_some_iff.mp h
    have htail : tail ≠ [] := by
      rintro rfl
      cases hlength
    obtain ⟨hle, hlonger⟩ := invocationLength?_followed
      (hmore.of_suffix (suffix_cons _ _) htail) hlength
    refine readDecorator?_eq_some_iff.mpr ⟨tail ++ more, length, marker, rfl, hlonger, ?_, rfl, ?_⟩
    · rw [take_append_of_le_length hle, hmarker]
    · rw [drop_append_of_le_length hle, trimLeft_trimLeft_append]

theorem isSome_readMarkers?_of_append (hmore : Unextended text more)
    (h : dialect.readMarkers? (text ++ more) = some (markers, rest))
    (hlength : more.length < rest.length) : (dialect.readMarkers? text).isSome := by
  cases dialect with
  | csharp =>
    obtain ⟨hhead, close, parts, hclose, hparts, hempty, hmarkers, rfl⟩ :=
      readBracketGroup?_eq_some_iff.mp h
    have hlt : close + 1 < text.length := by
      have hle := (trimLeft_suffix ((text ++ more).drop (close + 1))).length_le
      rw [length_drop, length_append] at hle
      omega
    rw [take_append_of_le_length (by omega)] at hparts
    have hne : text ≠ [] := ne_nil_of_length_pos (by omega)
    rw [head?_append_of_ne_nil _ hne] at hhead
    exact Option.isSome_of_eq_some (readBracketGroup?_eq_some_iff.mpr
      ⟨hhead, close, parts, findClosing_of_append hclose (by omega), hparts, hempty, hmarkers, rfl⟩)
  | typescript =>
    obtain ⟨tail, length, marker, htext, hfound, hmarker, rfl, rfl⟩ :=
      readDecorator?_eq_some_iff.mp h
    have hle := (trimLeft_suffix (tail.drop length)).length_le
    have hwhole := congrArg List.length htext
    rw [length_drop] at hle
    rw [length_append, length_cons] at hwhole
    cases text with
    | nil => simp at hwhole; omega
    | cons c inner =>
      rw [cons_append] at htext
      obtain ⟨rfl, rfl⟩ := List.cons.inj htext
      rw [length_append] at hle
      have hlt : length < inner.length := by omega
      have hne : inner ≠ [] := ne_nil_of_length_pos (by omega)
      have hinner := invocationLength?_of_append (hmore.of_suffix (suffix_cons _ _) hne)
        hfound hlt.le hne
      rw [take_append_of_le_length hlt.le] at hmarker
      exact Option.isSome_of_eq_some (readDecorator?_eq_some_iff.mpr
        ⟨inner, length, marker, rfl, hinner, hmarker, rfl, rfl⟩)

/-! ## All markers -/

theorem peel_nil (dialect : Dialect) : dialect.peel [] = ([], []) := by
  rw [peel_eq]
  exact peelWhile_of_none (by cases dialect <;> rfl)

/-- Markers with nothing behind them are peeled off in front of any text that is no part of them. -/
theorem peelWhile_followed (hparen : (trimLeft more).head? ≠ some '(')
    (hends : (∀ c ∈ more.head?, isDottedWord c = false) ∨ ∀ c ∈ text.getLast?, isDottedWord c = false)
    (hsign : (trimLeft more).head? ≠ some dialect.markerSign)
    (h : peelWhile dialect.readMarkers? text = (markers, [])) :
    peelWhile dialect.readMarkers? (trimLeft (text ++ more)) = (markers, trimLeft more) := by
  induction hlength : text.length using Nat.strong_induction_on generalizing text markers with
  | _ length ih =>
    subst hlength
    cases hread : dialect.readMarkers? text with
    | none =>
      rw [peelWhile_of_none hread] at h
      cases h
      refine peelWhile_of_none ?_
      rw [Option.eq_none_iff_forall_ne_some]
      rintro ⟨markers, rest⟩ hfound
      exact hsign (readMarkers?_extent hfound).1
    | some found =>
      obtain ⟨first, rest⟩ := found
      rw [peelWhile_of_some hread, Prod.mk.injEq] at h
      obtain ⟨rfl, hrest⟩ := h
      have htrim : trimLeft (text ++ more) = text ++ more := by
        refine trimLeft_of_head? ?_ dialect.isBlank_markerSign
        rw [head?_append, (readMarkers?_extent hread).1, Option.some_or]
      have hlater := hends.imp_right fun hlast c hc =>
        hlast c (mem_getLast?_of_suffix (readMarkers?_suffix hread) hc)
      rw [htrim, peelWhile_of_some (readMarkers?_followed (.inr ⟨hparen, hends⟩) hread),
        ih _ (readMarkers?_length_lt hread) hlater (Prod.ext rfl hrest) rfl]

theorem peel_followed (hmore : Detached more)
    (hsign : (trimLeft more).head? ≠ some dialect.markerSign)
    (h : dialect.peel text = (markers, [])) :
    dialect.peel (text ++ more) = (markers, trimLeft more) := by
  rw [peel_eq] at h ⊢
  rw [← trimLeft_trimLeft_append]
  exact peelWhile_followed hmore.2 (.inl hmore.1) hsign h

/-- Nothing but markers stands in front of a name, if nothing but blanks is left of what stands
there. -/
theorem peel_append (hmore : StartsName more) (hlast : ∀ c ∈ text.getLast?, isDottedWord c = false)
    (hstarts : dialect.startsStatement text = true) : (dialect.peel (text ++ more)).2 = more := by
  have htrim : trimLeft more = more := hmore.trimLeft_append []
  have hnil : (peelWhile dialect.readMarkers? (trimLeft text)).2 = [] := by
    rw [startsStatement, Bool.or_eq_true] at hstarts
    rcases hstarts with hblank | hblank
    · rw [show trimLeft text = [] from dropWhile_eq_nil_iff.mpr (all_eq_true.mp hblank),
        peelWhile_of_none (by cases dialect <;> rfl)]
    · rw [peel_eq] at hblank
      rw [← trimLeft_peelWhile (trimLeft_trimLeft text)]
      exact dropWhile_eq_nil_iff.mpr (all_eq_true.mp hblank)
  obtain ⟨c, hhead, hc⟩ := hmore
  have hother : ∀ {sign : Char}, isNameStart sign = false → (trimLeft more).head? ≠ some sign := by
    intro sign hsign heq
    rw [htrim, hhead] at heq
    exact ne_of_kind hc hsign (Option.some.inj heq)
  rw [peel_eq, ← trimLeft_trimLeft_append, peelWhile_followed (hother (by decide))
    (.inr fun d hd => hlast d (mem_getLast?_of_suffix (trimLeft_suffix text) hd))
    (hother (by cases dialect <;> decide)) (Prod.ext rfl hnil), htrim]

theorem peel_of_readMarkers? (h : dialect.readMarkers? (trimLeft text) = some (markers, [])) :
    dialect.peel text = (markers, []) := by
  rw [peel_eq, peelWhile_of_some h, peelWhile_of_none (by cases dialect <;> rfl), append_nil]

theorem head?_of_peel (h : (dialect.peel text).1 ≠ []) :
    (trimLeft text).head? = some dialect.markerSign := by
  rw [peel_eq] at h
  cases hread : dialect.readMarkers? (trimLeft text) with
  | none => exact absurd (by rw [peelWhile_of_none hread]) h
  | some found => exact (readMarkers?_extent hread).1

/-- What is peeled off in front of an open parenthesis is peeled off the text up to there alone. -/
theorem peelWhile_of_append {front : Text} (hlast : text.getLast? = some '(') (hne : front ≠ [])
    (h : peelWhile dialect.readMarkers? (text ++ more) = (markers, front ++ more)) :
    peelWhile dialect.readMarkers? text = (markers, front) := by
  induction hlength : text.length using Nat.strong_induction_on generalizing text markers with
  | _ length ih =>
    subst hlength
    have hpos : 0 < front.length := length_pos_of_ne_nil hne
    have hends : EndsMarkers text more := Or.inl hlast
    cases hread : dialect.readMarkers? text with
    | none =>
      cases hlonger : dialect.readMarkers? (text ++ more) with
      | none =>
        rw [peelWhile_of_none hlonger, Prod.mk.injEq] at h
        rw [peelWhile_of_none hread, h.1, append_cancel_right h.2]
      | some found =>
        obtain ⟨first, rest⟩ := found
        rw [peelWhile_of_some hlonger, Prod.mk.injEq] at h
        have hle := (dialect.peelWhile_suffix rest).length_le
        rw [h.2, length_append] at hle
        have hsome := isSome_readMarkers?_of_append hends.unextended hlonger (by omega)
        rw [hread] at hsome
        cases hsome
    | some found =>
      obtain ⟨first, rest⟩ := found
      rw [peelWhile_of_some (readMarkers?_followed hends.unextended hread), Prod.mk.injEq] at h
      obtain ⟨rfl, hfront⟩ := h
      have hrest : rest ≠ [] := by
        rintro rfl
        have hle := (dialect.peelWhile_suffix (trimLeft ([] ++ more))).length_le.trans
          (trimLeft_suffix _).length_le
        rw [hfront, length_append, nil_append] at hle
        omega
      have hend : rest.getLast? = some '(' := by
        rw [getLast?_of_suffix (readMarkers?_suffix hread) hrest, hlast]
      have htrim : trimLeft (rest ++ more) = rest ++ more := by
        obtain ⟨c, tail, rfl⟩ := exists_cons_of_ne_nil hrest
        have hc : isBlank c = false := of_dropWhile_eq_cons (trimLeft_of_readMarkers? hread)
        exact trimLeft_cons_of_not_blank hc _
      rw [htrim] at hfront ⊢
      rw [peelWhile_of_some hread, ih _ (readMarkers?_length_lt hread) hend (Prod.ext rfl hfront) rfl]

theorem peel_of_append {front : Text} (hlast : text.getLast? = some '(') (hne : front ≠ [])
    (h : dialect.peel (text ++ more) = (markers, front ++ more)) :
    dialect.peel text = (markers, front) := by
  rw [peel_eq] at h ⊢
  rw [trimLeft_append_of_getLast? hlast (by decide)] at h
  exact peelWhile_of_append (getLast?_trimLeft hlast (by decide)) hne h

end Dialect

end SourceAtlas
