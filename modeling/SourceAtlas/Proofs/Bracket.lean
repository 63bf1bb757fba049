import SourceAtlas.Bracket
import SourceAtlas.Proofs.Text.Basic
import SourceAtlas.Proofs.Text.Char

/-!
# Scanning past brackets and quotes

How the two bracket scanners go over a stretch of text: inert characters change nothing, a bracket
is owed until it closes, and a quoted part is passed over whole.
-/

namespace SourceAtlas

open List

variable {c quote : Char} {front inner text : Text} {close start : Nat}

def isInert (c : Char) : Bool :=
  !isQuote c && !isCloser c && (closerOf? c).isNone

theorem isInert_iff :
    isInert c = true ↔ isQuote c = false ∧ isCloser c = false ∧ closerOf? c = none := by
  simp [isInert, and_assoc]

def signs : Text :=
  ['\x22', '\x27', '\x60', '(', ')', '[', ']', '{', '}', '<', '>']

theorem isInert_of_kind {kind : Char → Bool} (hsigns : signs.any kind = false) (h : kind c = true) :
    isInert c = true := by
  have hc : c ∉ signs := notMem_of_kind h hsigns
  simp only [signs, mem_cons, not_mem_nil, or_false, not_or] at hc
  rw [isInert_iff]
  refine ⟨by simp [isQuote, hc], by simp [isCloser, hc], ?_⟩
  unfold closerOf?
  split
  case h_5 => rfl
  all_goals simp at hc

theorem isInert_of_isWord (h : isWord c = true) : isInert c = true :=
  isInert_of_kind (by decide) h

/-! ## Segments -/

namespace Segments

def prepend (front : Text) (segments : Segments) : Segments :=
  (front ++ segments.1, segments.2)

theorem map_prepend_nil (segments? : Option Segments) : segments?.map (prepend []) = segments? := by
  cases segments? <;> rfl

theorem map_prepend_map_prepend (front middle : Text) (segments? : Option Segments) :
    (segments?.map (prepend middle)).map (prepend front) =
      segments?.map (prepend (front ++ middle)) := by
  cases segments? <;> simp [prepend]

end Segments

variable {separator : Text} {owed : List Char}

theorem segmentsFrom_cons_inert (h : isInert c = true) (hseparator : [c] ≠ separator ∨ owed ≠ [])
    (rest : Text) :
    segmentsFrom separator owed none (c :: rest) =
      (segmentsFrom separator owed none rest).map (Segments.prepend [c]) := by
  obtain ⟨hquote, hcloser, hopener⟩ := isInert_iff.mp h
  have hnot : (owed.isEmpty && [c] == separator) = false := by
    rcases hseparator with hne | hne
    · simp [hne]
    · simp [hne]
  change (if isQuote c = true then _ else _) = _
  simp only [hquote, hopener, hcloser, hnot, Bool.false_eq_true, if_false]
  rfl

theorem segmentsFrom_append_inert
    (h : ∀ c ∈ front, isInert c = true ∧ ([c] ≠ separator ∨ owed ≠ [])) (rest : Text) :
    segmentsFrom separator owed none (front ++ rest) =
      (segmentsFrom separator owed none rest).map (Segments.prepend front) := by
  induction front with
  | nil => exact (Segments.map_prepend_nil _).symm
  | cons c front ih =>
    have hc := h c (by simp)
    rw [cons_append, segmentsFrom_cons_inert hc.1 hc.2,
      ih (fun d hd => h d (by simp [hd])), Segments.map_prepend_map_prepend]
    rfl

theorem segmentsFrom_open {closer : Char} (hquote : isQuote c = false)
    (h : closerOf? c = some closer) (rest : Text) :
    segmentsFrom separator owed none (c :: rest) =
      (segmentsFrom separator (closer :: owed) none rest).map (Segments.prepend [c]) := by
  change (if isQuote c = true then _ else _) = _
  simp only [hquote, h, Bool.false_eq_true, if_false]
  rfl

theorem segmentsFrom_close (hquote : isQuote c = false) (hopener : closerOf? c = none)
    (h : isCloser c = true) (rest : Text) :
    segmentsFrom separator (c :: owed) none (c :: rest) =
      (segmentsFrom separator owed none rest).map (Segments.prepend [c]) := by
  change (if isQuote c = true then _ else _) = _
  simp only [hquote, hopener, h, Bool.false_eq_true, if_false, if_true]
  rfl

theorem segmentsFrom_cut (h : isInert c = true) (rest : Text) :
    segmentsFrom [c] [] none (c :: rest) =
      (segmentsFrom [c] [] none rest).map Segments.cut := by
  obtain ⟨hquote, hcloser, hopener⟩ := isInert_iff.mp h
  change (if isQuote c = true then _ else _) = _
  simp [hquote, hopener, hcloser]

/-- Between quotes only the closing quote and the backslash are special. -/
theorem segmentsFrom_cons_quoted (h : c ≠ '\\') (rest : Text) :
    segmentsFrom separator owed (some quote) (c :: rest) =
      (segmentsFrom separator owed (if c = quote then none else some quote) rest).map
        (Segments.prepend [c]) := by
  rw [segmentsFrom.eq_def]
  simp only [h, if_false]
  split <;> rfl

theorem segmentsFrom_inside (h : ∀ c ∈ front, c ≠ quote ∧ c ≠ '\\') (rest : Text) :
    segmentsFrom separator owed (some quote) (front ++ rest) =
      (segmentsFrom separator owed (some quote) rest).map (Segments.prepend front) := by
  induction front with
  | nil => exact (Segments.map_prepend_nil _).symm
  | cons c front ih =>
    have hc := h c (by simp)
    rw [cons_append, segmentsFrom_cons_quoted hc.2, if_neg hc.1,
      ih (fun d hd => h d (by simp [hd]))]
    exact Segments.map_prepend_map_prepend [c] front _

theorem segmentsFrom_quoted (hquote : isQuote quote = true) (h : ∀ c ∈ inner, c ≠ quote ∧ c ≠ '\\')
    (rest : Text) :
    segmentsFrom separator owed none (quote :: (inner ++ quote :: rest)) =
      (segmentsFrom separator owed none rest).map
        (Segments.prepend (quote :: (inner ++ [quote]))) := by
  have hslash : quote ≠ '\\' := by
    rintro rfl
    exact absurd hquote (by decide)
  have hend : segmentsFrom separator owed (some quote) (quote :: rest) =
      (segmentsFrom separator owed none rest).map (Segments.prepend [quote]) := by
    rw [segmentsFrom_cons_quoted hslash, if_pos rfl]
  change (if isQuote quote = true then _ else _) = _
  simp only [hquote, if_true]
  rw [segmentsFrom_inside h, hend, Segments.map_prepend_map_prepend]
  exact Segments.map_prepend_map_prepend [quote] (inner ++ [quote]) _

/-! ## Closing brackets -/

variable {opener closer : Char}

theorem closingFrom_append_plain (h : ∀ c ∈ front, isQuote c = false ∧ c ≠ opener ∧ c ≠ closer)
    (depth : Int) (index : Nat) (rest : Text) :
    closingFrom opener closer depth none index (front ++ rest) =
      closingFrom opener closer depth none (index + front.length) rest := by
  induction front generalizing index with
  | nil => rfl
  | cons c front ih =>
    obtain ⟨hquote, hopener, hcloser⟩ := h c (by simp)
    rw [cons_append]
    change (if isQuote c = true then _ else _) = _
    simp only [hquote, hopener, hcloser, Bool.false_eq_true, if_false]
    rw [ih (fun d hd => h d (by simp [hd])), length_cons]
    congr 1
    omega

theorem closingFrom_opener (hquote : isQuote opener = false) (depth : Int) (index : Nat)
    (rest : Text) :
    closingFrom opener closer depth none index (opener :: rest) =
      closingFrom opener closer (depth + 1) none (index + 1) rest := by
  change (if isQuote opener = true then _ else _) = _
  simp [hquote]

theorem closingFrom_closer (hquote : isQuote closer = false) (hne : closer ≠ opener)
    (index : Nat) (rest : Text) :
    closingFrom opener closer 1 none index (closer :: rest) = some index := by
  change (if isQuote closer = true then _ else _) = _
  simp [hquote, hne]

theorem closingFrom_cons_quoted (h : c ≠ '\\') (depth : Int) (index : Nat) (rest : Text) :
    closingFrom opener closer depth (some quote) index (c :: rest) =
      closingFrom opener closer depth (if c = quote then none else some quote) (index + 1) rest := by
  rw [closingFrom.eq_def]
  simp only [h, if_false]
  split <;> rfl

theorem closingFrom_eq_some {depth : Int} {quote : Option Char} {index : Nat}
    (h : closingFrom opener closer depth quote index text = some close) :
    ∃ front rest, text = front ++ closer :: rest ∧ close = index + front.length ∧
      ∀ more, closingFrom opener closer depth quote index (front ++ closer :: more) = some close := by
  -- a character in front moves the offset by one
  have push : ∀ {depth depth' : Int} {quote quote' : Option Char} {index : Nat} {text : Text}
      (c : Char), (∀ more, closingFrom opener closer depth quote index (c :: more) =
        closingFrom opener closer depth' quote' (index + 1) more) →
      (∃ front rest, text = front ++ closer :: rest ∧ close = index + 1 + front.length ∧
        ∀ more, closingFrom opener closer depth' quote' (index + 1) (front ++ closer :: more) =
          some close) →
      ∃ front rest, c :: text = front ++ closer :: rest ∧ close = index + front.length ∧
        ∀ more, closingFrom opener closer depth quote index (front ++ closer :: more) =
          some close := by
    rintro depth depth' quote quote' index text c hstep ⟨front, rest, rfl, rfl, hmore⟩
    refine ⟨c :: front, rest, rfl, by rw [length_cons]; omega, fun more => ?_⟩
    rw [cons_append, hstep, hmore]
  fun_induction closingFrom opener closer depth quote index text with
  | case1 => cases h
  | case2 => cases h
  | case3 depth index quote d after ih =>
    obtain ⟨front, rest, rfl, rfl, hmore⟩ := ih h
    refine ⟨'\\' :: d :: front, rest, rfl, by simp only [length_cons]; omega, fun more => ?_⟩
    exact hmore more
  | case4 depth index rest quote hescape ih =>
    refine push quote (fun more => ?_) (ih h)
    rw [closingFrom_cons_quoted hescape, if_pos rfl]
  | case5 depth index c rest quote hescape hne ih =>
    refine push c (fun more => ?_) (ih h)
    rw [closingFrom_cons_quoted hescape, if_neg hne]
  | case6 depth index c rest hquote ih =>
    refine push c (fun more => ?_) (ih h)
    change (if isQuote c = true then _ else _) = _
    rw [if_pos hquote]
  | case7 depth index rest hquote ih =>
    exact push opener (closingFrom_opener (by simpa using hquote) depth index) (ih h)
  | case8 index rest hquote hopener =>
    obtain rfl := Option.some.inj h
    exact ⟨[], rest, rfl, rfl, closingFrom_closer (by simpa using hquote) hopener index⟩
  | case9 depth index rest hquote hopener hdepth ih =>
    refine push closer (fun more => ?_) (ih h)
    change (if isQuote closer = true then _ else _) = _
    simp [hquote, hopener, hdepth]
  | case10 depth index c rest hquote hopener hcloser ih =>
    refine push c (fun more => ?_) (ih h)
    change (if isQuote c = true then _ else _) = _
    simp [hquote, hopener, hcloser]

theorem findClosing_eq_some (h : findClosing text start opener closer = some close) :
    start ≤ close ∧ (text.take (close + 1)).length = close + 1 ∧
      (∃ front, text.take (close + 1) = front ++ [closer]) ∧ ∃ rest, text = text.take (close + 1) ++ rest ∧
        ∀ more, findClosing (text.take (close + 1) ++ more) start opener closer = some close := by
  obtain ⟨front, rest, hdrop, rfl, hmore⟩ := closingFrom_eq_some h
  obtain ⟨lead, rfl, rfl⟩ : ∃ lead, text = lead ++ (front ++ closer :: rest) ∧
      lead.length = start := by
    refine ⟨text.take start, by rw [← hdrop, take_append_drop], ?_⟩
    rw [length_take, Nat.min_eq_left]
    by_contra hlt
    rw [drop_eq_nil_of_le (by omega)] at hdrop
    simp at hdrop
  have hfront : (lead ++ (front ++ closer :: rest)).take (lead.length + front.length + 1) =
      lead ++ front ++ [closer] := by
    rw [Nat.add_assoc, take_length_add_append, take_length_add_append,
      take_succ_cons, take_zero, append_assoc]
  rw [hfront]
  refine ⟨Nat.le_add_right _ _, by simp [Nat.add_assoc], ⟨_, rfl⟩, rest, by simp, fun more => ?_⟩
  have hcut : (lead ++ front ++ [closer] ++ more).drop lead.length = front ++ closer :: more := by
    simp
  rw [findClosing, hcut]
  exact hmore more

theorem findClosing_append (h : findClosing text start opener closer = some close) (more : Text) :
    close < text.length ∧ findClosing (text ++ more) start opener closer = some close := by
  obtain ⟨-, hlength, -, rest, htext, hmore⟩ := findClosing_eq_some h
  have hclose : close < text.length := by
    rw [length_take] at hlength
    omega
  refine ⟨hclose, ?_⟩
  have hlonger := hmore (rest ++ more)
  rwa [← append_assoc, ← htext] at hlonger

end SourceAtlas
