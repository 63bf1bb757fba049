import SourceAtlas.Proofs.Marker.Followed
import SourceAtlas.Proofs.Parser.Script

/-!
# Parameter lists over several rows

A parameter list that does not close on its line is read on over the rows below, each joined to the
text by one blank, until a parenthesis closes it. Behind that parenthesis stands the result type.
-/

namespace SourceAtlas.Script

open List

variable {row line text name : Text} {markers : List Marker} {openParen : Nat}
  {below rows : List Text}

/-! ## Parentheses -/

section

variable {more : Text} {start close : Nat}

theorem getElem?_of_findParen (h : findParen text start = some close) : text[close]? = some ')' := by
  obtain ⟨-, hlength, ⟨front, hfront⟩, -⟩ := findClosing_eq_some h
  have hindex : front.length = close := by
    rw [hfront, length_append, length_singleton] at hlength
    omega
  rw [← getElem?_take_of_lt (Nat.lt_succ_self close), hfront, ← hindex,
    getElem?_concat_length]

theorem length_le_of_findParen_append (hopen : findParen text start = none)
    (h : findParen (text ++ more) start = some close) : text.length ≤ close := by
  by_contra hlt
  have hclosed := findClosing_of_append h (Nat.lt_of_not_le hlt)
  rw [findParen, hclosed] at hopen
  cases hopen

theorem findParen_append_of_notMem (hopen : findParen text start = none) (hmore : ')' ∉ more) :
    findParen (text ++ more) start = none := by
  cases h : findParen (text ++ more) start with
  | none => rfl
  | some close =>
    have hle := length_le_of_findParen_append hopen h
    have hclose := getElem?_of_findParen h
    rw [getElem?_append_right hle] at hclose
    exact absurd (mem_of_getElem? hclose) hmore

end

/-! ## Rows that are joined -/

/-- A header with the rows that continue it, as they are joined. -/
def joinRows (text : Text) (rows : List Text) : Text :=
  text ++ rows.flatMap fun row => ' ' :: trim row

theorem notMem_joinRows {c : Char} (hc : c ≠ ' ') (htext : c ∉ text) (hrows : ∀ row ∈ rows, c ∉ row) :
    c ∉ joinRows text rows := by
  intro hmem
  rcases mem_append.mp hmem with hmem | hmem
  · exact htext hmem
  · obtain ⟨row, hrow, hmem⟩ := mem_flatMap.mp hmem
    rcases mem_cons.mp hmem with hmem | hmem
    · exact hc hmem
    · exact hrows row hrow (trim_subset row hmem)

theorem joinParameters_of_closed (h : (findParen text openParen).isSome = true) (below : List Text) :
    joinParameters openParen text below = (text, below) := by
  cases below with
  | nil => rfl
  | cons row below => rw [joinParameters, if_pos h]

theorem joinParameters_append
    (h : ∀ count < rows.length, findParen (joinRows text (rows.take count)) openParen = none)
    (below : List Text) :
    joinParameters openParen text (rows ++ below) =
      joinParameters openParen (joinRows text rows) below := by
  induction rows generalizing text with
  | nil => simp [joinRows]
  | cons row rows ih =>
    have hopen : findParen text openParen = none := by simpa [joinRows] using h 0 (Nat.succ_pos _)
    have hjoin : ∀ front, joinRows (text ++ ' ' :: trim row) front = joinRows text (row :: front) := by
      simp [joinRows]
    rw [cons_append, joinParameters, hopen, ← hjoin]
    refine ih fun count hcount => ?_
    rw [hjoin]
    exact h (count + 1) (Nat.succ_lt_succ hcount)

theorem prefix_joinParameters (openParen : Nat) (text : Text) (below : List Text) :
    text <+: (joinParameters openParen text below).1 := by
  induction below generalizing text with
  | nil => exact prefix_rfl
  | cons row below ih =>
    rw [joinParameters]
    split
    · exact prefix_rfl
    · exact (prefix_append _ _).trans (ih _)

theorem joinParameters_of_open
    (h : findParen (joinParameters openParen text below).1 openParen = none) :
    (joinParameters openParen text below).2 = [] := by
  induction below generalizing text with
  | nil => rfl
  | cons row below ih =>
    rw [joinParameters] at h ⊢
    split at h
    · next hclosed =>
      rw [h] at hclosed
      cases hclosed
    · next hopen =>
      rw [if_neg hopen]
      exact ih h

/-! ## Function headers -/

/-- Whether a parameter list that opens on a line goes on over exactly these rows. -/
structure ClosesAfter (line : Text) (openParen : Nat) (rows : List Text) : Prop where
  opened : ∀ count < rows.length, findParen (joinRows line (rows.take count)) openParen = none
  closed : (findParen (joinRows line rows) openParen).isSome = true

/-- The result type that is read behind a parameter list over some rows. -/
def rowsResult (line : Text) (openParen : Nat) (rows : List Text) : Option Text :=
  (findParen (joinRows line rows) openParen).bind fun close =>
    resultType? ((joinRows line rows).drop (close + 1))

theorem functionMember_inj {head : Text} {first second : Option Text} :
    functionMember name markers head first = functionMember name markers head second ↔
      first = second := by
  refine ⟨fun h => ?_, fun h => by rw [h]⟩
  have hsignature := congrArg Member.signature h
  simp only [functionMember, append_cancel_left_eq] at hsignature
  cases first with
  | none =>
    cases second with
    | none => rfl
    | some result => simp at hsignature
  | some result =>
    cases second with
    | none => simp at hsignature
    | some other => simpa using hsignature

theorem ClosesAfter.function_eq (h : ClosesAfter line openParen rows) (name : Text)
    (markers : List Marker) (after : List Text) :
    ∃ close, findParen (joinRows line rows) openParen = some close ∧
      function line name openParen (rows ++ after) markers =
        (some (functionMember name markers ((joinRows line rows).take (close + 1))
          (rowsResult line openParen rows)), after) := by
  obtain ⟨close, hclose⟩ := Option.isSome_iff_exists.mp h.closed
  have hjoined : joinParameters openParen line (rows ++ after) = (joinRows line rows, after) := by
    rw [joinParameters_append h.opened, joinParameters_of_closed h.closed]
  refine ⟨close, hclose, ?_⟩
  rw [Script.function_eq, hjoined, hclose, rowsResult, hclose]
  rfl

theorem rowsResult_subset {result : Text} (h : rowsResult line openParen rows = some result) :
    result ⊆ joinRows line rows := by
  obtain ⟨close, -, hresult⟩ := Option.bind_eq_some_iff.mp h
  exact Subset.trans (resultType?_subset hresult) (drop_subset _ _)

end SourceAtlas.Script
