import SourceAtlas.Dialect
import SourceAtlas.Proofs.Bracket
import SourceAtlas.Proofs.Text.Words

/-!
# Markers in front of a text

Markers are peeled off one reading at a time. A reading starts at the sign of a marker and leaves a
shorter end of the text without blanks in front, so a text that does not start with that sign is left
whole.
-/

namespace SourceAtlas

open List Option

/-! ## One reading -/

theorem readBracketGroup?_eq_some_iff {text rest : Text} {markers : List Marker} :
    readBracketGroup? text = some (markers, rest) ↔
      text.head? = some '[' ∧ ∃ close parts, findClosing text 0 '[' ']' = some close ∧
        splitCommas ((text.take close).drop 1) = some parts ∧ parts.isEmpty = false ∧
        parts.mapM (Marker.build? "Attribute".toList) = some markers ∧
        rest = trimLeft (text.drop (close + 1)) := by
  unfold readBracketGroup?
  split
  · next tail =>
    simp only [bind, bind_eq_some_iff, head?_cons, true_and]
    refine exists_congr fun close => ?_
    constructor
    · rintro ⟨hclose, parts, hparts, h⟩
      split at h
      · cases h
      · next hempty =>
        obtain ⟨found, hfound, heq⟩ := bind_eq_some_iff.mp h
        cases heq
        exact ⟨parts, hclose, hparts, by simpa using hempty, hfound, rfl⟩
    · rintro ⟨parts, hclose, hparts, hempty, hfound, rfl⟩
      refine ⟨hclose, parts, hparts, ?_⟩
      rw [hempty, if_neg Bool.false_ne_true, hfound]
      rfl
  · next hother =>
    refine iff_of_false (by simp) ?_
    rintro ⟨hhead, -⟩
    obtain ⟨tail, rfl⟩ := head?_eq_some_iff.mp hhead
    exact hother tail rfl

theorem readDecorator?_eq_some_iff {text rest : Text} {markers : List Marker} :
    readDecorator? text = some (markers, rest) ↔
      ∃ tail length marker, text = '@' :: tail ∧ invocationLength? tail = some length ∧
        Marker.build? [] (tail.take length) = some marker ∧ markers = [marker] ∧
        rest = trimLeft (tail.drop length) := by
  unfold readDecorator?
  split
  · next tail =>
    simp only [bind, bind_eq_some_iff, some.injEq, Prod.mk.injEq]
    constructor
    · rintro ⟨length, hlength, marker, hmarker, rfl, rfl⟩
      exact ⟨tail, length, marker, rfl, hlength, hmarker, rfl, rfl⟩
    · rintro ⟨tail, length, marker, htail, hlength, hmarker, rfl, rfl⟩
      cases htail
      exact ⟨length, hlength, marker, hmarker, rfl, rfl⟩
  · next hother =>
    refine iff_of_false (by simp) ?_
    rintro ⟨tail, -, -, rfl, -⟩
    exact hother tail rfl

namespace Dialect

def markerSign : Dialect → Char
  | .csharp => '['
  | .typescript => '@'

def readMarkers? : Dialect → Text → Option (List Marker × Text)
  | .csharp => readBracketGroup?
  | .typescript => readDecorator?

theorem peel_eq (dialect : Dialect) (text : Text) :
    dialect.peel text = peelWhile dialect.readMarkers? (trimLeft text) := by
  cases dialect <;> rfl

theorem peel_trimLeft (dialect : Dialect) (text : Text) :
    dialect.peel (trimLeft text) = dialect.peel text := by
  rw [peel_eq, peel_eq, trimLeft_trimLeft]

variable {dialect : Dialect} {text rest : Text} {markers : List Marker} {c : Char}

/-- A reading starts at the sign of a marker, takes at least that and leaves no blanks in front. -/
theorem readMarkers?_extent (h : dialect.readMarkers? text = some (markers, rest)) :
    text.head? = some dialect.markerSign ∧
      ∃ length, 0 < length ∧ rest = trimLeft (text.drop length) := by
  cases dialect with
  | csharp =>
    obtain ⟨hhead, close, -, -, -, -, -, hrest⟩ := readBracketGroup?_eq_some_iff.mp h
    exact ⟨hhead, close + 1, Nat.succ_pos close, hrest⟩
  | typescript =>
    obtain ⟨tail, length, -, rfl, -, -, -, hrest⟩ := readDecorator?_eq_some_iff.mp h
    exact ⟨rfl, length + 1, Nat.succ_pos length, hrest⟩

theorem readMarkers?_of_head? (hhead : text.head? = some c) (hc : c ≠ dialect.markerSign) :
    dialect.readMarkers? text = none := by
  rw [eq_none_iff_forall_ne_some]
  rintro ⟨markers, rest⟩ hread
  exact hc (some.inj (hhead.symm.trans (readMarkers?_extent hread).1))

theorem readMarkers?_suffix (h : dialect.readMarkers? text = some (markers, rest)) :
    rest <:+ text := by
  obtain ⟨-, length, -, rfl⟩ := readMarkers?_extent h
  exact (trimLeft_suffix _).trans (drop_suffix length text)

theorem readMarkers?_length_lt (h : dialect.readMarkers? text = some (markers, rest)) :
    rest.length < text.length := by
  obtain ⟨hhead, length, hpos, rfl⟩ := readMarkers?_extent h
  obtain ⟨tail, rfl⟩ := head?_eq_some_iff.mp hhead
  have hle := (trimLeft_suffix ((dialect.markerSign :: tail).drop length)).length_le
  rw [length_drop, length_cons] at hle
  rw [length_cons]
  omega

theorem trimLeft_of_readMarkers? (h : dialect.readMarkers? text = some (markers, rest)) :
    trimLeft rest = rest := by
  obtain ⟨-, length, -, rfl⟩ := readMarkers?_extent h
  exact trimLeft_trimLeft _

/-! ## All markers -/

theorem peelWhile_of_none (h : dialect.readMarkers? text = none) :
    peelWhile dialect.readMarkers? text = ([], text) := by
  rw [peelWhile, h]

theorem peelWhile_of_some (h : dialect.readMarkers? text = some (markers, rest)) :
    peelWhile dialect.readMarkers? text =
      (markers ++ (peelWhile dialect.readMarkers? rest).1,
        (peelWhile dialect.readMarkers? rest).2) := by
  rw [peelWhile, h]
  simp only [readMarkers?_length_lt h, if_true]

theorem peel_of_head? (hhead : text.head? = some c) (hblank : isBlank c = false)
    (hc : c ≠ dialect.markerSign) : dialect.peel text = ([], text) := by
  rw [peel_eq, trimLeft_of_head? hhead hblank, peelWhile_of_none (readMarkers?_of_head? hhead hc)]

theorem peelWhile_suffix (dialect : Dialect) (text : Text) :
    (peelWhile dialect.readMarkers? text).2 <:+ text := by
  fun_induction peelWhile dialect.readMarkers? text with
  | case1 text hnone => exact suffix_rfl
  | case2 text markers rest hread hlt more ih => exact ih.trans (readMarkers?_suffix hread)
  | case3 text markers rest hread hlt => exact readMarkers?_suffix hread

theorem peel_suffix (dialect : Dialect) (text : Text) : (dialect.peel text).2 <:+ text := by
  rw [peel_eq]
  exact (dialect.peelWhile_suffix _).trans (trimLeft_suffix text)

theorem trimLeft_peelWhile (htrim : trimLeft text = text) :
    trimLeft (peelWhile dialect.readMarkers? text).2 = (peelWhile dialect.readMarkers? text).2 := by
  fun_induction peelWhile dialect.readMarkers? text with
  | case1 => exact htrim
  | case2 text markers rest hread hlt more ih => exact ih (trimLeft_of_readMarkers? hread)
  | case3 text markers rest hread hlt => exact trimLeft_of_readMarkers? hread

end Dialect

/-! ## Names and their arguments -/

section

variable {more : Text}

def StartsName (more : Text) : Prop :=
  ∃ c, more.head? = some c ∧ isNameStart c = true

theorem StartsName.ne_nil (h : StartsName more) : more ≠ [] := by
  rintro rfl
  obtain ⟨c, hhead, -⟩ := h
  cases hhead

theorem StartsName.eq_false {kind : Char → Bool} (h : StartsName more)
    (hkind : ∀ c, isNameStart c = true → kind c = false) : ∀ c ∈ more.head?, kind c = false := by
  obtain ⟨d, hhead, hd⟩ := h
  intro c hc
  rw [hhead] at hc
  cases hc
  exact hkind d hd

theorem StartsName.trimLeft_append (h : StartsName more) (text : Text) :
    trimLeft (text ++ more) = trimLeft text ++ more := by
  apply dropWhile_append_right
  apply h.eq_false
  intro c hc
  exact isBlank_eq_false_of_isWord (isWord_of_isNameStart hc)

end

def nameLength (text : Text) : Nat :=
  (text.takeWhile isDottedWord).length

def argumentStart (text : Text) : Nat :=
  nameLength text + ((text.drop (nameLength text)).takeWhile fun c => c == ' ' || c == '\t').length

theorem invocationLength?_eq {c : Char} (hc : isNameStart c = true) (text : Text) :
    invocationLength? (c :: text) =
      if ((c :: text).drop (argumentStart (c :: text))).head? = some '(' then
        (findParen (c :: text) (argumentStart (c :: text))).map (· + 1)
      else some (nameLength (c :: text)) := by
  unfold invocationLength?
  simp only [hc, if_true]
  split
  · next tail hparen =>
    have hstart : (c :: text).drop (argumentStart (c :: text)) = '(' :: tail := hparen
    rw [hstart, head?_cons, if_pos rfl]
    rfl
  · next hother =>
    have hstart : ((c :: text).drop (argumentStart (c :: text))).head? ≠ some '(' := by
      intro hhead
      obtain ⟨tail, htail⟩ := head?_eq_some_iff.mp hhead
      exact hother tail htail
    rw [if_neg hstart]
    rfl

end SourceAtlas
