import Mathlib.Data.List.Forall2
import SourceAtlas.Endpoint
import SourceAtlas.Proofs.Text.Case

/-!
# The HTTP method of a marker

A C# marker names its HTTP method in any letter case, and the method is given in capitals. Three
letters outside ASCII count as forms of `i` and `s`. Two of them have the plain capital; the third, a
dotted capital `I`, is its own capital. So a marker that spells the method with it gives a text that
is no HTTP method.
-/

namespace SourceAtlas

open List

/-- The capital `I` with a dot. -/
def dottedI : Char := 'İ'

/-- What a marker that spells `options` with a dotted capital `I` gives. -/
def dottedOptions : Text :=
  "OPT".toList ++ dottedI :: "ONS".toList

/-! ## One letter -/

theorem toNat_toUpper (c : Char) :
    c.toUpper.toNat = if 0x61 ≤ c.toNat ∧ c.toNat ≤ 0x7A then c.toNat - 32 else c.toNat := by
  unfold Char.toUpper
  by_cases hletter : 0x61 ≤ c.toNat ∧ c.toNat ≤ 0x7A
  · have hval : c.val ≥ 'a'.val ∧ c.val ≤ 'z'.val := by
      rw [ge_iff_le, UInt32.le_iff_toNat_le, UInt32.le_iff_toNat_le]
      exact hletter
    rw [dif_pos hval, if_pos hletter, Char.toNat_mk, UInt32.toNat_add]
    have hshift : ('A'.val - 'a'.val).toNat = 2 ^ 32 - 32 := rfl
    rw [hshift]
    have hc : c.val.toNat = c.toNat := rfl
    omega
  · have hval : ¬(c.val ≥ 'a'.val ∧ c.val ≤ 'z'.val) := by
      rw [ge_iff_le, UInt32.le_iff_toNat_le, UInt32.le_iff_toNat_le]
      exact hletter
    rw [dif_neg hval, if_neg hletter]

/-- Whether a character of a marker stands for a capital letter. -/
def StandsFor (letter c : Char) : Prop :=
  upperChar c = [letter] ∨ letter = 'I' ∧ c = dottedI

def isCapital (c : Char) : Bool :=
  0x41 ≤ c.toNat && c.toNat ≤ 0x5A

theorem standsFor_of_sameLetter {letter c : Char} (hletter : isCapital letter = true)
    (h : sameLetter letter c = true) : StandsFor letter c := by
  simp only [isCapital, Bool.and_eq_true, decide_eq_true_eq] at hletter
  have hlower := toNat_toLower letter
  rw [if_pos hletter] at hlower
  have hform : ∀ small : Char, letter.toLower = small → letter.toNat + 32 = small.toNat := by
    rintro small rfl
    exact hlower.symm
  simp only [sameLetter, Bool.or_eq_true, Bool.and_eq_true, beq_iff_eq] at h
  -- The same ASCII letter, one of the two further forms of `i`, or the one of `s`.
  obtain (hsame | ⟨hi, hdotted | hdotless⟩) | ⟨hs, hlong⟩ := h
  · left
    have hc := toNat_toLower c
    rw [← hsame, hlower] at hc
    have hascii : c.toNat < 0x80 := by
      split at hc <;> omega
    have hupper : c.toUpper = letter := by
      apply Char.toNat_inj.mp
      rw [toNat_toUpper]
      split at hc <;> split <;> omega
    rw [upperChar, if_pos hascii, hupper]
  · right
    have hI : letter = 'I' := Char.toNat_inj.mp (Nat.add_right_cancel (hform 'i' hi))
    exact ⟨hI, Char.toNat_inj.mp hdotted⟩
  · left
    have hI : letter = 'I' := Char.toNat_inj.mp (Nat.add_right_cancel (hform 'i' hi))
    have hc : c = 'ı' := Char.toNat_inj.mp hdotless
    rw [hI, hc]
    rfl
  · left
    have hS : letter = 'S' := Char.toNat_inj.mp (Nat.add_right_cancel (hform 's' hs))
    have hc : c = 'ſ' := Char.toNat_inj.mp hlong
    rw [hS, hc]
    rfl

/-! ## One word -/

theorem forall₂_of_spells {word text : Text} (hword : word.all isCapital = true)
    (h : spells word text = true) : Forall₂ StandsFor word text := by
  obtain ⟨hlength, hletters⟩ := Bool.and_eq_true_iff.mp h
  rw [forall₂_iff_zip]
  refine ⟨beq_iff_eq.mp hlength, fun hmem => ?_⟩
  have hsame := all_eq_true.mp hletters _ hmem
  exact standsFor_of_sameLetter (all_eq_true.mp hword _ (of_mem_zip hmem).1) hsame

theorem upper_cons {letter c : Char} (h : upperChar c = [letter]) (rest : Text) :
    upper (c :: rest) = letter :: upper rest := by
  rw [upper, flatMap_cons, h, singleton_append]
  rfl

theorem upper_of_forall₂ {word text : Text} (hword : 'I' ∉ word)
    (h : Forall₂ StandsFor word text) : upper text = word := by
  induction h with
  | nil => rfl
  | cons hfirst _ ih =>
    rw [mem_cons, not_or] at hword
    obtain hfirst | ⟨hI, -⟩ := hfirst
    · rw [upper_cons hfirst, ih hword.2]
    · exact absurd hI.symm hword.1

/-- A word with one `I` is given back, or with a dotted `I` in its place. -/
theorem upper_of_forall₂_append {front back text : Text} (hfront : 'I' ∉ front) (hback : 'I' ∉ back)
    (h : Forall₂ StandsFor (front ++ 'I' :: back) text) :
    upper text = front ++ 'I' :: back ∨ dottedI ∈ text ∧ upper text = front ++ dottedI :: back := by
  induction front generalizing text with
  | nil =>
    obtain ⟨c, rest, hfirst, hrest, rfl⟩ := forall₂_cons_left_iff.mp h
    have hupper := upper_of_forall₂ hback hrest
    obtain hfirst | ⟨-, rfl⟩ := hfirst
    · left
      rw [upper_cons hfirst, hupper]
      rfl
    · right
      refine ⟨mem_cons_self, ?_⟩
      have hdotted : upperChar dottedI = [dottedI] := rfl
      rw [upper_cons hdotted, hupper]
      rfl
  | cons letter front ih =>
    rw [mem_cons, not_or] at hfront
    obtain ⟨c, rest, hfirst, hrest, rfl⟩ := forall₂_cons_left_iff.mp h
    obtain hfirst | ⟨hI, -⟩ := hfirst
    · rw [upper_cons hfirst]
      obtain hplain | ⟨hmem, hdotted⟩ := ih hfront.2 hrest
      · exact Or.inl (congrArg _ hplain)
      · exact Or.inr ⟨mem_cons_of_mem c hmem, congrArg _ hdotted⟩
    · exact absurd hI.symm hfront.1

theorem upper_of_spells_method {method text : Text} (hmethod : method ∈ httpMethods)
    (h : spells method text = true) :
    upper text ∈ httpMethods ∨ dottedI ∈ text ∧ upper text = dottedOptions := by
  have hcapitals : httpMethods.all (·.all isCapital) = true := by decide
  have hletters := forall₂_of_spells (all_eq_true.mp hcapitals method hmethod) h
  by_cases hoptions : method = "OPT".toList ++ 'I' :: "ONS".toList
  · rw [hoptions] at hletters hmethod
    obtain hplain | hdotted := upper_of_forall₂_append (by decide) (by decide) hletters
    · exact Or.inl (hplain ▸ hmethod)
    · exact Or.inr hdotted
  · have hothers : httpMethods.all (fun other =>
        other == "OPT".toList ++ 'I' :: "ONS".toList || !other.contains 'I') = true := by decide
    have hnone := all_eq_true.mp hothers method hmethod
    simp only [Bool.or_eq_true, beq_iff_eq, hoptions, false_or, Bool.not_eq_true',
      contains_eq_mem, decide_eq_false_iff_not] at hnone
    left
    rw [upper_of_forall₂ hnone hletters]
    exact hmethod

/-! ## Markers -/

theorem csharpVerb?_eq_some {name verb : Text} (h : csharpVerb? name = some verb) :
    verb ∈ httpMethods ∨ dottedI ∈ name ∧ verb = dottedOptions := by
  have hname : (if name.getLast? == some '\n' then name.dropLast else name) ⊆ name := by
    split
    · exact dropLast_subset name
    · exact Subset.refl name
  unfold csharpVerb? at h
  dsimp only at h
  generalize (if name.getLast? == some '\n' then name.dropLast else name) = bare at h hname
  split at h
  · next hspells =>
    obtain ⟨method, hmethod, hspells⟩ := any_eq_true.mp (Bool.and_eq_true_iff.mp hspells).2
    obtain rfl := Option.some.inj h
    obtain hplain | ⟨hmem, hdotted⟩ := upper_of_spells_method hmethod hspells
    · exact Or.inl hplain
    · exact Or.inr ⟨hname (drop_subset 4 bare hmem), hdotted⟩
  · cases h

/-- The HTTP method of a marker is one, unless the marker has a dotted `I` in a C# source. -/
theorem Dialect.httpVerb?_eq_some {dialect : Dialect} {marker : Marker} {verb : Text}
    (h : dialect.httpVerb? marker = some verb) :
    verb ∈ httpMethods ∨ dialect = .csharp ∧ dottedI ∈ marker.name ∧ verb = dottedOptions := by
  cases dialect with
  | csharp => exact (csharpVerb?_eq_some h).imp_right fun hdotted => ⟨rfl, hdotted⟩
  | typescript =>
    change (if httpMethods.contains (upper marker.name) then some (upper marker.name) else none) =
      some verb at h
    split at h
    · next hknown =>
      obtain rfl := Option.some.inj h
      exact Or.inl (contains_iff_mem.mp hknown)
    · cases h

end SourceAtlas
