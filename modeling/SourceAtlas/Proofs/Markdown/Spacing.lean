import SourceAtlas.Proofs.Markdown.Lint
import SourceAtlas.Proofs.Text.Drawn
import SourceAtlas.Proofs.Text.Split

/-!
# The lines of a document

Outside code blocks no two blank lines follow each other, and a heading has blank lines or the
border of the document around it. Every step of the layout keeps this, and it lays out lines that
are so already as they are.
-/

namespace SourceAtlas.Markdown

open List

variable {inCode : Bool} {line : Text} {done lines front : List Text}

/-! ## Kinds of lines -/

@[simp] theorem isHeading_nil : isHeading [] = false := rfl

@[simp] theorem togglesCode_nil (inCode : Bool) : togglesCode inCode [] = false := by
  cases inCode <;> rfl

theorem head?_of_isHeading (h : isHeading line = true) : line.head? = some '#' := by
  cases line with
  | nil => cases h
  | cons c rest =>
    by_cases hc : c = '#'
    · rw [hc, head?_cons]
    · simp [isHeading, hc] at h

theorem togglesCode_of_isHeading (h : isHeading line = true) (inCode : Bool) :
    togglesCode inCode line = false := by
  obtain ⟨rest, rfl⟩ := head?_eq_some_iff.mp (head?_of_isHeading h)
  cases inCode <;> rfl

theorem needsBlank_eq_false_iff : needsBlank done = false ↔ done.head?.getD [] = [] := by
  cases done with
  | nil => simp [needsBlank]
  | cons last rest => cases last <;> simp [needsBlank]

/-! ## Spaced lines -/

/-- Outside code blocks blank lines stand alone and headings stand free. -/
structure IsSpaced (lines : List Text) : Prop where
  blanks : ∀ front back, lines = front ++ [] :: [] :: back → codeAfter false front = true
  headings : ∀ front line back, lines = front ++ line :: back → isHeading line = true →
    codeAfter false front = false → front.getLast?.getD [] = [] ∧ back.head?.getD [] = []

namespace IsSpaced

theorem nil : IsSpaced [] where
  blanks := by simp
  headings := by simp

theorem of_append {back : List Text} (h : IsSpaced (front ++ back)) : IsSpaced front where
  blanks := by
    rintro before after rfl
    exact h.blanks before (after ++ back) (by simp)
  headings := by
    rintro before line after rfl hheading hcode
    obtain ⟨hbefore, hafter⟩ := h.headings before line (after ++ back) (by simp) hheading hcode
    refine ⟨hbefore, ?_⟩
    cases after with
    | nil => rfl
    | cons next after => exact hafter

theorem concat (h : IsSpaced lines)
    (hblank : line = [] → codeAfter false lines = false → lines.getLast? ≠ some [])
    (hheading : isHeading line = true → codeAfter false lines = false →
      lines.getLast?.getD [] = [])
    (hsettled : codeAfter false lines = false → lines.getLast?.any isHeading = true → line = []) :
    IsSpaced (lines ++ [line]) where
  blanks := by
    intro before after heq
    obtain rfl | ⟨after, last, rfl⟩ := eq_nil_or_concat after
    · have hsplit : lines ++ [line] = (before ++ [[]]) ++ [[]] := by simpa using heq
      obtain ⟨rfl, hline⟩ := append_inj' hsplit rfl
      by_contra hcode
      apply hblank (singleton_inj.mp hline)
      · simpa using hcode
      · simp
    · have hsplit : lines ++ [line] = (before ++ [] :: [] :: after) ++ [last] := by simpa using heq
      exact h.blanks before after (append_inj' hsplit rfl).1
  headings := by
    intro before heading after heq hmarked hcode
    obtain rfl | ⟨after, last, rfl⟩ := eq_nil_or_concat after
    · obtain ⟨rfl, hline⟩ := append_inj' heq rfl
      obtain rfl := singleton_inj.mp hline
      exact ⟨hheading hmarked hcode, rfl⟩
    · have hsplit : lines ++ [line] = (before ++ heading :: after) ++ [last] := by simpa using heq
      obtain ⟨rfl, hline⟩ := append_inj' hsplit rfl
      obtain ⟨hbefore, hafter⟩ := h.headings before heading after rfl hmarked hcode
      refine ⟨hbefore, ?_⟩
      cases after with
      | nil =>
        -- the heading was the last line so far
        obtain rfl := singleton_inj.mp hline
        apply hsettled
        · simp [hcode, togglesCode_of_isHeading hmarked]
        · simpa using hmarked
      | cons next after => exact hafter

end IsSpaced

/-! ## What the layout keeps -/

/-- The state of the layout: the lines so far are spaced, the first one is not blank, and the last
one is not a heading that waits for its blank line. -/
structure IsLayout (inCode : Bool) (done : List Text) : Prop where
  code : codeAfter false done.reverse = inCode
  spaced : IsSpaced done.reverse
  first : done.getLast? ≠ some []
  settled : inCode = false → done.head?.any isHeading = false

namespace IsLayout

theorem nil : IsLayout false [] where
  code := rfl
  spaced := IsSpaced.nil
  first := nofun
  settled := fun _ => rfl

theorem getLast?_cons (h : IsLayout inCode done)
    (hblank : line = [] → inCode = false → needsBlank done = true) :
    (line :: done).getLast? ≠ some [] := by
  cases hdone : done with
  | nil =>
    rintro heq
    have hcode := h.code
    rw [hdone] at hcode hblank
    obtain rfl := Option.some.inj heq
    cases hblank rfl hcode.symm
  | cons last rest =>
    rw [getLast?_cons_cons, ← hdone]
    exact h.first

theorem push (h : IsLayout inCode done)
    (hblank : line = [] → inCode = false → needsBlank done = true)
    (hplain : inCode = false → isHeading line = false) :
    IsLayout (inCode ^^ togglesCode inCode line) (line :: done) where
  code := by simp [h.code]
  spaced := by
    rw [reverse_cons]
    apply h.spaced.concat
    · intro hline hcode hlast
      have hneeds := hblank hline (h.code ▸ hcode)
      rw [getLast?_reverse] at hlast
      rw [← Bool.not_eq_false, needsBlank_eq_false_iff, hlast] at hneeds
      exact hneeds rfl
    · intro hheading hcode
      rw [hplain (h.code ▸ hcode)] at hheading
      cases hheading
    · intro hcode hlast
      rw [getLast?_reverse, h.settled (h.code ▸ hcode)] at hlast
      cases hlast
  first := h.getLast?_cons hblank
  settled := by
    intro hcode
    cases hheading : isHeading line with
    | false => simpa using hheading
    | true =>
      rw [togglesCode_of_isHeading hheading, Bool.xor_false] at hcode
      rw [hplain hcode] at hheading
      cases hheading

theorem pushHeading (h : IsLayout false done) (hneeds : needsBlank done = false)
    (hheading : isHeading line = true) : IsLayout false ([] :: line :: done) where
  code := by simp [h.code, togglesCode_of_isHeading hheading]
  spaced := by
    have hline : line ≠ [] := by
      rintro rfl
      cases hheading
    rw [reverse_cons]
    apply IsSpaced.concat
    · rw [reverse_cons]
      apply h.spaced.concat
      · exact fun hnil => absurd hnil hline
      · rw [getLast?_reverse]
        exact fun _ _ => needsBlank_eq_false_iff.mp hneeds
      · intro _ hlast
        rw [getLast?_reverse, h.settled rfl] at hlast
        cases hlast
    · exact fun _ _ => by simpa using hline
    · exact fun hnil => absurd hnil (by simp)
    · exact fun _ _ => rfl
  first := by
    rw [getLast?_cons_cons]
    apply h.getLast?_cons
    rintro rfl
    cases hheading
  settled := fun _ => rfl

theorem addition (h : IsLayout inCode done) (line : Text) :
    IsLayout (inCode ^^ togglesCode inCode line) (addition inCode done line ++ done) := by
  unfold Markdown.addition
  split
  · next hkept =>
    apply h.push
    · rintro rfl hcode
      simp [hcode] at hkept
    · intro hcode
      have htoggles : togglesCode inCode line = true := by simpa [hcode] using hkept
      cases hheading : isHeading line with
      | false => rfl
      | true =>
        rw [togglesCode_of_isHeading hheading] at htoggles
        cases htoggles
  · next hkept =>
    obtain ⟨htoggles, rfl⟩ : togglesCode inCode line = false ∧ inCode = false := by
      simpa using hkept
    have hcode : (false ^^ togglesCode false line) = false := by rw [htoggles, Bool.xor_self]
    have hblank : needsBlank done = true → IsLayout false ([] :: done) := by
      intro hneeds
      have hpush : IsLayout (false ^^ togglesCode false []) ([] :: done) :=
        h.push (fun _ _ => hneeds) fun _ => rfl
      exact hpush
    split
    · rw [hcode]
      split
      · next hneeds => exact hblank hneeds
      · exact h
    · next hempty =>
      split
      · next hheading =>
        rw [hcode]
        split
        · next hneeds => exact (hblank hneeds).pushHeading rfl hheading
        · next hneeds => exact h.pushHeading (by simpa using hneeds) hheading
      · next hheading =>
        apply h.push
        · rintro rfl
          exact absurd rfl hempty
        · exact fun _ => by simpa using hheading

theorem layOut (h : IsLayout inCode done) (lines : List Text) :
    IsLayout (codeAfter inCode (lines.map trimRight)) (layOut inCode done lines) := by
  induction lines generalizing inCode done with
  | nil => exact h
  | cons raw rest ih =>
    rw [layOut_cons]
    exact ih (h.addition (trimRight raw))

end IsLayout

/-! ## Spaced lines stay -/

/-- Whether the last line is a heading outside code. The layout puts a blank line behind it. -/
def endsInHeading (lines : List Text) : Bool :=
  !codeAfter false lines && lines.getLast?.any isHeading

theorem endsInHeading_concat (front : List Text) (line : Text) :
    endsInHeading (front ++ [line]) = (!codeAfter false front && isHeading line) := by
  cases hheading : isHeading line with
  | false => simp [endsInHeading, hheading]
  | true => simp [endsInHeading, hheading, togglesCode_of_isHeading hheading]

namespace IsSpaced

theorem endsInHeading_eq_false (h : IsSpaced (front ++ [line])) (hline : line ≠ []) :
    endsInHeading front = false := by
  obtain rfl | ⟨before, heading, rfl⟩ := eq_nil_or_concat front
  · rfl
  · rw [concat_eq_append, endsInHeading_concat, Bool.and_eq_false_imp]
    intro hcode
    apply Bool.eq_false_iff.mpr
    intro hheading
    have hsplit : before.concat heading ++ [line] = before ++ heading :: [line] := by simp
    exact hline (h.headings before heading [line] hsplit hheading (by simpa using hcode)).2

theorem needsBlank_reverse (h : IsSpaced (front ++ [[]])) (hcode : codeAfter false front = false)
    (hne : front ≠ []) : needsBlank front.reverse = true := by
  obtain rfl | ⟨before, last, rfl⟩ := eq_nil_or_concat front
  · exact absurd rfl hne
  · rw [concat_eq_append, reverse_append]
    cases last with
    | cons c last => rfl
    | nil =>
      have hbefore := h.blanks before [] (by simp)
      simp [hbefore] at hcode

theorem needsBlank_reverse_of_isHeading (h : IsSpaced (front ++ [line]))
    (hcode : codeAfter false front = false) (hheading : isHeading line = true) :
    needsBlank front.reverse = false := by
  rw [needsBlank_eq_false_iff, head?_reverse]
  exact (h.headings front line [] rfl hheading hcode).1

end IsSpaced

theorem map_trimRight (h : ∀ line ∈ lines, trimRight line = line) : lines.map trimRight = lines :=
  (map_congr_left h).trans (map_id lines)

theorem layOut_singleton (inCode : Bool) (done : List Text) (line : Text) :
    layOut inCode done [line] = addition inCode done (trimRight line) ++ done := by
  rw [layOut_cons]
  rfl

/-- Spaced lines in the layout, last one first. A heading at the end has got its blank line. -/
def settled (lines : List Text) : List Text :=
  if endsInHeading lines then [] :: lines.reverse else lines.reverse

theorem settled_of_endsInHeading (h : endsInHeading lines = true) :
    settled lines = [] :: lines.reverse :=
  if_pos h

theorem settled_of_not_endsInHeading (h : endsInHeading lines = false) :
    settled lines = lines.reverse :=
  if_neg (Bool.eq_false_iff.mp h)

namespace IsSpaced

theorem addition_settled_nil (h : IsSpaced (front ++ [[]])) (hne : front ≠ []) :
    addition (codeAfter false front) (settled front) [] ++ settled front = [] :: front.reverse := by
  cases hends : endsInHeading front with
  | true =>
    -- the blank line is there already
    have hcode : codeAfter false front = false := by
      simpa using (Bool.and_eq_true_iff.mp hends).1
    simp [settled_of_endsInHeading hends, addition, hcode, needsBlank]
  | false =>
    rw [settled_of_not_endsInHeading hends]
    cases hcode : codeAfter false front with
    | true => simp [addition]
    | false => simp [addition, h.needsBlank_reverse hcode hne]

theorem addition_settled_cons (h : IsSpaced (front ++ [line])) (hline : line ≠ []) :
    addition (codeAfter false front) (settled front) line ++ settled front =
      settled (front ++ [line]) := by
  rw [settled_of_not_endsInHeading (h.endsInHeading_eq_false hline), settled, endsInHeading_concat]
  cases hcode : codeAfter false front with
  | true => simp [addition]
  | false =>
    cases hheading : isHeading line with
    | true =>
      simp [addition, togglesCode_of_isHeading hheading, hline, hheading,
        h.needsBlank_reverse_of_isHeading hcode hheading]
    | false => simp [addition, hheading, hline]

end IsSpaced

theorem layOut_of_isSpaced (h : IsSpaced lines) (hfirst : lines.head? ≠ some [])
    (htight : ∀ line ∈ lines, trimRight line = line) : layOut false [] lines = settled lines := by
  induction lines using reverseRecOn with
  | nil => rfl
  | append_singleton front line ih =>
    rw [forall_mem_append, forall_mem_singleton] at htight
    have hfront : front.head? ≠ some [] := by
      intro hhead
      rw [head?_append, hhead] at hfirst
      exact hfirst rfl
    rw [layOut_append, layOut_singleton, map_trimRight htight.1, htight.2,
      ih h.of_append hfront htight.1]
    by_cases hline : line = []
    · subst hline
      have hne : front ≠ [] := by
        rintro rfl
        exact hfirst rfl
      have hends : endsInHeading (front ++ [[]]) = false := by simp [endsInHeading_concat]
      rw [h.addition_settled_nil hne, settled_of_not_endsInHeading hends, reverse_append]
      rfl
    · exact h.addition_settled_cons hline

theorem dropWhile_settled (h : lines.getLast? ≠ some []) :
    (settled lines).dropWhile (·.isEmpty) = lines.reverse := by
  have hkept : lines.reverse.dropWhile (·.isEmpty) = lines.reverse := by
    obtain rfl | ⟨front, last, rfl⟩ := eq_nil_or_concat lines
    · rfl
    · rw [concat_eq_append, reverse_concat]
      apply dropWhile_cons_of_neg
      simpa using h
  unfold settled
  split
  · rw [dropWhile_cons_of_pos rfl, hkept]
  · exact hkept

end SourceAtlas.Markdown
