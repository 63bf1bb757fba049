import SourceAtlas.Proofs.Balanced
import SourceAtlas.Proofs.TypeScript.TrimmedMember
import SourceAtlas.Proofs.TypeScript.TypeSyntax

/-!
# Headers of typed members

A member is written with its modifiers, its name and its type, which stands behind the name or behind
the parameter list. Its header gives all of them back, also when the name is itself a modifier word.
-/

namespace SourceAtlas.TypeScript

open List Option

open TypeReading

/-- What a member has in front of its type or its parameter list. -/
structure MemberFront where
  modifiers : List { word : Text // word ∈ modifierWords }
  name : Name isMemberStart
  mark : Option { c : Char // isMark c = true }

namespace MemberFront

variable (front : MemberFront)

def lead : Text :=
  front.modifiers.flatMap fun word => word.1 ++ [' ']

def markText : Text :=
  front.mark.toList.map (·.1)

def text : Text :=
  front.lead ++ (front.name.text ++ front.markText)

theorem lead_lead : Lead front.lead := by
  unfold lead
  induction front.modifiers with
  | nil => exact .nil
  | cons word words ih =>
    rw [flatMap_cons, append_assoc]
    exact .cons word.2 (cons_ne_nil _ _) (all_eq_true.mp (by decide)) ih

theorem words_lead : words front.lead = front.modifiers.map (·.1) := by
  unfold lead
  induction front.modifiers with
  | nil => rfl
  | cons word modifiers ih =>
    rw [flatMap_cons, append_assoc, singleton_append, words_append_blank
      (of_mem_modifierWords word.2).1 (solid_of_mem_modifierWords _ word.2) (by decide), ih]
    rfl

section

variable {sign : Char} {terminator : Terminator} {rest : Text}

theorem terminated?_markText (hsign : isTerminator sign = true)
    (h : terminatorAt? (sign :: rest) = some terminator) :
    terminated? (front.markText ++ sign :: rest) = some (terminator, sign :: rest) := by
  have hne : ∀ {c : Char}, isTerminator c = false → sign ≠ c := fun hc => ne_of_kind hsign hc
  have htrim : trimLeft (sign :: rest) = sign :: rest := by
    apply trimLeft_cons_of_not_blank
    rw [Bool.eq_false_iff]
    intro hblank
    simp only [isTerminator, Bool.or_eq_true, beq_iff_eq] at hsign
    rcases hsign with ((((rfl | rfl) | rfl) | rfl) | rfl) | rfl <;> cases hblank
  have hdrop : dropMark (front.markText ++ sign :: rest) = sign :: rest := by
    unfold markText
    cases front.mark with
    | none =>
      apply dropMark_eq_self
      rw [toList_none, map_nil, nil_append, htrim]
      simpa [isMark] using ⟨hne (c := '?') (by decide), hne (c := '!') (by decide)⟩
    | some mark =>
      obtain ⟨c, hc⟩ := mark
      apply dropMark_of_isMark hc
      apply trimLeft_cons_of_not_blank
      simp only [isMark, Bool.or_eq_true, beq_iff_eq] at hc
      rcases hc with rfl | rfl <;> rfl
  have hplaces : afterTypeParameters (sign :: rest) = [sign :: rest] := by
    unfold afterTypeParameters
    rw [htrim]
    split
    next heq => exact absurd (cons.inj heq).1 (hne (by decide))
    next => rfl
  rw [terminated?, hdrop, hplaces, findSome?_cons, h]
  rfl

theorem isNameChar_eq_false_of_head? (hsign : isTerminator sign = true) :
    ∀ c ∈ (front.markText ++ sign :: rest).head?, isNameChar c = false := by
  unfold markText
  cases front.mark with
  | none =>
    simp only [isTerminator, Bool.or_eq_true, beq_iff_eq] at hsign
    rcases hsign with ((((rfl | rfl) | rfl) | rfl) | rfl) | rfl <;> simp <;> decide
  | some mark =>
    obtain ⟨c, hc⟩ := mark
    simp only [isMark, Bool.or_eq_true, beq_iff_eq] at hc
    rcases hc with rfl | rfl <;> simp <;> decide

theorem tokenize_text_append (hsign : isTerminator sign = true)
    (h : terminatorAt? (sign :: rest) = some terminator) :
    tokenize (front.text ++ sign :: rest) =
      some { name := front.name.text
             declaredType := typeOrUnknown
               (writtenType (front.text ++ sign :: rest) terminator front.text.length)
             terminator
             nameStart := front.lead.length
             modifiers := front.modifiers.map (·.1)
             openParen := if terminator = .paren then some front.text.length else none } := by
  have hwhole : front.text ++ sign :: rest =
      front.lead ++ (front.name.text ++ (front.markText ++ sign :: rest)) := by
    simp [text]
  have hposition : (front.text ++ sign :: rest).length - (sign :: rest).length =
      front.text.length := by
    rw [length_append, Nat.add_sub_cancel]
  have hmodifiers : (front.text ++ sign :: rest).take front.lead.length = front.lead := by
    rw [hwhole, take_left]
  have hfound := tokenize_append front.lead_lead front.name
    (front.isNameChar_eq_false_of_head? hsign) (front.terminated?_markText hsign h)
  rw [← hwhole, hposition] at hfound
  rw [hfound, headerAt, hmodifiers, words_lead]

end

end MemberFront

variable (front : MemberFront) (type : WrittenType) (tail : Tail)

def MemberFront.header (terminator : Terminator) : Header where
  name := front.name.text
  declaredType := squeeze type.text
  terminator
  nameStart := front.lead.length
  modifiers := front.modifiers.map (·.1)
  openParen := if terminator = .paren then some front.text.length else none

theorem typeOrUnknown_squeeze : typeOrUnknown (squeeze type.text) = squeeze type.text :=
  typeOrUnknown_of_ne_nil (squeeze_ne_nil type.solid)

theorem writtenType_colon :
    writtenType (front.text ++ ':' :: ' ' :: (type.text ++ tail.text)) .colon front.text.length =
      squeeze type.text := by
  rw [writtenType, if_neg (by decide), if_pos rfl, readType_colon, read_cons_blank (by decide),
    type.read_append]

theorem writtenType_paren {parameters : Text} (h : (splitCommas parameters).isSome = true) :
    writtenType (front.text ++ '(' :: (parameters ++ ')' :: ':' :: ' ' :: (type.text ++ tail.text)))
      .paren front.text.length = squeeze type.text := by
  obtain ⟨parts, hparts⟩ := isSome_iff_exists.mp h
  obtain ⟨segments, hsegments, -⟩ := map_eq_some_iff.mp hparts
  have hbalanced : Balanced parameters := closes_of_segmentsFrom hsegments
  have hclose : findParen (front.text ++
      '(' :: (parameters ++ ')' :: ':' :: ' ' :: (type.text ++ tail.text))) front.text.length =
        some (front.text.length + parameters.length + 1) := by
    rw [findParen, findClosing, drop_left]
    exact hbalanced.closingFrom_enclosed rfl (by decide) _ _
  have hwhole : front.text ++ '(' :: (parameters ++ ')' :: ':' :: ' ' :: (type.text ++ tail.text)) =
      front.text ++ '(' :: (parameters ++ [')']) ++ ':' :: ' ' :: (type.text ++ tail.text) := by
    simp
  have hlength : (front.text ++ '(' :: (parameters ++ [')'])).length =
      front.text.length + parameters.length + 1 + 1 := by
    simp only [length_append, length_cons, length_nil]
    omega
  rw [writtenType, if_pos rfl, hclose, map_some, getD_some, hwhole,
    resultType_append hlength, resultOf_colon, type.read_append]

/-- A member with its type behind the name, and one with its type behind a parameter list that can be
split, are read with the name, the modifiers and the type that were written. -/
theorem tokenize_typed_member :
    tokenize (front.text ++ ':' :: ' ' :: (type.text ++ tail.text)) =
        some (front.header type .colon) ∧
      ∀ parameters, (splitCommas parameters).isSome = true →
        tokenize (front.text ++
            '(' :: (parameters ++ ')' :: ':' :: ' ' :: (type.text ++ tail.text))) =
          some (front.header type .paren) := by
  refine ⟨?_, fun parameters h => ?_⟩
  · have hcolon : terminatorAt? (':' :: ' ' :: (type.text ++ tail.text)) = some .colon := rfl
    rw [front.tokenize_text_append (by decide) hcolon, writtenType_colon, typeOrUnknown_squeeze]
    rfl
  · have hparen : terminatorAt?
        ('(' :: (parameters ++ ')' :: ':' :: ' ' :: (type.text ++ tail.text))) = some .paren := rfl
    rw [front.tokenize_text_append (by decide) hparen, writtenType_paren _ _ _ h,
      typeOrUnknown_squeeze]
    rfl

/-- The front `static get?`, whose name is a modifier word. -/
def optionalGet : MemberFront where
  modifiers := [⟨"static".toList, by decide⟩]
  name := ⟨"get".toList, by decide⟩
  mark := some ⟨'?', by decide⟩

/-- The type `{ a: A; }[] | F<B,  () => C>`. -/
def handlers : WrittenType where
  text := "\x7b a: A; \x7d[] | F<B,  () => C>".toList
  solid := by decide
  shape := by
    have hobject : Closed false (" a: A; ".toList ++ []) := .append_plain (by decide) .nil
    have hresult : Closed false (" ".toList ++ '=' :: '>' :: (" C".toList ++ [])) :=
      .append_plain (by decide) (.arrow (.append_plain (by decide) .nil))
    have harguments : Closed false ("B,  ".toList ++ '(' :: ([] ++ ')' ::
        (" ".toList ++ '=' :: '>' :: (" C".toList ++ [])))) :=
      .append_plain (by decide) (.group rfl (by decide) .nil (by decide) hresult)
    have hunion : Closed true (" | F".toList ++ '<' :: (("B,  ".toList ++ '(' :: ([] ++ ')' ::
        (" ".toList ++ '=' :: '>' :: (" C".toList ++ [])))) ++ '>' :: [])) :=
      .append_plain (by decide) (.group rfl (by decide) harguments (by decide) .nil)
    exact IsType.object (forall_mem_nil _) hobject
      (.group (rfl : closerOf? '[' = some ']') (by decide) .nil (by decide) hunion)

theorem tokenize_optionalGet :
    tokenize "static get?: \x7b a: A; \x7d[] | F<B,  () => C> = 1;".toList =
        some ⟨"get".toList, "\x7b a: A; \x7d[] | F<B, () => C>".toList, .colon, 7,
          ["static".toList], none⟩ ∧
      (splitCommas "@Arg(')') m: M<() => B, C>".toList).isSome = true ∧
      tokenize ("static get?(@Arg(')') m: M<() => B, C>)".toList ++
          ": \x7b a: A; \x7d[] | F<B,  () => C> \x7b".toList) =
        some ⟨"get".toList, "\x7b a: A; \x7d[] | F<B, () => C>".toList, .paren, 7,
          ["static".toList], some 11⟩ := by
  have hsplit : (splitCommas "@Arg(')') m: M<() => B, C>".toList).isSome = true := by decide +kernel
  have hvalue := (tokenize_typed_member optionalGet handlers (.value "1;".toList)).1
  have hmethod := (tokenize_typed_member optionalGet handlers (.body [])).2 _ hsplit
  refine ⟨?_, hsplit, ?_⟩
  · refine Eq.trans (congrArg tokenize ?_) (hvalue.trans (congrArg some ?_)) <;> decide +kernel
  · refine Eq.trans (congrArg tokenize ?_) (hmethod.trans (congrArg some ?_)) <;> decide +kernel

end SourceAtlas.TypeScript
