import SourceAtlas.Proofs.Balanced
import SourceAtlas.Proofs.Marker

/-!
# Markers as they are written

A marker is written as a name with an optional argument list. Markers stand in bracket groups or behind
the sign of a decorator; either way they are peeled off one after the other, and what follows them is
left as it is.
-/

namespace SourceAtlas

open List Option

variable {c separator : Char}

/-- A name: a letter or an underscore, and word characters behind it. -/
structure PlainName where
  text : Text
  valid : (text.head?.any isNameStart && text.all isWord) = true

namespace PlainName

variable (name : PlainName)

theorem isWord_of_mem (h : c ∈ name.text) : isWord c = true :=
  all_eq_true.mp (Bool.and_eq_true_iff.mp name.valid).2 c h

theorem exists_cons : ∃ c rest, name.text = c :: rest ∧ isNameStart c = true := by
  obtain ⟨c, hhead, hstart⟩ := (Option.any_eq_true ..).mp (Bool.and_eq_true_iff.mp name.valid).1
  obtain ⟨rest, hcons⟩ := head?_eq_some_iff.mp hhead
  exact ⟨c, rest, hcons, hstart⟩

theorem isEmpty_text : name.text.isEmpty = false := by
  obtain ⟨c, rest, hcons, -⟩ := name.exists_cons
  rw [hcons]
  rfl

theorem startsName_append (rest : Text) : StartsName (name.text ++ rest) := by
  obtain ⟨c, tail, hcons, hstart⟩ := name.exists_cons
  exact ⟨c, by simp [hcons], hstart⟩

theorem isPiece_text (h : isWord separator = false) : IsPiece separator name.text := by
  have hbalanced : Balanced name.text := .of_inert fun c hc => isInert_of_isWord (name.isWord_of_mem hc)
  refine .of_not_mem hbalanced fun hmem => ?_
  rw [name.isWord_of_mem hmem] at h
  cases h

end PlainName

/-! ## A name and its arguments -/

/-- A name with an optional argument list. -/
structure Invocation where
  name : PlainName
  arguments : Option { inner : Text // Balanced inner }

namespace Invocation

def listText (invocation : Invocation) : Text :=
  (invocation.arguments.map fun inner => '(' :: (inner.1 ++ [')'])).getD []

def text (invocation : Invocation) : Text :=
  invocation.name.text ++ invocation.listText

/-- What an invocation is read as, when the given ending is dropped from names. -/
def marker (ending : Text) (invocation : Invocation) : Marker where
  name := dropNameEnd ending invocation.name.text
  arguments := Arguments.parse ((invocation.arguments.map (·.1)).getD [])
  text := invocation.text

variable (invocation : Invocation)

theorem head?_listText : ∀ c ∈ invocation.listText.head?, c = '(' := by
  intro c hc
  cases harguments : invocation.arguments with
  | none => simp [listText, harguments] at hc
  | some inner => simpa [listText, harguments] using hc.symm

theorem isPiece_text (h : isWord separator = false) : IsPiece separator invocation.text := by
  refine (invocation.name.isPiece_text h).append ?_
  cases harguments : invocation.arguments with
  | none => simp [listText, harguments, IsPiece, segmentsFrom]
  | some inner =>
    rw [listText, harguments]
    exact .enclose rfl (by decide) inner.2

theorem startsName_text : StartsName invocation.text :=
  invocation.name.startsName_append _

theorem isBlankText_text : isBlankText invocation.text = false := by
  obtain ⟨c, hhead, hstart⟩ := invocation.startsName_text
  exact isBlankText_of_head? hhead (isBlank_eq_false_of_isWord (isWord_of_isNameStart hstart))

theorem trim_text : trim invocation.text = invocation.text := by
  obtain ⟨c, hhead, hstart⟩ := invocation.startsName_text
  have hlast : ∃ d, invocation.text.getLast? = some d ∧ isBlank d = false := by
    cases harguments : invocation.arguments with
    | none =>
      obtain ⟨front, d, hname⟩ := (eq_nil_or_concat invocation.name.text).resolve_left (by
        obtain ⟨e, rest, hcons, -⟩ := invocation.name.exists_cons
        simp [hcons])
      refine ⟨d, by simp [text, listText, harguments, hname], ?_⟩
      exact isBlank_eq_false_of_isWord (invocation.name.isWord_of_mem (by simp [hname]))
    | some inner =>
      exact ⟨')', by simp [text, listText, harguments, getLast?_append, getLast?_cons],
        by decide⟩
  obtain ⟨d, hlast, hd⟩ := hlast
  exact trim_of_ends hhead (isBlank_eq_false_of_isWord (isWord_of_isNameStart hstart)) hlast hd

theorem takeWhile_isDottedWord {rest : Text} (hrest : ∀ c ∈ rest.head?, isDottedWord c = false) :
    (invocation.name.text ++ rest).takeWhile isDottedWord = invocation.name.text := by
  apply takeWhile_append_of_stop _ hrest
  intro c hc
  simp [isDottedWord, invocation.name.isWord_of_mem hc]

theorem dropTarget_text : dropTarget invocation.text = invocation.text := by
  have hwords : markerTargets.all (·.all isWord) = true := by decide
  unfold dropTarget
  rw [findSome?_eq_none_iff.mpr]
  · rfl
  · intro target htarget
    rw [bind_eq_bind, bind_eq_none_iff]
    intro after hafter
    have hword := all_eq_true.mp (all_eq_true.mp hwords target htarget)
    have hhead : ∀ c ∈ after.head?, c = '(' ∨ isWord c = true := by
      intro c hc
      rcases append_eq_append_iff.mp (dropHead?_eq_some_iff.mp hafter) with
        ⟨tail, htail, hlist⟩ | ⟨tail, hname, rfl⟩
      · -- the target goes beyond the name only if it holds a parenthesis
        cases tail with
        | nil => exact Or.inl (invocation.head?_listText c (by simpa [hlist] using hc))
        | cons d tail =>
          obtain rfl := invocation.head?_listText d (by simp [hlist])
          exact absurd (hword '(' (by simp [htail])) (by decide)
      · cases tail with
        | nil => exact Or.inl (invocation.head?_listText c hc)
        | cons d tail =>
          obtain rfl : d = c := some.inj hc
          exact Or.inr (invocation.name.isWord_of_mem (by simp [hname]))
    have hplain : ∀ c ∈ after.head?, isBlank c = false ∧ c ≠ ':' := by
      intro c hc
      rcases hhead c hc with rfl | hc
      · decide
      · exact ⟨isBlank_eq_false_of_isWord hc, ne_of_kind hc (by decide)⟩
    cases after with
    | nil => rfl
    | cons c after =>
      obtain ⟨hblank, hcolon⟩ := hplain c rfl
      rw [trimLeft_cons_of_not_blank hblank]
      split
      next heq => exact absurd (cons.inj heq).1 hcolon
      next => rfl

theorem afterLast_name : afterLast '.' invocation.name.text = invocation.name.text := by
  rw [afterLast, takeWhile_eq_self_iff.mpr, reverse_reverse]
  intro c hc
  have hword := invocation.name.isWord_of_mem (mem_reverse.mp hc)
  simpa using ne_of_kind hword (by decide : isWord '.' = false)

theorem invocationArguments?_listText : invocationArguments? invocation.listText =
    some ((invocation.arguments.map (·.1)).getD []) := by
  cases harguments : invocation.arguments with
  | none => simp [listText, harguments, invocationArguments?, trimLeft]
  | some inner =>
    have hlist : invocation.listText = '(' :: (inner.1 ++ [')']) := by simp [listText, harguments]
    rw [hlist, invocationArguments?, trimLeft_cons_of_not_blank (by decide)]
    simp

theorem isDottedWord_head?_listText : ∀ c ∈ invocation.listText.head?, isDottedWord c = false := by
  intro c hc
  rw [invocation.head?_listText c hc]
  decide

theorem build?_text (ending : Text) :
    Marker.build? ending invocation.text = some (invocation.marker ending) := by
  obtain ⟨c, tail, hcons, hstart⟩ := invocation.name.exists_cons
  have hdotted : invocation.text.takeWhile isDottedWord = invocation.name.text :=
    invocation.takeWhile_isDottedWord invocation.isDottedWord_head?_listText
  have hafter : invocation.text.drop invocation.name.text.length = invocation.listText := by
    simp [text]
  unfold Marker.build?
  simp only [trim_text, dropTarget_text, hdotted, hafter, invocationArguments?_listText,
    map_some, afterLast_name]
  split
  next d rest heq =>
    obtain rfl : c = d := by
      rw [text, hcons] at heq
      exact (cons.inj heq).1
    rw [if_pos hstart]
    rfl
  next heq => simp [text, hcons] at heq

/-! ## Decorators -/

def decoratorText : Text :=
  '@' :: (invocation.text ++ [' '])

theorem isPiece_decoratorText : IsPiece ',' invocation.decoratorText := by
  have hsign : IsPiece ',' ['@'] := rfl
  have hspace : IsPiece ',' [' '] := rfl
  exact hsign.append ((invocation.isPiece_text (by decide)).append hspace)

/-- The gap behind a name does not belong to the invocation unless an argument list follows. -/
theorem invocationLength?_name {gap rest : Text}
    (hname : ∀ c ∈ (gap ++ rest).head?, isDottedWord c = false)
    (hgap : (gap ++ rest).takeWhile (fun d => d == ' ' || d == '\t') = gap) :
    invocationLength? (invocation.name.text ++ (gap ++ rest)) =
      if rest.head? = some '(' then
        (findParen (invocation.name.text ++ (gap ++ rest))
          (invocation.name.text.length + gap.length)).map (· + 1)
      else some invocation.name.text.length := by
  obtain ⟨c, tail, hcons, hstart⟩ := invocation.name.exists_cons
  have hlength : nameLength (invocation.name.text ++ (gap ++ rest)) = invocation.name.text.length := by
    rw [nameLength, invocation.takeWhile_isDottedWord hname]
  have hargument : argumentStart (invocation.name.text ++ (gap ++ rest)) =
      invocation.name.text.length + gap.length := by
    rw [argumentStart, hlength, drop_left, hgap]
  have hdrop : (invocation.name.text ++ (gap ++ rest)).drop
      (invocation.name.text.length + gap.length) = rest := by
    rw [← append_assoc, ← length_append, drop_left]
  have heq := invocationLength?_eq hstart (tail ++ (gap ++ rest))
  rw [← cons_append, ← hcons] at heq
  rw [heq, hargument, hdrop, hlength]

/-- An invocation ends with its arguments. Without arguments, no parenthesis may follow it. -/
theorem invocationLength?_text {rest : Text} (hblank : ∀ c ∈ rest.head?, isBlank c = false)
    (hparen : rest.head? ≠ some '(') :
    invocationLength? (invocation.text ++ ' ' :: rest) = some invocation.text.length := by
  rw [text, append_assoc]
  cases harguments : invocation.arguments with
  | none =>
    have hlist : invocation.listText = [] := by simp [listText, harguments]
    have hgap : ([' '] ++ rest).takeWhile (fun d => d == ' ' || d == '\t') = [' '] := by
      refine @takeWhile_append_of_stop _ [' '] rest (by simp) fun d hd => ?_
      have hd := hblank d hd
      have hspace : d ≠ ' ' := fun heq => absurd (heq ▸ hd) (by decide)
      have htab : d ≠ '\t' := fun heq => absurd (heq ▸ hd) (by decide)
      simp [hspace, htab]
    have hlength := invocation.invocationLength?_name (by simp; decide) hgap
    rw [hlist, append_nil]
    exact hlength.trans (if_neg hparen)
  | some inner =>
    have hlist : invocation.listText = '(' :: (inner.1 ++ [')']) := by simp [listText, harguments]
    have hparens : invocation.listText ++ ' ' :: rest = '(' :: (inner.1 ++ ')' :: ' ' :: rest) := by
      simp [hlist]
    have hclose : closingFrom '(' ')' 0 none invocation.name.text.length
        ('(' :: (inner.1 ++ ')' :: ' ' :: rest)) = _ :=
      inner.2.closingFrom_enclosed rfl (by decide) _ _
    have hlength := @invocationLength?_name invocation [] ('(' :: (inner.1 ++ ')' :: ' ' :: rest))
      (by simp; decide) rfl
    rw [nil_append, head?_cons, if_pos rfl, length_nil, Nat.add_zero, findParen, findClosing,
      drop_left, hclose] at hlength
    rw [hparens, hlength]
    simp [hlist]
    omega

theorem readDecorator?_text {rest : Text} (hblank : ∀ c ∈ rest.head?, isBlank c = false)
    (hparen : rest.head? ≠ some '(') :
    readDecorator? (invocation.decoratorText ++ rest) = some ([invocation.marker []], rest) := by
  have hlength := invocation.invocationLength?_text hblank hparen
  have htrim : trimLeft (' ' :: rest) = rest := by
    rw [trimLeft_cons_of_blank (by decide), trimLeft_eq_self hblank]
  have htext : invocation.decoratorText ++ rest = '@' :: (invocation.text ++ ' ' :: rest) := by
    simp [decoratorText]
  rw [htext, readDecorator?]
  simp only [bind_eq_bind, hlength, bind_some, take_left', build?_text,
    drop_left', htrim]

end Invocation

/-! ## Bracket groups -/

/-- Markers that stand between one pair of brackets, with blanks behind it. -/
structure MarkerGroup (α : Type) where
  first : α
  others : List α
  gap : Text
  blank : gap.all isBlank = true

namespace MarkerGroup

def items {α : Type} (group : MarkerGroup α) : List α :=
  group.first :: group.others

def map {α β : Type} (f : α → β) (group : MarkerGroup α) : MarkerGroup β where
  first := f group.first
  others := group.others.map f
  gap := group.gap
  blank := group.blank

theorem items_map {α β : Type} (f : α → β) (group : MarkerGroup α) :
    (group.map f).items = group.items.map f := rfl

def inner (group : MarkerGroup Invocation) : Text :=
  joinWith [',', ' '] (group.items.map (·.text))

def text (group : MarkerGroup Invocation) : Text :=
  '[' :: (group.inner ++ ']' :: group.gap)

variable (group : MarkerGroup Invocation)

theorem splitCommas_inner : splitCommas group.inner = some (group.items.map (·.text)) :=
  splitCommas_joinWith_map (fun invocation => invocation.isPiece_text (by decide))
    Invocation.isBlankText_text Invocation.trim_text (cons_ne_nil _ _)

theorem balanced_inner : Balanced group.inner := by
  refine .joinWith (.of_inert (all_eq_true.mp (by decide))) ?_
  refine forall_mem_map.mpr fun invocation _ => ?_
  exact (invocation.isPiece_text (by decide : isWord ',' = false)).balanced

theorem isPiece_text (h : isBlank separator = false) : IsPiece separator group.text := by
  have hgap : IsPiece separator group.gap := by
    refine .of_not_mem (.of_inert fun c hc => ?_) fun hmem => ?_
    · exact isInert_of_isBlank (all_eq_true.mp group.blank c hc)
    · rw [all_eq_true.mp group.blank separator hmem] at h
      cases h
  have hbrackets : IsPiece separator ('[' :: (group.inner ++ [']'])) :=
    .enclose rfl (by decide) group.balanced_inner
  simpa [text] using hbrackets.append hgap

theorem findClosing_text (rest : Text) :
    findClosing (group.text ++ rest) 0 '[' ']' = some (group.inner.length + 1) := by
  have htext : group.text ++ rest = '[' :: (group.inner ++ ']' :: (group.gap ++ rest)) := by
    simp [text]
  rw [findClosing, drop_zero, htext, group.balanced_inner.closingFrom_enclosed rfl (by decide),
    Nat.zero_add]

theorem mapM_build? (ending : Text) (invocations : List Invocation) :
    (invocations.map (·.text)).mapM (Marker.build? ending) =
      some (invocations.map (·.marker ending)) := by
  induction invocations with
  | nil => rfl
  | cons invocation invocations ih =>
    simp only [map_cons, mapM_cons, invocation.build?_text, ih]
    rfl

theorem readBracketGroup?_text {rest : Text} (hrest : ∀ c ∈ rest.head?, isBlank c = false) :
    readBracketGroup? (group.text ++ rest) =
      some (group.items.map (·.marker "Attribute".toList), rest) := by
  have hclose := group.findClosing_text rest
  have htake : ((group.text ++ rest).take (group.inner.length + 1)).drop 1 = group.inner := by
    simp [text]
  have hdrop : (group.text ++ rest).drop (group.inner.length + 1 + 1) = group.gap ++ rest := by
    simp [text]
  have htrim : trimLeft (group.gap ++ rest) = rest := by
    rw [trimLeft_append_of_blanks (all_eq_true.mp group.blank), trimLeft_eq_self hrest]
  unfold readBracketGroup?
  split
  next =>
    simp only [bind_eq_bind, hclose, bind_some, htake, splitCommas_inner, hdrop, htrim,
      mapM_build?]
    rfl
  next hnot => exact absurd rfl (hnot (group.inner ++ ']' :: group.gap ++ rest))

end MarkerGroup

/-! ## Peeling -/

theorem peelWhile_flatMap {α : Type} {read : Text → Option (List Marker × Text)} {text : α → Text}
    {markers : α → List Marker} {follows : Text → Prop} (hne : ∀ item, text item ≠ [])
    (hfollows : ∀ item rest, follows (text item ++ rest))
    (hread : ∀ item rest, follows rest → read (text item ++ rest) = some (markers item, rest))
    {rest : Text} (hrest : follows rest) (hend : read rest = none) (items : List α) :
    peelWhile read (items.flatMap text ++ rest) = (items.flatMap markers, rest) := by
  induction items with
  | nil =>
    rw [flatMap_nil, nil_append, peelWhile, hend]
    rfl
  | cons item items ih =>
    have hnext : follows (items.flatMap text ++ rest) := by
      cases items with
      | nil => exact hrest
      | cons second items =>
        rw [flatMap_cons, append_assoc]
        exact hfollows second _
    have hlength : (items.flatMap text ++ rest).length <
        (text item ++ (items.flatMap text ++ rest)).length := by
      have hpos := length_pos_of_ne_nil (hne item)
      simp only [length_append]
      omega
    rw [flatMap_cons, append_assoc, peelWhile, hread item _ hnext]
    simp only [hlength, if_true, ih]
    rfl

namespace Dialect

variable {dialect : Dialect} {rest : Text}

theorem of_peel_eq (h : dialect.peel rest = ([], rest)) :
    (∀ c ∈ rest.head?, isBlank c = false) ∧ dialect.readMarkers? rest = none := by
  rw [peel_eq] at h
  cases hread : dialect.readMarkers? (trimLeft rest) with
  | none =>
    rw [peelWhile, hread] at h
    have htrim : trimLeft rest = rest := congrArg Prod.snd h
    rw [htrim] at hread
    refine ⟨fun c hc => ?_, hread⟩
    obtain ⟨tail, rfl⟩ := head?_eq_some_iff.mp hc
    exact of_dropWhile_eq_cons htrim
  | some found =>
    -- what is left would be shorter than the text
    obtain ⟨markers, left⟩ := found
    have hlt := readMarkers?_length_lt hread
    have hle := (trimLeft_suffix rest).length_le
    have hleft := (dialect.peelWhile_suffix left).length_le
    rw [peelWhile, hread] at h
    simp only [hlt, if_true] at h
    have hsame : (peelWhile dialect.readMarkers? left).2 = rest := congrArg Prod.snd h
    rw [hsame] at hleft
    omega

end Dialect

theorem peelBracketed_groups {rest : Text} (h : peelBracketed rest = ([], rest))
    (groups : List (MarkerGroup Invocation)) :
    peelBracketed (groups.flatMap (·.text) ++ rest) =
      (groups.flatMap fun group => group.items.map (·.marker "Attribute".toList), rest) := by
  obtain ⟨hblank, hend⟩ := @Dialect.of_peel_eq .csharp rest h
  have hfollows : ∀ (group : MarkerGroup Invocation) (rest : Text),
      ∀ c ∈ (group.text ++ rest).head?, isBlank c = false := by
    intro group rest c hc
    obtain rfl : '[' = c := some.inj hc
    decide
  have hhead : ∀ c ∈ (groups.flatMap (·.text) ++ rest).head?, isBlank c = false := by
    cases groups with
    | nil => exact hblank
    | cons group groups =>
      rw [flatMap_cons, append_assoc]
      exact hfollows group _
  rw [peelBracketed, trimLeft_eq_self hhead]
  exact peelWhile_flatMap (fun group => cons_ne_nil _ _) hfollows
    (fun group rest hrest => group.readBracketGroup?_text hrest) hblank hend groups

theorem peelDecorators_invocations {rest : Text} (h : peelDecorators rest = ([], rest))
    (hparen : rest.head? ≠ some '(') (invocations : List Invocation) :
    peelDecorators (invocations.flatMap (·.decoratorText) ++ rest) =
      (invocations.map (·.marker []), rest) := by
  obtain ⟨hblank, hend⟩ := @Dialect.of_peel_eq .typescript rest h
  have hfollows : ∀ (invocation : Invocation) (rest : Text),
      (∀ c ∈ (invocation.decoratorText ++ rest).head?, isBlank c = false) ∧
        (invocation.decoratorText ++ rest).head? ≠ some '(' := by
    intro invocation rest
    refine ⟨fun c hc => ?_, by simp [Invocation.decoratorText]⟩
    obtain rfl : '@' = c := some.inj hc
    decide
  have hhead : ∀ c ∈ (invocations.flatMap (·.decoratorText) ++ rest).head?, isBlank c = false := by
    cases invocations with
    | nil => exact hblank
    | cons invocation invocations =>
      rw [flatMap_cons, append_assoc]
      exact (hfollows invocation _).1
  have hpeel : peelWhile readDecorator? (invocations.flatMap (·.decoratorText) ++ rest) =
      (invocations.flatMap fun invocation => [invocation.marker []], rest) := by
    refine @peelWhile_flatMap _ _ _ _
      (fun rest => (∀ c ∈ rest.head?, isBlank c = false) ∧ rest.head? ≠ some '(')
      (fun invocation => cons_ne_nil _ _) hfollows ?_ rest ⟨hblank, hparen⟩ hend invocations
    intro invocation rest hrest
    exact invocation.readDecorator?_text hrest.1 hrest.2
  rw [peelDecorators, trimLeft_eq_self hhead, hpeel, map_eq_flatMap]

end SourceAtlas
