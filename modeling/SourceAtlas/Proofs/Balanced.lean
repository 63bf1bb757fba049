import SourceAtlas.Proofs.Bracket
import SourceAtlas.Proofs.Text.Words

/-!
# Balanced text

In a balanced text every bracket and every quote closes, a lone `>` apart. `Closes` follows the
splitter over a text, one constructor for each kind of character. From it come the facts that both
scanners share: a balanced text is passed over whole, its segments do not depend on what follows, and
the bracket around it is found behind it.
-/

namespace SourceAtlas

open List Option

variable {c : Char} {depth : Int} {base : List Char} {blanks lead tail : Text} {parts : List Text}

/-! ## Texts that close what is open -/

/-- Whether a text closes the owed brackets and the open quote in front of it, and all of its own. -/
inductive Closes : List Char → Option Char → Text → Prop where
  | nil : Closes [] none []
  | escaped {owed : List Char} {quote d : Char} {rest : Text}
      (closes : Closes owed (some quote) rest) : Closes owed (some quote) ('\\' :: d :: rest)
  | quoted {owed : List Char} {quote c : Char} {rest : Text} (plain : c ≠ '\\')
      (closes : Closes owed (if c = quote then none else some quote) rest) :
      Closes owed (some quote) (c :: rest)
  | quote {owed : List Char} {c : Char} {rest : Text} (opens : isQuote c = true)
      (closes : Closes owed (some c) rest) : Closes owed none (c :: rest)
  | bracket {owed : List Char} {c closer : Char} {rest : Text} (plain : isQuote c = false)
      (opens : closerOf? c = some closer) (closes : Closes (closer :: owed) none rest) :
      Closes owed none (c :: rest)
  | closer {owed : List Char} {c : Char} {rest : Text} (plain : isQuote c = false)
      (single : closerOf? c = none) (ends : isCloser c = true) (closes : Closes owed none rest) :
      Closes (c :: owed) none (c :: rest)
  | angle {owed : List Char} {rest : Text} (head : owed.head? ≠ some '>')
      (closes : Closes owed none rest) : Closes owed none ('>' :: rest)
  | inert {owed : List Char} {c : Char} {rest : Text} (plain : isInert c = true)
      (closes : Closes owed none rest) : Closes owed none (c :: rest)

/-- Whether every bracket and quote of a text closes within it. -/
abbrev Balanced (text : Text) : Prop :=
  Closes [] none text

theorem isInert_of_isBlank (h : isBlank c = true) : isInert c = true :=
  isInert_of_kind (by decide) h

theorem closes_of_segmentsFrom {separator : Text} {owed : List Char} {quote : Option Char}
    {text : Text} {segments : Segments}
    (h : segmentsFrom separator owed quote text = some segments) : Closes owed quote text := by
  have inert : ∀ {c : Char}, ¬ isQuote c = true → closerOf? c = none → ¬ isCloser c = true →
      isInert c = true := fun hquote hopener hcloser =>
    isInert_iff.mpr ⟨by simpa using hquote, by simpa using hcloser, hopener⟩
  fun_induction segmentsFrom separator owed quote text generalizing segments with
  | case1 owed quote hnone =>
    simp only [Bool.and_eq_true, List.isEmpty_iff, isNone_iff_eq_none] at hnone
    obtain ⟨rfl, rfl⟩ := hnone
    exact .nil
  | case2 => cases h
  | case3 => cases h
  | case4 owed quote d rest ih =>
    obtain ⟨inner, hinner, -⟩ := map_eq_some_iff.mp h
    exact .escaped (ih hinner)
  | case5 owed rest quote hescape ih =>
    obtain ⟨inner, hinner, -⟩ := map_eq_some_iff.mp h
    exact .quoted hescape (by simpa using ih hinner)
  | case6 owed c rest quote hescape hne ih =>
    obtain ⟨inner, hinner, -⟩ := map_eq_some_iff.mp h
    exact .quoted hescape (by simpa [hne] using ih hinner)
  | case7 owed c rest hquote ih =>
    obtain ⟨inner, hinner, -⟩ := map_eq_some_iff.mp h
    exact .quote hquote (ih hinner)
  | case8 owed c rest hquote closer hopener ih =>
    obtain ⟨inner, hinner, -⟩ := map_eq_some_iff.mp h
    exact .bracket (by simpa using hquote) hopener (ih hinner)
  | case9 rest _ _ _ ih =>
    obtain ⟨inner, hinner, -⟩ := map_eq_some_iff.mp h
    exact .angle (by simp) (ih hinner)
  | case10 => cases h
  | case11 rest closer outer hquote hopener hcloser ih =>
    obtain ⟨inner, hinner, -⟩ := map_eq_some_iff.mp h
    exact .closer (by simpa using hquote) hopener hcloser (ih hinner)
  | case12 rest closer outer _ _ _ hne ih =>
    obtain ⟨inner, hinner, -⟩ := map_eq_some_iff.mp h
    exact .angle (by simpa using Ne.symm hne) (ih hinner)
  | case13 => cases h
  | case14 owed c rest hquote hopener hcloser hcut ih =>
    obtain ⟨inner, hinner, -⟩ := map_eq_some_iff.mp h
    simp only [Bool.and_eq_true, List.isEmpty_iff] at hcut
    obtain ⟨rfl, -⟩ := hcut
    exact .inert (inert hquote hopener hcloser) (ih hinner)
  | case15 owed c rest hquote hopener hcloser hcut ih =>
    obtain ⟨inner, hinner, -⟩ := map_eq_some_iff.mp h
    exact .inert (inert hquote hopener hcloser) (ih hinner)

/-! ## Segments of a text and of what follows it -/

namespace Segments

/-- Joins the segments of two texts: the last segment of the first text goes on in the second. -/
def glue (first : Text) : List Text → Segments → Segments
  | [], back => (first ++ back.1, back.2)
  | second :: others, back =>
    let glued := glue second others back
    (first, glued.1 :: glued.2)

theorem map_glue_map_prepend (lead : Text) (front : Segments) (back? : Option Segments) :
    (back?.map (glue front.1 front.2)).map (prepend lead) =
      back?.map (glue (front.prepend lead).1 (front.prepend lead).2) := by
  obtain ⟨first, others⟩ := front
  cases others <;> cases back? <;> simp [glue, prepend]

theorem joinWith_prepend (separator lead : Text) (segments : Segments) :
    joinWith separator ((segments.prepend lead).1 :: (segments.prepend lead).2) =
      lead ++ joinWith separator (segments.1 :: segments.2) := by
  obtain ⟨first, others⟩ := segments
  cases others <;> simp [joinWith, prepend]

end Segments

section

variable {separator : Text} {owed : List Char}

theorem segmentsFrom_escape {quote d : Char} (rest : Text) :
    segmentsFrom separator owed (some quote) ('\\' :: d :: rest) =
      ((segmentsFrom separator owed (some quote) rest).map (·.push d)).map (·.push '\\') := by
  rw [Option.map_map]
  rfl

theorem segmentsFrom_openQuote (h : isQuote c = true) (rest : Text) :
    segmentsFrom separator owed none (c :: rest) =
      (segmentsFrom separator owed (some c) rest).map (·.push c) := by
  change (if isQuote c = true then _ else _) = _
  rw [if_pos h]

theorem segmentsFrom_angle (h : owed.head? ≠ some '>') (rest : Text) :
    segmentsFrom separator owed none ('>' :: rest) =
      (segmentsFrom separator owed none rest).map (·.push '>') := by
  cases owed with
  | nil => rfl
  | cons closer outer =>
    have hne : '>' ≠ closer := fun heq => h (congrArg some heq.symm)
    change (if '>' = closer then _ else _) = _
    rw [if_neg hne]
    rfl

end

section

variable {opener closer : Char}

theorem of_closerOf?_eq_some (h : closerOf? opener = some closer) :
    isQuote opener = false ∧ isQuote closer = false ∧ closerOf? closer = none ∧
      isCloser closer = true := by
  unfold closerOf? at h
  split at h <;> cases h <;> decide

theorem closerOf?_injective {other : Char} (h : closerOf? opener = some closer)
    (hother : closerOf? other = some closer) : opener = other := by
  unfold closerOf? at h hother
  split at h <;> cases h <;> split at hother <;> cases hother <;> rfl

theorem closingFrom_openQuote (h : isQuote c = true) (depth : Int) (index : Nat) (rest : Text) :
    closingFrom opener closer depth none index (c :: rest) =
      closingFrom opener closer depth (some c) (index + 1) rest := by
  change (if isQuote c = true then _ else _) = _
  rw [if_pos h]

theorem closingFrom_cons_plain (hquote : isQuote c = false) (hopener : c ≠ opener)
    (hcloser : c ≠ closer) (depth : Int) (index : Nat) (rest : Text) :
    closingFrom opener closer depth none index (c :: rest) =
      closingFrom opener closer depth none (index + 1) rest := by
  have hplain : ∀ d ∈ [c], isQuote d = false ∧ d ≠ opener ∧ d ≠ closer := by
    simp [hquote, hopener, hcloser]
  exact closingFrom_append_plain hplain depth index rest

theorem closingFrom_cons_closer (hquote : isQuote closer = false) (hne : closer ≠ opener)
    (hdepth : depth ≠ 1) (index : Nat) (rest : Text) :
    closingFrom opener closer depth none index (closer :: rest) =
      closingFrom opener closer (depth - 1) none (index + 1) rest := by
  change (if isQuote closer = true then _ else _) = _
  simp [hquote, hne, hdepth]

theorem ne_opener (hpair : closerOf? opener = some closer) (h : closerOf? c = none) :
    c ≠ opener := by
  rintro rfl
  rw [h] at hpair
  cases hpair

/-- An opening bracket adds to the open ones exactly if the closer that it owes is searched for. -/
theorem closingFrom_bracket {other : Char} {owed : List Char} (hpair : closerOf? opener = some closer)
    (h : closerOf? c = some other) (depth : Int) (index : Nat) (rest : Text) :
    closingFrom opener closer (depth + owed.count closer) none index (c :: rest) =
      closingFrom opener closer (depth + (other :: owed).count closer) none (index + 1) rest := by
  have hquote := (of_closerOf?_eq_some h).1
  by_cases hsame : c = opener
  · subst hsame
    obtain rfl : closer = other := some.inj (hpair.symm.trans h)
    rw [closingFrom_opener hquote, count_cons_self]
    congr 1
    omega
  · have hother : other ≠ closer := fun heq => hsame (closerOf?_injective h (heq ▸ hpair))
    have hne := ne_opener h (of_closerOf?_eq_some hpair).2.2.1
    rw [closingFrom_cons_plain hquote hsame hne.symm, count_cons_of_ne hother]

/-- A bracket that is owed is passed over, since one more is open. -/
theorem closingFrom_owed {owed : List Char} (hpair : closerOf? opener = some closer)
    (hquote : isQuote c = false) (hsingle : closerOf? c = none) (hdepth : 0 < depth) (index : Nat)
    (rest : Text) :
    closingFrom opener closer (depth + (c :: owed).count closer) none index (c :: rest) =
      closingFrom opener closer (depth + owed.count closer) none (index + 1) rest := by
  have hne := ne_opener hpair hsingle
  by_cases hsame : c = closer
  · subst hsame
    have hdeeper : depth + ((c :: owed).count c : Nat) ≠ 1 := by
      rw [count_cons_self]
      omega
    rw [closingFrom_cons_closer hquote hne hdeeper, count_cons_self]
    congr 1
    omega
  · rw [closingFrom_cons_plain hquote hne hsame, count_cons_of_ne hsame]

end

namespace Closes

variable {owed : List Char} {quote : Option Char} {text : Text}

/-- Induction over a text as the splitter goes through it: some characters stay in their segment, or a
separator is cut away. -/
@[elab_as_elim]
theorem segment_induction {motive : List Char → Option Char → Text → Prop} (separator : Text)
    (h : Closes owed quote text) (nil : motive [] none [])
    (stay : ∀ {owed owed' : List Char} {quote quote' : Option Char} (front : Text) {rest : Text},
      (∀ more, segmentsFrom separator owed quote (front ++ more) =
        (segmentsFrom separator owed' quote' more).map (Segments.prepend front)) →
      motive owed' quote' rest → motive owed quote (front ++ rest))
    (cut : ∀ {c : Char} {rest : Text}, isInert c = true → [c] = separator → motive [] none rest →
      motive [] none (c :: rest)) : motive owed quote text := by
  induction h with
  | nil => exact nil
  | @escaped _ _ d _ _ ih =>
    refine stay ['\\', d] (fun more => ?_) ih
    exact (segmentsFrom_escape more).trans (Option.map_map ..)
  | @quoted _ _ c _ plain _ ih => exact stay [c] (segmentsFrom_cons_quoted plain) ih
  | @quote _ c _ opens _ ih => exact stay [c] (segmentsFrom_openQuote opens) ih
  | @bracket _ c _ _ plain opens _ ih => exact stay [c] (segmentsFrom_open plain opens) ih
  | @closer _ c _ plain single ends _ ih => exact stay [c] (segmentsFrom_close plain single ends) ih
  | angle head _ ih => exact stay ['>'] (segmentsFrom_angle head) ih
  | @inert owed c _ plain _ ih =>
    by_cases hcut : owed = [] ∧ [c] = separator
    · obtain ⟨rfl, hcut⟩ := hcut
      exact cut plain hcut ih
    · have hstays : [c] ≠ separator ∨ owed ≠ [] := by
        rw [← not_and_or, and_comm]
        exact hcut
      exact stay [c] (segmentsFrom_cons_inert plain hstays) ih

/-- A text that closes what is open has segments, which make up the text again, and they are the
first segments of every longer text. -/
theorem exists_segments (h : Closes owed quote text) (separator : Text) :
    ∃ segments, segmentsFrom separator owed quote text = some segments ∧
      joinWith separator (segments.1 :: segments.2) = text ∧
      ∀ rest, segmentsFrom separator owed quote (text ++ rest) =
        (segmentsFrom separator [] none rest).map (Segments.glue segments.1 segments.2) := by
  refine h.segment_induction separator ?nil ?stay ?cut
  case nil => exact ⟨([], []), rfl, rfl, fun rest => (Segments.map_prepend_nil _).symm⟩
  case stay =>
    rintro owed owed' quote quote' front rest hstep ⟨segments, hsegments, hjoin, hmore⟩
    refine ⟨segments.prepend front, by rw [hstep, hsegments]; rfl, ?_, fun more => ?_⟩
    · rw [Segments.joinWith_prepend, hjoin]
    · rw [append_assoc, hstep, hmore, Segments.map_glue_map_prepend]
  case cut =>
    rintro c rest plain rfl ⟨segments, hsegments, hjoin, hmore⟩
    refine ⟨segments.cut, by rw [segmentsFrom_cut plain, hsegments]; rfl, ?_, fun more => ?_⟩
    · exact congrArg (c :: ·) hjoin
    · rw [cons_append, segmentsFrom_cut plain, hmore, Option.map_map]
      rfl

/-- Every segment is read as one segment: the first from where the text starts, the others from outside
all brackets and quotes. -/
theorem segments_whole (h : Closes owed quote text) (separator : Text) :
    ∃ first others, segmentsFrom separator owed quote text = some (first, others) ∧
      segmentsFrom separator owed quote first = some (first, []) ∧
      ∀ segment ∈ others, segmentsFrom separator [] none segment = some (segment, []) := by
  refine h.segment_induction separator ?nil ?stay ?cut
  case nil => exact ⟨[], [], rfl, rfl, forall_mem_nil _⟩
  case stay =>
    rintro owed owed' quote quote' front rest hstep ⟨first, others, hrest, hfirst, hothers⟩
    exact ⟨front ++ first, others, by rw [hstep, hrest]; rfl, by rw [hstep, hfirst]; rfl, hothers⟩
  case cut =>
    rintro c rest plain rfl ⟨first, others, hrest, hfirst, hothers⟩
    refine ⟨[], first :: others, by rw [segmentsFrom_cut plain, hrest]; rfl, rfl, ?_⟩
    exact forall_mem_cons.mpr ⟨hfirst, hothers⟩

/-- Inside a bracket other than an angle bracket the text is passed over whole. -/
theorem segmentsFrom_inside (h : Closes owed quote text) (separator : Text) (hne : base ≠ [])
    (hangle : base.head? ≠ some '>') (rest : Text) :
    segmentsFrom separator (owed ++ base) quote (text ++ rest) =
      (segmentsFrom separator base none rest).map (Segments.prepend text) := by
  have push : ∀ {owed owed' : List Char} {quote quote' : Option Char} {text : Text} (c : Char),
      (∀ more, segmentsFrom separator owed quote (c :: more) =
        (segmentsFrom separator owed' quote' more).map (·.push c)) →
      segmentsFrom separator owed' quote' (text ++ rest) =
        (segmentsFrom separator base none rest).map (Segments.prepend text) →
      segmentsFrom separator owed quote (c :: text ++ rest) =
        (segmentsFrom separator base none rest).map (Segments.prepend (c :: text)) := by
    intro owed owed' quote quote' text c hstep htext
    rw [cons_append, hstep, htext, Option.map_map]
    rfl
  induction h with
  | nil => exact (Segments.map_prepend_nil _).symm
  | @escaped owed quote d text _ ih =>
    rw [cons_append, cons_append, segmentsFrom_escape, ih, Option.map_map, Option.map_map]
    rfl
  | quoted plain _ ih => exact push _ (segmentsFrom_cons_quoted plain) ih
  | quote opens _ ih => exact push _ (segmentsFrom_openQuote opens) ih
  | bracket plain opens _ ih => exact push _ (segmentsFrom_open plain opens) ih
  | closer plain single ends _ ih => exact push _ (segmentsFrom_close plain single ends) ih
  | @angle owed text head _ ih =>
    refine push _ (segmentsFrom_angle ?_) ih
    cases owed with
    | nil => exact hangle
    | cons closer outer => exact head
  | inert plain _ ih =>
    exact push _ (segmentsFrom_cons_inert plain (Or.inr (by simp [hne]))) ih

/-- The bracket around a text is found behind it: the owed brackets of its kind count as open. -/
theorem closingFrom_append {opener closer : Char} (hpair : closerOf? opener = some closer)
    (hangle : closer ≠ '>') (h : Closes owed quote text) (hdepth : 0 < depth) (index : Nat)
    (rest : Text) :
    closingFrom opener closer (depth + owed.count closer) quote index (text ++ rest) =
      closingFrom opener closer depth none (index + text.length) rest := by
  have step : ∀ {owed owed' : List Char} {quote quote' : Option Char} (front : Text) {text : Text},
      (∀ index more, closingFrom opener closer (depth + owed.count closer) quote index
        (front ++ more) = closingFrom opener closer (depth + owed'.count closer) quote'
          (index + front.length) more) →
      (∀ index, closingFrom opener closer (depth + owed'.count closer) quote' index (text ++ rest) =
        closingFrom opener closer depth none (index + text.length) rest) →
      ∀ index, closingFrom opener closer (depth + owed.count closer) quote index
        (front ++ text ++ rest) =
          closingFrom opener closer depth none (index + (front ++ text).length) rest := by
    intro owed owed' quote quote' front text hfront htext index
    rw [append_assoc, hfront, htext, length_append, Nat.add_assoc]
  induction h generalizing index with
  | nil => simp
  | @escaped _ _ d _ _ ih => exact step ['\\', d] (fun _ _ => rfl) ih index
  | @quoted _ _ c _ plain _ ih =>
    exact step [c] (fun _ _ => closingFrom_cons_quoted plain ..) ih index
  | @quote _ c _ opens _ ih => exact step [c] (closingFrom_openQuote opens _) ih index
  | @bracket _ c _ _ _ opens _ ih => exact step [c] (closingFrom_bracket hpair opens _) ih index
  | @closer _ c _ plain single _ _ ih =>
    exact step [c] (closingFrom_owed hpair plain single hdepth) ih index
  | angle _ _ ih =>
    exact step ['>'] (closingFrom_cons_plain (by decide) (ne_opener hpair rfl) hangle.symm _) ih index
  | @inert _ c _ plain _ ih =>
    obtain ⟨hquote, hplain, hopens⟩ := isInert_iff.mp plain
    have hne := (ne_of_kind (of_closerOf?_eq_some hpair).2.2.2 hplain).symm
    exact step [c] (closingFrom_cons_plain hquote (ne_opener hpair hopens) hne _) ih index

theorem append {back : Text} (h : Closes owed quote text) (hangle : base.head? ≠ some '>')
    (hback : Closes base none back) :
    Closes (owed ++ base) quote (text ++ back) := by
  induction h with
  | nil => exact hback
  | escaped _ ih => exact .escaped ih
  | quoted plain _ ih => exact .quoted plain ih
  | quote opens _ ih => exact .quote opens ih
  | bracket plain opens _ ih => exact .bracket plain opens ih
  | closer plain single ends _ ih => exact .closer plain single ends ih
  | @angle owed text head _ ih =>
    refine .angle ?_ ih
    cases owed with
    | nil => exact hangle
    | cons closer outer => exact head
  | inert plain _ ih => exact .inert plain ih

theorem of_blanks (hblanks : ∀ c ∈ blanks, isBlank c = true)
    (hquote : ∀ q ∈ quote, isQuote q = true) (h : Closes owed quote blanks) :
    Closes owed quote [] := by
  induction blanks with
  | nil => exact h
  | cons c blanks ih =>
    have hc : isBlank c = true := hblanks c (by simp)
    have hinert := isInert_of_isBlank hc
    obtain ⟨hplain, hcloser, hopener⟩ := isInert_iff.mp hinert
    refine ih (fun d hd => hblanks d (by simp [hd])) ?_
    cases h with
    | escaped => exact absurd hc (by decide)
    | @quoted _ quote _ _ _ closes =>
      have hne : c ≠ quote := (ne_of_kind (hquote quote rfl) hplain).symm
      rwa [if_neg hne] at closes
    | quote opens => simp [opens] at hplain
    | bracket _ opens => simp [opens] at hopener
    | closer _ _ ends => simp [ends] at hcloser
    | angle => exact absurd hc (by decide)
    | inert _ closes => exact closes

theorem of_append_blanks (hblanks : ∀ c ∈ blanks, isBlank c = true)
    (hquote : ∀ q ∈ quote, isQuote q = true) (h : Closes owed quote (text ++ blanks)) :
    Closes owed quote text := by
  -- either nothing is left of the text, or its first character is the one that is read
  have step : ∀ {owed : List Char} {quote : Option Char} {text : Text} {c : Char} {rest : Text},
      (∀ q ∈ quote, isQuote q = true) → text ++ blanks = c :: rest →
      Closes owed quote (c :: rest) →
      (∀ tail, tail ++ blanks = rest → Closes owed quote (c :: tail)) → Closes owed quote text := by
    intro owed quote text c rest hquote hall hcloses hcons
    rcases append_eq_cons_iff.mp hall with ⟨rfl, rfl⟩ | ⟨tail, rfl, htail⟩
    · exact of_blanks hblanks hquote hcloses
    · exact hcons tail htail.symm
  generalize hall : text ++ blanks = all at h
  induction h generalizing text with
  | nil =>
    obtain ⟨rfl, -⟩ := append_eq_nil_iff.mp hall
    exact .nil
  | @escaped owed quote d rest closes ih =>
    refine step hquote hall (.escaped closes) fun tail htail => ?_
    rcases append_eq_cons_iff.mp htail with ⟨rfl, rfl⟩ | ⟨more, rfl, hmore⟩
    · have hopen := of_blanks (fun c hc => hblanks c (by simp [hc])) hquote closes
      cases hopen
    · exact .escaped (ih hquote hmore.symm)
  | quoted plain closes ih =>
    refine step hquote hall (.quoted plain closes) fun tail htail => .quoted plain (ih ?_ htail)
    split
    · simp
    · exact hquote
  | quote opens closes ih =>
    exact step hquote hall (.quote opens closes) fun tail htail =>
      .quote opens (ih (by simpa using opens) htail)
  | bracket plain opens closes ih =>
    exact step hquote hall (.bracket plain opens closes) fun tail htail =>
      .bracket plain opens (ih hquote htail)
  | closer plain single ends closes ih =>
    exact step hquote hall (.closer plain single ends closes) fun tail htail =>
      .closer plain single ends (ih hquote htail)
  | angle head closes ih =>
    exact step hquote hall (.angle head closes) fun tail htail => .angle head (ih hquote htail)
  | inert plain closes ih =>
    exact step hquote hall (.inert plain closes) fun tail htail => .inert plain (ih hquote htail)

end Closes

/-! ## Balanced text and its pieces -/

namespace Balanced

variable {text back : Text}

theorem append (h : Balanced text) (hback : Balanced back) : Balanced (text ++ back) :=
  Closes.append h (by simp) hback

theorem of_blanks_append (hlead : ∀ c ∈ lead, isBlank c = true) (h : Balanced (lead ++ text)) :
    Balanced text := by
  induction lead with
  | nil => exact h
  | cons c lead ih =>
    have hc : isBlank c = true := hlead c (by simp)
    obtain ⟨hplain, -, hopener⟩ := isInert_iff.mp (isInert_of_isBlank hc)
    refine ih (fun d hd => hlead d (by simp [hd])) ?_
    cases h with
    | quote opens => simp [opens] at hplain
    | bracket _ opens => simp [opens] at hopener
    | angle => exact absurd hc (by decide)
    | inert _ closes => exact closes

theorem of_inert (h : ∀ c ∈ text, isInert c = true) : Balanced text := by
  induction text with
  | nil => exact .nil
  | cons c text ih => exact .inert (h c (by simp)) (ih fun d hd => h d (by simp [hd]))

theorem of_blank (h : ∀ c ∈ text, isBlank c = true) : Balanced text :=
  .of_inert fun c hc => isInert_of_isBlank (h c hc)

theorem joinWith {separator : Text} (hseparator : Balanced separator)
    (h : ∀ part ∈ parts, Balanced part) : Balanced (joinWith separator parts) := by
  induction parts with
  | nil => exact .nil
  | cons part parts ih =>
    have hparts := ih fun part hpart => h part (by simp [hpart])
    cases parts with
    | nil => exact h part (by simp)
    | cons second parts => exact ((h part (by simp)).append hseparator).append hparts

theorem closingFrom_enclosed {opener closer : Char} (hpair : closerOf? opener = some closer)
    (hangle : closer ≠ '>') (h : Balanced text) (index : Nat) (rest : Text) :
    closingFrom opener closer 0 none index (opener :: (text ++ closer :: rest)) =
      some (index + text.length + 1) := by
  obtain ⟨hopener, hcloser, hsingle, -⟩ := of_closerOf?_eq_some hpair
  have hne : closer ≠ opener := by
    rintro rfl
    rw [hsingle] at hpair
    cases hpair
  have hinner := h.closingFrom_append hpair hangle Int.one_pos (index + 1) (closer :: rest)
  rw [count_nil, Int.ofNat_zero, Int.add_zero] at hinner
  rw [closingFrom_opener hopener, Int.zero_add, hinner, closingFrom_closer hcloser hne]
  congr 1
  omega

end Balanced

/-- Whether a text is balanced and the separator stands only in its brackets and quotes. -/
def IsPiece (separator : Char) (text : Text) : Prop :=
  segmentsFrom [separator] [] none text = some (text, [])

namespace IsPiece

variable {separator : Char} {text back : Text}

theorem balanced (h : IsPiece separator text) : Balanced text :=
  closes_of_segmentsFrom h

theorem of_segmentsFrom {first : Text} (h : segmentsFrom [separator] [] none text = some (first, [])) :
    first = text ∧ IsPiece separator text := by
  obtain ⟨segments, hsegments, hjoin, -⟩ := (closes_of_segmentsFrom h).exists_segments [separator]
  obtain rfl := some.inj (h.symm.trans hsegments)
  obtain rfl : first = text := hjoin
  exact ⟨rfl, h⟩

theorem segmentsFrom_append (h : IsPiece separator text) (rest : Text) :
    segmentsFrom [separator] [] none (text ++ rest) =
      (segmentsFrom [separator] [] none rest).map (Segments.prepend text) := by
  obtain ⟨segments, hsegments, -, hmore⟩ := h.balanced.exists_segments [separator]
  obtain rfl := some.inj (h.symm.trans hsegments)
  exact hmore rest

theorem append (h : IsPiece separator text) (hback : IsPiece separator back) :
    IsPiece separator (text ++ back) := by
  unfold IsPiece at hback ⊢
  rw [h.segmentsFrom_append, hback]
  rfl

theorem of_not_mem (h : Balanced text) (hnot : separator ∉ text) : IsPiece separator text := by
  obtain ⟨⟨first, others⟩, hsegments, hjoin, -⟩ := h.exists_segments [separator]
  cases others with
  | nil => exact (of_segmentsFrom hsegments).2
  | cons second others =>
    exact absurd (by rw [← hjoin]; simp [joinWith]) hnot

theorem enclose {opener closer : Char} (hpair : closerOf? opener = some closer)
    (hangle : closer ≠ '>') (h : Balanced text) : IsPiece separator (opener :: (text ++ [closer])) := by
  obtain ⟨hopener, hcloser, hsingle, hends⟩ := of_closerOf?_eq_some hpair
  have hinside := h.segmentsFrom_inside [separator] (cons_ne_nil closer [])
    (by simpa using hangle) [closer]
  rw [nil_append] at hinside
  rw [IsPiece, segmentsFrom_open hopener hpair, hinside, segmentsFrom_close hcloser hsingle hends]
  simp [segmentsFrom, Segments.prepend]

theorem splitTopLevel_eq (h : IsPiece separator text) (hblank : isBlankText text = false) :
    splitTopLevel [separator] text = some [trim text] := by
  unfold IsPiece at h
  simp [splitTopLevel, h, Segments.parts, hblank]

theorem splitTopLevel_first (hseparator : isInert separator = true) (h : IsPiece separator text)
    (hback : Balanced back) :
    ∃ others, splitTopLevel [separator] (text ++ separator :: back) = some (trim text :: others) := by
  obtain ⟨segments, hsegments, -⟩ := hback.exists_segments [separator]
  refine ⟨(segments.1 :: segments.2).map trim, ?_⟩
  rw [splitTopLevel, h.segmentsFrom_append, segmentsFrom_cut hseparator, hsegments]
  simp [Segments.prepend, Segments.cut, Segments.parts]

theorem of_splitTopLevel (h : splitTopLevel [separator] text = some [text]) :
    IsPiece separator text ∧ isBlankText text = false ∧ trim text = text := by
  obtain ⟨⟨first, others⟩, hsegments, hparts⟩ := map_eq_some_iff.mp h
  unfold Segments.parts at hparts
  split at hparts
  · cases hparts
  · next hblank =>
    obtain ⟨htrim, hothers⟩ := cons.inj hparts
    obtain rfl := map_eq_nil_iff.mp hothers
    obtain ⟨rfl, hpiece⟩ := of_segmentsFrom hsegments
    exact ⟨hpiece, by simpa using hblank, htrim⟩

end IsPiece

/-! ## Blanks around a text -/

theorem Segments.map_trim_glue (htail : ∀ c ∈ tail, isBlank c = true) (first : Text)
    (others : List Text) :
    ((glue first others (tail, [])).1 :: (glue first others (tail, [])).2).map trim =
      (first :: others).map trim := by
  induction others generalizing first with
  | nil => simp [glue, trim_append_of_blanks htail]
  | cons second others ih => exact congrArg (trim first :: ·) (ih second)

theorem Segments.parts_prepend (hlead : ∀ c ∈ lead, isBlank c = true) (segments : Segments) :
    (segments.prepend lead).parts = segments.parts := by
  have hblank : isBlankText (lead ++ segments.1) = isBlankText segments.1 := by
    rw [isBlankText, all_append, all_eq_true.mpr hlead, Bool.true_and]
    rfl
  simp only [parts, prepend, hblank, map_cons, trim_blanks_append hlead]

theorem Segments.parts_glue (htail : ∀ c ∈ tail, isBlank c = true) (segments : Segments) :
    (glue segments.1 segments.2 (tail, [])).parts = segments.parts := by
  obtain ⟨first, others⟩ := segments
  have hmap := map_trim_glue htail first others
  cases others with
  | nil =>
    have hblank : isBlankText (first ++ tail) = isBlankText first := by
      rw [isBlankText, all_append, all_eq_true.mpr htail, Bool.and_true]
      rfl
    simp only [parts, glue, hblank] at hmap ⊢
    rw [hmap]
  | cons second others =>
    unfold parts
    rw [hmap]
    rfl

theorem balanced_trim {text : Text} (h : Balanced text) : Balanced (trim text) := by
  obtain ⟨lead, tail, htext, hlead, htail⟩ := exists_blanks_append_trim text
  rw [htext, append_assoc] at h
  exact Closes.of_append_blanks htail (by simp) (h.of_blanks_append hlead)

theorem splitTopLevel_trim {separator : Char} (hseparator : isBlank separator = false) {text : Text}
    (h : Balanced text) : splitTopLevel [separator] (trim text) = splitTopLevel [separator] text := by
  obtain ⟨lead, tail, htext, hlead, htail⟩ := exists_blanks_append_trim text
  have hpass : ∀ {blanks : Text}, (∀ c ∈ blanks, isBlank c = true) → ∀ rest,
      segmentsFrom [separator] [] none (blanks ++ rest) =
        (segmentsFrom [separator] [] none rest).map (Segments.prepend blanks) := by
    intro blanks hblanks
    apply segmentsFrom_append_inert
    intro c hc
    refine ⟨isInert_of_isBlank (hblanks c hc), Or.inl ?_⟩
    simpa using ne_of_kind (hblanks c hc) hseparator
  obtain ⟨segments, hsegments, -, hmore⟩ := (balanced_trim h).exists_segments [separator]
  have htail' : segmentsFrom [separator] [] none tail = some (tail, []) := by
    have hsolo := hpass htail []
    rw [append_nil] at hsolo
    rw [hsolo]
    simp [segmentsFrom, Segments.prepend]
  calc
    splitTopLevel [separator] (trim text) = some segments.parts := by
      rw [splitTopLevel, hsegments, map_some]
    _ = splitTopLevel [separator] text := by
      rw [htext, append_assoc, splitTopLevel, hpass hlead, hmore, htail', map_some,
        map_some, map_some, Segments.parts_prepend hlead, Segments.parts_glue htail]

theorem splitCommas_joinWith (hne : parts ≠ [])
    (h : ∀ part ∈ parts, IsPiece ',' part) (hblank : ∀ part ∈ parts, isBlankText part = false) :
    splitCommas (joinWith [',', ' '] parts) = some (parts.map trim) := by
  have hsegments : ∀ {first : Text} {others : List Text},
      (∀ part ∈ first :: others, IsPiece ',' part) →
      segmentsFrom [','] [] none (joinWith [',', ' '] (first :: others)) =
        some (first, others.map (' ' :: ·)) := by
    intro first others h
    induction others generalizing first with
    | nil => exact h first (by simp)
    | cons second others ih =>
      have hrest := ih fun part hpart => h part (mem_cons_of_mem first hpart)
      rw [joinWith, append_assoc, (h first (by simp)).segmentsFrom_append, cons_append,
        segmentsFrom_cut (by decide), cons_append, nil_append,
        segmentsFrom_cons_inert (by decide) (Or.inl (by decide)), hrest]
      simp [Segments.prepend, Segments.cut]
      simp
  obtain ⟨first, others, rfl⟩ := exists_cons_of_ne_nil hne
  have htrim : ∀ part : Text, trim (' ' :: part) = trim part := fun part => by
    rw [trim, trimLeft_cons_of_blank (by decide), trim]
  rw [splitCommas, splitTopLevel, hsegments h, map_some, Segments.parts, hblank first (by simp)]
  simp [htrim]

theorem splitCommas_joinWith_map {α : Type} {text : α → Text} (hpiece : ∀ item, IsPiece ',' (text item))
    (hblank : ∀ item, isBlankText (text item) = false) (htrim : ∀ item, trim (text item) = text item)
    {items : List α} (hne : items ≠ []) :
    splitCommas (joinWith [',', ' '] (items.map text)) = some (items.map text) := by
  have hsplit := splitCommas_joinWith (by simpa using hne)
    (forall_mem_map.mpr fun item _ => hpiece item)
    (forall_mem_map.mpr fun item _ => hblank item)
  rwa [List.map_map, show trim ∘ text = text from funext htrim] at hsplit

end SourceAtlas
