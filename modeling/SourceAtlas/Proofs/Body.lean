import SourceAtlas.Body
import SourceAtlas.Proofs.Text.Basic

/-!
# Where a body stands

A body is found exactly when the first brace from the offset on opens a block behind a gap that a header
may be followed by, and its end is the one brace in front of which all braces of the block pair up.
-/

namespace SourceAtlas

open List Option

/-- How many braces are open behind a text when `depth` are open before it. There is no answer when
a brace closes nothing. -/
def openAfter (depth : Nat) : Text → Option Nat
  | [] => some depth
  | c :: rest =>
    if c = '{' then openAfter (depth + 1) rest
    else if c = '}' then
      match depth with
      | 0 => none
      | outer + 1 => openAfter outer rest
    else openAfter depth rest

/-- Whether no front of a text closes more braces than it opens, and the whole closes all of them. -/
def BracesPair (text : Text) : Prop :=
  (∀ front, front <+: text → front.count '}' ≤ front.count '{') ∧ text.count '{' = text.count '}'

/-- The text between an offset and the brace that opens a body. -/
def Body.gap (body : Body) (text : Text) (offset : Nat) : Text :=
  (text.take body.start).drop offset

/-- How a body stands in a text: its opening brace is the first one from `offset` on, the gap in front
of it does not end the header, and its closing brace is the one up to which its braces pair up. -/
structure Body.StandsIn (body : Body) (text : Text) (offset : Nat) (isAlias : Bool) : Prop where
  after : offset ≤ body.start
  opens : text[body.start]? = some '{'
  first : ∀ i, offset ≤ i → i < body.start → text[i]? ≠ some '{'
  plain_gap : isAlias = false → ';' ∉ body.gap text offset ∧ '}' ∉ body.gap text offset
  alias_gap : isAlias = true → trim (body.gap text offset) = [] ∨ trim (body.gap text offset) = ['=']
  ordered : body.start < body.stop
  closes : text[body.stop]? = some '}'
  inner : body.text = (text.take body.stop).drop (body.start + 1)
  paired : BracesPair body.text

variable {depth last offset : Nat} {text inner gap : Text} {isAlias : Bool} {body : Body}

/-! ## Braces that pair up -/

theorem openAfter_append (depth : Nat) (first second : Text) :
    openAfter depth (first ++ second) =
      (openAfter depth first).bind fun depth => openAfter depth second := by
  induction first generalizing depth with
  | nil => rfl
  | cons c first ih =>
    change (if c = '{' then _ else _) = Option.bind (if c = '{' then _ else _) _
    split
    · exact ih _
    · split
      · cases depth with
        | zero => rfl
        | succ outer => exact ih outer
      · exact ih depth

theorem openAfter_of_plain (h : ∀ c ∈ text, c ≠ '{' ∧ c ≠ '}') (depth : Nat) :
    openAfter depth text = some depth := by
  induction text with
  | nil => rfl
  | cons c text ih =>
    have hc := h c (by simp)
    change (if c = '{' then _ else _) = _
    rw [if_neg hc.1, if_neg hc.2, ih fun d hd => h d (by simp [hd])]

theorem openAfter_eq_some_iff : openAfter depth text = some last ↔
    (∀ front, front <+: text → front.count '}' ≤ depth + front.count '{') ∧
      depth + text.count '{' = last + text.count '}' := by
  induction text generalizing depth with
  | nil => simp [openAfter]
  | cons c text ih =>
    have hfronts : (∀ front, front <+: c :: text → front.count '}' ≤ depth + front.count '{') ↔
        ∀ front, front <+: text → (c :: front).count '}' ≤ depth + (c :: front).count '{' := by
      refine ⟨fun h front hfront => h _ (cons_prefix_cons.mpr ⟨rfl, hfront⟩), fun h front hfront => ?_⟩
      obtain rfl | ⟨later, rfl, hlater⟩ := prefix_cons_iff.mp hfront
      · simp
      · exact h later hlater
    rw [hfronts]
    change (if c = '{' then _ else _) = _ ↔ _
    split
    next hopen =>
      subst hopen
      rw [ih]
      simp only [count_cons_self, count_cons_of_ne (by decide : '{' ≠ '}')]
      simp only [Nat.add_assoc, Nat.add_comm 1]
    next hopen =>
      split
      next hclose =>
        subst hclose
        simp only [count_cons_self, count_cons_of_ne (by decide : '}' ≠ '{')]
        cases depth with
        | zero => simpa using fun h => absurd (h [] nil_prefix) (by simp)
        | succ outer =>
          rw [ih]
          simp only [Nat.add_right_comm outer 1, Nat.add_le_add_iff_right, ← Nat.add_assoc,
            Nat.add_right_cancel_iff]
      next hclose =>
        rw [ih]
        simp only [count_cons_of_ne hopen, count_cons_of_ne hclose]

theorem openAfter_zero_iff : openAfter 0 text = some 0 ↔ BracesPair text := by
  rw [openAfter_eq_some_iff]
  simp only [Nat.zero_add]
  rfl

theorem count_of_openAfter (h : openAfter depth text = some last) :
    depth + text.count '{' = last + text.count '}' :=
  (openAfter_eq_some_iff.mp h).2

/-! ## The end of a block -/

/-- A text that leaves `last` blocks open is passed over on the way to the end of the block. -/
theorem blockText?_append (h : openAfter depth text = some last) (rest : Text) :
    blockText? depth (text ++ rest) = (blockText? last rest).map (text ++ ·) := by
  induction text generalizing depth with
  | nil =>
    obtain rfl : depth = last := by simpa [openAfter] using h
    simp
  | cons c text ih =>
    change (if c = '{' then _ else _) = _ at h
    rw [cons_append]
    change (if c = '{' then _ else _) = _
    split at h
    next hopen =>
      rw [if_pos hopen, ih h]
      cases blockText? last rest <;> rfl
    next hopen =>
      rw [if_neg hopen]
      split at h
      next hclose =>
        rw [if_pos hclose]
        cases depth with
        | zero => cases h
        | succ outer =>
          simp only [ih h]
          cases blockText? last rest <;> rfl
      next hclose =>
        rw [if_neg hclose, ih h]
        cases blockText? last rest <;> rfl

theorem blockText?_eq_some_iff : blockText? depth text = some inner ↔
    openAfter depth inner = some 0 ∧ ∃ tail, text = inner ++ '}' :: tail := by
  constructor
  · intro h
    induction text generalizing depth inner with
    | nil => simp [blockText?] at h
    | cons c rest ih =>
      -- the rest of the block is found behind `c` with another depth
      have later : ∀ {depth' : Nat}, (∀ inner, openAfter depth (c :: inner) = openAfter depth' inner) →
          (blockText? depth' rest).map (c :: ·) = some inner →
            openAfter depth inner = some 0 ∧ ∃ tail, c :: rest = inner ++ '}' :: tail := by
        intro depth' hstep hlater
        obtain ⟨inner', hinner, rfl⟩ := map_eq_some_iff.mp hlater
        obtain ⟨hopen, tail, rfl⟩ := ih hinner
        exact ⟨(hstep inner').trans hopen, tail, rfl⟩
      change (if c = '{' then _ else _) = _ at h
      split at h
      next hopen => exact later (fun inner => if_pos hopen) h
      next hopen =>
        split at h
        next hclose =>
          subst hclose
          cases depth with
          | zero =>
            cases h
            exact ⟨rfl, rest, rfl⟩
          | succ outer => exact later (fun inner => rfl) h
        next hclose =>
          exact later (fun inner => (if_neg hopen).trans (if_neg hclose)) h
  · rintro ⟨hinner, tail, rfl⟩
    rw [blockText?_append hinner]
    simp [blockText?]

/-! ## The body behind a header -/

/-- The parts of a text around a body that is found from `offset` on. -/
theorem extractBody?_eq_some_iff : extractBody? text offset isAlias = some body ↔
    ∃ gap tail, text.drop offset = gap ++ '{' :: (body.text ++ '}' :: tail) ∧
      '{' ∉ gap ∧ bridgesToBody isAlias gap = true ∧ BracesPair body.text ∧
        body.start = offset + gap.length ∧ body.stop = body.start + body.text.length + 1 := by
  constructor
  · intro h
    unfold extractBody? at h
    simp only at h
    split at h
    · next c rest hdrop =>
      split at h
      · next hbridge =>
        obtain ⟨inner, hinner, rfl⟩ := map_eq_some_iff.mp h
        obtain ⟨hpair, tail, rfl⟩ := blockText?_eq_some_iff.mp hinner
        set gap := (text.drop offset).takeWhile (· ≠ '{') with hgap
        have hafter : (text.drop offset).dropWhile (· ≠ '{') = c :: (inner ++ '}' :: tail) := by
          rw [← hdrop, ← drop_drop, hgap, drop_length_takeWhile]
        have hbrace : c = '{' := by simpa using of_dropWhile_eq_cons hafter
        refine ⟨gap, tail, ?_, ?_, hbridge, openAfter_zero_iff.mp hpair, rfl, rfl⟩
        · rw [← hbrace, ← hafter, hgap, takeWhile_append_dropWhile]
        · intro hmem
          simpa using mem_takeWhile_imp hmem
      · cases h
    · cases h
  · rintro ⟨gap, tail, hdrop, hgap, hbridge, hpair, hstart, hstop⟩
    have htake : (text.drop offset).takeWhile (· ≠ '{') = gap := by
      rw [hdrop]
      apply takeWhile_append_of_stop
      · intro c hc
        simpa using ne_of_mem_of_not_mem hc hgap
      · simp
    have hafter : text.drop (offset + gap.length) = '{' :: (body.text ++ '}' :: tail) := by
      rw [← drop_drop, hdrop, drop_left]
    have hblock : blockText? 0 (body.text ++ '}' :: tail) = some body.text :=
      blockText?_eq_some_iff.mpr ⟨openAfter_zero_iff.mpr hpair, tail, rfl⟩
    simp only [extractBody?, htake, hafter, hbridge, if_true, hblock, map_some]
    rw [← hstart, ← hstop]

theorem extractBody?_of_openAfter {front tail : Text} (hgap : '{' ∉ gap)
    (hbridge : bridgesToBody isAlias gap = true) (hinner : openAfter 0 inner = some 0) :
    extractBody? (front ++ (gap ++ '{' :: (inner ++ '}' :: tail))) front.length isAlias =
      some ⟨front.length + gap.length, front.length + gap.length + inner.length + 1, inner⟩ :=
  extractBody?_eq_some_iff.mpr
    ⟨gap, tail, drop_left, hgap, hbridge, openAfter_zero_iff.mp hinner, rfl, rfl⟩

theorem bridgesToBody_iff : bridgesToBody isAlias gap = true ↔
    (isAlias = false → ';' ∉ gap ∧ '}' ∉ gap) ∧
      (isAlias = true → trim gap = [] ∨ trim gap = ['=']) := by
  cases isAlias <;> simp [bridgesToBody]

/-- Before the body of an alias there is at most an assignment sign among blanks. -/
theorem of_trim_gap (h : trim gap = [] ∨ trim gap = ['=']) :
    (∀ c ∈ gap, isBlank c = true ∨ c = '=') ∧ gap.count '=' ≤ 1 := by
  obtain ⟨lead, tail, hgap, hlead, htail⟩ := exists_blanks_append_trim gap
  have hnone : ∀ {blanks : Text}, (∀ c ∈ blanks, isBlank c = true) → blanks.count '=' = 0 := by
    intro blanks hblanks
    rw [count_eq_zero]
    intro hmem
    exact absurd (hblanks _ hmem) (by decide)
  have hmiddle : (∀ c ∈ trim gap, c = '=') ∧ (trim gap).count '=' ≤ 1 := by
    rcases h with h | h <;> simp [h]
  constructor
  · intro c hc
    rw [hgap, mem_append, mem_append] at hc
    rcases hc with (hc | hc) | hc
    · exact Or.inl (hlead c hc)
    · exact Or.inr (hmiddle.1 c hc)
    · exact Or.inl (htail c hc)
  · rw [hgap, count_append, count_append, hnone hlead, hnone htail]
    omega

theorem standsIn_of_extractBody? (h : extractBody? text offset isAlias = some body) :
    body.StandsIn text offset isAlias := by
  obtain ⟨gap, tail, hdrop, hgap, hbridge, hpair, hstart, hstop⟩ := extractBody?_eq_some_iff.mp h
  have hbehind : ∀ i, text[offset + i]? = (gap ++ '{' :: (body.text ++ '}' :: tail))[i]? := by
    intro i
    rw [← hdrop, getElem?_drop]
  have hinner : text.drop (body.start + 1) = body.text ++ '}' :: tail := by
    rw [hstart, Nat.add_assoc, ← drop_drop, hdrop, ← drop_drop, drop_left]
    rfl
  have hbridged : bridgesToBody isAlias (body.gap text offset) = true := by
    rwa [Body.gap, hstart, drop_take, Nat.add_sub_cancel_left, hdrop, take_left]
  exact
    { after := by omega
      opens := by simp [hstart, hbehind]
      first := by
        intro i hfrom hto hbrace
        obtain ⟨j, rfl⟩ := Nat.exists_eq_add_of_le hfrom
        rw [hbehind, getElem?_append_left (by omega)] at hbrace
        exact hgap (mem_of_getElem? hbrace)
      plain_gap := (bridgesToBody_iff.mp hbridged).1
      alias_gap := (bridgesToBody_iff.mp hbridged).2
      ordered := by omega
      closes := by simp [hstop, hstart, Nat.add_assoc, hbehind]
      inner := by
        rw [drop_take, hinner, hstop, Nat.add_right_comm, Nat.add_sub_cancel_left, take_left]
      paired := hpair }

theorem extractBody?_of_standsIn (h : body.StandsIn text offset isAlias) :
    extractBody? text offset isAlias = some body := by
  have hcut : ∀ {a b : Nat}, a ≤ b → text.drop a = (text.take b).drop a ++ text.drop b := by
    intro a b hle
    conv_lhs => rw [← take_append_drop (b - a) (text.drop a)]
    rw [drop_take, drop_drop, Nat.add_sub_cancel' hle]
  have hchar : ∀ {i : Nat} {c : Char}, text[i]? = some c →
      i < text.length ∧ text.drop i = c :: text.drop (i + 1) := by
    intro i c hc
    obtain ⟨hlt, rfl⟩ := List.getElem?_eq_some_iff.mp hc
    exact ⟨hlt, drop_eq_getElem_cons hlt⟩
  obtain ⟨hstart, hopens⟩ := hchar h.opens
  obtain ⟨hstop, hcloses⟩ := hchar h.closes
  refine extractBody?_eq_some_iff.mpr
    ⟨body.gap text offset, text.drop (body.stop + 1), ?_, ?_,
      bridgesToBody_iff.mpr ⟨h.plain_gap, h.alias_gap⟩, h.paired, ?_, ?_⟩
  · rw [Body.gap, hcut h.after, hopens, hcut h.ordered, ← h.inner, hcloses]
  · intro hbrace
    obtain ⟨i, hi⟩ := mem_iff_getElem?.mp hbrace
    rw [Body.gap, getElem?_drop, getElem?_take] at hi
    split at hi
    · next hlt => exact h.first _ (Nat.le_add_right offset i) hlt hi
    · cases hi
  · have := h.after
    rw [Body.gap, length_drop, length_take]
    omega
  · have := h.ordered
    rw [h.inner, length_drop, length_take]
    omega

/-- A body is found exactly when it stands where it should, and none is found when no body does. -/
theorem extractBody?_exact (text : Text) (offset : Nat) (isAlias : Bool) :
    (∀ body, extractBody? text offset isAlias = some body ↔ body.StandsIn text offset isAlias) ∧
      (extractBody? text offset isAlias = none ↔
        ¬∃ body : Body, body.StandsIn text offset isAlias) := by
  have hiff : ∀ body, extractBody? text offset isAlias = some body ↔
      body.StandsIn text offset isAlias :=
    fun body => ⟨standsIn_of_extractBody?, extractBody?_of_standsIn⟩
  refine ⟨hiff, ?_⟩
  simp only [← hiff, ← isSome_iff_exists, Bool.not_eq_true, isSome_eq_false_iff,
    isNone_iff_eq_none]

end SourceAtlas
