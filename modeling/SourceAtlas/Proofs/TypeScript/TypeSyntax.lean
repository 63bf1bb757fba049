import SourceAtlas.Proofs.Bracket
import SourceAtlas.Proofs.TypeReading

/-!
# Types as they are written

A type is a text whose brackets and quotes close, where the `>` of an arrow is no bracket. Outside of
its brackets there is nothing that could end it. Such a text is read as a whole, although the reading
only counts open brackets, and whatever may stand behind a type ends the reading.
-/

namespace SourceAtlas.TypeScript

open List Option

open TypeReading

/-! ## Closed text -/

/-- Whether the character ends a type that stands outside of brackets. -/
def isSeparator (c : Char) : Bool :=
  c == ';' || c == ',' || c == '='

/-- Text in which every bracket closes with its own kind and every quote closes. With `outer` set it is
text outside of all brackets: a separator may only be the sign of an arrow, and no brace opens. -/
inductive Closed : Bool → Text → Prop where
  | nil {outer : Bool} : Closed outer []
  | plain {outer : Bool} {c : Char} {rest : Text} (inert : isInert c = true)
      (kept : outer = true → isSeparator c = false) (more : Closed outer rest) :
      Closed outer (c :: rest)
  | arrow {outer : Bool} {rest : Text} (more : Closed outer rest) :
      Closed outer ('=' :: '>' :: rest)
  | quoted {outer : Bool} {quote : Char} {inner rest : Text} (opens : isQuote quote = true)
      (inside : quote ∉ inner) (more : Closed outer rest) :
      Closed outer (quote :: (inner ++ quote :: rest))
  | group {outer : Bool} {opener closer : Char} {inner rest : Text}
      (pair : closerOf? opener = some closer) (kept : outer = true → opener ≠ '{')
      (inside : Closed false inner) (sign : closer = '>' → inner.getLast? ≠ some '=')
      (more : Closed outer rest) : Closed outer (opener :: (inner ++ closer :: rest))

/-- Characters that are no brackets, quotes or separators may stand in front of closed text. -/
theorem Closed.append_plain {outer : Bool} {front rest : Text}
    (h : (front.all fun c => isInert c && !(outer && isSeparator c)) = true)
    (hrest : Closed outer rest) : Closed outer (front ++ rest) := by
  induction front with
  | nil => exact hrest
  | cons c front ih =>
    rw [all_cons, Bool.and_eq_true, Bool.and_eq_true] at h
    obtain ⟨⟨hinert, hkept⟩, hfront⟩ := h
    refine .plain hinert (fun houter => ?_) (ih hfront)
    simpa [houter] using hkept

/-- The shape of a type. Only an object type in front has its brace outside of brackets. -/
inductive IsType : Text → Prop where
  | plain {text : Text} (closed : Closed true text) : IsType text
  | object {lead inner rest : Text} (blank : ∀ c ∈ lead, isBlank c = true)
      (inside : Closed false inner) (more : Closed true rest) :
      IsType (lead ++ '{' :: (inner ++ '}' :: rest))

/-- A type as it is written. -/
structure WrittenType where
  text : Text
  solid : isBlankText text = false
  shape : IsType text

/-! ## One character of a reading -/

section

variable {state after : TypeReading} {next : Option Char}

theorem step?_plain {c : Char} (hquote : state.quote = none) (hinert : isInert c = true)
    (hkept : state.depth = 0 → isSeparator c = false) :
    state.step? c next = some (state.pass c state.depth none) := by
  obtain ⟨hopens, hcloser, hopener⟩ := isInert_iff.mp hinert
  have hne : ∀ {d : Char}, isInert d = false → c ≠ d := fun hd => ne_of_kind hinert hd
  have hsign : ¬ (state.depth = 0 ∧ isSeparator c = true) := by
    rintro ⟨hdepth, hsep⟩
    rw [hkept hdepth] at hsep
    cases hsep
  simp only [isSeparator, Bool.or_eq_true, beq_iff_eq, not_and, not_or] at hsign
  simp only [step?, hquote, isSome_none, Bool.false_eq_true, dite_false, hopens,
    hne (d := '<') (by decide), hne (d := '(') (by decide), hne (d := '[') (by decide),
    hne (d := '>') (by decide), hne (d := ')') (by decide), hne (d := ']') (by decide),
    hne (d := '{') (by decide), hne (d := '}') (by decide), decide_false, Bool.false_and, Bool.or_self,
    if_false]
  by_cases hdepth : state.depth = 0
  · obtain ⟨⟨hsemicolon, hcomma⟩, hassign⟩ := hsign hdepth
    simp [hdepth, hsemicolon, hcomma, hassign]
  · simp [hdepth]

theorem step?_arrowSign (hquote : state.quote = none) :
    state.step? '=' (some '>') = some (state.pass '=' state.depth none) := by
  simp [step?, hquote, isQuote]

theorem step?_arrowHead (hquote : state.quote = none) (harrow : state.arrow = true) :
    state.step? '>' next = some (state.pass '>' state.depth none) := by
  simp [step?, hquote, harrow, isQuote]

theorem step?_openQuote {c : Char} (hquote : state.quote = none) (hc : isQuote c = true) :
    state.step? c next = some (state.pass c state.depth (some ⟨c, hc⟩)) := by
  simp [step?, hquote, hc]

theorem step?_opener {opener closer : Char} (hquote : state.quote = none)
    (hpair : closerOf? opener = some closer)
    (hbrace : opener = '{' → 0 < state.depth ∨ state.started = false) :
    state.step? opener next = some (state.pass opener (state.depth + 1) none) := by
  unfold closerOf? at hpair
  split at hpair
  · simp [step?, hquote, isQuote]
  · simp [step?, hquote, isQuote]
  · rcases hbrace rfl with hdepth | hstarted
    · simp [step?, hquote, isQuote, Nat.ne_of_gt hdepth]
    · simp [step?, hquote, isQuote, hstarted]
  · simp [step?, hquote, isQuote]
  · cases hpair

theorem step?_closer {opener closer : Char} (hquote : state.quote = none)
    (hpair : closerOf? opener = some closer) (hdepth : 0 < state.depth)
    (harrow : closer = '>' → state.arrow = false) :
    state.step? closer next = some (state.pass closer (state.depth - 1) none) := by
  have hne := Nat.ne_of_gt hdepth
  unfold closerOf? at hpair
  split at hpair
  · cases hpair
    simp [step?, hquote, isQuote, hne]
  · cases hpair
    simp [step?, hquote, isQuote, hne]
  · cases hpair
    simp [step?, hquote, isQuote, hne]
  · cases hpair
    simp [step?, hquote, isQuote, hne, harrow rfl]
  · cases hpair

/-- A reading that goes on takes the character with it, whatever becomes of brackets and quotes. -/
theorem exists_pass_of_step? {c : Char} (h : state.step? c next = some after) :
    ∃ depth quote, after = state.pass c depth quote := by
  let Passes (result : Option TypeReading) : Prop :=
    ∀ after ∈ result, ∃ depth quote, after = state.pass c depth quote
  have hnone : Passes none := fun _ hmem => by cases hmem
  have hsome : ∀ depth quote, Passes (some (state.pass c depth quote)) :=
    fun depth quote _ hmem => ⟨depth, quote, (some.inj hmem).symm⟩
  have hite : ∀ {p : Prop} [Decidable p] {first second : Option TypeReading},
      Passes first → Passes second → Passes (if p then first else second) := by
    intro p _ first second hfirst hsecond
    split
    · exact hfirst
    · exact hsecond
  have hdite : ∀ {p : Prop} [Decidable p] {first : p → Option TypeReading}
      {second : Option TypeReading}, (∀ h, Passes (first h)) → Passes second →
        Passes (if h : p then first h else second) := by
    intro p _ first second hfirst hsecond
    split
    · exact hfirst _
    · exact hsecond
  have hstep : Passes (state.step? c next) := by
    unfold step?
    apply hdite (fun _ => hsome _ _)
    apply hdite (fun _ => hsome _ _)
    apply hite (hsome _ _)
    apply hite (hite hnone (hsome _ _))
    apply hite (hite hnone (hsome _ _))
    apply hite (hite hnone (hsome _ _))
    exact hite hnone (hite hnone (hsome _ _))
  exact hstep after h

end

/-! ## Whole texts -/

section

variable {state after : TypeReading} {text : Text}

theorem run?_append_of_run? (h : state.run? text = some after) (rest : Text) :
    state.run? (text ++ rest) = after.run? rest := by
  induction text generalizing state with
  | nil =>
    obtain rfl := some.inj h
    rfl
  | cons c text ih =>
    obtain ⟨next, hstep, hrun⟩ := bind_eq_some_iff.mp h
    rw [cons_append, run?, step?_append hstep, bind_some]
    exact ih hrun

theorem arrow_of_run? (h : state.run? text = some after) :
    after.arrow = text.getLast?.elim state.arrow (· == '=') := by
  induction text generalizing state with
  | nil =>
    obtain rfl := some.inj h
    rfl
  | cons c text ih =>
    obtain ⟨next, hstep, hrun⟩ := bind_eq_some_iff.mp h
    obtain ⟨depth, quote, rfl⟩ := exists_pass_of_step? hstep
    rw [ih hrun]
    cases text with
    | nil => rfl
    | cons d text => rw [getLast?_cons_cons, getLast?_cons]; rfl

theorem started_of_run? (h : state.run? text = some after) :
    after.started = (state.started || !isBlankText text) := by
  induction text generalizing state with
  | nil =>
    obtain rfl := some.inj h
    simp [isBlankText]
  | cons c text ih =>
    obtain ⟨next, hstep, hrun⟩ := bind_eq_some_iff.mp h
    obtain ⟨depth, quote, rfl⟩ := exists_pass_of_step? hstep
    rw [ih hrun, TypeReading.pass, isBlankText, isBlankText, all_cons, Bool.not_and, Bool.or_assoc]

theorem exists_run?_quoted {quote : { c : Char // isQuote c = true }}
    (hquote : state.quote = some quote) (hinside : quote.1 ∉ text) :
    ∃ after : TypeReading, state.run? (text ++ [quote.1]) = some after ∧
      after.depth = state.depth ∧ after.quote = none := by
  induction text generalizing state with
  | nil =>
    refine ⟨state.pass quote.1 state.depth none, ?_, rfl, rfl⟩
    simp [run?, step?, hquote]
  | cons c text ih =>
    rw [mem_cons, not_or] at hinside
    have hstep : ∀ next, state.step? c next = some (state.pass c state.depth (some quote)) := by
      intro next
      simp [step?, hquote, Ne.symm hinside.1]
    obtain ⟨after, hrun, hdepth, hclosed⟩ :=
      @ih (state.pass c state.depth (some quote)) rfl hinside.2
    refine ⟨after, ?_, hdepth, hclosed⟩
    rw [cons_append, run?, hstep, bind_some, hrun]

theorem exists_run?_group {opener closer : Char} (hpair : closerOf? opener = some closer)
    (hquote : state.quote = none) (hbrace : opener = '{' → 0 < state.depth ∨ state.started = false)
    (hsign : closer = '>' → text.getLast? ≠ some '=')
    (hinner : ∃ after : TypeReading,
      (state.pass opener (state.depth + 1) none).run? text = some after ∧
        after.depth = state.depth + 1 ∧ after.quote = none) :
    ∃ after : TypeReading, state.run? (opener :: (text ++ [closer])) = some after ∧
      after.depth = state.depth ∧ after.quote = none := by
  obtain ⟨middle, hrun, hdepth, hclosed⟩ := hinner
  have harrow : closer = '>' → middle.arrow = false := by
    intro hangle
    rw [arrow_of_run? hrun]
    cases hlast : text.getLast? with
    | none =>
      have hopener : opener ≠ '=' := by
        rintro rfl
        cases hpair
      simpa [TypeReading.pass] using hopener
    | some c =>
      have hc : c ≠ '=' := fun heq => hsign hangle (hlast.trans (congrArg some heq))
      simpa using hc
  refine ⟨middle.pass closer (middle.depth - 1) none, ?_, ?_, rfl⟩
  · rw [run?, step?_opener hquote hpair hbrace, bind_some, run?_append_of_run? hrun, run?,
      step?_closer hclosed hpair (by omega) harrow]
    rfl
  · rw [TypeReading.pass, hdepth, Nat.add_sub_cancel]

end

theorem Closed.exists_run? {outer : Bool} {text : Text} (h : Closed outer text) {state : TypeReading}
    (hquote : state.quote = none) (hdepth : outer = true ∨ 0 < state.depth) :
    ∃ after, state.run? text = some after ∧ after.depth = state.depth ∧ after.quote = none := by
  -- along the text; a group is read one bracket deeper, where nothing ends a type
  induction h generalizing state with
  | nil => exact ⟨state, rfl, rfl, hquote⟩
  | @plain outer c rest inert kept more ih =>
    have hkept : state.depth = 0 → isSeparator c = false := fun hzero =>
      kept (hdepth.resolve_right (by omega))
    obtain ⟨after, hrun, hsame, hclosed⟩ := @ih (state.pass c state.depth none) rfl hdepth
    refine ⟨after, ?_, hsame, hclosed⟩
    rw [run?, step?_plain hquote inert hkept, bind_some, hrun]
  | @arrow outer rest more ih =>
    obtain ⟨after, hrun, hsame, hclosed⟩ :=
      @ih ((state.pass '=' state.depth none).pass '>' state.depth none) rfl hdepth
    refine ⟨after, ?_, hsame, hclosed⟩
    rw [run?, head?_cons, step?_arrowSign hquote, bind_some, run?,
      step?_arrowHead rfl rfl, bind_some]
    exact hrun
  | @quoted outer quote inner rest opens inside more ih =>
    obtain ⟨middle, hmiddle, hsame, hclosed⟩ :=
      @exists_run?_quoted (state.pass quote state.depth (some ⟨quote, opens⟩)) inner
        ⟨quote, opens⟩ rfl inside
    obtain ⟨after, hrun, hafter, hend⟩ := ih hclosed (by rwa [hsame])
    refine ⟨after, ?_, hafter.trans hsame, hend⟩
    rw [run?, step?_openQuote hquote opens, bind_some, append_cons,
      run?_append_of_run? hmiddle, hrun]
  | @group outer opener closer inner rest pair kept inside sign more ihInner ihRest =>
    have hbrace : opener = '{' → 0 < state.depth ∨ state.started = false := fun hopener =>
      Or.inl (hdepth.resolve_left fun houter => kept houter hopener)
    have hinner := @ihInner (state.pass opener (state.depth + 1) none) rfl
      (Or.inr (Nat.succ_pos state.depth))
    obtain ⟨middle, hmiddle, hsame, hclosed⟩ :=
      exists_run?_group pair hquote hbrace sign hinner
    obtain ⟨after, hrun, hafter, hend⟩ := ihRest hclosed (by rwa [hsame])
    refine ⟨after, ?_, hafter.trans hsame, hend⟩
    rw [append_cons, ← cons_append, run?_append_of_run? hmiddle, hrun]

/-! ## Types -/

theorem IsType.exists_run? {text : Text} (h : IsType text) :
    ∃ after, initial.run? text = some after ∧ after.isClosed = true := by
  have hend : ∀ {after : TypeReading}, after.depth = 0 → after.quote = none →
      after.isClosed = true := by
    intro after hdepth hquote
    rw [isClosed, hdepth, hquote]
    rfl
  cases h with
  | plain closed =>
    obtain ⟨after, hrun, hdepth, hquote⟩ := @Closed.exists_run? _ _ closed initial rfl (Or.inl rfl)
    exact ⟨after, hrun, hend hdepth hquote⟩
  | @object lead inner rest blank inside more =>
    have hlead : initial.run? lead = some initial := by
      clear hend inside more
      induction lead with
      | nil => rfl
      | cons c lead ih =>
        rw [run?_blank (blank c mem_cons_self)]
        exact ih fun d hd => blank d (mem_cons_of_mem c hd)
    have hinner := @Closed.exists_run? _ _ inside (initial.pass '{' 1 none) rfl (Or.inr Nat.one_pos)
    obtain ⟨middle, hmiddle, hsame, hclosed⟩ :=
      @exists_run?_group initial inner '{' '}' rfl rfl (fun _ => Or.inr rfl) (fun heq => by cases heq)
        hinner
    obtain ⟨after, hrun, hdepth, hquote⟩ := more.exists_run? hclosed (Or.inl rfl)
    refine ⟨after, ?_, hend (hdepth.trans hsame) hquote⟩
    rw [run?_append_of_run? hlead, append_cons, ← cons_append,
      run?_append_of_run? hmiddle, hrun]

/-- What may stand behind a type: nothing, a separator, a body or a value. -/
inductive Tail where
  | nothing
  | semicolon (rest : Text)
  | comma (rest : Text)
  | body (rest : Text)
  | value (rest : Text)

def Tail.text : Tail → Text
  | .nothing => []
  | .semicolon rest => ';' :: rest
  | .comma rest => ',' :: rest
  | .body rest => ' ' :: '{' :: rest
  | .value rest => ' ' :: '=' :: ' ' :: rest

theorem Tail.blank_of_mem_front (tail : Tail) {state : TypeReading} (hclosed : state.isClosed = true)
    (hstarted : state.started = true) : ∀ c ∈ state.front tail.text, isBlank c = true := by
  obtain ⟨depth, quote, arrow, started⟩ := state
  simp only [isClosed, Bool.and_eq_true, beq_iff_eq, isNone_iff_eq_none] at hclosed
  obtain ⟨⟨rfl, rfl⟩, rfl⟩ := And.intro hclosed hstarted
  cases tail <;> cases arrow <;> simp [text, front, step?, isQuote, TypeReading.pass, isBlank]

theorem WrittenType.read_append (type : WrittenType) (tail : Tail) :
    read (type.text ++ tail.text) = squeeze type.text := by
  obtain ⟨after, hrun, hclosed⟩ := type.shape.exists_run?
  have hstarted : after.started = true := by
    rw [started_of_run? hrun, type.solid]
    rfl
  have hblanks := tail.blank_of_mem_front hclosed hstarted
  have hnone : words (after.front tail.text) = [] :=
    words_eq_nil_iff.mpr (all_eq_true.mpr hblanks)
  have hhead : ∀ c ∈ (after.front tail.text).head?, isBlank c = true := fun c hc =>
    hblanks c (mem_of_mem_head? hc)
  rw [read_append_of_run? hrun, squeeze, words_append_of_head? hhead, hnone, append_nil]
  rfl

end SourceAtlas.TypeScript
