import SourceAtlas.TypeText
import SourceAtlas.Proofs.Text.Words

/-!
# Reading a type

A type behind a colon is read character by character. The state of the reading is the number of open
brackets, the open quote and what was seen last; a reading only stops at the end of the text or where
no bracket and no quote is open. Squeezing a type does not change how far its reading goes.
-/

namespace SourceAtlas

open List Option

/-- The state of a reading: the number of open brackets, the open quote, whether an `=` was seen last,
and whether some type was seen. -/
structure TypeReading where
  depth : Nat
  quote : Option { c : Char // isQuote c = true }
  arrow : Bool
  started : Bool

namespace TypeReading

def initial : TypeReading :=
  ⟨0, none, false, false⟩

def isClosed (state : TypeReading) : Bool :=
  state.depth == 0 && state.quote.isNone

def pass (state : TypeReading) (c : Char) (depth : Nat)
    (quote : Option { c : Char // isQuote c = true }) : TypeReading :=
  ⟨depth, quote, c == '=', state.started || !isBlank c⟩

/-- Reads one character, of which `next` is the one behind it, unless the type ends in front of it. -/
def step? (state : TypeReading) (c : Char) (next : Option Char) : Option TypeReading :=
  if h : state.quote.isSome then
    some (state.pass c state.depth (if c = (state.quote.get h).1 then none else state.quote))
  else if h : isQuote c = true then some (state.pass c state.depth (some ⟨c, h⟩))
  else if c = '<' || c = '(' || c = '[' then some (state.pass c (state.depth + 1) none)
  else if (c = '>' && !state.arrow) || c = ')' || c = ']' then
    if state.depth = 0 then none else some (state.pass c (state.depth - 1) none)
  else if c = '{' then
    if state.depth = 0 && state.started then none else some (state.pass c (state.depth + 1) none)
  else if c = '}' then
    if state.depth = 0 then none else some (state.pass c (state.depth - 1) none)
  else if state.depth = 0 && (c = ';' || c = ',') then none
  else if state.depth = 0 && c = '=' && next != some '>' then none
  else some (state.pass c state.depth none)

def front (state : TypeReading) : Text → Text
  | [] => []
  | c :: rest => ((state.step? c rest.head?).map fun after => c :: after.front rest).getD []

def run? (state : TypeReading) : Text → Option TypeReading
  | [] => some state
  | c :: rest => (state.step? c rest.head?).bind fun after => after.run? rest

/-- The type that is read from the start of a text on, its blanks squeezed. -/
def read (text : Text) : Text :=
  squeeze (initial.front text)

/-- Whether the reading goes on to the end of a text and a bracket or quote is open there. -/
def RunsOff (text : Text) : Prop :=
  ∃ after, initial.run? text = some after ∧ after.isClosed = false

variable {state after : TypeReading} {c : Char} {next : Option Char} {text rest : Text}

theorem typeFront_eq (state : TypeReading) (before : Option Char)
    (hbefore : state.arrow = (before == some '=')) (text : Text) :
    typeFront state.depth (state.quote.map (·.1)) before state.started text = state.front text := by
  induction text generalizing state before with
  | nil => rfl
  | cons c rest ih =>
    have hnext : ∀ depth (quote : Option { c : Char // isQuote c = true }),
        (state.pass c depth quote).front rest =
          typeFront depth (quote.map (·.1)) (some c) (state.started || !isBlank c) rest :=
      fun depth quote => (ih (state.pass c depth quote) (some c) (by simp [pass])).symm
    obtain ⟨depth, quote, arrow, started⟩ := state
    obtain rfl : arrow = (before == some '=') := hbefore
    rw [typeFront.eq_def]
    -- both sides branch on the same tests, and agree in each branch
    cases quote with
    | some quote =>
      simp only [front, step?, isSome_some, dite_true, get_some, map_some,
        getD_some, hnext, apply_ite (Option.map _), map_none]
    | none =>
      simp only [front, step?, isSome_none, Bool.false_eq_true, dite_false, bne,
        apply_ite (Option.map _), apply_dite (Option.map _), map_some, map_none,
        apply_ite (Option.getD · ([] : Text)), getD_some, getD_none, hnext, dite_eq_ite]

theorem readType_eq {start : Nat} (h : (text.take start).getLast? ≠ some '=') :
    readType text start = read (text.drop start) := by
  have hfront := initial.typeFront_eq (text.take start).getLast? (by simpa [initial] using h)
    (text.drop start)
  rw [readType, read, ← hfront]
  rfl

/-! ## One character -/

theorem isClosed_of_step?_eq_none (h : state.step? c next = none) : state.isClosed = true := by
  obtain ⟨depth, quote, arrow, started⟩ := state
  cases quote with
  | some quote => simp [step?] at h
  | none =>
    cases depth with
    | zero => rfl
    | succ depth =>
      simp only [step?, isSome_none, Bool.false_eq_true, dite_false, Nat.add_one_ne_zero,
        decide_false, Bool.false_and, if_false] at h
      split_ifs at h

/-- The character behind matters for a top-level `=` only. -/
theorem step?_congr (h : state.isClosed = true → c ≠ '=') (next next' : Option Char) :
    state.step? c next = state.step? c next' := by
  by_cases hquote : state.quote.isSome = true
  · simp only [step?, hquote, dite_true]
  · have hsign : (state.depth = 0 && c = '=') = false := by
      rw [Bool.eq_false_iff]
      intro hsign
      simp only [Bool.and_eq_true, decide_eq_true_eq] at hsign
      exact h (by simpa [isClosed, hsign.1] using hquote) hsign.2
    simp only [step?, hquote, hsign, Bool.false_and]

theorem step?_assign (h : state.isClosed = true) :
    state.step? '=' next = if next = some '>' then some ⟨0, none, true, true⟩ else none := by
  obtain ⟨depth, quote, arrow, started⟩ := state
  simp only [isClosed, Bool.and_eq_true, beq_iff_eq, isNone_iff_eq_none] at h
  obtain ⟨rfl, rfl⟩ := h
  by_cases hnext : next = some '>'
  · subst hnext
    cases arrow <;> cases started <;> rfl
  · have hbne : (next != some '>') = true := bne_iff_ne.mpr hnext
    simp [step?, isQuote, hbne, hnext]

theorem step?_of_ne (h : next ≠ some '>') : state.step? c next = state.step? c none := by
  by_cases hsign : state.isClosed = true ∧ c = '='
  · obtain ⟨hclosed, rfl⟩ := hsign
    rw [step?_assign hclosed, step?_assign hclosed, if_neg h, if_neg (by simp)]
  · exact step?_congr (fun hclosed heq => hsign ⟨hclosed, heq⟩) _ _

theorem step?_of_none (h : state.step? c none = some after) (next : Option Char) :
    state.step? c next = some after := by
  rw [← h]
  refine step?_congr (fun hclosed => ?_) _ _
  rintro rfl
  rw [step?_assign hclosed, if_neg (by simp)] at h
  cases h

theorem step?_append {text : Text} (h : state.step? c text.head? = some after) (rest : Text) :
    state.step? c (text ++ rest).head? = some after := by
  cases text with
  | nil => exact step?_of_none h _
  | cons d text => exact h

/-- Only the sign of an arrow is not read when nothing follows it. -/
theorem step?_none_or (h : state.step? c next = some after) :
    state.step? c none = some after ∨ next = some '>' ∧ after = ⟨0, none, true, true⟩ := by
  by_cases hsign : state.isClosed = true ∧ c = '='
  · obtain ⟨hclosed, rfl⟩ := hsign
    rw [step?_assign hclosed, ite_none_right_eq_some] at h
    exact Or.inr ⟨h.1, (some.inj h.2).symm⟩
  · rw [← h]
    exact Or.inl (step?_congr (fun hclosed heq => hsign ⟨hclosed, heq⟩) _ _)

theorem isBlank_eq_false_of_isQuote {d : Char} (h : isQuote d = true) : isBlank d = false := by
  simp only [isQuote, Bool.or_eq_true, beq_iff_eq] at h
  rcases h with (rfl | rfl) | rfl <;> decide

theorem step?_blank (h : isBlank c = true) :
    state.step? c next = some { state with arrow := false } := by
  have hne : ∀ {d : Char}, isBlank d = false → c ≠ d := fun hd => ne_of_kind h hd
  have hquote : isQuote c = false := by
    rw [Bool.eq_false_iff]
    intro hquote
    rw [isBlank_eq_false_of_isQuote hquote] at h
    cases h
  obtain ⟨depth, quote, arrow, started⟩ := state
  cases quote with
  | some quote =>
    simp [step?, pass, hne (isBlank_eq_false_of_isQuote quote.2), h, hne (d := '=') (by decide)]
  | none =>
    simp [step?, pass, hquote, h, hne (d := '<') (by decide), hne (d := '(') (by decide),
      hne (d := '[') (by decide), hne (d := '>') (by decide), hne (d := ')') (by decide),
      hne (d := ']') (by decide), hne (d := '{') (by decide), hne (d := '}') (by decide),
      hne (d := ';') (by decide), hne (d := ',') (by decide), hne (d := '=') (by decide)]

theorem step?_semicolon (h : state.isClosed = true) : state.step? ';' next = none := by
  obtain ⟨depth, quote, arrow, started⟩ := state
  simp only [isClosed, Bool.and_eq_true, beq_iff_eq, isNone_iff_eq_none] at h
  obtain ⟨rfl, rfl⟩ := h
  cases arrow <;> cases started <;> rfl

/-- A semicolon that is read stands between brackets or quotes, and closes none of them. -/
theorem isClosed_of_step?_semicolon (h : state.step? ';' next = some after) :
    after.isClosed = false := by
  obtain ⟨depth, quote, arrow, started⟩ := state
  cases quote with
  | some quote =>
    have hne : ';' ≠ quote.1 := fun heq => absurd (heq ▸ quote.2 : isQuote ';' = true) (by decide)
    simp only [step?, isSome_some, dite_true, get_some, if_neg hne,
      some.injEq] at h
    simp [← h, isClosed, pass]
  | none =>
    cases depth with
    | zero =>
      rw [step?_semicolon rfl] at h
      cases h
    | succ depth =>
      simp [step?, isQuote] at h
      simp [← h, isClosed, pass]

/-! ## Whole texts -/

/-- What a reading takes is read again as a whole. What it leaves starts where it is closed. -/
theorem exists_run?_front (state : TypeReading) (text : Text) :
    ∃ rest after, text = state.front text ++ rest ∧ state.run? (state.front text) = some after ∧
      (rest ≠ [] → after.isClosed = true) := by
  induction text generalizing state with
  | nil => exact ⟨[], state, rfl, rfl, by simp⟩
  | cons c text ih =>
    cases hstep : state.step? c text.head? with
    | none =>
      refine ⟨c :: text, state, ?_, ?_, fun _ => isClosed_of_step?_eq_none hstep⟩
      · simp [front, hstep]
      · simp [front, hstep, run?]
    | some next =>
      obtain ⟨rest, after, htext, hrun, hclosed⟩ := ih next
      have hfront : state.front (c :: text) = c :: next.front text := by simp [front, hstep]
      have hagain : state.step? c (next.front text).head? = some next := by
        cases hread : next.front text with
        | nil =>
          rcases step?_none_or hstep with hnone | ⟨hangle, rfl⟩
          · exact hnone
          · -- the bracket behind the sign of an arrow is read
            obtain ⟨tail, rfl⟩ := head?_eq_some_iff.mp hangle
            simp [front, step?, isQuote] at hread
        | cons d more => rw [htext, hread] at hstep; exact hstep
      refine ⟨rest, after, ?_, ?_, hclosed⟩
      · rw [hfront, cons_append, ← htext]
      · rw [hfront, run?, hagain, bind_some, hrun]

theorem front_append (h : state.run? text = some after) (rest : Text) :
    state.front (text ++ rest) = text ++ after.front rest := by
  induction text generalizing state with
  | nil =>
    obtain rfl := some.inj h
    rfl
  | cons c text ih =>
    obtain ⟨next, hstep, hrun⟩ := bind_eq_some_iff.mp h
    rw [cons_append, front, step?_append hstep, map_some, getD_some, ih hrun]
    rfl

theorem front_of_run? (h : state.run? text = some after) : state.front text = text := by
  have hfront := front_append h []
  rwa [append_nil, front, append_nil] at hfront

theorem run?_append (h : rest.head? ≠ some '>') (state : TypeReading) (text : Text) :
    state.run? (text ++ rest) = (state.run? text).bind (·.run? rest) := by
  induction text generalizing state with
  | nil => rfl
  | cons c text ih =>
    have hstep : state.step? c (text ++ rest).head? = state.step? c text.head? := by
      cases text with
      | nil => exact step?_of_ne h
      | cons d text => rfl
    rw [cons_append, run?, run?, hstep, bind_assoc]
    exact congrArg _ (funext fun next => ih next)

theorem run?_blank (h : isBlank c = true) :
    state.run? (c :: text) = ({ state with arrow := false } : TypeReading).run? text := by
  rw [run?, step?_blank h, bind_some]

/-- Squeezing a text that is read changes neither the open brackets nor the open quote. -/
theorem exists_run?_squeeze (harrow : state.arrow = false) (h : state.run? text = some after) :
    ∃ again, state.run? (squeeze text) = some again ∧ again.isClosed = after.isClosed := by
  -- one word at a time, each together with the blank behind it
  induction hlength : text.length using Nat.strong_induction_on generalizing state text with
  | h length ih =>
    cases text with
    | nil => exact ⟨after, h, rfl⟩
    | cons c rest =>
      subst hlength
      by_cases hblank : isBlank c = true
      · have hsqueeze : squeeze (c :: rest) = squeeze rest :=
          congrArg (joinWith [' ']) (words_cons_blank hblank rest)
        have hsame : ({ state with arrow := false } : TypeReading) = state := by rw [← harrow]
        rw [run?_blank hblank, hsame] at h
        rw [hsqueeze]
        exact ih rest.length (by simp) harrow h rfl
      · have hsolid : ∀ d ∈ [c], isBlank d = false := by simpa using hblank
        obtain ⟨front, tail, rfl, hwords, -, htail⟩ :=
          exists_words_append (cons_ne_nil c []) hsolid rest
        have hangle : tail.head? ≠ some '>' := fun hhead => absurd (htail '>' hhead) (by decide)
        rw [← cons_append, run?_append hangle] at h
        obtain ⟨middle, hword, hmore⟩ := bind_eq_some_iff.mp h
        rw [singleton_append, singleton_append] at hwords
        cases tail with
        | nil =>
          refine ⟨middle, ?_, congrArg isClosed (some.inj hmore)⟩
          rw [squeeze, hwords]
          exact hword
        | cons d tail =>
          rw [run?_blank (htail d rfl)] at hmore
          obtain ⟨again, hagain, hclosed⟩ := ih tail.length (by simp; omega) rfl hmore rfl
          rw [words_cons_blank (htail d rfl)] at hwords
          unfold squeeze at hagain ⊢
          rw [hwords]
          cases hlater : words tail with
          | nil =>
            rw [hlater] at hagain
            obtain rfl := some.inj hagain
            exact ⟨middle, hword, hclosed⟩
          | cons second others =>
            rw [hlater] at hagain
            refine ⟨again, ?_, hclosed⟩
            rw [joinWith, append_assoc, run?_append (by simp), hword, bind_some,
              singleton_append, run?_blank (by decide), hagain]
            simp

theorem exists_run?_blanks {blanks : Text} (h : ∀ c ∈ blanks, isBlank c = true)
    (state : TypeReading) :
    ∃ after, state.run? blanks = some after ∧ after.isClosed = state.isClosed := by
  induction blanks generalizing state with
  | nil => exact ⟨state, rfl, rfl⟩
  | cons c blanks ih =>
    rw [run?_blank (h c mem_cons_self)]
    exact ih (fun d hd => h d (mem_cons_of_mem c hd)) _

theorem isClosed_of_getLast?_semicolon (h : state.run? text = some after)
    (hlast : (trimRight text).getLast? = some ';') : after.isClosed = false := by
  obtain ⟨front, hfront⟩ := getLast?_eq_some_iff.mp hlast
  obtain ⟨blanks, htext, hblanks⟩ := exists_append_dropEndWhile isBlank text
  change text = trimRight text ++ blanks at htext
  have hangle : (';' :: blanks).head? ≠ some '>' := by simp
  rw [hfront, append_assoc, singleton_append] at htext
  rw [htext, run?_append hangle] at h
  obtain ⟨before, -, hbefore⟩ := bind_eq_some_iff.mp h
  obtain ⟨middle, hstep, hmiddle⟩ := bind_eq_some_iff.mp hbefore
  obtain ⟨last, hrun, hclosed⟩ := exists_run?_blanks hblanks middle
  obtain rfl : last = after := some.inj (hrun.symm.trans hmiddle)
  rw [hclosed, isClosed_of_step?_semicolon hstep]

/-! ## Reading again -/

theorem read_cons_blank (h : isBlank c = true) (text : Text) : read (c :: text) = read text := by
  rw [read, front, step?_blank h, map_some, getD_some, squeeze, words_cons_blank h]
  rfl

theorem read_trimLeft (text : Text) : read (trimLeft text) = read text := by
  induction text with
  | nil => rfl
  | cons c text ih =>
    by_cases hc : isBlank c = true
    · rw [trimLeft_cons_of_blank hc, ih, read_cons_blank hc]
    · rw [trimLeft_cons_of_not_blank (by simpa using hc)]

theorem exists_run?_read (text : Text) :
    ∃ state, initial.run? (read text) = some state ∧ (state.isClosed = false ↔ RunsOff text) := by
  obtain ⟨rest, after, htext, hrun, hclosed⟩ := exists_run?_front initial text
  obtain ⟨state, hagain, hsame⟩ := exists_run?_squeeze rfl hrun
  refine ⟨state, hagain, ?_⟩
  rw [hsame]
  constructor
  · intro hopen
    have hrest : rest = [] := by
      by_contra hne
      rw [hclosed hne] at hopen
      cases hopen
    rw [hrest, append_nil] at htext
    rw [← htext] at hrun
    exact ⟨after, hrun, hopen⟩
  · rintro ⟨last, hlast, hopen⟩
    rw [front_of_run? hlast, hlast, some.injEq] at hrun
    rwa [← hrun]

theorem read_append_of_run? (h : initial.run? text = some after) (rest : Text) :
    read (text ++ rest) = squeeze (text ++ after.front rest) := by
  rw [read, front_append h]

theorem read_read (text : Text) : read (read text) = read text := by
  obtain ⟨state, hrun, -⟩ := exists_run?_read text
  calc
    read (read text) = squeeze (read text) := congrArg squeeze (front_of_run? hrun)
    _ = read text := squeeze_squeeze _

theorem read_read_append_semicolon (h : ¬ RunsOff text) : read (read text ++ [';']) = read text := by
  obtain ⟨state, hrun, hopen⟩ := exists_run?_read text
  have hclosed : state.isClosed = true := by
    rw [← Bool.not_eq_false]
    exact fun hfalse => h (hopen.mp hfalse)
  rw [read_append_of_run? hrun, front, step?_semicolon hclosed, map_none, getD_none,
    append_nil, read, squeeze_squeeze]

theorem filter_read_append_semicolon (h : RunsOff text) :
    (read (read text ++ [';'])).filter (!isBlank ·) = (read text).filter (!isBlank ·) ++ [';'] := by
  obtain ⟨state, hrun, hopen⟩ := exists_run?_read text
  have hfront : state.front [';'] = [';'] := by
    cases hstep : state.step? ';' none with
    | none =>
      rw [isClosed_of_step?_eq_none hstep] at hopen
      exact absurd (hopen.mpr h) (by simp)
    | some after => simp [front, hstep]
  rw [read_append_of_run? hrun, hfront, filter_squeeze, filter_append]
  rfl

theorem read_ne_nil (h : RunsOff text) : read text ≠ [] := by
  obtain ⟨state, hrun, hopen⟩ := exists_run?_read text
  intro hnil
  rw [hnil] at hrun
  obtain rfl := some.inj hrun
  exact absurd (hopen.mpr h) (by decide)

theorem runsOff_of_getLast?_read (h : (trimRight (read text)).getLast? = some ';') :
    RunsOff text ∧ (trimRight text).getLast? = some ';' := by
  obtain ⟨state, hrun, hopen⟩ := exists_run?_read text
  have hoff : RunsOff text := hopen.mp (isClosed_of_getLast?_semicolon hrun h)
  refine ⟨hoff, ?_⟩
  obtain ⟨after, hafter, -⟩ := hoff
  rw [getLast?_trimRight, read, filter_squeeze, front_of_run? hafter] at h
  rwa [getLast?_trimRight]

end TypeReading

end SourceAtlas
