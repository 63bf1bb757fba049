import SourceAtlas.Header.CSharp
import SourceAtlas.Proofs.Text.Basic

/-!
# Splitting off a value

A signature is split at its first top-level `=` or `=>`. What is split off does not matter for the
split: a text that is cut behind the operator comes apart at the same place, and one that is cut in
front of it stays whole.
-/

namespace SourceAtlas.CSharp

open List

variable {text : Text}

def pushSplit (c : Char) (split : Text × Terminator) : Text × Terminator :=
  (c :: split.1, split.2)

/-- Whether a `=` behind this character belongs to a comparison. -/
def comparesWith (before : Option Char) : Bool :=
  before == some '!' || before == some '<' || before == some '>'

section

variable (depth : Nat) (quote before : Option Char)

/-- A character is passed, protects the next one in quotes, or is a top-level `=`. -/
theorem assignmentFrom_step (c : Char) :
    (∃ inner open?, ∀ rest, assignmentFrom depth quote before (c :: rest) =
      pushSplit c (assignmentFrom inner open? (some c) rest)) ∨
    (assignmentFrom depth quote before [c] = ([c], .none) ∧
      ∀ d rest, assignmentFrom depth quote before (c :: d :: rest) =
        pushSplit c (pushSplit d (assignmentFrom depth quote (some d) rest))) ∨
    (c = '=' ∧ quote = none ∧ depth = 0) := by
  cases quote with
  | some q =>
    by_cases hescape : c = '\\'
    · subst hescape
      exact Or.inr (Or.inl ⟨rfl, fun d rest => rfl⟩)
    · refine Or.inl ⟨depth, if c = q then none else some q, fun rest => ?_⟩
      rw [assignmentFrom.eq_def]
      simp only [hescape, if_false]
      split <;> rfl
  | none =>
    by_cases hassign : (c = '=' && depth = 0) = true
    · simp only [Bool.and_eq_true, decide_eq_true_eq] at hassign
      exact Or.inr (Or.inr ⟨hassign.1, rfl, hassign.2⟩)
    · left
      by_cases hquote : (c = '\x22' || c = '\x27') = true
      · refine ⟨depth, some c, fun rest => ?_⟩
        rw [assignmentFrom.eq_def]
        simp only [hquote, if_true]
        rfl
      by_cases hopen : (c = '(' || c = '[' || c = '{') = true
      · refine ⟨depth + 1, none, fun rest => ?_⟩
        rw [assignmentFrom.eq_def]
        simp only [hquote, hopen, Bool.false_eq_true, if_false, if_true]
        rfl
      by_cases hclose : (c = ')' || c = ']' || c = '}') = true
      · refine ⟨depth - 1, none, fun rest => ?_⟩
        rw [assignmentFrom.eq_def]
        simp only [hquote, hopen, hclose, Bool.false_eq_true, if_false, if_true]
        rfl
      · refine ⟨depth, none, fun rest => ?_⟩
        rw [assignmentFrom.eq_def]
        simp only [hquote, hopen, hclose, hassign, Bool.false_eq_true, if_false]
        rfl

end

theorem assignmentFrom_arrow (before : Option Char) (rest : Text) :
    assignmentFrom 0 none before ('=' :: '>' :: rest) = ([], .arrow) :=
  rfl

theorem assignmentFrom_equals (before : Option Char) (rest : Text) :
    assignmentFrom 0 none before ('=' :: '=' :: rest) =
      pushSplit '=' (pushSplit '=' (assignmentFrom 0 none (some '=') rest)) :=
  rfl

theorem assignmentFrom_assign (before : Option Char) {rest : Text} (harrow : rest.head? ≠ some '>')
    (hequals : rest.head? ≠ some '=') :
    assignmentFrom 0 none before ('=' :: rest) =
      if comparesWith before then pushSplit '=' (assignmentFrom 0 none (some '=') rest)
      else ([], .assign) := by
  cases rest with
  | nil => rfl
  | cons d rest =>
    have harrow : d ≠ '>' := by simpa using harrow
    have hequals : d ≠ '=' := by simpa using hequals
    simp [assignmentFrom, harrow, hequals, comparesWith, pushSplit]

/-- Whether a text comes apart as given: it stays whole, or the operator follows the first part. -/
def IsSplit (text : Text) (split : Text × Terminator) : Prop :=
  split = (text, .none) ∨
    ∃ tail, text = split.1 ++ '=' :: tail ∧ terminatorAt? ('=' :: tail) = some split.2

theorem IsSplit.push {split : Text × Terminator} (h : IsSplit text split) (c : Char) :
    IsSplit (c :: text) (pushSplit c split) := by
  rcases h with rfl | ⟨tail, rfl, hoperator⟩
  · exact Or.inl rfl
  · exact Or.inr ⟨tail, rfl, hoperator⟩

theorem isSplit_assignmentFrom (depth : Nat) (quote before : Option Char) (text : Text) :
    IsSplit text (assignmentFrom depth quote before text) := by
  induction hlength : text.length using Nat.strong_induction_on
    generalizing depth quote before text with
  | _ length ih =>
    subst hlength
    cases text with
    | nil => exact Or.inl rfl
    | cons c rest =>
      rcases assignmentFrom_step depth quote before c with
        ⟨inner, open?, hpass⟩ | ⟨hlone, hpair⟩ | ⟨rfl, rfl, rfl⟩
      · rw [hpass]
        exact (ih _ (Nat.lt_succ_self _) inner open? (some c) rest rfl).push c
      · cases rest with
        | nil => exact Or.inl hlone
        | cons d rest =>
          rw [hpair]
          exact ((ih rest.length (by grind) depth quote (some d) rest rfl).push d).push c
      · by_cases harrow : rest.head? = some '>'
        · obtain ⟨tail, rfl⟩ := head?_eq_some_iff.mp harrow
          exact Or.inr ⟨'>' :: tail, rfl, rfl⟩
        by_cases hequals : rest.head? = some '='
        · obtain ⟨tail, rfl⟩ := head?_eq_some_iff.mp hequals
          rw [assignmentFrom_equals]
          exact ((ih tail.length (by grind) 0 none (some '=') tail rfl).push '=').push '='
        rw [assignmentFrom_assign before harrow hequals]
        split
        · exact (ih _ (Nat.lt_succ_self _) 0 none (some '=') rest rfl).push '='
        · refine Or.inr ⟨rest, rfl, ?_⟩
          cases rest with
          | nil => rfl
          | cons d rest =>
            have hd : d ≠ '>' := by simpa using harrow
            simp [terminatorAt?, hd]

/-- Whether `first` is the split of a text that `second` is the split of a longer text with: the text
stays whole and is part of what stays of the longer one, or both come apart at the same place. -/
def IsCutSplit (text : Text) (first second : Text × Terminator) : Prop :=
  (first = (text, .none) ∧ text <+: second.1) ∨ (first = second ∧ first.2 ≠ .none)

theorem IsCutSplit.push {first second : Text × Terminator}
    (h : IsCutSplit text first second) (c : Char) :
    IsCutSplit (c :: text) (pushSplit c first) (pushSplit c second) := by
  rcases h with ⟨rfl, hprefix⟩ | ⟨rfl, hne⟩
  · exact Or.inl ⟨rfl, cons_prefix_cons.mpr ⟨rfl, hprefix⟩⟩
  · exact Or.inr ⟨rfl, hne⟩

theorem isCutSplit_assignmentFrom (depth : Nat) (quote before : Option Char)
    (hlast : text.getLast? ≠ some '=') (more : Text) :
    IsCutSplit text (assignmentFrom depth quote before text)
      (assignmentFrom depth quote before (text ++ more)) := by
  induction hlength : text.length using Nat.strong_induction_on
    generalizing depth quote before text with
  | _ length ih =>
    subst hlength
    have hrest : ∀ {c : Char} {rest : Text}, (c :: rest).getLast? ≠ some '=' →
        rest.getLast? ≠ some '=' := by
      intro c rest hne heq
      rw [getLast?_cons, heq] at hne
      exact hne rfl
    cases text with
    | nil => exact Or.inl ⟨rfl, nil_prefix⟩
    | cons c rest =>
      rw [cons_append]
      rcases assignmentFrom_step depth quote before c with
        ⟨inner, open?, hpass⟩ | ⟨hlone, hpair⟩ | ⟨rfl, rfl, rfl⟩
      · rw [hpass, hpass]
        exact (ih _ (Nat.lt_succ_self _) inner open? (some c) (hrest hlast) rfl).push c
      · cases rest with
        | nil =>
          refine Or.inl ⟨hlone, ?_⟩
          cases more with
          | nil => simp [hlone]
          | cons d more => simp [hpair, pushSplit]
        | cons d rest =>
          rw [cons_append, hpair, hpair]
          exact ((ih rest.length (by grind) depth quote (some d)
            (hrest (hrest hlast)) rfl).push d).push c
      · obtain ⟨d, rest, rfl⟩ : ∃ d tail, rest = d :: tail := by
          cases rest with
          | nil => exact absurd rfl hlast
          | cons d rest => exact ⟨d, rest, rfl⟩
        by_cases harrow : d = '>'
        · subst harrow
          exact Or.inr ⟨rfl, by simp [assignmentFrom_arrow]⟩
        by_cases hequals : d = '='
        · subst hequals
          rw [cons_append, assignmentFrom_equals, assignmentFrom_equals]
          exact ((ih rest.length (by grind) 0 none (some '=')
            (hrest (hrest hlast)) rfl).push '=').push '='
        rw [assignmentFrom_assign before (by simpa using harrow) (by simpa using hequals),
          assignmentFrom_assign before (by simpa using harrow) (by simpa using hequals)]
        split
        · exact (ih _ (Nat.lt_succ_self _) 0 none (some '=') (hrest hlast) rfl).push '='
        · exact Or.inr ⟨rfl, by simp⟩

end SourceAtlas.CSharp
