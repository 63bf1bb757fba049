import SourceAtlas.Proofs.Member.Scan

/-!
# The member scan as a run of steps

A step looks at the first line below, gives at most one member and moves on behind the lines it has
used. The lines of a body stay the same along a run: only the place that parts those read from those
still to be read moves.
-/

namespace SourceAtlas

open List

variable {state : ScanState} {steps : Nat}

/-- Whether a scan passes over a line without looking at its braces. -/
def Dialect.passesOver (dialect : Dialect) (raw : Text) : Bool :=
  (codeOf raw).isEmpty || dialect.isComment (codeOf raw)

def Dialect.lineDepth (dialect : Dialect) (depth : Nat) (raw : Text) : Nat :=
  if dialect.passesOver raw then depth else depthAfter depth (codeOf raw)

/-- What a scan for members is made with. -/
structure MemberScan where
  dialect : Dialect
  typeName : Text
  interfaceLike : Bool

/-- A place of a scan: the depth, the lines above, nearest first, and the lines below. -/
structure ScanState where
  depth : Nat
  above : List Text
  below : List Text

namespace MemberScan

variable (scan : MemberScan)

def header? : ScanState → Option HeaderLine
  | ⟨_, _, []⟩ => none
  | ⟨depth, _, raw :: rest⟩ =>
    if scan.dialect.passesOver raw || depth ≠ 0 then none
    else headerLine? scan.dialect scan.interfaceLike (codeOf raw) rest

/-- How many lines behind the first one below the header uses. -/
def used (state : ScanState) : Nat :=
  (scan.header? state).elim 0 HeaderLine.used

def next (state : ScanState) : ScanState :=
  match state with
  | ⟨_, _, []⟩ => state
  | ⟨depth, above, raw :: rest⟩ =>
    let used := rest.take (scan.used state)
    ⟨used.foldl (fun depth raw => depthAfter depth (codeOf raw)) (scan.dialect.lineDepth depth raw),
      used.reverse ++ raw :: above, rest.drop (scan.used state)⟩

/-- The member of the header that the first line below opens. -/
def member? (state : ScanState) : Option Member :=
  (scan.header? state).bind fun header =>
    lineMember? scan.dialect scan.typeName scan.interfaceLike header state.above
      (state.below.drop (header.used + 1))

def members (state : ScanState) : List Member :=
  membersFrom scan.dialect scan.typeName scan.interfaceLike state.depth state.above state.below

def run : Nat → ScanState → List ScanState
  | 0, _ => []
  | steps + 1, state => state :: run steps (scan.next state)

/-- The place where no line is left. Every step reads at least one line. -/
def finish (state : ScanState) : ScanState :=
  scan.next^[state.below.length] state

/-! ## One step -/

section

variable {scan} {depth : Nat} {above : List Text} {raw : Text} {rest : List Text}

theorem next_of_header?_eq_none (h : scan.header? ⟨depth, above, raw :: rest⟩ = none) :
    scan.next ⟨depth, above, raw :: rest⟩ =
      ⟨scan.dialect.lineDepth depth raw, raw :: above, rest⟩ := by
  simp [next, used, h]

theorem header?_of_passesOver (h : scan.dialect.passesOver raw = true) :
    scan.header? ⟨depth, above, raw :: rest⟩ = none := by
  simp [header?, h]

theorem header?_of_depth_ne_zero (h : depth ≠ 0) :
    scan.header? ⟨depth, above, raw :: rest⟩ = none := by
  simp [header?, h]

theorem header?_of_candidate (h : scan.dialect.passesOver raw = false) :
    scan.header? ⟨0, above, raw :: rest⟩ =
      headerLine? scan.dialect scan.interfaceLike (codeOf raw) rest := by
  simp [header?, h]

end

/-- A scan gives the member of the first step and goes on with the members of the next one. -/
theorem members_step (state : ScanState) :
    scan.members state = (scan.member? state).toList ++ scan.members (scan.next state) := by
  obtain ⟨depth, above, below⟩ := state
  cases below with
  | nil => simp [members, membersFrom_nil, member?, header?, next]
  | cons raw rest =>
    unfold members
    by_cases hpass : scan.dialect.passesOver raw = true
    · have hheader : scan.header? ⟨depth, above, raw :: rest⟩ = none :=
        header?_of_passesOver hpass
      rw [next_of_header?_eq_none hheader, member?, hheader, Dialect.lineDepth, if_pos hpass,
        membersFrom]
      have hline : (codeOf raw).isEmpty || scan.dialect.isComment (codeOf raw) := hpass
      simp only [hline, if_true]
      rfl
    · have hline : ((codeOf raw).isEmpty || scan.dialect.isComment (codeOf raw)) = false := by
        simpa [Dialect.passesOver] using hpass
      have hdepth : scan.dialect.lineDepth depth raw = depthAfter depth (codeOf raw) := by
        rw [Dialect.lineDepth, if_neg hpass]
      rw [membersFrom]
      simp only [hline, Bool.false_eq_true, if_false]
      by_cases hzero : depth = 0
      · subst hzero
        have hheader : scan.header? ⟨0, above, raw :: rest⟩ =
            headerLine? scan.dialect scan.interfaceLike (codeOf raw) rest :=
          header?_of_candidate hline
        cases hfound : headerLine? scan.dialect scan.interfaceLike (codeOf raw) rest with
        | none =>
          rw [hfound] at hheader
          simp [next_of_header?_eq_none hheader, member?, hheader, hdepth]
        | some header =>
          rw [hfound] at hheader
          simp [next, used, member?, hheader, hdepth]
      · have hheader : scan.header? ⟨depth, above, raw :: rest⟩ = none :=
          header?_of_depth_ne_zero hzero
        simp [next_of_header?_eq_none hheader, member?, hheader, hdepth, hzero]

theorem length_next_lt (h : state.below ≠ []) :
    (scan.next state).below.length < state.below.length := by
  obtain ⟨depth, above, below⟩ := state
  obtain ⟨raw, rest, rfl⟩ := exists_cons_of_ne_nil h
  simp only [next, length_drop, length_cons]
  omega

theorem above_append_below_next (state : ScanState) :
    (scan.next state).above.reverse ++ (scan.next state).below =
      state.above.reverse ++ state.below := by
  obtain ⟨depth, above, below⟩ := state
  cases below with
  | nil => rfl
  | cons raw rest => simp [next]

theorem below_next_suffix (state : ScanState) : (scan.next state).below <:+ state.below := by
  obtain ⟨depth, above, below⟩ := state
  cases below with
  | nil => exact suffix_rfl
  | cons raw rest => exact (drop_suffix _ _).trans (suffix_cons _ _)

/-! ## A run -/

theorem members_eq_run (h : state.below.length ≤ steps) :
    scan.members state = (scan.run steps state).filterMap scan.member? := by
  induction steps generalizing state with
  | zero =>
    have hnil : state.below = [] := eq_nil_of_length_eq_zero (Nat.le_zero.mp h)
    rw [members, hnil, membersFrom_nil, run, filterMap_nil]
  | succ steps ih =>
    rw [members_step, run, filterMap_cons]
    have hnext : scan.members (scan.next state) =
        (scan.run steps (scan.next state)).filterMap scan.member? := by
      apply ih
      by_cases hbelow : state.below = []
      · obtain ⟨depth, above, below⟩ := state
        subst hbelow
        exact Nat.zero_le steps
      · have hlt := scan.length_next_lt hbelow
        omega
    cases hmember : scan.member? state with
    | none => simpa [hmember] using hnext
    | some member => simp [hnext]

theorem above_append_below_of_mem_run {start : ScanState} (h : state ∈ scan.run steps start) :
    state.above.reverse ++ state.below = start.above.reverse ++ start.below := by
  induction steps generalizing start with
  | zero => cases h
  | succ steps ih =>
    rcases mem_cons.mp h with rfl | h
    · rfl
    · rw [ih h, above_append_below_next]

theorem iterate_next_eq {first second : Nat} (hfirst : state.below.length ≤ first)
    (hsecond : state.below.length ≤ second) :
    scan.next^[first] state = scan.next^[second] state := by
  induction first generalizing second state with
  | zero =>
    obtain ⟨depth, above, below⟩ := state
    obtain rfl : below = [] := eq_nil_of_length_eq_zero (Nat.le_zero.mp hfirst)
    exact (Function.iterate_fixed rfl second).symm
  | succ first ih =>
    by_cases hbelow : state.below = []
    · obtain ⟨depth, above, below⟩ := state
      subst hbelow
      rw [Function.iterate_fixed rfl, Function.iterate_fixed rfl]
    · have hlt := scan.length_next_lt hbelow
      obtain ⟨second, rfl⟩ : ∃ count, second = count + 1 := ⟨second - 1, by omega⟩
      rw [Function.iterate_succ_apply, Function.iterate_succ_apply]
      apply ih
      · omega
      · omega

theorem finish_next (state : ScanState) : scan.finish (scan.next state) = scan.finish state := by
  have hle : (scan.next state).below.length ≤ state.below.length := by
    by_cases hbelow : state.below = []
    · obtain ⟨depth, above, below⟩ := state
      subst hbelow
      exact le_rfl
    · exact (scan.length_next_lt hbelow).le
  calc
    scan.finish (scan.next state) = scan.next^[state.below.length] (scan.next state) :=
      scan.iterate_next_eq le_rfl hle
    _ = scan.next^[state.below.length + 1] state := (Function.iterate_succ_apply ..).symm
    _ = scan.finish state := scan.iterate_next_eq (Nat.le_succ _) le_rfl

theorem finish_of_below_eq_nil (h : state.below = []) : scan.finish state = state := by
  simp [finish, h]

theorem below_finish (state : ScanState) : (scan.finish state).below = [] := by
  induction hlength : state.below.length using Nat.strong_induction_on generalizing state with
  | _ length ih =>
    subst hlength
    by_cases hbelow : state.below = []
    · rw [finish_of_below_eq_nil scan hbelow, hbelow]
    · rw [← finish_next]
      exact ih _ (scan.length_next_lt hbelow) _ rfl

end MemberScan

end SourceAtlas
