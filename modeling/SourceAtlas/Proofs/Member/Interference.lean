import SourceAtlas.Proofs.CSharp.SpecialName
import SourceAtlas.Proofs.Marker
import SourceAtlas.Proofs.Member.Run
import SourceAtlas.Proofs.Text.Lines

/-!
# Bodies of members

The lines between the braces of a member's body have no influence on the members that are found, and
neither have they on the members of the lines around them. The scan reads ahead of a header only for
its parameter list and for the block of a property, and looks back from one only for its markers.
-/

namespace SourceAtlas

open List Option

variable {start limit : Nat} {text raw : Text} {rows front : List Text} {header : HeaderLine}
  {dialect : Dialect}

/-! ## Reading ahead for a parameter list -/

def joinLine (text raw : Text) : Text :=
  if (codeOf raw).isEmpty then text else text ++ ' ' :: codeOf raw

theorem continueHeader?_cons (hopen : findParen text start = none) (limit : Nat) (raw : Text)
    (rows : List Text) :
    continueHeader? start (limit + 1) text (raw :: rows) =
      if (findParen (joinLine text raw) start).isSome then some (joinLine text raw, 1)
      else (continueHeader? start limit (joinLine text raw) rows).map fun found =>
        (found.1, found.2 + 1) := by
  rw [continueHeader?, joinLine]
  by_cases hempty : (codeOf raw).isEmpty = true
  · simp [hempty, hopen]
  · simp [hempty]

/-- A parameter list that closes within some lines is read the same whatever lines follow. -/
theorem continueHeader?_append (hopen : findParen text start = none) (hfront : front <+: rows)
    (hclose : (findParen (front.foldl joinLine text) start).isSome = true) (more : List Text) :
    continueHeader? start limit text (rows ++ more) = continueHeader? start limit text rows := by
  induction rows generalizing limit text front with
  | nil =>
    obtain rfl := prefix_nil.mp hfront
    simp [hopen] at hclose
  | cons raw rows ih =>
    cases limit with
    | zero => rfl
    | succ limit =>
      cases front with
      | nil => simp [hopen] at hclose
      | cons first front =>
        obtain ⟨rfl, hrows⟩ := cons_prefix_cons.mp hfront
        rw [cons_append, continueHeader?_cons hopen, continueHeader?_cons hopen]
        by_cases hjoined : (findParen (joinLine text first) start).isSome = true
        · rw [if_pos hjoined, if_pos hjoined]
        · rw [if_neg hjoined, if_neg hjoined, ih (by simpa using hjoined) hrows hclose]

theorem continueHeader?_eq_some {used : Nat} {joined : Text} (hopen : findParen text start = none)
    (h : continueHeader? start limit text rows = some (joined, used)) :
    ∃ front raw back, rows = front ++ raw :: back ∧ used = front.length + 1 ∧
      codeOf raw ≠ [] ∧ codeOf raw <:+ joined := by
  induction rows generalizing limit text used with
  | nil => cases limit <;> cases h
  | cons raw rows ih =>
    cases limit with
    | zero => cases h
    | succ limit =>
      rw [continueHeader?_cons hopen] at h
      by_cases hjoined : (findParen (joinLine text raw) start).isSome = true
      · rw [if_pos hjoined] at h
        obtain ⟨rfl, rfl⟩ := Prod.mk.inj (some.inj h)
        have hne : codeOf raw ≠ [] := by
          intro hnil
          simp [joinLine, hnil, hopen] at hjoined
        refine ⟨[], raw, rows, rfl, rfl, hne, ?_⟩
        rw [joinLine, if_neg (by simpa using hne)]
        exact ⟨text ++ [' '], by simp⟩
      · rw [if_neg hjoined] at h
        obtain ⟨⟨joined', used'⟩, hfound, heq⟩ := map_eq_some_iff.mp h
        obtain ⟨rfl, rfl⟩ := Prod.mk.inj heq
        obtain ⟨front, last, back, rfl, rfl, hne, hsuffix⟩ := ih (by simpa using hjoined) hfound
        exact ⟨raw :: front, last, back, rfl, rfl, hne, hsuffix⟩

/-- The header text of a line that leaves its parameter list open, and where that list opens. -/
def openParameters? (dialect : Dialect) (interfaceLike : Bool) (line : Text) :
    Option (Text × Nat) :=
  let rest := (dialect.peel line).2
  if rest.isEmpty || !dialect.isMemberCandidate rest interfaceLike ||
      (dialect.typeHeaderAt? none rest).isSome then none
  else do
    let header ← dialect.tokenize rest
    let start ← header.openParen
    if (findParen rest start).isSome then none else some (rest, start)

section

variable {dialect : Dialect} {interfaceLike : Bool} {line : Text}

theorem headerLine?_of_openParameters?_eq_none
    (h : openParameters? dialect interfaceLike line = none) (below : List Text) :
    headerLine? dialect interfaceLike line below = headerLine? dialect interfaceLike line [] ∧
      ∀ header ∈ headerLine? dialect interfaceLike line [],
        header.used = 0 ∧ header.text = (dialect.peel line).2 ∧ header.text ≠ [] := by
  unfold openParameters? at h
  unfold headerLine?
  generalize (dialect.peel line) = peeled at h ⊢
  obtain ⟨inline, rest⟩ := peeled
  simp only at h ⊢
  split at h
  · next hskip => simp [hskip]
  · next hskip =>
    have hne : rest ≠ [] := by
      rintro rfl
      simp at hskip
    simp only [hskip, Bool.false_eq_true, if_false]
    cases htokens : dialect.tokenize rest with
    | none => simp
    | some header =>
      cases hparen : header.openParen with
      | none => simp [hparen, hne]
      | some start =>
        by_cases hclose : (findParen rest start).isSome = true
        · simp [hparen, hclose, hne]
        · simp [htokens, hparen, hclose] at h

theorem headerLine?_of_openParameters?
    (h : openParameters? dialect interfaceLike line = some (text, start)) :
    findParen text start = none ∧ ∀ below, headerLine? dialect interfaceLike line below =
      (continueHeader? start maxContinuation text below).map fun found =>
        ⟨found.1, (dialect.peel line).1, found.2⟩ := by
  unfold openParameters? at h
  unfold headerLine?
  generalize (dialect.peel line) = peeled at h ⊢
  obtain ⟨inline, rest⟩ := peeled
  simp only at h ⊢
  split at h
  · cases h
  · next hskip =>
    simp only [hskip, Bool.false_eq_true, if_false]
    simp only [bind, bind_eq_some_iff] at h ⊢
    obtain ⟨header, hheader, start', hstart, h⟩ := h
    split at h
    · cases h
    · next hclose =>
      obtain ⟨rfl, rfl⟩ := Prod.mk.inj (some.inj h)
      simp [hheader, hstart, not_isSome_iff_eq_none.mp hclose]

theorem getLast?_of_headerLine? {below : List Text}
    (h : headerLine? dialect interfaceLike line below = some header) :
    header.used ≤ below.length ∧ ∀ c,
      (header.used = 0 → line.getLast? = some c) →
      (∀ raw ∈ (below.take header.used).getLast?, (codeOf raw).getLast? = some c) →
      header.text.getLast? = some c := by
  cases hopen : openParameters? dialect interfaceLike line with
  | none =>
    obtain ⟨hbelow, hheader⟩ := headerLine?_of_openParameters?_eq_none hopen below
    rw [hbelow] at h
    obtain ⟨hused, htext, hne⟩ := hheader header h
    refine ⟨by omega, fun c hline _ => ?_⟩
    have hsuffix : header.text <:+ line := htext ▸ dialect.peel_suffix line
    rw [← hline hused]
    exact getLast?_of_suffix hsuffix hne
  | some found =>
    obtain ⟨hparen, hheader⟩ := headerLine?_of_openParameters? hopen
    rw [hheader below] at h
    obtain ⟨⟨joined, used⟩, hcontinued, rfl⟩ := map_eq_some_iff.mp h
    obtain ⟨front, raw, back, rfl, rfl, hne, hsuffix⟩ :=
      continueHeader?_eq_some hparen hcontinued
    refine ⟨by simp, fun c _ hlast => ?_⟩
    have htake : (front ++ raw :: back).take (front.length + 1) = front ++ [raw] := by
      rw [take_length_add_append, take_succ_cons, take_zero]
    rw [htake] at hlast
    rw [← hlast raw (by simp)]
    exact (getLast?_of_suffix hsuffix hne).symm

end

/-! ## Looking ahead for a block -/

theorem buildMember?_of_getLast? (hlast : text.getLast? = some '{')
    (markers : List Marker) (interfaceLike first second : Bool) :
    buildMember? dialect text markers interfaceLike first =
      buildMember? dialect text markers interfaceLike second := by
  cases htokens : dialect.tokenize text with
  | none => simp [buildMember?, htokens]
  | some header =>
    have hkind : dialect.memberKind header markers (first && header.terminator = .none) =
        dialect.memberKind header markers (second && header.terminator = .none) := by
      cases dialect with
      | typescript => rfl
      | csharp =>
        have hne : header.terminator ≠ .none := by
          intro hnone
          obtain ⟨c, hc, hchar⟩ :=
            CSharp.isTypeArgumentChar_of_terminator_eq_none htokens hnone
          rw [hlast] at hc
          exact absurd (some.inj hc ▸ hchar) (by decide)
        simp [hne]
    simp only [buildMember?, htokens, bind_eq_bind, bind_some, hkind]

theorem opensBlock_append (h : ∃ raw ∈ rows, trim raw ≠ []) (more : List Text) :
    opensBlock (rows ++ more) = opensBlock rows := by
  obtain ⟨raw, hmem, hne⟩ := h
  have hfound : ((rows.map trim).find? (!·.isEmpty)).isSome = true := by
    rw [find?_isSome]
    exact ⟨trim raw, mem_map_of_mem hmem, by simpa using hne⟩
  obtain ⟨line, hline⟩ := isSome_iff_exists.mp hfound
  unfold opensBlock
  rw [map_append, find?_append, hline]
  rfl

theorem trim_ne_nil_of_getLast? {c : Char} (h : (codeOf raw).getLast? = some c) :
    trim raw ≠ [] := by
  intro hnil
  rw [codeOf, hnil] at h
  cases h

/-- When the last line opens a block, a member does not depend on the lines behind it: either the
header ends with that line, or a line below the header tells already whether a block follows. -/
theorem lineMember?_append {interfaceLike : Bool} {rest : List Text}
    (hheader : headerLine? dialect interfaceLike (codeOf raw) rest = some header)
    (hlast : ∃ last ∈ (raw :: rest).getLast?, (codeOf last).getLast? = some '{') (typeName : Text)
    (above rows : List Text) :
    lineMember? dialect typeName interfaceLike header above (rest.drop header.used ++ rows) =
      lineMember? dialect typeName interfaceLike header above (rest.drop header.used) := by
  obtain ⟨last, hmem, hbrace⟩ := hlast
  obtain ⟨hused, htext⟩ := getLast?_of_headerLine? hheader
  unfold lineMember?
  by_cases hrest : rest.drop header.used = []
  · have hall : rest.length ≤ header.used := drop_eq_nil_iff.mp hrest
    have hend : header.text.getLast? = some '{' := by
      apply htext
      · intro hzero
        have hnil : rest = [] := eq_nil_of_length_eq_zero (by omega)
        subst hnil
        obtain rfl : raw = last := by simpa using hmem
        exact hbrace
      · intro other hother
        rw [take_of_length_le hall] at hother
        have hsame : other = last := by
          rw [getLast?_cons, hother] at hmem
          simpa using hmem
        rw [hsame, hbrace]
    rw [buildMember?_of_getLast? hend]
  · rw [opensBlock_append]
    refine ⟨last, ?_, trim_ne_nil_of_getLast? hbrace⟩
    have hsuffix : rest.drop header.used <:+ raw :: rest :=
      (drop_suffix _ _).trans (suffix_cons _ _)
    obtain ⟨front, hfront⟩ := hsuffix
    rw [← hfront, getLast?_append_of_ne_nil _ hrest] at hmem
    exact mem_of_mem_getLast? hmem

/-! ## The lines in front of a block -/

def ScanState.followedBy (state : ScanState) (rows : List Text) : ScanState :=
  ⟨state.depth, state.above, state.below ++ rows⟩

namespace MemberScan

variable (scan : MemberScan)

/-- Whether the parameter list that the first line below leaves open is closed by a line below. -/
def ParametersClose (state : ScanState) : Prop :=
  ∀ raw ∈ state.below.head?, ∀ found ∈ openParameters? scan.dialect scan.interfaceLike (codeOf raw),
    state.depth = 0 → scan.dialect.passesOver raw = false →
      ∃ front ∈ state.below.tail.inits, (findParen (front.foldl joinLine found.1) found.2).isSome

instance (state : ScanState) : Decidable (scan.ParametersClose state) :=
  inferInstanceAs (Decidable (∀ raw ∈ state.below.head?,
    ∀ found ∈ openParameters? scan.dialect scan.interfaceLike (codeOf raw),
      state.depth = 0 → scan.dialect.passesOver raw = false →
        ∃ front ∈ state.below.tail.inits,
          (findParen (front.foldl joinLine found.1) found.2).isSome))

variable {scan} {state : ScanState}

theorem header?_followedBy (hne : state.below ≠ []) (hclose : scan.ParametersClose state)
    (rows : List Text) : scan.header? (state.followedBy rows) = scan.header? state := by
  obtain ⟨depth, above, below⟩ := state
  obtain ⟨raw, rest, rfl⟩ := exists_cons_of_ne_nil hne
  change scan.header? ⟨depth, above, raw :: (rest ++ rows)⟩ = _
  by_cases hpass : scan.dialect.passesOver raw = true
  · rw [header?_of_passesOver hpass, header?_of_passesOver hpass]
  by_cases hdepth : depth = 0
  · subst hdepth
    have hlook : scan.dialect.passesOver raw = false := by simpa using hpass
    rw [header?_of_candidate hlook, header?_of_candidate hlook]
    cases hopen : openParameters? scan.dialect scan.interfaceLike (codeOf raw) with
    | none =>
      rw [(headerLine?_of_openParameters?_eq_none hopen (rest ++ rows)).1,
        (headerLine?_of_openParameters?_eq_none hopen rest).1]
    | some found =>
      obtain ⟨text, start⟩ := found
      obtain ⟨hparen, hheader⟩ := headerLine?_of_openParameters? hopen
      obtain ⟨front, hfront, hclosed⟩ := hclose raw rfl _ hopen rfl hlook
      have hprefix : front <+: rest := (mem_inits _ _).mp hfront
      rw [hheader, hheader, continueHeader?_append hparen hprefix hclosed]
  · rw [header?_of_depth_ne_zero hdepth, header?_of_depth_ne_zero hdepth]

theorem used_le (raw : Text) (rest : List Text) (depth : Nat) (above : List Text) :
    scan.used ⟨depth, above, raw :: rest⟩ ≤ rest.length := by
  unfold used
  cases hheader : scan.header? ⟨depth, above, raw :: rest⟩ with
  | none => exact Nat.zero_le _
  | some header =>
    simp only [header?] at hheader
    split at hheader
    · cases hheader
    · exact (getLast?_of_headerLine? hheader).1

theorem next_followedBy (hne : state.below ≠ []) (hclose : scan.ParametersClose state)
    (rows : List Text) : scan.next (state.followedBy rows) = (scan.next state).followedBy rows := by
  have hheader := header?_followedBy hne hclose rows
  obtain ⟨depth, above, below⟩ := state
  obtain ⟨raw, rest, rfl⟩ := exists_cons_of_ne_nil hne
  have hle := scan.used_le raw rest depth above
  change scan.header? ⟨depth, above, raw :: (rest ++ rows)⟩ = _ at hheader
  have hused : scan.used ⟨depth, above, raw :: (rest ++ rows)⟩ =
      scan.used ⟨depth, above, raw :: rest⟩ := by rw [used, used, hheader]
  change scan.next ⟨depth, above, raw :: (rest ++ rows)⟩ = _
  simp only [next, hused, ScanState.followedBy, take_append_of_le_length hle,
    drop_append_of_le_length hle]

theorem member?_followedBy (hclose : scan.ParametersClose state)
    (hlast : ∃ raw ∈ state.below.getLast?, (codeOf raw).getLast? = some '{') (rows : List Text) :
    scan.member? (state.followedBy rows) = scan.member? state := by
  have hne : state.below ≠ [] := by
    intro hnil
    simp [hnil] at hlast
  rw [member?, member?, header?_followedBy hne hclose]
  cases hheader : scan.header? state with
  | none => rfl
  | some header =>
    obtain ⟨depth, above, below⟩ := state
    obtain ⟨raw, rest, rfl⟩ := exists_cons_of_ne_nil hne
    simp only [header?] at hheader
    split at hheader
    · cases hheader
    · have hle := (getLast?_of_headerLine? hheader).1
      have hmember := lineMember?_append hheader hlast scan.typeName above rows
      simpa [ScanState.followedBy, drop_append_of_le_length hle] using hmember

/-- What is found in the lines in front of a block is found in them alone, and the scan goes on
behind them where it would have finished. -/
theorem members_followedBy {steps : Nat} (hsteps : state.below.length ≤ steps)
    (hclose : ∀ place ∈ scan.run steps state, scan.ParametersClose place)
    (hlast : state.below ≠ [] → ∃ raw ∈ state.below.getLast?, (codeOf raw).getLast? = some '{')
    (rows : List Text) :
    scan.members (state.followedBy rows) =
      scan.members state ++ scan.members ((scan.finish state).followedBy rows) := by
  induction steps generalizing state with
  | zero =>
    have hnil : state.below = [] := eq_nil_of_length_eq_zero (Nat.le_zero.mp hsteps)
    rw [finish_of_below_eq_nil scan hnil, members.eq_def scan state, hnil, membersFrom_nil,
      nil_append]
  | succ steps ih =>
    by_cases hne : state.below = []
    · rw [finish_of_below_eq_nil scan hne, members.eq_def scan state, hne, membersFrom_nil,
        nil_append]
    · have hfirst : scan.ParametersClose state := hclose state (by simp [run])
      have hlt := scan.length_next_lt hne
      have hsuffix := scan.below_next_suffix state
      rw [members_step, members_step scan state, member?_followedBy hfirst (hlast hne),
        next_followedBy hne hfirst, ih, finish_next, append_assoc]
      · omega
      · intro place hplace
        exact hclose place (by simp [run, hplace])
      · intro hnext
        obtain ⟨front, hfront⟩ := hsuffix
        have hend := hlast hne
        rwa [← hfront, getLast?_append_of_ne_nil _ hnext] at hend

end MemberScan

/-! ## The lines of a block -/

/-- Whether lines inside an open block leave it open and as deep as it was. -/
structure Dialect.StaysInside (dialect : Dialect) (rows : List Text) : Prop where
  inside : ∀ front ∈ rows.inits, 1 ≤ front.foldl dialect.lineDepth 1
  ends : rows.foldl dialect.lineDepth 1 = 1

namespace MemberScan

variable {scan : MemberScan}

theorem members_inside {depth : Nat}
    (h : ∀ front, front <+: rows → 1 ≤ front.foldl scan.dialect.lineDepth depth)
    (above below : List Text) :
    scan.members ⟨depth, above, rows ++ below⟩ =
      scan.members ⟨rows.foldl scan.dialect.lineDepth depth, rows.reverse ++ above, below⟩ := by
  induction rows generalizing depth above with
  | nil => rfl
  | cons raw rows ih =>
    have hdepth : 1 ≤ depth := h [] nil_prefix
    have hheader : scan.header? ⟨depth, above, raw :: (rows ++ below)⟩ = none :=
      header?_of_depth_ne_zero (by omega)
    have hrows : ∀ front, front <+: rows →
        1 ≤ front.foldl scan.dialect.lineDepth (scan.dialect.lineDepth depth raw) := by
      intro front hfront
      exact h (raw :: front) (cons_prefix_cons.mpr ⟨rfl, hfront⟩)
    rw [cons_append, members_step, member?, hheader, next_of_header?_eq_none hheader,
      ih hrows]
    simp

/-! ## The lines behind a block -/

theorem memberMarkerLines_brace (dialect : Dialect) (top first second : List Text) (count : Nat) :
    memberMarkerLines dialect ((top ++ ['}'] :: first).take count) =
      memberMarkerLines dialect ((top ++ ['}'] :: second).take count) := by
  induction top generalizing count with
  | nil =>
    cases count with
    | zero => rfl
    | succ count =>
      have hcode : codeOf ['}'] = ['}'] := by decide
      have hcomment : dialect.isComment ['}'] = false := by cases dialect <;> decide
      have hpeel : dialect.peel ['}'] = ([], ['}']) :=
        Dialect.peel_of_head? rfl (by decide) (by cases dialect <;> decide)
      simp [memberMarkerLines, hcode, hcomment, hpeel]
  | cons raw top ih =>
    cases count with
    | zero => rfl
    | succ count =>
      simp only [cons_append, take_succ_cons, memberMarkerLines, ih count]

/-- Members behind a block do not depend on what stands above its closing brace. -/
theorem members_above_brace (depth : Nat) (top first second below : List Text) :
    scan.members ⟨depth, top ++ ['}'] :: first, below⟩ =
      scan.members ⟨depth, top ++ ['}'] :: second, below⟩ := by
  induction hlength : below.length using Nat.strong_induction_on
    generalizing depth top below with
  | _ length ih =>
    subst hlength
    cases below with
    | nil => simp [members, membersFrom_nil]
    | cons raw rest =>
      have hmember : scan.member? ⟨depth, top ++ ['}'] :: first, raw :: rest⟩ =
          scan.member? ⟨depth, top ++ ['}'] :: second, raw :: rest⟩ := by
        have hmarkers : memberMarkersAbove scan.dialect (top ++ ['}'] :: first) =
            memberMarkersAbove scan.dialect (top ++ ['}'] :: second) := by
          rw [memberMarkersAbove, memberMarkersAbove, memberMarkerLines_brace]
        simp only [member?, lineMember?, hmarkers]
        rfl
      -- what a step uses depends on no line above
      have hused : scan.used ⟨depth, top ++ ['}'] :: first, raw :: rest⟩ =
          scan.used ⟨depth, top ++ ['}'] :: second, raw :: rest⟩ := rfl
      have hlt : (rest.drop (scan.used ⟨depth, top ++ ['}'] :: second, raw :: rest⟩)).length <
          (raw :: rest).length := by
        rw [length_drop, length_cons]
        omega
      rw [members_step, members_step scan ⟨depth, top ++ ['}'] :: second, raw :: rest⟩, hmember]
      congr 1
      simp only [next, hused, ← cons_append, ← append_assoc]
      exact ih _ hlt _ _ _ rfl

/-- Whether some lines lead into a block: the last one opens it, it is the only open one, and every
parameter list that a header among the lines opens is closed there. -/
structure OpensBlock (scan : MemberScan) (rows : List Text) : Prop where
  brace : ∃ raw ∈ rows.getLast?, (codeOf raw).getLast? = some '{'
  depth : (scan.finish ⟨0, [], rows⟩).depth = 1
  parameters : ∀ state ∈ scan.run rows.length ⟨0, [], rows⟩, scan.ParametersClose state

/-- The members around a block are those of the lines in front of it and those of the lines behind
it. -/
theorem members_around_block {inner : List Text} (hfront : scan.OpensBlock front)
    (hinner : scan.dialect.StaysInside inner) (back : List Text) :
    scan.members ⟨0, [], front ++ (inner ++ ['}'] :: back)⟩ =
      scan.members ⟨0, [], front⟩ ++ scan.members ⟨0, [['}']], back⟩ := by
  have hend : scan.members ⟨0, [], front ++ (inner ++ ['}'] :: back)⟩ =
      scan.members ⟨0, [], front⟩ ++
        scan.members ((scan.finish ⟨0, [], front⟩).followedBy (inner ++ ['}'] :: back)) :=
    @members_followedBy scan ⟨0, [], front⟩ front.length le_rfl hfront.parameters
      (fun _ => hfront.brace) _
  have hdepth := hfront.depth
  have hbelow := scan.below_finish ⟨0, [], front⟩
  generalize scan.finish ⟨0, [], front⟩ = place at hend hdepth hbelow
  obtain ⟨depth, above, below⟩ := place
  obtain rfl : depth = 1 := hdepth
  obtain rfl : below = [] := hbelow
  rw [hend]
  congr 1
  have hinside : ∀ rows, rows <+: inner → 1 ≤ rows.foldl scan.dialect.lineDepth 1 :=
    fun rows hrows => hinner.inside rows ((mem_inits _ _).mpr hrows)
  have hclosing : scan.dialect.lineDepth 1 ['}'] = 0 := by
    cases scan.dialect <;> decide
  have hheader : scan.header? ⟨1, inner.reverse ++ above, ['}'] :: back⟩ = none :=
    header?_of_depth_ne_zero (by decide)
  calc
    scan.members ⟨1, above, inner ++ ['}'] :: back⟩ =
        scan.members ⟨1, inner.reverse ++ above, ['}'] :: back⟩ := by
      rw [members_inside hinside, hinner.ends]
    _ = scan.members ⟨0, ['}'] :: (inner.reverse ++ above), back⟩ := by
      rw [members_step, member?, hheader, next_of_header?_eq_none hheader, hclosing]
      rfl
    _ = scan.members ⟨0, [['}']], back⟩ := members_above_brace 0 [] _ _ back

end MemberScan

/-- Two bodies that differ only in the lines of one block have the same members. -/
theorem scanMembers_block_irrelevant (dialect : Dialect) (typeName : Text) (kind : TypeKind)
    {front back first second : List Text}
    (hfront : MemberScan.OpensBlock ⟨dialect, typeName, kind.isInterfaceLike⟩ front)
    (hfirst : dialect.StaysInside first) (hsecond : dialect.StaysInside second)
    {body other : Text} (hbody : lines body = front ++ first ++ [['}']] ++ back)
    (hother : lines other = front ++ second ++ [['}']] ++ back) :
    scanMembers dialect typeName kind body = scanMembers dialect typeName kind other := by
  have hmembers : ∀ inner, dialect.StaysInside inner → ∀ text,
      lines text = front ++ inner ++ [['}']] ++ back → scanMembers dialect typeName kind text =
        MemberScan.members ⟨dialect, typeName, kind.isInterfaceLike⟩ ⟨0, [], front⟩ ++
          MemberScan.members ⟨dialect, typeName, kind.isInterfaceLike⟩ ⟨0, [['}']], back⟩ := by
    intro inner hinner text htext
    rw [← MemberScan.members_around_block hfront hinner back, scanMembers, htext]
    simp [MemberScan.members]
  rw [hmembers first hfirst body hbody, hmembers second hsecond other hother]

/-- The lines of a method up to the brace that opens its body. -/
def sumRows : List Text :=
  ["[HttpGet]", "public int Sum(", "    int left, // first", "    int right)", "\x7b"].map String.toList

theorem scanMembers_sum_block :
    MemberScan.OpensBlock ⟨.csharp, "Counter".toList, false⟩ sumRows ∧
    Dialect.csharp.StaysInside ["return left + right;".toList] ∧
    Dialect.csharp.StaysInside
      ["if (left > 0) \x7b".toList, "public int Trap;".toList, "\x7d // \x7d".toList] ∧
    scanMembers .csharp "Counter".toList .classType (joinLines (sumRows ++
      ["return left + right;".toList] ++ [['}']] ++ ["public int Total;".toList])) =
    scanMembers .csharp "Counter".toList .classType (joinLines (sumRows ++
      ["if (left > 0) \x7b".toList, "public int Trap;".toList, "\x7d // \x7d".toList] ++
      [['}']] ++ ["public int Total;".toList])) := by
  have hfront : MemberScan.OpensBlock ⟨.csharp, "Counter".toList, false⟩ sumRows :=
    ⟨⟨_, rfl, by decide +kernel⟩, by decide +kernel, by decide +kernel⟩
  have hfirst : Dialect.csharp.StaysInside ["return left + right;".toList] :=
    ⟨by decide +kernel, by decide +kernel⟩
  have hsecond : Dialect.csharp.StaysInside
      ["if (left > 0) \x7b".toList, "public int Trap;".toList, "\x7d // \x7d".toList] :=
    ⟨by decide +kernel, by decide +kernel⟩
  have hlines : ∀ {rows : List Text}, rows.all (·.all fun c => !isLineBreak c) = true →
      lines (joinLines rows) = rows := by
    intro rows hrows
    apply lines_joinLines
    intro row hrow c hc
    simpa using all_eq_true.mp (all_eq_true.mp hrows row hrow) c hc
  refine ⟨hfront, hfirst, hsecond, ?_⟩
  exact scanMembers_block_irrelevant .csharp _ .classType hfront hfirst hsecond
    (hlines (by decide +kernel)) (hlines (by decide +kernel))

end SourceAtlas
