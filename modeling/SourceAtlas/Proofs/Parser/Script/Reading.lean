import SourceAtlas.Parser.Script
import SourceAtlas.Proofs.Header.Basic

/-!
# The reader of a script step by step

A step reads one line, and a function header together with the lines that continue its parameter
list. It looks at no line behind those. So what was read up to a line, and the place of the reader
there, do not depend on that line or on those below it.
-/

namespace SourceAtlas.Script

open List Option

variable {progress : Progress} {raw line text joined name : Text} {markers : List Marker}
  {openParen : Nat} {used left below rows : List Text} {keyword : String}

/-! ## Keywords -/

theorem prefix_of_afterKeyword? {rest : Text}
    (h : afterKeyword? keyword text = some rest) : keyword.toList <+: text := by
  obtain ⟨word, hword, c, tail, rfl, -, -⟩ := dropWord?_eq_some h
  obtain rfl := mem_singleton.mp hword
  exact prefix_append _ _

theorem head?_of_afterKeyword? {rest : Text} {c : Char}
    (h : afterKeyword? keyword text = some rest) (hkeyword : keyword.toList.head? = some c) :
    text.head? = some c := by
  obtain ⟨tail, rfl⟩ := prefix_of_afterKeyword? h
  rw [head?_append, hkeyword, some_or]

theorem className?_of_head? (h : line.head? ≠ some 'c') : className? line = none := by
  cases hclass : className? line with
  | none => rfl
  | some found =>
    obtain ⟨after, hafter, -⟩ := bind_eq_some_iff.mp hclass
    exact absurd (head?_of_afterKeyword? hafter rfl) h

theorem extendsBase?_of_head? (h : line.head? ≠ some 'e') : extendsBase? line = none := by
  cases hbase : extendsBase? line with
  | none => rfl
  | some base =>
    obtain ⟨after, hafter, -⟩ := bind_eq_some_iff.mp hbase
    exact absurd (head?_of_afterKeyword? hafter rfl) h

theorem of_functionHeader? (h : functionHeader? line = some (name, openParen)) :
    (line.head? = some 's' ∨ line.head? = some 'f') ∧ openParen ≤ line.length := by
  obtain ⟨after, hafter, h⟩ := bind_eq_some_iff.mp h
  obtain ⟨⟨word, rest⟩, -, h⟩ := bind_eq_some_iff.mp h
  constructor
  · rw [dropStatic] at hafter
    cases hstatic : afterKeyword? "static" line with
    | some tail => exact .inl (head?_of_afterKeyword? hstatic rfl)
    | none =>
      rw [hstatic] at hafter
      exact .inr (head?_of_afterKeyword? hafter rfl)
  · dsimp only at h
    split at h
    · obtain ⟨-, rfl⟩ := Prod.mk.inj (some.inj h)
      exact (Nat.sub_le _ _).trans (Nat.sub_le _ _)
    · cases h

/-! ## One line -/

theorem dropComment_of_notMem (h : '#' ∉ raw) : dropComment raw = trimRight raw := by
  have hcontains : raw.contains '#' = false := by simpa using h
  rw [dropComment, hcontains]
  rfl

def codeOfLine (raw : Text) : List Marker × Text :=
  peelDecorators (dropComment raw)

/-- A member is added, unless its name is hidden. The pending markers are used up. -/
def Progress.add (progress : Progress) (found : Option Member) : Progress :=
  { progress with
    pending := []
    members := progress.members ++ found.toList.filter fun member => !isHidden member.name }

/-- The class gets a name and bases, and the pending markers are its own. -/
def Progress.describe (progress : Progress) (className : Option Text) (baseTypes : List Text)
    (markers : List Marker) : Progress :=
  { progress with
    className := className
    baseTypes := baseTypes
    classMarkers := progress.classMarkers ++ (progress.pending ++ markers)
    pending := [] }

theorem readLine_passedOver (h : isPassedOver raw = true) (progress : Progress) (below : List Text) :
    readLine progress raw below = (progress, below) := by
  rw [readLine, if_pos h]

theorem readLine_markers (h : isPassedOver raw = false) (hcode : codeOfLine raw = (markers, []))
    (progress : Progress) (below : List Text) :
    readLine progress raw below =
      ({ progress with pending := progress.pending ++ markers }, below) := by
  rw [codeOfLine] at hcode
  rw [readLine, if_neg (Bool.not_eq_true _ ▸ h), hcode]
  rfl

section

variable (h : isPassedOver raw = false) (hcode : codeOfLine raw = (markers, line)) (hne : line ≠ [])

include h hcode hne

theorem readLine_className {after : Text} (hname : className? line = some (name, after))
    (progress : Progress) (below : List Text) :
    readLine progress raw below =
      (progress.describe (some name) (((extendsBase? (trim after)).map ([·])).getD progress.baseTypes)
        markers, below) := by
  rw [codeOfLine] at hcode
  rw [readLine, if_neg (Bool.not_eq_true _ ▸ h), hcode]
  dsimp only
  rw [if_neg (by simpa using hne), hname]
  rfl

variable (hclass : className? line = none)

include hclass

theorem readLine_extends {base : Text} (hbase : extendsBase? line = some base)
    (progress : Progress) (below : List Text) :
    readLine progress raw below = (progress.describe progress.className [base] markers, below) := by
  rw [codeOfLine] at hcode
  rw [readLine, if_neg (Bool.not_eq_true _ ▸ h), hcode]
  dsimp only
  rw [if_neg (by simpa using hne), hclass, hbase]
  rfl

theorem readLine_member (hbase : extendsBase? line = none) (progress : Progress)
    (below : List Text) :
    readLine progress raw below =
      (progress.add (member line below (progress.pending ++ markers)).1,
        (member line below (progress.pending ++ markers)).2) := by
  rw [codeOfLine] at hcode
  rw [readLine, if_neg (Bool.not_eq_true _ ▸ h), hcode]
  dsimp only
  rw [if_neg (by simpa using hne), hclass, hbase]
  rfl

end

theorem readLine_function (h : isPassedOver raw = false) (hcode : codeOfLine raw = (markers, line))
    (hheader : functionHeader? line = some (name, openParen)) (progress : Progress)
    (below : List Text) :
    readLine progress raw below =
      (progress.add (function line name openParen below (progress.pending ++ markers)).1,
        (function line name openParen below (progress.pending ++ markers)).2) := by
  have hhead := (of_functionHeader? hheader).1
  have hne : line ≠ [] := by
    rintro rfl
    simp at hhead
  have hclass : className? line = none := by
    apply className?_of_head?
    rcases hhead with hhead | hhead <;> simp [hhead]
  have hbase : extendsBase? line = none := by
    apply extendsBase?_of_head?
    rcases hhead with hhead | hhead <;> simp [hhead]
  rw [readLine_member h hcode hne hclass hbase, member, hheader]

theorem readLine_congr {other : Text} (h : isPassedOver raw = false)
    (hother : isPassedOver other = false) (hcode : codeOfLine other = codeOfLine raw)
    (progress : Progress) (below : List Text) :
    readLine progress other below = readLine progress raw below := by
  rw [codeOfLine, codeOfLine] at hcode
  rw [readLine, if_neg (Bool.not_eq_true _ ▸ hother), hcode, readLine,
    if_neg (Bool.not_eq_true _ ▸ h)]

/-- What a line is to the reader: it is passed over, has only markers, names the class or its base, or
is a function or another member. Only for a function the lines below matter. -/
@[elab_as_elim]
theorem readLine_elim {motive : (List Text → Progress × List Text) → Prop} (progress : Progress)
    (raw : Text) (passedOver : motive fun below => (progress, below))
    (markersOnly : ∀ markers, codeOfLine raw = (markers, []) →
      motive fun below => ({ progress with pending := progress.pending ++ markers }, below))
    (namesClass : ∀ markers line name after, codeOfLine raw = (markers, line) →
      className? line = some (name, after) → motive fun below =>
        (progress.describe (some name)
          (((extendsBase? (trim after)).map ([·])).getD progress.baseTypes) markers, below))
    (namesBase : ∀ markers line base, codeOfLine raw = (markers, line) → extendsBase? line = some base →
      motive fun below => (progress.describe progress.className [base] markers, below))
    (isFunction : ∀ markers line name openParen, codeOfLine raw = (markers, line) →
      functionHeader? line = some (name, openParen) → motive fun below =>
        (progress.add (function line name openParen below (progress.pending ++ markers)).1,
          (function line name openParen below (progress.pending ++ markers)).2))
    (isPlain : ∀ markers line, codeOfLine raw = (markers, line) →
      motive fun below => (progress.add (plainMember? line (progress.pending ++ markers)), below)) :
    motive (readLine progress raw) := by
  by_cases hpassed : isPassedOver raw = true
  · rwa [funext (readLine_passedOver hpassed progress)]
  rw [Bool.not_eq_true] at hpassed
  rcases hcode : codeOfLine raw with ⟨markers, line⟩
  by_cases hempty : line = []
  · subst hempty
    rw [funext (readLine_markers hpassed hcode progress)]
    exact markersOnly markers hcode
  cases hname : className? line with
  | some found =>
    rw [funext (readLine_className hpassed hcode hempty hname progress)]
    exact namesClass markers line found.1 found.2 hcode hname
  | none =>
    cases hbase : extendsBase? line with
    | some base =>
      rw [funext (readLine_extends hpassed hcode hempty hname hbase progress)]
      exact namesBase markers line base hcode hbase
    | none =>
      rw [funext (readLine_member hpassed hcode hempty hname hbase progress)]
      unfold member
      cases hheader : functionHeader? line with
      | some found => exact isFunction markers line found.1 found.2 hcode hheader
      | none => exact isPlain markers line hcode

/-- A line gives the same whatever follows it, function headers apart. -/
theorem readLine_cases (progress : Progress) (raw : Text) :
    (∃ next, progress.members <+: next.members ∧
      ∀ below, readLine progress raw below = (next, below)) ∨
    ∃ line name openParen markers, ∀ below,
      readLine progress raw below =
        (progress.add (function line name openParen below markers).1,
          (function line name openParen below markers).2) := by
  refine readLine_elim progress raw ?passedOver ?markersOnly ?namesClass ?namesBase ?isFunction ?isPlain
  case passedOver | markersOnly | namesClass | namesBase =>
    intros
    refine .inl ⟨_, ?_, fun _ => rfl⟩
    exact prefix_rfl
  case isFunction =>
    intros
    exact .inr ⟨_, _, _, _, fun _ => rfl⟩
  case isPlain =>
    intros
    exact .inl ⟨_, prefix_append _ _, fun _ => rfl⟩

/-! ## Parameter lists that go on below -/

theorem joinParameters_suffix (openParen : Nat) (text : Text) (below : List Text) :
    (joinParameters openParen text below).2 <:+ below := by
  induction below generalizing text with
  | nil => exact suffix_rfl
  | cons raw rest ih =>
    rw [joinParameters]
    split
    · exact suffix_rfl
    · exact (ih _).trans (suffix_cons raw rest)

theorem joinParameters_local (hne : left ≠ [])
    (h : joinParameters openParen text (used ++ left) = (joined, left)) (other : List Text) :
    joinParameters openParen text (used ++ other) = (joined, other) := by
  induction used generalizing text with
  | nil =>
    obtain ⟨first, rest, rfl⟩ := exists_cons_of_ne_nil hne
    rw [nil_append, joinParameters] at h
    by_cases hclosed : (findParen text openParen).isSome = true
    · rw [if_pos hclosed] at h
      obtain rfl := congrArg Prod.fst h
      cases other with
      | nil => rfl
      | cons raw other => rw [nil_append, joinParameters, if_pos hclosed]
    · -- otherwise a line would be used
      rw [if_neg hclosed] at h
      have hle := (joinParameters_suffix openParen (text ++ ' ' :: trim first) rest).length_le
      rw [h, length_cons] at hle
      omega
  | cons raw used ih =>
    rw [cons_append, joinParameters] at h
    by_cases hclosed : (findParen text openParen).isSome = true
    · rw [if_pos hclosed] at h
      have hlength := congrArg (length ∘ Prod.snd) h
      simp only [Function.comp_apply, length_cons, length_append] at hlength
      omega
    · rw [if_neg hclosed] at h
      rw [cons_append, joinParameters, if_neg hclosed]
      exact ih h

/-- The function with a given head, up to the end of its parameter list, and a given result type. -/
def functionMember (name : Text) (markers : List Marker) (head : Text) (result : Option Text) :
    Member where
  name := name
  kind := if name == "_init".toList then .constructor else .method
  declaredType := result.getD unknownType
  signature := head ++ (result.map (" -> ".toList ++ ·)).getD []
  markers := markers

theorem function_eq (line name : Text) (openParen : Nat) (below : List Text)
    (markers : List Marker) :
    function line name openParen below markers =
      ((findParen (joinParameters openParen line below).1 openParen).map fun close =>
          functionMember name markers ((joinParameters openParen line below).1.take (close + 1))
            (resultType? ((joinParameters openParen line below).1.drop (close + 1))),
        (joinParameters openParen line below).2) := by
  unfold function
  dsimp only
  cases findParen (joinParameters openParen line below).1 openParen with
  | none => rfl
  | some close =>
    dsimp only [map_some]
    cases resultType? ((joinParameters openParen line below).1.drop (close + 1)) with
    | none => simp [functionMember]
    | some result => simp [functionMember]

theorem function_local (hne : left ≠ [])
    (h : (function line name openParen (used ++ left) markers).2 = left) (other : List Text) :
    function line name openParen (used ++ other) markers =
      ((function line name openParen (used ++ left) markers).1, other) := by
  rw [function_eq] at h
  have hjoined : joinParameters openParen line (used ++ left) =
      ((joinParameters openParen line (used ++ left)).1, left) := Prod.ext rfl h
  rw [function_eq, function_eq, joinParameters_local hne hjoined]

theorem readLine_suffix (progress : Progress) (raw : Text) (below : List Text) :
    (readLine progress raw below).2 <:+ below := by
  rcases readLine_cases progress raw with ⟨next, -, hread⟩ | ⟨line, name, openParen, markers, hread⟩
  · rw [hread]
  · rw [hread, function_eq]
    exact joinParameters_suffix _ _ _

theorem readLine_local (hne : left ≠ []) (h : (readLine progress raw (used ++ left)).2 = left)
    (other : List Text) :
    readLine progress raw (used ++ other) = ((readLine progress raw (used ++ left)).1, other) := by
  rcases readLine_cases progress raw with ⟨next, -, hread⟩ | ⟨line, name, openParen, markers, hread⟩
  · rw [hread] at h
    obtain rfl : used = [] := by simpa using h
    rw [hread, hread, nil_append]
  · rw [hread] at h
    rw [hread, hread, function_local hne h]

theorem members_prefix_readLine (progress : Progress) (raw : Text) (below : List Text) :
    progress.members <+: (readLine progress raw below).1.members := by
  rcases readLine_cases progress raw with ⟨next, hnext, hread⟩ | ⟨line, name, openParen, markers, hread⟩
  · rw [hread]
    exact hnext
  · rw [hread]
    exact prefix_append _ _

/-! ## A run of steps -/

theorem readLines_nil (progress : Progress) : readLines progress [] = progress := by
  rw [readLines]

theorem readLines_cons (progress : Progress) (raw : Text) (below : List Text) :
    readLines progress (raw :: below) =
      readLines (readLine progress raw below).1 (readLine progress raw below).2 := by
  rw [readLines]
  exact if_pos (readLine_suffix progress raw below).length_le

/-- What every step over some lines preserves is preserved by the run over them. -/
theorem readLines_preserves {P : Progress → Prop}
    (hstep : ∀ progress raw below, raw :: below <:+ rows → P progress →
      P (readLine progress raw below).1) (h : P progress) : P (readLines progress rows) := by
  induction hlength : rows.length using Nat.strong_induction_on generalizing progress rows with
  | _ length ih =>
    subst hlength
    cases rows with
    | nil => rwa [readLines_nil]
    | cons raw below =>
      have hleft := readLine_suffix progress raw below
      rw [readLines_cons]
      refine ih _ (Nat.lt_succ_of_le hleft.length_le) (fun next row rest hrest => ?_)
        (hstep progress raw below suffix_rfl h) rfl
      exact hstep next row rest ((hrest.trans hleft).trans (suffix_cons raw below))

theorem members_prefix_readLines (progress : Progress) (rows : List Text) :
    progress.members <+: (readLines progress rows).members :=
  readLines_preserves (P := fun next => progress.members <+: next.members)
    (fun next raw below _ hnext => hnext.trans (members_prefix_readLine next raw below)) prefix_rfl

def Progress.initial : Progress :=
  ⟨none, [], [], [], []⟩

/-- Whether the reader, started on some lines, comes to a place: to what it has read then and to the
lines that are left. -/
inductive Reaches (rows : List Text) : Progress → List Text → Prop
  | start : Reaches rows Progress.initial rows
  | step {progress : Progress} {raw : Text} {below : List Text}
      (h : Reaches rows progress (raw :: below)) :
      Reaches rows (readLine progress raw below).1 (readLine progress raw below).2

theorem Reaches.readLines_eq (h : Reaches rows progress left) :
    readLines Progress.initial rows = readLines progress left := by
  induction h with
  | start => rfl
  | step _ ih => rw [ih, readLines_cons]

/-- The way to a line does not depend on the line or on those below it. -/
theorem Reaches.local (h : Reaches rows progress (used ++ left)) (hne : left ≠ []) :
    ∃ above, rows = above ++ (used ++ left) ∧
      ∀ other, Reaches (above ++ (used ++ other)) progress (used ++ other) := by
  generalize hbelow : used ++ left = below at h
  induction h generalizing used with
  | start => exact ⟨[], rfl, fun other => .start⟩
  | @step progress raw below _ ih =>
    obtain ⟨read, hread⟩ := readLine_suffix progress raw below
    rw [← hbelow] at hread
    obtain ⟨above, hrows, hother⟩ := @ih (raw :: (read ++ used)) (by simp [← hread])
    have hleft : (readLine progress raw (read ++ (used ++ left))).2 = used ++ left := by
      rw [hread, hbelow]
    refine ⟨above ++ raw :: read, ?_, fun other => ?_⟩
    · rw [hrows, ← hbelow, ← hread, append_assoc, cons_append]
    · have hstep := readLine_local (append_ne_nil_of_right_ne_nil used hne) hleft (used ++ other)
      have hplace : Reaches (above ++ raw :: read ++ (used ++ other)) progress
          (raw :: (read ++ (used ++ other))) := by
        simpa using hother other
      have hreach := hplace.step
      rwa [hstep, hread] at hreach

end SourceAtlas.Script
