import SourceAtlas.Proofs.CSharp.Tokenize

/-!
# What the search for a name looks at

A name with its type arguments is read from a run of characters that ends at the first parenthesis,
brace, semicolon or `=`. Only the run and the question whether a terminator follows it decide what is
found, so the search gives the same name on texts that differ behind the terminator.
-/

namespace SourceAtlas

open List Option

variable {before : Option Char} {index : Nat} {text front word gap' rest' rest : Text} {c : Char}

/-- A search that finds something passes over the text in front of it. -/
theorem exists_of_searchFrom {α : Type} {read : Option Char → Nat → Text → Option α}
    (hread : ∀ before index text, read before index text = none →
      ∀ other, read before other text = none) {found : α}
    (h : searchFrom read before index text = some found) :
    ∃ front rest, text = front ++ rest ∧ rest ≠ [] ∧
      Unread (fun before text => ∀ index, read before index text = none) before front rest ∧
      read (lastBefore before front) (index + front.length) rest = some found := by
  induction text generalizing before index with
  | nil => cases h
  | cons c text ih =>
    rw [searchFrom] at h
    split at h
    · next result hresult =>
      cases h
      exact ⟨[], c :: text, rfl, by simp, trivial, hresult⟩
    · next hnone =>
      obtain ⟨front, rest, rfl, hne, hunread, hfound⟩ := ih h
      refine ⟨c :: front, rest, rfl, hne, ⟨hread _ _ _ hnone, hunread⟩, ?_⟩
      rw [lastBefore_cons, length_cons]
      rwa [show index + (front.length + 1) = index + 1 + front.length by omega]

theorem searchFrom_of_unread {α : Type} {read : Option Char → Nat → Text → Option α} {found : α}
    (hunread : Unread (fun before text => ∀ index, read before index text = none) before front rest)
    (hne : rest ≠ [])
    (h : read (lastBefore before front) (index + front.length) rest = some found) :
    searchFrom read before index (front ++ rest) = some found := by
  obtain ⟨c, rest, rfl⟩ := exists_cons_of_ne_nil hne
  rw [hunread.searchFrom_append, searchFrom, h]

namespace CSharp

theorem isTypeArgumentChar_of_isWord (h : isWord c = true) : isTypeArgumentChar c = true :=
  isTypeArgumentChar_of_kind (by decide) h

theorem isTypeArgumentChar_of_isBlank (h : isBlank c = true) : isTypeArgumentChar c = true :=
  isTypeArgumentChar_of_kind (by decide) h

/-- Whether a text does not go on with a character of a name or its type arguments. -/
def EndsRun (rest : Text) : Prop :=
  ∀ c ∈ rest.head?, isTypeArgumentChar c = false

namespace EndsRun

variable {rest : Text}

theorem head?_ne (h : EndsRun rest) (hc : isTypeArgumentChar c = true) : rest.head? ≠ some c := by
  intro hhead
  rw [h c hhead] at hc
  cases hc

theorem eq_false_of_head? (h : EndsRun rest) {kind : Char → Bool}
    (hkind : ∀ c, kind c = true → isTypeArgumentChar c = true) :
    ∀ c ∈ rest.head?, kind c = false := by
  intro c hc
  by_contra htrue
  exact h.head?_ne (hkind c (by simpa using htrue)) hc

end EndsRun

/-- What follows a name and its type arguments: a terminator and the text from there on. -/
def terminated? (after : Text) : Option (Terminator × Text) :=
  (dropTypeArguments? (trimLeft after)).bind fun rest => (terminatorAt? rest).map (·, rest)

theorem terminated?_run {run gap : Text} (hrun : ∀ c ∈ run, isTypeArgumentChar c = true)
    (hgap : ∀ c ∈ gap, isBlank c = true) (hrest : EndsRun rest) :
    terminated? (run ++ gap ++ rest) =
      if dropTypeArguments? (trimLeft run) = some [] then (terminatorAt? rest).map (·, rest)
      else none := by
  have hgapArgument : ∀ c ∈ gap, isTypeArgumentChar c = true := fun c hc =>
    isTypeArgumentChar_of_isBlank (hgap c hc)
  have hblank : trimLeft (gap ++ rest) = rest := by
    have hstop := hrest.eq_false_of_head? fun c hc => isTypeArgumentChar_of_isBlank hc
    exact dropWhile_append_of_stop hgap hstop
  have hself : dropTypeArguments? rest = some rest := by
    cases rest with
    | nil => rfl
    | cons c rest =>
      have hopen : c ≠ '<' := fun hc => hrest.head?_ne (by decide) (congrArg some hc)
      exact dropTypeArguments?_cons hopen rest
  unfold terminated?
  cases htrim : trimLeft run with
  | nil =>
    have hall : ∀ c ∈ run, isBlank c = true := dropWhile_eq_nil_iff.mp htrim
    rw [append_assoc, trimLeft_append_of_blanks hall, hblank, hself]
    simp [dropTypeArguments?]
  | cons c tail =>
    have hmem : ∀ d ∈ c :: tail, isTypeArgumentChar d = true := fun d hd =>
      hrun d ((trimLeft_suffix run).subset (htrim ▸ hd))
    have happend : trimLeft (run ++ gap ++ rest) = c :: (tail ++ gap ++ rest) := by
      unfold trimLeft at htrim ⊢
      rw [append_assoc, dropWhile_append, htrim]
      simp
    rw [happend]
    by_cases hopen : c = '<'
    · subst hopen
      -- the blanks behind the run do not change its last character
      have htake : (tail ++ gap ++ rest).takeWhile isTypeArgumentChar = tail ++ gap := by
        refine takeWhile_append_of_stop ?_ hrest
        intro d hd
        rcases mem_append.mp hd with hd | hd
        · exact hmem d (by simp [hd])
        · exact hgapArgument d hd
      have hself : tail.takeWhile isTypeArgumentChar = tail :=
        takeWhile_eq_self_iff.mpr fun d hd => hmem d (by simp [hd])
      simp only [dropTypeArguments?, htake, hself, trimRight_append_of_blanks hgap,
        drop_left', drop_length]
      split <;> simp
    · rw [dropTypeArguments?_cons hopen, dropTypeArguments?_cons hopen]
      simp [terminatorAt?_of_isTypeArgumentChar (hmem c (by simp))]

/-- A text without the `@` in front of a name. -/
def unsigned (text : Text) : Text :=
  if text.head? == some '@' then text.drop 1 else text

theorem unsigned_append (hne : front ≠ []) (rest : Text) :
    unsigned (front ++ rest) = unsigned front ++ rest := by
  obtain ⟨c, front, rfl⟩ := exists_cons_of_ne_nil hne
  by_cases hc : c = '@' <;> simp [unsigned, hc]

theorem unsigned_suffix (text : Text) : unsigned text <:+ text := by
  unfold unsigned
  split
  · exact drop_suffix 1 text
  · exact suffix_rfl

theorem nameAt?_of_isNameStart (hopens : opensName before = true)
    (hword : unsigned text = c :: word) (hc : isNameStart c = true) :
    nameAt? before index text =
      (terminated? ((c :: word).dropWhile isWord)).map fun found =>
        ⟨text.take (text.length - ((c :: word).dropWhile isWord).length), index, found.1,
          index + (text.length - found.2.length)⟩ := by
  unfold unsigned at hword
  simp only [nameAt?, hopens, hword, hc, if_true, terminated?, Option.map_bind, bind]
  congr 1
  funext rest
  cases hterminator : terminatorAt? rest <;> simp [hterminator]

theorem nameAt?_of_not_isNameStart (h : ∀ c ∈ (unsigned text).head?, isNameStart c = false) :
    nameAt? before index text = none := by
  unfold unsigned at h
  unfold nameAt?
  split
  · simp only
    split
    · next c word hword => simp [h c (by rw [hword]; rfl)]
    · rfl
  · rfl

theorem exists_unsigned_of_nameAt? {named : Named} (h : nameAt? before index text = some named) :
    opensName before = true ∧ ∃ c word, unsigned text = c :: word ∧ isNameStart c = true := by
  constructor
  · by_contra hnot
    simp [nameAt?, hnot] at h
  · by_contra hnot
    rw [nameAt?_of_not_isNameStart] at h
    · cases h
    · intro c hc
      obtain ⟨word, hword⟩ := head?_eq_some_iff.mp hc
      by_contra htrue
      exact hnot ⟨c, word, hword, by simpa using htrue⟩

section

variable {run gap rest : Text}

theorem EndsRun.gap_append (hrest : EndsRun rest) (hgap : ∀ c ∈ gap, isBlank c = true) :
    ∀ c ∈ (gap ++ rest).head?, isWord c = false ∧ c ≠ '@' := by
  intro c hc
  cases gap with
  | nil =>
    exact ⟨hrest.eq_false_of_head? (fun d hd => isTypeArgumentChar_of_isWord hd) c hc,
      fun heq => hrest.head?_ne (by decide) (heq ▸ hc)⟩
  | cons d gap =>
    obtain rfl : d = c := by simpa using hc
    have hblank := hgap d (by simp)
    exact ⟨isWord_eq_false_of_isBlank hblank, ne_of_kind hblank (by decide)⟩

theorem EndsRun.unsigned_append (hrest : EndsRun rest) (hgap : ∀ c ∈ gap, isBlank c = true)
    (run : Text) : unsigned (run ++ gap ++ rest) = unsigned run ++ (gap ++ rest) := by
  rw [append_assoc]
  by_cases hne : run = []
  · subst hne
    have hsign : (gap ++ rest).head? ≠ some '@' := fun hhead =>
      (hrest.gap_append hgap '@' hhead).2 rfl
    rw [nil_append, unsigned, if_neg (by simpa using hsign)]
    rfl
  · exact SourceAtlas.CSharp.unsigned_append hne _

theorem isNameStart_eq_false_of_isWord (h : isWord c = false) : isNameStart c = false := by
  by_contra hstart
  rw [isWord_of_isNameStart (by simpa using hstart)] at h
  cases h

theorem nameAt?_run_of_isNameStart (index : Nat) (hrun : ∀ c ∈ run, isTypeArgumentChar c = true)
    (hgap : ∀ c ∈ gap, isBlank c = true) (hrest : EndsRun rest) (hopens : opensName before = true)
    (hword : unsigned run = c :: word) (hc : isNameStart c = true) :
    nameAt? before index (run ++ gap ++ rest) =
      (nameAt? before 0 run).bind fun found => (terminatorAt? rest).map fun terminator =>
        ⟨found.name, index, terminator, index + (run ++ gap).length⟩ := by
  have htext : unsigned (run ++ gap ++ rest) = c :: (word ++ (gap ++ rest)) := by
    rw [hrest.unsigned_append hgap, hword, cons_append]
  have hsuffix : (c :: word).dropWhile isWord <:+ run :=
    (dropWhile_suffix _).trans (hword ▸ unsigned_suffix run)
  have hafter : (c :: (word ++ (gap ++ rest))).dropWhile isWord =
      (c :: word).dropWhile isWord ++ gap ++ rest := by
    rw [← cons_append, append_assoc]
    exact dropWhile_append_right (fun d hd => (hrest.gap_append hgap d hd).1) (c :: word)
  have hchars : ∀ d ∈ (c :: word).dropWhile isWord, isTypeArgumentChar d = true :=
    fun d hd => hrun d (hsuffix.subset hd)
  have hnone : EndsRun [] := by simp [EndsRun]
  have hbare := terminated?_run hchars (forall_mem_nil _) hnone
  simp only [append_nil] at hbare
  rw [nameAt?_of_isNameStart hopens htext hc, nameAt?_of_isNameStart hopens hword hc, hafter,
    terminated?_run hchars hgap hrest, hbare]
  generalize (c :: word).dropWhile isWord = after at *
  have hlength : (run ++ gap ++ rest).length - (after ++ gap ++ rest).length =
      run.length - after.length := by
    simp only [length_append]
    omega
  have hname : (run ++ gap ++ rest).take (run.length - after.length) =
      run.take (run.length - after.length) := by
    rw [append_assoc, take_append_of_le_length (Nat.sub_le _ _)]
  have hplace : (run ++ gap ++ rest).length - rest.length = (run ++ gap).length := by
    rw [length_append, Nat.add_sub_cancel]
  simp only [hlength, hname]
  split
  · cases terminatorAt? rest with
    | none => rfl
    | some terminator =>
      simp only [map_some, hplace]
      rfl
  · rfl

/-- A run that is no name is none with a terminator behind it, and a name is found whatever blanks
and terminator come behind its run. -/
theorem nameAt?_run (before : Option Char) (index : Nat)
    (hrun : ∀ c ∈ run, isTypeArgumentChar c = true) (hgap : ∀ c ∈ gap, isBlank c = true)
    (hrest : EndsRun rest) :
    nameAt? before index (run ++ gap ++ rest) =
      (nameAt? before 0 run).bind fun found => (terminatorAt? rest).map fun terminator =>
        ⟨found.name, index, terminator, index + (run ++ gap).length⟩ := by
  by_cases hopens : opensName before = true
  · by_cases hstart : ∃ c word, unsigned run = c :: word ∧ isNameStart c = true
    · obtain ⟨c, word, hword, hc⟩ := hstart
      exact nameAt?_run_of_isNameStart index hrun hgap hrest hopens hword hc
    · rw [nameAt?_of_not_isNameStart, nameAt?_of_not_isNameStart]
      · rfl
      · intro c hc
        obtain ⟨word, hword⟩ := head?_eq_some_iff.mp hc
        by_contra hname
        exact hstart ⟨c, word, hword, by simpa using hname⟩
      · intro c hc
        rw [hrest.unsigned_append hgap] at hc
        cases hword : unsigned run with
        | nil =>
          rw [hword, nil_append] at hc
          exact isNameStart_eq_false_of_isWord (hrest.gap_append hgap c hc).1
        | cons d word =>
          rw [hword] at hc
          obtain rfl : d = c := some.inj hc
          by_contra hname
          exact hstart ⟨d, word, hword, by simpa using hname⟩
  · simp [nameAt?, hopens]

end

/-! ## The search -/

def NameMiss (before : Option Char) (text : Text) : Prop :=
  ∀ index, nameAt? before index text = none

theorem exists_run_append (text : Text) :
    ∃ run rest, text = run ++ rest ∧ (∀ c ∈ run, isTypeArgumentChar c = true) ∧ EndsRun rest := by
  refine ⟨text.takeWhile isTypeArgumentChar, text.dropWhile isTypeArgumentChar,
    takeWhile_append_dropWhile.symm, fun c hc => mem_takeWhile_imp hc, ?_⟩
  intro c hc
  obtain ⟨rest, hrest⟩ := head?_eq_some_iff.mp hc
  exact of_dropWhile_eq_cons hrest

theorem nameAt?_run_eq_none_iff (before : Option Char) (index : Nat) {run gap : Text}
    (hrun : ∀ c ∈ run, isTypeArgumentChar c = true) (hgap : ∀ c ∈ gap, isBlank c = true)
    (hrest : EndsRun rest) :
    nameAt? before index (run ++ gap ++ rest) = none ↔
      nameAt? before 0 run = none ∨ terminatorAt? rest = none := by
  rw [nameAt?_run before index hrun hgap hrest]
  cases nameAt? before 0 run <;> cases terminatorAt? rest <;> simp

theorem nameMiss_of_eq_none (before : Option Char) (index : Nat) (text : Text)
    (h : nameAt? before index text = none) : NameMiss before text := by
  obtain ⟨run, rest, rfl, hrun, hrest⟩ := exists_run_append text
  intro other
  have hnone := fun place =>
    nameAt?_run_eq_none_iff before place hrun (forall_mem_nil _) hrest
  simp only [append_nil] at hnone
  exact (hnone other).mpr ((hnone index).mp h)

theorem terminatorAt?_cons_eq_none (h : terminatorAt? (c :: rest) = none)
    (other : Text) : terminatorAt? (c :: other) = none := by
  by_cases hparen : c = '('
  · subst hparen
    cases h
  by_cases hbrace : c = '{'
  · subst hbrace
    cases h
  by_cases hsemicolon : c = ';'
  · subst hsemicolon
    cases h
  by_cases hassign : c = '='
  · subst hassign
    cases rest with
    | nil => cases h
    | cons d rest =>
      by_cases hd : d = '>'
      · subst hd
        cases h
      · simp [terminatorAt?, hd] at h
  · simp [terminatorAt?, hparen, hbrace, hsemicolon, hassign]

theorem eq_nil_of_terminatorAt? (h : terminatorAt? rest = some .none) : rest = [] := by
  unfold terminatorAt? at h
  split at h
  · rfl
  all_goals cases h

/-- A place where no name stands stays one when blanks and terminator behind the run change. -/
theorem NameMiss.of_run {run gap : Text} (hrun : ∀ c ∈ run, isTypeArgumentChar c = true)
    (hgap : ∀ c ∈ gap, isBlank c = true) (hgap' : ∀ c ∈ gap', isBlank c = true)
    (hrest : EndsRun rest) (hrest' : EndsRun rest') (hterminator : terminatorAt? rest ≠ none)
    (front : Text) (h : NameMiss before (front ++ (run ++ gap ++ rest))) :
    NameMiss before (front ++ (run ++ gap' ++ rest')) := by
  obtain ⟨lead, tail, rfl, hlead, htail⟩ := exists_run_append front
  intro index
  cases tail with
  | nil =>
    have hchars : ∀ c ∈ lead ++ run, isTypeArgumentChar c = true := by
      intro c hc
      rcases mem_append.mp hc with hc | hc
      · exact hlead c hc
      · exact hrun c hc
    have hmiss := nameAt?_run_eq_none_iff before index hchars hgap hrest
    have hmiss' := nameAt?_run_eq_none_iff before index hchars hgap' hrest'
    simp only [append_nil, append_assoc] at h hmiss hmiss' ⊢
    exact hmiss'.mpr (Or.inl ((hmiss.mp (h index)).resolve_right hterminator))
  | cons d tail =>
    have hends : ∀ more : Text, EndsRun (d :: tail ++ more) := by
      intro more c hc
      exact htail c (by simpa using hc)
    have hmiss := fun more =>
      nameAt?_run_eq_none_iff before index hlead (forall_mem_nil _) (hends more)
    simp only [append_nil, append_assoc] at h hmiss ⊢
    refine (hmiss _).mpr (((hmiss _).mp (h index)).imp_right fun hnone => ?_)
    exact terminatorAt?_cons_eq_none hnone _

theorem Unread.nameMiss_of_run {run gap : Text} (hrun : ∀ c ∈ run, isTypeArgumentChar c = true)
    (hgap : ∀ c ∈ gap, isBlank c = true) (hgap' : ∀ c ∈ gap', isBlank c = true)
    (hrest : EndsRun rest) (hrest' : EndsRun rest') (hterminator : terminatorAt? rest ≠ none)
    {lead : Text} (h : Unread NameMiss before lead (run ++ gap ++ rest)) :
    Unread NameMiss before lead (run ++ gap' ++ rest') := by
  induction lead generalizing before with
  | nil => trivial
  | cons c lead ih =>
    exact ⟨NameMiss.of_run hrun hgap hgap' hrest hrest' hterminator (c :: lead) h.1, ih h.2⟩

/-- Where a search stops: no name starts in `lead`, `run` holds the name with its type arguments,
and `rest` starts with the terminator. -/
structure Named.StandsIn (named : Named) (lead run rest : Text) : Prop where
  chars : ∀ c ∈ run, isTypeArgumentChar c = true
  ends : EndsRun rest
  unread : Unread NameMiss none lead (run ++ rest)
  bare : (nameAt? (lastBefore none lead) 0 run).map Named.name = some named.name
  terminates : terminatorAt? rest = some named.terminator
  starts : named.start = lead.length
  place : named.terminatorStart = (lead ++ run).length

theorem exists_standsIn {head : Text} {named : Named}
    (h : searchFrom nameAt? none 0 head = some named) :
    ∃ lead run rest, head = lead ++ (run ++ rest) ∧ named.StandsIn lead run rest := by
  obtain ⟨lead, text, rfl, -, hunread, hfound⟩ := exists_of_searchFrom nameMiss_of_eq_none h
  obtain ⟨run, rest, rfl, hrun, hrest⟩ := exists_run_append text
  have hname := nameAt?_run (lastBefore none lead) (0 + lead.length) hrun
    (forall_mem_nil _) hrest
  rw [append_nil, hfound] at hname
  obtain ⟨bare, hbare, hname⟩ := bind_eq_some_iff.mp hname.symm
  obtain ⟨terminator, hterminator, rfl⟩ := map_eq_some_iff.mp hname
  exact ⟨lead, run, rest, rfl, hrun, hrest, hunread, by rw [hbare]; rfl, hterminator, by simp,
    by simp⟩

namespace Named.StandsIn

variable {named : Named} {lead run rest : Text}

theorem run_ne_nil (h : named.StandsIn lead run rest) : run ≠ [] := by
  rintro rfl
  have hbare := h.bare
  rw [nameAt?_of_not_isNameStart (by simp [unsigned])] at hbare
  cases hbare

theorem searchFrom_eq (h : named.StandsIn lead run rest) :
    searchFrom nameAt? none 0 (lead ++ (run ++ rest)) = some named := by
  obtain ⟨bare, hbare, hname⟩ := map_eq_some_iff.mp h.bare
  have hfound := nameAt?_run (lastBefore none lead) (0 + lead.length) h.chars
    (forall_mem_nil _) h.ends
  rw [append_nil, hbare, h.terminates] at hfound
  refine searchFrom_of_unread h.unread (by simp [h.run_ne_nil]) (hfound.trans ?_)
  have hplace : named.terminatorStart = named.start + run.length := by
    rw [h.place, h.starts, length_append]
  simp [hname, ← h.starts, ← hplace]

/-- The same name is found when the blanks behind it or the text from the terminator on change. -/
theorem congr {gap : Text} {terminator : Terminator} (h : named.StandsIn lead (run ++ gap) rest)
    (hgap : ∀ c ∈ gap, isBlank c = true) (hgap' : ∀ c ∈ gap', isBlank c = true)
    (hrest' : EndsRun rest') (hterminator : terminatorAt? rest' = some terminator) :
    Named.StandsIn ⟨named.name, named.start, terminator, (lead ++ (run ++ gap')).length⟩
      lead (run ++ gap') rest' := by
  have hrun : ∀ c ∈ run, isTypeArgumentChar c = true := fun c hc => h.chars c (by simp [hc])
  have hnone : EndsRun [] := by simp [EndsRun]
  -- blanks behind a run are as good as none
  have hbare : ∀ blanks : Text, (∀ c ∈ blanks, isBlank c = true) →
      (nameAt? (lastBefore none lead) 0 (run ++ blanks)).map Named.name =
        (nameAt? (lastBefore none lead) 0 run).map Named.name := by
    intro blanks hblanks
    have hname := nameAt?_run (lastBefore none lead) 0 hrun hblanks hnone
    rw [append_nil] at hname
    rw [hname]
    cases nameAt? (lastBefore none lead) 0 run <;> rfl
  have hne : terminatorAt? rest ≠ none := by
    rw [h.terminates]
    simp
  refine ⟨?_, hrest', ?_, ?_, hterminator, h.starts, rfl⟩
  · intro c hc
    rcases mem_append.mp hc with hc | hc
    · exact hrun c hc
    · exact isTypeArgumentChar_of_isBlank (hgap' c hc)
  · exact Unread.nameMiss_of_run hrun hgap hgap' h.ends hrest' hne h.unread
  · rw [hbare gap' hgap', ← hbare gap hgap]
    exact h.bare

end Named.StandsIn

end CSharp

end SourceAtlas
