import SourceAtlas.Proofs.CSharp.SpecialName
import SourceAtlas.Proofs.Member.Scan

/-!
# Trimmed signatures

The signature of a member is its header cut behind the parameter list, behind a body of bare accessors,
or in front of what ends its name. The cut leaves name and type as they were, and a signature that is
trimmed again stays as it is. One header does not keep to this: an indexer whose bracket stays open,
with an earlier name in front of it.
-/

namespace SourceAtlas.CSharp

open List Option

variable {rest needle inner front more text : Text} {terminator : Terminator} {c : Char}
  {before : Option Char} {index start : Nat} {header : Header}

/-! ## Where terminators stand -/

theorem prefix_terminator_text (h : terminatorAt? rest = some terminator) :
    terminator.text <+: rest := by
  unfold terminatorAt? at h
  split at h <;> cases h
  · exact nil_prefix
  all_goals exact ⟨_, rfl⟩

theorem terminator_text_ne_nil (h : terminator ≠ .none) : terminator.text ≠ [] := by
  cases terminator <;> simp_all [Terminator.text]

theorem endsRun_of_terminatorAt? (h : terminatorAt? rest ≠ none) : EndsRun rest := by
  cases rest with
  | nil => simp [EndsRun]
  | cons c rest =>
    intro d hd
    obtain rfl : c = d := by simpa using hd
    by_contra hchar
    exact h (terminatorAt?_of_isTypeArgumentChar (by simpa using hchar) rest)

theorem terminatorAt?_append {back : Text} (h : terminatorAt? rest = some terminator)
    (hne : terminator ≠ .none) (hback : back.head? ≠ some '>') :
    terminatorAt? (rest ++ back) = some terminator := by
  unfold terminatorAt? at h
  split at h <;> cases h
  · exact absurd rfl hne
  · rfl
  · rfl
  · rfl
  · rfl
  · next tail harrow =>
    cases tail with
    | nil =>
      cases back with
      | nil => rfl
      | cons d back =>
        have hd : d ≠ '>' := by simpa using hback
        simp [terminatorAt?, hd]
    | cons d tail =>
      have hd : d ≠ '>' := by
        rintro rfl
        exact harrow tail rfl
      simp [terminatorAt?, hd]

theorem indexFrom?_append (hinner : c ∉ inner) (hrest : c :: needle <+: rest) (index : Nat) :
    indexFrom? (c :: needle) index (inner ++ rest) = some (index + inner.length) := by
  induction inner generalizing index with
  | nil =>
    obtain ⟨tail, rfl⟩ := hrest
    rw [nil_append, cons_append, indexFrom?, if_pos]
    · rfl
    · exact startsWith_iff.mpr ⟨tail, rfl⟩
  | cons d inner ih =>
    have hd : c ≠ d := by
      rintro rfl
      exact hinner (by simp)
    have hstart : startsWith (c :: needle) (d :: (inner ++ rest)) = false := by
      simp [startsWith, isPrefixOf, hd]
    rw [cons_append, indexFrom?, hstart, ih (fun hmem => hinner (by simp [hmem]))]
    simp only [Bool.false_eq_true, if_false, length_cons]
    congr 1
    omega

/-- The first occurrence behind `lead`. -/
theorem indexOf?_append {lead : Text} (hne : needle ≠ []) (hinner : ∀ c ∈ needle.head?, c ∉ inner)
    (hrest : needle <+: rest) :
    indexOf? needle (lead ++ (inner ++ rest)) lead.length = some (lead ++ inner).length := by
  obtain ⟨c, needle, rfl⟩ := exists_cons_of_ne_nil hne
  rw [indexOf?, if_pos (by simp), drop_left, indexFrom?_append (hinner c rfl) hrest,
    length_append]

/-! ## Names in a text that is cut or goes on -/

theorem Named.StandsIn.cut {named : Named} {lead run rest' : Text}
    (h : named.StandsIn lead run rest) (hrest : terminatorAt? rest' = some named.terminator) :
    named.StandsIn lead run rest' := by
  have hin : named.StandsIn lead (run ++ []) rest := by rwa [append_nil]
  have hends : EndsRun rest' := endsRun_of_terminatorAt? (by rw [hrest]; simp)
  have hcut := hin.congr (forall_mem_nil _) (forall_mem_nil _) hends hrest
  rw [append_nil, ← h.place] at hcut
  exact hcut

/-- A plain name in front of a parenthesis or brace stays what it is when the text behind that
character changes. -/
theorem Named.StandsIn.searchFrom_of_bracket {named : Named} {lead run : Text} {tail : Text}
    (h : named.StandsIn lead run (c :: tail)) (hc : c = '(' ∨ c = '{') (other : Text) :
    searchFrom nameAt? none 0 (lead ++ (run ++ c :: other)) = some named := by
  refine (h.cut ?_).searchFrom_eq
  have hterminates := h.terminates
  rcases hc with rfl | rfl
  · exact hterminates
  · exact hterminates

theorem exists_of_terminatorAt?_bracket (h : terminatorAt? rest = some terminator)
    (hends : terminator = .paren ∨ terminator = .brace) :
    ∃ c tail, rest = c :: tail ∧ (c = '(' ∨ c = '{') := by
  unfold terminatorAt? at h
  split at h <;> cases h <;> simp_all

/-- A name whose parenthesis, brace or bracket stands in the front of a text is the name of that
front. -/
theorem named?_of_append {named : Named} (h : named? (front ++ more) = some named)
    (hinside : named.terminatorStart < front.length)
    (hends : named.terminator = .paren ∨ named.terminator = .brace ∨ named.terminator = .bracket) :
    named? front = some named := by
  rcases or_eq_some_iff.mp h with hspecial | ⟨hnone, hsearch⟩
  · rw [named?, specialName?_of_append hspecial hinside]
    rfl
  · obtain ⟨lead, run, rest, htext, hin⟩ := exists_standsIn hsearch
    have hne : named.terminator ≠ .bracket := by
      intro hbracket
      have hterminates := hin.terminates
      rw [hbracket] at hterminates
      unfold terminatorAt? at hterminates
      split at hterminates <;> cases hterminates
    obtain ⟨c, tail, rfl, hc⟩ := exists_of_terminatorAt?_bracket hin.terminates
      (hends.imp_right fun hends => hends.resolve_right hne)
    rw [hin.place] at hinside
    rw [← append_assoc] at htext
    obtain ⟨inner, rfl, -⟩ := exists_append_of_length_lt htext hinside
    rw [named?, specialName?_eq_none_of_append hnone, append_assoc,
      hin.searchFrom_of_bracket hc inner]
    rfl

theorem named?_append {named : Named} (h : named? front = some named)
    (hends : named.terminator = .paren) (more : Text) : named? (front ++ more) = some named := by
  have hmem : '(' ∈ front := by
    obtain ⟨lead, rest, hfront, -⟩ := (place_of_named? h).2 hends
    rw [hfront]
    simp
  rcases or_eq_some_iff.mp h with hspecial | ⟨hnone, hsearch⟩
  · rw [named?, specialName?_append_of_mem (Or.inl hmem), hspecial]
    rfl
  · obtain ⟨lead, run, rest, rfl, hin⟩ := exists_standsIn hsearch
    obtain ⟨c, tail, rfl, hc⟩ := exists_of_terminatorAt?_bracket hin.terminates (Or.inl hends)
    have hsearch := hin.searchFrom_of_bracket hc (tail ++ more)
    rw [named?, specialName?_append_of_mem (Or.inl hmem), hnone]
    simpa using hsearch

/-! ## Headers in a text that is cut or goes on -/

/-- What ends a name decides the header, with the text in front of the name. -/
theorem Named.header_congr {named : Named} {first second : Text}
    (htake : first.take named.start = second.take named.start) (hends : named.terminator ≠ .none)
    (operator other : Terminator) : named.header first operator = named.header second other := by
  simp [Named.header, htake, hends]

theorem splitAssignment_cut (hlast : front.getLast? ≠ some '=') (more : Text) :
    (splitAssignment front = (front, .none) ∧ front <+: (splitAssignment (front ++ more)).1) ∨
      splitAssignment front = splitAssignment (front ++ more) :=
  (isCutSplit_assignmentFrom 0 none none hlast more).imp_right And.left

theorem prefix_splitAssignment (text : Text) : (splitAssignment text).1 <+: text := by
  rcases isSplit_assignmentFrom 0 none none text with hsplit | ⟨tail, htail, -⟩
  · change splitAssignment text = _ at hsplit
    rw [hsplit]
  · exact ⟨_, htail.symm⟩

theorem splitAssignment_of_prefix (hlast : front.getLast? ≠ some '=')
    (h : front <+: (splitAssignment text).1) : splitAssignment front = (front, .none) := by
  obtain ⟨more, htext⟩ := h.trans (prefix_splitAssignment text)
  rcases splitAssignment_cut hlast more with ⟨hwhole, -⟩ | hsame
  · exact hwhole
  rcases isSplit_assignmentFrom 0 none none front with hsplit | ⟨tail, htail, -⟩
  · exact hsplit
  · -- the front would be split behind its own end
    have hle := h.length_le
    rw [← htext, ← hsame] at hle
    change front = (splitAssignment front).1 ++ '=' :: tail at htail
    have hlength := congrArg length htail
    rw [length_append, length_cons] at hlength
    omega

/-- A header whose parenthesis, brace or bracket stands in the front of a text is the header of that
front. -/
theorem tokenize_of_append {named : Named} (hlast : front.getLast? ≠ some '=')
    (h : named? (splitAssignment (front ++ more)).1 = some named)
    (hinside : named.terminatorStart < front.length)
    (hends : named.terminator = .paren ∨ named.terminator = .brace ∨ named.terminator = .bracket) :
    named? (splitAssignment front).1 = some named ∧
      tokenize front = tokenize (front ++ more) := by
  have hnone : named.terminator ≠ .none := by
    rintro heq
    simp [heq] at hends
  have hnamed : named? (splitAssignment front).1 = some named := by
    rcases splitAssignment_cut hlast more with ⟨hwhole, rest, hrest⟩ | hsame
    · rw [hwhole]
      rw [← hrest] at h
      exact named?_of_append h hinside hends
    · rw [hsame, h]
  have hstart : named.start ≤ front.length := by
    have hle := (place_of_named? h).1
    omega
  refine ⟨hnamed, ?_⟩
  rw [tokenize_eq, tokenize_eq, hnamed, h, map_some, map_some,
    Named.header_congr (take_append_of_le_length hstart).symm hnone]

theorem tokenize_append_of_paren {named : Named} (hlast : front.getLast? ≠ some '=')
    (h : named? (splitAssignment front).1 = some named) (hstart : named.start ≤ front.length)
    (hends : named.terminator = .paren) (more : Text) :
    tokenize (front ++ more) = tokenize front := by
  have hnone : named.terminator ≠ .none := by simp [hends]
  have hnamed : named? (splitAssignment (front ++ more)).1 = some named := by
    rcases splitAssignment_cut hlast more with ⟨hwhole, rest, hrest⟩ | hsame
    · rw [hwhole] at h
      rw [← hrest]
      exact named?_append h hends rest
    · rw [← hsame, h]
  rw [tokenize_eq, tokenize_eq, hnamed, h, map_some, map_some,
    Named.header_congr (take_append_of_le_length hstart) hnone]

/-- Where a plain name stands in a text: `lead` is in front of it, `run` holds it with its type
arguments, and what ends it starts `after`. -/
structure PlainIn (header : Header) (text lead run after : Text) : Prop where
  text_eq : text = lead ++ (run ++ after)
  chars : ∀ c ∈ run, isTypeArgumentChar c = true
  name : header.name <+: run
  solid : ∃ c ∈ run, isBlank c = false
  start : header.nameStart = lead.length
  terminates : terminatorAt? after = some header.terminator
  paren : header.openParen = if header.terminator = .paren then some (lead ++ run).length else none
  cut : ∀ {core gap kept}, run = core ++ gap → (∀ c ∈ gap, isBlank c = true) → core ≠ [] →
    kept <+: gap → tokenize (lead ++ (core ++ kept)) =
      some { header with terminator := .none, openParen := none }

/-- What is read of a name starts the text, and it is not made of blanks. -/
theorem prefix_nameAt?_name {named : Named} (h : nameAt? before index text = some named) :
    named.name <+: text ∧ ∃ c ∈ text, isBlank c = false := by
  obtain ⟨hopens, c, word, hword, hc⟩ := exists_unsigned_of_nameAt? h
  rw [nameAt?_of_isNameStart hopens hword hc] at h
  obtain ⟨found, -, rfl⟩ := map_eq_some_iff.mp h
  refine ⟨List.take_prefix _ _, c, ?_, isBlank_eq_false_of_isWord (isWord_of_isNameStart hc)⟩
  exact (unsigned_suffix text).subset (by rw [hword]; simp)

theorem splitAssignment_operator (text : Text) :
    (splitAssignment text).2 = .none ∨ (splitAssignment text).2 = .arrow ∨
      (splitAssignment text).2 = .assign := by
  rcases isSplit_assignmentFrom 0 none none text with hsplit | ⟨tail, -, hoperator⟩
  · exact Or.inl (congrArg Prod.snd hsplit)
  · change terminatorAt? ('=' :: tail) = some (splitAssignment text).2 at hoperator
    cases tail with
    | nil => exact Or.inr (Or.inr (some.inj hoperator).symm)
    | cons d tail =>
      by_cases hd : d = '>'
      · subst hd
        exact Or.inr (Or.inl (some.inj hoperator).symm)
      · refine Or.inr (Or.inr ?_)
        simpa [terminatorAt?, hd] using hoperator.symm

theorem Named.terminator_of_header {named : Named}
    (h : (named.header text (splitAssignment text).2).terminator = terminator)
    (hends : terminator = .paren ∨ terminator = .brace ∨ terminator = .bracket) :
    named.terminator = terminator := by
  by_cases hnone : named.terminator = .none
  · have hoperator : (splitAssignment text).2 = terminator := by simpa [Named.header, hnone] using h
    have hkinds := splitAssignment_operator text
    rw [hoperator] at hkinds
    rcases hends with rfl | rfl | rfl <;> simp at hkinds
  · simpa [Named.header, hnone] using h

/-- What ends a name ends the header, unless the name reaches up to what is split off. -/
theorem exists_terminatorAt?_split {rest : Text} {named : Named}
    (h : terminatorAt? rest = some named.terminator) :
    ∃ back, text = (splitAssignment text).1 ++ back ∧
      terminatorAt? (rest ++ back) =
        some (named.header text (splitAssignment text).2).terminator := by
  have hends : (named.header text (splitAssignment text).2).terminator =
      if named.terminator = .none then (splitAssignment text).2 else named.terminator := rfl
  rw [hends]
  rcases isSplit_assignmentFrom 0 none none text with hsplit | ⟨tail, htail, hoperator⟩
  · change splitAssignment text = _ at hsplit
    refine ⟨[], by rw [hsplit, append_nil], ?_⟩
    rw [append_nil, h, hsplit]
    split
    · next hnone => rw [hnone]
    · rfl
  · refine ⟨'=' :: tail, htail, ?_⟩
    split
    · next hnone =>
      rw [hnone] at h
      rw [eq_nil_of_terminatorAt? h]
      exact hoperator
    · next hnone => exact terminatorAt?_append h hnone (by simp)

/-- A header that is cut behind its name keeps the name and all that stands in front of it. -/
theorem Named.StandsIn.tokenize_cut {named : Named} {lead core kept dropped : Text}
    (hin : named.StandsIn lead (core ++ (kept ++ dropped)) rest)
    (hhead : (splitAssignment text).1 = lead ++ (core ++ (kept ++ dropped) ++ rest))
    (hspecial : specialName? (splitAssignment text).1 = none)
    (hgap : ∀ c ∈ kept ++ dropped, isBlank c = true) (hcore : core ≠ []) :
    tokenize (lead ++ (core ++ kept)) =
      some { named.header text (splitAssignment text).2 with
        terminator := .none, openParen := none } := by
  have hchars : ∀ c ∈ core ++ kept, isTypeArgumentChar c = true := by
    intro c hc
    exact hin.chars c (by rw [← append_assoc]; exact mem_append_left _ hc)
  have hlast : (lead ++ (core ++ kept)).getLast? ≠ some '=' := by
    rw [getLast?_append_of_ne_nil _ (by simp [hcore])]
    intro hmem
    exact absurd (hchars _ (mem_of_mem_getLast? hmem)) (by decide)
  have hcut : (splitAssignment text).1 = lead ++ (core ++ kept) ++ (dropped ++ rest) := by
    rw [hhead]
    simp
  have hsplit := splitAssignment_of_prefix hlast ⟨_, hcut.symm⟩
  have hends : EndsRun [] := by simp [EndsRun]
  have hkept : ∀ c ∈ kept, isBlank c = true := fun c hc => hgap c (by simp [hc])
  have hfound := (hin.congr hgap hkept hends rfl).searchFrom_eq
  rw [append_nil] at hfound
  rw [hcut] at hspecial
  rw [tokenize_eq_header hsplit (specialName?_eq_none_of_append hspecial) hfound]
  have htake : (lead ++ (core ++ kept)).take named.start = text.take named.start := by
    obtain ⟨back, hback⟩ := prefix_splitAssignment text
    rw [← hback, hcut, hin.starts]
    simp
  simp [Named.header, htake]

theorem exists_plainIn {named : Named} (hspecial : specialName? (splitAssignment text).1 = none)
    (hsearch : searchFrom nameAt? none 0 (splitAssignment text).1 = some named) :
    ∃ lead run after, named.terminatorStart = (lead ++ run).length ∧
      PlainIn (named.header text (splitAssignment text).2) text lead run after := by
  obtain ⟨lead, run, rest, hhead, hin⟩ := exists_standsIn hsearch
  obtain ⟨bare, hbare, hname⟩ := map_eq_some_iff.mp hin.bare
  obtain ⟨hlead, hsolid⟩ := prefix_nameAt?_name hbare
  rw [hname] at hlead
  obtain ⟨back, hback, hafter⟩ := @exists_terminatorAt?_split text rest named hin.terminates
  refine ⟨lead, run, rest ++ back, hin.place, ?_, hin.chars, hlead, hsolid, hin.starts, hafter,
    ?_, ?_⟩
  · rw [hback, hhead]
    simp
  · rw [← hin.place]
    rfl
  · rintro core gap kept rfl hgap hcore ⟨dropped, rfl⟩
    exact hin.tokenize_cut hhead hspecial hgap hcore

/-! ## What is cut -/

/-- The end of a block that a signature keeps: the brackets of an indexer, or a body of bare
accessors. -/
def keptEnd? (text : Text) (terminator : Terminator) (start : Nat) : Option Nat :=
  if terminator = .bracket then findClosing text start '[' ']'
  else if terminator = .brace then (findClosing text start '{' '}').filter fun close =>
    holdsAccessorsOnly ((text.take close).drop (start + 1))
  else none

theorem finishValue_eq (hne : header.terminator ≠ .none)
    (hindex : indexOf? header.terminator.text text (header.nameStart + header.name.length) =
      some start) :
    finishValue text header = (keptEnd? text header.terminator start).elim
      (trimRight (text.take start)) fun close => trimRight (text.take (close + 1)) := by
  simp only [finishValue, if_neg hne, hindex, keptEnd?]
  cases hends : header.terminator with
  | bracket => cases findClosing text start '[' ']' <;> simp
  | brace =>
    cases findClosing text start '{' '}' with
    | none => simp
    | some close =>
      by_cases haccessors : holdsAccessorsOnly ((text.take close).drop (start + 1)) = true
      · simp [Option.filter, haccessors]
      · simp [Option.filter, haccessors]
  | _ => simp

/-- A kept block ends the text up to it and is kept there whatever follows. -/
theorem keptEnd?_eq_some {close : Nat} (h : keptEnd? text terminator start = some close) :
    start ≤ close ∧ (text.take (close + 1)).length = close + 1 ∧
      (∃ front c, text.take (close + 1) = front ++ [c] ∧ (c = ']' ∨ c = '}')) ∧
      (∃ rest, text = text.take (close + 1) ++ rest) ∧
      (terminator = .brace ∨ terminator = .bracket) ∧
      keptEnd? (text.take (close + 1)) terminator start = some close := by
  unfold keptEnd? at h
  split at h
  · next hbracket =>
    obtain ⟨hle, hlength, ⟨front, hfront⟩, ⟨rest, hrest, hmore⟩⟩ := findClosing_eq_some h
    refine ⟨hle, hlength, ⟨front, ']', hfront, Or.inl rfl⟩, ⟨rest, hrest⟩, Or.inr hbracket, ?_⟩
    rw [keptEnd?, if_pos hbracket]
    simpa using hmore []
  · next hbracket =>
    split at h
    · next hbrace =>
      obtain ⟨hclose, haccessors⟩ := filter_eq_some_iff.mp h
      obtain ⟨hle, hlength, ⟨front, hfront⟩, ⟨rest, hrest, hmore⟩⟩ := findClosing_eq_some hclose
      refine ⟨hle, hlength, ⟨front, '}', hfront, Or.inr rfl⟩, ⟨rest, hrest⟩, Or.inl hbrace, ?_⟩
      have hsame := hmore []
      rw [append_nil] at hsame
      have htake : (text.take (close + 1)).take close = text.take close := by
        rw [take_take, Nat.min_eq_left (Nat.le_succ close)]
      rw [keptEnd?, if_neg hbracket, if_pos hbrace, hsame]
      exact filter_eq_some_iff.mpr ⟨rfl, by rw [htake]; exact haccessors⟩
    · cases h

theorem exists_indexer {named : Named}
    (h : named? (splitAssignment text).1 = some named) (hends : named.terminator = .bracket) :
    specialName? (splitAssignment text).1 = some named ∧ ∃ lead gap rest,
      text = lead ++ ("this".toList ++ (gap ++ '[' :: rest)) ∧ (∀ c ∈ gap, isBlank c = true) ∧
      opensName (lastBefore none lead) = true ∧
      lead ++ ("this".toList ++ gap) <+: (splitAssignment text).1 ∧
      named = ⟨"this".toList, lead.length, .bracket, (lead ++ ("this".toList ++ gap)).length⟩ := by
  rcases or_eq_some_iff.mp h with hspecial | ⟨-, hsearch⟩
  · refine ⟨hspecial, ?_⟩
    rw [specialName?_eq, or_eq_some_iff] at hspecial
    rcases hspecial with hindexer | ⟨-, hoperator⟩
    · obtain ⟨lead, gap, rest, hfront, hin⟩ := exists_indexerIn hindexer
      have hhead := prefix_plainFront (splitAssignment text).1
      obtain ⟨more, hmore⟩ := hhead.trans (prefix_splitAssignment text)
      refine ⟨lead, gap, rest ++ more, ?_, hin.blank, hin.opens, ?_, hin.eq⟩
      · rw [← hmore, hfront]
        simp
      · refine IsPrefix.trans ⟨'[' :: rest, ?_⟩ hhead
        rw [hfront]
        simp
    · rw [(searchFrom_operatorAt?_eq_some hoperator).1] at hends
      cases hends
  · obtain ⟨lead, run, rest, -, hin⟩ := exists_standsIn hsearch
    have hterminates := hin.terminates
    rw [hends] at hterminates
    unfold terminatorAt? at hterminates
    split at hterminates <;> cases hterminates

theorem indexOf?_terminator {named : Named} (h : named? (splitAssignment text).1 = some named)
    (hheader : header = named.header text (splitAssignment text).2)
    (hnone : header.terminator ≠ .none) (hparen : header.terminator ≠ .paren) :
    indexOf? header.terminator.text text (header.nameStart + header.name.length) =
      some named.terminatorStart := by
  rcases or_eq_some_iff.mp h with hspecial | ⟨hspecial, hsearch⟩
  · have hends : named.terminator = .bracket ∧ header.terminator = .bracket := by
      rcases terminator_of_specialName? hspecial with hends | hends
      · exact ⟨hends, by simp [hheader, Named.header, hends]⟩
      · exact absurd (by simp [hheader, Named.header, hends]) hparen
    obtain ⟨-, lead, gap, rest, htext, hgap, -, -, rfl⟩ := exists_indexer h hends.1
    have hbracket : ∀ c ∈ ['['].head?, c ∉ gap := by
      intro c hc hmem
      obtain rfl : '[' = c := by simpa using hc
      exact absurd (hgap _ hmem) (by decide)
    have hstart : header.nameStart + header.name.length = (lead ++ "this".toList).length := by
      rw [hheader]
      exact length_append.symm
    have hindex : indexOf? ['['] (lead ++ "this".toList ++ (gap ++ '[' :: rest))
        (lead ++ "this".toList).length = some (lead ++ "this".toList ++ gap).length :=
      indexOf?_append (cons_ne_nil _ _) hbracket ⟨rest, rfl⟩
    simp only [append_assoc lead] at hindex
    rw [hends.2, hstart, htext]
    exact hindex
  · obtain ⟨lead, run, after, hplace, hplain⟩ := exists_plainIn hspecial hsearch
    rw [← hheader] at hplain
    obtain ⟨tail, htail⟩ := hplain.name
    have htext : text = lead ++ header.name ++ (tail ++ after) := by
      rw [hplain.text_eq, ← htail]
      simp
    have hinner : ∀ c ∈ header.terminator.text.head?, c ∉ tail := by
      intro c hc hmem
      have hchar := hplain.chars c (by rw [← htail]; simp [hmem])
      obtain ⟨others, hothers⟩ := head?_eq_some_iff.mp hc
      obtain ⟨rest, hrest⟩ := prefix_terminator_text hplain.terminates
      have hends : EndsRun after := endsRun_of_terminatorAt? (by rw [hplain.terminates]; simp)
      rw [hends c (by rw [← hrest, hothers]; rfl)] at hchar
      cases hchar
    rw [htext, hplain.start, ← length_append, hplace, ← htail, ← append_assoc lead]
    exact indexOf?_append (terminator_text_ne_nil hnone) hinner
      (prefix_terminator_text hplain.terminates)

/-! ## Trimming -/

def trimmed? (interfaceLike : Bool) (text : Text) (header : Header) : Option Text :=
  header.openParen.elim (some (finishValue text header)) fun start =>
    (findParen text start).map fun close => finishMethod text close interfaceLike

/-- Whether a text is a signature with the given name and type that trimming leaves as it is. -/
def IsTrimmed (interfaceLike : Bool) (name type text : Text) : Prop :=
  ∃ header, tokenize text = some header ∧ header.name = name ∧ header.declaredType = type ∧
    trimmed? interfaceLike text header = some text

theorem buildMember?_eq (text : Text) (markers : List Marker) (interfaceLike follows : Bool) :
    buildMember? .csharp text markers interfaceLike follows =
      (tokenize text).bind fun header => (trimmed? interfaceLike text header).bind fun signature =>
        (tokenize signature).map fun final =>
          { name := final.name
            kind := memberKind header markers (follows && header.terminator = .none)
            declaredType := final.declaredType
            signature
            markers } :=
  buildMember?_eq_bind .csharp text markers interfaceLike follows

theorem trimmed?_of_none (hends : header.terminator = .none)
    (hopen : header.openParen = none) (interfaceLike : Bool) (text : Text) :
    trimmed? interfaceLike text header =
      some (dropEndWhile (fun c => c == ' ' || c == ';') text) := by
  simp [trimmed?, hopen, finishValue, hends]

/-- Dropping spaces behind a name leaves the name and the blanks in front of those spaces. -/
theorem exists_dropEndWhile_run {run : Text} (hchars : ∀ c ∈ run, isTypeArgumentChar c = true)
    (hsolid : ∃ c ∈ run, isBlank c = false) :
    ∃ core gap kept, run = core ++ gap ∧ (∀ c ∈ gap, isBlank c = true) ∧ core ≠ [] ∧ kept <+: gap ∧
      ∀ lead, dropEndWhile (fun c => c == ' ' || c == ';') (lead ++ run) = lead ++ (core ++ kept) := by
  obtain ⟨dropped, hrun, hdropped⟩ :=
    exists_append_dropEndWhile (fun c => c == ' ' || c == ';') run
  have hspaces : ∀ c ∈ dropped, isBlank c = true := by
    intro c hc
    have hchar := hchars c (by rw [hrun]; simp [hc])
    rcases Bool.or_eq_true_iff.mp (hdropped c hc) with hspace | hsemicolon
    · rw [beq_iff_eq.mp hspace]
      decide
    · rw [beq_iff_eq.mp hsemicolon] at hchar
      exact absurd hchar (by decide)
  obtain ⟨kept, hkept, hblanks⟩ := exists_append_dropEndWhile isBlank
    (dropEndWhile (fun c => c == ' ' || c == ';') run)
  obtain ⟨c, hmem, hc⟩ := hsolid
  refine ⟨_, kept ++ dropped, kept, by rw [← append_assoc, ← hkept]; exact hrun, ?_, ?_,
    prefix_append _ _, fun lead => ?_⟩
  · intro d hd
    rcases mem_append.mp hd with hd | hd
    · exact hblanks d hd
    · exact hspaces d hd
  · intro hnil
    -- the name's own letters are not dropped
    rw [hkept, hnil, nil_append] at hrun
    rw [hrun] at hmem
    rcases mem_append.mp hmem with hmem | hmem
    · rw [hblanks c hmem] at hc
      cases hc
    · rw [hspaces c hmem] at hc
      cases hc
  · have hstop : (c == ' ' || c == ';') = false := by
      have hspace : c ≠ ' ' := by
        rintro rfl
        exact absurd hc (by decide)
      have hsemicolon : c ≠ ';' := by
        rintro rfl
        exact absurd (hchars _ hmem) (by decide)
      simp [hspace, hsemicolon]
    rw [← hkept]
    exact dropEndWhile_append_of_mem hmem hstop lead

section

variable {header : Header} {text lead run after : Text}
  (hplain : PlainIn header text lead run after) (interfaceLike : Bool)

include hplain

/-- A header that nothing ends loses the blanks and semicolons at its end. -/
theorem PlainIn.isTrimmed_of_none (hnone : header.terminator = .none) :
    IsTrimmed interfaceLike header.name header.declaredType
      (dropEndWhile (fun c => c == ' ' || c == ';') text) := by
  have hafter := hplain.terminates
  rw [hnone] at hafter
  obtain rfl := eq_nil_of_terminatorAt? hafter
  obtain ⟨core, gap, kept, hrun, hgap, hcore, hkept, hcut⟩ :=
    exists_dropEndWhile_run hplain.chars hplain.solid
  have hsignature : dropEndWhile (fun c => c == ' ' || c == ';') text = lead ++ (core ++ kept) := by
    rw [hplain.text_eq, append_nil, hcut]
  have hfinal := hplain.cut hrun hgap hcore hkept
  rw [← hsignature] at hfinal
  refine ⟨_, hfinal, rfl, rfl, ?_⟩
  rw [trimmed?_of_none rfl rfl, dropEndWhile_dropEndWhile]

theorem PlainIn.isTrimmed_cut :
    IsTrimmed interfaceLike header.name header.declaredType (lead ++ trimRight run) := by
  obtain ⟨front, c, htrim, hblank⟩ := exists_trimRight_eq hplain.solid
  obtain ⟨gap, hrun, hgap⟩ := exists_append_dropEndWhile isBlank run
  change run = trimRight run ++ gap at hrun
  have hsolid : trimRight run ≠ [] := by simp [htrim]
  have hcut := hplain.cut hrun hgap hsolid nil_prefix
  rw [append_nil] at hcut
  have hchar : isTypeArgumentChar c = true :=
    hplain.chars c (by rw [hrun, htrim]; simp)
  have hstays : dropEndWhile (fun c => c == ' ' || c == ';') (lead ++ trimRight run) =
      lead ++ trimRight run := by
    have hspace : c ≠ ' ' := by
      rintro rfl
      exact absurd hblank (by decide)
    have hsemicolon : c ≠ ';' := by
      rintro rfl
      exact absurd hchar (by decide)
    rw [htrim, ← append_assoc]
    exact dropEndWhile_append_singleton (by simp [hspace, hsemicolon]) _
  refine ⟨_, hcut, rfl, rfl, ?_⟩
  rw [trimmed?_of_none rfl rfl, hstays]

end

section

variable {text : Text} {named : Named} {header : Header} {interfaceLike : Bool}
  (h : named? (splitAssignment text).1 = some named)
  (hheader : header = named.header text (splitAssignment text).2)

include h hheader

theorem isTrimmed_of_paren {signature : Text} (hparen : header.terminator = .paren)
    (htrimmed : trimmed? interfaceLike text header = some signature) :
    IsTrimmed interfaceLike header.name header.declaredType signature ∧
      ∃ front c, signature = front ++ [c] ∧ (c = ')' ∨ c = ';') := by
  have hends : named.terminator = .paren :=
    Named.terminator_of_header (hheader ▸ hparen) (Or.inl rfl)
  have hopen : header.openParen = some named.terminatorStart := by
    simp [hheader, Named.header, hends]
  rw [trimmed?, hopen] at htrimmed
  obtain ⟨close, hclose, rfl⟩ := map_eq_some_iff.mp htrimmed
  obtain ⟨hle, hlength, ⟨front, hfront⟩, rest, hrest, hmore⟩ := findClosing_eq_some hclose
  generalize hbase : text.take (close + 1) = base at *
  have hlast : base.getLast? ≠ some '=' := by simp [hfront]
  have htrim : trimRight base = base := by
    rw [hfront]
    exact trimRight_append_singleton (by decide) front
  obtain ⟨hnamed, htokens⟩ : named? (splitAssignment base).1 = some named ∧
      tokenize base = tokenize text := by
    rw [hrest] at h ⊢
    exact tokenize_of_append hlast h (by omega) (Or.inl hends)
  have htext : tokenize text = some header := by rw [tokenize_eq, h, map_some, hheader]
  have htake : ∀ more, (base ++ more).take (close + 1) = base := by
    intro more
    rw [← hlength, take_left]
  have hdrop : ∀ more, (base ++ more).drop (close + 1) = more := by
    intro more
    rw [← hlength, drop_left]
  rw [finishMethod]
  simp only [hbase, htrim]
  split
  · next hsemicolon =>
    refine ⟨⟨header, ?_, rfl, rfl, ?_⟩, base, ';', rfl, Or.inr rfl⟩
    · have hstart := (place_of_named? h).1
      rw [tokenize_append_of_paren hlast hnamed (by omega) hends, htokens, htext]
    · have hinterface : interfaceLike = true := (Bool.and_eq_true_iff.mp hsemicolon).1
      have hparen' := hmore [';']
      rw [trimmed?, hopen, elim_some, findParen, hparen', map_some, finishMethod,
        htake, hdrop, htrim, hinterface]
      rfl
  · refine ⟨⟨header, by rw [htokens, htext], rfl, rfl, ?_⟩, front, ')', hfront, Or.inl rfl⟩
    have hparen' := hmore []
    have htake' := htake []
    have hdrop' := hdrop []
    rw [append_nil] at hparen' htake' hdrop'
    rw [trimmed?, hopen, elim_some, findParen, hparen', map_some, finishMethod,
      htake', hdrop', htrim]
    simp [trimLeft]

variable (interfaceLike) in
/-- An indexer or a property with bare accessors keeps its block. -/
theorem isTrimmed_of_keptEnd? {close : Nat}
    (hkept : keptEnd? text header.terminator named.terminatorStart = some close) :
    trimmed? interfaceLike text header = some (text.take (close + 1)) ∧
      IsTrimmed interfaceLike header.name header.declaredType (text.take (close + 1)) := by
  obtain ⟨hle, hlength, ⟨front, c, hfront, hc⟩, ⟨rest, hrest⟩, hends, hsame⟩ :=
    keptEnd?_eq_some hkept
  have hnone : header.terminator ≠ .none := by
    rintro heq
    simp [heq] at hends
  have hparen : header.terminator ≠ .paren := by
    rintro heq
    simp [heq] at hends
  have hopen : header.openParen = none := by
    rw [hheader] at hparen ⊢
    exact if_neg hparen
  have hname : named.terminator = header.terminator :=
    Named.terminator_of_header (congrArg Header.terminator hheader).symm (Or.inr hends)
  have hindex := indexOf?_terminator h hheader hnone hparen
  have htrimmed : trimmed? interfaceLike text header = some (trimRight (text.take (close + 1))) := by
    rw [trimmed?, hopen, elim_none, finishValue_eq hnone hindex, hkept, elim_some]
  generalize text.take (close + 1) = base at *
  have hlast : base.getLast? ≠ some '=' := by
    rcases hc with rfl | rfl <;> simp [hfront]
  have htrim : trimRight base = base := by
    rw [hfront]
    rcases hc with rfl | rfl <;> exact trimRight_append_singleton (by decide) front
  rw [htrim] at htrimmed
  refine ⟨htrimmed, header, ?_⟩
  obtain ⟨hnamed, htokens⟩ : named? (splitAssignment base).1 = some named ∧
      tokenize base = tokenize text := by
    rw [hrest] at h ⊢
    exact tokenize_of_append hlast h (by omega) (by rw [hname]; exact Or.inr hends)
  have hbase : tokenize base = some header := by
    rw [htokens, tokenize_eq, h, map_some, hheader]
  have hheader' : header = named.header base (splitAssignment base).2 := by
    rw [tokenize_eq, hnamed, map_some, some.injEq] at hbase
    exact hbase.symm
  refine ⟨hbase, rfl, rfl, ?_⟩
  have htake : base.take (close + 1) = base := by rw [← hlength, take_length]
  rw [trimmed?, hopen, elim_none,
    finishValue_eq hnone (indexOf?_terminator hnamed hheader' hnone hparen), hsame,
    elim_some, htake, htrim]

variable (interfaceLike) in
theorem isTrimmed_of_plain (hspecial : specialName? (splitAssignment text).1 = none)
    (hparen : header.terminator ≠ .paren)
    (hkept : keptEnd? text header.terminator named.terminatorStart = none) :
    ∃ signature, trimmed? interfaceLike text header = some signature ∧
      IsTrimmed interfaceLike header.name header.declaredType signature ∧
      (header.terminator ≠ .none → signature.length < text.length) := by
  have hsearch : searchFrom nameAt? none 0 (splitAssignment text).1 = some named := by
    rwa [named?, hspecial, none_or] at h
  obtain ⟨lead, run, after, hplace, hplain⟩ := exists_plainIn hspecial hsearch
  rw [← hheader] at hplain
  have hopen : header.openParen = none := by rw [hplain.paren, if_neg hparen]
  by_cases hnone : header.terminator = .none
  · exact ⟨_, trimmed?_of_none hnone hopen interfaceLike text,
      hplain.isTrimmed_of_none interfaceLike hnone, fun hne => absurd hnone hne⟩
  · have hlead : trimRight (text.take named.terminatorStart) = lead ++ trimRight run := by
      obtain ⟨d, hmem, hd⟩ := hplain.solid
      rw [hplace, hplain.text_eq, ← append_assoc, take_left]
      exact dropEndWhile_append_of_mem hmem hd lead
    refine ⟨lead ++ trimRight run, ?_, hplain.isTrimmed_cut interfaceLike, fun _ => ?_⟩
    · rw [trimmed?, hopen, elim_none,
        finishValue_eq hnone (indexOf?_terminator h hheader hnone hparen), hkept,
        elim_none, hlead]
    · have hafter : after ≠ [] := by
        rintro rfl
        exact hnone (some.inj hplain.terminates).symm
      have hpos := length_pos_of_ne_nil hafter
      obtain ⟨gap, hrun, -⟩ := exists_append_dropEndWhile isBlank run
      have hlength := congrArg length hrun
      rw [hplain.text_eq]
      simp only [trimRight, length_append] at hlength ⊢
      omega

end

end SourceAtlas.CSharp
