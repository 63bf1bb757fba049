import SourceAtlas.Proofs.CSharp.Signature

/-!
# Members and their headers

A member takes its name and type from the trimmed signature and its kind from the header. Both speak of
the same member, and trimming its signature again changes nothing, unless the header is an indexer with
an open bracket behind an earlier name: what is cut off there is what made it an indexer.
-/

namespace SourceAtlas.CSharp

open List Option

variable {c : Char} {before : Option Char} {index : Nat} {named earlier : Named} {lead text : Text}
  {header : Header}

/-! ## Names at the end of a text -/

theorem dropTypeArguments?_ne_nil {after : Text} (hchars : ∀ d ∈ after, isTypeArgumentChar d = true)
    (hlast : after.getLast? = some c) (hblank : isBlank c = false) (hangle : c ≠ '>') :
    dropTypeArguments? (trimLeft after) ≠ some [] := by
  cases htrim : trimLeft after with
  | nil =>
    have hall : ∀ d ∈ after, isBlank d = true := dropWhile_eq_nil_iff.mp htrim
    rw [hall c (mem_of_mem_getLast? hlast)] at hblank
    cases hblank
  | cons d tail =>
    by_cases hopen : d = '<'
    · subst hopen
      have htrimmed : '<' :: tail <:+ after := htrim ▸ trimLeft_suffix after
      have htake : tail.takeWhile isTypeArgumentChar = tail :=
        takeWhile_eq_self_iff.mpr fun e he =>
          hchars e (htrimmed.subset (mem_cons_of_mem _ he))
      have hends : (trimRight tail).getLast? ≠ some '>' := by
        cases tail with
        | nil => simp [trimRight, dropEndWhile]
        | cons e tail =>
          rw [← getLast?_of_suffix htrimmed (cons_ne_nil _ _),
            getLast?_cons_cons] at hlast
          rw [trimRight_of_getLast? hlast hblank, hlast]
          simpa using hangle
      simp [dropTypeArguments?, htake, hends]
    · rw [dropTypeArguments?_cons hopen]
      simp

/-- A run that ends like a word is a name without type arguments. -/
theorem isWord_of_nameAt? {run : Text} (hchars : ∀ d ∈ run, isTypeArgumentChar d = true)
    (h : nameAt? before index run = some named) (hlast : run.getLast? = some c)
    (hblank : isBlank c = false) (hangle : c ≠ '>') :
    ∀ d ∈ run, isWord d = true ∨ d = '@' := by
  obtain ⟨hopens, e, word, hword, he⟩ := exists_unsigned_of_nameAt? h
  rw [nameAt?_of_isNameStart hopens hword he] at h
  obtain ⟨found, hfound, -⟩ := map_eq_some_iff.mp h
  have hsuffix : (e :: word).dropWhile isWord <:+ run :=
    (dropWhile_suffix _).trans (hword ▸ unsigned_suffix run)
  have hafter : (e :: word).dropWhile isWord = [] := by
    by_contra hne
    generalize (e :: word).dropWhile isWord = after at *
    have hend : after.getLast? = some c := by rw [getLast?_of_suffix hsuffix hne, hlast]
    have hafter : ∀ d ∈ after, isTypeArgumentChar d = true := fun d hd =>
      hchars d (hsuffix.subset hd)
    have hrun := @terminated?_run [] after [] hafter (forall_mem_nil _) (by simp [EndsRun])
    rw [append_nil, append_nil, hfound,
      if_neg (dropTypeArguments?_ne_nil hafter hend hblank hangle)] at hrun
    cases hrun
  have hall : ∀ d ∈ e :: word, isWord d = true := dropWhile_eq_nil_iff.mp hafter
  intro d hd
  by_cases hsign : d = '@'
  · exact Or.inr hsign
  · refine Or.inl (hall d ?_)
    rw [← hword, unsigned]
    split
    · next hhead =>
      obtain ⟨rest, rfl⟩ := head?_eq_some_iff.mp (by simpa using hhead)
      simpa [hsign] using hd
    · exact hd

/-! ## Indexers that stay open -/

/-- Whether a header is an indexer whose bracket stays open, with an earlier name in front of it. -/
def HidesIndexer (text : Text) (header : Header) : Prop :=
  header.terminator = .bracket ∧
    (∃ start, indexOf? ['['] text (header.nameStart + header.name.length) = some start ∧
      findClosing text start '[' ']' = none) ∧
    ∃ earlier, searchFrom nameAt? none 0 (text.take (header.nameStart + header.name.length)) =
      some earlier ∧ earlier.start < header.nameStart

theorem nameAt?_this (h : opensName before = true) (index : Nat) :
    nameAt? before index "this".toList = some ⟨"this".toList, index, .none, index + 4⟩ := by
  unfold nameAt?
  rw [if_pos h]
  rfl

theorem start_of_nameAt? (h : nameAt? before index text = some named) : named.start = index := by
  obtain ⟨hopens, c, word, hword, hc⟩ := exists_unsigned_of_nameAt? h
  rw [nameAt?_of_isNameStart hopens hword hc] at h
  obtain ⟨found, -, rfl⟩ := map_eq_some_iff.mp h
  rfl

/-- A search finds a name that starts in the front of a text, or passes over that front. -/
theorem searchFrom_or_unread (before : Option Char) (index : Nat) (front rest : Text) :
    (∃ named, searchFrom nameAt? before index (front ++ rest) = some named ∧
      named.start < index + front.length) ∨ Unread NameMiss before front rest := by
  induction front generalizing before index with
  | nil => exact Or.inr trivial
  | cons c front ih =>
    rw [cons_append, searchFrom]
    cases hname : nameAt? before index (c :: (front ++ rest)) with
    | some named =>
      refine Or.inl ⟨named, rfl, ?_⟩
      rw [start_of_nameAt? hname, length_cons]
      omega
    | none =>
      rcases ih (some c) (index + 1) with ⟨named, hfound, hstart⟩ | hunread
      · refine Or.inl ⟨named, hfound, ?_⟩
        rw [length_cons]
        omega
      · exact Or.inr ⟨nameMiss_of_eq_none _ _ _ hname, hunread⟩

/-- The first name in front of the bracket is an earlier one or the indexer's own word. -/
theorem searchFrom_this (hopens : opensName (lastBefore none lead) = true) :
    (∃ earlier, searchFrom nameAt? none 0 (lead ++ "this".toList) = some earlier ∧
      earlier.start < lead.length) ∨
    searchFrom nameAt? none 0 (lead ++ "this".toList) =
      some ⟨"this".toList, lead.length, .none, lead.length + 4⟩ := by
  rcases searchFrom_or_unread none 0 lead "this".toList with hearlier | hunread
  · left
    simpa using hearlier
  · right
    have hthis := nameAt?_this hopens lead.length
    rw [hunread.searchFrom_append, Nat.zero_add]
    change searchFrom nameAt? _ _ ('t' :: "his".toList) = _
    rw [searchFrom, show 't' :: "his".toList = "this".toList from rfl, hthis]

theorem getLast?_append_this (lead : Text) : (lead ++ "this".toList).getLast? = some 's' :=
  getLast?_append_of_ne_nil _ (by decide)

/-- Something ends a name that starts in front of the indexer's word. -/
theorem terminator_of_earlier (hopens : opensName (lastBefore none lead) = true)
    (hsearch : searchFrom nameAt? none 0 (lead ++ "this".toList) = some earlier)
    (hstart : earlier.start < lead.length) : earlier.terminator ≠ .none := by
  intro hnone
  obtain ⟨front, run, rest, htext, hin⟩ := exists_standsIn hsearch
  have hends := hin.terminates
  rw [hnone] at hends
  obtain rfl := eq_nil_of_terminatorAt? hends
  rw [append_nil] at htext
  rw [hin.starts] at hstart
  -- the run starts in `lead` and ends with the word
  obtain ⟨inner, rfl, rfl⟩ : ∃ inner, lead = front ++ inner ∧ run = inner ++ "this".toList := by
    rcases append_eq_append_iff.mp htext with ⟨inner, rfl, -⟩ | ⟨inner, hlead, hrun⟩
    · rw [length_append] at hstart
      omega
    · exact ⟨inner, hlead, hrun⟩
  have hinner : inner ≠ [] := by
    rintro rfl
    rw [append_nil] at hstart
    exact Nat.lt_irrefl _ hstart
  obtain ⟨others, c, rfl⟩ := (eq_nil_or_concat inner).resolve_left hinner
  obtain ⟨bare, hbare, -⟩ := map_eq_some_iff.mp hin.bare
  have hword := isWord_of_nameAt? hin.chars hbare (getLast?_append_this _) (by decide) (by decide) c
    (by simp)
  simp only [lastBefore, opensName, getLast?_append, concat_eq_append] at hopens
  rcases hword with hword | rfl
  · simp [hword] at hopens
  · simp at hopens

/-- An earlier name is ended by something, so that trimming cuts once more. -/
theorem trimmed?_ne_of_earlier (hopens : opensName (lastBefore none lead) = true)
    (hspecial : specialName? (splitAssignment (lead ++ "this".toList)).1 = none)
    (hsplit : splitAssignment (lead ++ "this".toList) = (lead ++ "this".toList, .none))
    (hsearch : searchFrom nameAt? none 0 (lead ++ "this".toList) = some earlier)
    (hstart : earlier.start < lead.length)
    (hheader : tokenize (lead ++ "this".toList) = some header) (interfaceLike : Bool) :
    trimmed? interfaceLike (lead ++ "this".toList) header ≠ some (lead ++ "this".toList) := by
  have hends := terminator_of_earlier hopens hsearch hstart
  have hlast := getLast?_append_this lead
  generalize lead ++ "this".toList = text at *
  have hnamed : named? (splitAssignment text).1 = some earlier := by
    rw [named?, hspecial, none_or, hsplit, hsearch]
  have heq : header = earlier.header text (splitAssignment text).2 := by
    rw [tokenize_eq, hnamed, map_some, some.injEq] at hheader
    exact hheader.symm
  have hnone : header.terminator ≠ .none := by simp [heq, Named.header, hends]
  intro htrimmed
  by_cases hparen : header.terminator = .paren
  · obtain ⟨-, front, c, rfl, hc⟩ := isTrimmed_of_paren hnamed heq hparen htrimmed
    rcases hc with rfl | rfl <;> simp at hlast
  cases hkept : keptEnd? text header.terminator earlier.terminatorStart with
  | some close =>
    obtain ⟨hkeeps, -⟩ := isTrimmed_of_keptEnd? interfaceLike hnamed heq hkept
    obtain ⟨-, -, ⟨front, c, hfront, hc⟩, -⟩ := keptEnd?_eq_some hkept
    rw [hkeeps, some.injEq] at htrimmed
    rw [htrimmed] at hfront
    subst hfront
    rcases hc with rfl | rfl <;> simp at hlast
  | none =>
    obtain ⟨signature, hcut, -, hshorter⟩ :=
      isTrimmed_of_plain interfaceLike hnamed heq hspecial hparen hkept
    rw [hcut, some.injEq] at htrimmed
    rw [htrimmed] at hshorter
    exact Nat.lt_irrefl _ (hshorter hnone)

/-- An open indexer: its signature is what stands in front of the blanks and the bracket. -/
structure OpenIndexer (text : Text) (header : Header) (lead : Text) : Prop where
  opens : opensName (lastBefore none lead) = true
  split : splitAssignment (lead ++ "this".toList) = (lead ++ "this".toList, .none)
  special : specialName? (lead ++ "this".toList) = none
  start : header.nameStart = lead.length
  name : header.name = "this".toList
  front : text.take lead.length = lead
  word : text.take (header.nameStart + header.name.length) = lead ++ "this".toList
  type : header.declaredType = (Named.header ⟨"this".toList, lead.length, .none, lead.length + 4⟩
    (lead ++ "this".toList) .none).declaredType
  trimmed : ∀ interfaceLike, trimmed? interfaceLike text header = some (lead ++ "this".toList)

theorem exists_openIndexer (h : named? (splitAssignment text).1 = some named)
    (hheader : header = named.header text (splitAssignment text).2)
    (hends : header.terminator = .bracket)
    (hopen : findClosing text named.terminatorStart '[' ']' = none) :
    ∃ lead, OpenIndexer text header lead := by
  have hbracket : named.terminator = .bracket :=
    Named.terminator_of_header (hheader ▸ hends) (Or.inr (Or.inr rfl))
  obtain ⟨hspecial, lead, gap, rest, htext, hgap, hopens, ⟨more, hhead⟩, hnamed⟩ :=
    exists_indexer h hbracket
  have hname : header.name = "this".toList ∧ header.nameStart = lead.length := by
    rw [hheader, hnamed]
    exact ⟨rfl, rfl⟩
  have hword : header.nameStart + header.name.length = (lead ++ "this".toList).length := by
    rw [hname.1, hname.2, length_append]
  have hlast := getLast?_append_this lead
  have hprefix : lead ++ "this".toList ++ (gap ++ more) = (splitAssignment text).1 := by
    rw [← hhead]
    simp only [append_assoc]
  have htake : text.take lead.length = lead := by rw [htext, take_left]
  refine ⟨lead, hopens, ?_, ?_, hname.2, hname.1, htake, ?_, ?_, fun interfaceLike => ?_⟩
  · exact splitAssignment_of_prefix (by rw [hlast]; decide) ⟨_, hprefix⟩
  · rw [← hprefix] at hspecial
    apply specialName?_eq_none_of_le hspecial
    rw [hnamed]
    simp only [length_append]
    omega
  · rw [hword, htext, ← append_assoc, take_left]
  · rw [hheader, hnamed]
    simp only [Named.header, htake, take_left]
  · have hnone : header.terminator ≠ .none := by simp [hends]
    have hparen : header.terminator ≠ .paren := by simp [hends]
    have hplace : text.take named.terminatorStart = lead ++ "this".toList ++ gap := by
      rw [hnamed, htext, ← append_assoc, ← append_assoc, ← append_assoc,
        take_left]
    have hvalue : header.openParen = none := by
      rw [hheader] at hparen ⊢
      exact if_neg hparen
    rw [trimmed?, hvalue, elim_none,
      finishValue_eq hnone (indexOf?_terminator h hheader hnone hparen), hends, keptEnd?,
      if_pos rfl, hopen, elim_none, hplace, trimRight_append_of_blanks hgap,
      trimRight_of_getLast? hlast (by decide)]

theorem OpenIndexer.isTrimmed (h : OpenIndexer text header lead)
    (hfirst : searchFrom nameAt? none 0 (lead ++ "this".toList) =
      some ⟨"this".toList, lead.length, .none, lead.length + 4⟩) (interfaceLike : Bool) :
    IsTrimmed interfaceLike header.name header.declaredType (lead ++ "this".toList) := by
  refine ⟨_, tokenize_eq_header h.split h.special hfirst, h.name.symm, h.type.symm, ?_⟩
  rw [trimmed?_of_none rfl rfl]
  obtain ⟨front, hfront⟩ := getLast?_eq_some_iff.mp (getLast?_append_this lead)
  rw [hfront, dropEndWhile_append_singleton (by decide)]

/-! ## Members -/

section

variable {text signature : Text} {header : Header} {interfaceLike : Bool}
  (hheader : tokenize text = some header)
  (htrimmed : trimmed? interfaceLike text header = some signature)

include hheader htrimmed

theorem isTrimmed_of_not_hidesIndexer (h : ¬ HidesIndexer text header) :
    IsTrimmed interfaceLike header.name header.declaredType signature := by
  rw [tokenize_eq] at hheader
  obtain ⟨named, hnamed, heq⟩ := map_eq_some_iff.mp hheader
  replace heq := heq.symm
  by_cases hparen : header.terminator = .paren
  · exact (isTrimmed_of_paren hnamed heq hparen htrimmed).1
  cases hkept : keptEnd? text header.terminator named.terminatorStart with
  | some close =>
    obtain ⟨hkeeps, hfinal⟩ := isTrimmed_of_keptEnd? interfaceLike hnamed heq hkept
    rw [hkeeps, some.injEq] at htrimmed
    rwa [← htrimmed]
  | none =>
    rcases or_eq_some_iff.mp hnamed with hspecial | ⟨hspecial, -⟩
    · -- only an indexer is left, and its bracket stays open
      have hends : header.terminator = .bracket := by
        rcases terminator_of_specialName? hspecial with hends | hends
        · simp [heq, Named.header, hends]
        · exact absurd (by simp [heq, Named.header, hends]) hparen
      have hindex := indexOf?_terminator hnamed heq (by simp [hends]) hparen
      rw [hends] at hkept hindex
      obtain ⟨lead, hopen⟩ := exists_openIndexer hnamed heq hends hkept
      rw [hopen.trimmed, some.injEq] at htrimmed
      rcases searchFrom_this hopen.opens with ⟨earlier, hearlier, hstart⟩ | hfirst
      · refine absurd ⟨hends, ⟨_, hindex, hkept⟩, earlier, ?_, ?_⟩ h
        · rw [hopen.word, hearlier]
        · rwa [hopen.start]
      · rw [← htrimmed]
        exact hopen.isTrimmed hfirst interfaceLike
    · obtain ⟨cut, hcut, hfinal, -⟩ :=
        isTrimmed_of_plain interfaceLike hnamed heq hspecial hparen hkept
      rw [hcut, some.injEq] at htrimmed
      rwa [← htrimmed]

theorem trimmed?_ne_of_hidesIndexer (h : HidesIndexer text header) {final : Header}
    (hfinal : tokenize signature = some final) :
    trimmed? interfaceLike signature final ≠ some signature := by
  obtain ⟨hends, ⟨start, hindex, hclose⟩, earlier, hearlier, hstart⟩ := h
  rw [tokenize_eq] at hheader
  obtain ⟨named, hnamed, heq⟩ := map_eq_some_iff.mp hheader
  have hplace := indexOf?_terminator hnamed heq.symm (by simp [hends]) (by simp [hends])
  rw [hends] at hplace
  obtain rfl : start = named.terminatorStart := some.inj (hindex.symm.trans hplace)
  obtain ⟨lead, hopen⟩ := exists_openIndexer hnamed heq.symm hends hclose
  rw [hopen.trimmed, some.injEq] at htrimmed
  subst htrimmed
  rw [hopen.word] at hearlier
  rw [hopen.start] at hstart
  exact trimmed?_ne_of_earlier hopen.opens (by rw [hopen.split]; exact hopen.special) hopen.split
    hearlier hstart hfinal interfaceLike

end

/-- Whether a member has the name and type of a header, and its signature gives the same signature,
name and type once more. -/
def KeepsHeader (interfaceLike : Bool) (header : Header) (member : Member) : Prop :=
  member.name = header.name ∧ member.declaredType = header.declaredType ∧
    ∀ markers follows, ∃ again,
      buildMember? .csharp member.signature markers interfaceLike follows = some again ∧
        again.signature = member.signature ∧ again.name = member.name ∧
        again.declaredType = member.declaredType

/-- A member keeps its header exactly when the header does not hide an indexer. -/
theorem buildMember?_keepsHeader_iff {text : Text} {header : Header} {markers : List Marker}
    {interfaceLike follows : Bool} {member : Member} (hheader : tokenize text = some header)
    (hmember : buildMember? .csharp text markers interfaceLike follows = some member) :
    KeepsHeader interfaceLike header member ↔ ¬ HidesIndexer text header := by
  rw [buildMember?_eq, hheader, bind_some] at hmember
  obtain ⟨signature, htrimmed, hmember⟩ := bind_eq_some_iff.mp hmember
  obtain ⟨final, hfinal, rfl⟩ := map_eq_some_iff.mp hmember
  constructor
  · rintro ⟨-, -, hagain⟩ hhides
    obtain ⟨again, hbuilt, hsame, -⟩ := hagain [] false
    rw [buildMember?_eq, hfinal, bind_some] at hbuilt
    obtain ⟨cut, hcut, hbuilt⟩ := bind_eq_some_iff.mp hbuilt
    obtain ⟨other, -, hother⟩ := map_eq_some_iff.mp hbuilt
    rw [← hother] at hsame
    obtain rfl : cut = signature := hsame
    exact trimmed?_ne_of_hidesIndexer hheader htrimmed hhides hfinal hcut
  · intro hhides
    obtain ⟨again, hagain, hname, htype, hstays⟩ :=
      isTrimmed_of_not_hidesIndexer hheader htrimmed hhides
    obtain rfl : final = again := some.inj (hfinal.symm.trans hagain)
    refine ⟨hname, htype, fun markers follows => ?_⟩
    have hbuilt := buildMember?_eq signature markers interfaceLike follows
    rw [hfinal, bind_some, hstays, bind_some, hfinal, map_some] at hbuilt
    exact ⟨_, hbuilt, rfl, rfl, rfl⟩

def countText : Text :=
  "public int Count \x7b get; set; \x7d = 5;".toList

theorem buildMember?_count_keepsHeader :
    ∃ header member, tokenize countText = some header ∧
      buildMember? .csharp countText [] false false = some member ∧
      member.signature = "public int Count \x7b get; set; \x7d".toList ∧
      KeepsHeader false header member := by
  have hheader : tokenize countText = some
      { name := "Count".toList, declaredType := "int".toList, terminator := .brace, nameStart := 11,
        modifiers := ["public".toList], openParen := none } := by decide +kernel
  have hmember : buildMember? .csharp countText [] false false = some
      { name := "Count".toList, kind := .property, declaredType := "int".toList,
        signature := "public int Count \x7b get; set; \x7d".toList, markers := [] } := by
    decide +kernel
  refine ⟨_, _, hheader, hmember, rfl, ?_⟩
  apply (buildMember?_keepsHeader_iff hheader hmember).mpr
  rintro ⟨hends, -⟩
  cases hends

example :
    (tokenize "public int Width; public int this[int row,".toList).map Header.name =
      some "this".toList ∧
    (buildMember? .csharp "public int Width; public int this[int row,".toList [] false false).map
      Member.name = some "Width".toList := by
  decide +kernel

end SourceAtlas.CSharp
