import SourceAtlas.Proofs.CSharp.Assignment
import SourceAtlas.Proofs.CSharp.NameReader

/-!
# Indexers and operators

An indexer is `this` in front of a bracket, and an operator is `operator` with its symbol in front of a
parenthesis. What the two readers find stays when text is added behind it. Both look only at the text
up to the first parenthesis or brace.
-/

namespace SourceAtlas.CSharp

open List Option

variable {before : Option Char} {index : Nat} {text more front head : Text} {c : Char}
  {named : Named}

/-! ## Searches in a cut text -/

/-- A reader that finds the same wherever it is told to stand and whatever follows its find. -/
def ReadsForward (read : Option Char → Nat → Text → Option Named) : Prop :=
  ∀ {before index text named}, read before index text = some named →
    ∀ other more, (read before other (text ++ more)).isSome = true

theorem readsForward_indexerAt : ReadsForward indexerAt? := by
  intro before index text named h other more
  obtain ⟨hopens, hdot, gap, rest, rfl, hgap, -⟩ := indexerAt?_eq_some_iff.mp h
  rw [isSome_iff_exists]
  exact ⟨_, indexerAt?_eq_some_iff.mpr ⟨hopens, hdot, gap, rest ++ more, by simp, hgap, rfl⟩⟩

theorem readsForward_operatorAt : ReadsForward operatorAt? := by
  intro before index text named h other more
  obtain ⟨hopens, gap, symbol, space, rest, rfl, hgap, hne, hsymbol, hspace, -⟩ :=
    exists_of_operatorAt? h
  have hlonger := operatorAt?_append other hopens hgap hne hsymbol hspace (rest ++ more)
  rw [append_assoc, append_assoc space, cons_append, hlonger, isSome_some]

section

variable {read : Option Char → Nat → Text → Option Named} (hread : ReadsForward read)

include hread

theorem ReadsForward.eq_none (h : read before index (text ++ more) = none) (other : Nat) :
    read before other text = none := by
  rw [eq_none_iff_forall_ne_some]
  intro named hsome
  have hfound := hread hsome index more
  rw [h] at hfound
  cases hfound

theorem ReadsForward.eq_none_anywhere (before : Option Char) (index : Nat) (text : Text)
    (h : read before index text = none) (other : Nat) : read before other text = none := by
  rw [← append_nil text] at h
  exact hread.eq_none h other

theorem ReadsForward.searchFrom_eq_none (h : searchFrom read before index (text ++ more) = none) :
    searchFrom read before index text = none := by
  induction text generalizing before index with
  | nil => rfl
  | cons c text ih =>
    rw [cons_append, searchFrom] at h
    rw [searchFrom]
    split at h
    · cases h
    · next hnone =>
      have hmiss : read before index (c :: text ++ more) = none := hnone
      rw [hread.eq_none hmiss index]
      exact ih h

theorem ReadsForward.unread_cut {rest : Text}
    (h : Unread (fun before text => ∀ index, read before index text = none) before front
      (rest ++ more)) :
    Unread (fun before text => ∀ index, read before index text = none) before front rest := by
  induction front generalizing before with
  | nil => trivial
  | cons c front ih =>
    refine ⟨fun index => ?_, ih h.2⟩
    have hmiss : read before index (c :: (front ++ rest) ++ more) = none := by
      simpa using h.1 index
    exact hread.eq_none hmiss index

end

/-! ## Both searches -/

def plainFront (head : Text) : Text :=
  head.takeWhile fun c => c != '(' && c != '{'

theorem ne_of_mem_plainFront (h : c ∈ plainFront head) : c ≠ '(' ∧ c ≠ '{' := by
  unfold plainFront at h
  simpa using mem_takeWhile_imp h

theorem prefix_plainFront (head : Text) : plainFront head <+: head :=
  takeWhile_prefix _

theorem plainFront_append_prefix (text more : Text) :
    plainFront text <+: plainFront (text ++ more) := by
  unfold plainFront
  rw [takeWhile_append]
  split
  · exact (List.takeWhile_prefix _).trans (prefix_append _ _)
  · exact prefix_rfl

theorem plainFront_append_of_mem (h : '(' ∈ front ∨ '{' ∈ front) (rest : Text) :
    plainFront (front ++ rest) = plainFront front ∧ (plainFront front).length < front.length := by
  have hlt : (plainFront front).length < front.length := by
    refine lt_of_le_of_ne (prefix_plainFront front).length_le fun heq => ?_
    have hall : plainFront front = front := (prefix_plainFront front).eq_of_length heq
    rw [← hall] at h
    rcases h with h | h
    · exact (ne_of_mem_plainFront h).1 rfl
    · exact (ne_of_mem_plainFront h).2 rfl
  refine ⟨?_, hlt⟩
  unfold plainFront at hlt ⊢
  rw [takeWhile_append, if_neg hlt.ne]

theorem specialName?_eq (head : Text) :
    specialName? head = (searchFrom indexerAt? none 0 (plainFront head)).or
      (searchFrom operatorAt? none 0 (head.take ((plainFront head).length + 1))) := by
  have htake : head.take (plainFront head).length = plainFront head :=
    (prefix_iff_eq_take.mp (prefix_plainFront head)).symm
  unfold specialName? plainFront at *
  simp only [htake]
  cases searchFrom indexerAt? none 0 (head.takeWhile fun c => c != '(' && c != '{') <;> rfl

theorem specialName?_append_of_mem (h : '(' ∈ front ∨ '{' ∈ front) (rest : Text) :
    specialName? (front ++ rest) = specialName? front := by
  obtain ⟨hplain, hlt⟩ := plainFront_append_of_mem h rest
  rw [specialName?_eq, specialName?_eq, hplain, take_append_of_le_length hlt]

theorem specialName?_eq_none_of_append (h : specialName? (text ++ more) = none) :
    specialName? text = none := by
  rw [specialName?_eq, or_eq_none_iff] at h ⊢
  obtain ⟨tail, htail⟩ := plainFront_append_prefix text more
  obtain ⟨rest, hrest⟩ : text.take ((plainFront text).length + 1) <+:
      (text ++ more).take ((plainFront (text ++ more)).length + 1) := by
    have hle : (plainFront text).length + 1 ≤ (plainFront (text ++ more)).length + 1 := by
      rw [← htail, length_append]
      omega
    refine IsPrefix.trans ?_ (take_prefix_take_left hle)
    rw [take_append]
    exact prefix_append _ _
  rw [← hrest, ← htail] at h
  exact ⟨readsForward_indexerAt.searchFrom_eq_none h.1,
    readsForward_operatorAt.searchFrom_eq_none h.2⟩

/-! ## Where a special name stands -/

def IndexerMiss (before : Option Char) (text : Text) : Prop :=
  ∀ index, indexerAt? before index text = none

/-- Where the search for an indexer stops: no indexer starts in `lead`, and `gap` parts the word from
its bracket. -/
structure Named.IndexerIn (named : Named) (lead gap rest : Text) : Prop where
  blank : ∀ c ∈ gap, isBlank c = true
  opens : opensName (lastBefore none lead) = true
  undotted : lastBefore none lead ≠ some '.'
  unread : Unread IndexerMiss none lead ("this".toList ++ (gap ++ '[' :: rest))
  eq : named = ⟨"this".toList, lead.length, .bracket, (lead ++ ("this".toList ++ gap)).length⟩

theorem exists_indexerIn (h : searchFrom indexerAt? none 0 front = some named) :
    ∃ lead gap rest, front = lead ++ ("this".toList ++ (gap ++ '[' :: rest)) ∧
      named.IndexerIn lead gap rest := by
  obtain ⟨lead, text, rfl, -, hunread, hfound⟩ :=
    exists_of_searchFrom readsForward_indexerAt.eq_none_anywhere h
  obtain ⟨hopens, hdot, gap, rest, rfl, hgap, rfl⟩ := indexerAt?_eq_some_iff.mp hfound
  exact ⟨lead, gap, rest, rfl, hgap, hopens, hdot, hunread, by simp [length_append]⟩

namespace Named.IndexerIn

variable {named : Named} {lead gap rest : Text}

theorem searchFrom_eq (h : named.IndexerIn lead gap rest) :
    searchFrom indexerAt? none 0 (lead ++ ("this".toList ++ (gap ++ '[' :: rest))) = some named := by
  refine searchFrom_of_unread h.unread (by simp) ?_
  refine indexerAt?_eq_some_iff.mpr ⟨h.opens, h.undotted, gap, rest, rfl, h.blank, ?_⟩
  rw [h.eq, length_append]
  simp

theorem cut (h : named.IndexerIn lead gap (rest ++ more)) : named.IndexerIn lead gap rest := by
  refine ⟨h.blank, h.opens, h.undotted, ?_, h.eq⟩
  have hunread := h.unread
  have htext : "this".toList ++ (gap ++ '[' :: (rest ++ more)) =
      "this".toList ++ (gap ++ '[' :: rest) ++ more := by simp
  rw [htext] at hunread
  exact readsForward_indexerAt.unread_cut hunread

/-- In front of its bracket the indexer is not found, and no other is. -/
theorem searchFrom_eq_none (h : named.IndexerIn lead gap rest)
    (htext : text <+: lead ++ ("this".toList ++ gap)) :
    searchFrom indexerAt? none 0 text = none := by
  have hbracket : '[' ∉ "this".toList ++ gap := by
    intro hmem
    rcases mem_append.mp hmem with hmem | hmem
    · exact absurd hmem (by decide)
    · exact absurd (h.blank _ hmem) (by decide)
  rw [eq_none_iff_forall_ne_some]
  intro other hother
  obtain ⟨front, space, tail, rfl, hin⟩ := exists_indexerIn hother
  obtain ⟨more, hmore⟩ := htext
  rw [append_assoc] at hmore
  rcases append_eq_append_iff.mp hmore with ⟨inner, rfl, hinner⟩ | ⟨inner, rfl, hinner⟩
  · cases inner with
    | nil =>
      rw [nil_append] at hinner
      exact hbracket (by rw [← hinner]; simp)
    | cons d inner =>
      -- the other indexer starts in `lead`, where none starts
      have hmiss := h.unread.right.1 0
      have hfound : (indexerAt? (lastBefore none front) 0
          (d :: (inner ++ ("this".toList ++ (gap ++ '[' :: rest))))).isSome = true := by
        rw [isSome_iff_exists]
        refine ⟨_, indexerAt?_eq_some_iff.mpr ⟨hin.opens, hin.undotted, space,
          tail ++ (more ++ '[' :: rest), ?_, hin.blank, rfl⟩⟩
        have happend := congrArg (· ++ '[' :: rest) hinner
        simpa only [append_assoc, cons_append] using happend.symm
      rw [hmiss] at hfound
      cases hfound
  · exact hbracket (by rw [hinner]; simp)

end Named.IndexerIn

theorem searchFrom_operatorAt?_eq_some
    (h : searchFrom operatorAt? none 0 (head.take ((plainFront head).length + 1)) = some named) :
    named.terminator = .paren ∧ named.start ≤ named.terminatorStart ∧
      named.terminatorStart = (plainFront head).length ∧
      ∃ rest, head = plainFront head ++ '(' :: rest := by
  obtain ⟨lead, text, hhead, -, -, hfound⟩ :=
    exists_of_searchFrom readsForward_operatorAt.eq_none_anywhere h
  obtain ⟨-, gap, symbol, space, rest, rfl, -, -, -, -, rfl⟩ := exists_of_operatorAt? hfound
  have hparen : '(' ∉ plainFront head := fun hmem => (ne_of_mem_plainFront hmem).1 rfl
  obtain ⟨back, hback⟩ := prefix_plainFront head
  have htake : (plainFront head ++ back).take ((plainFront head).length + 1) =
      plainFront head ++ back.take 1 := take_length_add_append 1
  rw [hback] at htake
  rw [htake] at hhead
  generalize hname : "operator".toList ++ gap ++ symbol = name at hhead ⊢
  have hsplit : plainFront head ++ back.take 1 = lead ++ (name ++ space) ++ '(' :: rest := by
    rw [hhead]
    simp
  rcases append_eq_append_cons hsplit with ⟨tail, htail, -⟩ | ⟨inner, hinner, hlead⟩
  · exact absurd (by rw [htail]; simp) hparen
  · cases back with
    | nil => simp at hinner
    | cons c back =>
      have hone : inner = [] ∧ c = '(' := by
        cases inner with
        | nil => exact ⟨rfl, (cons.inj hinner).1⟩
        | cons d inner => simp at hinner
      obtain ⟨rfl, rfl⟩ := hone
      rw [append_nil] at hlead
      refine ⟨rfl, Nat.le_add_right _ _, ?_, back, hback.symm⟩
      rw [← hlead, length_append]
      simp

theorem exists_append_of_length_lt {rest lead tail : Text} (h : front ++ rest = lead ++ c :: tail)
    (hlt : lead.length < front.length) :
    ∃ inner, front = lead ++ c :: inner ∧ tail = inner ++ rest := by
  rcases append_eq_append_cons h with hfront | ⟨inner, -, rfl⟩
  · exact hfront
  · rw [length_append] at hlt
    omega

/-- A special name that ends in the front of a text is found in that front. -/
theorem specialName?_of_append (h : specialName? (text ++ more) = some named)
    (hinside : named.terminatorStart < text.length) :
    specialName? text = some named := by
  have hspecial := h
  rw [specialName?_eq, or_eq_some_iff] at h
  rcases h with hindexer | ⟨-, hoperator⟩
  · obtain ⟨lead, gap, rest, hfront, hin⟩ := exists_indexerIn hindexer
    obtain rfl := hin.eq
    by_cases hmem : '(' ∈ text ∨ '{' ∈ text
    · rw [← specialName?_append_of_mem hmem more, hspecial]
    have hplain : plainFront text = text := by
      rw [plainFront, takeWhile_eq_self_iff]
      intro c hc
      rw [Bool.and_eq_true, bne_iff_ne, bne_iff_ne]
      exact ⟨fun heq => hmem (Or.inl (heq ▸ hc)), fun heq => hmem (Or.inr (heq ▸ hc))⟩
    obtain ⟨back, hback⟩ := plainFront_append_prefix text more
    rw [hplain, hfront, ← append_assoc, ← append_assoc] at hback
    obtain ⟨inner, htext, rfl⟩ := exists_append_of_length_lt hback (by simpa using hinside)
    have hsearch := hin.cut.searchFrom_eq
    rw [← append_assoc, ← append_assoc, ← htext] at hsearch
    rw [specialName?_eq, hplain, hsearch]
    rfl
  · obtain ⟨-, -, hplace, rest, hrest⟩ := searchFrom_operatorAt?_eq_some hoperator
    rw [hplace] at hinside
    obtain ⟨inner, htext, -⟩ := exists_append_of_length_lt hrest hinside
    have hmem : '(' ∈ text := by
      rw [htext]
      simp
    rw [← specialName?_append_of_mem (Or.inl hmem) more, hspecial]

/-- A special name that ends behind a front is not found in that front, and no other is. -/
theorem specialName?_eq_none_of_le (h : specialName? (text ++ more) = some named)
    (houtside : text.length ≤ named.terminatorStart) :
    specialName? text = none := by
  have hhead := prefix_plainFront (text ++ more)
  obtain ⟨back, hback⟩ := plainFront_append_prefix text more
  -- the front holds no parenthesis, so no operator either
  have hnone : text <+: plainFront (text ++ more) →
      searchFrom operatorAt? none 0 (text.take ((plainFront text).length + 1)) = none := by
    intro hplain
    rw [eq_none_iff_forall_ne_some]
    intro other hother
    obtain ⟨-, -, -, rest, hrest⟩ := searchFrom_operatorAt?_eq_some hother
    have hmem : '(' ∈ text := by
      rw [hrest]
      simp
    exact (ne_of_mem_plainFront (hplain.subset hmem)).1 rfl
  rw [specialName?_eq, or_eq_some_iff] at h
  rw [specialName?_eq, or_eq_none_iff]
  rcases h with hindexer | ⟨hindexer, hoperator⟩
  · obtain ⟨lead, gap, rest, hfront, hin⟩ := exists_indexerIn hindexer
    obtain rfl := hin.eq
    have hbefore : lead ++ ("this".toList ++ gap) <+: plainFront (text ++ more) := by
      rw [hfront]
      exact ⟨'[' :: rest, by simp⟩
    have htext : text <+: lead ++ ("this".toList ++ gap) :=
      prefix_of_prefix_length_le (prefix_append text more) (hbefore.trans hhead) houtside
    exact ⟨hin.searchFrom_eq_none ((prefix_plainFront text).trans htext),
      hnone (htext.trans hbefore)⟩
  · obtain ⟨-, -, hplace, -⟩ := searchFrom_operatorAt?_eq_some hoperator
    rw [hplace] at houtside
    rw [← hback] at hindexer
    exact ⟨readsForward_indexerAt.searchFrom_eq_none hindexer,
      hnone (prefix_of_prefix_length_le (prefix_append text more) hhead houtside)⟩

/-! ## The name of a header -/

/-- The name of a header: an indexer or operator, or else a plain name. -/
def named? (head : Text) : Option Named :=
  (specialName? head).or (searchFrom nameAt? none 0 head)

theorem tokenize_eq (signature : Text) :
    tokenize signature = (named? (splitAssignment signature).1).map
      (·.header signature (splitAssignment signature).2) := by
  unfold tokenize named?
  cases hspecial : specialName? (splitAssignment signature).1 <;> simp only [hspecial] <;> rfl

theorem terminator_of_specialName? (h : specialName? head = some named) :
    named.terminator = .bracket ∨ named.terminator = .paren := by
  rw [specialName?_eq, or_eq_some_iff] at h
  rcases h with hindexer | ⟨-, hoperator⟩
  · obtain ⟨lead, gap, rest, -, hin⟩ := exists_indexerIn hindexer
    exact Or.inl (by rw [hin.eq])
  · exact Or.inr (searchFrom_operatorAt?_eq_some hoperator).1

/-- Where a name stands, and the parenthesis that ends it. -/
theorem place_of_named? (h : named? head = some named) :
    named.start ≤ named.terminatorStart ∧ (named.terminator = .paren →
      ∃ lead rest, head = lead ++ '(' :: rest ∧ lead.length = named.terminatorStart) := by
  rcases or_eq_some_iff.mp h with hspecial | ⟨-, hsearch⟩
  · rw [specialName?_eq, or_eq_some_iff] at hspecial
    rcases hspecial with hindexer | ⟨-, hoperator⟩
    · obtain ⟨lead, gap, rest, -, hin⟩ := exists_indexerIn hindexer
      rw [hin.eq, length_append]
      exact ⟨Nat.le_add_right _ _, by simp⟩
    · obtain ⟨-, hle, hplace, rest, hrest⟩ := searchFrom_operatorAt?_eq_some hoperator
      exact ⟨hle, fun _ => ⟨_, rest, hrest, hplace.symm⟩⟩
  · obtain ⟨lead, run, rest, rfl, hin⟩ := exists_standsIn hsearch
    have hterminates := hin.terminates
    refine ⟨by rw [hin.starts, hin.place, length_append]; exact Nat.le_add_right _ _, fun hends => ?_⟩
    rw [hends] at hterminates
    obtain ⟨tail, rfl⟩ : ∃ tail, rest = '(' :: tail := by
      unfold terminatorAt? at hterminates
      split at hterminates <;> cases hterminates
      exact ⟨_, rfl⟩
    exact ⟨lead ++ run, tail, by simp, hin.place.symm⟩

/-- A header whose name nothing ends goes on to the end of the text with the name or its type
arguments. -/
theorem isTypeArgumentChar_of_terminator_eq_none {header : Header} (h : tokenize text = some header)
    (hnone : header.terminator = .none) :
    ∃ c, text.getLast? = some c ∧ isTypeArgumentChar c = true := by
  rw [tokenize_eq] at h
  obtain ⟨named, hnamed, rfl⟩ := map_eq_some_iff.mp h
  have hterminator : named.terminator = .none ∧ (splitAssignment text).2 = .none := by
    by_cases hname : named.terminator = .none
    · simpa [Named.header, hname] using hnone
    · simp [Named.header, hname] at hnone
  rcases isSplit_assignmentFrom 0 none none text with hsplit | ⟨tail, -, hoperator⟩
  · change splitAssignment text = _ at hsplit
    rw [hsplit] at hnamed
    rcases or_eq_some_iff.mp hnamed with hspecial | ⟨-, hsearch⟩
    · rcases terminator_of_specialName? hspecial with hends | hends
      · rw [hends] at hterminator
        cases hterminator.1
      · rw [hends] at hterminator
        cases hterminator.1
    · obtain ⟨lead, run, rest, rfl, hin⟩ := exists_standsIn hsearch
      have hends := hin.terminates
      rw [hterminator.1] at hends
      obtain rfl := eq_nil_of_terminatorAt? hends
      obtain ⟨others, c, rfl⟩ := (eq_nil_or_concat run).resolve_left hin.run_ne_nil
      exact ⟨c, by simp [getLast?_append], hin.chars c (by simp)⟩
  · rw [show (assignmentFrom 0 none none text).2 = .none from hterminator.2] at hoperator
    cases eq_nil_of_terminatorAt? hoperator

end SourceAtlas.CSharp
