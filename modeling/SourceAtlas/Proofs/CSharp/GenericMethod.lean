import SourceAtlas.Proofs.CSharp.Tokenize
import SourceAtlas.Proofs.TypeText

/-!
# Generic methods

The type arguments after a name are matched up to the last angle bracket in front of the parameter
list. A generic method is therefore read right exactly when its result type has no type arguments:
otherwise the identifier in front of the first of them passes for the name.
-/

namespace SourceAtlas.CSharp

open List Option

namespace TypeSyntax

variable {shape : TypeShape} {type : TypeSyntax shape}

theorem angle_not_mem_identifier (name : Identifier) : '<' ∉ name.text := fun h =>
  absurd (name.isWord_of_mem h) (by decide)

theorem angle_not_mem_text (h : type.genericName? = none) : '<' ∉ type.text := by
  induction type with
  | root name => exact angle_not_mem_identifier name
  | nested outer name ih =>
    have houter := ih h
    simp [text, houter, angle_not_mem_identifier]
  | generic head arguments ihHead ihArguments => simp [genericName?] at h
  | plain path ih => exact ih h
  | array element ih =>
    have helement := ih h
    simp [text, helement]
  | nullable element ih =>
    have helement := ih h
    simp [text, helement]
  | last type ih => exact ih h
  | more type rest ihType ihRest =>
    simp only [genericName?, or_eq_none_iff] at h
    have htype := ihType h.1
    have hrest := ihRest h.2
    simp [text, htype, hrest]

theorem exists_append_lastName {path : TypeSyntax .path} (h : path.genericName? = none) :
    ∃ front, path.text = front ++ path.lastName.text ∧ ∀ c ∈ front.getLast?, isWord c = false := by
  cases path with
  | root name => exact ⟨[], by simp [text, lastName], by simp⟩
  | nested outer name => exact ⟨outer.text ++ ['.'], by simp [text, lastName], by simp; decide⟩
  | generic head arguments => simp [genericName?] at h

/-- The first angle bracket of a type expression follows the identifier that takes arguments. -/
theorem exists_append_genericName {name : Identifier} (h : type.genericName? = some name) :
    ∃ front rest, type.text = front ++ (name.text ++ '<' :: rest) ∧ '<' ∉ front ∧
      ∀ c ∈ front.getLast?, isWord c = false := by
  -- a text behind the first angle bracket changes nothing in front of it
  have extend : ∀ {text : Text} (more : Text),
      (∃ front rest, text = front ++ (name.text ++ '<' :: rest) ∧ '<' ∉ front ∧
        ∀ c ∈ front.getLast?, isWord c = false) →
      ∃ front rest, text ++ more = front ++ (name.text ++ '<' :: rest) ∧ '<' ∉ front ∧
        ∀ c ∈ front.getLast?, isWord c = false := by
    rintro text more ⟨front, rest, rfl, hangle, hlast⟩
    exact ⟨front, rest ++ more, by simp, hangle, hlast⟩
  induction type with
  | root name => cases h
  | nested outer name ih => exact extend _ (ih h)
  | generic head arguments ihHead ihArguments =>
    simp only [genericName?, or_eq_some_iff] at h
    rcases h with h | ⟨hnone, hlast⟩
    · exact extend _ (ihHead h)
    · obtain rfl := some.inj hlast
      obtain ⟨front, htext, hend⟩ := exists_append_lastName hnone
      refine ⟨front, arguments.text ++ ['>'], by simp [text, htext], ?_, hend⟩
      have hhead := angle_not_mem_text hnone
      rw [htext] at hhead
      exact fun hmem => hhead (mem_append_left _ hmem)
  | plain path ih => exact ih h
  | array element ih => exact extend _ (ih h)
  | nullable element ih => exact extend _ (ih h)
  | last type ih => exact ih h
  | more type others ihType ihOthers =>
    simp only [genericName?, or_eq_some_iff] at h
    rcases h with h | ⟨hnone, hothers⟩
    · exact extend _ (ihType h)
    · obtain ⟨front, rest, htext, hangle, hlast⟩ := ihOthers hothers
      refine ⟨type.text ++ ',' :: ' ' :: front, rest, by simp [text, htext], ?_, ?_⟩
      · simp [angle_not_mem_text hnone, hangle]
      · rcases eq_nil_or_concat front with rfl | ⟨inner, d, rfl⟩
        · simp
          decide
        · simpa [getLast?_append, getLast?_cons] using hlast

end TypeSyntax

def typeParameters (first : Identifier) : List Identifier → TypeSyntax .list
  | [] => .last (.plain (.root first))
  | second :: others => .more (.plain (.root first)) (typeParameters second others)

def genericHead (modifiers : List Modifier) (type : TypeExpr) (name first : Identifier)
    (others : List Identifier) : Text :=
  memberLead modifiers type ++ (TypeSyntax.generic (.root name) (typeParameters first others)).text

def genericMethod (modifiers : List Modifier) (type : TypeExpr) (name first : Identifier)
    (others : List Identifier) (parameters : Text) : Text :=
  genericHead modifiers type name first others ++ '(' :: (parameters ++ [')'])

/-- No declared type holds an angle bracket that the text in front of the name does not hold. -/
theorem Named.angle_not_mem_declaredType {named : Named} {signature : Text} {operator : Terminator}
    (h : '<' ∉ signature.take named.start) :
    '<' ∉ (named.header signature operator).declaredType := by
  have hlead : '<' ∉ trailingType (trimRight (signature.take named.start)) := fun hmem =>
    h (trimRight_subset _ (trailingType_subset _ hmem))
  simp only [header, typeOrUnknown]
  split
  · decide
  · split
    · decide
    · exact hlead

/-- Type arguments reach up to the last angle bracket before the parameter list. -/
theorem dropTypeArguments?_closed {inner : Text}
    (hinner : ∀ c ∈ inner, TypeSyntax.isTypeChar c = true) (rest : Text) :
    dropTypeArguments? ('<' :: (inner ++ '>' :: '(' :: rest)) = some ('(' :: rest) := by
  have hchars : ∀ c ∈ inner ++ ['>'], isTypeArgumentChar c = true := by
    intro c hc
    rcases mem_append.mp hc with hc | hc
    · exact isTypeArgumentChar_of_isTypeChar (hinner c hc)
    · obtain rfl := mem_singleton.mp hc
      decide
  have hrun : (inner ++ '>' :: '(' :: rest).takeWhile isTypeArgumentChar = inner ++ ['>'] := by
    rw [← singleton_append, ← append_assoc]
    exact takeWhile_append_of_stop hchars (by simp; decide)
  simp only [dropTypeArguments?, hrun, trimRight_append_singleton (by decide : isBlank '>' = false)]
  simp

section

variable (modifiers : List Modifier) (type : TypeExpr) (name first : Identifier)
  (others : List Identifier)

theorem isTypeChar_of_mem_genericHead {c : Char}
    (h : c ∈ genericHead modifiers type name first others) : TypeSyntax.isTypeChar c = true := by
  rcases mem_append.mp h with h | h
  · exact isTypeChar_of_mem_memberLead h
  · exact TypeSyntax.isTypeChar_of_mem_text _ h

/-- Whatever the parameters are, nothing in front of them is split off. -/
theorem exists_splitAssignment_genericMethod (parameters : Text) :
    ∃ rest operator, splitAssignment (genericMethod modifiers type name first others parameters) =
      (genericHead modifiers type name first others ++ '(' :: rest, operator) := by
  have hhead : ∀ c ∈ genericHead modifiers type name first others ++ ['('],
      isUnassigned c = true := by
    intro c hc
    rcases mem_append.mp hc with hc | hc
    · exact isUnassigned_of_isTypeChar (isTypeChar_of_mem_genericHead _ _ _ _ _ hc)
    · obtain rfl := mem_singleton.mp hc
      decide
  obtain ⟨inner, last, hsplit⟩ := exists_assignmentFrom_append hhead 0 none
  have hparameters := hsplit (parameters ++ [')'])
  simp only [append_assoc, singleton_append] at hparameters
  exact ⟨_, _, hparameters⟩

theorem specialName?_genericHead (rest : Text) :
    specialName? (genericHead modifiers type name first others ++ '(' :: rest) = none := by
  have hnone : specialName? (memberLead modifiers type ++
      (TypeSyntax.generic (.root name) (typeParameters first others)).text ++ [] ++ '(' :: rest) =
      none := specialName?_eq_none modifiers type _ (by simp) (by simp)
  rwa [append_nil] at hnone

/-- The first angle bracket of a generic method follows the identifier in front of the first type
arguments: one of the result type, or the method's own name. -/
theorem exists_genericHead_eq :
    ∃ front inner, genericHead modifiers type name first others =
        front ++ ((type.genericName?.getD name).text ++ '<' :: (inner ++ ['>'])) ∧
      '<' ∉ front ∧ (∀ c ∈ front.getLast?, isWord c = false) ∧
      (type.genericName? = none → front = memberLead modifiers type) := by
  have hmodifiers : '<' ∉ modifierText modifiers := by
    simp only [modifierText, mem_flatMap, mem_append, mem_singleton, not_exists]
    rintro modifier ⟨-, h | h⟩
    · exact absurd (modifier.isWord_of_mem _ h) (by decide)
    · exact absurd h (by decide)
  cases htype : type.genericName? with
  | none =>
    refine ⟨memberLead modifiers type, (typeParameters first others).text, ?_, ?_, ?_, ?_⟩
    · simp [genericHead, TypeSyntax.text]
    · simp [memberLead, hmodifiers, TypeSyntax.angle_not_mem_text htype]
    · simp [memberLead]
      decide
    · exact fun _ => rfl
  | some generic =>
    obtain ⟨front, rest, htext, hangle, hlast⟩ := TypeSyntax.exists_append_genericName htype
    refine ⟨modifierText modifiers ++ front,
      rest ++ ' ' :: (name.text ++ '<' :: (typeParameters first others).text), ?_, ?_, ?_, ?_⟩
    · simp [genericHead, memberLead, TypeSyntax.text, htext]
    · simp [hmodifiers, hangle]
    · rcases eq_nil_or_concat front with rfl | ⟨inner, c, rfl⟩
      · intro c hc
        rw [getLast?_modifierText modifiers c (by simpa using hc)]
        decide
      · simpa [getLast?_append] using hlast
    · exact fun h => absurd h (by simp)

end

/-- The search for a name takes the identifier in front of the first angle bracket. -/
theorem searchFrom_angle {front inner : Text} (found : Identifier)
    (hchars : ∀ c ∈ front ++ (found.text ++ '<' :: (inner ++ ['>'])),
      TypeSyntax.isTypeChar c = true)
    (hangle : '<' ∉ front) (hlast : ∀ c ∈ front.getLast?, isWord c = false) (rest : Text) :
    searchFrom nameAt? none 0 (front ++ (found.text ++ '<' :: (inner ++ ['>'])) ++ '(' :: rest) =
      some ⟨found.text, front.length, .paren,
        (front ++ (found.text ++ '<' :: (inner ++ ['>']))).length⟩ := by
  have harguments : dropTypeArguments? (trimLeft ('<' :: (inner ++ '>' :: '(' :: rest))) =
      some ('(' :: rest) := by
    rw [trimLeft_cons_of_not_blank (by decide)]
    exact dropTypeArguments?_closed (fun c hc => hchars c (by simp [hc])) rest
  have hsearch := searchFrom_nameAt? found (fun c hc => hchars c (by simp [hc])) hlast
    (Or.inl hangle) (by simp; decide) harguments rfl
  simp only [append_assoc, cons_append, nil_append] at hsearch ⊢
  rw [hsearch]
  simp only [length_append, length_cons, length_nil, some.injEq,
    Named.mk.injEq, true_and]
  omega

/-- A generic method is read with the parenthesis behind its type parameters. Its name and type are
found when the result type has no type arguments and is no modifier; otherwise the identifier in
front of the first type arguments is taken for the name, and the type is lost. -/
theorem tokenize_genericMethod (modifiers : List Modifier) (type : TypeExpr)
    (name first : Identifier) (others : List Identifier) (parameters : Text) :
    ∃ header, tokenize (genericMethod modifiers type name first others parameters) = some header ∧
      header.terminator = .paren ∧
      header.openParen = some (genericHead modifiers type name first others).length ∧
      header.name = (type.genericName?.getD name).text ∧
      (header.declaredType = type.text ↔
        type.genericName? = none ∧ type.text ∉ modifierWords) := by
  obtain ⟨rest, operator, hsplit⟩ :=
    exists_splitAssignment_genericMethod modifiers type name first others parameters
  obtain ⟨front, inner, hhead, hangle, hlast, hfront⟩ :=
    exists_genericHead_eq modifiers type name first others
  have hchars : ∀ c ∈ genericHead modifiers type name first others,
      TypeSyntax.isTypeChar c = true :=
    fun _ hc => isTypeChar_of_mem_genericHead modifiers type name first others hc
  have hspecial := specialName?_genericHead modifiers type name first others rest
  have hsearch := searchFrom_angle (type.genericName?.getD name) (hhead ▸ hchars) hangle hlast rest
  rw [← hhead] at hsearch
  refine ⟨_, tokenize_eq_header hsplit hspecial hsearch, rfl, rfl, rfl, ?_⟩
  cases htype : type.genericName? with
  | none =>
    obtain rfl := hfront htype
    rw [genericMethod, genericHead, append_assoc, Named.header_memberLead _ _ _ _ rfl]
    by_cases hmodifier : type.text ∈ modifierWords
    · have hunknown : unknownType ≠ type.text := fun heq =>
        absurd (heq ▸ hmodifier) (by decide : unknownType ∉ modifierWords)
      simp [hmodifier, hunknown]
    · simp [hmodifier]
  | some generic =>
    obtain ⟨_, _, htext, -⟩ := TypeSyntax.exists_append_genericName htype
    have htake : (genericMethod modifiers type name first others parameters).take front.length =
        front := by
      simp [genericMethod, hhead]
    refine iff_of_false (fun heq => ?_) (by simp)
    have hmem : '<' ∈ type.text := by simp [htext]
    rw [← heq] at hmem
    exact Named.angle_not_mem_declaredType (by rw [htake]; exact hangle) hmem

example : (tokenize "public Task<T> Get<T>(int id)".toList).map
    (fun header => (header.name, header.declaredType)) = some ("Task".toList, unknownType) := by
  decide +kernel

end SourceAtlas.CSharp
