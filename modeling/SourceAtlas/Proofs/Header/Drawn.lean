import SourceAtlas.Proofs.CSharp.SpecialName
import SourceAtlas.Proofs.Marker.Drawn
import SourceAtlas.Proofs.Member.Scan
import SourceAtlas.Proofs.TypeScript.Tokenize
import SourceAtlas.Proofs.TypeText

/-!
# Headers are drawn from the text

The name of a member stands in the text of its header as it is and has no blank at its ends. The
declared type, the signature and the types of the parameters are put together from pieces of that
text.
-/

namespace SourceAtlas

open List Option

variable {before : Option Char} {index : Nat} {named : Named} {parameter : Parameter}

variable {source text : Text} {header : Header}

/-! ## C# headers -/

namespace CSharp

theorem splitAssignment_subset (signature : Text) : (splitAssignment signature).1 ⊆ signature := by
  obtain hsplit | ⟨tail, htail, -⟩ := isSplit_assignmentFrom 0 none none signature
  · change splitAssignment signature = _ at hsplit
    rw [hsplit]
    exact Subset.refl signature
  · exact IsPrefix.subset ⟨'=' :: tail, htail.symm⟩

theorem exists_sign (text : Text) : ∃ sign, text = sign ++ unsigned text ∧ ∀ c ∈ sign, c = '@' := by
  by_cases hsign : text.head? = some '@'
  · obtain ⟨rest, rfl⟩ := head?_eq_some_iff.mp hsign
    exact ⟨['@'], rfl, fun c hc => mem_singleton.mp hc⟩
  · refine ⟨[], ?_, fun c hc => absurd hc not_mem_nil⟩
    rw [unsigned, if_neg (mt beq_iff_eq.mp hsign), nil_append]

theorem name_of_nameAt? (h : nameAt? before index text = some named) :
    named.name ⊆ text ∧ trim named.name = named.name := by
  have hname : text.take (text.length - ((unsigned text).dropWhile isWord).length) = named.name := by
    obtain ⟨hopens, c, word, hword, hc⟩ := exists_unsigned_of_nameAt? h
    rw [nameAt?_of_isNameStart hopens hword hc] at h
    obtain ⟨found, -, rfl⟩ := map_eq_some_iff.mp h
    rw [hword]
  obtain ⟨sign, htext, hsign⟩ := exists_sign text
  generalize unsigned text = word at hname htext
  subst htext
  have hpieces : sign ++ word = sign ++ word.takeWhile isWord ++ word.dropWhile isWord := by
    rw [append_assoc, takeWhile_append_dropWhile]
  rw [hpieces, length_append, Nat.add_sub_cancel, take_left] at hname
  rw [← hname]
  constructor
  · exact IsPrefix.subset ⟨word.dropWhile isWord, hpieces.symm⟩
  · apply trim_of_solid
    intro c hc
    obtain hc | hc := mem_append.mp hc
    · rw [hsign c hc]
      rfl
    · exact isBlank_eq_false_of_isWord (mem_takeWhile_imp hc)

theorem name_of_operatorAt? (h : operatorAt? before index text = some named) :
    named.name ⊆ text ∧ trim named.name = named.name := by
  obtain ⟨-, gap, symbol, space, rest, rfl, -, hsymbol, hchars, -, rfl⟩ := exists_of_operatorAt? h
  constructor
  · exact subset_append_left _ _
  · have hlast := getLast?_eq_some_getLast hsymbol
    have hsolid := (of_isOperatorSymbol (hchars _ (getLast_mem hsymbol))).2
    apply trim_of_ends (c := 'o') rfl rfl _ hsolid
    rw [getLast?_append_of_ne_nil _ hsymbol, hlast]

theorem name_of_indexerAt? (h : indexerAt? before index text = some named) :
    named.name ⊆ text ∧ trim named.name = named.name := by
  obtain ⟨-, -, gap, rest, rfl, -, rfl⟩ := indexerAt?_eq_some_iff.mp h
  exact ⟨subset_append_left _ _, rfl⟩

theorem name_of_named? {head : Text} (h : named? head = some named) :
    named.name ⊆ head ∧ trim named.name = named.name := by
  -- what a search finds in a part of the text is found in the text
  have hsearch : ∀ {read : Option Char → Nat → Text → Option Named} {part : Text}, part ⊆ head →
      (∀ before index text, read before index text = none → ∀ other, read before other text = none) →
      (∀ {before index text}, read before index text = some named →
        named.name ⊆ text ∧ trim named.name = named.name) →
      searchFrom read none 0 part = some named → named.name ⊆ head ∧ trim named.name = named.name := by
    intro read part hpart hmiss hread hfound
    obtain ⟨front, rest, rfl, -, -, hfound⟩ := exists_of_searchFrom hmiss hfound
    exact ⟨Subset.trans (hread hfound).1
      (Subset.trans (subset_append_right front rest) hpart), (hread hfound).2⟩
  obtain hspecial | ⟨-, hname⟩ := or_eq_some_iff.mp h
  · rw [specialName?_eq, or_eq_some_iff] at hspecial
    obtain hindexer | ⟨-, hoperator⟩ := hspecial
    · exact hsearch (prefix_plainFront head).subset readsForward_indexerAt.eq_none_anywhere
        name_of_indexerAt? hindexer
    · exact hsearch (take_subset _ head) readsForward_operatorAt.eq_none_anywhere
        name_of_operatorAt? hoperator
  · exact hsearch (Subset.refl head) nameMiss_of_eq_none name_of_nameAt? hname

theorem tokenize_drawn (h : tokenize text = some header) :
    header.name ⊆ text ∧ trim header.name = header.name ∧ DrawnFrom text header.declaredType := by
  rw [tokenize_eq] at h
  obtain ⟨named, hnamed, rfl⟩ := map_eq_some_iff.mp h
  obtain ⟨hsubset, htrim⟩ := name_of_named? hnamed
  refine ⟨Subset.trans hsubset (splitAssignment_subset text), htrim, ?_⟩
  unfold Named.header
  dsimp only
  split
  · exact drawnFrom_unknownType text
  · apply DrawnFrom.typeOrUnknown
    apply DrawnFrom.of_subset
    exact Subset.trans (trailingType_subset _)
      (Subset.trans (trimRight_subset _) (take_subset _ text))

theorem finishMethod_drawn (text : Text) (close : Nat) (interfaceLike : Bool) :
    DrawnFrom text (finishMethod text close interfaceLike) := by
  have hsignature : DrawnFrom text (trimRight (text.take (close + 1))) :=
    .of_subset (Subset.trans (trimRight_subset _) (take_subset _ text))
  unfold finishMethod
  dsimp only
  split
  · exact hsignature.append (.of_joints (by decide))
  · exact hsignature

theorem finishValue_subset (text : Text) (header : Header) : finishValue text header ⊆ text := by
  have htake : ∀ count, trimRight (text.take count) ⊆ text := fun count =>
    Subset.trans (trimRight_subset _) (take_subset count text)
  unfold finishValue
  dsimp only
  split
  · exact dropEndWhile_subset _ text
  · split
    · split
      · exact htake _
      · exact htake _
    · split
      · split
        · exact htake _
        · exact htake _
      · exact htake _
    · exact htake _

theorem parameter?_drawn (h : parameter? text = some parameter) :
    DrawnFrom text parameter.declaredType := by
  have hpeel : (peelBracketed text).2 ⊆ text := (Dialect.csharp.peel_suffix text).subset
  unfold parameter? at h
  dsimp only at h
  split at h
  · cases h
  · next first others hwords =>
    have hdrawn : DrawnFrom text (joinWith [' '] (first :: others)) := by
      apply DrawnFrom.joinWith_space
      intro word hword
      rw [← hwords] at hword
      apply DrawnFrom.of_subset
      apply Subset.trans (subset_of_mem_words ((dropWhile_sublist _).subset hword))
      split
      · next hsplit =>
        exact Subset.trans (subset_of_mem_splitTopLevel hsplit mem_cons_self) hpeel
      · exact hpeel
    split at h
    · obtain rfl := some.inj h
      exact drawnFrom_unknownType text
    · obtain rfl := some.inj h
      apply DrawnFrom.typeOrUnknown
      exact hdrawn.subset (Subset.trans (trim_subset _) (dropEnd_subset _ _))

end CSharp

/-! ## TypeScript headers -/

namespace TypeScript

theorem resultType_drawn (text : Text) (close : Nat) : DrawnFrom text (resultType text close) := by
  unfold resultType
  dsimp only
  split
  · exact drawnFrom_readType text _
  · exact .nil text

theorem writtenType_drawn (text : Text) (terminator : Terminator) (position : Nat) :
    DrawnFrom text (writtenType text terminator position) := by
  unfold writtenType
  split
  · cases findParen text position with
    | none => exact .nil text
    | some close => exact resultType_drawn text close
  · split
    · exact drawnFrom_readType text _
    · exact .nil text

theorem tokenize_drawn (h : tokenize text = some header) :
    header.name ⊆ text ∧ trim header.name = header.name ∧ DrawnFrom text header.declaredType := by
  obtain ⟨lead, name, after, terminator, rest, -, htext, -, -, rfl⟩ := exists_of_tokenize_eq_some h
  refine ⟨?_, ?_, (writtenType_drawn text _ _).typeOrUnknown⟩
  · rw [htext]
    exact subset_append_of_subset_right lead (subset_append_left _ after)
  · exact trim_of_solid fun c hc => isBlank_eq_false_of_mem_name name hc

theorem finishMethod_drawn (text : Text) (close : Nat) (interfaceLike : Bool) :
    DrawnFrom text (finishMethod text close interfaceLike) := by
  have hhead : DrawnFrom text (trimRight (text.take (close + 1))) :=
    .of_subset (Subset.trans (trimRight_subset _) (take_subset _ text))
  have htyped := (hhead.append (.of_joints (by decide : ": ".toList.all joints.contains = true))).append
    (resultType_drawn text close)
  unfold finishMethod
  dsimp only
  split
  · apply DrawnFrom.append _ (.of_joints (by decide))
    split
    · exact hhead
    · exact htyped
  · split
    · exact hhead
    · exact htyped

theorem finishValue_drawn (htype : DrawnFrom text header.declaredType) :
    DrawnFrom text (finishValue text header) := by
  have htake : DrawnFrom text (text.take (header.nameStart + header.name.length)) :=
    .of_subset (take_subset _ text)
  unfold finishValue
  dsimp only
  split
  · apply DrawnFrom.append _ htype
    apply DrawnFrom.append _ (.of_joints (by decide))
    split
    · exact htake.append (.of_joints (by decide))
    · exact htake.append (.of_joints (by decide))
    · exact htake
  · refine DrawnFrom.subset ?_ (trimRight_subset _)
    split
    · exact htake.append (.of_joints (by decide))
    · exact htake.append (.of_joints (by decide))
    · exact htake

theorem dropParameterWords_subset (parts : List Text) : dropParameterWords parts ⊆ parts := by
  fun_induction dropParameterWords parts with
  | case1 first second rest _ ih => exact subset_cons_of_subset first ih
  | case2 => exact Subset.refl _
  | case3 => exact Subset.refl _

theorem parameter?_drawn (h : parameter? text = some parameter) :
    DrawnFrom text parameter.declaredType := by
  have hpeel : (peelDecorators text).2 ⊆ text := (Dialect.typescript.peel_suffix text).subset
  unfold parameter? at h
  dsimp only at h
  obtain ⟨⟨name, after⟩, hname, h⟩ := bind_eq_some_iff.mp h
  obtain ⟨-, hplain, -⟩ := of_splitName?_eq_some hname
  have hjoin : ∀ value : Text, value ⊆ text →
      DrawnFrom text (joinWith [' '] (dropParameterWords (words value))) := by
    intro value hvalue
    apply DrawnFrom.joinWith_space
    intro word hword
    have hmem := dropParameterWords_subset _ hword
    exact .of_subset (Subset.trans (subset_of_mem_words hmem) hvalue)
  have hafter : DrawnFrom text after := by
    refine DrawnFrom.subset ?_ (subset_append_right name after)
    rw [← hplain]
    refine DrawnFrom.subset (hjoin _ ?_) (getD_subset (Subset.refl _) fun found hfound =>
      dropHead?_subset hfound)
    split
    · next hsplit =>
      exact Subset.trans (subset_of_mem_splitTopLevel hsplit mem_cons_self) hpeel
    · exact hpeel
  split at h
  · obtain rfl := some.inj h
    exact drawnFrom_unknownType text
  · next type hcolon =>
    have htype : type ⊆ after := by
      split at hcolon
      · next more hmark =>
        exact Subset.trans (subset_of_trimLeft_eq_cons hcolon)
          (subset_of_trimLeft_eq_cons hmark)
      · exact subset_of_trimLeft_eq_cons hcolon
    split at h
    · cases h
    · obtain rfl := some.inj h
      exact ((hafter.subset htype).trans (drawnFrom_squeeze type)).typeOrUnknown
  · cases h

end TypeScript

/-! ## Headers of either dialect -/

namespace Dialect

variable {dialect : Dialect}

theorem tokenize_drawn (h : dialect.tokenize text = some header) :
    header.name ⊆ text ∧ trim header.name = header.name ∧ DrawnFrom text header.declaredType := by
  cases dialect with
  | csharp => exact CSharp.tokenize_drawn h
  | typescript => exact TypeScript.tokenize_drawn h

theorem trimmed?_drawn {interfaceLike : Bool} {signature : Text}
    (hheader : dialect.tokenize text = some header)
    (h : dialect.trimmed? interfaceLike text header = some signature) : DrawnFrom text signature := by
  obtain ⟨-, -, htype⟩ := tokenize_drawn hheader
  unfold trimmed? at h
  cases hopen : header.openParen with
  | none =>
    rw [hopen] at h
    obtain rfl := some.inj h
    cases dialect with
    | csharp => exact .of_subset (CSharp.finishValue_subset text header)
    | typescript => exact TypeScript.finishValue_drawn htype
  | some start =>
    rw [hopen] at h
    obtain ⟨close, -, rfl⟩ := map_eq_some_iff.mp h
    cases dialect with
    | csharp => exact CSharp.finishMethod_drawn text close interfaceLike
    | typescript => exact TypeScript.finishMethod_drawn text close interfaceLike

theorem exists_of_mem_getD {parts? : Option (List Text)} {part : Text} (h : part ∈ parts?.getD []) :
    ∃ parts, parts? = some parts ∧ part ∈ parts := by
  cases parts? with
  | none => cases h
  | some parts => exact ⟨parts, rfl, h⟩

theorem parameters_drawn (dialect : Dialect) (signature : Text) :
    ∀ parameter ∈ dialect.parameters signature, DrawnFrom signature parameter.declaredType := by
  intro parameter hparameter
  obtain ⟨entry, hentry, hread⟩ := mem_filterMap.mp hparameter
  have hsubset : entry ⊆ signature := by
    obtain ⟨parts, hparts, hmem⟩ := exists_of_mem_getD hentry
    obtain ⟨header, -, hparts⟩ := bind_eq_some_iff.mp hparts
    obtain ⟨start, -, hparts⟩ := bind_eq_some_iff.mp hparts
    obtain ⟨close, -, hparts⟩ := bind_eq_some_iff.mp hparts
    have hinner := Subset.trans (subset_of_mem_splitTopLevel hparts hmem) (trim_subset _)
    exact Subset.trans hinner (Subset.trans (drop_subset _ _) (take_subset _ _))
  have hdrawn : DrawnFrom entry parameter.declaredType := by
    cases dialect with
    | csharp => exact CSharp.parameter?_drawn hread
    | typescript => exact TypeScript.parameter?_drawn hread
  exact .trans (.of_subset hsubset) hdrawn

end Dialect

end SourceAtlas
