import SourceAtlas.Proofs.Declaration.Search
import SourceAtlas.Proofs.TypeScript.Tokenize

/-!
# The extent of a type header

A header covers a non-empty front of the text it is read from, and that front starts with one of
the words that may open a declaration. The first part says for both dialects where a name and its
clauses are found; the second part carries it over to all headers of a text, which come in order and
do not overlap.
-/

namespace SourceAtlas

open List Option

variable {text keyword rest start name after clause : Text} {kind : TypeKind}
  {bases interfaces : Option Text} {last : Char} {before : Option Char} {header : TypeHeader}
  {dialect : Dialect} {stop : Nat} {declaration : Declaration} {place : Char × Text}
  {keywords : List (Text × TypeKind)}

theorem skipModifiers_suffix (modifiers : List Text) (text : Text) :
    skipModifiers modifiers text <:+ text := by
  fun_induction skipModifiers modifiers text with
  | case1 text hnone => exact suffix_rfl
  | case2 text rest hword hlt ih => exact ih.trans (dropWord?_suffix hword)
  | case3 text rest hword hnot => exact dropWord?_suffix hword

theorem skipModifiers_eq_or_prefix (modifiers : List Text) (text : Text) :
    skipModifiers modifiers text = text ∨ ∃ word ∈ modifiers, word <+: text := by
  cases hword : dropWord? modifiers text with
  | none =>
    left
    rw [skipModifiers, hword]
  | some rest =>
    right
    obtain ⟨word, hmem, c, tail, rfl, -, -⟩ := dropWord?_eq_some hword
    exact ⟨word, hmem, prefix_append word (c :: tail)⟩

theorem keywordAt?_eq_some (h : keywordAt? keywords text = some (keyword, kind, rest)) :
    (keyword, kind) ∈ keywords ∧ dropWord? [keyword] text = some rest := by
  obtain ⟨entry, hmem, hentry⟩ := exists_of_findSome?_eq_some h
  obtain ⟨after, hafter, heq⟩ := map_eq_some_iff.mp hentry
  obtain ⟨rfl, rfl, rfl⟩ : entry.1 = keyword ∧ entry.2 = kind ∧ after = rest := by
    simpa [Prod.ext_iff] using heq
  exact ⟨hmem, hafter⟩

/-- The text after a keyword and its modifiers is a shorter end of the text, which itself starts
with one of these words. -/
theorem keywordAt?_skipModifiers {modifiers : List Text}
    (h : keywordAt? keywords (skipModifiers modifiers text) = some (keyword, kind, rest)) :
    rest <:+ text ∧ rest.length < text.length ∧
      ∃ word ∈ modifiers ++ keywords.map Prod.fst, word <+: text := by
  obtain ⟨hmem, hword⟩ := keywordAt?_eq_some h
  have hskip := skipModifiers_suffix modifiers text
  refine ⟨(dropWord?_suffix hword).trans hskip,
    (length_lt_of_dropWord? hword).trans_le hskip.length_le, ?_⟩
  rcases skipModifiers_eq_or_prefix modifiers text with hsame | ⟨word, hmod, hprefix⟩
  · rw [hsame] at hword
    obtain ⟨word, hone, c, tail, rfl, -, -⟩ := dropWord?_eq_some hword
    obtain rfl := mem_singleton.mp hone
    refine ⟨word, mem_append_right _ ?_, prefix_append word (c :: tail)⟩
    exact mem_map.mpr ⟨(word, kind), hmem, rfl⟩
  · exact ⟨word, mem_append_left _ hmod, hprefix⟩

/-! ## Clauses -/

theorem clauseUpTo_append (stops : Char → Text → Bool) (text : Text) :
    (clauseUpTo stops text).1 ++ (clauseUpTo stops text).2 = text := by
  induction text with
  | nil => rfl
  | cons c rest ih =>
    rw [clauseUpTo]
    split
    · rfl
    · simp [ih]

theorem clauseUpTo_ne_nil (stops : Char → Text → Bool) (hne : text ≠ []) :
    (clauseUpTo stops text).1 ≠ [] := by
  obtain ⟨c, rest, rfl⟩ := exists_cons_of_ne_nil hne
  rw [clauseUpTo]
  split <;> simp

/-- The clause behind a colon or a word, and the text after it. When nothing but blanks comes before
one of the `ends`, the last of them is the clause. -/
def clauseBehind (ends : Char → Bool) (stops : Char → Text → Bool) (after : Text) :
    Option (Text × Text) :=
  if (trimLeft after).head?.all ends then
    (after.takeWhile isBlank).getLast?.map fun blank => ([blank], trimLeft after)
  else some (clauseUpTo stops (trimLeft after))

theorem clauseBehind_extent {ends : Char → Bool} {stops : Char → Text → Bool}
    (h : clauseBehind ends stops after = some (clause, rest)) :
    clause ≠ [] ∧ clause ++ rest <:+ after := by
  unfold clauseBehind at h
  split at h
  · obtain ⟨blank, hblank, heq⟩ := map_eq_some_iff.mp h
    cases heq
    obtain ⟨gap, hgap⟩ := getLast?_eq_some_iff.mp hblank
    refine ⟨cons_ne_nil _ _, gap, ?_⟩
    rw [← append_assoc, ← hgap, takeWhile_isBlank_append_trimLeft]
  · next hnot =>
    have hne : trimLeft after ≠ [] := by
      intro hnil
      exact hnot (by rw [hnil]; rfl)
    have hclause := clauseUpTo_ne_nil stops hne
    have hwhole := clauseUpTo_append stops (trimLeft after)
    rw [some.inj h] at hclause hwhole
    exact ⟨hclause, hwhole ▸ trimLeft_suffix after⟩

/-- Whether `read` finds a clause, or none is taken and the text is left as it is. -/
def OptionalClause (read : Text → Option (Text × Text)) (text : Text) (found : Option Text)
    (rest : Text) : Prop :=
  (∃ clause, found = some clause ∧ read text = some (clause, rest)) ∨ found = none ∧ rest = text

theorem OptionalClause.extent {read : Text → Option (Text × Text)} {found : Option Text}
    (h : OptionalClause read text found rest)
    (hread : ∀ {clause}, read text = some (clause, rest) → clause ++ rest <:+ text) :
    rest <:+ text ∧ ∀ clause ∈ found, clause ⊆ text := by
  rcases h with ⟨clause, rfl, hclause⟩ | ⟨rfl, rfl⟩
  · have hsuffix := hread hclause
    refine ⟨(suffix_append clause rest).trans hsuffix, fun other hother => ?_⟩
    obtain rfl := some.inj hother
    exact Subset.trans (subset_append_left clause rest) hsuffix.subset
  · exact ⟨suffix_rfl, fun other hother => by cases hother⟩

namespace CSharp

theorem typeParametersEnd_suffix {nested : Bool} (h : typeParametersEnd nested text = some rest) :
    '>' :: rest <:+ text := by
  induction text generalizing nested with
  | nil => cases h
  | cons c text ih =>
    rw [typeParametersEnd] at h
    split_ifs at h with hopen hnested hclose hnested hstop
    · exact (ih h).trans (suffix_cons c text)
    · exact (ih h).trans (suffix_cons c text)
    · obtain rfl := hclose
      cases h
      exact suffix_rfl
    · exact (ih h).trans (suffix_cons c text)

theorem dropTypeParameters?_eq_some_iff :
    dropTypeParameters? text = some rest ↔
      ∃ tail, trimLeft text = '<' :: tail ∧ typeParametersEnd false tail = some rest := by
  unfold dropTypeParameters?
  split
  · next tail htrim => simp [htrim]
  · next hother => simp [show ∀ tail, trimLeft text ≠ '<' :: tail from hother]

theorem dropParameterList?_eq_some_iff :
    dropParameterList? text = some rest ↔
      ∃ tail c, trimLeft text = '(' :: tail ∧ tail.dropWhile (· ≠ ')') = c :: rest := by
  unfold dropParameterList?
  split
  · next tail htrim =>
    simp only [htrim, cons.injEq, true_and, exists_and_left, exists_eq_left']
    cases tail.dropWhile (· ≠ ')') <;> simp
  · next hother => simp [show ∀ tail, trimLeft text ≠ '(' :: tail from hother]

theorem dropTypeParameters?_suffix (h : dropTypeParameters? text = some rest) : rest <:+ text := by
  obtain ⟨tail, htrim, hend⟩ := dropTypeParameters?_eq_some_iff.mp h
  have hrest : rest <:+ tail := (suffix_cons '>' rest).trans (typeParametersEnd_suffix hend)
  exact hrest.trans (suffix_of_trimLeft_eq_cons htrim)

theorem dropParameterList?_suffix (h : dropParameterList? text = some rest) : rest <:+ text := by
  obtain ⟨tail, c, htrim, hdrop⟩ := dropParameterList?_eq_some_iff.mp h
  have hrest : rest <:+ tail.dropWhile (· ≠ ')') := hdrop ▸ suffix_cons c rest
  exact (hrest.trans (dropWhile_suffix _)).trans (suffix_of_trimLeft_eq_cons htrim)

def endsBases (c : Char) : Bool :=
  c == '{' || c == ';'

theorem basesAt?_of_colon (h : trimLeft text = ':' :: after) :
    basesAt? text = clauseBehind endsBases closesHeader after := by
  unfold basesAt? clauseBehind
  rw [h]
  cases hrest : trimLeft after with
  | nil => simp [hrest]
  | cons c rest => simp [hrest, endsBases]

theorem exists_colon_of_basesAt? (h : (basesAt? text).isSome) :
    ∃ after, trimLeft text = ':' :: after := by
  unfold basesAt? at h
  split at h
  · next after htrim => exact ⟨after, htrim⟩
  · cases h

theorem basesAt?_extent (h : basesAt? text = some (clause, rest)) :
    clause ≠ [] ∧ clause ++ rest <:+ text := by
  obtain ⟨after, htrim⟩ := exists_colon_of_basesAt? (isSome_of_eq_some h)
  rw [basesAt?_of_colon htrim] at h
  exact (clauseBehind_extent h).imp_right (·.trans (suffix_of_trimLeft_eq_cons htrim))

theorem clausesAt?_eq_some (h : clausesAt? last text = some (bases, rest)) :
    OptionalClause basesAt? text bases rest ∧ (bases = none → closesHeader last text = true) := by
  unfold clausesAt? at h
  split at h
  · next clause after hbases =>
    cases h
    exact ⟨Or.inl ⟨clause, rfl, hbases⟩, fun hnone => by cases hnone⟩
  · obtain ⟨hcloses, heq⟩ := ite_none_right_eq_some.mp h
    cases heq
    exact ⟨Or.inr ⟨rfl, rfl⟩, fun _ => hcloses⟩

theorem clausesAt?_extent (h : clausesAt? last text = some (bases, rest)) :
    rest <:+ text ∧ ∀ clause ∈ bases, clause ⊆ text :=
  (clausesAt?_eq_some h).1.extent fun hclause => (basesAt?_extent hclause).2

theorem mem_clauseStarts :
    place ∈ clauseStarts last text ↔
      ∃ generic, ((∃ rest, dropTypeParameters? text = some rest ∧ ('>', rest) = generic) ∨
          generic = (last, text)) ∧
        ((∃ rest, dropParameterList? generic.2 = some rest ∧ (')', rest) = place) ∨
          place = generic) := by
  simp only [clauseStarts, mem_flatMap, mem_append, List.mem_map, mem_toList, mem_singleton]

theorem clauseStarts_suffix (h : place ∈ clauseStarts last text) : place.2 <:+ text := by
  obtain ⟨generic, hgeneric, hplace⟩ := mem_clauseStarts.mp h
  have hsuffix : generic.2 <:+ text := by
    rcases hgeneric with ⟨rest, hrest, rfl⟩ | rfl
    · exact dropTypeParameters?_suffix hrest
    · exact suffix_rfl
  rcases hplace with ⟨rest, hrest, rfl⟩ | rfl
  · exact (dropParameterList?_suffix hrest).trans hsuffix
  · exact hsuffix

/-- The places behind a name and its lists at which the clauses may start, each with the character in
front of it. -/
def namedEnds (text : Text) : List (Char × Text) :=
  text.head?.toList.flatMap fun c =>
    if isNameStart c then
      clauseStarts ((text.takeWhile isWord).getLast?.getD c) (text.dropWhile isWord)
    else []

def headEnds (text : Text) : List (Char × Text) :=
  (keywordAt? typeKeywords (skipModifiers typeModifiers text)).toList.flatMap fun found =>
    ((dropWord? ["class".toList, "struct".toList] found.2.2).toList ++ [found.2.2]).flatMap namedEnds

theorem mem_namedEnds :
    place ∈ namedEnds text ↔ ∃ c, text.head? = some c ∧ isNameStart c = true ∧
      place ∈ clauseStarts ((text.takeWhile isWord).getLast?.getD c) (text.dropWhile isWord) := by
  simp only [namedEnds, mem_flatMap, mem_toList, mem_ite_nil_right]

/-- Whether a name may start at `named`: behind the keyword or behind a second one. -/
def NamedAt (text named : Text) : Prop :=
  ∃ keyword kind after,
    keywordAt? typeKeywords (skipModifiers typeModifiers text) = some (keyword, kind, after) ∧
      (dropWord? ["class".toList, "struct".toList] after = some named ∨ named = after)

theorem mem_headEnds :
    place ∈ headEnds text ↔ ∃ named, NamedAt text named ∧ place ∈ namedEnds named := by
  unfold headEnds NamedAt
  simp only [mem_flatMap, mem_toList, mem_append, mem_singleton, Prod.exists]
  constructor
  · rintro ⟨keyword, kind, after, hkeyword, named, hnamed, hplace⟩
    exact ⟨named, ⟨keyword, kind, after, hkeyword, hnamed⟩, hplace⟩
  · rintro ⟨named, ⟨keyword, kind, after, hkeyword, hnamed⟩, hplace⟩
    exact ⟨keyword, kind, after, hkeyword, named, hnamed, hplace⟩

theorem namedEnds_suffix (h : place ∈ namedEnds text) : place.2 <:+ text := by
  obtain ⟨c, -, -, hplace⟩ := mem_namedEnds.mp h
  exact (clauseStarts_suffix hplace).trans (dropWhile_suffix _)

theorem suffix_of_second {named : Text}
    (h : dropWord? ["class".toList, "struct".toList] after = some named ∨ named = after) :
    named <:+ after := by
  rcases h with hword | rfl
  · exact dropWord?_suffix hword
  · exact suffix_rfl

theorem NamedAt.extent {named : Text} (h : NamedAt text named) :
    named <:+ text ∧ named.length < text.length ∧
      ∃ word ∈ typeModifiers ++ typeKeywords.map Prod.fst, word <+: text := by
  obtain ⟨keyword, kind, after, hkeyword, hnamed⟩ := h
  have hafter := suffix_of_second hnamed
  obtain ⟨hsuffix, hlt, hopens⟩ := keywordAt?_skipModifiers hkeyword
  exact ⟨hafter.trans hsuffix, hafter.length_le.trans_lt hlt, hopens⟩

theorem headEnds_extent (h : place ∈ headEnds text) :
    place.2 <:+ text ∧ place.2.length < text.length := by
  obtain ⟨named, hnamed, hplace⟩ := mem_headEnds.mp h
  obtain ⟨hsuffix, hlt, -⟩ := hnamed.extent
  have hend := namedEnds_suffix hplace
  exact ⟨hend.trans hsuffix, hend.length_le.trans_lt hlt⟩

theorem exists_of_typeHeaderAt? (h : typeHeaderAt? before text = some header) :
    ∃ named place, NamedAt text named ∧ place ∈ namedEnds named ∧
      clausesAt? place.1 place.2 = some (header.bases, header.rest) ∧
      header.name = named.takeWhile isWord ∧ header.interfaces = none := by
  obtain ⟨-, h⟩ := ite_none_right_eq_some.mp h
  simp only [bind, bind_eq_some_iff, Prod.exists] at h
  obtain ⟨keyword, kind, after, hkeyword, name, bases, rest, hnamed, hheader⟩ := h
  cases hheader
  obtain ⟨named, hmem, hnamed⟩ := exists_of_findSome?_eq_some hnamed
  simp only [mem_append, mem_toList, mem_singleton] at hmem
  cases named with
  | nil => cases hnamed
  | cons c tail =>
    obtain ⟨hname, hnamed⟩ := ite_none_right_eq_some.mp hnamed
    obtain ⟨place, hplace, hfound⟩ := exists_of_findSome?_eq_some hnamed
    obtain ⟨clauses, hclauses, heq⟩ := map_eq_some_iff.mp hfound
    cases heq
    rw [drop_length_takeWhile] at hplace
    exact ⟨c :: tail, place, ⟨keyword, kind, after, hkeyword, hmem⟩,
      mem_namedEnds.mpr ⟨c, rfl, hname, hplace⟩, hclauses, rfl, rfl⟩

theorem typeHeaderAt?_extent (h : typeHeaderAt? before text = some header) :
    header.rest <:+ text ∧ header.rest.length < text.length ∧
      ∃ word ∈ typeModifiers ++ typeKeywords.map Prod.fst, word <+: text := by
  obtain ⟨named, place, hnamed, hplace, hclauses, -⟩ := exists_of_typeHeaderAt? h
  have hrest := (clausesAt?_extent hclauses).1.trans (namedEnds_suffix hplace)
  obtain ⟨hsuffix, hlt, hopens⟩ := hnamed.extent
  exact ⟨hrest.trans hsuffix, hrest.length_le.trans_lt hlt, hopens⟩

end CSharp

namespace TypeScript

theorem splitName?_suffix {opens : Char → Bool} (h : splitName? opens text = some (name, rest)) :
    rest <:+ text := by
  obtain ⟨-, rfl, -⟩ := of_splitName?_eq_some h
  exact suffix_append name rest

theorem headerParameterEnds_suffix (h : rest ∈ headerParameterEnds text) : '>' :: rest <:+ text := by
  induction text with
  | nil => cases h
  | cons c text ih =>
    rw [headerParameterEnds] at h
    split_ifs at h with hstop hclose
    · cases h
    · obtain rfl := hclose
      rcases mem_cons.mp h with rfl | htail
      · exact suffix_rfl
      · exact (ih htail).trans (suffix_cons _ text)
    · exact (ih h).trans (suffix_cons c text)

theorem mem_clauseStarts :
    start ∈ clauseStarts text ↔
      (∃ tail, trimLeft text = '<' :: tail ∧ start ∈ headerParameterEnds tail) ∨ start = text := by
  unfold clauseStarts
  split
  · next tail htrim => simp [htrim]
  · next hother => simp [show ∀ tail, trimLeft text ≠ '<' :: tail from hother]

theorem clauseStarts_suffix (h : start ∈ clauseStarts text) : start <:+ text := by
  rcases mem_clauseStarts.mp h with ⟨tail, htrim, hend⟩ | rfl
  · have hstart : start <:+ tail := (suffix_cons '>' start).trans (headerParameterEnds_suffix hend)
    exact hstart.trans (suffix_of_trimLeft_eq_cons htrim)
  · exact suffix_rfl

section

variable {word : Text} {stops : Text → Bool}

theorem clauseAt?_of_word {tail : Text} {blank : Char}
    (h : skipBlanks? text = some (word ++ blank :: tail)) (hblank : isBlank blank = true) :
    clauseAt? word stops text = clauseBehind stopsClause (fun _ => stops) tail := by
  unfold clauseAt? clauseBehind
  have hhead : dropHead? word (word ++ blank :: tail) = some (blank :: tail) :=
    dropHead?_eq_some_iff.mpr rfl
  have hskip : skipBlanks? (blank :: tail) = some (trimLeft tail) :=
    skipBlanks?_eq_some_iff.mpr ⟨blank, tail, rfl, hblank, rfl⟩
  have hgap : (blank :: tail).takeWhile isBlank = blank :: tail.takeWhile isBlank := by
    rw [takeWhile_cons, hblank, if_pos rfl]
  simp only [h, bind, bind_some, hhead, hskip, hgap]
  split
  · cases tail.takeWhile isBlank with
    | nil => simp
    | cons c gap => simp [getLast?_cons_cons]
  · rfl

theorem exists_word_of_clauseAt? (h : (clauseAt? word stops text).isSome) :
    ∃ blank tail, skipBlanks? text = some (word ++ blank :: tail) ∧ isBlank blank = true := by
  obtain ⟨found, h⟩ := isSome_iff_exists.mp h
  unfold clauseAt? at h
  simp only [bind, bind_eq_some_iff] at h
  obtain ⟨after, ⟨afterBlanks, hblanks, hhead⟩, start, hstart, -⟩ := h
  obtain ⟨blank, tail, rfl, hblank, -⟩ := skipBlanks?_eq_some_iff.mp hstart
  rw [dropHead?_eq_some_iff.mp hhead] at hblanks
  exact ⟨blank, tail, hblanks, hblank⟩

theorem clauseAt?_extent (h : clauseAt? word stops text = some (clause, rest)) :
    clause ≠ [] ∧ clause ++ rest <:+ text := by
  obtain ⟨blank, tail, hskip, hblank⟩ := exists_word_of_clauseAt? (isSome_of_eq_some h)
  rw [clauseAt?_of_word hskip hblank] at h
  have htail : tail <:+ text :=
    ((suffix_cons blank tail).trans (suffix_append word _)).trans (skipBlanks?_suffix hskip)
  exact (clauseBehind_extent h).imp_right (·.trans htail)

end

theorem clausesAt?_eq_some (h : clausesAt? text = some (bases, interfaces, rest)) :
    ∃ after, OptionalClause basesAt? text bases after ∧
      OptionalClause interfacesAt? after interfaces rest ∧
      (bases = none → interfaces = none → closesHeader text = true) := by
  unfold clausesAt? at h
  cases hbases : basesAt? text with
  | some found =>
    simp only [hbases] at h
    refine ⟨found.2, ?_⟩
    split at h
    · next clause rest hinterfaces =>
      cases h
      exact ⟨.inl ⟨found.1, rfl, hbases⟩, .inl ⟨clause, rfl, hinterfaces⟩, nofun⟩
    · cases h
      exact ⟨.inl ⟨found.1, rfl, hbases⟩, .inr ⟨rfl, rfl⟩, nofun⟩
  | none =>
    simp only [hbases] at h
    refine ⟨text, ?_⟩
    split at h
    · next clause rest hinterfaces =>
      cases h
      exact ⟨.inr ⟨rfl, rfl⟩, .inl ⟨clause, rfl, hinterfaces⟩, fun _ => nofun⟩
    · obtain ⟨hcloses, heq⟩ := ite_none_right_eq_some.mp h
      cases heq
      exact ⟨.inr ⟨rfl, rfl⟩, .inr ⟨rfl, rfl⟩, fun _ _ => by simpa using hcloses⟩

theorem clausesAt?_extent (h : clausesAt? text = some (bases, interfaces, rest)) :
    rest <:+ text ∧ (∀ clause ∈ bases, clause ⊆ text) ∧ ∀ clause ∈ interfaces, clause ⊆ text := by
  obtain ⟨after, hbases, hinterfaces, -⟩ := clausesAt?_eq_some h
  obtain ⟨hafter, hfirst⟩ := hbases.extent fun hclause => (clauseAt?_extent hclause).2
  obtain ⟨hrest, hsecond⟩ := hinterfaces.extent fun hclause => (clauseAt?_extent hclause).2
  exact ⟨hrest.trans hafter, hfirst,
    fun clause hclause => Subset.trans (hsecond clause hclause) hafter.subset⟩

def headEnds (text : Text) : List Text :=
  (keywordAt? typeKeywords (skipModifiers typeModifiers text)).toList.flatMap fun found =>
    (splitName? isPlainStart found.2.2).toList.flatMap fun named => clauseStarts named.2

/-- Whether a name is read behind the keyword, and the text behind the name. -/
def NamedBefore (text name afterName : Text) : Prop :=
  ∃ keyword kind after,
    keywordAt? typeKeywords (skipModifiers typeModifiers text) = some (keyword, kind, after) ∧
      splitName? isPlainStart after = some (name, afterName)

theorem mem_headEnds :
    start ∈ headEnds text ↔ ∃ name after, NamedBefore text name after ∧ start ∈ clauseStarts after := by
  unfold headEnds NamedBefore
  simp only [mem_flatMap, mem_toList, Prod.exists]
  constructor
  · rintro ⟨keyword, kind, after, hkeyword, name, afterName, hname, hstart⟩
    exact ⟨name, afterName, ⟨keyword, kind, after, hkeyword, hname⟩, hstart⟩
  · rintro ⟨name, afterName, ⟨keyword, kind, after, hkeyword, hname⟩, hstart⟩
    exact ⟨keyword, kind, after, hkeyword, name, afterName, hname, hstart⟩

theorem NamedBefore.extent (h : NamedBefore text name after) :
    name ++ after <:+ text ∧ after.length < text.length ∧
      ∃ word ∈ typeModifiers ++ typeKeywords.map Prod.fst, word <+: text := by
  obtain ⟨keyword, kind, behind, hkeyword, hname⟩ := h
  obtain ⟨-, rfl, -⟩ := of_splitName?_eq_some hname
  obtain ⟨hsuffix, hlt, hopens⟩ := keywordAt?_skipModifiers hkeyword
  exact ⟨hsuffix, (suffix_append name after).length_le.trans_lt hlt, hopens⟩

theorem headEnds_extent (h : start ∈ headEnds text) :
    start <:+ text ∧ start.length < text.length := by
  obtain ⟨name, after, hname, hstart⟩ := mem_headEnds.mp h
  obtain ⟨hsuffix, hlt, -⟩ := hname.extent
  have hend := clauseStarts_suffix hstart
  exact ⟨(hend.trans (suffix_append name after)).trans hsuffix, hend.length_le.trans_lt hlt⟩

theorem exists_of_typeHeaderAt? (h : typeHeaderAt? before text = some header) :
    ∃ after start, NamedBefore text header.name after ∧ start ∈ clauseStarts after ∧
      clausesAt? start = some (header.bases, header.interfaces, header.rest) := by
  obtain ⟨-, h⟩ := ite_none_right_eq_some.mp h
  simp only [bind, bind_eq_some_iff, Prod.exists] at h
  obtain ⟨keyword, kind, after, hkeyword, name, afterName, hname, bases, interfaces, rest,
    hclauses, hheader⟩ := h
  cases hheader
  obtain ⟨start, hstart, hclauses⟩ := exists_of_findSome?_eq_some hclauses
  exact ⟨afterName, start, ⟨keyword, kind, after, hkeyword, hname⟩, hstart, hclauses⟩

theorem typeHeaderAt?_extent (h : typeHeaderAt? before text = some header) :
    header.rest <:+ text ∧ header.rest.length < text.length ∧
      ∃ word ∈ typeModifiers ++ typeKeywords.map Prod.fst, word <+: text := by
  obtain ⟨after, start, hname, hstart, hclauses⟩ := exists_of_typeHeaderAt? h
  have hrest := (clausesAt?_extent hclauses).1.trans (clauseStarts_suffix hstart)
  obtain ⟨hsuffix, hlt, hopens⟩ := hname.extent
  exact ⟨(hrest.trans (suffix_append _ after)).trans hsuffix, hrest.length_le.trans_lt hlt, hopens⟩

end TypeScript

def Dialect.openingWords : Dialect → List Text
  | .csharp => CSharp.typeModifiers ++ CSharp.typeKeywords.map Prod.fst
  | .typescript => TypeScript.typeModifiers ++ TypeScript.typeKeywords.map Prod.fst

theorem Dialect.typeHeaderAt?_extent (h : dialect.typeHeaderAt? before text = some header) :
    header.rest <:+ text ∧ header.rest.length < text.length ∧
      ∃ word ∈ dialect.openingWords, word <+: text := by
  cases dialect with
  | csharp => exact CSharp.typeHeaderAt?_extent h
  | typescript => exact TypeScript.typeHeaderAt?_extent h

theorem Dialect.head?_openingWords (dialect : Dialect) :
    ∀ word ∈ dialect.openingWords, word.head?.any (·.isLower) = true := by
  cases dialect <;> decide

theorem Dialect.isLower_of_typeHeaderAt? {c : Char}
    (h : dialect.typeHeaderAt? before (c :: rest) = some header) : c.isLower = true := by
  obtain ⟨-, -, word, hword, tail, htail⟩ := typeHeaderAt?_extent h
  have hlower := dialect.head?_openingWords word hword
  cases word with
  | nil => simp at hlower
  | cons d word =>
    obtain ⟨rfl, -⟩ := cons.inj htail
    simpa using hlower

/-! ## All headers of a text -/

/-- A header found from offset `index` on starts after the characters to be passed over, is not
empty and ends within the text. -/
theorem headersFrom_bounds {skip index start : Nat}
    (h : (start, stop, header) ∈ headersFrom dialect skip before index text) :
    index + skip ≤ start ∧ start < stop ∧ stop ≤ index + text.length ∧
      ∃ c, text[start - index]? = some c ∧ c.isLower = true := by
  obtain ⟨front, rest, rfl, rfl, rfl, hheader, hskip⟩ := exists_of_mem_headersFrom h
  have hlt := (Dialect.typeHeaderAt?_extent hheader).2.1
  obtain ⟨c, rest, rfl⟩ := exists_cons_of_length_pos (Nat.zero_lt_of_lt hlt)
  refine ⟨hskip, by omega, by rw [length_append]; omega, c, ?_,
    Dialect.isLower_of_typeHeaderAt? hheader⟩
  rw [Nat.add_sub_cancel_left, getElem?_append_right le_rfl, Nat.sub_self, getElem?_cons_zero]

theorem pairwise_headersFrom (dialect : Dialect) (skip : Nat) (before : Option Char)
    (index : Nat) (text : Text) :
    (headersFrom dialect skip before index text).Pairwise fun a b => a.2.1 ≤ b.1 := by
  induction text generalizing skip before index with
  | nil => simp [headersFrom]
  | cons c rest ih =>
    rw [headersFrom]
    split
    · exact ih _ _ _
    · split
      · next found hfound =>
        have hlt := (Dialect.typeHeaderAt?_extent hfound).2.1
        refine pairwise_cons.mpr ⟨?_, ih _ _ _⟩
        rintro ⟨start, stop, header⟩ hlater
        have hstart := (headersFrom_bounds hlater).1
        simp only
        omega
      · exact ih _ _ _

theorem declarationAt?_offsets {start : Nat}
    (h : declarationAt? dialect text (start, stop, header) = some declaration) :
    declaration.start = start ∧ declaration.stop = stop := by
  simp only [declarationAt?] at h
  split at h
  · cases h
    exact ⟨rfl, rfl⟩
  · cases h

theorem locateDeclarations_bounds (h : declaration ∈ locateDeclarations dialect text) :
    declaration.start < declaration.stop ∧ declaration.stop ≤ text.length ∧
      ∃ c, text[declaration.start]? = some c ∧ c.isLower = true := by
  obtain ⟨⟨start, stop, header⟩, hmem, hdeclaration⟩ := mem_filterMap.mp h
  obtain ⟨rfl, rfl⟩ := declarationAt?_offsets hdeclaration
  obtain ⟨-, hlt, hstop, hlower⟩ := headersFrom_bounds hmem
  exact ⟨hlt, by omega, hlower⟩

theorem pairwise_locateDeclarations (dialect : Dialect) (text : Text) :
    (locateDeclarations dialect text).Pairwise fun a b => a.stop ≤ b.start := by
  unfold locateDeclarations
  rw [pairwise_filterMap]
  refine (pairwise_headersFrom dialect 0 none 0 text).imp ?_
  rintro ⟨start, stop, header⟩ ⟨start', stop', header'⟩ hle a ha b hb
  rw [(declarationAt?_offsets ha).2, (declarationAt?_offsets hb).1]
  exact hle

end SourceAtlas
