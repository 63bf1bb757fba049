import SourceAtlas.TypeText
import SourceAtlas.Proofs.Bracket
import SourceAtlas.Proofs.Text.Words

/-!
# C# type expressions

Type expressions as trees: dotted identifiers with type arguments, and marks for arrays and
nullable types behind them. The text of a tree is read back whole by the two scanners for types:
the one that takes the type token off the end of a text, and the one that cuts at top-level commas.
-/

namespace SourceAtlas.CSharp

open List

variable {c : Char} {word rest : Text}

/-! ## Identifiers -/

/-- Words that open an indexer or an operator and name nothing. -/
def specialWords : List Text :=
  ["this", "operator"].map String.toList

def isIdentifier (text : Text) : Bool :=
  text.head?.any isNameStart && text.all isWord && !specialWords.contains text

/-- An identifier. -/
structure Identifier where
  text : Text
  valid : isIdentifier text = true

namespace Identifier

variable (name : Identifier)

theorem isWord_of_mem (h : c ∈ name.text) : isWord c = true := by
  have hvalid := name.valid
  simp only [isIdentifier, Bool.and_eq_true, all_eq_true] at hvalid
  exact hvalid.1.2 c h

theorem exists_cons : ∃ c rest, name.text = c :: rest ∧ isNameStart c = true := by
  have hvalid := name.valid
  simp only [isIdentifier, Bool.and_eq_true, Option.any_eq_true] at hvalid
  obtain ⟨⟨⟨c, hhead, hstart⟩, -⟩, -⟩ := hvalid
  obtain ⟨rest, hcons⟩ := head?_eq_some_iff.mp hhead
  exact ⟨c, rest, hcons, hstart⟩

theorem ne_nil : name.text ≠ [] := by
  obtain ⟨c, rest, hcons, -⟩ := name.exists_cons
  simp [hcons]

theorem not_mem_special : name.text ∉ specialWords := by
  have hvalid := name.valid
  simp only [isIdentifier, Bool.and_eq_true, Bool.not_eq_true', contains_eq_mem,
    decide_eq_false_iff_not] at hvalid
  exact hvalid.2

theorem exists_concat : ∃ front c, name.text = front ++ [c] ∧ isWord c = true := by
  refine ⟨name.text.dropLast, name.text.getLast name.ne_nil, ?_, ?_⟩
  · exact (dropLast_concat_getLast name.ne_nil).symm
  · exact name.isWord_of_mem (getLast_mem name.ne_nil)

theorem tidy : Tidy name.text :=
  .word name.ne_nil fun _ h => isBlank_eq_false_of_isWord (name.isWord_of_mem h)

end Identifier

/-! ## Trees -/

/-- The levels of the grammar: dotted names, whole types and argument lists. -/
inductive TypeShape where
  | path
  | type
  | list

/-- Trees of type expressions. -/
inductive TypeSyntax : TypeShape → Type where
  | root (name : Identifier) : TypeSyntax .path
  | nested (outer : TypeSyntax .path) (name : Identifier) : TypeSyntax .path
  | generic (head : TypeSyntax .path) (arguments : TypeSyntax .list) : TypeSyntax .path
  | plain (path : TypeSyntax .path) : TypeSyntax .type
  | array (element : TypeSyntax .type) : TypeSyntax .type
  | nullable (element : TypeSyntax .type) : TypeSyntax .type
  | last (type : TypeSyntax .type) : TypeSyntax .list
  | more (type : TypeSyntax .type) (rest : TypeSyntax .list) : TypeSyntax .list

abbrev TypeExpr := TypeSyntax .type

namespace TypeSyntax

def text : {shape : TypeShape} → TypeSyntax shape → Text
  | _, .root name => name.text
  | _, .nested outer name => outer.text ++ '.' :: name.text
  | _, .generic head arguments => head.text ++ '<' :: (arguments.text ++ ['>'])
  | _, .plain path => path.text
  | _, .array element => element.text ++ ['[', ']']
  | _, .nullable element => element.text ++ ['?']
  | _, .last type => type.text
  | _, .more type rest => type.text ++ ',' :: ' ' :: rest.text

def names : {shape : TypeShape} → TypeSyntax shape → List Identifier
  | _, .root name => [name]
  | _, .nested outer name => outer.names ++ [name]
  | _, .generic head arguments => head.names ++ arguments.names
  | _, .plain path => path.names
  | _, .array element => element.names
  | _, .nullable element => element.names
  | _, .last type => type.names
  | _, .more type rest => type.names ++ rest.names

def lastName : TypeSyntax .path → Identifier
  | .root name => name
  | .nested _ name => name
  | .generic head _ => head.lastName

def genericName? : {shape : TypeShape} → TypeSyntax shape → Option Identifier
  | _, .root _ => none
  | _, .nested outer _ => outer.genericName?
  | _, .generic head _ => head.genericName?.or (some head.lastName)
  | _, .plain path => path.genericName?
  | _, .array element => element.genericName?
  | _, .nullable element => element.genericName?
  | _, .last type => type.genericName?
  | _, .more type rest => type.genericName?.or rest.genericName?

/-- The marks that may follow an identifier inside a type expression. -/
def marks : Text :=
  ".<>[]?,".toList

theorem isWord_eq_false_of_mem_marks (h : c ∈ marks) : isWord c = false :=
  forall_mem_of_any (by decide : marks.any isWord = false) c h

theorem isBlank_eq_false_of_mem_marks (h : c ∈ marks) : isBlank c = false :=
  forall_mem_of_any (by decide : marks.any isBlank = false) c h

def isTypeChar (c : Char) : Bool :=
  isWord c || c == ' ' || marks.contains c

theorem isTypeChar_of_isWord (h : isWord c = true) : isTypeChar c = true := by
  simp [isTypeChar, h]

variable {shape : TypeShape}

theorem isTypeChar_of_mem_text (type : TypeSyntax shape) (h : c ∈ type.text) :
    isTypeChar c = true := by
  induction type with
  | root name => exact isTypeChar_of_isWord (name.isWord_of_mem h)
  | nested outer name ih =>
    simp only [text, mem_append, mem_cons] at h
    rcases h with h | rfl | h
    · exact ih h
    · rfl
    · exact isTypeChar_of_isWord (name.isWord_of_mem h)
  | generic head arguments ihHead ihArguments =>
    simp only [text, mem_append, mem_cons, not_mem_nil, or_false] at h
    rcases h with h | rfl | h | rfl
    · exact ihHead h
    · rfl
    · exact ihArguments h
    · rfl
  | plain path ih => exact ih h
  | array element ih =>
    simp only [text, mem_append, mem_cons, not_mem_nil, or_false] at h
    rcases h with h | rfl | rfl
    · exact ih h
    · rfl
    · rfl
  | nullable element ih =>
    simp only [text, mem_append, mem_cons, not_mem_nil, or_false] at h
    rcases h with h | rfl
    · exact ih h
    · rfl
  | last type ih => exact ih h
  | more type rest ihType ihRest =>
    simp only [text, mem_append, mem_cons] at h
    rcases h with h | rfl | rfl | h
    · exact ihType h
    · rfl
    · rfl
    · exact ihRest h

theorem tidy_text (type : TypeSyntax shape) : Tidy type.text := by
  have mark : ∀ {mark : Text}, mark ≠ [] → mark.any isBlank = false → Tidy mark :=
    fun hne hsolid => .word hne (forall_mem_of_any hsolid)
  induction type with
  | root name => exact name.tidy
  | nested outer name ih =>
    exact ih.append ((mark (by decide) (by decide) : Tidy ['.']).append name.tidy)
  | generic head arguments ihHead ihArguments =>
    exact ihHead.append ((mark (by decide) (by decide) : Tidy ['<']).append
      (ihArguments.append (mark (by decide) (by decide) : Tidy ['>'])))
  | plain path ih => exact ih
  | array element ih => exact ih.append (mark (by decide) (by decide))
  | nullable element ih => exact ih.append (mark (by decide) (by decide))
  | last type ih => exact ih
  | more type rest ihType ihRest =>
    have hcomma : Tidy (type.text ++ [',']) :=
      ihType.append (mark (by decide) (by decide))
    have hspaced := hcomma.append_space ihRest
    rwa [append_assoc] at hspaced

/-- A type expression starts with an identifier, and a mark follows unless that is all. -/
theorem exists_name_append (type : TypeSyntax shape) :
    ∃ name ∈ type.names, ∃ rest : Text, type.text = name.text ++ rest ∧
      (rest = [] ∨ ∃ c tail, rest = c :: tail ∧ c ∈ marks) := by
  have extend : ∀ {names : List Identifier} {front : Text} {c : Char} {tail : Text}
      (more : List Identifier), c ∈ marks →
      (∃ name ∈ names, ∃ rest : Text, front = name.text ++ rest ∧
        (rest = [] ∨ ∃ c tail, rest = c :: tail ∧ c ∈ marks)) →
      ∃ name ∈ names ++ more, ∃ rest : Text, front ++ c :: tail = name.text ++ rest ∧
        (rest = [] ∨ ∃ c tail, rest = c :: tail ∧ c ∈ marks) := by
    rintro names front c tail more hc ⟨name, hname, rest, rfl, hrest⟩
    refine ⟨name, mem_append_left more hname, rest ++ c :: tail, by simp, Or.inr ?_⟩
    rcases hrest with rfl | ⟨d, tail', rfl, hd⟩
    · exact ⟨c, tail, rfl, hc⟩
    · exact ⟨d, tail' ++ c :: tail, rfl, hd⟩
  induction type with
  | root name => exact ⟨name, by simp [names], [], by simp [text], Or.inl rfl⟩
  | nested outer name ih => exact extend _ (by decide) ih
  | generic head arguments ihHead ihArguments => exact extend _ (by decide) ihHead
  | plain path ih => exact ih
  | array element ih => simpa [names, text] using extend [] (by decide : '[' ∈ marks) ih
  | nullable element ih => simpa [names, text] using extend [] (by decide : '?' ∈ marks) ih
  | last type ih => exact ih
  | more type rest ihType ihRest => exact extend _ (by decide) ihType

/-- A type expression ends with an identifier, a closing bracket or a mark, never with `=`. -/
theorem exists_concat (type : TypeSyntax shape) :
    ∃ front c, type.text = front ++ [c] ∧ isTypeChar c = true ∧ isBlank c = false := by
  obtain ⟨c, hlast, hblank⟩ := type.tidy_text.exists_last
  obtain ⟨front, hfront⟩ := getLast?_eq_some_iff.mp hlast
  exact ⟨front, c, hfront, type.isTypeChar_of_mem_text (by simp [hfront]), hblank⟩

/-! ## The type token at the end of a text -/

theorem typeTokenFront_cons {depth : Nat} (hclose : c ≠ '>') (hopen : c ≠ '<')
    (hkeep : 0 < depth ∨ (isAlphanumeric c || "_?[].@".toList.contains c) = true) (rest : Text) :
    typeTokenFront depth (c :: rest) = c :: typeTokenFront depth rest := by
  rw [typeTokenFront]
  · rcases hkeep with hdepth | hkeep
    · rw [if_neg (by simp; omega)]
    · rw [if_neg (by rw [hkeep]; simp)]
  · exact fun _ h _ => hclose h
  · exact hclose
  · exact hopen

theorem typeTokenFront_word (h : ∀ c ∈ word, isWord c = true) (depth : Nat) (rest : Text) :
    typeTokenFront depth (word ++ rest) = word ++ typeTokenFront depth rest := by
  induction word with
  | nil => rfl
  | cons c word ih =>
    have hc : isWord c = true := h c (by simp)
    have hkeep : (isAlphanumeric c || "_?[].@".toList.contains c) = true := by
      simp only [isWord, Bool.or_eq_true, beq_iff_eq] at hc
      rcases hc with rfl | hc
      · rfl
      · simp [hc]
    rw [cons_append, typeTokenFront_cons (ne_of_kind hc (by decide))
      (ne_of_kind hc (by decide)) (Or.inr hkeep), ih (fun d hd => h d (by simp [hd]))]
    rfl

theorem typeTokenFront_close (h : ∀ tail, rest ≠ '=' :: tail) (depth : Nat) :
    typeTokenFront depth ('>' :: rest) = '>' :: typeTokenFront (depth + 1) rest := by
  rw [typeTokenFront]
  exact h

/-- The token scanner takes a type expression whole. Inside an argument list it has to be between
angle brackets. -/
theorem typeTokenFront_text (type : TypeSyntax shape) (depth : Nat) (rest : Text)
    (hdepth : shape = .list → 0 < depth) :
    typeTokenFront depth (type.text.reverse ++ rest) =
      type.text.reverse ++ typeTokenFront depth rest := by
  induction type generalizing depth rest with
  | root name =>
    exact typeTokenFront_word (fun c hc => name.isWord_of_mem (mem_reverse.mp hc)) _ _
  | nested outer name ih =>
    have hname : ∀ c ∈ name.text.reverse, isWord c = true :=
      fun c hc => name.isWord_of_mem (mem_reverse.mp hc)
    simp only [text, reverse_append, reverse_cons, append_assoc,
      nil_append, cons_append]
    rw [typeTokenFront_word hname, typeTokenFront_cons (by decide) (by decide) (Or.inr (by decide)),
      ih _ _ (by simp)]
  | generic head arguments ihHead ihArguments =>
    obtain ⟨front, c, hfront, hc, -⟩ := arguments.exists_concat
    have hne : c ≠ '=' := ne_of_kind hc (by decide)
    simp only [text, reverse_append, reverse_cons, append_assoc, reverse_nil,
      nil_append, cons_append]
    rw [typeTokenFront_close (by simp [hfront, hne]), ihArguments _ _ (by omega), typeTokenFront,
      ihHead _ _ (by simp)]
  | plain path ih => exact ih _ _ (by simp)
  | array element ih =>
    simp only [text, reverse_append, reverse_cons, reverse_nil,
      nil_append, cons_append]
    rw [typeTokenFront_cons (by decide) (by decide) (Or.inr (by decide)),
      typeTokenFront_cons (by decide) (by decide) (Or.inr (by decide)), ih _ _ (by simp)]
  | nullable element ih =>
    simp only [text, reverse_append, reverse_cons, reverse_nil,
      nil_append, cons_append]
    rw [typeTokenFront_cons (by decide) (by decide) (Or.inr (by decide)), ih _ _ (by simp)]
  | last type ih => exact ih _ _ (by simp)
  | more type rest' ihType ihRest =>
    have hpos := hdepth rfl
    simp only [text, reverse_append, reverse_cons, append_assoc,
      nil_append, cons_append]
    rw [ihRest _ _ (fun _ => hpos), typeTokenFront_cons (by decide) (by decide) (Or.inl hpos),
      typeTokenFront_cons (by decide) (by decide) (Or.inl hpos), ihType _ _ (by simp)]

theorem trailingType_append (type : TypeExpr) (front : Text) :
    trailingType (front ++ ' ' :: type.text) = type.text := by
  have hspace : typeTokenFront 0 (' ' :: front.reverse) = [] := by
    rw [typeTokenFront]
    · simp only [decide_true, Bool.true_and]
      rfl
    · simp
    · simp
    · simp
  have hfront := type.typeTokenFront_text 0 (' ' :: front.reverse) (by simp)
  simp only [trailingType, reverse_append, reverse_cons, append_assoc,
    singleton_append, hfront, hspace, append_nil, reverse_reverse]

theorem trailingType_text (type : TypeExpr) : trailingType type.text = type.text := by
  have hfront := type.typeTokenFront_text 0 [] (by simp)
  simp only [append_nil] at hfront
  simp [trailingType, hfront, typeTokenFront]

/-! ## Top-level commas -/

theorem segmentsFrom_identifier (name : Identifier) (owed : List Char) (rest : Text) :
    segmentsFrom [','] owed none (name.text ++ rest) =
      (segmentsFrom [','] owed none rest).map (Segments.prepend name.text) := by
  apply segmentsFrom_append_inert
  intro c hc
  have hword := name.isWord_of_mem hc
  refine ⟨isInert_of_isWord hword, Or.inl ?_⟩
  simpa using ne_of_kind hword (by decide : isWord ',' = false)

/-- Cutting at commas never cuts inside a type expression. An argument list has to be between
brackets. -/
theorem segmentsFrom_text (type : TypeSyntax shape) (owed : List Char) (rest : Text)
    (howed : shape = .list → owed ≠ []) :
    segmentsFrom [','] owed none (type.text ++ rest) =
      (segmentsFrom [','] owed none rest).map (Segments.prepend type.text) := by
  induction type generalizing owed rest with
  | root name => exact segmentsFrom_identifier name owed rest
  | nested outer name ih =>
    simp only [text, append_assoc, cons_append]
    rw [ih _ _ (by simp), segmentsFrom_cons_inert (by decide) (Or.inl (by decide)),
      segmentsFrom_identifier, Segments.map_prepend_map_prepend,
      Segments.map_prepend_map_prepend]
    simp
  | generic head arguments ihHead ihArguments =>
    simp only [text, append_assoc, cons_append, nil_append]
    rw [ihHead _ _ (by simp), segmentsFrom_open (by decide) rfl, ihArguments _ _ (by simp),
      segmentsFrom_close (by decide) rfl (by decide), Segments.map_prepend_map_prepend,
      Segments.map_prepend_map_prepend, Segments.map_prepend_map_prepend]
    simp
  | plain path ih => exact ih _ _ (by simp)
  | array element ih =>
    simp only [text, append_assoc, cons_append, nil_append]
    rw [ih _ _ (by simp), segmentsFrom_open (by decide) rfl,
      segmentsFrom_close (by decide) rfl (by decide), Segments.map_prepend_map_prepend,
      Segments.map_prepend_map_prepend]
    simp
  | nullable element ih =>
    simp only [text, append_assoc, cons_append, nil_append]
    rw [ih _ _ (by simp), segmentsFrom_cons_inert (by decide) (Or.inl (by decide)),
      Segments.map_prepend_map_prepend]
  | last type ih => exact ih _ _ (by simp)
  | more type rest' ihType ihRest =>
    have hne := howed rfl
    simp only [text, append_assoc, cons_append]
    rw [ihType _ _ (by simp), segmentsFrom_cons_inert (by decide) (Or.inr hne),
      segmentsFrom_cons_inert (by decide) (Or.inr hne), ihRest _ _ (fun _ => hne),
      Segments.map_prepend_map_prepend, Segments.map_prepend_map_prepend,
      Segments.map_prepend_map_prepend]
    simp

/-! ## Words of a type expression -/

def SpacedByCommas (text : Text) : Prop :=
  ∀ front rest, text = front ++ ' ' :: rest → front.getLast? = some ','

theorem SpacedByCommas.of_not_mem {text : Text} (h : ' ' ∉ text) : SpacedByCommas text := by
  rintro front rest rfl
  exact absurd (by simp) h

theorem SpacedByCommas.append {first second : Text} (hfirst : SpacedByCommas first)
    (hsecond : SpacedByCommas second) (hhead : second.head? ≠ some ' ') :
    SpacedByCommas (first ++ second) := by
  intro front rest h
  rcases append_eq_append_cons h with ⟨tail, htail, -⟩ | ⟨lead, hlead, rfl⟩
  · exact hfirst front tail htail
  · cases lead with
    | nil => exact absurd (by simp [hlead]) hhead
    | cons c lead =>
      rw [getLast?_append_of_ne_nil _ (by simp)]
      exact hsecond _ _ hlead

theorem space_not_mem_identifier (name : Identifier) : ' ' ∉ name.text := by
  intro h
  exact absurd (name.isWord_of_mem h) (by decide)

theorem head?_text_ne_space (type : TypeSyntax shape) : type.text.head? ≠ some ' ' := by
  obtain ⟨c, hhead, hblank⟩ := type.tidy_text.exists_head
  rw [hhead]
  rintro ⟨⟩
  exact absurd hblank (by decide)

theorem spacedByCommas_text (type : TypeSyntax shape) : SpacedByCommas type.text := by
  induction type with
  | root name => exact .of_not_mem (space_not_mem_identifier name)
  | nested outer name ih =>
    exact ih.append (.of_not_mem (by simp [space_not_mem_identifier])) (by simp)
  | generic head arguments ihHead ihArguments =>
    have hinner : SpacedByCommas (['<'] ++ arguments.text) :=
      (SpacedByCommas.of_not_mem (by decide)).append ihArguments arguments.head?_text_ne_space
    have hclosed := hinner.append (.of_not_mem (by decide : ' ' ∉ ['>'])) (by simp)
    simpa [text] using ihHead.append hclosed (by simp)
  | plain path ih => exact ih
  | array element ih => exact ih.append (.of_not_mem (by decide)) (by simp)
  | nullable element ih => exact ih.append (.of_not_mem (by decide)) (by simp)
  | last type ih => exact ih
  | more type rest ihType ihRest =>
    have hcomma : SpacedByCommas [',', ' '] := by
      intro front tail h
      match front with
      | [] => simp at h
      | [c] => exact congrArg some (cons.inj h).1.symm
      | c :: d :: front => simp at h
    have hrest := hcomma.append ihRest rest.head?_text_ne_space
    simpa [text] using ihType.append hrest (by simp)

/-- Outside an argument list, an angle bracket closes after every space. -/
theorem close_mem_of_text_eq (type : TypeSyntax shape) (hshape : shape ≠ .list) {front : Text}
    (h : type.text = front ++ ' ' :: rest) : '>' ∈ rest := by
  have mark : ∀ {mark lead rest : Text}, ' ' ∉ mark → mark ≠ lead ++ ' ' :: rest := by
    rintro mark lead rest hnot rfl
    exact hnot (by simp)
  induction type generalizing front rest with
  | root name => exact absurd h (mark (space_not_mem_identifier name))
  | nested outer name ih =>
    rcases append_eq_append_cons h with ⟨tail, htail, rfl⟩ | ⟨lead, hlead, -⟩
    · exact mem_append_left _ (ih (by simp) htail)
    · exact absurd hlead (mark (by simp [space_not_mem_identifier]))
  | generic head arguments ihHead ihArguments =>
    rcases append_eq_append_cons h with ⟨tail, htail, rfl⟩ | ⟨lead, hlead, -⟩
    · exact mem_append_left _ (ihHead (by simp) htail)
    · rw [← cons_append] at hlead
      rcases append_eq_append_cons hlead with ⟨tail, -, rfl⟩ | ⟨lead, hlead, -⟩
      · simp
      · exact absurd hlead (mark (by decide))
  | plain path ih => exact ih (by simp) h
  | array element ih =>
    rcases append_eq_append_cons h with ⟨tail, htail, rfl⟩ | ⟨lead, hlead, -⟩
    · exact mem_append_left _ (ih (by simp) htail)
    · exact absurd hlead (mark (by decide))
  | nullable element ih =>
    rcases append_eq_append_cons h with ⟨tail, htail, rfl⟩ | ⟨lead, hlead, -⟩
    · exact mem_append_left _ (ih (by simp) htail)
    · exact absurd hlead (mark (by decide))
  | last type ih => exact absurd rfl hshape
  | more type rest ihType ihRest => exact absurd rfl hshape

theorem eq_space_of_isTypeChar (hc : isTypeChar c = true) (hblank : isBlank c = true) :
    c = ' ' := by
  simp only [isTypeChar, Bool.or_eq_true, beq_iff_eq, contains_iff_mem] at hc
  rcases hc with (hword | hspace) | hmark
  · rw [isWord_eq_false_of_isBlank hblank] at hword
    cases hword
  · exact hspace
  · rw [isBlank_eq_false_of_mem_marks hmark] at hblank
    cases hblank

/-- A word of a type expression that is a plain word is the whole type. -/
theorem eq_text_of_mem_words (type : TypeExpr) (h : word ∈ words type.text)
    (hplain : ∀ c ∈ word, isWord c = true) : word = type.text := by
  obtain ⟨front, rest, htext, hfront, hrest⟩ := exists_append_of_mem_words h
  have hspace : ∀ c ∈ type.text, isBlank c = true → c = ' ' := fun c hc hblank =>
    eq_space_of_isTypeChar (type.isTypeChar_of_mem_text hc) hblank
  cases rest with
  | nil =>
    rcases eq_nil_or_concat front with rfl | ⟨front, c, rfl⟩
    · simpa using htext.symm
    · -- an angle bracket would close inside the word
      obtain rfl := hspace c (by simp [htext]) (hfront c (by simp))
      have hclose := type.close_mem_of_text_eq (by simp)
        (by simpa using htext : type.text = front ++ ' ' :: word)
      exact absurd (hplain _ hclose) (by decide)
  | cons c rest =>
    -- the word, or what stands before it, would end with a comma
    obtain rfl := hspace c (by simp [htext]) (hrest c rfl)
    have hcomma := type.spacedByCommas_text (front ++ word) rest (by simpa using htext)
    by_cases hword : word = []
    · subst hword
      rw [append_nil] at hcomma
      exact absurd (hfront _ hcomma) (by decide)
    · rw [getLast?_append_of_ne_nil _ hword] at hcomma
      exact absurd (hplain _ (mem_of_getLast? hcomma)) (by decide)

end TypeSyntax

end SourceAtlas.CSharp
