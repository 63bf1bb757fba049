import SourceAtlas.Proofs.EnumConstant

/-!
# Enumerations with initializers

An entry of an enumeration is written as a name with an optional initializer, on a line of its own. The
line is cut at every comma, those inside the brackets and quotes of the initializer included, and the
value is what the initializer starts with. So an entry gives its own value exactly if its initializer is
an integer literal or starts with no number, and no name stands behind a comma of it.
-/

namespace SourceAtlas

open List Option

/-! ## What an initializer is -/

/-- Whether a text is an unsigned integer literal, decimal or hexadecimal. -/
def isUnsignedLiteral (text : Text) : Bool :=
  (!text.isEmpty && text.all Char.isDigit) ||
    ["0x".toList, "0X".toList].any fun mark =>
      (dropHead? mark text).any fun digits => !digits.isEmpty && digits.all isHexDigit

def dropMinus (text : Text) : Text :=
  (dropHead? ['-'] text).getD text

/-- Whether a text is an integer literal, with or without a minus sign. -/
def isIntegerLiteral (text : Text) : Bool :=
  isUnsignedLiteral (dropMinus text)

/-- Whether a text starts with a digit, behind a minus sign or not. -/
def startsNumber (text : Text) : Bool :=
  (dropMinus text).head?.any isDecimalDigit

/-- An initializer of a constant: one piece between commas, on one line and without a comment. -/
structure Initializer where
  text : Text
  piece : splitCommas text = some [text]
  unbroken : ∀ c ∈ text, isLineBreak c = false
  uncommented : codeFront none text = none

/-- An entry of an enumeration. -/
structure EnumEntry where
  name : PlainName
  initial? : Option Initializer

namespace EnumEntry

def row (entry : EnumEntry) : Text :=
  constantText entry.name.text (entry.initial?.map (·.text)) ++ [',']

/-- The value of the entry: its name, with the initializer if that is an integer literal. -/
def value (entry : EnumEntry) : Text :=
  constantText entry.name.text ((entry.initial?.map (·.text)).filter isIntegerLiteral)

/-- What is read of the entry: its name, with the integer literal that the initializer starts with. -/
def reading (entry : EnumEntry) : Text :=
  constantText entry.name.text ((entry.initial?.map (·.text)).bind integerLiteral?)

end EnumEntry

def Initializer.strays (initial : Initializer) : List Text :=
  (splitOn ',' initial.text).tail.filterMap fun part => enumConstant? (trim part)

def EnumEntry.strays (entry : EnumEntry) : List Text :=
  (entry.initial?.map (·.strays)).getD []

/-- Whether an initializer is read as what it is: an integer literal, or nothing that starts with a
number, and no name behind its commas. -/
def Initializer.isFaithful (initial : Initializer) : Bool :=
  (isIntegerLiteral initial.text || !startsNumber initial.text) &&
    (splitOn ',' initial.text).tail.all fun part => !(trim part).head?.any isNameStart

def EnumEntry.isFaithful (entry : EnumEntry) : Bool :=
  entry.initial?.all (·.isFaithful)

/-! ## Literals at the start of an initializer -/

section

variable {text rest : Text}

theorem dropMinus_negative (rest : Text) : dropMinus ('-' :: rest) = rest := by
  rw [dropMinus, dropHead?_eq_some_iff.mpr (show '-' :: rest = ['-'] ++ rest from rfl), getD_some]

theorem dropMinus_unsigned (h : text.head? ≠ some '-') : dropMinus text = text := by
  have hnone : dropHead? ['-'] text = none := by
    rw [eq_none_iff_forall_ne_some]
    intro rest hrest
    exact h (by rw [dropHead?_eq_some_iff.mp hrest]; rfl)
  rw [dropMinus, hnone, getD_none]

theorem isNumber_of_isUnsignedLiteral (h : isUnsignedLiteral text = true) : IsNumber text := by
  rcases Bool.or_eq_true_iff.mp h with hdecimal | hhex
  · rw [Bool.and_eq_true, List.all_eq_true] at hdecimal
    refine .decimal (by simpa using hdecimal.1) fun c hc => ?_
    exact isDecimalDigit_of_isDigit (hdecimal.2 c hc)
  · obtain ⟨mark, hmark, hany⟩ := any_eq_true.mp hhex
    obtain ⟨digits, hdigits, hall⟩ := (Option.any_eq_true ..).mp hany
    rw [Bool.and_eq_true, List.all_eq_true] at hall
    have hne : digits ≠ [] := by simpa using hall.1
    rw [dropHead?_eq_some_iff.mp hdigits]
    rcases mem_pair.mp hmark with rfl | rfl
    · exact .hexadecimal (.inl rfl) hne hall.2
    · exact .hexadecimal (.inr rfl) hne hall.2

theorem integerLiteral?_of_isIntegerLiteral (h : isIntegerLiteral text = true) :
    integerLiteral? text = some text := by
  apply IsInteger.integerLiteral?_eq
  by_cases hminus : text.head? = some '-'
  · obtain ⟨rest, rfl⟩ := head?_eq_some_iff.mp hminus
    rw [isIntegerLiteral, dropMinus_negative] at h
    exact .negative (isNumber_of_isUnsignedLiteral h)
  · rw [isIntegerLiteral, dropMinus_unsigned hminus] at h
    exact .unsigned (isNumber_of_isUnsignedLiteral h)

theorem integerLiteral?_eq_none_iff : integerLiteral? text = none ↔ startsNumber text = false := by
  have hdigit : ∀ {digits : Text}, unsignedNumber? digits = none ↔
      digits.head?.any isDecimalDigit = false := by
    intro digits
    rw [unsignedNumber?_eq_none_iff]
    cases digits.head? <;> simp
  by_cases hminus : text.head? = some '-'
  · obtain ⟨rest, rfl⟩ := head?_eq_some_iff.mp hminus
    rw [integerLiteral?_negative, map_eq_none_iff, startsNumber, dropMinus_negative, hdigit]
  · rw [integerLiteral?_unsigned hminus, startsNumber, dropMinus_unsigned hminus, hdigit]

/-- A literal ends where neither a word nor a minus sign follows. -/
theorem integerLiteral?_append (hrest : ∀ c ∈ rest.head?, isWord c = false ∧ c ≠ '-') (text : Text) :
    integerLiteral? (text ++ rest) = integerLiteral? text := by
  have hword : ∀ c ∈ rest.head?, isWord c = false := fun c hc => (hrest c hc).1
  by_cases hminus : text.head? = some '-'
  · obtain ⟨digits, rfl⟩ := head?_eq_some_iff.mp hminus
    rw [cons_append, integerLiteral?_negative, unsignedNumber?_append hword, integerLiteral?_negative]
  · have hlonger : (text ++ rest).head? ≠ some '-' := by
      intro hhead
      cases text with
      | nil => exact (hrest '-' hhead).2 rfl
      | cons c text => exact hminus hhead
    rw [integerLiteral?_unsigned hlonger, unsignedNumber?_append hword, integerLiteral?_unsigned hminus]

end

/-! ## The line of an entry -/

namespace Initializer

variable (initial : Initializer)

theorem exists_head : ∃ c rest, initial.text = c :: rest ∧ isBlank c = false ∧ c ≠ ',' := by
  obtain ⟨hpiece, hblank, htrim⟩ := IsPiece.of_splitTopLevel initial.piece
  cases htext : initial.text with
  | nil => rw [htext] at hblank; cases hblank
  | cons c rest =>
    refine ⟨c, rest, rfl, ?_, ?_⟩
    · exact isBlank_of_mem_head?_trim (by rw [htrim, htext]; rfl)
    · rintro rfl
      rw [htext, IsPiece] at hpiece
      obtain ⟨segments, -, hcut⟩ := map_eq_some_iff.mp hpiece
      cases hcut

/-- What stands in front of the first comma starts where the initializer does, and neither a blank nor a
comma goes on with a literal. -/
theorem exists_first {first : Text} {others : List Text} (h : splitOn ',' initial.text = first :: others) :
    ∃ c core, trimRight first = c :: core ∧ c ∈ first ∧ isBlank c = false ∧
      integerLiteral? initial.text = integerLiteral? (c :: core) := by
  obtain ⟨c, tail, htext, hc, hcomma⟩ := initial.exists_head
  obtain ⟨rest, hfirst, hrest⟩ := exists_append_of_splitOn h
  obtain ⟨blanks, hcut, hblanks⟩ := exists_append_dropEndWhile isBlank first
  have hcore : ∃ core, trimRight first = c :: core ∧ c ∈ first := by
    cases first with
    | nil =>
      rw [nil_append] at hfirst
      exact absurd (hrest c (by rw [← hfirst, htext]; rfl)) hcomma
    | cons d first =>
      rw [htext, cons_append] at hfirst
      obtain ⟨rfl, -⟩ := cons.inj hfirst
      obtain ⟨core, hcore⟩ := prefix_trimRight (show [c].getLast? = some c from rfl) hc first
      exact ⟨core, hcore.symm, mem_cons_self⟩
  obtain ⟨core, hcore, hmem⟩ := hcore
  refine ⟨c, core, hcore, hmem, hc, ?_⟩
  have hstop : ∀ d ∈ (blanks ++ rest).head?, isWord d = false ∧ d ≠ '-' := by
    intro d hd
    rw [head?_append] at hd
    rcases or_eq_some_iff.mp hd with hblank | ⟨-, hlast⟩
    · have hd := hblanks d (mem_of_mem_head? hblank)
      exact ⟨isWord_eq_false_of_isBlank hd, ne_of_kind hd (by decide)⟩
    · rw [hrest d hlast]
      decide
  rw [← trimRight, hcore] at hcut
  rw [hfirst, hcut, append_assoc, integerLiteral?_append hstop]

/-- The constant in front of the first comma has the literal that the initializer starts with as its
value. -/
theorem enumConstant?_first (name : PlainName) {first : Text} {others : List Text}
    (h : splitOn ',' initial.text = first :: others) :
    enumConstant? (trim (name.text ++ (" = ".toList ++ first))) =
      some (constantText name.text (integerLiteral? initial.text)) := by
  obtain ⟨c, core, hcore, hmem, hc, hliteral⟩ := initial.exists_first h
  have htrim : trim (name.text ++ (" = ".toList ++ first)) = name.text ++ (" = ".toList ++ c :: core) := by
    obtain ⟨d, hhead, hd⟩ := name.startsName_append (" = ".toList ++ first)
    rw [trim, trimLeft_of_head? hhead (isBlank_eq_false_of_isWord (isWord_of_isNameStart hd)),
      ← append_assoc, trimRight, dropEndWhile_append_of_mem hmem hc, ← trimRight, hcore,
      append_assoc]
  have hsign : ∀ d ∈ (" = ".toList ++ c :: core).head?, isWord d = false := by
    rintro d ⟨⟩
    decide
  rw [htrim, enumConstant?_eq name hsign, assignedLiteral?_assign, trimLeft_cons_of_not_blank hc, hliteral]

end Initializer

namespace EnumEntry

/-- The sign between a name and its initializer holds nothing that ends or cuts a line. -/
theorem of_mem_assignment (name : PlainName) :
    ∀ c ∈ name.text ++ " = ".toList, (isQuote c = false ∧ c ≠ '/') ∧ c ≠ ',' ∧ isLineBreak c = false := by
  intro c hc
  apply EnumConstant.of_isConstantChar
  rcases mem_append.mp hc with hname | hsign
  · exact EnumConstant.isConstantChar_of_isWord (name.isWord_of_mem hname)
  · exact EnumConstant.isConstantChar_of_mem_sign c hsign

theorem row_none (name : PlainName) : row ⟨name, none⟩ = EnumConstant.text ⟨name, none⟩ ++ [','] :=
  rfl

theorem row_some (name : PlainName) (initial : Initializer) :
    row ⟨name, some initial⟩ = name.text ++ " = ".toList ++ (initial.text ++ [',']) := by
  simp [row, constantText]

theorem unbroken_row (entry : EnumEntry) : ∀ c ∈ entry.row, isLineBreak c = false := by
  obtain ⟨name, _ | initial⟩ := entry
  · rw [row_none]
    exact EnumConstant.unbroken_row ⟨name, none⟩
  · rw [row_some]
    intro c hc
    rcases mem_append.mp hc with hlead | hrest
    · exact (of_mem_assignment name c hlead).2.2
    · rcases mem_append.mp hrest with hinitial | hcomma
      · exact initial.unbroken c hinitial
      · obtain rfl := mem_singleton.mp hcomma
        decide

theorem lineConstants_row_some (name : PlainName) (initial : Initializer) (dialect : Dialect) :
    lineConstants dialect (row ⟨name, some initial⟩) =
      constantText name.text (integerLiteral? initial.text) :: initial.strays := by
  have hname : StartsName (row ⟨name, some initial⟩) := by
    rw [row_some, append_assoc]
    exact name.startsName_append _
  have hlast : (row ⟨name, some initial⟩).getLast? = some ',' := getLast?_concat
  have hcode : codeFront none (row ⟨name, some initial⟩) = none := by
    have hbalanced : Balanced initial.text := (IsPiece.of_splitTopLevel initial.piece).1.balanced
    rw [row_some, codeFront_append_plain fun c hc => (of_mem_assignment name c hc).1,
      hbalanced.codeFront_append initial.uncommented (by decide)]
    rfl
  have hcomma : ',' ∉ name.text ++ " = ".toList := fun hmem => (of_mem_assignment name ',' hmem).2.1 rfl
  obtain ⟨first, others, hfirst, hsplit⟩ := exists_splitOn_append hcomma initial.text
  have hread := initial.enumConstant?_first name hfirst
  have hparts : splitOn ',' (row ⟨name, some initial⟩) =
      (name.text ++ (" = ".toList ++ first)) :: (others ++ [[]]) := by
    rw [row_some, ← append_assoc, splitOn_append_cons, hsplit, append_assoc]
    rfl
  have hend : [[]].filterMap (fun part => enumConstant? (trim part)) = [] := rfl
  rw [lineConstants_of_startsName hname hcode ⟨',', hlast, by decide⟩, hparts, ← filterMap_trim,
    map_cons, filterMap_cons_some hread, filterMap_trim, filterMap_append, hend,
    append_nil, Initializer.strays, hfirst, tail_cons]

/-- The line of an entry gives what is read of the entry and what stands behind the commas of its
initializer. -/
theorem lineConstants_row (entry : EnumEntry) (dialect : Dialect) :
    lineConstants dialect entry.row = entry.reading :: entry.strays := by
  obtain ⟨name, _ | initial⟩ := entry
  · exact EnumConstant.lineConstants_row ⟨name, none⟩ dialect
  · exact lineConstants_row_some name initial dialect

theorem constantText_inj {name : Text} {first second : Option Text} :
    constantText name first = constantText name second ↔ first = second := by
  cases first <;> cases second <;> simp [constantText]

/-- The value of an initializer is read exactly if the initializer is an integer literal or starts with
no number. -/
theorem integerLiteral?_eq_filter_iff {text : Text} :
    integerLiteral? text = (some text).filter isIntegerLiteral ↔
      (isIntegerLiteral text || !startsNumber text) = true := by
  by_cases hliteral : isIntegerLiteral text = true
  · rw [filter_some_pos hliteral, integerLiteral?_of_isIntegerLiteral hliteral]
    simp [hliteral]
  · rw [filter_some_neg (by simpa using hliteral), integerLiteral?_eq_none_iff]
    simp [hliteral]

theorem strays_eq_nil_iff (initial : Initializer) :
    initial.strays = [] ↔
      ((splitOn ',' initial.text).tail.all fun part => !(trim part).head?.any isNameStart) = true := by
  have hnone : ∀ part, enumConstant? part = none ↔ (!part.head?.any isNameStart) = true := by
    intro part
    have hsome : (enumConstant? part).isSome = true ↔ part.head?.any isNameStart = true :=
      isSome_enumConstant?_iff.trans (Option.any_eq_true ..).symm
    rw [Bool.not_eq_true', ← Bool.not_eq_true, ← hsome, not_isSome_iff_eq_none]
  rw [Initializer.strays, filterMap_eq_nil_iff, List.all_eq_true]
  exact forall₂_congr fun part _ => hnone (trim part)

theorem reading_eq_value_iff (entry : EnumEntry) :
    entry.reading = entry.value ∧ entry.strays = [] ↔ entry.isFaithful = true := by
  obtain ⟨name, _ | initial⟩ := entry
  · exact iff_of_true ⟨rfl, rfl⟩ rfl
  · have hreading : reading ⟨name, some initial⟩ = value ⟨name, some initial⟩ ↔
        integerLiteral? initial.text = (some initial.text).filter isIntegerLiteral := constantText_inj
    have hfaithful : isFaithful ⟨name, some initial⟩ = initial.isFaithful := rfl
    rw [hreading, integerLiteral?_eq_filter_iff, hfaithful, Initializer.isFaithful, Bool.and_eq_true,
      ← strays_eq_nil_iff]
    rfl

end EnumEntry

/-- A list of one or more results for each item gives one chosen result for each only if there is no more
than the first. -/
theorem flatMap_cons_eq_map_iff {α β : Type} {first value : α → β} {others : α → List β} {items : List α} :
    (items.flatMap fun item => first item :: others item) = items.map value ↔
      ∀ item ∈ items, first item = value item ∧ others item = [] := by
  have hlength : ∀ items : List α,
      items.length ≤ (items.flatMap fun item => first item :: others item).length := by
    intro items
    induction items with
    | nil => exact Nat.le_refl 0
    | cons item items ih =>
      rw [flatMap_cons, length_append, length_cons, length_cons]
      omega
  induction items with
  | nil => simp
  | cons item items ih =>
    rw [flatMap_cons, map_cons, cons_append, forall_mem_cons, cons.injEq]
    constructor
    · rintro ⟨hfirst, hrest⟩
      have hcount := congrArg length hrest
      have hitems := hlength items
      rw [length_append, length_map] at hcount
      have hnil : others item = [] := length_eq_zero_iff.mp (by omega)
      rw [hnil, nil_append] at hrest
      exact ⟨⟨hfirst, hnil⟩, ih.mp hrest⟩
    · rintro ⟨⟨hfirst, hnil⟩, hitems⟩
      rw [hnil, nil_append]
      exact ⟨hfirst, ih.mpr hitems⟩

/-- The printed entries of an enumeration are read line by line, each as its name with the integer literal
that its initializer starts with and the names behind the commas of it. Every entry gives its own value
and nothing else exactly if every initializer is read as what it is. -/
theorem scanEnumValues_written (dialect : Dialect) (entries : List EnumEntry) :
    scanEnumValues dialect (joinLines (entries.map EnumEntry.row)) =
        entries.flatMap (fun entry => entry.reading :: entry.strays) ∧
      (scanEnumValues dialect (joinLines (entries.map EnumEntry.row)) = entries.map EnumEntry.value ↔
        ∀ entry ∈ entries, entry.isFaithful = true) := by
  have hrows : ∀ row ∈ entries.map EnumEntry.row, ∀ c ∈ row, isLineBreak c = false :=
    forall_mem_map.mpr fun entry _ => entry.unbroken_row
  have hscan : scanEnumValues dialect (joinLines (entries.map EnumEntry.row)) =
      entries.flatMap (fun entry => entry.reading :: entry.strays) := by
    rw [scanEnumValues, lines_joinLines hrows, flatMap_map]
    exact flatMap_congr fun entry _ => entry.lineConstants_row dialect
  refine ⟨hscan, ?_⟩
  rw [hscan, flatMap_cons_eq_map_iff]
  exact forall₂_congr fun entry _ => entry.reading_eq_value_iff

end SourceAtlas
