import SourceAtlas.EnumConstant
import SourceAtlas.Proofs.Line.Comment
import SourceAtlas.Proofs.Marker.Invocation
import SourceAtlas.Proofs.Text.Split
import Mathlib.Data.Set.List

/-!
# Reading enumeration constants

A constant is read as its name and the integer literal that an `=` assigns to it. What is reported of it is
a constant again and is read as itself, and it holds nothing that a line is cut at. So the constants that a
body gives, printed on one line or on lines of their own, are scanned as what they are.
-/

namespace SourceAtlas

open List Option

/-! ## Integer literals -/

theorem isWord_of_isHexDigit {c : Char} (h : isHexDigit c = true) : isWord c = true := by
  have halpha : c.isAlphanum = true := by
    simp only [isHexDigit, Bool.or_eq_true, Bool.and_eq_true, decide_eq_true_eq] at h
    change ((decide ('A'.val ≤ c.val ∧ c.val ≤ 'Z'.val) || ('a'.val ≤ c.val && c.val ≤ 'z'.val)) ||
      c.isDigit) = true
    simp only [Bool.or_eq_true, Bool.and_eq_true, decide_eq_true_eq]
    rcases h with (hdigit | hlower) | hupper
    · exact .inr hdigit
    · exact .inl (.inr ⟨hlower.1, Char.le_trans hlower.2 (by decide)⟩)
    · exact .inl (.inl ⟨hupper.1, Char.le_trans hupper.2 (by decide)⟩)
  simp [isWord, isAlphanumeric_of_isAlphanum halpha]

/-- The digits of a number: decimal ones of any script, or hexadecimal ones behind `0x`. -/
inductive IsNumber : Text → Prop
  | decimal {digits : Text} (nonempty : digits ≠ []) (all : ∀ c ∈ digits, isDecimalDigit c = true) :
      IsNumber digits
  | hexadecimal {x : Char} {digits : Text} (mark : x = 'x' ∨ x = 'X') (nonempty : digits ≠ [])
      (all : ∀ c ∈ digits, isHexDigit c = true) : IsNumber ('0' :: x :: digits)

/-- An integer literal: a number with or without a minus sign. -/
inductive IsInteger : Text → Prop
  | unsigned {number : Text} (digits : IsNumber number) : IsInteger number
  | negative {number : Text} (digits : IsNumber number) : IsInteger ('-' :: number)

section

variable {text rest number : Text} {x : Char}

theorem unsignedNumber?_marked (hx : x = 'x' ∨ x = 'X') (rest : Text) :
    unsignedNumber? ('0' :: x :: rest) =
      some (if rest.takeWhile isHexDigit = [] then ['0'] else '0' :: x :: rest.takeWhile isHexDigit) := by
  have hmark : isDecimalDigit x = false := by
    rcases hx with rfl | rfl <;> decide
  have hzero : (['0'] ++ x :: rest).takeWhile isDecimalDigit = ['0'] :=
    takeWhile_append_of_stop (by simp; decide) (by simp [hmark])
  rw [singleton_append] at hzero
  unfold unsignedNumber?
  simp only [hzero]
  by_cases hdigits : rest.takeWhile isHexDigit = []
  · simp [hdigits]
  · simp [hdigits, hx]

theorem unsignedNumber?_unmarked (h : ∀ x rest, text = '0' :: x :: rest → x ≠ 'x' ∧ x ≠ 'X') :
    unsignedNumber? text =
      if text.takeWhile isDecimalDigit = [] then none else some (text.takeWhile isDecimalDigit) := by
  unfold unsignedNumber?
  split
  · next x rest =>
    have hx := h x rest rfl
    simp [hx]
  · simp

/-- A number is marked as hexadecimal in the first two characters. -/
theorem marked_or_unmarked (text : Text) :
    (∃ x rest, text = '0' :: x :: rest ∧ (x = 'x' ∨ x = 'X')) ∨
      ∀ x rest, text = '0' :: x :: rest → x ≠ 'x' ∧ x ≠ 'X' := by
  by_cases h : ∃ x rest, text = '0' :: x :: rest ∧ (x = 'x' ∨ x = 'X')
  · exact .inl h
  · refine .inr fun x rest htext => ?_
    constructor <;> exact fun hx => h ⟨x, rest, htext, by simp [hx]⟩

theorem isNumber_of_unsignedNumber? (h : unsignedNumber? text = some number) : IsNumber number := by
  rcases marked_or_unmarked text with ⟨x, rest, rfl, hx⟩ | hunmarked
  · rw [unsignedNumber?_marked hx, some.injEq] at h
    split at h
    · subst h
      exact .decimal (by simp) (by simp; decide)
    · next hdigits =>
      subst h
      exact .hexadecimal hx hdigits fun _ hc => mem_takeWhile_imp hc
  · rw [unsignedNumber?_unmarked hunmarked] at h
    split at h
    · cases h
    · next hdigits =>
      cases h
      exact .decimal hdigits fun _ hc => mem_takeWhile_imp hc

theorem IsNumber.isWord_of_mem (h : IsNumber number) : ∀ c ∈ number, isWord c = true := by
  cases h with
  | decimal nonempty all => exact fun c hc => isWord_of_isDecimalDigit (all c hc)
  | hexadecimal mark nonempty all =>
    intro c hc
    rw [mem_cons, mem_cons] at hc
    rcases hc with rfl | rfl | hc
    · decide
    · rcases mark with rfl | rfl <;> decide
    · exact isWord_of_isHexDigit (all c hc)

theorem IsNumber.ne_nil (h : IsNumber number) : number ≠ [] := by
  cases h with
  | decimal nonempty all => exact nonempty
  | hexadecimal mark nonempty all => exact cons_ne_nil _ _

theorem IsNumber.exists_getLast? (h : IsNumber number) :
    ∃ c, number.getLast? = some c ∧ isWord c = true :=
  ⟨_, getLast?_eq_some_getLast h.ne_nil, h.isWord_of_mem _ (getLast_mem h.ne_nil)⟩

theorem IsNumber.unsignedNumber?_eq (h : IsNumber number) : unsignedNumber? number = some number := by
  cases h with
  | decimal nonempty all =>
    have hunmarked : ∀ x rest, number = '0' :: x :: rest → x ≠ 'x' ∧ x ≠ 'X' := by
      intro x rest hnumber
      have hx : isDecimalDigit x = true := all x (by simp [hnumber])
      constructor <;> exact ne_of_kind hx (by decide)
    rw [unsignedNumber?_unmarked hunmarked, takeWhile_eq_self_iff.mpr all, if_neg nonempty]
  | hexadecimal mark nonempty all =>
    rw [unsignedNumber?_marked mark, takeWhile_eq_self_iff.mpr all, if_neg nonempty]

theorem unsignedNumber?_append (hrest : ∀ c ∈ rest.head?, isWord c = false) (text : Text) :
    unsignedNumber? (text ++ rest) = unsignedNumber? text := by
  have hdecimal : ∀ c ∈ rest.head?, isDecimalDigit c = false := fun c hc =>
    Bool.eq_false_iff.mpr fun hdigit => Bool.eq_false_iff.mp (hrest c hc) (isWord_of_isDecimalDigit hdigit)
  have hhex : ∀ c ∈ rest.head?, isHexDigit c = false := fun c hc =>
    Bool.eq_false_iff.mpr fun hdigit => Bool.eq_false_iff.mp (hrest c hc) (isWord_of_isHexDigit hdigit)
  rcases marked_or_unmarked text with ⟨x, tail, rfl, hx⟩ | hunmarked
  · rw [cons_append, cons_append, unsignedNumber?_marked hx, unsignedNumber?_marked hx,
      takeWhile_append_right hhex]
  · have hlonger : ∀ x tail, text ++ rest = '0' :: x :: tail → x ≠ 'x' ∧ x ≠ 'X' := by
      intro x tail htext
      rcases text with _ | ⟨c, _ | ⟨d, text⟩⟩
      · rw [nil_append] at htext
        exact absurd (hrest '0' (by simp [htext])) (by decide)
      · rw [singleton_append] at htext
        obtain ⟨-, htail⟩ := cons.inj htext
        have hx : isWord x = false := hrest x (by simp [htail])
        constructor <;> exact Ne.symm (ne_of_kind (by decide) hx)
      · rw [cons_append, cons_append] at htext
        obtain ⟨hc, htail⟩ := cons.inj htext
        obtain ⟨hd, -⟩ := cons.inj htail
        exact hunmarked x text (by rw [hc, hd])
    rw [unsignedNumber?_unmarked hlonger, unsignedNumber?_unmarked hunmarked,
      takeWhile_append_right hdecimal]

theorem unsignedNumber?_eq_none_iff :
    unsignedNumber? text = none ↔ ∀ c ∈ text.head?, isDecimalDigit c = false := by
  rcases marked_or_unmarked text with ⟨x, rest, rfl, hx⟩ | hunmarked
  · rw [unsignedNumber?_marked hx]
    simp
    decide
  · rw [unsignedNumber?_unmarked hunmarked]
    cases text with
    | nil => simp
    | cons c rest => by_cases hc : isDecimalDigit c = true <;> simp [hc]

theorem integerLiteral?_negative (rest : Text) :
    integerLiteral? ('-' :: rest) = (unsignedNumber? rest).map ('-' :: ·) :=
  rfl

theorem integerLiteral?_unsigned (h : text.head? ≠ some '-') :
    integerLiteral? text = unsignedNumber? text := by
  unfold integerLiteral?
  split
  · exact absurd rfl h
  · rfl

theorem isInteger_of_integerLiteral? (h : integerLiteral? text = some number) : IsInteger number := by
  unfold integerLiteral? at h
  split at h
  · obtain ⟨digits, hdigits, rfl⟩ := map_eq_some_iff.mp h
    exact .negative (isNumber_of_unsignedNumber? hdigits)
  · exact .unsigned (isNumber_of_unsignedNumber? h)

theorem IsNumber.head?_ne_minus (h : IsNumber number) : number.head? ≠ some '-' := by
  intro hhead
  have hminus := h.isWord_of_mem '-' (mem_of_mem_head? hhead)
  exact absurd hminus (by decide)

theorem IsInteger.integerLiteral?_eq (h : IsInteger number) : integerLiteral? number = some number := by
  cases h with
  | unsigned digits => rw [integerLiteral?_unsigned digits.head?_ne_minus, digits.unsignedNumber?_eq]
  | negative digits => rw [integerLiteral?_negative, digits.unsignedNumber?_eq, map_some]

theorem IsInteger.isWord_or_of_mem (h : IsInteger number) :
    ∀ c ∈ number, isWord c = true ∨ c = '-' := by
  cases h with
  | unsigned digits => exact fun c hc => .inl (digits.isWord_of_mem c hc)
  | negative digits =>
    intro c hc
    rcases mem_cons.mp hc with rfl | hc
    · exact .inr rfl
    · exact .inl (digits.isWord_of_mem c hc)

theorem IsInteger.trimLeft_eq (h : IsInteger number) : trimLeft number = number := by
  apply trimLeft_eq_self
  intro c hc
  rcases h.isWord_or_of_mem c (mem_of_mem_head? hc) with hword | rfl
  · exact isBlank_eq_false_of_isWord hword
  · decide

theorem IsInteger.exists_getLast? (h : IsInteger number) :
    ∃ c, number.getLast? = some c ∧ isWord c = true := by
  cases h with
  | unsigned digits => exact digits.exists_getLast?
  | negative digits =>
    obtain ⟨c, hlast, hc⟩ := digits.exists_getLast?
    refine ⟨c, ?_, hc⟩
    rw [getLast?_cons, hlast]
    rfl

end

/-! ## A constant and its value -/

/-- The integer literal that an `=` assigns to the name in front. -/
def assignedLiteral? (after : Text) : Option Text :=
  (dropHead? ['='] (trimLeft after)).bind fun rest => integerLiteral? (trimLeft rest)

def constantText (name : Text) (value : Option Text) : Text :=
  name ++ (value.map (" = ".toList ++ ·)).getD []

section

variable {part after : Text}

theorem enumConstant?_eq (name : PlainName) (hafter : ∀ c ∈ after.head?, isWord c = false) :
    enumConstant? (name.text ++ after) = some (constantText name.text (assignedLiteral? after)) := by
  obtain ⟨c, rest, hcons, hstart⟩ := name.exists_cons
  have htake : (name.text ++ after).takeWhile isWord = name.text :=
    takeWhile_append_of_stop (fun _ hc => name.isWord_of_mem hc) hafter
  have hdrop : (name.text ++ after).drop name.text.length = after := drop_left
  have hhead : name.text ++ after = c :: (rest ++ after) := by rw [hcons, cons_append]
  unfold enumConstant? assignedLiteral? constantText
  rw [hhead] at htake hdrop ⊢
  simp only [hstart, if_true, htake, hdrop]
  split
  · next rest htrim =>
    have hassign : dropHead? ['='] ('=' :: rest) = some rest := dropHead?_eq_some_iff.mpr rfl
    rw [htrim, hassign, bind_some]
    split
    · next value hvalue => simp [hvalue]
    · next hvalue => simp [hvalue]
  · next hne =>
    have hnone : dropHead? ['='] (trimLeft after) = none := by
      rw [eq_none_iff_forall_ne_some]
      exact fun rest hrest => hne rest (dropHead?_eq_some_iff.mp hrest)
    simp [hnone]

theorem assignedLiteral?_assign (rest : Text) :
    assignedLiteral? (" = ".toList ++ rest) = integerLiteral? (trimLeft rest) := by
  have hsign : trimLeft (" = ".toList ++ rest) = ['='] ++ ' ' :: rest := rfl
  rw [assignedLiteral?, hsign, dropHead?_eq_some_iff.mpr rfl, bind_some,
    trimLeft_cons_of_blank (by decide)]

theorem exists_name_append (h : StartsName part) :
    ∃ (name : PlainName) (after : Text), part = name.text ++ after ∧
      ∀ c ∈ after.head?, isWord c = false := by
  obtain ⟨c, hhead, hstart⟩ := h
  obtain ⟨rest, rfl⟩ := head?_eq_some_iff.mp hhead
  have hname : ((c :: rest).takeWhile isWord).head? = some c := by
    rw [takeWhile_cons_of_pos (isWord_of_isNameStart hstart), head?_cons]
  have hwords : ((c :: rest).takeWhile isWord).all isWord = true :=
    all_eq_true.mpr fun _ hc => mem_takeWhile_imp hc
  refine ⟨⟨(c :: rest).takeWhile isWord, by simp [hname, hstart, hwords]⟩, (c :: rest).dropWhile isWord,
    takeWhile_append_dropWhile.symm, ?_⟩
  intro d hd
  obtain ⟨tail, htail⟩ := head?_eq_some_iff.mp hd
  exact of_dropWhile_eq_cons htail

theorem startsName_of_enumConstant? {value : Text} (h : enumConstant? part = some value) :
    StartsName part := by
  cases part with
  | nil => cases h
  | cons c rest =>
    refine ⟨c, rfl, ?_⟩
    by_contra hstart
    simp [enumConstant?, hstart] at h

theorem isSome_enumConstant?_iff : (enumConstant? part).isSome = true ↔ StartsName part := by
  constructor
  · intro h
    obtain ⟨value, hvalue⟩ := isSome_iff_exists.mp h
    exact startsName_of_enumConstant? hvalue
  · intro h
    obtain ⟨name, after, rfl, hafter⟩ := exists_name_append h
    rw [enumConstant?_eq name hafter, isSome_some]

end

/-- A constant with an optional integer literal as its value. -/
structure EnumConstant where
  name : PlainName
  value : Option { number : Text // IsInteger number }

namespace EnumConstant

def text (constant : EnumConstant) : Text :=
  constantText constant.name.text (constant.value.map (·.1))

def isConstantChar (c : Char) : Bool :=
  isWord c || " =-".toList.contains c

theorem of_isConstantChar {c : Char} (h : isConstantChar c = true) :
    (isQuote c = false ∧ c ≠ '/') ∧ c ≠ ',' ∧ isLineBreak c = false := by
  rcases Bool.or_eq_true_iff.mp h with hword | hmark
  · refine ⟨⟨(isInert_iff.mp (isInert_of_isWord hword)).1, ne_of_kind hword (by decide)⟩,
      ne_of_kind hword (by decide), Bool.eq_false_iff.mpr fun hbreak => ?_⟩
    exact Bool.eq_false_iff.mp (isBlank_eq_false_of_isWord hword) (isBlank_of_isLineBreak hbreak)
  · have hcases : c = ' ' ∨ c = '=' ∨ c = '-' := by simpa using hmark
    rcases hcases with rfl | rfl | rfl <;> decide

theorem isConstantChar_of_isWord {c : Char} (h : isWord c = true) : isConstantChar c = true := by
  rw [isConstantChar, h, Bool.true_or]

theorem isConstantChar_of_mem_sign : ∀ c ∈ " = ".toList, isConstantChar c = true :=
  all_eq_true.mp (by decide)

theorem exists_of_enumConstant? {part value : Text} (h : enumConstant? part = some value) :
    ∃ constant : EnumConstant, constant.text = value := by
  obtain ⟨name, after, rfl, hafter⟩ := exists_name_append (startsName_of_enumConstant? h)
  rw [enumConstant?_eq name hafter, some.injEq] at h
  cases hassigned : assignedLiteral? after with
  | none => exact ⟨⟨name, none⟩, by rw [← h, hassigned]; rfl⟩
  | some number =>
    obtain ⟨rest, -, hnumber⟩ := bind_eq_some_iff.mp hassigned
    exact ⟨⟨name, some ⟨number, isInteger_of_integerLiteral? hnumber⟩⟩, by rw [← h, hassigned]; rfl⟩

variable (constant : EnumConstant)

theorem startsName_text : StartsName constant.text :=
  constant.name.startsName_append _

theorem enumConstant?_text : enumConstant? constant.text = some constant.text := by
  obtain ⟨name, value⟩ := constant
  cases value with
  | none => exact enumConstant?_eq name (by simp)
  | some number =>
    have hsign : ∀ c ∈ (" = ".toList ++ number.1).head?, isWord c = false := by
      rintro c ⟨⟩
      decide
    have hvalue : assignedLiteral? (" = ".toList ++ number.1) = some number.1 := by
      rw [assignedLiteral?_assign, number.2.trimLeft_eq, number.2.integerLiteral?_eq]
    have hconstant := enumConstant?_eq name hsign
    rwa [hvalue] at hconstant

theorem isConstantChar_of_mem : ∀ c ∈ constant.text, isConstantChar c = true := by
  obtain ⟨name, value⟩ := constant
  intro c hc
  rcases mem_append.mp hc with hname | hvalue
  · exact isConstantChar_of_isWord (name.isWord_of_mem hname)
  · cases value with
    | none => cases hvalue
    | some number =>
      rcases mem_append.mp hvalue with hsign | hnumber
      · exact isConstantChar_of_mem_sign c hsign
      · rcases number.2.isWord_or_of_mem c hnumber with hword | rfl
        · exact isConstantChar_of_isWord hword
        · decide

theorem comma_not_mem : ',' ∉ constant.text := fun hmem =>
  (of_isConstantChar (constant.isConstantChar_of_mem ',' hmem)).2.1 rfl

theorem exists_getLast? : ∃ c, constant.text.getLast? = some c ∧ isBlank c = false := by
  obtain ⟨name, value⟩ := constant
  cases value with
  | none =>
    obtain ⟨c, rest, hcons, -⟩ := name.exists_cons
    have hne : name.text ≠ [] := by simp [hcons]
    refine ⟨name.text.getLast hne, ?_,
      isBlank_eq_false_of_isWord (name.isWord_of_mem (getLast_mem hne))⟩
    rw [text, constantText, map_none, map_none, getD_none, append_nil,
      getLast?_eq_some_getLast hne]
  | some number =>
    obtain ⟨c, hlast, hc⟩ := number.2.exists_getLast?
    refine ⟨c, ?_, isBlank_eq_false_of_isWord hc⟩
    rw [text, constantText, map_some, map_some, getD_some, getLast?_append,
      getLast?_append, hlast, some_or, some_or]

theorem trim_text : trim constant.text = constant.text := by
  obtain ⟨c, hhead, hstart⟩ := constant.startsName_text
  obtain ⟨d, hlast, hd⟩ := constant.exists_getLast?
  exact trim_of_ends hhead (isBlank_eq_false_of_isWord (isWord_of_isNameStart hstart)) hlast hd

end EnumConstant

/-! ## Lines of constants -/

section

variable {dialect : Dialect} {row : Text}

/-- A line that starts with a name and holds no comment is cut at its commas. -/
theorem lineConstants_of_startsName (hname : StartsName row) (hcode : codeFront none row = none)
    (hlast : ∃ c, row.getLast? = some c ∧ isBlank c = false) :
    lineConstants dialect row = (splitOn ',' row).filterMap fun part => enumConstant? (trim part) := by
  obtain ⟨c, hhead, hstart⟩ := hname
  obtain ⟨d, hlast, hd⟩ := hlast
  have hword : isWord c = true := isWord_of_isNameStart hstart
  have hblank : isBlank c = false := isBlank_eq_false_of_isWord hword
  have hline : codeOf row = row := by
    rw [codeOf_eq_trim hcode, trim_of_ends hhead hblank hlast hd]
  have hempty : row.isEmpty = false := by
    obtain ⟨rest, rfl⟩ := head?_eq_some_iff.mp hhead
    rfl
  have hcomment : dialect.isComment row = false := by
    apply dialect.isComment_of_head? hhead
    have hmarks := forall_mem_of_any (show "/*#".toList.any isWord = false by decide)
    exact fun hc => Bool.eq_false_iff.mp (hmarks c hc) hword
  have hpeel : dialect.peel row = ([], row) :=
    Dialect.peel_of_head? hhead hblank (ne_of_kind hword (by cases dialect <;> decide))
  rw [lineConstants]
  simp only [hline, hempty, hcomment, hpeel, Bool.or_self, Bool.false_eq_true, if_false]

theorem filterMap_trim (parts : List Text) :
    (parts.map trim).filterMap enumConstant? =
      parts.filterMap fun part => enumConstant? (trim part) :=
  filterMap_map

theorem map_trim_splitOn_joinWith {parts : List Text} (hne : parts ≠ [])
    (h : ∀ part ∈ parts, ',' ∉ part) :
    (splitOn ',' (joinWith ", ".toList parts)).map trim = parts.map trim := by
  induction parts with
  | nil => exact absurd rfl hne
  | cons part parts ih =>
    rw [forall_mem_cons] at h
    by_cases hlast : parts = []
    · subst hlast
      rw [joinWith, splitOn_of_notMem h.1]
    · have hspace : ',' ∉ [' '] := by decide
      obtain ⟨first, others, hfirst, hspaced⟩ :=
        exists_splitOn_append hspace (joinWith ", ".toList parts)
      have htrim : trim ([' '] ++ first) = trim first := trim_blanks_append (by simp; decide) first
      have hjoin : joinWith ", ".toList (part :: parts) =
          part ++ ',' :: ([' '] ++ joinWith ", ".toList parts) := by
        rw [joinWith_cons _ _ hlast, append_assoc]
        rfl
      rw [hjoin, splitOn_append h.1, hspaced, map_cons, map_cons, htrim, ← map_cons,
        ← hfirst, ih hlast h.2, map_cons]

end

theorem EnumConstant.unbroken_row (constant : EnumConstant) :
    ∀ c ∈ constant.text ++ [','], isLineBreak c = false := by
  intro c hc
  rcases mem_append.mp hc with hconstant | hcomma
  · exact (of_isConstantChar (constant.isConstantChar_of_mem c hconstant)).2.2
  · obtain rfl := mem_singleton.mp hcomma
    decide

theorem EnumConstant.lineConstants_row (constant : EnumConstant) (dialect : Dialect) :
    lineConstants dialect (constant.text ++ [',']) = [constant.text] := by
  have hplain : ∀ c ∈ constant.text ++ [','], isQuote c = false ∧ c ≠ '/' := by
    intro c hc
    rcases mem_append.mp hc with hconstant | hcomma
    · exact (of_isConstantChar (constant.isConstantChar_of_mem c hconstant)).1
    · obtain rfl := mem_singleton.mp hcomma
      decide
  have hname : StartsName (constant.text ++ [',']) := by
    obtain ⟨c, hhead, hstart⟩ := constant.startsName_text
    exact ⟨c, by rw [head?_append, hhead, some_or], hstart⟩
  have hlast : (constant.text ++ [',']).getLast? = some ',' := getLast?_concat
  rw [lineConstants_of_startsName hname (codeFront_of_plain hplain) ⟨',', hlast, by decide⟩,
    splitOn_append constant.comma_not_mem, ← filterMap_trim, map_cons, constant.trim_text,
    filterMap_cons_some constant.enumConstant?_text]
  rfl

section

variable (dialect : Dialect) (constants : List EnumConstant)

theorem filterMap_enumConstant?_text :
    (constants.map EnumConstant.text).filterMap enumConstant? = constants.map EnumConstant.text := by
  induction constants with
  | nil => rfl
  | cons constant constants ih =>
    rw [map_cons, filterMap_cons_some constant.enumConstant?_text, ih]

theorem map_trim_text :
    (constants.map EnumConstant.text).map trim = constants.map EnumConstant.text := by
  rw [List.map_map]
  exact map_congr_left fun constant _ => constant.trim_text

theorem scanEnumValues_joined :
    scanEnumValues dialect (joinWith ", ".toList (constants.map EnumConstant.text)) =
      constants.map EnumConstant.text := by
  cases constants with
  | nil => rfl
  | cons constant others =>
    have hne : (constant :: others).map EnumConstant.text ≠ [] := cons_ne_nil _ _
    have hchars : ∀ c ∈ joinWith ", ".toList ((constant :: others).map EnumConstant.text),
        (isQuote c = false ∧ c ≠ '/') ∧ isLineBreak c = false := by
      refine forall_mem_joinWith (by simp; decide) (forall_mem_map.mpr fun other _ c hc => ?_)
      have hkind := EnumConstant.of_isConstantChar (other.isConstantChar_of_mem c hc)
      exact ⟨hkind.1, hkind.2.2⟩
    have hcommas : ∀ part ∈ (constant :: others).map EnumConstant.text, ',' ∉ part :=
      forall_mem_map.mpr fun other _ => other.comma_not_mem
    have hname : StartsName (joinWith ", ".toList ((constant :: others).map EnumConstant.text)) := by
      obtain ⟨c, hhead, hstart⟩ := constant.startsName_text
      exact ⟨c, head?_joinWith hhead _ _, hstart⟩
    have hlast := exists_getLast?_joinWith hne (forall_mem_map.mpr fun other _ =>
      other.exists_getLast?) ", ".toList
    have hline := hname.ne_nil
    have hcode := codeFront_of_plain fun c hc => (hchars c hc).1
    rw [scanEnumValues, lines_of_unbroken (fun c hc => (hchars c hc).2) hline, flatMap_singleton,
      lineConstants_of_startsName hname hcode hlast, ← filterMap_trim,
      map_trim_splitOn_joinWith hne hcommas, map_trim_text, filterMap_enumConstant?_text]

theorem scanEnumValues_rows :
    scanEnumValues dialect (joinLines (constants.map fun constant => constant.text ++ [','])) =
      constants.map EnumConstant.text := by
  have hrows : ∀ row ∈ constants.map fun constant => constant.text ++ [','],
      ∀ c ∈ row, isLineBreak c = false :=
    forall_mem_map.mpr fun constant _ => constant.unbroken_row
  rw [scanEnumValues, lines_joinLines hrows, flatMap_map, map_eq_flatMap]
  exact flatMap_congr fun constant _ => constant.lineConstants_row dialect

end

theorem exists_constants (dialect : Dialect) (body : Text) :
    ∃ constants : List EnumConstant, scanEnumValues dialect body = constants.map EnumConstant.text := by
  have hvalues : ∀ value ∈ scanEnumValues dialect body, ∃ constant : EnumConstant,
      constant.text = value := by
    intro value hvalue
    obtain ⟨row, -, hrow⟩ := mem_flatMap.mp hvalue
    rw [lineConstants] at hrow
    split at hrow
    · cases hrow
    · obtain ⟨part, -, hpart⟩ := mem_filterMap.mp hrow
      exact EnumConstant.exists_of_enumConstant? hpart
  have hrange : scanEnumValues dialect body ∈ Set.range (List.map EnumConstant.text) := by
    rw [Set.range_list_map]
    exact hvalues
  obtain ⟨constants, hconstants⟩ := hrange
  exact ⟨constants, hconstants.symm⟩

/-- The constants that a body gives are scanned as themselves, whether they are printed on one line or on
lines of their own. -/
theorem scanEnumValues_reported (dialect : Dialect) (body : Text) :
    scanEnumValues dialect (joinWith ", ".toList (scanEnumValues dialect body)) =
        scanEnumValues dialect body ∧
      scanEnumValues dialect (joinLines ((scanEnumValues dialect body).map (· ++ [',']))) =
        scanEnumValues dialect body := by
  obtain ⟨constants, hconstants⟩ := exists_constants dialect body
  rw [hconstants, List.map_map]
  exact ⟨scanEnumValues_joined dialect constants, scanEnumValues_rows dialect constants⟩

end SourceAtlas
