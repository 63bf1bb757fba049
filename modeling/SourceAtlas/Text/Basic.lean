/-!
# Text

Text is a list of characters, and every offset or length counts characters. This module holds the
blank and line-break characters and the cutting and joining of text.
-/

namespace SourceAtlas

abbrev Text := List Char

def isBlank (c : Char) : Bool :=
  let n := c.toNat
  (9 ≤ n && n ≤ 13) || (28 ≤ n && n ≤ 32) || n == 0x85 || n == 0xA0 || n == 0x1680 ||
    (0x2000 ≤ n && n ≤ 0x200A) || n == 0x2028 || n == 0x2029 || n == 0x202F || n == 0x205F ||
    n == 0x3000

def isLineBreak (c : Char) : Bool :=
  let n := c.toNat
  (10 ≤ n && n ≤ 13) || (28 ≤ n && n ≤ 30) || n == 0x85 || n == 0x2028 || n == 0x2029

def trimLeft (text : Text) : Text :=
  text.dropWhile isBlank

def dropEndWhile (drop : Char → Bool) (text : Text) : Text :=
  (text.reverse.dropWhile drop).reverse

def trimRight (text : Text) : Text :=
  dropEndWhile isBlank text

def trim (text : Text) : Text :=
  trimRight (trimLeft text)

def isBlankText (text : Text) : Bool :=
  text.all isBlank

/-- The runs of other characters between blanks; `current` is the run at hand, last character
first. -/
def wordsFrom (current : Text) : Text → List Text
  | [] => if current.isEmpty then [] else [current.reverse]
  | c :: rest =>
    if isBlank c then
      if current.isEmpty then wordsFrom [] rest else current.reverse :: wordsFrom [] rest
    else wordsFrom (c :: current) rest

def words (text : Text) : List Text :=
  wordsFrom [] text

def joinWith (separator : Text) : List Text → Text
  | [] => []
  | [part] => part
  | part :: rest => part ++ separator ++ joinWith separator rest

def squeeze (text : Text) : Text :=
  joinWith [' '] (words text)

/-- The lines of a text; `current` is the line at hand, last character first. -/
def linesFrom (current : Text) : Text → List Text
  | [] => if current.isEmpty then [] else [current.reverse]
  | '\r' :: '\n' :: rest => current.reverse :: linesFrom [] rest
  | c :: rest =>
    if isLineBreak c then current.reverse :: linesFrom [] rest else linesFrom (c :: current) rest

/-- The lines of a text without their line breaks. A break at the end opens no further line. -/
def lines (text : Text) : List Text :=
  linesFrom [] text

/-- Line breaks written as `\r\n` or `\r` turned into line feeds. -/
def unifyBreaks : Text → Text
  | [] => []
  | '\r' :: '\n' :: rest => '\n' :: unifyBreaks rest
  | c :: rest => (if c = '\r' then '\n' else c) :: unifyBreaks rest

def splitOn (separator : Char) : Text → List Text
  | [] => [[]]
  | c :: rest =>
    if c = separator then [] :: splitOn separator rest
    else
      match splitOn separator rest with
      | [] => [[c]]
      | part :: parts => (c :: part) :: parts

def afterLast (separator : Char) (text : Text) : Text :=
  (text.reverse.takeWhile (· ≠ separator)).reverse

/-- Whether the text starts with `head`. -/
def startsWith (head text : Text) : Bool :=
  head.isPrefixOf text

/-- Whether the text ends with `tail`. -/
def endsWith (tail text : Text) : Bool :=
  tail.reverse.isPrefixOf text.reverse

/-- The text after `head`, when it starts with that. -/
def dropHead? (head text : Text) : Option Text :=
  if startsWith head text then some (text.drop head.length) else none

/-- The text without its last `count` characters. -/
def dropEnd (count : Nat) (text : Text) : Text :=
  text.take (text.length - count)

/-- The offset of the first occurrence of `needle`; `index` is the offset of the text at hand. -/
def indexFrom? (needle : Text) (index : Nat) : Text → Option Nat
  | [] => if needle.isEmpty then some index else none
  | c :: rest =>
    if startsWith needle (c :: rest) then some index else indexFrom? needle (index + 1) rest

/-- The offset of the first occurrence of `needle` at or after `start`. -/
def indexOf? (needle text : Text) (start : Nat) : Option Nat :=
  if start ≤ text.length then indexFrom? needle start (text.drop start) else none

/-- Whether `needle` occurs in the text. -/
def occursIn (needle text : Text) : Bool :=
  (indexFrom? needle 0 text).isSome

/-- Replaces the occurrences of `needle` from left to right; `skip` characters of an occurrence
are still to be passed over. -/
def replaceFrom (needle replacement : Text) (skip : Nat) : Text → Text
  | [] => []
  | c :: rest =>
    if 0 < skip then replaceFrom needle replacement (skip - 1) rest
    else if startsWith needle (c :: rest) then
      replacement ++ replaceFrom needle replacement (needle.length - 1) rest
    else c :: replaceFrom needle replacement 0 rest

/-- The text with every occurrence of a non-empty `needle` replaced. -/
def replaceAll (needle replacement text : Text) : Text :=
  replaceFrom needle replacement 0 text

def forwardSlashes (text : Text) : Text :=
  text.map fun c => if c = '\\' then '/' else c

/-- The offset that `offset` stands for: a negative one counts from the end. -/
def resolveOffset (text : Text) (offset : Int) : Nat :=
  if offset < 0 then (text.length + offset).toNat else offset.toNat

def natText (n : Nat) : Text :=
  Nat.toDigits 10 n

def intText : Int → Text
  | .ofNat n => natText n
  | .negSucc n => '-' :: natText (n + 1)

end SourceAtlas
