import SourceAtlas.Text.Basic
import SourceAtlas.Text.Printable

/-!
# Quoted text

Text between single quotes, or between double quotes when it holds single quotes only. Characters
that are not printable are written as escapes.
-/

namespace SourceAtlas

/-- The last digits of a number in base sixteen, as many as `width`. -/
def hexDigits : Nat → Nat → Text
  | 0, _ => []
  | width + 1, n => hexDigits width (n / 16) ++ [Nat.digitChar (n % 16)]

def quoteChar (quote c : Char) : Text :=
  if c = quote || c = '\\' then ['\\', c]
  else if c = '\n' then "\\n".toList
  else if c = '\r' then "\\r".toList
  else if c = '\t' then "\\t".toList
  else if isPrintable c then [c]
  else if c.toNat < 0x100 then "\\x".toList ++ hexDigits 2 c.toNat
  else if c.toNat < 0x10000 then "\\u".toList ++ hexDigits 4 c.toNat
  else "\\U".toList ++ hexDigits 8 c.toNat

def quoted (text : Text) : Text :=
  let quote := if text.contains '\x27' && !text.contains '\x22' then '\x22' else '\x27'
  quote :: (text.flatMap (quoteChar quote) ++ [quote])

def quotedList (items : List Text) : Text :=
  '[' :: (joinWith ", ".toList (items.map quoted) ++ [']'])

end SourceAtlas
