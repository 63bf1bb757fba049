import SourceAtlas.Document.Yaml.Scalar

/-!
# YAML flow values

Lists and tables between brackets, which may go over several lines and hold each other.
-/

namespace SourceAtlas.Yaml

def skipGap (inComment : Bool) : Text → Text
  | [] => []
  | c :: rest =>
    if c = '\n' then skipGap false rest
    else if inComment || c = ' ' then skipGap inComment rest
    else if c = '#' then skipGap true rest
    else c :: rest

def scalar? (inFlow : Bool) (floor : Nat) (text : Text) : Option (Document × Text) :=
  match text with
  | '\x27' :: rest => (singleQuoted? [] rest).map fun (value, after) => (.text value, after)
  | '\x22' :: rest => (doubleQuoted? [] 0 rest).map fun (value, after) => (.text value, after)
  | _ =>
    if startsPlain inFlow text then
      let (value, after) := plainScalar inFlow floor text
      some (resolve value, after)
    else none

/-- A list or table that is being read: its items last one first, or its entries. -/
inductive Collection where
  | list (items : List Document)
  | table (entries : Entries Text Document)

namespace Collection

def closer : Collection → Char
  | .list _ => ']'
  | .table _ => '}'

def close : Collection → Document
  | .list items => .list items.reverse
  | .table entries => .table entries

def add? (collection : Collection) (item : Document) (value : Option Document) :
    Option Collection :=
  match collection, value with
  | .list items, none => some (.list (item :: items))
  | .list items, some value => (keyText? item).map fun key => .list (.table [(key, value)] :: items)
  | .table entries, value =>
    (keyText? item).map fun key => .table (Entries.put key (value.getD .null) entries)

end Collection

def endsItem (text : Text) : Bool :=
  match text with
  | [] => false
  | c :: _ => ",]\x7d".toList.contains c

mutual

/-- Reads a flow value; `fuel` bounds the number of steps. -/
def flowNode? : Nat → Text → Option (Document × Text)
  | 0, _ => none
  | fuel + 1, text =>
    match text with
    | '[' :: rest => flowItems? fuel (.list []) (skipGap false rest)
    | '{' :: rest => flowItems? fuel (.table []) (skipGap false rest)
    | _ => scalar? true 0 text

def flowItems? : Nat → Collection → Text → Option (Document × Text)
  | 0, _, _ => none
  | fuel + 1, collection, text =>
    if text.head? == some collection.closer then some (collection.close, text.drop 1)
    else do
      let (item, after) ← flowNode? fuel text
      let (value, after) ← flowValue? fuel (skipGap false after)
      let collection ← collection.add? item value
      let after := skipGap false after
      if after.head? == some ',' then flowItems? fuel collection (skipGap false (after.drop 1))
      else if after.head? == some collection.closer then some (collection.close, after.drop 1)
      else none

def flowValue? : Nat → Text → Option (Option Document × Text)
  | 0, _ => none
  | fuel + 1, text =>
    if text.head? == some ':' then
      let after := skipGap false (text.drop 1)
      if endsItem after then some (some .null, after)
      else (flowNode? fuel after).map fun (value, rest) => (some value, rest)
    else some (none, text)

end

end SourceAtlas.Yaml
