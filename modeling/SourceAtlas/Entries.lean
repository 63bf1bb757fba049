/-!
# Insertion-ordered tables

A table is a list of keys with their values. A key that is put again keeps its place and takes the
new value.
-/

namespace SourceAtlas

/-- Keys with their values, in the order in which the keys were first put. -/
abbrev Entries (α : Type) (β : Type) := List (α × β)

namespace Entries

variable {α β : Type} [BEq α]

def put (key : α) (value : β) : Entries α β → Entries α β
  | [] => [(key, value)]
  | (k, v) :: rest => if k == key then (k, value) :: rest else (k, v) :: put key value rest

/-- Puts a value under a key that is not there yet. -/
def putNew (key : α) (value : β) (entries : Entries α β) : Entries α β :=
  if (entries.lookup key).isSome then entries else entries ++ [(key, value)]

def ofPairs (pairs : List (α × β)) : Entries α β :=
  pairs.foldl (fun entries pair => put pair.1 pair.2 entries) []

end Entries

end SourceAtlas
