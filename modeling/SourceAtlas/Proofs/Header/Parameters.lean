import SourceAtlas.Header
import SourceAtlas.Proofs.Balanced

/-!
# Parameter lists

A signature whose parameter list is closed gives one parameter for each entry of the list that can be
read.
-/

namespace SourceAtlas.Dialect

open List

variable {dialect : Dialect} {header : Header} {lead : Text}

theorem parameters_eq {inner tail : Text} (hinner : Balanced inner)
    (htokenize : dialect.tokenize (lead ++ '(' :: (inner ++ ')' :: tail)) = some header)
    (hopen : header.openParen = some lead.length) :
    dialect.parameters (lead ++ '(' :: (inner ++ ')' :: tail)) =
      ((splitCommas inner).getD []).filterMap dialect.parameter? := by
  have hclose : findParen (lead ++ '(' :: (inner ++ ')' :: tail)) lead.length =
      some (lead.length + (inner.length + 1)) := by
    rw [findParen, findClosing, drop_left, hinner.closingFrom_enclosed rfl (by decide)]
    rfl
  have htake : ((lead ++ '(' :: (inner ++ ')' :: tail)).take (lead.length + (inner.length + 1))).drop
      (lead.length + 1) = inner := by
    rw [take_length_add_append, ← drop_drop, drop_left]
    simp
  have hsplit : splitCommas (trim inner) = splitCommas inner := splitTopLevel_trim (by decide) hinner
  simp only [parameters, htokenize, hopen, hclose, htake, hsplit, Option.bind_eq_bind, Option.bind_some]

theorem parameters_joinWith {α : Type} {text : α → Text} (hpiece : ∀ item, IsPiece ',' (text item))
    (hblank : ∀ item, isBlankText (text item) = false) (items : List α)
    (htokenize : dialect.tokenize (lead ++ '(' :: (joinWith [',', ' '] (items.map text) ++ [')'])) =
      some header)
    (hopen : header.openParen = some lead.length) :
    dialect.parameters (lead ++ '(' :: (joinWith [',', ' '] (items.map text) ++ [')'])) =
      items.filterMap fun item => dialect.parameter? (trim (text item)) := by
  have hinner : Balanced (joinWith [',', ' '] (items.map text)) :=
    .joinWith (.of_inert (all_eq_true.mp (by decide)))
      (forall_mem_map.mpr fun item _ => (hpiece item).balanced)
  have hsplit : splitCommas (joinWith [',', ' '] (items.map text)) =
      some ((items.map text).map trim) := by
    cases items with
    | nil => rfl
    | cons item items =>
      exact splitCommas_joinWith (cons_ne_nil _ _)
        (forall_mem_map.mpr fun item _ => hpiece item)
        (forall_mem_map.mpr fun item _ => hblank item)
  rw [parameters_eq hinner htokenize hopen, hsplit, Option.getD_some, map_map,
    filterMap_map]
  rfl

end SourceAtlas.Dialect
