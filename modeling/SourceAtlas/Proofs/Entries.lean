import SourceAtlas.Entries
import Mathlib.Data.List.Nodup

/-!
# Tables built from pairs

A key that is not in a table yet goes to its end, so a table built from pairs with distinct keys
is the list of these pairs, and every key leads to its own value. Where a key comes more than once,
its last value counts, or its first where pairs are only put under new keys.
-/

namespace SourceAtlas.Entries

open List Option

variable {α β : Type} [BEq α] [LawfulBEq α] {entries pairs : Entries α β}

theorem put_of_not_mem {key : α} (value : β)
    (hkey : key ∉ entries.map Prod.fst) : put key value entries = entries ++ [(key, value)] := by
  induction entries with
  | nil => rfl
  | cons entry rest ih =>
    obtain ⟨k, v⟩ := entry
    rw [map_cons, mem_cons, not_or] at hkey
    have hne : ¬(k == key) = true := fun hbeq => hkey.1 (beq_iff_eq.mp hbeq).symm
    rw [put, if_neg hne, ih hkey.2, cons_append]

theorem put_of_nodup {key : α} {value : β} {rest : Entries α β}
    (hnodup : ((entries ++ (key, value) :: rest).map Prod.fst).Nodup) :
    put key value entries = entries ++ [(key, value)] := by
  rw [map_append, nodup_append] at hnodup
  exact put_of_not_mem value fun hmem => hnodup.2.2 key hmem key mem_cons_self rfl

theorem foldl_put_of_nodup (entries pairs : Entries α β)
    (hnodup : ((entries ++ pairs).map Prod.fst).Nodup) :
    pairs.foldl (fun table pair => put pair.1 pair.2 table) entries = entries ++ pairs := by
  induction pairs generalizing entries with
  | nil => rw [foldl_nil, append_nil]
  | cons pair rest ih =>
    have happend : entries ++ [pair] ++ rest = entries ++ pair :: rest := by
      rw [append_assoc, singleton_append]
    rw [foldl_cons, put_of_nodup hnodup, ih _ (happend ▸ hnodup), happend]

theorem ofPairs_of_nodup (hnodup : (pairs.map Prod.fst).Nodup) : ofPairs pairs = pairs := by
  have hfold := foldl_put_of_nodup [] pairs ((nil_append pairs).symm ▸ hnodup)
  rwa [nil_append] at hfold

theorem lookup_of_mem (hnodup : (entries.map Prod.fst).Nodup)
    {key : α} {value : β} (hmem : (key, value) ∈ entries) : entries.lookup key = some value := by
  induction entries with
  | nil => cases hmem
  | cons entry rest ih =>
    obtain ⟨k, v⟩ := entry
    rw [map_cons, nodup_cons] at hnodup
    rcases mem_cons.mp hmem with heq | hrest
    · obtain ⟨rfl, rfl⟩ := Prod.mk.injEq .. ▸ heq
      exact lookup_cons_self
    · have hne : key ≠ k := by
        intro hkey
        exact hnodup.1 (mem_map.mpr ⟨(key, value), hrest, hkey⟩)
      rw [lookup_cons, beq_eq_false_iff_ne.mpr hne]
      exact ih hnodup.2 hrest

/-! ## Keys that come more than once -/

theorem lookup_put (key other : α) (value : β) (entries : Entries α β) :
    (put key value entries).lookup other =
      if other == key then some value else entries.lookup other := by
  induction entries with
  | nil =>
    rw [put, lookup_cons, lookup_nil]
    cases other == key <;> rfl
  | cons entry rest ih =>
    obtain ⟨k, v⟩ := entry
    rw [put]
    by_cases hk : k = key
    · subst hk
      rw [if_pos BEq.rfl, lookup_cons, lookup_cons]
      cases other == k <;> rfl
    · have hne : ¬(k == key) = true := fun hbeq => hk (beq_iff_eq.mp hbeq)
      rw [if_neg hne, lookup_cons, lookup_cons, ih]
      cases hother : other == k with
      | false => rfl
      | true =>
        rw [beq_iff_eq.mp hother]
        exact (if_neg hne).symm

omit [LawfulBEq α] in
theorem ofPairs_append (first second : Entries α β) :
    ofPairs (first ++ second) =
      second.foldl (fun table pair => put pair.1 pair.2 table) (ofPairs first) :=
  foldl_append

theorem lookup_foldl_put (entries pairs : Entries α β) (key : α) :
    (pairs.foldl (fun table pair => put pair.1 pair.2 table) entries).lookup key =
      (pairs.reverse.lookup key).or (entries.lookup key) := by
  induction pairs generalizing entries with
  | nil => rw [foldl_nil, reverse_nil, lookup_nil, none_or]
  | cons pair rest ih =>
    obtain ⟨k, v⟩ := pair
    rw [foldl_cons, ih, lookup_put, reverse_cons, lookup_append, Option.or_assoc,
      lookup_cons, lookup_nil]
    cases key == k <;> rfl

theorem lookup_ofPairs (pairs : Entries α β) (key : α) :
    (ofPairs pairs).lookup key = pairs.reverse.lookup key := by
  unfold ofPairs
  rw [lookup_foldl_put, lookup_nil, or_none]

theorem forall_lookup_ofPairs_iff :
    (∀ pair ∈ pairs, (ofPairs pairs).lookup pair.1 = some pair.2) ↔
      ∀ first ∈ pairs, ∀ second ∈ pairs, first.1 = second.1 → first.2 = second.2 := by
  constructor
  · intro hkept first hfirst second hsecond hkey
    have hvalue := hkept first hfirst
    rw [hkey, hkept second hsecond] at hvalue
    exact (some.inj hvalue).symm
  · intro hone pair hpair
    rw [lookup_ofPairs]
    cases hlookup : pairs.reverse.lookup pair.1 with
    | none =>
      have hnot := lookup_eq_none_iff.mp hlookup pair (mem_reverse.mpr hpair)
      exact absurd rfl (bne_iff_ne.mp hnot)
    | some value =>
      obtain ⟨before, after, hreverse, -⟩ := lookup_eq_some_iff.mp hlookup
      have hmem : (pair.1, value) ∈ pairs := by
        rw [← mem_reverse, hreverse]
        exact mem_append_right _ mem_cons_self
      exact congrArg some (hone _ hmem pair hpair rfl)

/-! ## Keys that keep their first value -/

theorem lookup_putNew (key other : α) (value : β) (entries : Entries α β) :
    (putNew key value entries).lookup other =
      (entries.lookup other).or (if other == key then some value else none) := by
  unfold putNew
  by_cases hkey : (entries.lookup key).isSome = true
  · rw [if_pos hkey]
    by_cases hother : other = key
    · rw [hother, or_of_isSome hkey]
    · rw [beq_eq_false_iff_ne.mpr hother, if_neg Bool.false_ne_true, or_none]
  · rw [if_neg hkey, lookup_append, lookup_cons, lookup_nil]
    cases other == key <;> rfl

/-- Where pairs are only put under new keys, what the table held and then the first pair counts. -/
theorem lookup_foldl_putNew (entries pairs : Entries α β) (key : α) :
    (pairs.foldl (fun table pair => putNew pair.1 pair.2 table) entries).lookup key =
      (entries.lookup key).or (pairs.lookup key) := by
  induction pairs generalizing entries with
  | nil => rw [foldl_nil, lookup_nil, or_none]
  | cons pair rest ih =>
    rw [foldl_cons, ih, lookup_putNew, Option.or_assoc, lookup_cons]
    cases key == pair.1 <;> rfl

end SourceAtlas.Entries
