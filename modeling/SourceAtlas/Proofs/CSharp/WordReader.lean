import SourceAtlas.Proofs.CSharp.TypeSyntax
import SourceAtlas.Header.Basic

/-!
# Readers that find nothing

A search tries a reader at every place of a text. `Unread` says that the reader finds nothing at any
place of a stretch of text, with the text after it in view; such a stretch is passed over. A reader
that only ever reads at the start of a word passes over a whole type expression when it passes over
the start of it.
-/

namespace SourceAtlas

open List

variable {miss : Option Char → Text → Prop} {before : Option Char}

/-- The character in front of what follows `text`. -/
def lastBefore (before : Option Char) (text : Text) : Option Char :=
  text.getLast?.or before

theorem lastBefore_append (before : Option Char) (first second : Text) :
    lastBefore before (first ++ second) = lastBefore (lastBefore before first) second := by
  simp [lastBefore, getLast?_append, Option.or_assoc]

theorem lastBefore_cons (before : Option Char) (c : Char) (text : Text) :
    lastBefore before (c :: text) = lastBefore (some c) text :=
  lastBefore_append before [c] text

/-- Whether `miss` holds at every place of a stretch of text. It sees the character before the
place and all of the text after it. -/
def Unread (miss : Option Char → Text → Prop) (before : Option Char) : Text → Text → Prop
  | [], _ => True
  | c :: front, rest => miss before (c :: (front ++ rest)) ∧ Unread miss (some c) front rest

theorem Unread.append {first second rest : Text}
    (hfirst : Unread miss before first (second ++ rest))
    (hsecond : Unread miss (lastBefore before first) second rest) :
    Unread miss before (first ++ second) rest := by
  induction first generalizing before with
  | nil => exact hsecond
  | cons c first ih =>
    rw [lastBefore_cons] at hsecond
    exact ⟨by simpa using hfirst.1, ih hfirst.2 hsecond⟩

theorem Unread.right {first second rest : Text} (h : Unread miss before (first ++ second) rest) :
    Unread miss (lastBefore before first) second rest := by
  induction first generalizing before with
  | nil => exact h
  | cons c first ih =>
    rw [lastBefore_cons]
    exact ih h.2

theorem Unread.searchFrom_append {α : Type} {read : Option Char → Nat → Text → Option α}
    {before : Option Char} {front rest : Text}
    (h : Unread (fun before text => ∀ index, read before index text = none) before front rest)
    (index : Nat) :
    searchFrom read before index (front ++ rest) =
      searchFrom read (lastBefore before front) (index + front.length) rest := by
  induction front generalizing before index with
  | nil => rfl
  | cons c front ih =>
    rw [cons_append, searchFrom, h.1 index]
    simp only
    rw [ih h.2, lastBefore_cons, length_cons]
    congr 1
    omega

/-! ## Readers of words -/

namespace CSharp

/-- A reader that reads only at the start of a word, and reads no known identifier that a mark
follows or that stands behind a dot. -/
structure ReadsWords (known : Identifier → Prop) (miss : Option Char → Text → Prop) : Prop where
  mark : ∀ {before c rest}, isWord c = false → miss before (c :: rest)
  inner : ∀ {c text}, isWord c = true → miss (some c) text
  named : ∀ {before rest} (name : Identifier), known name → (∃ c tail, rest = c :: tail ∧
    isWord c = false ∧ isBlank c = false) → miss before (name.text ++ rest)
  dotted : ∀ {rest} (name : Identifier), known name → (∀ c ∈ rest.head?, isWord c = false) →
    miss (some '.') (name.text ++ rest)

namespace ReadsWords

variable {known : Identifier → Prop} {rest : Text} {shape : TypeShape}

theorem unread_marks (hread : ReadsWords known miss) {marks : Text}
    (h : ∀ c ∈ marks, isWord c = false) : Unread miss before marks rest := by
  induction marks generalizing before with
  | nil => trivial
  | cons c marks ih =>
    exact ⟨hread.mark (h c (by simp)), ih fun d hd => h d (by simp [hd])⟩

theorem unread_word (hread : ReadsWords known miss) {word : Text}
    (hword : ∀ c ∈ word, isWord c = true) (hfirst : miss before (word ++ rest)) :
    Unread miss before word rest := by
  have after : ∀ {c : Char} {word : Text}, isWord c = true → (∀ c ∈ word, isWord c = true) →
      Unread miss (some c) word rest := by
    intro c word hc hword
    induction word generalizing c with
    | nil => trivial
    | cons d word ih =>
      exact ⟨hread.inner hc, ih (hword d (by simp)) fun e he => hword e (by simp [he])⟩
  cases word with
  | nil => trivial
  | cons c word => exact ⟨hfirst, after (hword c (by simp)) fun d hd => hword d (by simp [hd])⟩

theorem unread_name (hread : ReadsWords known miss) (name : Identifier)
    (hfirst : miss before (name.text ++ rest)) : Unread miss before name.text rest :=
  hread.unread_word (fun _ hc => name.isWord_of_mem hc) hfirst

/-- Nothing is read at the start of a type expression that a mark follows. -/
theorem miss_type (hread : ReadsWords known miss) (type : TypeSyntax shape)
    (hknown : ∀ name ∈ type.names, known name) {c : Char} {tail : Text}
    (hword : isWord c = false) (hblank : isBlank c = false) :
    miss before (type.text ++ c :: tail) := by
  obtain ⟨name, hname, others, htext, hothers⟩ := type.exists_name_append
  rw [htext, append_assoc]
  apply hread.named name (hknown name hname)
  rcases hothers with rfl | ⟨d, others, rfl, hd⟩
  · exact ⟨c, tail, rfl, hword, hblank⟩
  · exact ⟨d, others ++ c :: tail, rfl, TypeSyntax.isWord_eq_false_of_mem_marks hd,
      TypeSyntax.isBlank_eq_false_of_mem_marks hd⟩

/-- A type expression is passed over when nothing is read at its start. Nothing may be read at the
start of an argument list either, if it is one. -/
theorem unread_type (hread : ReadsWords known miss) (type : TypeSyntax shape)
    (hknown : ∀ name ∈ type.names, known name)
    (hfirst : miss before (type.text ++ rest)) (hrest : ∀ c ∈ rest.head?, isWord c = false)
    (hlist : shape = .list → ∀ {before}, ∀ others : TypeSyntax .list,
      (∀ name ∈ others.names, known name) → miss before (others.text ++ rest)) :
    Unread miss before type.text rest := by
  induction type generalizing before rest with
  | root name => exact hread.unread_name name hfirst
  | nested outer name ih =>
    have houter : ∀ name ∈ outer.names, known name := fun n hn =>
      hknown n (mem_append_left _ hn)
    refine (ih houter (hread.miss_type outer houter (by decide) (by decide)) (by simp; decide)
      (by simp)).append ⟨hread.mark (by decide), ?_⟩
    exact hread.unread_name name (hread.dotted name (hknown name (by simp [TypeSyntax.names])) hrest)
  | generic head arguments ihHead ihArguments =>
    have hhead : ∀ name ∈ head.names, known name := fun n hn =>
      hknown n (mem_append_left _ hn)
    have harguments : ∀ name ∈ arguments.names, known name := fun n hn =>
      hknown n (mem_append_right _ hn)
    refine (ihHead hhead (hread.miss_type head hhead (by decide) (by decide)) (by simp; decide)
      (by simp)).append ⟨hread.mark (by decide), ?_⟩
    refine (ihArguments harguments (hread.miss_type arguments harguments (by decide) (by decide))
      (by simp; decide) fun _ _ others hothers =>
        hread.miss_type others hothers (by decide) (by decide)).append ?_
    exact hread.unread_marks (forall_mem_of_any (by decide))
  | plain path ih => exact ih hknown hfirst hrest (by simp)
  | array element ih =>
    refine (ih hknown (hread.miss_type element hknown (by decide) (by decide)) (by simp; decide)
      (by simp)).append ?_
    exact hread.unread_marks (forall_mem_of_any (by decide))
  | nullable element ih =>
    refine (ih hknown (hread.miss_type element hknown (by decide) (by decide)) (by simp; decide)
      (by simp)).append ?_
    exact hread.unread_marks (forall_mem_of_any (by decide))
  | last type ih => exact ih hknown hfirst hrest (by simp)
  | more type others ihType ihOthers =>
    have htype : ∀ name ∈ type.names, known name := fun n hn =>
      hknown n (mem_append_left _ hn)
    have hothers : ∀ name ∈ others.names, known name := fun n hn =>
      hknown n (mem_append_right _ hn)
    refine (ihType htype (hread.miss_type type htype (by decide) (by decide)) (by simp; decide)
      (by simp)).append ?_
    exact ⟨hread.mark (by decide), hread.mark (by decide),
      ihOthers hothers (hlist rfl others hothers) hrest hlist⟩

end ReadsWords

end CSharp

end SourceAtlas
