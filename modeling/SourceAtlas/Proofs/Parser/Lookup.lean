import SourceAtlas.Parser.Registry
import SourceAtlas.Proofs.Entries
import SourceAtlas.Proofs.Text.Case

/-!
# The parser for an extension

A registry goes by the lower case of extensions on both sides: a parser is found under every spelling
of what it lists. Asked whether it supports an extension, a parser only puts the question in lower
case and not its own list. So the registry gives the first parser that supports an extension exactly
where the first parser that lists it has it in lower case.
-/

namespace SourceAtlas

open List

/-- Whether a parser lists an extension in some letter case. -/
def Parser.lists (parser : Parser) (extension : Text) : Bool :=
  parser.extensions.any fun known => lower known == lower extension

variable {parser : Parser} {parsers : List Parser} {extension : Text}

theorem Parser.lists_iff :
    parser.lists extension = true ↔ ∃ known ∈ parser.extensions, lower known = lower extension := by
  simp [lists]

theorem Parser.lists_of_supports (h : parser.supports extension = true) :
    parser.lists extension = true :=
  lists_iff.mpr ⟨lower extension, contains_iff_mem.mp h, lower_lower extension⟩

namespace Registry

def pairsOf (parsers : List Parser) : Entries Text Parser :=
  parsers.flatMap fun parser => parser.extensions.map fun known => (lower known, parser)

theorem byExtension_ofParsers (parsers : List Parser) :
    (ofParsers parsers).byExtension =
      (pairsOf parsers).foldl (fun table pair => Entries.putNew pair.1 pair.2 table) [] := by
  unfold ofParsers pairsOf
  simp only [foldl_flatMap, foldl_map]

theorem lookup_map_pair (parser : Parser) (known : List Text) (key : Text) :
    (known.map fun name => (lower name, parser)).lookup key =
      if known.any (fun name => lower name == key) then some parser else none := by
  induction known with
  | nil => rfl
  | cons name rest ih =>
    rw [map_cons, lookup_cons, ih, any_cons, BEq.comm]
    cases lower name == key <;> rfl

theorem lookup_pairsOf (parsers : List Parser) (extension : Text) :
    (pairsOf parsers).lookup (lower extension) = parsers.find? (·.lists extension) := by
  induction parsers with
  | nil => rfl
  | cons parser rest ih =>
    have hcons : pairsOf (parser :: rest) =
        (parser.extensions.map fun known => (lower known, parser)) ++ pairsOf rest := rfl
    rw [hcons, lookup_append, lookup_map_pair, ih, find?_cons]
    change (if parser.lists extension then some parser else none).or _ = _
    cases parser.lists extension <;> rfl

theorem parserFor?_ofParsers (parsers : List Parser) (extension : Text) :
    (ofParsers parsers).parserFor? extension = parsers.find? (·.lists extension) := by
  unfold parserFor?
  rw [byExtension_ofParsers, Entries.lookup_foldl_putNew, lookup_nil, Option.none_or,
    lookup_pairsOf]

/-- The first parser that lists an extension is the first that supports it exactly if it supports
it. -/
theorem find?_lists_eq_find?_supports_iff :
    parsers.find? (·.lists extension) = parsers.find? (·.supports extension) ↔
      ∀ parser, parsers.find? (·.lists extension) = some parser →
        parser.supports extension = true := by
  constructor
  · intro hsame parser hparser
    exact find?_some (p := fun parser : Parser => parser.supports extension) (hsame.symm.trans hparser)
  · intro hsupports
    induction parsers with
    | nil => rfl
    | cons parser rest ih =>
      rw [find?_cons, find?_cons]
      rw [find?_cons] at hsupports
      cases hlists : parser.lists extension with
      | true =>
        rw [hlists] at hsupports
        rw [hsupports parser rfl]
      | false =>
        rw [hlists] at hsupports
        have hnot : parser.supports extension = false := by
          rw [Bool.eq_false_iff]
          intro h
          exact Bool.false_ne_true (hlists.symm.trans (Parser.lists_of_supports h))
        rw [hnot]
        exact ih hsupports

/-- The parser for an extension is the first that lists it in any letter case, and there is none
exactly if no parser lists it. It is the first parser that supports the extension exactly if it
supports it, so always where parsers list their extensions in lower case. -/
theorem parserFor?_eq_first_supporting_iff (parsers : List Parser) (extension : Text) :
    (ofParsers parsers).parserFor? extension = parsers.find? (·.lists extension) ∧
      ((ofParsers parsers).parserFor? extension = none ↔
        ∀ parser ∈ parsers, ∀ known ∈ parser.extensions, lower known ≠ lower extension) ∧
      ((ofParsers parsers).parserFor? extension = parsers.find? (·.supports extension) ↔
        ∀ parser, (ofParsers parsers).parserFor? extension = some parser →
          parser.supports extension = true) ∧
      ((∀ parser ∈ parsers, ∀ known ∈ parser.extensions, lower known = known) →
        (ofParsers parsers).parserFor? extension = parsers.find? (·.supports extension)) := by
  rw [parserFor?_ofParsers]
  refine ⟨rfl, ?_, find?_lists_eq_find?_supports_iff, ?_⟩
  · simp only [find?_eq_none, Parser.lists_iff, not_exists, not_and, ne_eq]
  · intro hlower
    apply find?_lists_eq_find?_supports_iff.mpr
    intro parser hparser
    have hlists := find?_some (p := fun parser : Parser => parser.lists extension) hparser
    obtain ⟨known, hknown, hspelling⟩ := Parser.lists_iff.mp hlists
    have hsame := (hlower parser (mem_of_find?_eq_some hparser) known hknown).symm.trans hspelling
    exact contains_iff_mem.mpr (hsame ▸ hknown)

/-- A parser that lists an extension in capitals is found for it and does not support it. -/
example : let parser := { Parser.csharp with extensions := [".CS".toList] }
    ((ofParsers [parser]).parserFor? ".cs".toList).map (·.name) = some parser.name ∧
      parser.supports ".cs".toList = false ∧ parser.supports ".CS".toList = false := by
  decide

end Registry

end SourceAtlas
