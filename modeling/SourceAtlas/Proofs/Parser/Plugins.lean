import SourceAtlas.Proofs.Parser.Lookup
import SourceAtlas.Proofs.Parser.Registry

/-!
# Plug-ins and the built-in parsers

A plug-in is used when its name is new, and what it provides goes behind the parsers that are there.
The table of a registry keeps the first parser for an extension. So plug-ins add languages and change
nothing about those that are built in.
-/

namespace SourceAtlas

open List Option

/-- The plug-ins whose names are new, letter case aside. `seen` are the names before them. -/
def newPlugins (seen : List Text) : List Plugin → List Plugin
  | [] => []
  | plugin :: rest =>
    if seen.contains (lower plugin.name) then newPlugins seen rest
    else plugin :: newPlugins (lower plugin.name :: seen) rest

section NewPlugins

variable {seen : List Text} {plugin : Plugin} {rest plugins : List Plugin}

theorem newPlugins_of_mem (h : lower plugin.name ∈ seen) :
    newPlugins seen (plugin :: rest) = newPlugins seen rest := by
  simp [newPlugins, h]

theorem newPlugins_of_notMem (h : lower plugin.name ∉ seen) :
    newPlugins seen (plugin :: rest) = plugin :: newPlugins (lower plugin.name :: seen) rest := by
  simp [newPlugins, h]

theorem newPlugins_sublist (seen : List Text) (plugins : List Plugin) :
    (newPlugins seen plugins).Sublist plugins := by
  induction plugins generalizing seen with
  | nil => exact Sublist.refl []
  | cons plugin rest ih =>
    by_cases h : lower plugin.name ∈ seen
    · rw [newPlugins_of_mem h]
      exact (ih seen).cons plugin
    · rw [newPlugins_of_notMem h]
      exact (ih _).cons_cons plugin

theorem notMem_seen_of_mem_newPlugins (h : plugin ∈ newPlugins seen plugins) :
    lower plugin.name ∉ seen := by
  induction plugins generalizing seen with
  | nil => cases h
  | cons first rest ih =>
    by_cases hfirst : lower first.name ∈ seen
    · rw [newPlugins_of_mem hfirst] at h
      exact ih h
    · rw [newPlugins_of_notMem hfirst] at h
      obtain rfl | hrest := mem_cons.mp h
      · exact hfirst
      · exact fun hseen => ih hrest (mem_cons_of_mem _ hseen)

theorem nodup_newPlugins (seen : List Text) (plugins : List Plugin) :
    ((newPlugins seen plugins).map fun plugin => lower plugin.name).Nodup := by
  induction plugins generalizing seen with
  | nil => exact nodup_nil
  | cons plugin rest ih =>
    by_cases h : lower plugin.name ∈ seen
    · rw [newPlugins_of_mem h]
      exact ih seen
    · rw [newPlugins_of_notMem h, map_cons, nodup_cons]
      refine ⟨fun hmem => ?_, ih _⟩
      obtain ⟨other, hother, hname⟩ := mem_map.mp hmem
      apply notMem_seen_of_mem_newPlugins hother
      exact hname ▸ mem_cons_self

theorem mem_seen_or_newPlugins (h : plugin ∈ plugins) :
    lower plugin.name ∈ seen ∨
      lower plugin.name ∈ (newPlugins seen plugins).map fun plugin => lower plugin.name := by
  induction plugins generalizing seen with
  | nil => cases h
  | cons first rest ih =>
    by_cases hfirst : lower first.name ∈ seen
    · rw [newPlugins_of_mem hfirst]
      obtain rfl | hrest := mem_cons.mp h
      · exact Or.inl hfirst
      · exact ih hrest
    · rw [newPlugins_of_notMem hfirst, map_cons, mem_cons]
      obtain rfl | hrest := mem_cons.mp h
      · exact Or.inr (Or.inl rfl)
      · obtain hseen | hnew := @ih (lower first.name :: seen) hrest
        · obtain hname | hseen := mem_cons.mp hseen
          · exact Or.inr (Or.inl hname)
          · exact Or.inl hseen
        · exact Or.inr (Or.inr hnew)

end NewPlugins

/-! ## Discovery -/

/-- Discovery that succeeds has put a parser for each new name behind those that were there. -/
theorem exists_added_of_addPlugins {parsers found : List Parser} {seen : List Text}
    {plugins : List Plugin} (h : addPlugins parsers seen plugins = .ok found) :
    ∃ added, found = parsers ++ added ∧
      (newPlugins seen plugins).map (·.content.parser?) = added.map some := by
  fun_induction addPlugins parsers seen plugins with
  | case1 parsers seen =>
    cases h
    exact ⟨[], (append_nil _).symm, rfl⟩
  | case2 => cases h
  | case3 parsers seen plugin rest hseen _ ih =>
    rw [newPlugins_of_mem (contains_iff_mem.mp hseen)]
    exact ih h
  | case4 parsers seen plugin rest hseen parser _ hparser ih =>
    obtain ⟨added, hfound, hadded⟩ := ih h
    refine ⟨parser :: added, hfound.trans (append_assoc ..), ?_⟩
    rw [newPlugins_of_notMem fun hmem => hseen (contains_iff_mem.mpr hmem), map_cons,
      hparser, hadded, map_cons]
  | case5 => cases h

namespace Registry

/-- The parsers that are looked at first decide about what they list. -/
theorem parserFor?_append {first second : List Parser} {extension : Text} {parser : Parser}
    (h : (ofParsers first).parserFor? extension = some parser) :
    (ofParsers (first ++ second)).parserFor? extension = some parser := by
  rw [parserFor?_ofParsers] at h ⊢
  rw [find?_append, h, some_or]

theorem lower_mem_of_map_toLower_mem {extension : Text}
    (h : extension.map Char.toLower ∈ builtinExtensions) : lower extension ∈ builtinExtensions := by
  have hascii : (builtinExtensions.all fun known => known.all fun c => c.toNat < 0x80) = true := by
    decide
  have hlower : lower extension = extension.map Char.toLower := by
    apply lower_of_ascii
    intro c hc
    have hsmall := all_eq_true.mp (all_eq_true.mp hascii _ h) _ (mem_map_of_mem hc)
    have hlt : c.toLower.toNat < 0x80 := of_decide_eq_true hsmall
    rw [toNat_toLower] at hlt
    split at hlt <;> omega
  exact hlower ▸ h

theorem exists_parse?_builtin {source : Source} (h : lower source.extension ∈ builtinExtensions) :
    ∃ parser file, builtin.parserFor? source.extension = some parser ∧
      parser.parse source = .ok file := by
  have hlookup : (builtin.byExtension.lookup (lower source.extension)).isSome = true := by
    rw [byExtension_builtin]
    generalize lower source.extension = key at h ⊢
    simp only [builtinExtensions, mem_cons, not_mem_nil, or_false] at h
    obtain rfl | rfl | rfl | rfl := h <;> rfl
  obtain ⟨parser, hparser⟩ := isSome_iff_exists.mp hlookup
  have hmem := @mem_byExtension_of_parserFor? builtin source.extension parser hparser
  rw [byExtension_builtin] at hmem
  simp only [mem_cons, Prod.mk.injEq, not_mem_nil, or_false] at hmem
  obtain ⟨-, rfl⟩ | ⟨-, rfl⟩ | ⟨-, rfl⟩ | ⟨-, rfl⟩ := hmem
  · exact ⟨_, scanBraceSource .csharp source, hparser, rfl⟩
  · exact ⟨_, scanBraceSource .typescript source, hparser, rfl⟩
  · exact ⟨_, scanBraceSource .typescript source, hparser, rfl⟩
  · exact ⟨_, Script.scan source, hparser, rfl⟩

end Registry

/-- Plug-ins leave the built-in languages alone. When discovery succeeds, the built-in parsers come
first and behind them what the plug-ins with new names provide, in their order; each name is used
once. Sources of the built-in languages are read as if there were no plug-ins. -/
theorem discoverParsers_keeps_builtins {plugins : List Plugin} {parsers : List Parser}
    (h : discoverParsers plugins = .ok parsers) :
    (∃ (chosen : List Plugin) (added : List Parser),
      parsers = [Parser.csharp, Parser.typescript, Parser.gdscript] ++ added ∧
      chosen.map (·.content.parser?) = added.map some ∧
      chosen.Sublist plugins ∧
      (chosen.map fun plugin => lower plugin.name).Nodup ∧
      (∀ plugin ∈ chosen, lower plugin.name ∉ Parser.builtins.map (·.name)) ∧
      ∀ plugin ∈ plugins, lower plugin.name ∈ Parser.builtins.map (·.name) ∨
        lower plugin.name ∈ chosen.map fun plugin => lower plugin.name) ∧
      ∀ source : Source, source.extension.map Char.toLower ∈ Registry.builtinExtensions →
        ∃ file, Registry.builtin.parse? source = some (.ok file) ∧
          (Registry.ofParsers parsers).parse? source = some (.ok file) := by
  obtain ⟨added, rfl, hadded⟩ := exists_added_of_addPlugins h
  refine ⟨⟨newPlugins (Parser.builtins.map (·.name)) plugins, added, rfl, hadded,
    newPlugins_sublist _ _, nodup_newPlugins _ _, ?_, ?_⟩, ?_⟩
  · exact fun plugin hplugin => notMem_seen_of_mem_newPlugins hplugin
  · exact fun plugin hplugin => mem_seen_or_newPlugins hplugin
  · intro source hextension
    obtain ⟨parser, file, hparser, hfile⟩ :=
      Registry.exists_parse?_builtin (Registry.lower_mem_of_map_toLower_mem hextension)
    refine ⟨file, ?_, ?_⟩
    · rw [Registry.parse?, hparser, map_some, hfile]
    · rw [Registry.parse?, Registry.parserFor?_append hparser, map_some, hfile]

def Parser.idle (name : Text) (extensions : List Text) : Parser :=
  { name, extensions, parse := fun source => .ok (.blank source.path source.extension) }

/-- Plug-ins that claim extensions and names of built-in languages. -/
def claimingPlugins : List Plugin :=
  [⟨"CSharp".toList, .parser (.idle "sharp".toList [".cs".toList])⟩,
    ⟨"Rust".toList, .maker (some (.idle "rust".toList [".RS".toList, ".CS".toList]))⟩,
    ⟨"rust".toList, .maker none⟩,
    ⟨"lua".toList, .parser (.idle "lua".toList [".lua".toList, ".gd".toList])⟩]

theorem discoverParsers_claimingPlugins : discoverParsers claimingPlugins = .ok (Parser.builtins ++
        [.idle "rust".toList [".RS".toList, ".CS".toList],
          .idle "lua".toList [".lua".toList, ".gd".toList]]) ∧
      ∃ file,
        Registry.builtin.parse? ⟨"a.Cs".toList, ".Cs".toList, "class A \x7b \x7d".toList⟩ =
          some (.ok file) ∧
        (Registry.ofParsers (Parser.builtins ++
          [.idle "rust".toList [".RS".toList, ".CS".toList],
            .idle "lua".toList [".lua".toList, ".gd".toList]])).parse?
            ⟨"a.Cs".toList, ".Cs".toList, "class A \x7b \x7d".toList⟩ = some (.ok file) := by
  have hfound : discoverParsers claimingPlugins = .ok (Parser.builtins ++
      [.idle "rust".toList [".RS".toList, ".CS".toList],
        .idle "lua".toList [".lua".toList, ".gd".toList]]) := rfl
  exact ⟨hfound, (discoverParsers_keeps_builtins hfound).2 _ (by decide)⟩

end SourceAtlas
