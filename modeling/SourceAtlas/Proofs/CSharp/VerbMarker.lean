import SourceAtlas.Proofs.CSharp.Source
import SourceAtlas.Proofs.Marker.Arguments

/-!
# Reading verb markers back

A written verb marker is one bracket group with one marker in it, and the endpoint of a method takes
its HTTP method and its route from that marker.
-/

namespace SourceAtlas.CSharp

open List

/-! ## Characters -/

theorem Template.isTemplateChar_of_mem (template : Template) {c : Char} (h : c ∈ template.text) :
    isTemplateChar c = true :=
  all_eq_true.mp template.chars c h

theorem Verb.isWord_of_mem_name (verb : Verb) : ∀ c ∈ verb.name, isWord c = true := by
  cases verb <;> exact all_eq_true.mp (by decide)

theorem peel_nil : Dialect.csharp.peel [] = ([], []) := by
  rw [Dialect.peel, peelBracketed, peelWhile]
  rfl

namespace VerbMarker

variable (mark : VerbMarker)

theorem not_quote_of_mem_template : ∀ c ∈ mark.template.text, c ≠ '\x22' ∧ c ≠ '\\' := by
  intro c hc
  have htemplate := mark.template.isTemplateChar_of_mem hc
  exact ⟨ne_of_kind htemplate (by decide), ne_of_kind htemplate (by decide)⟩

theorem trim_argument : trim mark.argument = mark.argument :=
  trim_of_ends (c := '\x22') (d := '\x22') rfl (by decide)
    (by simp [argument, getLast?_cons]) (by decide)

/-! ## The bracket group -/

theorem splitCommas_argument : splitCommas mark.argument = some [mark.argument] := by
  have hquoted : segmentsFrom [','] [] none mark.argument = _ :=
    segmentsFrom_quoted (by decide) mark.not_quote_of_mem_template []
  have hpiece : IsPiece ',' mark.argument := by
    simpa [IsPiece, argument, segmentsFrom, Segments.prepend] using hquoted
  have hsplit := hpiece.splitTopLevel_eq (isBlankText_of_head? rfl (by decide))
  rwa [trim_argument] at hsplit

/-- A verb marker as a marker with one positional argument. -/
def source : MarkerSource where
  name := ⟨mark.verb.name, by cases mark.verb <;> decide⟩
  plain := by cases mark.verb <;> decide
  arguments := some
    { items := [.positional ⟨mark.argument, mark.splitCommas_argument⟩
        (not_isNamedForm (by decide : isNameStart '\x22' = false))]
      distinct := nodup_nil }

theorem peel_text : Dialect.csharp.peel mark.text = ([mark.marker], []) := by
  have hpeel := peelBracketed_groups peel_nil [⟨mark.source.invocation, [], [], rfl⟩]
  simp only [flatMap_cons, flatMap_nil, append_nil, MarkerGroup.items, map_cons, map_nil,
    MarkerSource.marker_attribute] at hpeel
  exact hpeel

/-! ## Endpoints -/

theorem httpVerb?_marker : Dialect.csharp.httpVerb? mark.marker = some mark.verb.method := by
  show csharpVerb? mark.verb.name = some mark.verb.method
  cases mark.verb <;> decide +kernel

theorem unquote?_argument : unquote? mark.argument = some mark.template.text := by
  have hplain : (startsWith "@\x22".toList mark.argument ||
      startsWith "$\x22".toList mark.argument) = false := rfl
  unfold unquote?
  simp only [trim_argument, hplain, Bool.false_eq_true, if_false]
  simp [argument, isQuote]

theorem methodRoute_marker : methodRoute mark.marker [mark.marker] = mark.template.text := by
  have hliteral : mark.marker.literal? routeArguments = some mark.template.text := by
    simp [Marker.literal?, marker, positionalLiteral?, unquote?_argument]
  have hroute : markedRoute? routeMarkers [mark.marker] = none := by
    have hname : routeMarkers.contains (lower mark.verb.name) = false := by
      cases mark.verb <;> decide +kernel
    simp only [markedRoute?, findSome?_cons, findSome?_nil, marker, hname,
      Bool.false_eq_true, if_false]
  cases htext : mark.template.text with
  | nil => simp [methodRoute, hliteral, hroute, htext]
  | cons c rest => simp [methodRoute, hliteral, htext]

end VerbMarker

theorem MemberSource.endpoint?_summary (member : MemberSource) (container base : Text) :
    (Dialect.csharp.endpoint? container base member.summary).map
        (fun endpoint => (endpoint.httpMethod, endpoint.route, endpoint.container,
          endpoint.handler)) =
      member.mark?.map fun mark => (mark.verb.method,
        composeRoute base mark.template.text, container, member.name.text) := by
  cases hform : member.form with
  | method mark parameters =>
    cases mark with
    | none =>
      simp [Dialect.endpoint?, summary, kind, markers, mark?, hform, Dialect.verbMarker?]
    | some mark =>
      simp [Dialect.endpoint?, summary, kind, markers, mark?, hform, Dialect.verbMarker?,
        mark.httpVerb?_marker, mark.methodRoute_marker]
  | property => simp [Dialect.endpoint?, summary, kind, mark?, hform]
  | field => simp [Dialect.endpoint?, summary, kind, mark?, hform]

end SourceAtlas.CSharp
