import SourceAtlas.Proofs.Endpoint.Payload
import SourceAtlas.Proofs.Endpoint.Verb
import SourceAtlas.Proofs.Member.Drawn

/-!
# Endpoints and the methods that serve them

The endpoints of a type are those of its methods with a verb marker, one for each and in their order.
What is said about an endpoint is drawn from the same source as the type and the method.
-/

namespace SourceAtlas

open List Option

variable {markers : List Marker} {container base text payload : Text}

variable {source : Text} {dialect : Dialect} {type : TypeSummary} {member : Member}
  {endpoint : Endpoint}

def Dialect.serves (dialect : Dialect) (member : Member) : Bool :=
  member.kind == .method && member.markers.any fun marker => (dialect.httpVerb? marker).isSome

/-- The methods with a verb marker of some types, each with its type. -/
def Dialect.servers (dialect : Dialect) (types : List TypeSummary) : List (TypeSummary × Member) :=
  types.flatMap fun type => (type.members.filter dialect.serves).map (type, ·)

/-- Whether an endpoint is the one a member of a type serves. -/
structure Endpoint.IsServedBy (dialect : Dialect) (endpoint : Endpoint)
    (server : TypeSummary × Member) : Prop where
  container : endpoint.container = server.1.name
  handler : endpoint.handler = server.2.name
  route : ∃ suffix, endpoint.route = composeRoute server.1.routeBase suffix
  httpMethod : ∃ marker ∈ server.2.markers, dialect.httpVerb? marker = some endpoint.httpMethod

/-! ## One endpoint for each server -/

namespace Dialect

theorem isSome_verbMarker? (dialect : Dialect) (markers : List Marker) :
    (dialect.verbMarker? markers).isSome =
      markers.any fun marker => (dialect.httpVerb? marker).isSome := by
  rw [verbMarker?, isSome_findSome?]
  simp only [isSome_map]

theorem httpVerb?_of_verbMarker? {verb : Text} {marker : Marker}
    (h : dialect.verbMarker? markers = some (verb, marker)) :
    marker ∈ markers ∧ dialect.httpVerb? marker = some verb := by
  obtain ⟨found, hmem, hfound⟩ := exists_of_findSome?_eq_some h
  obtain ⟨named, hnamed, heq⟩ := map_eq_some_iff.mp hfound
  obtain ⟨rfl, rfl⟩ := Prod.mk.inj heq
  exact ⟨hmem, hnamed⟩

theorem isSome_endpoint? (dialect : Dialect) (container base : Text) (member : Member) :
    (dialect.endpoint? container base member).isSome = dialect.serves member := by
  unfold endpoint? serves
  by_cases hkind : member.kind = .method
  · rw [if_pos hkind, isSome_map, isSome_verbMarker?, beq_iff_eq.mpr hkind, Bool.true_and]
  · rw [if_neg hkind, beq_eq_false_iff_ne.mpr hkind, Bool.false_and, isSome_none]

theorem endpoint?_eq_some (h : dialect.endpoint? container base member = some endpoint) :
    ∃ verb marker, marker ∈ member.markers ∧ dialect.httpVerb? marker = some verb ∧
      endpoint = ⟨composeRoute base (methodRoute marker member.markers), verb, container, member.name,
        dialect.payloads member, member.signature⟩ := by
  unfold endpoint? at h
  split at h
  · obtain ⟨⟨verb, marker⟩, hverb, rfl⟩ := map_eq_some_iff.mp h
    obtain ⟨hmarker, hnamed⟩ := httpVerb?_of_verbMarker? hverb
    exact ⟨verb, marker, hmarker, hnamed, rfl⟩
  · cases h

theorem isServedBy_of_endpoint?
    (h : dialect.endpoint? type.name type.routeBase member = some endpoint) :
    endpoint.IsServedBy dialect (type, member) := by
  obtain ⟨verb, marker, hmarker, hnamed, rfl⟩ := endpoint?_eq_some h
  exact
    { container := rfl
      handler := rfl
      route := ⟨_, rfl⟩
      httpMethod := ⟨marker, hmarker, hnamed⟩ }

theorem forall₂_endpoints (dialect : Dialect) (type : TypeSummary) :
    Forall₂ (Endpoint.IsServedBy dialect) (dialect.endpoints type)
      ((type.members.filter dialect.serves).map (type, ·)) := by
  unfold endpoints
  induction type.members with
  | nil => exact .nil
  | cons member rest ih =>
    have hserves := dialect.isSome_endpoint? type.name type.routeBase member
    cases hendpoint : dialect.endpoint? type.name type.routeBase member with
    | none =>
      rw [hendpoint] at hserves
      rw [filterMap_cons_none hendpoint, filter_cons_of_neg (by simp [← hserves])]
      exact ih
    | some endpoint =>
      rw [hendpoint] at hserves
      rw [filterMap_cons_some hendpoint, filter_cons_of_pos (by simp [← hserves]),
        map_cons]
      exact .cons (isServedBy_of_endpoint? hendpoint) ih

theorem forall₂_flatMap_endpoints (dialect : Dialect) (types : List TypeSummary) :
    Forall₂ (Endpoint.IsServedBy dialect) (types.flatMap dialect.endpoints)
      (dialect.servers types) := by
  induction types with
  | nil => exact .nil
  | cons type rest ih =>
    rw [servers, flatMap_cons, flatMap_cons]
    exact rel_append (dialect.forall₂_endpoints type) ih

end Dialect

/-! ## What an endpoint is drawn from -/

/-- Whether all that a table says about an endpoint is drawn from a source, with no blanks around
names. -/
structure Endpoint.IsDrawnFrom (source : Text) (endpoint : Endpoint) : Prop where
  route : DrawnFrom source endpoint.route
  httpMethod : endpoint.httpMethod ∈ dottedOptions :: httpMethods
  container : DrawnFrom source endpoint.container
  containerTrimmed : trim endpoint.container = endpoint.container
  handler : DrawnFrom source endpoint.handler
  handlerTrimmed : trim endpoint.handler = endpoint.handler
  payloads : ∀ payload ∈ endpoint.payloads, DrawnFrom source payload
  payloadsTrimmed : ∀ payload ∈ endpoint.payloads, trim payload = payload

theorem composeRoute_drawn {suffix : Text} (hbase : DrawnFrom source base)
    (hsuffix : DrawnFrom source suffix) : DrawnFrom source (composeRoute base suffix) := by
  have htrimmed : DrawnFrom source (trim base) := hbase.subset (trim_subset base)
  have hadded : DrawnFrom source (trim suffix) := hsuffix.subset (trim_subset suffix)
  have hslash : DrawnFrom source ['/'] := .of_joints (by decide)
  unfold composeRoute
  dsimp only
  split
  · exact hadded
  · split
    · split
      · exact htrimmed
      · exact htrimmed.append hslash
    · split
      · exact htrimmed.append hadded
      · exact htrimmed.append (hslash.append hadded)

theorem methodRoute_subset {verb : Marker} (hverb : verb.CutFrom source)
    (hmarkers : ∀ marker ∈ markers, marker.CutFrom source) : methodRoute verb markers ⊆ source := by
  unfold methodRoute
  dsimp only
  split
  · exact getD_subset (nil_subset source) fun _ hroute => markedRoute?_subset hmarkers hroute
  · exact getD_subset (nil_subset source) fun _ hroute => hverb.literal?_subset hroute

theorem Wraps.subset {inner : Text} (h : Wraps text inner) : inner ⊆ text := by
  obtain ⟨outer, blanks, arguments, htype, -, -, -, -, hsplit⟩ := h
  have harguments : arguments ⊆ trim text := by
    rw [htype]
    exact fun c hc => by simp [hc]
  have hinner := subset_of_mem_splitTopLevel hsplit mem_cons_self
  exact Subset.trans hinner (Subset.trans harguments (trim_subset text))

theorem Dialect.Returns.subset (h : dialect.Returns text payload) : payload ⊆ text := by
  obtain ⟨inner, hinner, hpayload, -⟩ := h
  split at hpayload
  · exact Subset.trans hpayload.subset hinner.subset
  · rw [hpayload]
    exact hinner.subset

theorem Dialect.payloads_drawn (hmember : member.IsDrawnFrom source) :
    ∀ payload ∈ dialect.payloads member, DrawnFrom source payload ∧ trim payload = payload := by
  intro payload hpayload
  obtain ⟨type, rfl, htype⟩ := exists_of_mem_payloads hpayload
  refine ⟨DrawnFrom.subset ?_ (trim_subset type), trim_trim type⟩
  obtain hparameter | hreturned := htype
  · obtain ⟨parameter, hmem, rfl⟩ := exists_of_mem_payloadCandidates hparameter
    exact hmember.signature.trans (dialect.parameters_drawn member.signature parameter hmem)
  · exact hmember.declaredType.subset hreturned.subset

theorem Dialect.endpoint?_drawn (hcontainer : DrawnFrom source container)
    (htrimmed : trim container = container) (hbase : DrawnFrom source base)
    (hmember : member.IsDrawnFrom source)
    (h : dialect.endpoint? container base member = some endpoint) :
    endpoint.IsDrawnFrom source := by
  obtain ⟨verb, marker, hmarker, hnamed, rfl⟩ := endpoint?_eq_some h
  have hsuffix := methodRoute_subset (hmember.markers marker hmarker) hmember.markers
  have hmethod : verb ∈ dottedOptions :: httpMethods := by
    obtain hplain | ⟨-, -, hdotted⟩ := httpVerb?_eq_some hnamed
    · exact mem_cons_of_mem _ hplain
    · exact hdotted ▸ mem_cons_self
  exact
    { route := composeRoute_drawn hbase (.of_subset hsuffix)
      httpMethod := hmethod
      container := hcontainer
      containerTrimmed := htrimmed
      handler := hmember.name
      handlerTrimmed := hmember.trimmed
      payloads := fun payload hpayload => (payloads_drawn hmember payload hpayload).1
      payloadsTrimmed := fun payload hpayload => (payloads_drawn hmember payload hpayload).2 }

end SourceAtlas
