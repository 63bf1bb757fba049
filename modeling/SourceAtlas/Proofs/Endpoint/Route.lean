import SourceAtlas.Endpoint
import SourceAtlas.Proofs.Text.Split

/-!
# The route of an endpoint

A route has the pieces of the type's route followed by those of the method's, in their order. A slash
is doubled where one of the two has it so, and where the first ends and the second starts with one: then
both slashes are kept.
-/

namespace SourceAtlas

open List

/-- The pieces of a route between slashes, without empty ones. -/
def routePieces (route : Text) : List Text :=
  (splitOn '/' route).filter (!·.isEmpty)

def HasDoubleSlash (route : Text) : Prop :=
  ['/', '/'] <:+: route

variable {first second : Text} {c : Char}

/-! ## Pieces -/

theorem routePieces_append_slash (first second : Text) :
    routePieces (first ++ '/' :: second) = routePieces first ++ routePieces second := by
  rw [routePieces, splitOn_append_cons, filter_append]
  rfl

theorem routePieces_append (h : first = [] ∨ first.getLast? = some '/' ∨ second.head? = some '/') :
    routePieces (first ++ second) = routePieces first ++ routePieces second := by
  obtain rfl | hlast | hhead := h
  · rfl
  · obtain ⟨front, rfl⟩ := getLast?_eq_some_iff.mp hlast
    rw [append_assoc, singleton_append, routePieces_append_slash, routePieces_append_slash front []]
    simp [routePieces, splitOn]
  · obtain ⟨rest, rfl⟩ := head?_eq_some_iff.mp hhead
    rw [routePieces_append_slash, ← nil_append ('/' :: rest), routePieces_append_slash []]
    rfl

/-! ## Doubled characters -/

theorem pair_infix_append_iff : [c, c] <:+: first ++ second ↔
    [c, c] <:+: first ∨ [c, c] <:+: second ∨ first.getLast? = some c ∧ second.head? = some c := by
  rw [infix_append_iff]
  constructor
  · rintro (hfirst | hsecond | ⟨front, back, hpair, hfront, hback⟩)
    · exact Or.inl hfirst
    · exact Or.inr (Or.inl hsecond)
    · -- the texts meet in front of the pair, in its middle or behind it
      obtain _ | ⟨d, _ | ⟨e, front⟩⟩ := front
      · exact Or.inr (Or.inl (hpair ▸ hback.isInfix))
      · obtain ⟨rfl, rfl⟩ := cons.inj hpair
        obtain ⟨lead, rfl⟩ := hfront
        obtain ⟨tail, rfl⟩ := hback
        simp
      · obtain ⟨rfl, rfl, rfl, -⟩ : c = d ∧ c = e ∧ front = [] ∧ back = [] := by simpa using hpair
        exact Or.inl hfront.isInfix
  · rintro (hfirst | hsecond | ⟨hlast, hhead⟩)
    · exact Or.inl hfirst
    · exact Or.inr (Or.inl hsecond)
    · obtain ⟨lead, rfl⟩ := getLast?_eq_some_iff.mp hlast
      obtain ⟨tail, rfl⟩ := head?_eq_some_iff.mp hhead
      exact Or.inr (Or.inr ⟨[c], [c], rfl, suffix_append lead [c], prefix_append [c] tail⟩)

theorem hasDoubleSlash_trim (route : Text) : HasDoubleSlash (trim route) ↔ HasDoubleSlash route := by
  obtain ⟨lead, tail, hroute, hlead, htail⟩ := exists_blanks_append_trim route
  have hnone : ∀ {blanks : Text}, (∀ c ∈ blanks, isBlank c = true) → '/' ∉ blanks := by
    intro blanks hblanks hslash
    exact absurd (hblanks _ hslash) (by decide)
  unfold HasDoubleSlash
  conv_rhs => rw [hroute]
  have hplain : ∀ {blanks : Text}, '/' ∉ blanks → ¬['/', '/'] <:+: blanks := fun hslash hpair =>
    hslash (hpair.subset mem_cons_self)
  rw [pair_infix_append_iff, pair_infix_append_iff]
  simp only [hplain (hnone hlead), hplain (hnone htail), false_or]
  have hlast : lead.getLast? ≠ some '/' := fun h => hnone hlead (mem_of_getLast? h)
  have hhead : tail.head? ≠ some '/' := fun h => hnone htail (mem_of_head? h)
  simp only [hlast, hhead, false_and, and_false, or_false]

/-! ## Composed routes -/

theorem composeRoute_eq (base suffix : Text) : composeRoute base suffix =
    if trim base = [] ∨ (trim base).getLast? = some '/' ∨ (trim suffix).head? = some '/' then
      trim base ++ trim suffix
    else trim base ++ '/' :: trim suffix := by
  unfold composeRoute
  by_cases hbase : trim base = []
  · simp [hbase]
  · by_cases hsuffix : trim suffix = []
    · simp [hbase, hsuffix]
    · simp [hbase, hsuffix]

theorem routePieces_composeRoute (base suffix : Text) :
    routePieces (composeRoute base suffix) =
      routePieces (trim base) ++ routePieces (trim suffix) := by
  rw [composeRoute_eq]
  split
  next hjoined => exact routePieces_append hjoined
  next => exact routePieces_append_slash _ _

theorem hasDoubleSlash_composeRoute (base suffix : Text) :
    HasDoubleSlash (composeRoute base suffix) ↔ HasDoubleSlash base ∨ HasDoubleSlash suffix ∨
      (trim base).getLast? = some '/' ∧ (trim suffix).head? = some '/' := by
  rw [composeRoute_eq, ← hasDoubleSlash_trim base, ← hasDoubleSlash_trim suffix]
  split
  next => exact pair_infix_append_iff
  next hparted =>
    rw [not_or, not_or] at hparted
    obtain ⟨-, hlast, hhead⟩ := hparted
    have hslash : ['/', '/'] <:+: '/' :: trim suffix ↔ ['/', '/'] <:+: trim suffix := by
      rw [infix_cons_iff]
      apply or_iff_right
      rintro ⟨tail, htail⟩
      obtain ⟨-, htail⟩ := cons.inj htail
      exact hhead (htail ▸ rfl)
    unfold HasDoubleSlash
    rw [pair_infix_append_iff, hslash]
    simp [hlast]

/-- A method with a verb marker has an endpoint. Its route has the pieces of the type's route and of
its own, and slashes are doubled only as the two have them or where they meet. -/
theorem Dialect.endpoint?_route {dialect : Dialect} {container base verb : Text} {member : Member}
    {marker : Marker} (hkind : member.kind = .method)
    (hverb : dialect.verbMarker? member.markers = some (verb, marker)) :
    ∃ endpoint, dialect.endpoint? container base member = some endpoint ∧
      routePieces endpoint.route = routePieces (trim base) ++
        routePieces (trim (methodRoute marker member.markers)) ∧
      (HasDoubleSlash endpoint.route ↔ HasDoubleSlash base ∨
        HasDoubleSlash (methodRoute marker member.markers) ∨
        (trim base).getLast? = some '/' ∧
          (trim (methodRoute marker member.markers)).head? = some '/') := by
  unfold endpoint?
  rw [if_pos hkind, hverb]
  exact ⟨_, rfl, routePieces_composeRoute _ _, hasDoubleSlash_composeRoute _ _⟩

/-- A method whose own route starts with a slash. -/
def listMethod : Member :=
  { name := "List".toList
    kind := .method
    declaredType := "void".toList
    signature := "public void List()".toList
    markers := [⟨"HttpGet".toList, .listed [("0".toList, "\"/list\"".toList)], []⟩] }

theorem endpoint?_route_listMethod :
    ∃ endpoint, Dialect.csharp.endpoint? "Api".toList "api/".toList listMethod = some endpoint ∧
      routePieces endpoint.route = routePieces "api/".toList ++ routePieces "/list".toList ∧
      HasDoubleSlash endpoint.route := by
  have hverb : Dialect.csharp.verbMarker? listMethod.markers =
      some ("GET".toList, ⟨"HttpGet".toList, .listed [("0".toList, "\"/list\"".toList)], []⟩) := by
    decide +kernel
  obtain ⟨endpoint, hendpoint, hpieces, hdouble⟩ :=
    @Dialect.endpoint?_route _ "Api".toList "api/".toList _ listMethod _ rfl hverb
  refine ⟨endpoint, hendpoint, hpieces, hdouble.mpr (Or.inr (Or.inr ?_))⟩
  decide +kernel

end SourceAtlas
