import SourceAtlas.Parser.Brace
import SourceAtlas.Proofs.Body
import SourceAtlas.Proofs.Declaration.Extent

/-!
# Recorded types tile a source

The scan keeps a cursor behind the body recorded last and passes over every declaration in front of
it. So the spans of the recorded types, from the start of the header to the closing brace, are
disjoint and in order, and a declaration with a body is left out only inside such a span.
-/

namespace SourceAtlas

open List

variable {declaration : Declaration} {text : Text} {body : Body} {cursor : Nat}
  {declarations : List Declaration}

/-- The text between a declaration and the brace that opens its body. -/
def Declaration.gap (declaration : Declaration) (text : Text) (body : Body) : Text :=
  (text.take body.start).drop declaration.stop

/-- How a declaration is followed by its body: the braces stand after the header, and the gap before
them does not end the declaration. -/
structure Declaration.IsFollowedBy (declaration : Declaration) (text : Text) (body : Body) :
    Prop where
  opens : text[body.start]? = some '{'
  closes : text[body.stop]? = some '}'
  after : declaration.stop ≤ body.start
  ordered : body.start < body.stop
  inner : body.text = (text.take body.stop).drop (body.start + 1)
  plain_gap : declaration.kind ≠ .typeAlias →
    ';' ∉ declaration.gap text body ∧ '}' ∉ declaration.gap text body
  alias_gap : declaration.kind = .typeAlias →
    (∀ c ∈ declaration.gap text body, isBlank c = true ∨ c = '=') ∧
      (declaration.gap text body).count '=' ≤ 1

theorem Declaration.isFollowedBy_of_body? (h : declaration.body? text = some body) :
    declaration.IsFollowedBy text body := by
  have hstands := standsIn_of_extractBody? h
  exact
    { opens := hstands.opens
      closes := hstands.closes
      after := hstands.after
      ordered := hstands.ordered
      inner := hstands.inner
      plain_gap := fun hkind => hstands.plain_gap (decide_eq_false hkind)
      alias_gap := fun hkind => of_trim_gap (hstands.alias_gap (decide_eq_true hkind)) }

theorem Declaration.start_lt_stop_of_body? (hspan : declaration.start < declaration.stop)
    (h : declaration.body? text = some body) :
    declaration.start < body.stop := by
  have hfollows := Declaration.isFollowedBy_of_body? h
  exact hspan.trans_le (hfollows.after.trans hfollows.ordered.le)

theorem recordedFrom_sublist (text : Text) (cursor : Nat) (declarations : List Declaration) :
    ((recordedFrom text cursor declarations).map Prod.fst).Sublist declarations := by
  fun_induction recordedFrom text cursor declarations with
  | case1 => exact Sublist.refl _
  | case2 cursor declaration rest hbefore ih => exact ih.cons declaration
  | case3 cursor declaration rest hafter hnone ih => exact ih.cons declaration
  | case4 cursor declaration rest hafter body hbody ih => exact ih.cons_cons declaration

/-- A recorded declaration has its body and does not start in front of the cursor. -/
theorem recordedFrom_mem
    (hspan : ∀ declaration ∈ declarations, declaration.start < declaration.stop)
    {recorded : Declaration × Body} (h : recorded ∈ recordedFrom text cursor declarations) :
    recorded.1.body? text = some recorded.2 ∧ cursor ≤ recorded.1.start := by
  fun_induction recordedFrom text cursor declarations with
  | case1 => cases h
  | case2 cursor declaration rest hbefore ih => exact ih (forall_mem_of_forall_mem_cons hspan) h
  | case3 cursor declaration rest hafter hnone ih =>
    exact ih (forall_mem_of_forall_mem_cons hspan) h
  | case4 cursor declaration rest hafter body hbody ih =>
    rcases mem_cons.mp h with rfl | hrest
    · exact ⟨hbody, Nat.le_of_not_lt hafter⟩
    · obtain ⟨hbody', hcursor⟩ := ih (forall_mem_of_forall_mem_cons hspan) hrest
      have hlt := Declaration.start_lt_stop_of_body? (hspan declaration (by simp)) hbody
      exact ⟨hbody', by omega⟩

/-- The bodies recorded so far end before the next recorded declaration starts. -/
theorem pairwise_recordedFrom
    (hspan : ∀ declaration ∈ declarations, declaration.start < declaration.stop) :
    (recordedFrom text cursor declarations).Pairwise fun a b => a.2.stop < b.1.start := by
  fun_induction recordedFrom text cursor declarations with
  | case1 => exact Pairwise.nil
  | case2 cursor declaration rest hbefore ih => exact ih (forall_mem_of_forall_mem_cons hspan)
  | case3 cursor declaration rest hafter hnone ih =>
    exact ih (forall_mem_of_forall_mem_cons hspan)
  | case4 cursor declaration rest hafter body hbody ih =>
    have hrest := forall_mem_of_forall_mem_cons hspan
    refine pairwise_cons.mpr ⟨?_, ih hrest⟩
    intro later hlater
    exact (recordedFrom_mem hrest hlater).2

/-- A declaration that is not recorded starts in front of the cursor, has no body, or starts after a
recorded one and not after its end. -/
theorem recordedFrom_omitted (hordered : declarations.Pairwise fun a b => a.start < b.start)
    (hmem : declaration ∈ declarations)
    (hnot : declaration ∉ (recordedFrom text cursor declarations).map Prod.fst) :
    declaration.start < cursor ∨ declaration.body? text = none ∨
      ∃ recorded ∈ recordedFrom text cursor declarations,
        recorded.1.start < declaration.start ∧ declaration.start ≤ recorded.2.stop := by
  fun_induction recordedFrom text cursor declarations with
  | case1 => cases hmem
  | case2 cursor first rest hbefore ih =>
    rcases mem_cons.mp hmem with rfl | hrest
    · exact Or.inl hbefore
    · exact ih (pairwise_cons.mp hordered).2 hrest hnot
  | case3 cursor first rest hafter hnone ih =>
    rcases mem_cons.mp hmem with rfl | hrest
    · exact Or.inr (Or.inl hnone)
    · exact ih (pairwise_cons.mp hordered).2 hrest hnot
  | case4 cursor first rest hafter body hbody ih =>
    obtain ⟨hfirst, hlater⟩ := pairwise_cons.mp hordered
    simp only [map_cons, mem_cons, not_or] at hnot
    have hrest := (mem_cons.mp hmem).resolve_left hnot.1
    rcases ih hlater hrest hnot.2 with hcursor | hnone | ⟨recorded, hrecorded, hinside⟩
    · refine Or.inr (Or.inr ⟨(first, body), by simp, hfirst declaration hrest, ?_⟩)
      exact Nat.le_of_lt_succ hcursor
    · exact Or.inr (Or.inl hnone)
    · exact Or.inr (Or.inr ⟨recorded, mem_cons_of_mem _ hrecorded, hinside⟩)

theorem locateDeclarations_ordered (dialect : Dialect) (text : Text) :
    (locateDeclarations dialect text).Pairwise fun a b => a.start < b.start := by
  refine (pairwise_locateDeclarations dialect text).imp_of_mem ?_
  intro a b ha _ hle
  exact (locateDeclarations_bounds ha).1.trans_le hle

/-- The types of a source are built from a subsequence of its declarations, each followed by its
body. The spans of these declarations are disjoint and in order, and a declaration outside the
subsequence has no body or starts strictly inside one of the spans. -/
theorem scanBraceSource_types_tile (dialect : Dialect) (source : Source) :
    let located := locateDeclarations dialect source.text
    let recorded := recordedDeclarations dialect source.text
    (scanBraceSource dialect source).types =
        recorded.map (fun entry => buildType dialect entry.1 entry.2) ∧
      (recorded.map Prod.fst).Sublist located ∧
      located.Pairwise (fun a b => a.start < b.start) ∧
      (∀ entry ∈ recorded, entry.1.start < entry.1.stop ∧
        entry.1.body? source.text = some entry.2 ∧
        entry.1.IsFollowedBy source.text entry.2) ∧
      recorded.Pairwise (fun a b => a.2.stop < b.1.start) ∧
      ∀ declaration ∈ located, declaration ∉ recorded.map Prod.fst →
        declaration.body? source.text = none ∨
          ∃ entry ∈ recorded, entry.1.start < declaration.start ∧
            declaration.start < entry.2.stop := by
  intro located recorded
  have hspan : ∀ declaration ∈ located, declaration.start < declaration.stop :=
    fun declaration h => (locateDeclarations_bounds h).1
  have hsublist : (recorded.map Prod.fst).Sublist located := recordedFrom_sublist _ _ _
  have hordered := locateDeclarations_ordered dialect source.text
  have hbody : ∀ entry ∈ recorded, entry.1.body? source.text = some entry.2 :=
    fun entry h => (recordedFrom_mem hspan h).1
  refine ⟨rfl, hsublist, hordered, ?_, pairwise_recordedFrom hspan, ?_⟩
  · intro entry hentry
    have hlocated : entry.1 ∈ located := hsublist.subset (mem_map_of_mem hentry)
    exact ⟨hspan _ hlocated, hbody entry hentry,
      Declaration.isFollowedBy_of_body? (hbody entry hentry)⟩
  · intro declaration hmem hnot
    rcases recordedFrom_omitted hordered hmem hnot with hzero | hnone | ⟨entry, hentry, hinside⟩
    · exact absurd hzero (Nat.not_lt_zero _)
    · exact Or.inl hnone
    · refine Or.inr ⟨entry, hentry, hinside.1, lt_of_le_of_ne hinside.2 ?_⟩
      -- The closing brace is no letter, and a declaration starts with one.
      intro heq
      obtain ⟨-, -, c, hc, hlower⟩ := locateDeclarations_bounds hmem
      have hclose := (Declaration.isFollowedBy_of_body? (hbody entry hentry)).closes
      rw [← heq, hc] at hclose
      obtain rfl := Option.some.inj hclose
      exact absurd hlower (by decide)

end SourceAtlas
