import SourceAtlas.Proofs.Parser.Script.ParameterRows

/-!
# Comments behind the rows of a parameter list

A comment behind a line that the reader comes to is dropped, so it changes nothing. The rows that
continue a parameter list are joined to their header as they are: a comment behind one of them becomes
a part of the signature, and behind the last row a part of the result type.
-/

namespace SourceAtlas.Script

open List Option

variable {progress : Progress} {raw row line text comment name : Text} {markers : List Marker}
  {openParen : Nat} {below rows : List Text} {source : Source}

/-! ## Lines -/

def commentedRow (comment row : Text) : Text :=
  row ++ ' ' :: '#' :: ' ' :: comment

def isPlainRow (row : Text) : Bool :=
  row.all fun c => c != '#' && !isQuote c

theorem notMem_of_isPlainRow (h : isPlainRow row = true) :
    '#' ∉ row ∧ '\x22' ∉ row ∧ '\x27' ∉ row := by
  have hplain := all_eq_true.mp h
  refine ⟨fun hmem => ?_, fun hmem => ?_, fun hmem => ?_⟩
  · exact absurd (hplain _ hmem) (by decide)
  · exact absurd (hplain _ hmem) (by decide)
  · exact absurd (hplain _ hmem) (by decide)

theorem dropComment_commentedRow (h : isPlainRow row = true) (comment : Text) :
    dropComment (commentedRow comment row) = dropComment row := by
  obtain ⟨hmark, hdouble, hsingle⟩ := notMem_of_isPlainRow h
  have hfront : ∀ c ∈ row ++ [' '], decide (c ≠ '#') = true := by
    intro c hc
    rw [decide_eq_true_eq]
    rintro rfl
    rcases mem_append.mp hc with hc | hc
    · exact hmark hc
    · exact absurd hc (by decide)
  have hsplit : commentedRow comment row = (row ++ [' ']) ++ '#' :: ' ' :: comment := by
    simp [commentedRow]
  have hhead : (commentedRow comment row).takeWhile (· ≠ '#') = row ++ [' '] := by
    rw [hsplit]
    exact takeWhile_append_of_stop hfront (by simp)
  have hcontains : (commentedRow comment row).contains '#' = true := by simp [commentedRow]
  have hblank : ∀ c ∈ [' '], isBlank c = true := by simp; decide
  rw [dropComment_of_notMem hmark, dropComment, hhead, hcontains]
  simp [hdouble, hsingle, trimRight_append_of_blanks hblank]

theorem isPassedOver_commentedRow (h : isPassedOver row = false) (comment : Text) :
    isPassedOver (commentedRow comment row) = false := by
  cases row with
  | nil => cases h
  | cons c row =>
    simp only [isPassedOver, Bool.or_eq_false_iff] at h ⊢
    obtain ⟨⟨⟨hblank, hspace⟩, htab⟩, hmark⟩ := h
    refine ⟨⟨⟨?_, hspace⟩, htab⟩, hmark⟩
    rw [isBlankText, List.all_eq_false] at hblank ⊢
    obtain ⟨d, hd, hblank⟩ := hblank
    exact ⟨d, mem_append_left _ hd, hblank⟩

theorem readLine_commentedRow (h : isPlainRow row = true) (comment : Text) (progress : Progress)
    (below : List Text) :
    readLine progress (commentedRow comment row) below = readLine progress row below := by
  have hcode : codeOfLine (commentedRow comment row) = codeOfLine row := by
    rw [codeOfLine, dropComment_commentedRow h, codeOfLine]
  by_cases hpassed : isPassedOver row = true
  · rw [readLine_passedOver hpassed]
    by_cases hcommented : isPassedOver (commentedRow comment row) = true
    · exact readLine_passedOver hcommented progress below
    · -- a blank row that starts with neither a space nor a tab
      rw [Bool.not_eq_true] at hcommented
      have hblank : isBlankText row = true := by
        cases row with
        | nil => rfl
        | cons c row =>
          simp only [isPassedOver, Bool.or_eq_true, Bool.or_eq_false_iff] at hpassed hcommented
          rcases hpassed with ((hblank | hspace) | htab) | hmark
          · exact hblank
          · exact absurd (hspace.symm.trans hcommented.1.1.2) (by decide)
          · exact absurd (htab.symm.trans hcommented.1.2) (by decide)
          · exact absurd (hmark.symm.trans hcommented.2) (by decide)
      have hempty : codeOfLine row = ([], []) := by
        have htrim := @trimRight_append_of_blanks row (all_eq_true.mp hblank) []
        rw [nil_append] at htrim
        rw [codeOfLine, dropComment_of_notMem (notMem_of_isPlainRow h).1, htrim]
        exact Dialect.typescript.peel_nil
      rw [readLine_markers hcommented (hcode.trans hempty), append_nil]
  · rw [Bool.not_eq_true] at hpassed
    exact readLine_congr hpassed (isPassedOver_commentedRow hpassed comment) hcode progress below

theorem exists_trim_commentedRow (comment row : Text) :
    ∃ gap tail, (∀ c ∈ gap, isBlank c = true) ∧
      trim (commentedRow comment row) = trim row ++ (gap ++ '#' :: tail) := by
  have hspace : ∀ c ∈ [' '], isBlank c = true := by simp; decide
  obtain ⟨gap, hgap, hblanks⟩ := exists_append_dropEndWhile isBlank (trimLeft (row ++ [' ']))
  have htrim : trimRight (trimLeft (row ++ [' '])) = trim row := trim_append_of_blanks hspace row
  have hleft : trimLeft (commentedRow comment row) =
      (trim row ++ gap ++ ['#']) ++ ' ' :: comment := by
    have hsplit : commentedRow comment row = (row ++ [' ']) ++ '#' :: ' ' :: comment := by
      simp [commentedRow]
    rw [hsplit, trimLeft, dropWhile_append_right (by simp; decide)]
    change trimLeft (row ++ [' ']) ++ _ = _
    rw [hgap, ← htrim]
    simp [trimRight]
  have hlast : (trim row ++ gap ++ ['#']).getLast? = some '#' := getLast?_concat
  obtain ⟨tail, htail⟩ := prefix_trimRight hlast (by decide : isBlank '#' = false) (' ' :: comment)
  refine ⟨gap, tail, hblanks, ?_⟩
  rw [trim, hleft, ← htail]
  simp

/-! ## Result types -/

/-- A `#` behind the parameter list is taken for a part of the result type. -/
theorem mark_mem_of_resultType? {after result : Text} (h : resultType? after = some result)
    (hmark : '#' ∈ after) : '#' ∈ result := by
  obtain ⟨rest, hrest, h⟩ := bind_eq_some_iff.mp h
  have hblank : isBlank '#' = false := by decide
  have harrow : '#' ∈ rest := by
    have hmem : '#' ∈ trimLeft after := mem_dropWhile_of_mem hblank hmark
    rw [dropHead?_eq_some_iff.mp hrest, mem_append] at hmem
    exact hmem.resolve_left (by decide)
  have hstart : '#' ∈ trimLeft rest := mem_dropWhile_of_mem hblank harrow
  dsimp only at h
  split at h
  · next hblanks =>
    have hrun : '#' ∈ (trimLeft rest).takeWhile (· ≠ ':') := by
      rw [drop_length_takeWhile] at hblanks
      rw [← takeWhile_append_dropWhile (p := (· ≠ ':')) (l := trimLeft rest)] at hstart
      rcases mem_append.mp hstart with hmem | hmem
      · exact hmem
      · -- behind the colon there are only blanks
        cases htail : (trimLeft rest).dropWhile (· ≠ ':') with
        | nil =>
          rw [htail] at hmem
          cases hmem
        | cons c tail =>
          obtain rfl : c = ':' := by simpa using of_dropWhile_eq_cons htail
          rw [htail] at hblanks hmem
          have hmem := (mem_cons.mp hmem).resolve_left (by decide)
          exact absurd (all_eq_true.mp hblanks '#' hmem) (by decide)
    rw [if_neg (by simpa using ne_nil_of_mem hrun)] at h
    obtain rfl := some.inj h
    exact mem_dropEndWhile_of_mem hblank hrun
  · cases h

/-! ## Function headers -/

theorem notMem_functionMember {head : Text} {result : Option Text} (hhead : '#' ∉ head)
    (hresult : ∀ type ∈ result, '#' ∉ type) :
    '#' ∉ (functionMember name markers head result).signature := by
  intro hmem
  rcases mem_append.mp hmem with hmem | hmem
  · exact hhead hmem
  · cases result with
    | none => cases hmem
    | some type =>
      rcases mem_append.mp hmem with hmem | hmem
      · exact absurd hmem (by decide)
      · exact hresult type rfl hmem

theorem ClosesAfter.commented_last {front : List Text} (h : ClosesAfter line openParen (front ++ [row]))
    (comment : Text) :
    ∃ more, '#' ∈ more ∧ joinRows line (front ++ [commentedRow comment row]) =
        joinRows line (front ++ [row]) ++ more ∧
      ClosesAfter line openParen (front ++ [commentedRow comment row]) := by
  obtain ⟨gap, tail, -, htrim⟩ := exists_trim_commentedRow comment row
  have hjoin : joinRows line (front ++ [commentedRow comment row]) =
      joinRows line (front ++ [row]) ++ (gap ++ '#' :: tail) := by
    simp [joinRows, htrim]
  refine ⟨gap ++ '#' :: tail, by simp, hjoin, ?_, ?_⟩
  · intro count hcount
    have hle : count ≤ front.length := by simpa [Nat.lt_succ_iff] using hcount
    have hopen := h.opened count (by simpa using hcount)
    rw [take_append_of_le_length hle] at hopen ⊢
    exact hopen
  · obtain ⟨close, hclose⟩ := isSome_iff_exists.mp h.closed
    rw [hjoin, findParen, (findClosing_append hclose _).2]
    rfl

/-- A comment behind the last row changes at most the result type, and it changes every result type that
is read. -/
theorem ClosesAfter.function_commented_last {front : List Text}
    (h : ClosesAfter line openParen (front ++ [row])) (hmark : '#' ∉ joinRows line (front ++ [row]))
    (comment name : Text) (markers : List Marker) (after : List Text) :
    ∃ head,
      function line name openParen (front ++ [row] ++ after) markers =
        (some (functionMember name markers head (rowsResult line openParen (front ++ [row]))), after) ∧
      function line name openParen (front ++ [commentedRow comment row] ++ after) markers =
        (some (functionMember name markers head
          (rowsResult line openParen (front ++ [commentedRow comment row]))), after) ∧
      (rowsResult line openParen (front ++ [commentedRow comment row]) =
          rowsResult line openParen (front ++ [row]) →
        rowsResult line openParen (front ++ [row]) = none) := by
  obtain ⟨more, hmore, hjoin, hcommented⟩ := h.commented_last comment
  obtain ⟨close, hclose, hfunction⟩ := h.function_eq name markers after
  obtain ⟨later, hlater, hfunction'⟩ := hcommented.function_eq name markers after
  obtain ⟨hlt, hsame⟩ := findClosing_append hclose more
  rw [hjoin, findParen, hsame] at hlater
  obtain rfl := some.inj hlater
  refine ⟨_, hfunction, ?_, fun hresult => ?_⟩
  · rw [hfunction', hjoin, take_append_of_le_length hlt]
  · cases hread : rowsResult line openParen (front ++ [row]) with
    | none => rfl
    | some result =>
      have hwith := hresult.trans hread
      rw [rowsResult, hjoin, findParen, hsame, bind_some] at hwith
      have hbehind : '#' ∈ (joinRows line (front ++ [row]) ++ more).drop (close + 1) := by
        rw [drop_append_of_le_length hlt]
        exact mem_append_right _ hmore
      exact absurd (rowsResult_subset hread (mark_mem_of_resultType? hwith hbehind)) hmark

/-- A `#` inside a list that closes behind it belongs to what is read of the list. -/
theorem mark_mem_take {lead rest : Text} {close : Nat} (hopen : findParen lead openParen = none)
    (h : findParen (lead ++ '#' :: rest) openParen = some close) :
    '#' ∈ (lead ++ '#' :: rest).take (close + 1) := by
  have hle := length_le_of_findParen_append hopen h
  apply mem_of_getElem? (i := lead.length)
  rw [getElem?_take_of_lt (Nat.lt_succ_of_le hle),
    getElem?_append_right (Nat.le_refl _), Nat.sub_self, getElem?_cons_zero]

/-- A comment behind a row that does not close the list becomes a part of the signature, or the list
never closes. -/
theorem ClosesAfter.function_commented {front back : List Text}
    (h : ClosesAfter line openParen (front ++ row :: back)) (hback : back ≠ []) (comment name : Text)
    (markers : List Marker) (after : List Text) :
    (∃ found left, '#' ∈ found.signature ∧ found.name = name ∧
        function line name openParen (front ++ commentedRow comment row :: (back ++ after)) markers =
          (some found, left)) ∨
      function line name openParen (front ++ commentedRow comment row :: (back ++ after)) markers =
        (none, []) := by
  obtain ⟨gap, tail, hgap, htrim⟩ := exists_trim_commentedRow comment row
  have hfront : ∀ count < front.length,
      findParen (joinRows line (front.take count)) openParen = none := by
    intro count hcount
    have hopen := h.opened count (by simp; omega)
    rwa [take_append_of_le_length (Nat.le_of_lt hcount)] at hopen
  have hbefore : findParen (joinRows line front) openParen = none := by
    have hopen := h.opened front.length (by simp)
    rwa [take_left] at hopen
  have hrow : findParen (joinRows line (front ++ [row]) ++ gap) openParen = none := by
    have hlength := length_pos_of_ne_nil hback
    have hopen := h.opened (front.length + 1) (by simp; omega)
    rw [take_length_add_append, take_succ_cons, take_zero] at hopen
    apply findParen_append_of_notMem hopen
    intro hmem
    exact absurd (hgap _ hmem) (by decide)
  have hstart : joinRows line front ++ ' ' :: trim (commentedRow comment row) =
      joinRows line (front ++ [row]) ++ gap ++ '#' :: tail := by
    simp [joinRows, htrim]
  have hjoined : joinParameters openParen line
      (front ++ commentedRow comment row :: (back ++ after)) =
        joinParameters openParen (joinRows line (front ++ [row]) ++ gap ++ '#' :: tail)
          (back ++ after) := by
    rw [joinParameters_append hfront, joinParameters, hbefore, ← hstart]
    rfl
  obtain ⟨more, hmore⟩ := prefix_joinParameters openParen
    (joinRows line (front ++ [row]) ++ gap ++ '#' :: tail) (back ++ after)
  rw [Script.function_eq, hjoined]
  cases hclose : findParen (joinParameters openParen
      (joinRows line (front ++ [row]) ++ gap ++ '#' :: tail) (back ++ after)).1 openParen with
  | none => exact .inr (Prod.ext rfl (joinParameters_of_open hclose))
  | some close =>
    refine .inl ⟨_, _, ?_, ?_, rfl⟩
    · rw [← hmore, append_assoc, cons_append] at hclose ⊢
      exact mem_append_left _ (mark_mem_take hrow hclose)
    · rfl

/-- A function header of a script whose parameter list goes on over further rows: the reader comes to
the header, and it and the rows are free of quotes and comments. -/
structure SpreadHeader (text : Text) where
  above : List Text
  raw : Text
  rows : List Text
  after : List Text
  progress : Progress
  name : Text
  openParen : Nat
  lines_eq : lines text = above ++ raw :: (rows ++ after)
  reaches : Reaches (lines text) progress (raw :: (rows ++ after))
  atMargin : isPassedOver raw = false
  header : functionHeader? (codeOfLine raw).2 = some (name, openParen)
  spread : rows ≠ []
  closes : ClosesAfter (codeOfLine raw).2 openParen rows
  plain : (raw :: rows).all isPlainRow = true

/-! ## Whole scripts -/

theorem scan_congr {other : Text}
    (h : readLines .initial (lines other) = readLines .initial (lines source.text)) :
    scan { source with text := other } = scan source := by
  unfold scan
  change readLines ⟨none, [], [], [], []⟩ _ = readLines ⟨none, [], [], [], []⟩ _ at h
  rw [h]

theorem members_of_scan_eq {other : Text} (h : scan { source with text := other } = scan source) :
    (readLines .initial (lines other)).members = (readLines .initial (lines source.text)).members := by
  have htypes := congrArg (fun file => file.types.map TypeSummary.members) h
  exact (cons.inj htypes).1

theorem modify_append_cons {α : Type} (f : α → α) (above : List α) (row : α) (below : List α) :
    (above ++ row :: below).modify above.length f = above ++ f row :: below :=
  modifyTailIdx_add (modifyHead f) 0 above (row :: below)

theorem Reaches.readLines_other {first : Text} (h : Reaches rows progress (first :: below)) :
    ∃ above, rows = above ++ first :: below ∧
      ∀ other, readLines .initial (above ++ other) = readLines progress other := by
  obtain ⟨above, hrows, hother⟩ :=
    @Reaches.local progress [] (first :: below) rows h (cons_ne_nil _ _)
  exact ⟨above, hrows, fun other => (hother other).readLines_eq⟩

theorem scan_commented_line {commented : Text} {above : List Text}
    (hreaches : Reaches (lines source.text) progress (row :: below))
    (hlines : lines source.text = above ++ row :: below) (hplain : isPlainRow row = true)
    (hcommented : lines commented = above ++ commentedRow comment row :: below) :
    scan { source with text := commented } = scan source := by
  obtain ⟨front, hfront, hother⟩ := hreaches.readLines_other
  obtain rfl : above = front := append_cancel_right (hlines.symm.trans hfront)
  apply scan_congr
  rw [hcommented, hlines, hother, hother, readLines_cons, readLine_commentedRow hplain,
    readLines_cons]

theorem concat_prefix_inj {α : Type} {front list : List α} {first second : α}
    (hfirst : front ++ [first] <+: list) (hsecond : front ++ [second] <+: list) : first = second := by
  have hsame : front ++ [first] = front ++ [second] := by
    apply (prefix_of_prefix_length_le hfirst hsecond (by simp)).eq_of_length
    simp
  exact (cons.inj (append_cancel_left hsame)).1

namespace SpreadHeader

variable {source : Source} {commented : Text} (header : SpreadHeader source.text)

def code : Text :=
  (codeOfLine header.raw).2

def functionMarkers : List Marker :=
  header.progress.pending ++ (codeOfLine header.raw).1

theorem notMem_code : '#' ∉ header.code := by
  have hraw := all_eq_true.mp header.plain header.raw mem_cons_self
  intro hmem
  have hsubset := Subset.trans (Dialect.typescript.peel_suffix _).subset
    (dropComment_subset header.raw)
  exact (notMem_of_isPlainRow hraw).1 (hsubset hmem)

theorem notMem_rows : ∀ row ∈ header.rows, '#' ∉ row := by
  intro row hrow
  exact (notMem_of_isPlainRow (all_eq_true.mp header.plain row (mem_cons_of_mem _ hrow))).1

theorem lines_of_rows {rows : List Text} (hrows : header.rows = rows) :
    lines source.text = header.above ++ header.raw :: (rows ++ header.after) :=
  hrows ▸ header.lines_eq

theorem lines_modify {front back : List Text} (f : Text → Text)
    (hrows : header.rows = front ++ row :: back) :
    (lines source.text).modify (header.above.length + 1 + front.length) f =
      header.above ++ header.raw :: (front ++ f row :: back ++ header.after) := by
  have hmodify := modify_append_cons f (header.above ++ header.raw :: front) row (back ++ header.after)
  rw [header.lines_of_rows hrows]
  simpa [Nat.add_comm, Nat.add_left_comm] using hmodify

theorem readLines_eq (rows : List Text) :
    readLines .initial (header.above ++ header.raw :: rows) =
      readLines
        (header.progress.add
          (function header.code header.name header.openParen rows header.functionMarkers).1)
        (function header.code header.name header.openParen rows header.functionMarkers).2 := by
  obtain ⟨front, hfront, hother⟩ := header.reaches.readLines_other
  obtain hsame : header.above = front := append_cancel_right (header.lines_eq.symm.trans hfront)
  rw [hsame, hother, readLines_cons, readLine_function header.atMargin rfl header.header]
  rfl

theorem concat_prefix_members {rows left : List Text} {found : Member}
    (hfound : function header.code header.name header.openParen rows header.functionMarkers =
      (some found, left)) (hshown : isHidden found.name = false) :
    header.progress.members ++ [found] <+:
      (readLines .initial (header.above ++ header.raw :: rows)).members := by
  rw [header.readLines_eq, hfound]
  have hadd : (header.progress.add (some found)).members = header.progress.members ++ [found] := by
    simp [Progress.add, hshown]
  rw [← hadd]
  exact members_prefix_readLines _ _

theorem readLines_of_hidden {rows left : List Text} {found : Member}
    (hfound : function header.code header.name header.openParen rows header.functionMarkers =
      (some found, left)) (hhidden : isHidden found.name = true) :
    readLines .initial (header.above ++ header.raw :: rows) =
      readLines (header.progress.add none) left := by
  have hadd : header.progress.add (some found) = header.progress.add none := by
    simp [Progress.add, hhidden]
  rw [header.readLines_eq, hfound, hadd]

theorem notMem_joinRows : '#' ∉ joinRows header.code header.rows :=
  Script.notMem_joinRows (by decide) header.notMem_code header.notMem_rows

theorem exists_function :
    ∃ found, function header.code header.name header.openParen (header.rows ++ header.after)
        header.functionMarkers = (some found, header.after) ∧
      found.name = header.name ∧ '#' ∉ found.signature := by
  obtain ⟨close, -, hfunction⟩ :=
    header.closes.function_eq header.name header.functionMarkers header.after
  refine ⟨_, hfunction, rfl, notMem_functionMember ?_ fun result hresult => ?_⟩
  · exact fun hmem => header.notMem_joinRows (mem_of_mem_take hmem)
  · exact fun hmem => header.notMem_joinRows (rowsResult_subset hresult hmem)

section

variable {front back : List Text} (hrows : header.rows = front ++ row :: back)
  (hcommented : lines commented =
    header.above ++ header.raw :: (front ++ commentedRow comment row :: back ++ header.after))

include hrows hcommented

/-- In a function that is hidden, a comment behind the last row changes nothing, and neither does one
with which the list closes on the same row. -/
theorem scan_commented_of_hidden (hhidden : isHidden header.name = true)
    (h : back = [] ∨
      ClosesAfter header.code header.openParen (front ++ commentedRow comment row :: back)) :
    scan { source with text := commented } = scan source := by
  have hcloses :
      ClosesAfter header.code header.openParen (front ++ commentedRow comment row :: back) := by
    rcases h with rfl | hcloses
    · have hbefore := header.closes
      rw [hrows] at hbefore
      exact (hbefore.commented_last comment).choose_spec.2.2
    · exact hcloses
  obtain ⟨found, hfound, hname, -⟩ := header.exists_function
  obtain ⟨close, -, hlater⟩ := hcloses.function_eq header.name header.functionMarkers header.after
  apply scan_congr
  rw [hcommented, header.lines_eq, header.readLines_of_hidden hlater hhidden,
    header.readLines_of_hidden hfound (hname ▸ hhidden)]

/-- In a function that is shown, a comment behind a row changes nothing exactly if the row is the last
one and no result type is read behind it, with the comment or without. -/
theorem scan_commented_iff (hshown : isHidden header.name = false) :
    scan { source with text := commented } = scan source ↔
      back = [] ∧ rowsResult header.code header.openParen header.rows = none ∧
        rowsResult header.code header.openParen (front ++ commentedRow comment row :: back) = none := by
  have hcloses : ClosesAfter header.code header.openParen (front ++ row :: back) :=
    hrows ▸ header.closes
  by_cases hback : back = []
  · subst hback
    have hmark := header.notMem_joinRows
    rw [hrows] at hmark ⊢
    obtain ⟨head, hbefore, hafter, hresult⟩ :=
      hcloses.function_commented_last hmark comment header.name header.functionMarkers header.after
    constructor
    · intro hscan
      have hfirst := header.concat_prefix_members hbefore hshown
      have hsecond := header.concat_prefix_members hafter hshown
      rw [← header.lines_of_rows hrows] at hfirst
      rw [← hcommented, members_of_scan_eq hscan] at hsecond
      have hsame := functionMember_inj.mp (concat_prefix_inj hsecond hfirst)
      have hnone := hresult hsame
      exact ⟨rfl, hnone, hsame.trans hnone⟩
    · rintro ⟨-, hnone, hnone'⟩
      rw [hnone] at hbefore
      rw [hnone', ← hbefore] at hafter
      apply scan_congr
      rw [hcommented, header.lines_of_rows hrows, header.readLines_eq, hafter, header.readLines_eq]
  · refine ⟨fun hscan => ?_, fun h => absurd h.1 hback⟩
    obtain ⟨found, hfound, hname, hplain⟩ := header.exists_function
    have hfirst := header.concat_prefix_members hfound (hname ▸ hshown)
    rw [← header.lines_eq, ← members_of_scan_eq hscan, hcommented] at hfirst
    rcases hcloses.function_commented hback comment header.name header.functionMarkers header.after with
      ⟨later, left, hmark, hlater, hfunction⟩ | hfunction
    · rw [← cons_append, ← append_assoc] at hfunction
      have hsecond := header.concat_prefix_members hfunction (hlater ▸ hshown)
      rw [← concat_prefix_inj hfirst hsecond] at hmark
      exact absurd hmark hplain
    · -- no member is added, and no line is left
      rw [← cons_append, ← append_assoc] at hfunction
      rw [header.readLines_eq, hfunction, readLines_nil] at hfirst
      have hle : header.progress.members.length + 1 ≤ header.progress.members.length := by
        simpa [Progress.add] using hfirst.length_le
      omega

end

end SpreadHeader

/-- What a comment behind a line of a script changes. Nothing, if the reader comes to the line, as it
does to every function header. The rows that continue a parameter list are read with their comments. In
a function that is shown, such a comment changes nothing only behind the last row, and there exactly if
no result type is read, with the comment or without. In a function that is hidden, it changes nothing
behind the last row or if the list still closes on the same row. -/
theorem scan_commented (source : Source) (comment commented : Text) (number : Nat)
    (hlines : lines commented = (lines source.text).modify number (commentedRow comment)) :
    (∀ progress row, (lines source.text)[number]? = some row → isPlainRow row = true →
        Reaches (lines source.text) progress ((lines source.text).drop number) →
        scan { source with text := commented } = scan source) ∧
      ∀ header : SpreadHeader source.text,
        (number = header.above.length → scan { source with text := commented } = scan source) ∧
        ∀ index < header.rows.length, number = header.above.length + 1 + index →
          (isHidden header.name = true →
            (index + 1 = header.rows.length ∨
              ClosesAfter header.code header.openParen
                (header.rows.modify index (commentedRow comment))) →
            scan { source with text := commented } = scan source) ∧
          (isHidden header.name = false →
            (scan { source with text := commented } = scan source ↔
              index + 1 = header.rows.length ∧
                rowsResult header.code header.openParen header.rows = none ∧
                rowsResult header.code header.openParen
                  (header.rows.modify index (commentedRow comment)) = none)) := by
  refine ⟨?_, fun header => ⟨?_, ?_⟩⟩
  · intro progress row hrow hplain hreaches
    obtain ⟨hlt, rfl⟩ := List.getElem?_eq_some_iff.mp hrow
    have hdrop := drop_eq_getElem_cons hlt
    have hsplit := take_append_drop number (lines source.text)
    rw [hdrop] at hreaches hsplit
    rw [modify_eq_take_cons_drop hlt] at hlines
    exact scan_commented_line hreaches hsplit.symm hplain hlines
  · intro hnumber
    rw [hnumber, header.lines_eq, modify_append_cons] at hlines
    have hplain := all_eq_true.mp header.plain header.raw mem_cons_self
    exact scan_commented_line header.reaches header.lines_eq hplain hlines
  · intro index hindex hnumber
    have hrows := take_append_drop index header.rows
    rw [drop_eq_getElem_cons hindex] at hrows
    have hmodify := header.lines_modify (commentedRow comment) hrows.symm
    rw [length_take_of_le (Nat.le_of_lt hindex), ← hnumber, ← hlines] at hmodify
    have hlast : header.rows.drop (index + 1) = [] ↔ index + 1 = header.rows.length := by
      rw [drop_eq_nil_iff]
      omega
    rw [modify_eq_take_cons_drop hindex, ← hlast]
    exact ⟨header.scan_commented_of_hidden hrows.symm hmodify,
      header.scan_commented_iff hrows.symm hmodify⟩

/-- A function whose two parameters stand on rows of their own, with a text behind its header and one
behind its first parameter. -/
def moveText (behindHeader behindRow : Text) : Text :=
  "func move(".toList ++ behindHeader ++ "\n\tdirection: Vector2,".toList ++ behindRow ++
    "\n\tdelta: float) -> Vector2:\n\tpass\n".toList

def moveScript : Source :=
  { path := "player.gd".toList, extension := ".gd".toList, text := moveText [] [] }

def moveHeader : SpreadHeader moveScript.text where
  above := []
  raw := "func move(".toList
  rows := ["\tdirection: Vector2,".toList, "\tdelta: float) -> Vector2:".toList]
  after := ["\tpass".toList]
  progress := .initial
  name := "move".toList
  openParen := 9
  lines_eq := by decide +kernel
  reaches := .start
  atMargin := by decide +kernel
  header := by decide +kernel
  spread := by simp
  closes := ⟨by decide +kernel, by decide +kernel⟩
  plain := by decide +kernel

/-- A comment behind the header is dropped, the same comment behind the first parameter is not. -/
theorem scan_moveScript_commented :
    (lines (moveText " # where to".toList []) =
        (lines moveScript.text).modify 0 (commentedRow "where to".toList) ∧
      scan { moveScript with text := moveText " # where to".toList [] } = scan moveScript) ∧
    lines (moveText [] " # where to".toList) =
        (lines moveScript.text).modify 1 (commentedRow "where to".toList) ∧
      scan { moveScript with text := moveText [] " # where to".toList } ≠ scan moveScript := by
  have hheader : lines (moveText " # where to".toList []) =
      (lines moveScript.text).modify 0 (commentedRow "where to".toList) := by decide +kernel
  have hrow : lines (moveText [] " # where to".toList) =
      (lines moveScript.text).modify 1 (commentedRow "where to".toList) := by decide +kernel
  refine ⟨⟨hheader, ?_⟩, hrow, fun hscan => ?_⟩
  · exact ((scan_commented moveScript _ _ 0 hheader).2 moveHeader).1 rfl
  · have hsame := ((scan_commented moveScript _ _ 1 hrow).2 moveHeader).2 0 (by decide) rfl
    exact absurd ((hsame.2 (by decide +kernel)).mp hscan).1 (by decide)

end SourceAtlas.Script
