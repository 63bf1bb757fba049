import SourceAtlas.Endpoint
import SourceAtlas.Proofs.Header.Opening
import SourceAtlas.Proofs.Line.Comment
import SourceAtlas.Proofs.Marker.Followed
import SourceAtlas.Proofs.Member.Interference
import SourceAtlas.Proofs.Text.Split
import Mathlib.Data.List.Forall2

/-!
# The layout of a parameter list

A method may stand on one line, or with its parameters on lines of their own. On one line the header is
read at once. On several lines it is read up to the open parenthesis, and the lines below are joined to it
until the list closes. Both ways give the same member, but for the blanks in its signature.
-/

namespace SourceAtlas

open List Option

variable {inner : Text} {member : Member}

/-! ## Headers and their rows -/

/-- A header whose parameter list can be laid out: what stands in front of the parameters, the parameters
and what stands behind the list. -/
structure HeaderLayout where
  opening : Text
  parameters : List Text
  tail : Text
  opens : opening.getLast? = some '('
  unquoted : quoteAfter none opening = none
  nonempty : parameters ≠ []
  pieces : ∀ parameter ∈ parameters, splitCommas parameter = some [parameter]
  unbroken : ∀ text ∈ opening :: tail :: parameters, ∀ c ∈ text, isLineBreak c = false
  uncommented : ∀ text ∈ opening :: tail :: parameters, codeFront none text = none

/-- The lines of a parameter list with one parameter on each. -/
def parameterRows (tail : Text) : List Text → List Text
  | [] => []
  | [last] => [last ++ ')' :: tail]
  | parameter :: second :: others => (parameter ++ [',']) :: parameterRows tail (second :: others)

def Indented (row line : Text) : Prop :=
  ∃ blanks, (∀ c ∈ blanks, isBlank c = true) ∧ line = blanks ++ row

namespace HeaderLayout

variable (layout : HeaderLayout)

def list : Text :=
  joinWith ", ".toList layout.parameters

def behind : Text :=
  layout.list ++ ')' :: layout.tail

def oneLine : Text :=
  layout.opening ++ layout.behind

def rows : List Text :=
  layout.opening :: parameterRows layout.tail layout.parameters

/-- Whether the parameter list that is read on one line opens where the opening ends. -/
def opensAtEnd (dialect : Dialect) : Bool :=
  let text := (dialect.peel (codeOf layout.oneLine)).2
  ((dialect.tokenize text).bind (·.openParen)).any fun start =>
    text.drop (start + 1) == trimRight layout.behind

end HeaderLayout

/-- What the scan makes use of in a parameter. -/
structure IsParameterText (text : Text) : Prop where
  balanced : Balanced text
  solid : ∃ c, text.head? = some c ∧ isBlank c = false
  uncommented : codeFront none text = none

section

variable {row line parameter tail : Text} {parameters : List Text}

theorem Indented.codeOf_eq (h : Indented row line) (hcode : codeFront none row = none) :
    codeOf line = trim row := by
  obtain ⟨blanks, hblanks, rfl⟩ := h
  have hline : codeFront none (blanks ++ row) = none := by
    rw [codeFront_blanks_append hblanks, hcode, map_none]
  rw [codeOf_eq_trim hline, trim_blanks_append hblanks]

theorem IsParameterText.trim_append (h : IsParameterText parameter) {rest : Text} {c : Char}
    (hrest : rest.head? = some c) (hc : isBlank c = false) :
    trim (parameter ++ rest) = parameter ++ trimRight rest := by
  obtain ⟨d, hhead, hd⟩ := h.solid
  have hlonger : (parameter ++ rest).head? = some d := by
    rw [head?_append, hhead, some_or]
  rw [trim, trimLeft_of_head? hlonger hd, trimRight, dropEndWhile_append_of_mem _ hc, trimRight]
  exact mem_of_mem_head? hrest

theorem codeFront_paren_append (h : codeFront none tail = none) : codeFront none (')' :: tail) = none := by
  rw [codeFront_cons (by decide) fun hc => absurd hc (by decide), h, map_none]

theorem IsParameterText.codeOf_row (h : IsParameterText parameter)
    (hline : Indented (parameter ++ [',']) line) : codeOf line = parameter ++ [','] := by
  have hcode : codeFront none (parameter ++ [',']) = none := by
    rw [h.balanced.codeFront_append h.uncommented (by decide)]
    rfl
  rw [hline.codeOf_eq hcode, h.trim_append rfl (by decide)]
  rfl

theorem IsParameterText.codeOf_last (h : IsParameterText parameter) (htail : codeFront none tail = none)
    (hline : Indented (parameter ++ ')' :: tail) line) :
    codeOf line = parameter ++ ')' :: trimRight tail := by
  have hcode : codeFront none (parameter ++ ')' :: tail) = none := by
    rw [h.balanced.codeFront_append h.uncommented (by simp), codeFront_paren_append htail, map_none]
  have hclose : trimRight (')' :: tail) = ')' :: trimRight tail :=
    trimRight_append_of_getLast? (show [')'].getLast? = some ')' from rfl) (by decide) tail
  rw [hline.codeOf_eq hcode, h.trim_append rfl (by decide), hclose]

/-! ## Joining the rows -/

theorem findParen_unclosed (h : Balanced inner) (lead : Text) :
    findParen (lead ++ '(' :: inner) lead.length = none := by
  have hinner := h.closingFrom_append (show closerOf? '(' = some ')' from rfl) (by decide) Int.one_pos
    (lead.length + 1) []
  rw [count_nil, Int.ofNat_zero, Int.add_zero, append_nil] at hinner
  rw [findParen, findClosing, drop_left, closingFrom_opener (by decide), Int.zero_add, hinner]
  rfl

theorem joinLine_eq {text raw code : Text} (h : codeOf raw = code) (hne : code ≠ []) :
    joinLine text raw = text ++ ' ' :: code := by
  rw [joinLine, h, if_neg (by simpa using hne)]

theorem continueHeader?_parameterRows (hne : parameters ≠ [])
    (hparameters : ∀ parameter ∈ parameters, IsParameterText parameter)
    (htail : codeFront none tail = none) {below : List Text}
    (hbelow : Forall₂ Indented (parameterRows tail parameters) below)
    (hinner : Balanced inner) (lead : Text) {limit : Nat} (hlimit : parameters.length ≤ limit) :
    continueHeader? lead.length limit (lead ++ '(' :: inner) below =
      some (lead ++ '(' :: (inner ++ ' ' :: (joinWith ", ".toList parameters ++ ')' :: trimRight tail)),
        parameters.length) := by
  induction parameters generalizing inner limit below with
  | nil => exact absurd rfl hne
  | cons parameter others ih =>
    rw [forall_mem_cons] at hparameters
    obtain ⟨limit, rfl⟩ : ∃ fewer, limit = fewer + 1 := by
      cases limit with
      | zero => cases hlimit
      | succ fewer => exact ⟨fewer, rfl⟩
    have hopen := findParen_unclosed hinner lead
    have hspaced : Balanced (inner ++ ' ' :: parameter) :=
      hinner.append (.inert (by decide) hparameters.1.balanced)
    cases others with
    | nil =>
      obtain ⟨line, rest, hline, -, rfl⟩ := forall₂_cons_left_iff.mp hbelow
      have hjoin : joinLine (lead ++ '(' :: inner) line =
          lead ++ '(' :: (inner ++ ' ' :: parameter ++ ')' :: trimRight tail) := by
        rw [joinLine_eq (hparameters.1.codeOf_last htail hline) (by simp)]
        simp
      rw [continueHeader?_cons hopen, hjoin, findParen_enclosed hspaced, isSome_some, if_pos rfl]
      simp [joinWith]
    | cons second others =>
      obtain ⟨line, rest, hline, hrest, rfl⟩ := forall₂_cons_left_iff.mp hbelow
      have hcomma : Balanced (inner ++ ' ' :: parameter ++ [',']) :=
        hspaced.append (.of_inert (all_eq_true.mp (by decide)))
      have hjoin : joinLine (lead ++ '(' :: inner) line =
          lead ++ '(' :: (inner ++ ' ' :: parameter ++ [',']) := by
        rw [joinLine_eq (hparameters.1.codeOf_row hline) (by simp)]
        simp
      have hnext := ih (cons_ne_nil _ _) hparameters.2 hrest hcomma
        (Nat.le_of_succ_le_succ hlimit)
      rw [continueHeader?_cons hopen, hjoin, findParen_unclosed hcomma, hnext]
      simp [joinWith]

theorem codeFront_joinWith (hparameters : ∀ parameter ∈ parameters, IsParameterText parameter) :
    codeFront none (joinWith ", ".toList parameters) = none := by
  induction parameters with
  | nil => rfl
  | cons parameter others ih =>
    rw [forall_mem_cons] at hparameters
    by_cases hlast : others = []
    · rw [hlast]
      exact hparameters.1.uncommented
    · rw [joinWith_cons _ _ hlast, append_assoc,
        hparameters.1.balanced.codeFront_append hparameters.1.uncommented (by simp),
        codeFront_append_plain (by simp; decide), ih hparameters.2]
      rfl

end

/-! ## The header on one line -/

namespace HeaderLayout

variable (layout : HeaderLayout)

theorem isParameterText : ∀ parameter ∈ layout.parameters, IsParameterText parameter := by
  intro parameter hmem
  obtain ⟨hpiece, hblank, htrim⟩ := IsPiece.of_splitTopLevel (layout.pieces parameter hmem)
  refine ⟨hpiece.balanced, ?_, layout.uncommented parameter (by simp [hmem])⟩
  cases parameter with
  | nil => cases hblank
  | cons c rest => exact ⟨c, rfl, isBlank_of_mem_head?_trim (by rw [htrim]; rfl)⟩

theorem balanced_list : Balanced layout.list :=
  .joinWith (.of_inert (all_eq_true.mp (by decide))) fun parameter hmem =>
    (layout.isParameterText parameter hmem).balanced

/-- What stands behind the open parenthesis in the code of a line. -/
def ending : Text :=
  layout.list ++ ')' :: trimRight layout.tail

theorem trimRight_behind : trimRight layout.behind = layout.ending := by
  have hbehind : layout.behind = layout.list ++ [')'] ++ layout.tail := by simp [behind]
  rw [hbehind, trimRight_append_of_getLast? getLast?_concat (by decide)]
  simp [ending]

theorem codeFront_oneLine : codeFront none layout.oneLine = none := by
  have htail : codeFront none layout.tail = none := layout.uncommented _ (by simp)
  have hlist : codeFront none layout.list = none := codeFront_joinWith layout.isParameterText
  have hslash : layout.opening.getLast? ≠ some '/' := by
    rw [layout.opens]
    decide
  rw [oneLine, codeFront_append (layout.uncommented _ (by simp)) layout.unquoted (.inl hslash), behind,
    layout.balanced_list.codeFront_append hlist (by simp), codeFront_paren_append htail]
  rfl

theorem codeOf_oneLine : codeOf layout.oneLine = trimLeft layout.opening ++ layout.ending := by
  have hopen : (trimLeft layout.opening).getLast? = some '(' := getLast?_trimLeft_open layout.opens
  rw [codeOf_eq_trim layout.codeFront_oneLine, trim, oneLine, trimLeft_append_open layout.opens,
    trimRight_append_of_getLast? hopen (by decide), trimRight_behind]

theorem codeOf_opening {line : Text} (h : Indented layout.opening line) :
    codeOf line = trimLeft layout.opening := by
  rw [h.codeOf_eq (layout.uncommented _ (by simp)), trim,
    trimRight_of_getLast? (getLast?_trimLeft_open layout.opens) (by decide)]

theorem lines_oneLine : lines layout.oneLine = [layout.oneLine] := by
  have hlist : ∀ c ∈ layout.list, isLineBreak c = false :=
    forall_mem_joinWith (by simp; decide) fun parameter hmem => layout.unbroken parameter (by simp [hmem])
  apply lines_of_unbroken
  · intro c hc
    rw [oneLine, behind, mem_append, mem_append, mem_cons] at hc
    rcases hc with hopening | hmem | rfl | htail
    · exact layout.unbroken _ (by simp) c hopening
    · exact hlist c hmem
    · decide
    · exact layout.unbroken layout.tail (by simp) c htail
  · simp [oneLine, behind]

variable {layout} {dialect : Dialect}

/-- Up to the open parenthesis both layouts have the same markers and the same header. -/
theorem exists_lead (h : layout.opensAtEnd dialect = true) :
    ∃ markers lead header type, dialect.OpensList lead header type ∧
      dialect.peel (codeOf layout.oneLine) = (markers, lead ++ '(' :: layout.ending) ∧
      dialect.peel (trimLeft layout.opening) = (markers, lead ++ ['(']) := by
  obtain ⟨start, hstart, hdrop⟩ := (Option.any_eq_true ..).mp h
  obtain ⟨header, hheader, hopen⟩ := bind_eq_some_iff.mp hstart
  rw [beq_iff_eq, trimRight_behind] at hdrop
  have hsuffix := dialect.peel_suffix (codeOf layout.oneLine)
  have hlast : (trimLeft layout.opening).getLast? = some '(' := getLast?_trimLeft_open layout.opens
  generalize hpeeled : dialect.peel (codeOf layout.oneLine) = peeled at hheader hdrop hsuffix
  obtain ⟨markers, text⟩ := peeled
  simp only at hheader hdrop hsuffix
  -- the front of the text ends as the opening does
  obtain ⟨front, rfl, hlength⟩ : ∃ front, text = front ++ layout.ending ∧ front.length = start + 1 := by
    refine ⟨text.take (start + 1), by rw [← hdrop, take_append_drop], ?_⟩
    have hmem : ')' ∈ layout.ending := by simp [ending]
    have hpos := length_pos_of_mem hmem
    rw [← hdrop, length_drop] at hpos
    rw [length_take]
    omega
  have hne : front ≠ [] := by
    rintro rfl
    cases hlength
  have hfront : front <:+ trimLeft layout.opening := by
    obtain ⟨before, hbefore⟩ := hsuffix
    rw [codeOf_oneLine, ← append_assoc] at hbefore
    exact ⟨before, append_cancel_right hbefore⟩
  obtain ⟨lead, rfl⟩ := getLast?_eq_some_iff.mp ((getLast?_of_suffix hfront hne).trans hlast)
  rw [length_append, length_singleton, Nat.add_right_cancel_iff] at hlength
  have hwhole : lead ++ ['('] ++ layout.ending = lead ++ '(' :: layout.ending := by simp
  rw [codeOf_oneLine] at hpeeled
  rw [hwhole] at hheader
  obtain ⟨type, hopens⟩ := Dialect.exists_opensList hheader (by rw [hopen, hlength])
  refine ⟨markers, lead, header, type, hopens, ?_, Dialect.peel_of_append hlast hne hpeeled⟩
  rw [hwhole]

end HeaderLayout

/-! ## The member -/

/-- What members have in common that differ in the layout of their signatures. -/
structure Dialect.SameButLayout (dialect : Dialect) (first second : Member) : Prop where
  name : first.name = second.name
  kind : first.kind = second.kind
  declaredType : first.declaredType = second.declaredType
  markers : first.markers = second.markers
  parameters : dialect.parameters first.signature = dialect.parameters second.signature

theorem Dialect.SameButLayout.payloads {dialect : Dialect} {first second : Member}
    (h : dialect.SameButLayout first second) : dialect.payloads first = dialect.payloads second := by
  rw [Dialect.payloads, h.parameters, h.declaredType, Dialect.payloads]

namespace Dialect.OpensList

variable {dialect : Dialect} {lead : Text} {header : Header} {type : Text → Text}

/-- The member that a header declares with a closed parameter list. -/
theorem buildMember?_eq (h : dialect.OpensList lead header type) (hinner : Balanced inner)
    (after : Text) (markers : List Marker) (interfaceLike follows : Bool) :
    buildMember? dialect (lead ++ '(' :: (inner ++ ')' :: after)) markers interfaceLike follows = some
      { name := header.name
        kind := dialect.memberKind { header with declaredType := type after } markers
          (follows && header.terminator = .none)
        declaredType := type (dialect.listEnd interfaceLike after)
        signature := lead ++ '(' :: (inner ++ ')' :: dialect.listEnd interfaceLike after)
        markers } := by
  have hsignature : dialect.trimmed? interfaceLike (lead ++ '(' :: (inner ++ ')' :: after))
      { header with declaredType := type after } =
        some (lead ++ '(' :: (inner ++ ')' :: dialect.listEnd interfaceLike after)) := by
    rw [trimmed?, h.openParen, elim_some, findParen_enclosed hinner, map_some,
      finishMethod_enclosed]
  exact buildMember?_of_trimmed? (h.closes after hinner) hsignature (h.closes _ hinner) markers follows

/-- A blank in front of the parameters changes nothing but the signature. -/
theorem exists_lineMember?_cons_blank (h : dialect.OpensList lead header type)
    (hinner : Balanced inner) {blank : Char} (hblank : isBlank blank = true) {after typeName : Text}
    {interfaceLike : Bool} {inline : List Marker} {used : Nat} {above below : List Text}
    (hmember : lineMember? dialect typeName interfaceLike
      ⟨lead ++ '(' :: (inner ++ ')' :: after), inline, used⟩ above below = some member) (more : Nat) :
    ∃ other, lineMember? dialect typeName interfaceLike
        ⟨lead ++ '(' :: (blank :: inner ++ ')' :: after), inline, more⟩ above below = some other ∧
      dialect.SameButLayout other member := by
  have hspaced : Balanced (blank :: inner) := .inert (isInert_of_isBlank hblank) hinner
  rw [lineMember?, h.buildMember?_eq hinner] at hmember
  rw [lineMember?, h.buildMember?_eq hspaced]
  obtain ⟨hsome, hkept⟩ := filter_eq_some_iff.mp hmember
  cases hsome
  refine ⟨_, filter_eq_some_iff.mpr ⟨rfl, hkept⟩, ?_⟩
  exact ⟨rfl, rfl, rfl, rfl, h.parameters_cons_blank hinner hblank _⟩

end Dialect.OpensList

namespace MemberScan

variable {scan : MemberScan} {raw : Text} {rows : List Text}

theorem members_of_below_eq_nil {state : ScanState} (h : state.below = []) : scan.members state = [] := by
  rw [members, h, membersFrom_nil]

theorem members_header_rows {header : HeaderLine} (hpass : scan.dialect.passesOver raw = false)
    (hheader : headerLine? scan.dialect scan.interfaceLike (codeOf raw) rows = some header)
    (hused : header.used = rows.length) :
    scan.members ⟨0, [], raw :: rows⟩ =
      (lineMember? scan.dialect scan.typeName scan.interfaceLike header [] []).toList := by
  have hfound : scan.header? ⟨0, [], raw :: rows⟩ = some header := by
    rw [header?_of_candidate hpass, hheader]
  have hbelow : (scan.next ⟨0, [], raw :: rows⟩).below = [] := by
    have hall : scan.used ⟨0, [], raw :: rows⟩ = rows.length := by rw [used, hfound, elim_some, hused]
    rw [next, hall]
    exact drop_length
  have hafter : (raw :: rows).drop (header.used + 1) = [] := by rw [hused]; exact drop_length
  rw [members_step, members_of_below_eq_nil hbelow, append_nil, member?, hfound, bind_some, hafter]

theorem exists_header_of_members (h : scan.members ⟨0, [], [raw]⟩ = [member]) :
    scan.dialect.passesOver raw = false ∧ ∃ header,
      headerLine? scan.dialect scan.interfaceLike (codeOf raw) [] = some header ∧
        lineMember? scan.dialect scan.typeName scan.interfaceLike header [] [] = some member := by
  have hbelow : (scan.next ⟨0, [], [raw]⟩).below = [] := drop_nil
  rw [members_step, members_of_below_eq_nil hbelow, append_nil] at h
  have hmember : scan.member? ⟨0, [], [raw]⟩ = some member := by
    cases hfound : scan.member? ⟨0, [], [raw]⟩ with
    | none => rw [hfound] at h; cases h
    | some found => rw [hfound] at h; cases h; rfl
  obtain ⟨header, hheader, hline⟩ := bind_eq_some_iff.mp hmember
  have hpass : scan.dialect.passesOver raw = false := by
    by_contra hpass
    rw [header?_of_passesOver (by simpa using hpass)] at hheader
    cases hheader
  rw [header?_of_candidate hpass] at hheader
  exact ⟨hpass, header, hheader, by simpa using hline⟩

end MemberScan

theorem passesOver_of_front {dialect : Dialect} {first second : Text} (h : codeOf first <+: codeOf second)
    (hne : codeOf first ≠ []) (hpass : dialect.passesOver second = false) :
    dialect.passesOver first = false := by
  rw [Dialect.passesOver, Bool.or_eq_false_iff] at hpass ⊢
  refine ⟨by simpa using hne, ?_⟩
  by_contra hcomment
  rw [Dialect.isComment_of_front h (by simpa using hcomment)] at hpass
  cases hpass.2

theorem length_parameterRows (tail : Text) (parameters : List Text) :
    (parameterRows tail parameters).length = parameters.length := by
  fun_induction parameterRows tail parameters with
  | case1 => rfl
  | case2 => rfl
  | case3 parameter second others ih =>
    rw [length_cons, ih]
    rfl

namespace HeaderLayout

variable {layout : HeaderLayout} {dialect : Dialect} {interfaceLike : Bool} {markers : List Marker}
  {lead : Text} {header : Header} {type : Text → Text}

theorem of_headerLine?_oneLine {found : HeaderLine} (hlist : dialect.OpensList lead header type)
    (hpeel : dialect.peel (codeOf layout.oneLine) = (markers, lead ++ '(' :: layout.ending))
    (h : headerLine? dialect interfaceLike (codeOf layout.oneLine) [] = some found) :
    dialect.isMemberCandidate (lead ++ '(' :: layout.ending) interfaceLike = true ∧
      (dialect.typeHeaderAt? none (lead ++ '(' :: layout.ending)).isSome = false ∧
      found = ⟨lead ++ '(' :: layout.ending, markers, 0⟩ := by
  have htokenize : dialect.tokenize (lead ++ '(' :: layout.ending) =
      some { header with declaredType := type (trimRight layout.tail) } :=
    hlist.closes (trimRight layout.tail) layout.balanced_list
  have hclose : (findParen (lead ++ '(' :: layout.ending) lead.length).isSome = true := by
    rw [ending, findParen_enclosed layout.balanced_list, isSome_some]
  rw [headerLine?, hpeel] at h
  simp only at h
  split at h
  · cases h
  · next hskip =>
    simp only [Bool.or_eq_true, not_or, Bool.not_eq_true, Bool.not_eq_false'] at hskip
    refine ⟨hskip.1.2, hskip.2, ?_⟩
    simp only [bind, htokenize, bind_some, hlist.openParen, hclose, if_true,
      some.injEq] at h
    exact h.symm

/-- On several lines the header is open at the end of the first one. -/
theorem openParameters?_opening (hlist : dialect.OpensList lead header type)
    (hpeel : dialect.peel (trimLeft layout.opening) = (markers, lead ++ ['(']))
    (hmember : dialect.isMemberCandidate (lead ++ '(' :: layout.ending) interfaceLike = true)
    (htype : (dialect.typeHeaderAt? none (lead ++ '(' :: layout.ending)).isSome = false) :
    openParameters? dialect interfaceLike (trimLeft layout.opening) = some (lead ++ ['('], lead.length) := by
  have hlast : (lead ++ ['(']).getLast? = some '(' := getLast?_concat
  have hshort : (dialect.typeHeaderAt? none (lead ++ ['('])).isSome = false := by
    rw [Bool.eq_false_iff]
    intro hsome
    have hlonger := dialect.isSome_typeHeaderAt?_append_open hlast hsome layout.ending
    rw [append_assoc, singleton_append, htype] at hlonger
    cases hlonger
  have hempty : (lead ++ ['(']).isEmpty = false := by simp
  have hunclosed : findParen (lead ++ ['(']) lead.length = none := findParen_unclosed .nil lead
  obtain ⟨declared, htokenize⟩ := hlist.reads []
  unfold openParameters?
  simp only [hpeel, hempty, hlist.isMemberCandidate hmember, hshort, Bool.not_true, Bool.or_self,
    Bool.false_eq_true, if_false, bind, htokenize, bind_some, hlist.openParen, hunclosed,
    isSome_none]

end HeaderLayout

/-- The layout of a parameter list does not matter. -/
theorem scanMembers_parameterRows {dialect : Dialect} {typeName : Text} {kind : TypeKind}
    {layout : HeaderLayout} {member : Member} {body : Text}
    (hone : scanMembers dialect typeName kind layout.oneLine = [member])
    (hopens : layout.opensAtEnd dialect = true)
    (hbody : Forall₂ Indented layout.rows (lines body)) (hcount : layout.parameters.length ≤ 40) :
    ∃ other, scanMembers dialect typeName kind body = [other] ∧ other.name = member.name ∧
      other.kind = member.kind ∧ other.declaredType = member.declaredType ∧
      other.markers = member.markers ∧
      dialect.parameters other.signature = dialect.parameters member.signature ∧
      dialect.payloads other = dialect.payloads member := by
  obtain ⟨markers, lead, header, type, hlist, hpeel, hopening⟩ := HeaderLayout.exists_lead hopens
  rw [scanMembers, layout.lines_oneLine] at hone
  have hscan : MemberScan.members ⟨dialect, typeName, kind.isInterfaceLike⟩ ⟨0, [], [layout.oneLine]⟩ =
      [member] := hone
  obtain ⟨hpass, found, hfound, hmember⟩ := MemberScan.exists_header_of_members hscan
  obtain ⟨hcandidate, htype, rfl⟩ := HeaderLayout.of_headerLine?_oneLine hlist hpeel hfound
  obtain ⟨other, hother, hsame⟩ := hlist.exists_lineMember?_cons_blank layout.balanced_list
    (show isBlank ' ' = true by decide) hmember layout.parameters.length
  refine ⟨other, ?_, hsame.name, hsame.kind, hsame.declaredType, hsame.markers, hsame.parameters,
    hsame.payloads⟩
  -- the rows below the first are joined to the header and leave nothing to scan
  obtain ⟨line, below, hline, hbelow, hlines⟩ := forall₂_cons_left_iff.mp hbody
  have hcode := layout.codeOf_opening hline
  have hheader : headerLine? dialect kind.isInterfaceLike (codeOf line) below = some
      ⟨lead ++ '(' :: (' ' :: layout.list ++ ')' :: trimRight layout.tail), markers,
        layout.parameters.length⟩ := by
    have hopen := HeaderLayout.openParameters?_opening hlist hopening hcandidate htype
    have hjoined : continueHeader? lead.length maxContinuation (lead ++ ['(']) below =
        some (lead ++ '(' :: (' ' :: layout.list ++ ')' :: trimRight layout.tail),
          layout.parameters.length) :=
      continueHeader?_parameterRows layout.nonempty layout.isParameterText
        (layout.uncommented layout.tail (by simp)) hbelow Closes.nil lead hcount
    rw [hcode, (headerLine?_of_openParameters? hopen).2 below, hopening, hjoined]
    rfl
  have hprefix : codeOf line <+: codeOf layout.oneLine := by
    rw [hcode, layout.codeOf_oneLine]
    exact prefix_append _ _
  have hne : codeOf line ≠ [] := by
    rw [hcode]
    exact trimLeft_ne_nil_of_getLast? layout.opens (by decide)
  have hused : layout.parameters.length = below.length := by
    rw [← hbelow.length_eq, length_parameterRows]
  have hrows := MemberScan.members_header_rows (passesOver_of_front hprefix hne hpass) hheader hused
  rw [scanMembers, hlines]
  exact hrows.trans (by rw [hother]; rfl)

/-- A method with brackets, quotes and commas in its parameters. -/
def saveLayout : HeaderLayout where
  opening := "[HttpPost] public async Task<Order> Save(".toList
  parameters := ["[FromBody] Dictionary<string, Item> items", "string note = \"(a, b)\"", "int page"].map
    String.toList
  tail := " \x7b".toList
  opens := by decide
  unquoted := by decide
  nonempty := by decide
  pieces := by decide +kernel
  unbroken := unbroken_of_all (by decide +kernel)
  uncommented := by decide +kernel

/-- The rows of the method, each with an indentation of its own. -/
def saveRows : List Text :=
  ["  [HttpPost] public async Task<Order> Save(", "\t[FromBody] Dictionary<string, Item> items,",
    "string note = \"(a, b)\",", "        int page) \x7b"].map String.toList

theorem scanMembers_saveRows :
    saveLayout.opensAtEnd .csharp = true ∧ saveLayout.parameters.length ≤ 40 ∧
    Forall₂ Indented saveLayout.rows (lines (joinLines saveRows)) ∧
    ∃ member other, scanMembers .csharp "Orders".toList .classType saveLayout.oneLine = [member] ∧
      scanMembers .csharp "Orders".toList .classType (joinLines saveRows) = [other] ∧
      other.name = member.name ∧ other.kind = member.kind ∧ other.declaredType = member.declaredType ∧
      other.markers = member.markers ∧
      Dialect.csharp.parameters other.signature = Dialect.csharp.parameters member.signature ∧
      Dialect.csharp.payloads other = Dialect.csharp.payloads member := by
  have hopens : saveLayout.opensAtEnd .csharp = true := by decide +kernel
  have hcount : saveLayout.parameters.length ≤ 40 := by decide
  have hlines : lines (joinLines saveRows) = saveRows :=
    lines_joinLines (unbroken_of_all (by decide +kernel))
  have hrows : Forall₂ Indented saveLayout.rows (lines (joinLines saveRows)) := by
    rw [hlines]
    have hindent : ∀ {blanks row : Text}, blanks.all isBlank = true → Indented row (blanks ++ row) :=
      fun hblanks => ⟨_, all_eq_true.mp hblanks, rfl⟩
    exact .cons (hindent (show "  ".toList.all isBlank = true by decide))
      (.cons (hindent (show "\t".toList.all isBlank = true by decide))
        (.cons (hindent (show [].all isBlank = true by decide))
          (.cons (hindent (show "        ".toList.all isBlank = true by decide)) .nil)))
  have hone : (scanMembers .csharp "Orders".toList .classType saveLayout.oneLine).length = 1 := by
    decide +kernel
  obtain ⟨member, hmember⟩ := length_eq_one_iff.mp hone
  obtain ⟨other, hother, hsame⟩ := scanMembers_parameterRows hmember hopens hrows hcount
  exact ⟨hopens, hcount, hrows, member, other, hmember, hother, hsame⟩

end SourceAtlas
