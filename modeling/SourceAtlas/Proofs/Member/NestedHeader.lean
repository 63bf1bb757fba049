import SourceAtlas.Proofs.CSharp.TruncatedHeader
import SourceAtlas.Proofs.Marker.Followed
import SourceAtlas.Proofs.Member.Run
import SourceAtlas.Proofs.Text.Lines
import SourceAtlas.Proofs.TypeScript.TruncatedHeader

/-!
# Nested type headers

Declarations are located in a whole body, members are read off its lines one at a time. A line on which
a declaration starts gives no member as long as the code of that line holds the head of the
declaration: its name with the lists behind it and, if a clause starts there, the first character of
it. The clauses themselves may go on below, or stand below altogether.
-/

namespace SourceAtlas

open List Option

variable {text body : Text} {c : Char} {declaration : Declaration} {dialect : Dialect}

namespace Dialect

/-- The texts behind the name of a header: right behind it, behind its type parameters or behind its
parameter list. -/
def headEnds : Dialect → Text → List Text
  | .csharp, text => (CSharp.headEnds text).map Prod.snd
  | .typescript, text => TypeScript.headEnds text

/-- The clause that starts right behind the name and its lists, and the text after it. -/
def firstClause? : Dialect → Text → Option (Text × Text)
  | .csharp => CSharp.basesAt?
  | .typescript => TypeScript.firstClause?

/-- Whether the head of a header stands in the first `length` characters: they end right in front of
the clauses or reach into the first of them. -/
def headStandsIn (dialect : Dialect) (text : Text) (length : Nat) : Bool :=
  (dialect.headEnds text).any fun start =>
    start == text.drop length ||
      (dialect.firstClause? start).any fun found =>
        text.length - (found.1.length + found.2.length) < length

variable {dialect : Dialect} {before : Option Char} {code more : Text} {header : TypeHeader}

theorem length_lt_of_mem_headEnds {start : Text} (h : start ∈ dialect.headEnds text) :
    start.length < text.length := by
  cases dialect with
  | csharp =>
    obtain ⟨place, hplace, rfl⟩ := mem_map.mp h
    exact (CSharp.headEnds_extent hplace).2
  | typescript => exact (TypeScript.headEnds_extent h).2

theorem length_pos_of_headStandsIn {length : Nat} (h : dialect.headStandsIn text length = true) :
    0 < length := by
  obtain ⟨start, hstart, hplace⟩ := any_eq_true.mp h
  rw [Bool.or_eq_true] at hplace
  rcases hplace with hsame | hclause
  · have hlt := length_lt_of_mem_headEnds hstart
    rw [eq_of_beq hsame, length_drop] at hlt
    omega
  · obtain ⟨found, -, hlt⟩ := (Option.any_eq_true _ _).mp hclause
    exact Nat.zero_lt_of_lt (of_decide_eq_true hlt)

theorem isSome_typeHeaderAt?_of_append (hcode : EndsInCode code) (hmore : FollowsCode more)
    (h : dialect.typeHeaderAt? before (code ++ more) = some header)
    (hlength : more.length ≤ header.rest.length) : (dialect.typeHeaderAt? none code).isSome := by
  cases dialect with
  | csharp => exact CSharp.isSome_typeHeaderAt?_of_append hcode hmore h hlength
  | typescript => exact TypeScript.isSome_typeHeaderAt?_of_append hcode hmore h hlength

theorem isSome_typeHeaderAt?_of_headStandsIn (hcode : EndsInCode code) (hmore : FollowsCode more)
    (h : dialect.headStandsIn (code ++ more) code.length = true) :
    (dialect.typeHeaderAt? none code).isSome := by
  obtain ⟨start, hstart, hplace⟩ := any_eq_true.mp h
  rw [drop_left, Bool.or_eq_true] at hplace
  rcases hplace with hsame | hclause
  · obtain rfl := eq_of_beq hsame
    cases dialect with
    | csharp =>
      obtain ⟨⟨last, start⟩, hplace, rfl⟩ := mem_map.mp hstart
      exact CSharp.isSome_typeHeaderAt?_of_mem_headEnds hmore hplace
    | typescript => exact TypeScript.isSome_typeHeaderAt?_of_mem_headEnds hmore hstart
  · obtain ⟨⟨clause, rest⟩, hfound, hlt⟩ := (Option.any_eq_true _ _).mp hclause
    have hlength : more.length < clause.length + rest.length := by
      have hlt : (code ++ more).length - (clause.length + rest.length) < code.length :=
        of_decide_eq_true hlt
      rw [length_append] at hlt
      omega
    cases dialect with
    | csharp =>
      obtain ⟨⟨last, start⟩, hplace, rfl⟩ := mem_map.mp hstart
      exact CSharp.isSome_typeHeaderAt?_of_basesAt? hcode hmore hplace hfound hlength
    | typescript =>
      exact TypeScript.isSome_typeHeaderAt?_of_firstClause? hmore hstart hfound hlength

/-- No header starts within a dotted name, and elsewhere the character in front does not matter. -/
theorem typeHeaderAt?_eq_some (h : dialect.typeHeaderAt? before text = some header) :
    dialect.typeHeaderAt? none text = some header ∧ ∀ c ∈ before, isDottedWord c = false := by
  cases dialect with
  | csharp =>
    obtain ⟨hbefore, h⟩ := ite_none_right_eq_some.mp h
    refine ⟨h, fun c hc => ?_⟩
    rw [mem_def.mp hc] at hbefore
    simpa using hbefore
  | typescript =>
    obtain ⟨hbefore, h⟩ := ite_none_right_eq_some.mp h
    refine ⟨h, fun c hc => ?_⟩
    rw [mem_def.mp hc, all_some, Bool.not_eq_true', Bool.or_eq_false_iff] at hbefore
    exact hbefore.1

end Dialect

/-! ## The line of a character -/

/-- The number of the line on which the character at an offset stands. -/
def lineOf (body : Text) (offset : Nat) : Nat :=
  (lines (body.take (offset + 1))).length - 1

def lineFront (body : Text) (offset : Nat) : Text :=
  ((lines (body.take (offset + 1))).getLast?.getD []).dropLast

def lineCode (body : Text) (offset : Nat) : Text :=
  (codeOf ((lines body).getD (lineOf body offset) [])).drop
    (trimLeft (lineFront body offset)).length

/-- The line of a character that is no blank: the lines above it count it off, and its code, if it
reaches the character, is the front of what follows there. -/
theorem exists_lineCode {front rest : Text} (hbody : body = front ++ c :: rest)
    (hblank : isBlank c = false) :
    ∃ above raw below, lines body = above ++ raw :: below ∧
      lineOf body front.length = above.length ∧ lineFront body front.length <:+ front ∧
      (lineCode body front.length ≠ [] →
        codeOf raw = trimLeft (lineFront body front.length) ++ lineCode body front.length ∧
          EndsInCode (lineCode body front.length) ∧
          ∃ more, FollowsCode more ∧ c :: rest = lineCode body front.length ++ more) := by
  have hbreak : isLineBreak c = false := by
    by_contra hline
    rw [isBlank_of_isLineBreak (by simpa using hline)] at hblank
    cases hblank
  obtain ⟨above, below, part, hpart, hshort, hlong⟩ := exists_line_at hbreak front rest
  rw [← hbody] at hlong
  have htake : body.take (front.length + 1) = front ++ [c] := by
    rw [hbody, take_length_add_append, take_succ_cons, take_zero]
  have hline : lineOf body front.length = above.length := by
    rw [lineOf, htake, hshort]
    simp
  have hfront : lineFront body front.length = part := by
    rw [lineFront, htake, hshort]
    simp
  have hcode : lineCode body front.length =
      (codeOf (part ++ c :: rest.takeWhile fun d => !isLineBreak d)).drop
        (trimLeft part).length := by
    rw [lineCode, hline, hfront, hlong]
    simp
  refine ⟨above, _, below, hlong, hline, hfront ▸ hpart, ?_⟩
  rw [hfront, hcode]
  intro hne
  obtain ⟨code, more, hraw, hrest, hends, hmore⟩ := exists_codeOf_drop hblank hne
  rw [hraw, drop_left]
  refine ⟨rfl, hends, more ++ rest.dropWhile fun d => !isLineBreak d,
    hmore.append (followsCode_dropWhile rest), ?_⟩
  rw [← append_assoc, ← hrest, cons_append, takeWhile_append_dropWhile]

/-! ## Declarations on a line -/

/-- Whether the head of a declaration stands in the code of the line it starts on. -/
structure Declaration.StandsOnLine (dialect : Dialect) (body : Text) (declaration : Declaration) :
    Prop where
  /-- Only indentation or markers come before it on its line. -/
  front : dialect.startsStatement (lineFront body declaration.start) = true
  /-- The code of the line holds all of it, or at least its head. -/
  code :
    declaration.stop ≤ declaration.start + (lineCode body declaration.start).length ∨
      dialect.headStandsIn (body.drop declaration.start)
        (lineCode body declaration.start).length = true

theorem exists_header_of_mem_locateDeclarations
    (h : declaration ∈ locateDeclarations dialect body) :
    ∃ front c rest header, body = front ++ c :: rest ∧ declaration.start = front.length ∧
      declaration.stop = front.length + ((c :: rest).length - header.rest.length) ∧
      c.isLower = true ∧ (∀ d ∈ front.getLast?, isDottedWord d = false) ∧
      dialect.typeHeaderAt? none (c :: rest) = some header := by
  obtain ⟨⟨start, stop, header⟩, hmem, hdeclaration⟩ := mem_filterMap.mp h
  obtain ⟨front, rest, rfl, hstart, hstop, hheader, -⟩ := exists_of_mem_headersFrom hmem
  obtain ⟨hnone, hbefore⟩ := Dialect.typeHeaderAt?_eq_some hheader
  obtain ⟨hsame, hend⟩ := declarationAt?_offsets hdeclaration
  rw [Nat.zero_add] at hstart
  rw [hstart] at hstop
  have hne : rest ≠ [] := by
    rintro rfl
    exact absurd (Dialect.typeHeaderAt?_extent hnone).2.1 (Nat.not_lt_zero _)
  obtain ⟨c, rest, rfl⟩ := exists_cons_of_ne_nil hne
  refine ⟨front, c, rest, header, rfl, hsame.trans hstart, hend.trans hstop,
    Dialect.isLower_of_typeHeaderAt? hnone, ?_, hnone⟩
  intro d hd
  apply hbefore
  rw [mem_def] at hd ⊢
  rw [lastBefore, hd]
  rfl

theorem isNameStart_of_isLower (h : c.isLower = true) : isNameStart c = true := by
  have hletter : c.isAlpha = true := by
    change (c.isUpper || c.isLower) = true
    rw [h, Bool.or_true]
  rw [isNameStart, hletter, Bool.or_true]

/-- The line of a declaration that stands on it is read as a type header. -/
theorem Declaration.StandsOnLine.exists_line (hline : declaration.StandsOnLine dialect body)
    (h : declaration ∈ locateDeclarations dialect body) :
    ∃ above raw below, lines body = above ++ raw :: below ∧
      lineOf body declaration.start = above.length ∧
      (dialect.typeHeaderAt? none (dialect.peel (codeOf raw)).2).isSome := by
  obtain ⟨front, c, rest, header, hbody, hstart, hstop, hlower, hlast, hheader⟩ :=
    exists_header_of_mem_locateDeclarations h
  obtain ⟨hfront, hcode⟩ := hline
  have hname : isNameStart c = true := isNameStart_of_isLower hlower
  have hblank : isBlank c = false := isBlank_eq_false_of_isWord (isWord_of_isNameStart hname)
  have hdrop : body.drop front.length = c :: rest := by rw [hbody, drop_left]
  have hlength := (Dialect.typeHeaderAt?_extent hheader).2.1
  obtain ⟨above, raw, below, hlines, habove, hpart, hreach⟩ := exists_lineCode hbody hblank
  rw [hstop, hstart, hdrop] at hcode
  rw [hstart] at hfront ⊢
  generalize lineFront body front.length = part at hfront hpart hreach
  generalize lineCode body front.length = code at hcode hreach
  have hne : code ≠ [] := by
    rintro rfl
    rcases hcode with hle | hhead
    · rw [length_nil] at hle
      omega
    · exact absurd (Dialect.length_pos_of_headStandsIn hhead) (lt_irrefl 0)
  obtain ⟨hraw, hends, more, hmore, hrest⟩ := hreach hne
  have hstarts : StartsName code := by
    obtain ⟨d, code, rfl⟩ := exists_cons_of_ne_nil hne
    exact ⟨c, by rw [(cons.inj hrest).1]; rfl, hname⟩
  have hpeel : (dialect.peel (codeOf raw)).2 = code := by
    rw [hraw, ← hstarts.trimLeft_append, Dialect.peel_trimLeft]
    apply Dialect.peel_append hstarts _ hfront
    intro d hd
    exact hlast d (mem_getLast?_of_suffix hpart hd)
  refine ⟨above, raw, below, hlines, habove, ?_⟩
  rw [hpeel]
  rw [hrest] at hheader hcode hlength
  rcases hcode with hle | hhead
  · apply Dialect.isSome_typeHeaderAt?_of_append hends hmore hheader
    rw [length_append] at hle hlength
    omega
  · exact Dialect.isSome_typeHeaderAt?_of_headStandsIn hends hmore hhead

/-! ## Members and the lines of their headers -/

/-- The members of a body, each with the number of the line on which its header starts. -/
def membersByLine (dialect : Dialect) (typeName : Text) (kind : TypeKind) (body : Text) :
    List (Nat × Member) :=
  let scan : MemberScan := ⟨dialect, typeName, kind.isInterfaceLike⟩
  (scan.run (lines body).length ⟨0, [], lines body⟩).filterMap fun state =>
    (scan.member? state).map (state.above.length, ·)

theorem map_snd_membersByLine (dialect : Dialect) (typeName : Text) (kind : TypeKind)
    (body : Text) :
    (membersByLine dialect typeName kind body).map Prod.snd =
      scanMembers dialect typeName kind body := by
  have hmembers := MemberScan.members_eq_run ⟨dialect, typeName, kind.isInterfaceLike⟩
    (le_refl (ScanState.mk 0 [] (lines body)).below.length)
  rw [membersByLine, map_filterMap]
  refine Eq.trans ?_ hmembers.symm
  congr 1
  funext state
  simp [Function.comp_def]

theorem MemberScan.member?_of_typeHeader {scan : MemberScan} {depth : Nat} {above below : List Text}
    {raw : Text}
    (h : (scan.dialect.typeHeaderAt? none (scan.dialect.peel (codeOf raw)).2).isSome) :
    scan.member? ⟨depth, above, raw :: below⟩ = none := by
  have hheader : headerLine? scan.dialect scan.interfaceLike (codeOf raw) below = none := by
    simp [headerLine?, h]
  rw [MemberScan.member?, MemberScan.header?]
  split
  · rfl
  · rw [hheader]
    rfl

/-- A scan gives the members of a body line by line, and none of their headers starts on a line on
which a declaration stands. -/
theorem membersByLine_skips_declaration (typeName : Text) (kind : TypeKind) {dialect : Dialect}
    {body : Text} {declaration : Declaration} (h : declaration ∈ locateDeclarations dialect body)
    (hline : declaration.StandsOnLine dialect body) :
    (membersByLine dialect typeName kind body).map Prod.snd =
        scanMembers dialect typeName kind body ∧
      ∀ entry ∈ membersByLine dialect typeName kind body,
        entry.1 ≠ lineOf body declaration.start := by
  refine ⟨map_snd_membersByLine dialect typeName kind body, ?_⟩
  rintro entry hentry hsame
  obtain ⟨above, raw, below, hlines, habove, hheader⟩ := hline.exists_line h
  obtain ⟨⟨depth, seen, left⟩, hstate, hmember⟩ := mem_filterMap.mp hentry
  obtain ⟨member, hmember, rfl⟩ := map_eq_some_iff.mp hmember
  -- the lines seen so far are those above the declaration, so its line comes next
  have hbody := MemberScan.above_append_below_of_mem_run _ hstate
  simp only [reverse_nil, nil_append] at hbody
  rw [hlines] at hbody
  have hlength : seen.reverse.length = above.length := by
    rw [length_reverse, ← habove]
    exact hsame
  obtain ⟨-, rfl⟩ := append_inj hbody hlength
  rw [MemberScan.member?_of_typeHeader hheader] at hmember
  cases hmember

/-- A body with a nested class whose base clause stands on a line of its own. -/
def nodeBody : Text :=
  ("public int Size;\n[Tag] public class Node<T>(int depth)\n    : Tree\n\x7b \x7d\n" ++
    "public int Depth;\n").toList

theorem membersByLine_skips_node :
    ∃ declaration ∈ locateDeclarations .csharp nodeBody,
      declaration.StandsOnLine .csharp nodeBody ∧ lineOf nodeBody declaration.start = 1 ∧
        (membersByLine .csharp "Tree".toList .classType nodeBody).map Prod.fst = [0, 4] ∧
        (membersByLine .csharp "Tree".toList .classType nodeBody).map Prod.snd =
            scanMembers .csharp "Tree".toList .classType nodeBody ∧
          ∀ entry ∈ membersByLine .csharp "Tree".toList .classType nodeBody,
            entry.1 ≠ lineOf nodeBody declaration.start := by
  have hnode : ∃ declaration ∈ locateDeclarations .csharp nodeBody,
      Dialect.csharp.startsStatement (lineFront nodeBody declaration.start) = true ∧
        Dialect.csharp.headStandsIn (nodeBody.drop declaration.start)
          (lineCode nodeBody declaration.start).length = true ∧
        lineOf nodeBody declaration.start = 1 := by decide +kernel
  obtain ⟨declaration, hmem, hfront, hcode, hnumber⟩ := hnode
  have hline : declaration.StandsOnLine .csharp nodeBody := ⟨hfront, Or.inr hcode⟩
  exact ⟨declaration, hmem, hline, hnumber, by decide +kernel,
    membersByLine_skips_declaration _ _ hmem hline⟩

-- A record whose parameter list goes on below its line is declared and read as a method.
example :
    (locateDeclarations .csharp "public record Point(\n    int X,\n    int Y);\n".toList).map
        Declaration.start = [0] ∧
      (membersByLine .csharp "Shape".toList .classType
        "public record Point(\n    int X,\n    int Y);\n".toList).map Prod.fst = [0] := by
  decide +kernel

end SourceAtlas
