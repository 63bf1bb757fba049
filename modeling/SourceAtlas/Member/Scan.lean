import SourceAtlas.Declaration
import SourceAtlas.Header
import SourceAtlas.Line

/-!
# Members of a body

The lines of a body at brace depth zero are read for members. Lines inside a member's body are
never looked at, and a line that is no member is passed over. A parameter list may go on over
several lines, and the markers directly above a header belong to it.
-/

namespace SourceAtlas

def memberLookback : Nat := 12

def maxContinuation : Nat := 40

/-- The member a header text declares. Name and type come from the finished signature. -/
def buildMember? (dialect : Dialect) (text : Text) (markers : List Marker)
    (interfaceLike accessorFollows : Bool) : Option Member := do
  let header ← dialect.tokenize text
  let signature ← match header.openParen with
    | some start =>
      (findParen text start).map fun close => dialect.finishMethod text close interfaceLike
    | none => some (dialect.finishValue text header)
  let final ← dialect.tokenize signature
  let follows := accessorFollows && header.terminator = .none
  some
    { name := final.name
      kind := dialect.memberKind header markers follows
      declaredType := final.declaredType
      signature
      markers }

/-- Appends lines to a header until its parameter list closes. Gives the joined text and how many
lines were used. At most `limit` lines are looked at. -/
def continueHeader? (openParen : Nat) : Nat → Text → List Text → Option (Text × Nat)
  | 0, _, _ => none
  | _, _, [] => none
  | limit + 1, text, raw :: rest =>
    let extra := codeOf raw
    if extra.isEmpty then
      (continueHeader? openParen limit text rest).map fun (joined, used) => (joined, used + 1)
    else
      let joined := text ++ ' ' :: extra
      if (findParen joined openParen).isSome then some (joined, 1)
      else
        (continueHeader? openParen limit joined rest).map fun (joined, used) => (joined, used + 1)

/-- The marker lines directly above a header, nearest first. `above` holds the lines of the window,
nearest first; blank and comment lines do not end the block. -/
def memberMarkerLines (dialect : Dialect) : List Text → List (List Marker)
  | [] => []
  | raw :: rest =>
    let line := codeOf raw
    if line.isEmpty || dialect.isComment line then memberMarkerLines dialect rest
    else
      let peeled := dialect.peel line
      if peeled.1.isEmpty || !peeled.2.isEmpty then []
      else peeled.1 :: memberMarkerLines dialect rest

/-- The markers of the lines above a header, nearest line first, in source order. -/
def memberMarkersAbove (dialect : Dialect) (above : List Text) : List Marker :=
  (memberMarkerLines dialect (above.take memberLookback)).reverse.flatten

/-- Whether the next line with content opens a block. -/
def opensBlock (below : List Text) : Bool :=
  match (below.map trim).find? (!·.isEmpty) with
  | some line => line.head? == some '{'
  | none => false

/-- Members that are left out of a class: its constructors and names that start with an
underscore, callbacks apart. -/
def isSuppressed (typeName name : Text) : Bool :=
  name == typeName || (name.head? == some '_' && !isLifecycleHook name)

/-- What one line at depth zero gives: the header text, its own markers and how many further lines
it uses. -/
structure HeaderLine where
  text : Text
  inline : List Marker
  used : Nat
  deriving DecidableEq, Repr

/-- Reads a line at depth zero as a member header. `below` are the lines after it. -/
def headerLine? (dialect : Dialect) (interfaceLike : Bool) (line : Text) (below : List Text) :
    Option HeaderLine :=
  let (inline, rest) := dialect.peel line
  if rest.isEmpty || !dialect.isMemberCandidate rest interfaceLike ||
      (dialect.typeHeaderAt? none rest).isSome then none
  else do
    let header ← dialect.tokenize rest
    match header.openParen with
    | some start =>
      if (findParen rest start).isSome then some ⟨rest, inline, 0⟩
      else
        (continueHeader? start maxContinuation rest below).map
          fun (text, used) => ⟨text, inline, used⟩
    | none => some ⟨rest, inline, 0⟩

/-- The member of a header line, unless it is left out. `above` are the lines before it, nearest
first, and `below` the lines after it that it does not use. -/
def lineMember? (dialect : Dialect) (typeName : Text) (interfaceLike : Bool)
    (header : HeaderLine) (above below : List Text) : Option Member :=
  (buildMember? dialect header.text (memberMarkersAbove dialect above ++ header.inline)
    interfaceLike (opensBlock below)).filter fun member =>
      interfaceLike || !isSuppressed typeName member.name

/-- The members of the lines `below`, from the given brace depth on. `above` are the lines before
them, nearest first. -/
def membersFrom (dialect : Dialect) (typeName : Text) (interfaceLike : Bool) (depth : Nat)
    (above : List Text) (below : List Text) : List Member :=
  match below with
  | [] => []
  | raw :: rest =>
    let line := codeOf raw
    if line.isEmpty || dialect.isComment line then
      membersFrom dialect typeName interfaceLike depth (raw :: above) rest
    else if depth ≠ 0 then
      membersFrom dialect typeName interfaceLike (depthAfter depth line) (raw :: above) rest
    else
      match headerLine? dialect interfaceLike line rest with
      | none =>
        membersFrom dialect typeName interfaceLike (depthAfter depth line) (raw :: above) rest
      | some header =>
        let used := rest.take header.used
        let after := rest.drop header.used
        let nextDepth := used.foldl (fun depth raw => depthAfter depth (codeOf raw))
          (depthAfter depth line)
        (lineMember? dialect typeName interfaceLike header above after).toList ++
          membersFrom dialect typeName interfaceLike nextDepth (used.reverse ++ raw :: above) after
termination_by below.length
decreasing_by all_goals grind

def scanMembers (dialect : Dialect) (typeName : Text) (kind : TypeKind) (body : Text) :
    List Member :=
  membersFrom dialect typeName kind.isInterfaceLike 0 [] (lines body)

end SourceAtlas
