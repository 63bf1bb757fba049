import SourceAtlas.Member.Scan
import SourceAtlas.Proofs.Line

/-!
# Steps of the member scan

What one line of a body does to the scan for members: it is passed over, it changes the depth, or it
gives a member.
-/

namespace SourceAtlas

variable {dialect : Dialect} {text : Text} {header final : Header} {interfaceLike : Bool}

/-! ## One member -/

def Dialect.trimmed? (dialect : Dialect) (interfaceLike : Bool) (text : Text) (header : Header) :
    Option Text :=
  header.openParen.elim (some (dialect.finishValue text header)) fun start =>
    (findParen text start).map fun close => dialect.finishMethod text close interfaceLike

theorem buildMember?_eq_bind (dialect : Dialect) (text : Text) (markers : List Marker)
    (interfaceLike follows : Bool) :
    buildMember? dialect text markers interfaceLike follows =
      (dialect.tokenize text).bind fun header =>
        (dialect.trimmed? interfaceLike text header).bind fun signature =>
          (dialect.tokenize signature).map fun final =>
            { name := final.name
              kind := dialect.memberKind header markers (follows && header.terminator = .none)
              declaredType := final.declaredType
              signature
              markers } := by
  unfold buildMember? Dialect.trimmed?
  cases dialect.tokenize text with
  | none => rfl
  | some header =>
    cases hopen : header.openParen with
    | none => cases hfinal : dialect.tokenize (dialect.finishValue text header) <;> simp [hopen, hfinal]
    | some start =>
      cases hclose : findParen text start with
      | none => simp [hopen, hclose]
      | some close =>
        cases hfinal : dialect.tokenize (dialect.finishMethod text close interfaceLike) <;>
          simp [hopen, hclose, hfinal]

theorem buildMember?_of_trimmed? {signature : Text} (hheader : dialect.tokenize text = some header)
    (hsignature : dialect.trimmed? interfaceLike text header = some signature)
    (hfinal : dialect.tokenize signature = some final) (markers : List Marker) (follows : Bool) :
    buildMember? dialect text markers interfaceLike follows = some
      { name := final.name
        kind := dialect.memberKind header markers (follows && header.terminator = .none)
        declaredType := final.declaredType
        signature
        markers } := by
  rw [buildMember?_eq_bind, hheader, Option.bind_some, hsignature, Option.bind_some, hfinal,
    Option.map_some]

/-- What holds of a header and is kept with each line joined to it holds of the continued header. -/
theorem of_continueHeader? {motive : Text → Prop} {start limit used : Nat} {joined : Text}
    {below : List Text} (htext : motive text)
    (hjoin : ∀ raw ∈ below, ∀ text, motive text → motive (text ++ ' ' :: codeOf raw))
    (h : continueHeader? start limit text below = some (joined, used)) : motive joined := by
  induction below generalizing text limit used with
  | nil => cases limit <;> cases h
  | cons raw rest ih =>
    have hrest := fun other hother => hjoin other (List.mem_cons_of_mem raw hother)
    cases limit with
    | zero => cases h
    | succ limit =>
      rw [continueHeader?] at h
      dsimp only at h
      split at h
      · obtain ⟨⟨more, count⟩, hmore, heq⟩ := Option.map_eq_some_iff.mp h
        cases heq
        exact ih htext hrest hmore
      · have hjoined := hjoin raw List.mem_cons_self text htext
        split at h
        · cases h
          exact hjoined
        · obtain ⟨⟨more, count⟩, hmore, heq⟩ := Option.map_eq_some_iff.mp h
          cases heq
          exact ih hjoined hrest hmore

/-! ## One line -/

section

variable {typeName line : Text} {depth : Nat} {raw : Text} {above rest : List Text}

theorem membersFrom_nil : membersFrom dialect typeName interfaceLike depth above [] = [] := by
  rw [membersFrom]

theorem membersFrom_empty (hempty : (codeOf raw).isEmpty = true) :
    membersFrom dialect typeName interfaceLike depth above (raw :: rest) =
      membersFrom dialect typeName interfaceLike depth (raw :: above) rest := by
  rw [membersFrom]
  simp [hempty]

variable (hline : IsCodeLine line) (hraw : codeOf raw = line)

include hline hraw

theorem membersFrom_inside (hdepth : depth ≠ 0) :
    membersFrom dialect typeName interfaceLike depth above (raw :: rest) =
      membersFrom dialect typeName interfaceLike (depthAfter depth line) (raw :: above) rest := by
  rw [membersFrom]
  simp [hraw, hline.isEmpty_eq_false, hline.isComment, hdepth]

theorem membersFrom_pass (hheader : headerLine? dialect interfaceLike line rest = none) :
    membersFrom dialect typeName interfaceLike 0 above (raw :: rest) =
      membersFrom dialect typeName interfaceLike (depthAfter 0 line) (raw :: above) rest := by
  rw [membersFrom]
  simp [hraw, hline.isEmpty_eq_false, hline.isComment, hheader]

theorem membersFrom_header {inline : List Marker}
    (hheader : headerLine? dialect interfaceLike line rest = some ⟨text, inline, 0⟩) :
    membersFrom dialect typeName interfaceLike 0 above (raw :: rest) =
      (lineMember? dialect typeName interfaceLike ⟨text, inline, 0⟩ above rest).toList ++
        membersFrom dialect typeName interfaceLike (depthAfter 0 line) (raw :: above) rest := by
  rw [membersFrom]
  simp [hraw, hline.isEmpty_eq_false, hline.isComment, hheader]

end

/-! ## Markers above a line -/

/-- Whether the lines above hold no markers, however many of them are looked at. -/
def Unmarked (dialect : Dialect) (above : List Text) : Prop :=
  ∀ count, memberMarkerLines dialect (above.take count) = []

section

variable {line raw : Text} {above : List Text}

theorem unmarked_nil : Unmarked dialect [] := by
  intro count
  rw [List.take_nil, memberMarkerLines]

theorem Unmarked.empty (habove : Unmarked dialect above) (hempty : (codeOf raw).isEmpty = true) :
    Unmarked dialect (raw :: above) := by
  intro count
  cases count with
  | zero => rfl
  | succ count =>
    rw [List.take_succ_cons, memberMarkerLines]
    simp [hempty, habove count]

theorem Unmarked.markersAbove (habove : Unmarked dialect above) :
    memberMarkersAbove dialect above = [] := by
  simp [memberMarkersAbove, habove memberLookback]

variable (hline : IsCodeLine line) (hraw : codeOf raw = line)

include hline hraw

theorem unmarked_cons (hpeel : (dialect.peel line).1 = []) : Unmarked dialect (raw :: above) := by
  intro count
  cases count with
  | zero => rfl
  | succ count =>
    rw [List.take_succ_cons, memberMarkerLines]
    simp [hraw, hline.isEmpty_eq_false, hline.isComment, hpeel]

theorem Unmarked.markersAbove_cons {markers : List Marker} (habove : Unmarked dialect above)
    (hpeel : dialect.peel line = (markers, [])) :
    memberMarkersAbove dialect (raw :: above) = markers := by
  have hlines : memberMarkerLines dialect (above.take (memberLookback - 1)) = [] := habove _
  have htake : (raw :: above).take memberLookback = raw :: above.take (memberLookback - 1) := rfl
  rw [memberMarkersAbove, htake, memberMarkerLines]
  cases markers with
  | nil => simp [hraw, hline.isEmpty_eq_false, hline.isComment, hpeel]
  | cons marker markers =>
    simp [hraw, hline.isEmpty_eq_false, hline.isComment, hpeel, hlines]

end

end SourceAtlas
