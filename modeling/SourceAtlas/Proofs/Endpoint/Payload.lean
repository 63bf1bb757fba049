import Mathlib.Data.List.Nodup
import SourceAtlas.Endpoint
import SourceAtlas.Proofs.Text.Char
import SourceAtlas.Proofs.Text.Words

/-!
# The payloads of a method

The payloads of a method are types of its parameters, followed by the type that its result wraps. Each is
named once, where it stands first.
-/

namespace SourceAtlas

open List Option

def isPayloadName (name : Text) : Bool :=
  !(name.isEmpty || name == unknownType)

/-- The names of some types without repetition, each where it stands first. -/
def payloadNames (types : List Text) : List Text :=
  ((types.map trim).filter isPayloadName).eraseDups

/-- Whether a type is a dotted name with one argument in angle brackets. -/
def Wraps (type inner : Text) : Prop :=
  ∃ outer blanks arguments, trim type = outer ++ (blanks ++ '<' :: (arguments ++ ['>'])) ∧
    outer ≠ [] ∧ (∀ c ∈ outer, isDottedWord c = true) ∧ (∀ c ∈ blanks, isBlank c = true) ∧
      arguments ≠ [] ∧ splitCommas arguments = some [inner]

/-- Whether a result type gives a payload: it wraps the payload, or an action result that does, and the
payload itself is neither an action result nor primitive. -/
def Dialect.Returns (dialect : Dialect) (type payload : Text) : Prop :=
  ∃ inner, Wraps type inner ∧
    (if typeBaseName inner ∈ dialect.actionResults then Wraps inner payload else payload = inner) ∧
      typeBaseName payload ∉ dialect.actionResults ∧ dialect.isPrimitive payload = false

variable {dialect : Dialect} {type inner payload : Text} {types : List Text}

/-! ## Names in order -/

theorem eraseDups_concat (names : List Text) (name : Text) : (names ++ [name]).eraseDups =
    if name ∈ names then names.eraseDups else names.eraseDups ++ [name] := by
  rw [eraseDups_append]
  split
  next hmem => simp [removeAll, hmem]
  next hmem => simp [removeAll, hmem, eraseDups_cons]

theorem nodup_eraseDups (names : List Text) : names.eraseDups.Nodup := by
  induction names using reverseRecOn with
  | nil => simp
  | append_singleton names name ih =>
    rw [eraseDups_concat]
    split
    next => exact ih
    next hmem =>
      exact nodup_append_comm.mpr (nodup_cons.mpr ⟨fun hname => hmem (mem_eraseDups.mp hname), ih⟩)

theorem mem_payloadNames_iff : payload ∈ payloadNames types ↔
    isPayloadName payload = true ∧ ∃ type ∈ types, trim type = payload := by
  rw [payloadNames, mem_eraseDups, mem_filter, List.mem_map, and_comm]

theorem appendPayload_eq (names : List Text) (type : Text) : appendPayload names type =
    if isPayloadName (trim type) = true ∧ trim type ∉ names then names ++ [trim type] else names := by
  have hkept : isPayloadName (trim type) = true ∧ trim type ∉ names ↔
      ¬((trim type).isEmpty || trim type == unknownType || names.contains (trim type)) = true := by
    simp [isPayloadName, and_assoc]
  rw [if_congr hkept rfl rfl, ite_not]
  rfl

theorem foldl_appendPayload (types : List Text) :
    types.foldl appendPayload [] = payloadNames types := by
  induction types using reverseRecOn with
  | nil => rfl
  | append_singleton front type ih =>
    rw [foldl_concat, ih, appendPayload_eq]
    cases hname : isPayloadName (trim type) with
    | false => simp [payloadNames, hname]
    | true =>
      have hnames : payloadNames (front ++ [type]) =
          ((front.map trim).filter isPayloadName ++ [trim type]).eraseDups := by
        simp [payloadNames, hname]
      rw [hnames, eraseDups_concat, payloadNames]
      simp only [mem_eraseDups, true_and, ite_not]

/-! ## Wrapped types -/

theorem trim_of_splitCommas {text : Text} (h : splitCommas text = some [inner]) :
    trim inner = inner := by
  obtain ⟨segments, -, hparts⟩ := map_eq_some_iff.mp h
  unfold Segments.parts at hparts
  split at hparts
  · cases hparts
  · obtain ⟨hfirst, -⟩ := cons.inj hparts
    rw [← hfirst, trim_trim]

theorem Wraps.trim_inner (h : Wraps type inner) : trim inner = inner := by
  obtain ⟨_, _, _, -, -, -, -, -, hsplit⟩ := h
  exact trim_of_splitCommas hsplit

theorem wrappedType?_eq_some_iff : wrappedType? type = some inner ↔ Wraps type inner := by
  constructor
  · intro h
    unfold wrappedType? at h
    dsimp only at h
    split at h
    · next rest hrest =>
      split at h
      · next hkept =>
        simp only [Bool.and_eq_true, Bool.not_eq_true', isEmpty_eq_false_iff, decide_eq_true_eq,
          beq_iff_eq] at hkept
        obtain ⟨⟨houter, hlength⟩, hlast⟩ := hkept
        split at h
        · next found hsplit =>
          obtain rfl := some.inj h
          obtain ⟨arguments, rfl⟩ := getLast?_eq_some_iff.mp hlast
          obtain ⟨blanks, hdrop, hblanks⟩ := exists_blanks_of_trimLeft_eq hrest
          rw [dropLast_concat] at hsplit
          refine ⟨_, blanks, arguments, ?_, houter, fun c hc => mem_takeWhile_imp hc, hblanks,
            ?_, hsplit⟩
          · rw [← hdrop, drop_length_takeWhile, takeWhile_append_dropWhile]
          · rintro rfl
            simp at hlength
        · cases h
      · cases h
    · cases h
  · rintro ⟨outer, blanks, arguments, htype, houter, hword, hblanks, hne, hsplit⟩
    have hstop : ∀ c ∈ (blanks ++ '<' :: (arguments ++ ['>'])).head?, isDottedWord c = false := by
      intro c hc
      cases blanks with
      | nil =>
        obtain rfl := some.inj hc
        decide +kernel
      | cons d blanks =>
        obtain rfl := some.inj hc
        have hblank := hblanks d mem_cons_self
        simp [isDottedWord, isWord_eq_false_of_isBlank hblank,
          ne_of_kind hblank (by decide : isBlank '.' = false)]
    have htake : (trim type).takeWhile isDottedWord = outer := by
      rw [htype, takeWhile_append_of_stop hword hstop]
    have hrest : trimLeft ((trim type).drop outer.length) = '<' :: (arguments ++ ['>']) := by
      rw [htype, drop_left, trimLeft_append_of_blanks hblanks, trimLeft_cons_of_not_blank (by decide)]
    unfold wrappedType?
    simp [htake, hrest, houter, hne, hsplit]

theorem Dialect.returnedPayload?_eq_some_iff :
    dialect.returnedPayload? type = some payload ↔ dialect.Returns type payload := by
  have hlast : ∀ {last : Text}, (if (dialect.actionResults.contains (typeBaseName last) ||
      dialect.isPrimitive last) = true then none else some last) = some payload ↔
      payload = last ∧ typeBaseName payload ∉ dialect.actionResults ∧
        dialect.isPrimitive payload = false := by
    intro last
    rw [ite_none_left_eq_some, some.injEq, and_comm, eq_comm]
    apply and_congr_right
    rintro rfl
    simp
  simp only [returnedPayload?, bind, bind_eq_some_iff, wrappedType?_eq_some_iff]
  refine exists_congr fun inner => and_congr_right fun _ => ?_
  split
  next haction =>
    rw [if_pos (contains_iff_mem.mp haction)]
    simp only [bind_eq_some_iff, wrappedType?_eq_some_iff, hlast]
    constructor
    · rintro ⟨_, hwraps, rfl, hpayload⟩
      exact ⟨hwraps, hpayload⟩
    · rintro ⟨hwraps, hpayload⟩
      exact ⟨payload, hwraps, rfl, hpayload⟩
  next haction => rw [if_neg (mt contains_iff_mem.mpr haction), bind_some, hlast]

theorem Dialect.Returns.trim_payload (h : dialect.Returns type payload) : trim payload = payload := by
  obtain ⟨inner, hinner, hpayload, -⟩ := h
  split at hpayload
  · exact hpayload.trim_inner
  · rw [hpayload, hinner.trim_inner]

theorem Dialect.isPrimitive_trim (dialect : Dialect) (type : Text) :
    dialect.isPrimitive (trim type) = dialect.isPrimitive type := by
  rw [isPrimitive, isPrimitive, normaliseType, normaliseType, trim_trim]

/-! ## Payloads -/

section

variable {parameters : List Parameter}

theorem Dialect.payloadCandidates_of_bound
    (h : ∃ parameter ∈ parameters, dialect.isBound parameter = true) :
    dialect.payloadCandidates parameters =
      (parameters.filter dialect.isBound).map (·.declaredType) := by
  have hsome : parameters.filter dialect.isBound ≠ [] := by simpa using h
  rw [payloadCandidates, if_neg (mt List.isEmpty_iff.mp hsome)]

theorem Dialect.payloadCandidates_of_unbound
    (h : ∀ parameter ∈ parameters, dialect.isBound parameter = false) :
    dialect.payloadCandidates parameters =
      (parameters.map (·.declaredType)).filter fun type => !dialect.isPrimitive type := by
  have hnone : parameters.filter dialect.isBound = [] := by simpa using h
  rw [payloadCandidates, if_pos (List.isEmpty_iff.mpr hnone)]

theorem Dialect.exists_of_mem_payloadCandidates (h : type ∈ dialect.payloadCandidates parameters) :
    ∃ parameter ∈ parameters, parameter.declaredType = type := by
  unfold payloadCandidates at h
  dsimp only at h
  split at h
  · exact mem_map.mp (mem_of_mem_filter h)
  · exact mem_map.mp (map_subset _ filter_sublist.subset h)

end

theorem Dialect.exists_of_mem_payloads {member : Member} (h : payload ∈ dialect.payloads member) :
    ∃ type, trim type = payload ∧
      (type ∈ dialect.payloadCandidates (dialect.parameters member.signature) ∨
        dialect.Returns member.declaredType type) := by
  rw [payloads, foldl_appendPayload] at h
  obtain ⟨-, type, htype, hpayload⟩ := mem_payloadNames_iff.mp h
  refine ⟨type, hpayload, (mem_append.mp htype).imp_right fun hreturned => ?_⟩
  exact returnedPayload?_eq_some_iff.mp (mem_toList.mp hreturned)

/-- The payloads of a method are the types of its bound parameters, or without any those of the parameters
that are not primitive, followed by the type that its result gives; each is named once. Without a bound
parameter no payload is primitive, and an action result is one only as the type of a parameter. -/
theorem Dialect.payloads_selection (dialect : Dialect) (member : Member) :
    let parameters := dialect.parameters member.signature
    (∃ types returned, dialect.payloads member = payloadNames (types ++ toList returned) ∧
        ((∃ parameter ∈ parameters, dialect.isBound parameter = true) →
          types = (parameters.filter dialect.isBound).map (·.declaredType)) ∧
        ((∀ parameter ∈ parameters, dialect.isBound parameter = false) → types =
          (parameters.map (·.declaredType)).filter fun type => !dialect.isPrimitive type) ∧
        ∀ payload, returned = some payload ↔ dialect.Returns member.declaredType payload) ∧
      (dialect.payloads member).Nodup ∧
      ((∀ parameter ∈ parameters, dialect.isBound parameter = false) →
        ∀ payload ∈ dialect.payloads member, dialect.isPrimitive payload = false) ∧
      ∀ payload ∈ dialect.payloads member, typeBaseName payload ∈ dialect.actionResults →
        ∃ parameter ∈ parameters, trim parameter.declaredType = payload := by
  intro parameters
  refine ⟨⟨_, _, foldl_appendPayload _, payloadCandidates_of_bound, payloadCandidates_of_unbound,
    fun payload => returnedPayload?_eq_some_iff⟩, ?_, ?_, ?_⟩
  · rw [payloads, foldl_appendPayload]
    exact nodup_eraseDups _
  · intro hnone payload hpayload
    obtain ⟨type, rfl, hparameter | ⟨_, -, -, -, hreturned⟩⟩ := exists_of_mem_payloads hpayload
    · rw [payloadCandidates_of_unbound hnone, mem_filter] at hparameter
      simpa [isPrimitive_trim] using hparameter.2
    · rw [isPrimitive_trim, hreturned]
  · intro payload hpayload haction
    obtain ⟨type, rfl, hparameter | hreturned⟩ := exists_of_mem_payloads hpayload
    · obtain ⟨parameter, hmem, rfl⟩ := exists_of_mem_payloadCandidates hparameter
      exact ⟨parameter, hmem, rfl⟩
    · rw [hreturned.trim_payload] at haction
      obtain ⟨_, -, -, hnoAction, -⟩ := hreturned
      exact absurd haction hnoAction

end SourceAtlas
