import LensoSecrets.CapabilityContract
import LensoSecrets.EarlyExit
import LensoSecrets.ReferenceMaps

/-!
# Domain errors on the wire

The generated bindings know the two errors of the Capability by their codes, and keep any
other error a Provider may send: its code, its payload and the members they do not know.
They read an error off a `serde_json::Value` and write it through a serializer; what
`serde_json` makes in between is a parameter.
-/
namespace LensoSecrets.DomainErrors
open EarlyExit OrderedMaps ReferenceMaps

/-- A member of an object: a decoder of errors asks no more than whether it is a text. -/
inductive Value (ω : Type) where
  | string (text : String)
  | other (value : ω)

/-- `serde_json::Value` -/
inductive Decoded (ω : Type) where
  | string (text : String)
  | object (members : OrderedMap String (Value ω))
  | other (value : ω)

structure UnknownDomainError (ω : Type) where
  code : String
  payload : Option (Value ω)
  extra : OrderedMap String (Value ω)

inductive ResolveError (ω : Type) where
  | invalidReference
  | unknownReference
  | unknown (error : UnknownDomainError ω)

/-- The calls of a serializer: `serialize_str`, or `serialize_map` with the number of members
it is told to expect and the members it is then given. -/
inductive Serialized (ω : Type) where
  | str (text : String)
  | map (announced : ℕ) (members : List (String × Value ω))

variable {ω ε : Type}

/-- `serde_json::Value::as_str` -/
def Value.asStr : Value ω → Option String
  | .string text => some text
  | .other _ => none

def UnknownDomainError.members (error : UnknownDomainError ω) : List (String × Value ω) :=
  ("code", .string error.code) ::
    (error.payload.toList.map (Prod.mk "payload") ++ error.extra.entries)

def serialize : ResolveError ω → Serialized ω
  | .invalidReference => .str "invalid_reference"
  | .unknownReference => .str "unknown_reference"
  | .unknown error =>
    .map (1 + error.payload.isSome.toNat + error.extra.len) error.members

/-- What follows the decoding of the `Value`; `display` prints one that is neither a text nor
an object. -/
def deserialize [DeError ε] (display : ω → String) : Decoded ω → Except ε (ResolveError ω)
  | .string code =>
    if code = "invalid_reference" then .ok .invalidReference
    else if code = "unknown_reference" then .ok .unknownReference
    else .ok (.unknown ⟨code, none, OrderedMap.empty⟩)
  | .object members =>
    let (code, members) := members.remove "code"
    match code.bind Value.asStr with
    | none => .error (DeError.custom "Domain Error object is missing a string code")
    | some code =>
      let (payload, members) := members.remove "payload"
      .ok (.unknown ⟨code, payload, OrderedMap.ofEntries members.entries⟩)
  | .other other =>
    .error (DeError.custom ("Domain Error must be a string or object, got " ++ display other))

/-- `serde_json` between a serializer and the `Value` its text is decoded to. A text is read
back. Of the members of an object the last of each name is kept, if its first name is none that
`serde_json` gives a meaning of its own, and if all values are kept: some, such as some floats,
are not read back as they were written. -/
structure Wire (ω ε : Type) where
  reread : Serialized ω → Except ε (Decoded ω)
  Keeps : Value ω → Prop
  text : ∀ text, reread (.str text) = .ok (.string text)
  object : ∀ code members, (∀ member ∈ members, Keeps member.2) →
    reread (.map (members.length + 1) (("code", .string code) :: members)) =
      .ok (.object (OrderedMap.ofEntries (("code", .string code) :: members)))

/-- The errors of this Capability's Providers. -/
def known : CapabilityContract.ResolveError → ResolveError ω
  | .invalidReference => .invalidReference
  | .unknownReference => .unknownReference

/-- The code of a known error. -/
def codeOf : CapabilityContract.ResolveError → String
  | .invalidReference => "invalid_reference"
  | .unknownReference => "unknown_reference"

/-- A code this version of the Capability does not have. -/
def IsUnknown (code : String) : Prop := code ≠ "invalid_reference" ∧ code ≠ "unknown_reference"

/-- `schemas/resolve-error.schema.json` -/
def ErrorSchema (value : Decoded ω) : Prop :=
  value = .string "invalid_reference" ∨ value = .string "unknown_reference"

/-- An unknown error's other members name neither its code nor its payload. -/
def ResolveError.Plain : ResolveError ω → Prop
  | .unknown error => error.extra.get? "code" = none ∧ error.extra.get? "payload" = none
  | _ => True

/-- All values an error carries are read back as they are written. -/
def ResolveError.Kept (wire : Wire ω ε) : ResolveError ω → Prop
  | .unknown error => (∀ payload ∈ error.payload, wire.Keeps payload) ∧
      ∀ member ∈ error.extra.entries, wire.Keeps member.2
  | _ => True

theorem get?_members (error : UnknownDomainError ω) (name : String) :
    (OrderedMap.ofEntries error.members).get? name = (error.extra.get? name).or
      (if name = "payload" then error.payload
        else if name = "code" then some (.string error.code) else none) := by
  have hmembers : error.members = (("code", Value.string error.code) ::
      error.payload.toList.map (Prod.mk "payload")) ++ error.extra.entries := rfl
  rw [hmembers, OrderedMap.get?_ofEntries_append, OrderedMap.get?_ofEntries]
  congr 1
  cases error.payload with
  | none => by_cases hname : name = "payload" <;> simp [lookup_cons_eq_ite, hname]
  | some payload => simp [lookup_cons_eq_ite]

theorem length_members (error : UnknownDomainError ω) :
    error.members.length = 1 + error.payload.isSome.toNat + error.extra.len := by
  simp only [UnknownDomainError.members, List.length_cons, List.length_append, List.length_map,
    OrderedMap.len]
  cases error.payload <;> simp <;> omega

theorem nodup_members {error : UnknownDomainError ω} (hplain : (ResolveError.unknown error).Plain) :
    (error.members.map Prod.fst).Nodup := by
  obtain ⟨hcode, hpayload⟩ := hplain
  have habsent : ∀ name, error.extra.get? name = none → name ∉ error.extra.keys := by
    intro name hnone hmem
    obtain ⟨value, hvalue⟩ := OrderedMap.mem_keys.mp hmem
    rw [hnone] at hvalue
    cases hvalue
  have hcode := habsent "code" hcode
  have hpayload := habsent "payload" hpayload
  have hkeys := OrderedMap.keys_nodup error.extra
  rw [OrderedMap.keys] at hcode hpayload hkeys
  simp only [UnknownDomainError.members, List.map_cons, List.map_append, List.nodup_cons]
  cases error.payload with
  | none => simp [hcode, hkeys]
  | some payload => simp [hcode, hpayload, hkeys]

/-- What an object says: its code is a text, and what is neither code nor payload is kept. -/
structure Reads (object : OrderedMap String (Value ω)) (error : UnknownDomainError ω) : Prop where
  code : object.get? "code" = some (.string error.code)
  payload : object.get? "payload" = error.payload
  extra : ∀ name, error.extra.get? name =
    if name = "payload" then none else if name = "code" then none else object.get? name

namespace Reads

variable {object : OrderedMap String (Value ω)} {error error' : UnknownDomainError ω}

theorem plain (h : Reads object error) : (ResolveError.unknown error).Plain := by
  have hcode := h.extra "code"
  have hpayload := h.extra "payload"
  exact ⟨by simpa using hcode, by simpa using hpayload⟩

/-- Everything an object says is written again. -/
theorem ofEntries_members (h : Reads object error) :
    OrderedMap.ofEntries error.members = object := by
  apply OrderedMap.ext_get?
  intro name
  rw [get?_members, h.extra]
  by_cases hpayload : name = "payload"
  · subst hpayload
    simp [h.payload]
  · by_cases hcode : name = "code"
    · subst hcode
      simp [h.code]
    · simp [hpayload, hcode]

theorem of_plain (h : (ResolveError.unknown error).Plain) :
    Reads (OrderedMap.ofEntries error.members) error := by
  obtain ⟨hcode, hpayload⟩ := h
  constructor
  · simp [get?_members, hcode]
  · simp [get?_members, hpayload]
  · intro name
    rw [get?_members]
    by_cases hname : name = "payload"
    · simp [hname, hpayload]
    · by_cases hname' : name = "code"
      · simp [hname', hcode]
      · simp [hname, hname']

theorem of_code {code : String} (h : object.get? "code" = some (.string code)) :
    Reads object ⟨code, object.get? "payload", ((object.remove "code").2.remove "payload").2⟩ := by
  refine ⟨h, rfl, ?_⟩
  intro name
  rw [OrderedMap.get?_remove, OrderedMap.get?_remove]

theorem unique (h : Reads object error) (h' : Reads object error') : error = error' := by
  obtain ⟨code, payload, extra⟩ := error
  obtain ⟨code', payload', extra'⟩ := error'
  have hextra : extra = extra' := by
    apply OrderedMap.ext_get?
    intro name
    exact (h.extra name).trans (h'.extra name).symm
  have hcode := h.code.symm.trans h'.code
  have hpayload := h.payload.symm.trans h'.payload
  cases hcode
  cases hpayload
  cases hextra
  rfl

end Reads

theorem reread_serialize (wire : Wire ω ε) {error : UnknownDomainError ω}
    (h : (ResolveError.unknown error).Kept wire) : wire.reread (serialize (.unknown error)) =
      .ok (.object (OrderedMap.ofEntries error.members)) := by
  obtain ⟨hpayload, hextra⟩ := h
  have hlength := length_members error
  rw [serialize, ← hlength]
  apply wire.object
  intro member hmember
  rcases List.mem_append.mp hmember with hmember | hmember
  · obtain ⟨payload, hmem, rfl⟩ := List.mem_map.mp hmember
    exact hpayload payload (Option.mem_toList.mp hmem)
  · exact hextra member hmember

section
variable [DeError ε] {display : ω → String} {object : OrderedMap String (Value ω)}
variable {value value' : Decoded ω} {e : ResolveError ω}

theorem deserialize_object_eq_ok : (deserialize display (.object object) : Except ε _) = .ok e ↔
    ∃ error, e = .unknown error ∧ Reads object error := by
  have hpayload : (object.remove "code").2.get? "payload" = object.get? "payload" := by
    rw [OrderedMap.get?_remove, if_neg (by decide)]
  have hobject : (object.remove "code").1 = object.get? "code" := rfl
  have hremoved : ((object.remove "code").2.remove "payload").1 =
      (object.remove "code").2.get? "payload" := rfl
  simp only [deserialize, hobject, hremoved, hpayload, OrderedMap.ofEntries_entries]
  cases hcode : object.get? "code" with
  | none =>
    constructor
    · intro h
      cases h
    · intro h
      obtain ⟨error, -, hreads⟩ := h
      cases hcode.symm.trans hreads.code
  | some value =>
    cases value with
    | string code =>
      have hreads := Reads.of_code hcode
      constructor
      · intro h
        cases h
        exact ⟨_, rfl, hreads⟩
      · intro h
        obtain ⟨error, rfl, herror⟩ := h
        rw [herror.unique hreads]
        rfl
    | other value =>
      constructor
      · intro h
        cases h
      · intro h
        obtain ⟨error, -, hreads⟩ := h
        cases hcode.symm.trans hreads.code

theorem deserialize_string (code : String) : ∃ e : ResolveError ω,
    (deserialize display (.string code) : Except ε _) = .ok e ∧ e.Plain := by
  rw [deserialize]
  split_ifs
  · exact ⟨_, rfl, trivial⟩
  · exact ⟨_, rfl, trivial⟩
  · exact ⟨_, rfl, rfl, rfl⟩

theorem deserialize_string_eq_unknown {code : String} {error : UnknownDomainError ω} :
    (deserialize display (.string code) : Except ε _) = .ok (.unknown error) ↔
      IsUnknown code ∧ error = ⟨code, none, OrderedMap.empty⟩ := by
  rw [deserialize, IsUnknown]
  split_ifs with hinvalid hunknown
  · simp [hinvalid]
  · simp [hunknown]
  · simp [hinvalid, hunknown, eq_comm]

theorem deserialize_eq_known {known' : CapabilityContract.ResolveError} :
    (deserialize display value : Except ε _) = .ok (known known') ↔
      value = .string (codeOf known') := by
  constructor
  · intro h
    cases value with
    | string code =>
      rw [deserialize] at h
      split_ifs at h with hinvalid hunknown
      · cases known' <;> simp_all [known, codeOf]
      · cases known' <;> simp_all [known, codeOf]
      · cases known' <;> cases h
    | object object =>
      obtain ⟨error, he, -⟩ := deserialize_object_eq_ok.mp h
      cases known' <;> cases he
    | other value => cases h
  · intro h
    subst h
    cases known' <;> rfl

theorem plain_of_deserialize (h : (deserialize display value : Except ε _) = .ok e) : e.Plain := by
  cases value with
  | string code =>
    obtain ⟨e', he', hplain⟩ := @deserialize_string ω ε _ display code
    rw [he'] at h
    cases h
    exact hplain
  | object members =>
    obtain ⟨error, rfl, hreads⟩ := deserialize_object_eq_ok.mp h
    exact hreads.plain
  | other value => cases h

/-- What is read of the text an error is written to. -/
def rewrite (wire : Wire ω ε) (display : ω → String) (e : ResolveError ω) :
    Except ε (ResolveError ω) :=
  wire.reread (serialize e) >>= deserialize display

theorem rewrite_eq_ok (wire : Wire ω ε) (hkept : e.Kept wire) :
    rewrite wire display e = .ok e ↔ e.Plain := by
  cases e with
  | invalidReference => exact iff_of_true (by rw [rewrite, serialize, wire.text]; rfl) trivial
  | unknownReference => exact iff_of_true (by rw [rewrite, serialize, wire.text]; rfl) trivial
  | unknown error =>
    have hread : rewrite wire display (.unknown error) =
        deserialize display (.object (OrderedMap.ofEntries error.members)) := by
      rw [rewrite, reread_serialize wire hkept]
      rfl
    rw [hread]
    constructor
    · exact plain_of_deserialize
    · intro hplain
      exact deserialize_object_eq_ok.mpr ⟨error, rfl, Reads.of_plain hplain⟩

end

/-- Writing an error and reading it again. What was read once is read again as it was, and an
object is written again with all it said, every name once. -/
structure RoundTrip [DeError ε] (wire : Wire ω ε) (display : ω → String) : Prop where
  same_iff : ∀ e : ResolveError ω, e.Kept wire → (rewrite wire display e = .ok e ↔ e.Plain)
  again : ∀ value e, (deserialize display value : Except ε _) = .ok e →
    e.Kept wire → rewrite wire display e = .ok e
  rewritten : ∀ object e, (deserialize display (.object object) : Except ε _) = .ok e →
    ∃ members, serialize e = .map members.length members ∧ (members.map Prod.fst).Nodup ∧
      OrderedMap.ofEntries members = object

/-- Errors of a later version of the Capability pass through a consumer that does not know
them, with their payload and all their members. -/
theorem errors_round_trip [DeError ε] (wire : Wire ω ε) (display : ω → String) :
    RoundTrip wire display := by
  constructor
  · intro e hkept
    exact rewrite_eq_ok wire hkept
  · intro value e h hkept
    exact (rewrite_eq_ok wire hkept).mpr (plain_of_deserialize h)
  · intro object e h
    obtain ⟨error, rfl, hreads⟩ := deserialize_object_eq_ok.mp h
    refine ⟨error.members, ?_, nodup_members hreads.plain, hreads.ofEntries_members⟩
    rw [serialize, length_members]

/-- Errors that are their own text. -/
instance : DeError String where
  custom message := message
  invalidType _ expected := expected
  invalidLength _ expected := expected
  unknownField name _ := name
  missingField name := name
  duplicateField name := name

def rereadValue : Value ℕ → Value ℕ
  | .other 0 => .other 1
  | value => value

theorem map_rereadValue {members : List (String × Value ℕ)}
    (h : ∀ member ∈ members, rereadValue member.2 = member.2) :
    members.map (Prod.map id rereadValue) = members := by
  induction members with
  | nil => rfl
  | cons member members ih =>
    have hmember := h member List.mem_cons_self
    have hmembers := ih (fun m hm => h m (List.mem_cons_of_mem _ hm))
    rw [List.map_cons, hmembers, Prod.map, id, hmember]

/-- Values are numbers here, and `0` is read back as `1`. -/
def lossyWire : Wire ℕ String where
  reread
    | .str text => .ok (.string text)
    | .map _ members => .ok (.object (OrderedMap.ofEntries (members.map (Prod.map id rereadValue))))
  Keeps value := rereadValue value = value
  text _ := rfl
  object code members hkeeps := by
    have hmembers := map_rereadValue hkeeps
    simp only [List.map_cons, hmembers]
    rfl

/-- An error of a later version, with a payload and one further member. -/
def laterError : UnknownDomainError ℕ :=
  ⟨"rate_limited", some (.string "wait"), OrderedMap.ofEntries [("seconds", .other 12)]⟩

/-- An error that no Provider can have sent: a member hides its payload. -/
def hiddenPayload : UnknownDomainError ℕ :=
  ⟨"rate_limited", some (.string "wait"), OrderedMap.ofEntries [("payload", .other 12)]⟩

theorem laterError_round_trip :
    rewrite lossyWire (fun _ => "") (.unknown laterError) = .ok (.unknown laterError) ∧
    rewrite lossyWire (fun _ => "") (.unknown hiddenPayload) ≠ .ok (.unknown hiddenPayload) := by
  have htrip := errors_round_trip lossyWire (fun _ => "")
  have hlater : (ResolveError.unknown laterError).Kept lossyWire := by
    refine ⟨?_, ?_⟩
    · intro payload hpayload
      cases hpayload
      rfl
    · intro member hmember
      obtain rfl := List.mem_singleton.mp hmember
      rfl
  have hhidden : (ResolveError.unknown hiddenPayload).Kept lossyWire := by
    refine ⟨?_, ?_⟩
    · intro payload hpayload
      cases hpayload
      rfl
    · intro member hmember
      obtain rfl := List.mem_singleton.mp hmember
      rfl
  constructor
  · exact (htrip.same_iff _ hlater).mpr ⟨by decide, by decide⟩
  · intro h
    have hplain := (htrip.same_iff _ hhidden).mp h
    cases hplain.2

/-- A text is short for the object that gives it as a code and says nothing else. -/
def Abbreviates (text object : Decoded ω) : Prop :=
  ∃ code, IsUnknown code ∧ text = .string code ∧
    object = .object (OrderedMap.ofEntries [("code", .string code)])

section
variable [DeError ε] {display : ω → String} {value value' : Decoded ω} {e : ResolveError ω}

omit [DeError ε] in
theorem reads_bare {object : OrderedMap String (Value ω)} {code : String} :
    Reads object ⟨code, none, OrderedMap.empty⟩ ↔
      object = OrderedMap.ofEntries [("code", .string code)] := by
  constructor
  · intro h
    exact h.ofEntries_members.symm
  · intro h
    subst h
    have hplain : (ResolveError.unknown ⟨code, none, OrderedMap.empty⟩ : ResolveError ω).Plain :=
      ⟨OrderedMap.get?_empty _, OrderedMap.get?_empty _⟩
    exact Reads.of_plain hplain

theorem deserialize_object_eq_error {object : OrderedMap String (Value ω)} {e : ε} :
    deserialize display (.object object) = .error e ↔
      (∀ code, object.get? "code" ≠ some (.string code)) ∧
      e = DeError.custom "Domain Error object is missing a string code" := by
  have hobject : (object.remove "code").1 = object.get? "code" := rfl
  simp only [deserialize, hobject]
  cases hcode : object.get? "code" with
  | none => simp [eq_comm]
  | some value => cases value <;> simp [Value.asStr, eq_comm]

/-- A text and an object are read alike only if the text is short for the object. -/
theorem deserialize_string_object {code : String} {object : OrderedMap String (Value ω)} :
    (∃ e : ResolveError ω, (deserialize display (.string code) : Except ε _) = .ok e ∧
      (deserialize display (.object object) : Except ε _) = .ok e) ↔
      Abbreviates (.string code) (.object object) := by
  constructor
  · intro h
    obtain ⟨e, htext, hobject⟩ := h
    obtain ⟨error, rfl, hreads⟩ := deserialize_object_eq_ok.mp hobject
    obtain ⟨hcode, rfl⟩ := deserialize_string_eq_unknown.mp htext
    exact ⟨code, hcode, rfl, congrArg Decoded.object (reads_bare.mp hreads)⟩
  · intro h
    obtain ⟨code', hcode, htext, hobject⟩ := h
    cases htext
    cases hobject
    exact ⟨.unknown ⟨code, none, OrderedMap.empty⟩,
      deserialize_string_eq_unknown.mpr ⟨hcode, rfl⟩,
      deserialize_object_eq_ok.mpr ⟨_, rfl, reads_bare.mpr rfl⟩⟩

theorem deserialize_string_inj {code code' : String}
    (h : (deserialize display (.string code) : Except ε _) = .ok e)
    (h' : (deserialize display (.string code') : Except ε _) = .ok e) : code = code' := by
  cases e with
  | invalidReference =>
    have hcode := (@deserialize_eq_known ω ε _ display _ .invalidReference).mp h
    have hcode' := (@deserialize_eq_known ω ε _ display _ .invalidReference).mp h'
    cases hcode
    cases hcode'
    rfl
  | unknownReference =>
    have hcode := (@deserialize_eq_known ω ε _ display _ .unknownReference).mp h
    have hcode' := (@deserialize_eq_known ω ε _ display _ .unknownReference).mp h'
    cases hcode
    cases hcode'
    rfl
  | unknown error =>
    obtain ⟨-, rfl⟩ := deserialize_string_eq_unknown.mp h
    obtain ⟨-, herror⟩ := deserialize_string_eq_unknown.mp h'
    cases herror
    rfl

theorem deserialize_object_inj {object object' : OrderedMap String (Value ω)}
    (h : (deserialize display (.object object) : Except ε _) = .ok e)
    (h' : (deserialize display (.object object') : Except ε _) = .ok e) : object = object' := by
  obtain ⟨error, rfl, hreads⟩ := deserialize_object_eq_ok.mp h
  obtain ⟨error', herror, hreads'⟩ := deserialize_object_eq_ok.mp h'
  cases herror
  exact hreads.ofEntries_members.symm.trans hreads'.ofEntries_members

theorem deserialize_eq_error {e : ε} : deserialize display value = .error e ↔
    (∃ object, value = .object object ∧
      (∀ code, object.get? "code" ≠ some (.string code)) ∧
      e = DeError.custom "Domain Error object is missing a string code") ∨
    ∃ other, value = .other other ∧
      e = DeError.custom ("Domain Error must be a string or object, got " ++ display other) := by
  cases value with
  | string code =>
    obtain ⟨e', he', -⟩ := @deserialize_string ω ε _ display code
    simp [he']
  | object object =>
    simp only [deserialize_object_eq_error]
    simp
  | other other => simp [deserialize, eq_comm]

theorem deserialize_inj (h : (deserialize display value : Except ε _) = .ok e)
    (h' : (deserialize display value' : Except ε _) = .ok e) :
    value' = value ∨ Abbreviates value value' ∨ Abbreviates value' value := by
  cases value with
  | string code =>
    cases value' with
    | string code' => exact Or.inl (congrArg Decoded.string (deserialize_string_inj h' h))
    | object object' =>
      exact Or.inr (Or.inl (deserialize_string_object.mp ⟨e, h, h'⟩))
    | other other' => cases h'
  | object object =>
    cases value' with
    | string code' => exact Or.inr (Or.inr (deserialize_string_object.mp ⟨e, h', h⟩))
    | object object' => exact Or.inl (congrArg Decoded.object (deserialize_object_inj h' h))
    | other other' => cases h'
  | other other => cases h

theorem deserialize_of_abbreviates (h : Abbreviates value value') :
    (deserialize display value : Except ε _) = deserialize display value' := by
  obtain ⟨code, hcode, rfl, rfl⟩ := h
  have htext : (deserialize display (.string code) : Except ε _) =
      .ok (.unknown ⟨code, none, OrderedMap.empty⟩) :=
    deserialize_string_eq_unknown.mpr ⟨hcode, rfl⟩
  rw [htext]
  exact (deserialize_object_eq_ok.mpr ⟨_, rfl, reads_bare.mpr rfl⟩).symm

end

/-- Which values are read as an error, and which of them as the same. -/
structure Acceptance (ε : Type) [DeError ε] (display : ω → String) : Prop where
  accepts_iff : ∀ value, (∃ e, deserialize display value = (.ok e : Except ε _)) ↔
    (∃ text, value = .string text) ∨
    ∃ object code, value = .object object ∧ object.get? "code" = some (.string code)
  refuses_iff : ∀ value (e : ε), deserialize display value = .error e ↔
    (∃ object, value = .object object ∧
      (∀ code, object.get? "code" ≠ some (.string code)) ∧
      e = DeError.custom "Domain Error object is missing a string code") ∨
    ∃ other, value = .other other ∧
      e = DeError.custom ("Domain Error must be a string or object, got " ++ display other)
  known_iff : ∀ value e, deserialize display value = (.ok (known e) : Except ε _) ↔
    value = .string (codeOf e)
  schema_iff : ∀ value, ErrorSchema value ↔
    ∃ e, deserialize display value = (.ok (known e) : Except ε _)
  same_iff : ∀ value value' e, deserialize display value = (.ok e : Except ε _) →
    (deserialize display value' = (.ok e : Except ε _) ↔
      value' = value ∨ Abbreviates value value' ∨ Abbreviates value' value)

theorem errors_accepted [DeError ε] (display : ω → String) : Acceptance ε display := by
  have hknown : ∀ value e, deserialize display value = (.ok (known e) : Except ε _) ↔
      value = .string (codeOf e) := by
    intro value e
    exact deserialize_eq_known
  constructor
  · intro value
    cases value with
    | string code =>
      obtain ⟨e, he, -⟩ := @deserialize_string ω ε _ display code
      exact iff_of_true ⟨e, he⟩ (Or.inl ⟨code, rfl⟩)
    | object object =>
      simp only [deserialize_object_eq_ok]
      constructor
      · intro h
        obtain ⟨-, error, -, hreads⟩ := h
        exact Or.inr ⟨object, error.code, rfl, hreads.code⟩
      · intro h
        obtain ⟨text, htext⟩ | ⟨object', code, hobject, hcode⟩ := h
        · cases htext
        · cases hobject
          exact ⟨_, _, rfl, Reads.of_code hcode⟩
    | other other => simp [deserialize]
  · intro value e
    exact deserialize_eq_error
  · exact hknown
  · intro value
    simp only [hknown, ErrorSchema]
    constructor
    · intro h
      obtain h | h := h
      · exact ⟨.invalidReference, h⟩
      · exact ⟨.unknownReference, h⟩
    · intro h
      obtain ⟨e, h⟩ := h
      cases e with
      | invalidReference => exact Or.inl h
      | unknownReference => exact Or.inr h
  · intro value value' e h
    constructor
    · intro h'
      exact deserialize_inj h h'
    · intro hsame
      obtain hsame | hsame | hsame := hsame
      · exact hsame ▸ h
      · exact (deserialize_of_abbreviates hsame).symm.trans h
      · exact (deserialize_of_abbreviates hsame).trans h

end LensoSecrets.DomainErrors
