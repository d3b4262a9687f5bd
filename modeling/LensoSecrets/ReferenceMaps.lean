import LensoSecrets.FileDocuments
import LensoSecrets.OrderedMaps
import Mathlib.Data.String.Basic

/-!
# Decoding reference maps

The four configurations read their reference map entry by entry and refuse an entry whose
reference was there before. The four decoders differ in what they say they expected. What
delivers the entries is any `MapAccess`: it may end or fail after any of them.
-/
namespace LensoSecrets
namespace ReferenceMaps
open OrderedMaps

/-- `serde::de::Unexpected` -/
inductive Unexpected where
  | unit
  | bool (value : Bool)
  | number
  | string (value : String)
  | seq
  | map

/-- `serde::de::Error` -/
class DeError (ε : Type) where
  custom : String → ε
  invalidType : Unexpected → String → ε
  invalidLength : ℕ → String → ε
  unknownField : String → List String → ε
  missingField : String → ε
  duplicateField : String → ε

variable {ε : Type}

/-- `serde::de::MapAccess`: what the calls of `next_entry` will return. -/
inductive MapAccess (ε : Type) where
  | finished
  | entry (reference source : String) (rest : MapAccess ε)
  | failed (error : ε)

namespace MapAccess

/-- The entries delivered before the end or the failure. -/
def entries : MapAccess ε → List (String × String)
  | finished => []
  | entry reference source rest => (reference, source) :: rest.entries
  | failed _ => []

def failure : MapAccess ε → Option ε
  | finished => none
  | entry _ _ rest => rest.failure
  | failed error => some error

end MapAccess

/-- `serde::Deserializer`, as far as `deserialize_map` looks at it. -/
inductive Deserializer (ε : Type) where
  | map (access : MapAccess ε)
  | other (unexpected : Unexpected)

section
variable [DeError ε]

def duplicateReference (reference : String) : ε :=
  DeError.custom ("duplicate logical secret reference `" ++ reference ++ "`")

/-- `visit_map`, with the map that is filled so far. -/
def visitMap (references : OrderedMap String String) :
    MapAccess ε → Except ε (OrderedMap String String)
  | .finished => .ok references
  | .failed error => .error error
  | .entry reference source rest =>
    -- the entry is replaced before the duplicate is noticed
    let (previous, references) := references.replace reference source
    if previous.isSome then .error (duplicateReference reference) else visitMap references rest

/-- `deserialize_map` with a visitor that expects a map of unique references. -/
def deserializeUnique (expecting : String) : Deserializer ε → Except ε (OrderedMap String String)
  | .map access => visitMap OrderedMap.empty access
  | .other unexpected => .error (DeError.invalidType unexpected expecting)

end
end ReferenceMaps

namespace EnvironmentProvider
open OrderedMaps ReferenceMaps

def deserializeUniqueSources {ε : Type} [DeError ε] :
    Deserializer ε → Except ε (OrderedMap String String) :=
  deserializeUnique "a logical-reference to environment-variable map"

end EnvironmentProvider

namespace KeychainProvider
open OrderedMaps ReferenceMaps

def deserializeUniqueReferences {ε : Type} [DeError ε] :
    Deserializer ε → Except ε (OrderedMap String String) :=
  deserializeUnique "a logical-reference to Keychain-account map"

end KeychainProvider

namespace EncryptedFileProvider
open OrderedMaps ReferenceMaps

def deserializeUniqueReferences {ε : Type} [DeError ε] :
    Deserializer ε → Except ε (OrderedMap String String) :=
  deserializeUnique "a logical-reference to encrypted-file key map"

end EncryptedFileProvider

namespace CommandProvider
open OrderedMaps ReferenceMaps

def deserializeUniqueReferences {ε : Type} [DeError ε] :
    Deserializer ε → Except ε (OrderedMap String String) :=
  deserializeUnique "a logical-reference to command-source map"

end CommandProvider

namespace ReferenceMaps
open OrderedMaps

variable {ε : Type} [DeError ε] {references m : OrderedMap String String}

theorem visitMap_entry (reference source : String) (rest : MapAccess ε) :
    visitMap references (.entry reference source rest) =
      if references.containsKey reference then .error (duplicateReference reference)
      else visitMap (references.insert reference source) rest := rfl

/-- The map is returned when the access ends well and every reference was new. -/
theorem visitMap_eq_ok {access : MapAccess ε} : visitMap references access = .ok m ↔
    access.failure = none ∧ references.insertAllNew access.entries = some m := by
  induction access generalizing references with
  | finished =>
    rw [visitMap, MapAccess.failure, MapAccess.entries, OrderedMap.insertAllNew]
    simp
  | failed error =>
    rw [visitMap, MapAccess.failure]
    simp
  | entry reference source rest ih =>
    rw [visitMap_entry, MapAccess.failure, MapAccess.entries, OrderedMap.insertAllNew]
    split_ifs
    · simp
    · exact ih

/-- A map access is decoded exactly if it ends well and delivers distinct references. -/
theorem deserializeUnique_eq_ok {expecting : String} {access : MapAccess ε} :
    deserializeUnique expecting (.map access) = .ok m ↔ access.failure = none ∧
      (access.entries.map Prod.fst).Nodup ∧ m = OrderedMap.ofEntries access.entries := by
  rw [deserializeUnique, visitMap_eq_ok, OrderedMap.insertAllNew_empty]

/-- The first reference that is there already is reported, whatever comes afterwards. -/
theorem visitMap_of_duplicate {before after : List (String × String)} {reference source : String}
    {access : MapAccess ε} (hentries : access.entries = before ++ (reference, source) :: after)
    (hnew : ∀ e ∈ before, references.containsKey e.1 = false) (hnodup : (before.map Prod.fst).Nodup)
    (hthere : reference ∈ before.map Prod.fst ∨ references.containsKey reference = true) :
    visitMap references access = .error (duplicateReference reference) := by
  induction before generalizing references access with
  | nil =>
    cases access with
    | finished => cases hentries
    | failed error => cases hentries
    | entry reference' source' rest =>
      obtain ⟨hhead, -⟩ := List.cons.inj hentries
      obtain ⟨rfl, rfl⟩ := Prod.mk.inj hhead
      have hkey := hthere.resolve_left List.not_mem_nil
      rw [visitMap_entry, if_pos hkey]
  | cons e before ih =>
    cases access with
    | finished => cases hentries
    | failed error => cases hentries
    | entry reference' source' rest =>
      obtain ⟨rfl, hrest⟩ := List.cons.inj hentries
      obtain ⟨hfresh, hnodup⟩ := List.nodup_cons.mp hnodup
      have hkey := hnew _ List.mem_cons_self
      rw [visitMap_entry, hkey, if_neg Bool.false_ne_true]
      apply ih hrest
      · intro e he
        have hne : e.1 ≠ reference' := by
          rintro rfl
          exact hfresh (List.mem_map.mpr ⟨e, he, rfl⟩)
        rw [OrderedMap.containsKey_insert, hnew e (List.mem_cons_of_mem _ he)]
        simp [hne]
      · exact hnodup
      · rw [OrderedMap.containsKey_insert, Bool.or_eq_true, decide_eq_true_iff]
        rcases hthere with hthere | hthere
        · rcases List.mem_cons.mp hthere with heq | hthere
          · exact Or.inr (Or.inl heq)
          · exact Or.inl hthere
        · exact Or.inr (Or.inr hthere)

theorem deserializeUnique_of_duplicate {expecting : String} {before after : List (String × String)}
    {reference source : String} {access : MapAccess ε}
    (hentries : access.entries = before ++ (reference, source) :: after)
    (hnodup : (before.map Prod.fst).Nodup) (hmem : reference ∈ before.map Prod.fst) :
    deserializeUnique expecting (.map access) = .error (duplicateReference reference) :=
  visitMap_of_duplicate hentries (fun _ _ => rfl) hnodup (Or.inl hmem)

/-- The access ends well and delivers distinct references exactly if a map is decoded,
which then binds what was delivered. So no reference can stand twice in what is decoded,
and the order of the entries does not matter. -/
structure DecodesUnique (decode : Deserializer ε → Except ε (OrderedMap String String)) :
    Prop where
  accepts_iff : ∀ access, (∃ m, decode (.map access) = .ok m) ↔
    access.failure = none ∧ (access.entries.map Prod.fst).Nodup
  binds : ∀ access m, decode (.map access) = .ok m → ∀ reference source,
    m.get? reference = some source ↔ (reference, source) ∈ access.entries
  duplicate : ∀ access before between after reference source source',
    access.entries = before ++ (reference, source) :: between ++ (reference, source') :: after →
      ∃ error, decode (.map access) = .error error
  permutation : ∀ access access' m, decode (.map access) = .ok m →
    access.entries.Perm access'.entries → access'.failure = none → decode (.map access') = .ok m

theorem deserializeUnique_decodes (expecting : String) :
    DecodesUnique (deserializeUnique expecting : Deserializer ε → _) := by
  have haccepts : ∀ access : MapAccess ε, (∃ m, deserializeUnique expecting (.map access) = .ok m) ↔
      access.failure = none ∧ (access.entries.map Prod.fst).Nodup := by
    intro access
    simp only [deserializeUnique_eq_ok]
    constructor
    · intro h
      obtain ⟨m, hfailure, hnodup, -⟩ := h
      exact ⟨hfailure, hnodup⟩
    · intro h
      exact ⟨_, h.1, h.2, rfl⟩
  refine ⟨haccepts, ?_, ?_, ?_⟩
  · intro access m hm reference source
    obtain ⟨-, hnodup, rfl⟩ := deserializeUnique_eq_ok.mp hm
    exact OrderedMap.get?_ofEntries_of_nodup hnodup
  · intro access before between after reference source source' hentries
    cases hdecode : deserializeUnique expecting (.map access) with
    | error error => exact ⟨error, rfl⟩
    | ok m =>
      obtain ⟨-, hnodup⟩ := (haccepts access).mp ⟨m, hdecode⟩
      rw [hentries, List.map_append, List.nodup_append] at hnodup
      have hleft : reference ∈ (before ++ (reference, source) :: between).map Prod.fst := by simp
      have hright : reference ∈ ((reference, source') :: after).map Prod.fst := by simp
      exact absurd rfl (hnodup.2.2 reference hleft reference hright)
  · intro access access' m hm hperm hfailure
    obtain ⟨-, hnodup, rfl⟩ := deserializeUnique_eq_ok.mp hm
    have hnodup' : (access'.entries.map Prod.fst).Nodup :=
      (hperm.map Prod.fst).nodup_iff.mp hnodup
    exact deserializeUnique_eq_ok.mpr
      ⟨hfailure, hnodup', OrderedMap.ofEntries_perm hperm hnodup⟩

/-- No reference map is decoded with an entry overwritten. -/
theorem reference_maps_decode_unique :
    DecodesUnique (EnvironmentProvider.deserializeUniqueSources : Deserializer ε → _) ∧
    DecodesUnique (KeychainProvider.deserializeUniqueReferences : Deserializer ε → _) ∧
    DecodesUnique (EncryptedFileProvider.deserializeUniqueReferences : Deserializer ε → _) ∧
    DecodesUnique (CommandProvider.deserializeUniqueReferences : Deserializer ε → _) := by
  refine ⟨?_, ?_, ?_, ?_⟩
  · exact deserializeUnique_decodes _
  · exact deserializeUnique_decodes _
  · exact deserializeUnique_decodes _
  · exact deserializeUnique_decodes _

section
open FileDocuments

def unexpected : Json → Unexpected
  | .null => .unit
  | .bool value => .bool value
  | .number _ => .number
  | .string value => .string value
  | .array _ => .seq
  | .object _ => .map

/-- The fields of an object, read as entries of two strings. -/
def mapAccess : List (String × Json) → MapAccess ε
  | [] => .finished
  | (name, json) :: fields => match json with
    | .string value => .entry name value (mapAccess fields)
    | json => .failed (DeError.invalidType (unexpected json) "a string")

def deserializer : Json → Deserializer ε
  | .object fields => .map (mapAccess fields)
  | json => .other (unexpected json)

def stringFields (entries : List (String × String)) : List (String × Json) :=
  entries.map fun entry => (entry.1, .string entry.2)

theorem mapAccess_stringFields (entries : List (String × String)) :
    (mapAccess (stringFields entries) : MapAccess ε).entries = entries ∧
      (mapAccess (stringFields entries) : MapAccess ε).failure = none := by
  induction entries with
  | nil => exact ⟨rfl, rfl⟩
  | cons entry entries ih =>
    obtain ⟨hentries, hfailure⟩ := ih
    exact ⟨congrArg (entry :: ·) hentries, hfailure⟩

theorem deserializeUnique_stringFields {expecting : String} {entries : List (String × String)} :
    (deserializeUnique expecting (deserializer (.object (stringFields entries))) : Except ε _) =
      .ok m ↔ (entries.map Prod.fst).Nodup ∧ m = OrderedMap.ofEntries entries := by
  obtain ⟨hentries, hfailure⟩ := mapAccess_stringFields (ε := ε) entries
  rw [deserializer, deserializeUnique_eq_ok, hentries, hfailure]
  exact and_iff_right rfl

end

end ReferenceMaps
end LensoSecrets
