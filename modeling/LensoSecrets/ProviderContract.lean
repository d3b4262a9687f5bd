import LensoSecrets.CapabilityContract
import LensoSecrets.ResolutionTables
import Mathlib.Data.String.Basic

/-!
# What a Provider owes its consumers

The Capability's failure model and its preparation contract, stated for any reply
function, and their proof for every Provider that answers like a resolution table.
The Providers' own modules show that each of them does.
-/
namespace LensoSecrets.ProviderContract
open CapabilityContract OrderedMaps ResolutionTables

/-- The reply that reports an answer, with the Runtime failure of an unavailable source. -/
def replyOf (failure : RuntimeFailure) : Answer String → Reply
  | .malformed => .ok (.error .invalidReference)
  | .unbound => .ok (.error .unknownReference)
  | .unavailable => .error failure
  | .value v => .ok (.ok ⟨v⟩)

/-- The decision table for one request: `reply` answers `reference` when `holds` says which
source has which value, and a source without a value is unavailable. -/
structure FailureModel (wellFormed : String → Bool) (references : OrderedMap String String)
    (holds : String → String → Prop) (reference : String) (reply : Reply) : Prop where
  invalidReference : reply = .ok (.error .invalidReference) ↔ wellFormed reference = false
  unknownReference : reply = .ok (.error .unknownReference) ↔
    wellFormed reference = true ∧ references.get? reference = none
  runtime : (∃ failure, reply = .error failure) ↔
    ∃ name, references.get? reference = some name ∧ ∀ v, ¬ holds name v
  value : ∀ v, reply = .ok (.ok ⟨v⟩) ↔
    ∃ name, references.get? reference = some name ∧ holds name v
  exhaustive : reply = .ok (.error .invalidReference) ∨ reply = .ok (.error .unknownReference) ∨
    (∃ failure, reply = .error failure) ∨ ∃ v, reply = .ok (.ok ⟨v⟩)

variable {failure : RuntimeFailure} {T : Table String String} {source : String → Option String}
variable {reference : String}

theorem replyOf_eq_value {a : Answer String} {v : String} :
    replyOf failure a = .ok (.ok ⟨v⟩) ↔ a = .value v := by
  cases a <;> simp [replyOf]

theorem replyOf_eq_error {a : Answer String} {f : RuntimeFailure} :
    replyOf failure a = .error f ↔ a = .unavailable ∧ failure = f := by
  cases a <;> simp [replyOf]

/-- Every Provider that answers like a table of what its sources hold has the failure
model. -/
theorem failureModel_replyOf (T : Table String String) {source : String → Option String}
    {holds : String → String → Prop} (hholds : ∀ name v, holds name v ↔ source name = some v)
    (reference : String) (failure : RuntimeFailure) :
    FailureModel T.wellFormed T.bindings holds reference
      (replyOf failure (T.answer source reference)) where
  invalidReference := by
    rw [← Table.answer_eq_malformed source]
    cases T.answer source reference <;> simp [replyOf]
  unknownReference := by
    rw [← Table.answer_eq_unbound source]
    cases T.answer source reference <;> simp [replyOf]
  runtime := by
    have hnone : ∀ name, (∀ v, ¬ holds name v) ↔ source name = none := by
      intro name
      simp only [hholds, Option.eq_none_iff_forall_ne_some, ne_eq]
    simp only [hnone]
    rw [← Table.answer_eq_unavailable]
    simp [replyOf_eq_error]
  value v := by
    simp only [hholds]
    rw [replyOf_eq_value, Table.answer_eq_value]
  exhaustive := by cases T.answer source reference <;> simp [replyOf]

/-- Preparation succeeds exactly when every configured reference resolves, and
otherwise reports what the least unresolved one reports. -/
structure PredictsResolution (references : OrderedMap String String)
    (prepare : Except RuntimeFailure Unit) (reply : String → Reply) : Prop where
  succeeds : prepare = .ok () ↔
    ∀ reference name, references.get? reference = some name →
      ∃ v, reply reference = .ok (.ok v)
  fails : ∀ failure, prepare = .error failure → ∃ reference name,
    references.get? reference = some name ∧ reply reference = .error failure ∧
      ∀ earlier other, references.get? earlier = some other → earlier < reference →
        ∃ v, reply earlier = .ok (.ok v)

/-- A reply gives a value for a bound reference exactly when its source has one. -/
theorem exists_value_iff {name : String} (h : T.bindings.get? reference = some name) :
    (∃ v, replyOf failure (T.answer source reference) = .ok (.ok v)) ↔
      ∃ v, source name = some v := by
  rw [Table.answer_of_bound h]
  cases source name <;> simp [replyOf]

theorem predictsResolution_replyOf (T : Table String String) (source : String → Option String)
    (failure : String → RuntimeFailure) :
    PredictsResolution T.bindings (T.verify failure source)
      (fun reference => replyOf (failure reference) (T.answer source reference)) where
  succeeds := by
    rw [Table.verify_eq_ok]
    exact forall₂_congr fun reference name =>
      forall_congr' fun h => (exists_value_iff h).symm
  fails f hf := by
    obtain ⟨reference, name, hb, hs, rfl, hleast⟩ := Table.verify_eq_error.mp hf
    refine ⟨reference, name, hb, ?_, fun earlier other he hlt => ?_⟩
    · rw [Table.answer_of_bound hb, hs]
      rfl
    · exact (exists_value_iff he).mpr (hleast earlier other he hlt)

/-- If both replies are failures, Domain or Runtime, they are the same failure. -/
def SameFailures (reply reply' : Reply) : Prop :=
  (∀ v, reply ≠ .ok (.ok v)) → (∀ v, reply' ≠ .ok (.ok v)) → reply = reply'

/-- The same configured references resolve. -/
def SameAvailability (references : OrderedMap String String) (reply reply' : String → Reply) :
    Prop :=
  ∀ reference name, references.get? reference = some name →
    ((∃ v, reply reference = .ok (.ok v)) ↔ ∃ v, reply' reference = .ok (.ok v))

variable {source' : String → Option String}

/-- Two failing replies to one request are equal, whatever the sources hold. -/
theorem sameFailures_replyOf (T : Table String String) (source source' : String → Option String)
    (reference : String) (failure : RuntimeFailure) :
    SameFailures (replyOf failure (T.answer source reference))
      (replyOf failure (T.answer source' reference)) := by
  intro h h'
  have hno : ∀ v, T.answer source reference ≠ .value v := by
    intro v hv
    exact h ⟨v⟩ (replyOf_eq_value.mpr hv)
  have hno' : ∀ v, T.answer source' reference ≠ .value v := by
    intro v hv
    exact h' ⟨v⟩ (replyOf_eq_value.mpr hv)
  rw [Table.answer_eq_of_no_value hno hno']

/-- A verification depends only on which configured references resolve. -/
theorem verify_eq_of_sameAvailability {failure : String → RuntimeFailure}
    (h : SameAvailability T.bindings
      (fun reference => replyOf (failure reference) (T.answer source reference))
      (fun reference => replyOf (failure reference) (T.answer source' reference))) :
    T.verify failure source = T.verify failure source' := by
  apply Table.verify_congr
  intro reference name hb
  have hiff := h reference name hb
  rw [exists_value_iff hb, exists_value_iff hb] at hiff
  rw [Bool.eq_iff_iff, Option.isSome_iff_exists, Option.isSome_iff_exists]
  exact hiff

end LensoSecrets.ProviderContract
