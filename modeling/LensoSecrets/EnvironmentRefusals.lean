import LensoSecrets.EnvironmentPlans

/-!
# Refused configurations of the Environment Provider

Both ways to a configuration refuse the same entries, but they need not give the same
reason. A chain of `with_reference` stops at the first entry that cannot be added. A plan is
decoded first, so a repeated reference is reported before anything else, and then checked in
the order of its references.
-/
namespace LensoSecrets
namespace OrderedMaps.OrderedMap
open EarlyExit

/-- A loop over the entries stops at the one of the least key it cannot take. -/
theorem tryForEach_entries_eq_error {κ ν β ε : Type} [LinearOrder κ] {m : OrderedMap κ ν}
    {f : κ × ν → Except ε β} {e : ε} : tryForEach f m.entries = .error e ↔
      ∃ entry ∈ m.entries, f entry = .error e ∧
        ∀ earlier ∈ m.entries, earlier.1 < entry.1 → ∃ b, f earlier = .ok b := by
  rw [tryForEach_eq_error]
  constructor
  · intro h
    obtain ⟨before, entry, after, hentries, hentry, hbefore⟩ := h
    refine ⟨entry, by simp [hentries], hentry, ?_⟩
    intro earlier hearlier hlt
    exact hbefore earlier ((mem_before_iff hentries).mpr ⟨hearlier, hlt⟩)
  · intro h
    obtain ⟨entry, hmem, hentry, hearlier⟩ := h
    obtain ⟨before, after, hentries⟩ := List.append_of_mem hmem
    refine ⟨before, entry, after, hentries, hentry, ?_⟩
    intro earlier hbefore
    obtain ⟨hmem, hlt⟩ := (mem_before_iff hentries).mp hbefore
    exact hearlier earlier hmem hlt

end OrderedMaps.OrderedMap

namespace EnvironmentProvider
open CapabilityContract EarlyExit FileDocuments OrderedMaps ReferenceMaps

namespace EnvSecretsConfig

/-- `with_reference` -/
def withReference (self : EnvSecretsConfig) (reference environmentVariable : String) :
    Except EnvSecretsConfigError EnvSecretsConfig :=
  let (outcome, self) := self.insert reference environmentVariable
  outcome.map fun _ => self

def isEmpty (self : EnvSecretsConfig) : Bool := self.sources.isEmpty

/-- `new` and a chain of `with_reference`, each under `?`. -/
def withReferences (entries : List (String × String)) :
    Except EnvSecretsConfigError EnvSecretsConfig :=
  entries.foldlM (fun config entry => config.withReference entry.1 entry.2) new

/-- What is wrong with one entry. -/
def Malformed (entry : String × String) (error : EnvSecretsConfigError) : Prop :=
  (validReference entry.1 = false ∧ error = .invalidReference) ∨
    (validReference entry.1 = true ∧ validEnvironmentVariable entry.2 = false ∧
      error = .invalidEnvironmentVariable)

/-- The first entry a chain cannot add, after entries that are all right. -/
def ChainRefused (entries : List (String × String)) (error : EnvSecretsConfigError) : Prop :=
  ∃ before entry after, entries = before ++ entry :: after ∧
    (∀ earlier ∈ before, ValidEntry earlier) ∧ (before.map Prod.fst).Nodup ∧
    (Malformed entry error ∨ (ValidEntry entry ∧ entry.1 ∈ before.map Prod.fst ∧
      error = .duplicateReference))

variable {config built : EnvSecretsConfig} {entry : String × String}
variable {entries : List (String × String)} {error : EnvSecretsConfigError}

theorem withReference_eq_ok : config.withReference entry.1 entry.2 = .ok built ↔
    ValidEntry entry ∧ config.sources.containsKey entry.1 = false ∧
      built = ⟨config.sources.insert entry.1 entry.2⟩ := by
  rw [withReference, map_eq_ok]
  constructor
  · intro h
    obtain ⟨_, hok, rfl⟩ := h
    obtain ⟨hvalid, hkey⟩ := insert_eq_ok.mp hok
    exact ⟨hvalid, hkey, insert_snd_of_ok hok⟩
  · intro h
    obtain ⟨hvalid, hkey, rfl⟩ := h
    have hok := insert_eq_ok.mpr ⟨hvalid, hkey⟩
    exact ⟨(), hok, insert_snd_of_ok hok⟩

theorem withReference_eq_error : config.withReference entry.1 entry.2 = .error error ↔
    Malformed entry error ∨ (ValidEntry entry ∧ config.sources.containsKey entry.1 = true ∧
      error = .duplicateReference) := by
  rw [withReference, map_eq_error]
  unfold insert Malformed ValidEntry
  cases validReference entry.1 <;> cases validEnvironmentVariable entry.2 <;>
    cases config.sources.containsKey entry.1 <;> simp [eq_comm]

theorem foldlM_withReference_eq_ok :
    entries.foldlM (fun config entry => config.withReference entry.1 entry.2) config =
      .ok built ↔ (∀ entry ∈ entries, ValidEntry entry) ∧
        config.sources.insertAllNew entries = some built.sources := by
  induction entries generalizing config with
  | nil =>
    rw [List.foldlM_nil, OrderedMap.insertAllNew, Option.some.injEq]
    constructor
    · intro h
      obtain rfl := Except.ok.inj h
      exact ⟨by simp, rfl⟩
    · intro h
      exact congrArg Except.ok (congrArg EnvSecretsConfig.mk h.2)
  | cons entry entries ih =>
    rw [List.foldlM_cons, bind_eq_ok, OrderedMap.insertAllNew, List.forall_mem_cons]
    simp only [withReference_eq_ok, ih]
    constructor
    · intro h
      obtain ⟨_, ⟨hvalid, hkey, rfl⟩, hall, hbuilt⟩ := h
      rw [hkey]
      exact ⟨⟨hvalid, hall⟩, hbuilt⟩
    · intro h
      obtain ⟨⟨hvalid, hall⟩, hbuilt⟩ := h
      split_ifs at hbuilt with hkey
      exact ⟨_, ⟨hvalid, Bool.eq_false_iff.mpr hkey, rfl⟩, hall, hbuilt⟩

theorem withReferences_eq_ok : withReferences entries = .ok built ↔
    (∀ entry ∈ entries, ValidEntry entry) ∧ (entries.map Prod.fst).Nodup ∧
      built.sources = OrderedMap.ofEntries entries := by
  rw [withReferences, foldlM_withReference_eq_ok, ← OrderedMap.insertAllNew_empty]
  rfl

theorem withReferences_eq_error :
    withReferences entries = .error error ↔ ChainRefused entries error := by
  rw [withReferences, foldlM_eq_error]
  constructor
  · intro h
    obtain ⟨before, entry, after, config, hentries, hbefore, hentry⟩ := h
    obtain ⟨hvalid, hnodup, hsources⟩ := withReferences_eq_ok.mp hbefore
    rw [withReference_eq_error, hsources, OrderedMap.containsKey_ofEntries] at hentry
    exact ⟨before, entry, after, hentries, hvalid, hnodup, hentry⟩
  · intro h
    obtain ⟨before, entry, after, hentries, hvalid, hnodup, hentry⟩ := h
    refine ⟨before, entry, after, ⟨OrderedMap.ofEntries before⟩, hentries,
      withReferences_eq_ok.mpr ⟨hvalid, hnodup, rfl⟩, ?_⟩
    rw [withReference_eq_error, OrderedMap.containsKey_ofEntries]
    exact hentry

/-- What `validate` does with one entry. -/
theorem checks_eq_error :
    (do rejectIf (!validReference entry.1) EnvSecretsConfigError.invalidReference
        rejectIf (!validEnvironmentVariable entry.2) .invalidEnvironmentVariable) =
      .error error ↔ Malformed entry error := by
  unfold Malformed
  cases validReference entry.1 <;> cases validEnvironmentVariable entry.2 <;>
    simp [rejectIf, bind, Except.bind, eq_comm]

theorem checks_eq_ok : (∃ u,
    (do rejectIf (!validReference entry.1) EnvSecretsConfigError.invalidReference
        rejectIf (!validEnvironmentVariable entry.2) .invalidEnvironmentVariable) = .ok u) ↔
      ValidEntry entry := by
  simp [ValidEntry]

/-- `validate` names the malformed entry of the least reference. -/
theorem validate_eq_error : config.validate = .error error ↔
    (config.isEmpty = true ∧ error = .empty) ∨
      ∃ entry ∈ config.sources.entries, Malformed entry error ∧
        ∀ earlier ∈ config.sources.entries, earlier.1 < entry.1 → ValidEntry earlier := by
  rw [validate, bind_eq_error, OrderedMap.tryForEach_entries_eq_error]
  simp only [checks_eq_error, checks_eq_ok, rejectIf_eq_ok, isEmpty]
  cases hempty : config.sources.isEmpty with
  | true =>
    have hentries : config.sources.entries = [] := List.isEmpty_iff.mp hempty
    have hreject : rejectIf true EnvSecretsConfigError.empty = .error error ↔ error = .empty := by
      rw [rejectIf, if_pos rfl, Except.error.injEq, eq_comm]
    rw [hreject, hentries]
    simp
  | false => simp [rejectIf]

section
variable {ε : Type} [DeError ε]

/-- Decoding a plan reports the first reference that is repeated. -/
theorem deserialize_plan_of_repeat {before after : List (String × String)}
    (hentries : entries = before ++ entry :: after) (hnodup : (before.map Prod.fst).Nodup)
    (hmem : entry.1 ∈ before.map Prod.fst) :
    (deserialize (plan entries) : Except ε _) = .error (duplicateReference entry.1) := by
  obtain ⟨reference, environmentVariable⟩ := entry
  have hdelivered := (@mapAccess_stringFields ε _ entries).1.trans hentries
  have hdecode : (deserializeUniqueSources (deserializer (.object (stringFields entries))) :
      Except ε _) = .error (duplicateReference reference) :=
    deserializeUnique_of_duplicate hdelivered hnodup hmem
  have hfields : (deserialize (plan entries) : Except ε _) =
      (deserializeUniqueSources (deserializer (.object (stringFields entries))) >>=
        fun sources => .ok ⟨sources⟩) := rfl
  rw [hfields, hdecode]
  rfl

end
end EnvSecretsConfig

section
variable {ε : Type} [DeError ε] {ι : Type} {ρ : ι → Type}

/-- The text of an invalid configuration. -/
def refusal (reason : String) : RuntimeFailure :=
  invalidPlan ("Env Secrets Plugin configuration is invalid: " ++ reason)

open EnvSecretsConfig

/-- Why a plan with these entries is not instantiated. -/
inductive PlanRefused (serde : SerdeJson ε) (text : String) (entries : List (String × String)) :
    RuntimeFailure → Prop where
  | repeated {before after : List (String × String)} {entry : String × String}
    (split : entries = before ++ entry :: after) (distinct : (before.map Prod.fst).Nodup)
    (there : entry.1 ∈ before.map Prod.fst) : PlanRefused serde text entries
      (refusal (serde.display (serde.locate text (duplicateReference entry.1))))
  | empty (none : entries = []) : PlanRefused serde text entries
      (refusal EnvSecretsConfigError.empty.display)
  | malformed {entry : String × String} {error : EnvSecretsConfigError}
    (distinct : (entries.map Prod.fst).Nodup) (mem : entry ∈ entries)
    (wrong : Malformed entry error)
    (least : ∀ earlier ∈ entries, earlier.1 < entry.1 → ValidEntry earlier) :
    PlanRefused serde text entries (refusal error.display)

variable {serde : SerdeJson ε} {source : SecretSource ι ρ} {text : String}
variable {entries : List (String × String)} {failure : RuntimeFailure}

/-- After decoding, an instance is refused for what `validate` says. -/
theorem instantiate_of_fromStr {config : EnvSecretsConfig}
    (h : serde.fromStr text = .ok config) :
    instantiateWithSource serde ⟨"default", text⟩ source = .error failure ↔
      ∃ error, config.validate = .error error ∧ failure = refusal error.display := by
  have hentrypoint : ("default" != "default") = false := by decide
  have hrun : instantiateWithSource serde ⟨"default", text⟩ source =
      ((config.validate.mapError fun error => refusal error.display) >>=
        fun _ => .ok ⟨config, source⟩) := by
    rw [instantiateWithSource, h, hentrypoint]
    rfl
  rw [hrun]
  cases config.validate with
  | ok _ =>
    constructor
    · intro h
      cases h
    · intro h
      obtain ⟨error, herror, -⟩ := h
      cases herror
  | error error =>
    constructor
    · intro h
      exact ⟨error, rfl, (Except.error.inj h).symm⟩
    · intro h
      obtain ⟨error', herror, rfl⟩ := h
      obtain rfl := Except.error.inj herror
      rfl

theorem instantiate_of_repeat (htext : serde.parse text = .ok (plan entries))
    {before after : List (String × String)} {entry : String × String}
    (hentries : entries = before ++ entry :: after) (hnodup : (before.map Prod.fst).Nodup)
    (hmem : entry.1 ∈ before.map Prod.fst) :
    instantiateWithSource serde ⟨"default", text⟩ source =
      .error (refusal (serde.display (serde.locate text (duplicateReference entry.1)))) := by
  have hdecode := @deserialize_plan_of_repeat entry entries ε _ before after hentries hnodup hmem
  have hfrom : serde.fromStr text = .error (serde.locate text (duplicateReference entry.1)) := by
    rw [SerdeJson.fromStr, htext]
    exact congrArg (Except.mapError (serde.locate text)) hdecode
  have hentrypoint : ("default" != "default") = false := by decide
  rw [instantiateWithSource, hfrom, hentrypoint]
  rfl

theorem mem_ofEntries_entries (hnodup : (entries.map Prod.fst).Nodup) {entry : String × String} :
    entry ∈ (OrderedMap.ofEntries entries).entries ↔ entry ∈ entries := by
  have hentry := OrderedMap.get?_ofEntries_of_nodup (k := entry.1) (v := entry.2) hnodup
  rw [← OrderedMap.get?_eq_some (k := entry.1) (v := entry.2), hentry]

theorem instantiate_plan_eq_error (htext : serde.parse text = .ok (plan entries)) :
    instantiateWithSource serde ⟨"default", text⟩ source = .error failure ↔
      PlanRefused serde text entries failure := by
  by_cases hnodup : (entries.map Prod.fst).Nodup
  · have hfrom : serde.fromStr text = .ok ⟨OrderedMap.ofEntries entries⟩ :=
      (SerdeJson.fromStr_of_parse htext).mpr (deserialize_plan.mpr ⟨hnodup, rfl⟩)
    rw [instantiate_of_fromStr hfrom]
    simp only [validate_eq_error, isEmpty, OrderedMap.isEmpty_ofEntries,
      mem_ofEntries_entries hnodup]
    constructor
    · intro h
      obtain ⟨error, ⟨hempty, rfl⟩ | ⟨entry, hmem, hwrong, hleast⟩, rfl⟩ := h
      · exact .empty hempty
      · exact .malformed hnodup hmem hwrong hleast
    · intro h
      cases h with
      | repeated split distinct there =>
        exact absurd hnodup (OrderedMap.exists_repeat_iff.mpr ⟨_, _, _, split, distinct, there⟩)
      | empty none => exact ⟨.empty, Or.inl ⟨none, rfl⟩, rfl⟩
      | malformed distinct mem wrong least =>
        exact ⟨_, Or.inr ⟨_, mem, wrong, least⟩, rfl⟩
  · constructor
    · intro h
      obtain ⟨before, entry, after, hentries, hbefore, hmem⟩ :=
        OrderedMap.exists_repeat_iff.mp hnodup
      rw [instantiate_of_repeat htext hentries hbefore hmem] at h
      obtain rfl := Except.error.inj h
      exact .repeated hentries hbefore hmem
    · intro h
      cases h with
      | repeated split distinct there => exact instantiate_of_repeat htext split distinct there
      | empty none =>
        rw [none] at hnodup
        exact absurd List.nodup_nil hnodup
      | malformed distinct mem wrong least => exact absurd distinct hnodup

theorem instantiate_plan_eq_ok (htext : serde.parse text = .ok (plan entries))
    {provider : EnvSecretsProvider ι ρ} :
    instantiateWithSource serde ⟨"default", text⟩ source = .ok provider ↔
      withReferences entries = .ok provider.config ∧ provider.config.isEmpty = false ∧
        provider.source = source := by
  rw [instantiateWithSource_eq_ok, SerdeJson.fromStr_of_parse htext, deserialize_plan,
    withReferences_eq_ok]
  constructor
  · intro h
    obtain ⟨-, ⟨hnodup, hsources⟩, hvalid, hsource⟩ := h
    have hall := ((validate_ofEntries hnodup hsources).mp hvalid).2
    exact ⟨⟨hall, hnodup, hsources⟩, (validate_eq_ok.mp hvalid).1, hsource⟩
  · intro h
    obtain ⟨⟨hall, hnodup, hsources⟩, hempty, hsource⟩ := h
    have hne : entries ≠ [] := by
      intro hnil
      rw [isEmpty, hsources, hnil] at hempty
      cases hempty
    exact ⟨rfl, ⟨hnodup, hsources⟩, (validate_ofEntries hnodup hsources).mpr ⟨hne, hall⟩, hsource⟩

/-- Which reason each way gives, for every sequence of entries. -/
structure RefusesByRule (serde : SerdeJson ε) (source : SecretSource ι ρ) : Prop where
  chain : ∀ entries error, withReferences entries = .error error ↔ ChainRefused entries error
  plan : ∀ entries text, serde.parse text = .ok (plan entries) → ∀ failure,
    instantiateWithSource serde ⟨"default", text⟩ source = .error failure ↔
      PlanRefused serde text entries failure
  accepted : ∀ entries text, serde.parse text = .ok (EnvSecretsConfig.plan entries) →
    ∀ provider, instantiateWithSource serde ⟨"default", text⟩ source = .ok provider ↔
      withReferences entries = .ok provider.config ∧ provider.config.isEmpty = false ∧
        provider.source = source

/-- A chain names the first entry that is malformed or repeats a reference. A plan names the
first repeated reference if there is one, and else the malformed entry of the least
reference; and what neither refuses becomes one configuration. -/
theorem refusals_named (serde : SerdeJson ε) (source : SecretSource ι ρ) :
    RefusesByRule serde source := by
  constructor
  · intro entries error
    exact withReferences_eq_error
  · intro entries text htext failure
    exact instantiate_plan_eq_error htext
  · intro entries text htext provider
    exact instantiate_plan_eq_ok htext

end
end EnvironmentProvider
end LensoSecrets
