import LensoSecrets.EnvironmentProvider
import LensoSecrets.ReferenceMaps

/-!
# Configurations of the Environment Provider

A Host author builds a configuration with `insert`; a plan gives it as a JSON document to
`instantiate_with_source`. Both ways refuse the same entries and build the same map,
although one checks each entry as it comes and the other checks the sorted map at the end.
-/
namespace LensoSecrets.EnvironmentProvider
open CapabilityContract EarlyExit FileDocuments OrderedMaps ReferenceMaps

/-- `Display` of the error. -/
def EnvSecretsConfigError.display : EnvSecretsConfigError → String
  | .empty => "at least one secret reference is required"
  | .invalidReference => "invalid logical secret reference"
  | .invalidEnvironmentVariable => "invalid environment-variable name"
  | .duplicateReference => "logical secret reference is already configured"

namespace EnvSecretsConfig

def new : EnvSecretsConfig := ⟨OrderedMap.empty⟩

/-- The outcome of `insert`, with the configuration it leaves. -/
def insert (self : EnvSecretsConfig) (reference environmentVariable : String) :
    Except EnvSecretsConfigError Unit × EnvSecretsConfig :=
  if !validReference reference then (.error .invalidReference, self)
  else if !validEnvironmentVariable environmentVariable then
    (.error .invalidEnvironmentVariable, self)
  else if self.sources.containsKey reference then (.error .duplicateReference, self)
  else (.ok (), ⟨self.sources.insert reference environmentVariable⟩)

def len (self : EnvSecretsConfig) : ℕ := self.sources.len

/-- The outcomes of calls of `insert` one after another, with the configuration they leave. -/
def insertEach (self : EnvSecretsConfig) : List (String × String) →
    List (Except EnvSecretsConfigError Unit) × EnvSecretsConfig
  | [] => ([], self)
  | (reference, environmentVariable) :: calls =>
    let (outcome, self) := self.insert reference environmentVariable
    let (outcomes, self) := self.insertEach calls
    (outcome :: outcomes, self)

/-- The derived `Serialize`. -/
def serialize (self : EnvSecretsConfig) : Json :=
  .object [("references", .object (stringFields self.sources.entries))]

section
variable {ε : Type} [DeError ε]

/-- The derived `visit_map`, with the field `references` if it was there. -/
def visitMap (sources : Option (OrderedMap String String)) :
    List (String × Json) → Except ε EnvSecretsConfig
  | [] => match sources with
    | some sources => .ok ⟨sources⟩
    | none => .error (DeError.missingField "references")
  | (name, json) :: fields =>
    if name ≠ "references" then .error (DeError.unknownField name ["references"])
    else if sources.isSome then .error (DeError.duplicateField "references")
    else do
      let sources ← deserializeUniqueSources (deserializer json)
      visitMap (some sources) fields

/-- The derived `visit_seq`, and the end of the sequence after it. -/
def visitSeq : List Json → Except ε EnvSecretsConfig
  | [] => .error (DeError.invalidLength 0 "struct EnvSecretsConfig with 1 element")
  | json :: rest => do
    let sources ← deserializeUniqueSources (deserializer json)
    if rest.isEmpty then .ok ⟨sources⟩ else .error (DeError.custom "trailing characters")

/-- The derived `Deserialize`. -/
def deserialize : Json → Except ε EnvSecretsConfig
  | .object fields => visitMap none fields
  | .array items => visitSeq items
  | json => .error (DeError.invalidType (unexpected json) "struct EnvSecretsConfig")

end
end EnvSecretsConfig

/-- `serde_json`: the value of a text or the error it is refused with, the text of a value,
and the position and the text it gives an error. -/
structure SerdeJson (ε : Type) where
  parse : String → Except ε Json
  print : Json → String
  locate : String → ε → ε
  display : ε → String

section
variable {ε : Type} [DeError ε] {ι : Type} {ρ : ι → Type}

/-- `serde_json::from_str::<EnvSecretsConfig>` -/
def SerdeJson.fromStr (serde : SerdeJson ε) (text : String) : Except ε EnvSecretsConfig := do
  let json ← serde.parse text
  (EnvSecretsConfig.deserialize json).mapError (serde.locate text)

structure NativePluginFactoryContext where
  entrypoint : String
  configuration : String

/-- The endpoint and the lifecycle of the instance share this provider. -/
def instantiateWithSource (serde : SerdeJson ε) (context : NativePluginFactoryContext)
    (source : SecretSource ι ρ) : Except RuntimeFailure (EnvSecretsProvider ι ρ) := do
  rejectIf (context.entrypoint != "default")
    (invalidPlan "unsupported Env Secrets Plugin entrypoint")
  let config ← (serde.fromStr context.configuration).mapError fun error =>
    invalidPlan ("Env Secrets Plugin configuration is invalid: " ++ serde.display error)
  config.validate.mapError fun error =>
    invalidPlan ("Env Secrets Plugin configuration is invalid: " ++ error.display)
  pure ⟨config, source⟩

end

/-- What `insert` and `validate` check of one entry. -/
def ValidEntry (entry : String × String) : Prop :=
  validReference entry.1 = true ∧ validEnvironmentVariable entry.2 = true

namespace EnvSecretsConfig

variable {config built : EnvSecretsConfig} {reference environmentVariable : String}
variable {calls : List (String × String)}

theorem validate_eq_ok : config.validate = .ok () ↔
    config.sources.isEmpty = false ∧ ∀ entry ∈ config.sources.entries, ValidEntry entry := by
  simp only [validate, bind_eq_ok, rejectIf_eq_ok, tryForEach_eq_ok, Bool.not_eq_false']
  constructor
  · intro h
    obtain ⟨_, hempty, hall⟩ := h
    refine ⟨hempty, ?_⟩
    intro entry hentry
    obtain ⟨_, _, hreference, hvariable⟩ := hall entry hentry
    exact ⟨hreference, hvariable⟩
  · intro h
    obtain ⟨hempty, hall⟩ := h
    refine ⟨(), hempty, ?_⟩
    intro entry hentry
    obtain ⟨hreference, hvariable⟩ := hall entry hentry
    exact ⟨(), (), hreference, hvariable⟩

/-- An `insert` succeeds for a valid entry with a new reference, and then adds it. -/
theorem insert_eq_ok : (config.insert reference environmentVariable).1 = .ok () ↔
    ValidEntry (reference, environmentVariable) ∧
      config.sources.containsKey reference = false := by
  unfold insert ValidEntry
  cases validReference reference <;> cases validEnvironmentVariable environmentVariable <;>
    cases config.sources.containsKey reference <;> simp

theorem insert_snd_of_ok (h : (config.insert reference environmentVariable).1 = .ok ()) :
    (config.insert reference environmentVariable).2 =
      ⟨config.sources.insert reference environmentVariable⟩ := by
  obtain ⟨⟨hreference, hvariable⟩, hkey⟩ := insert_eq_ok.mp h
  dsimp only at hreference hvariable
  simp [insert, hreference, hvariable, hkey]

/-- An `insert` that fails leaves the configuration unchanged. -/
theorem insert_snd_of_error {error : EnvSecretsConfigError}
    (h : (config.insert reference environmentVariable).1 = .error error) :
    (config.insert reference environmentVariable).2 = config := by
  unfold insert at h ⊢
  split_ifs at h ⊢
  · rfl
  · rfl
  · rfl

theorem insertEach_cons (entry : String × String) :
    config.insertEach (entry :: calls) =
      ((config.insert entry.1 entry.2).1 :: ((config.insert entry.1 entry.2).2.insertEach calls).1,
        ((config.insert entry.1 entry.2).2.insertEach calls).2) := rfl

theorem insertEach_append (before after : List (String × String)) :
    config.insertEach (before ++ after) =
      ((config.insertEach before).1 ++ ((config.insertEach before).2.insertEach after).1,
        ((config.insertEach before).2.insertEach after).2) := by
  induction before generalizing config with
  | nil => rfl
  | cons entry before ih =>
    rw [List.cons_append, insertEach_cons, insertEach_cons, ih]
    rfl

/-- All calls succeed exactly for valid entries whose references are new and distinct. -/
theorem insertEach_ok_iff : ((∀ outcome ∈ (config.insertEach calls).1, outcome = .ok ()) ∧
      (config.insertEach calls).2 = built) ↔
    (∀ entry ∈ calls, ValidEntry entry) ∧
      config.sources.insertAllNew calls = some built.sources := by
  induction calls generalizing config with
  | nil =>
    rw [OrderedMap.insertAllNew, Option.some.injEq]
    constructor
    · intro h
      obtain ⟨-, rfl⟩ := h
      exact ⟨by simp, rfl⟩
    · intro h
      obtain ⟨-, hsources⟩ := h
      exact ⟨by simp [insertEach], congrArg EnvSecretsConfig.mk hsources⟩
  | cons entry calls ih =>
    rw [insertEach_cons, OrderedMap.insertAllNew, List.forall_mem_cons, List.forall_mem_cons]
    dsimp only
    by_cases hok : (config.insert entry.1 entry.2).1 = .ok ()
    · obtain ⟨hvalid, hkey⟩ := insert_eq_ok.mp hok
      have hrest := @ih (config.insert entry.1 entry.2).2
      rw [and_assoc, hrest, insert_snd_of_ok hok, hkey, if_neg Bool.false_ne_true]
      constructor
      · intro h
        obtain ⟨-, hall, hbuilt⟩ := h
        exact ⟨⟨hvalid, hall⟩, hbuilt⟩
      · intro h
        obtain ⟨⟨-, hall⟩, hbuilt⟩ := h
        exact ⟨hok, hall, hbuilt⟩
    · constructor
      · intro h
        obtain ⟨⟨hfirst, -⟩, -⟩ := h
        exact absurd hfirst hok
      · intro h
        obtain ⟨⟨hvalid, -⟩, hbuilt⟩ := h
        split_ifs at hbuilt with hkey
        exact absurd (insert_eq_ok.mpr ⟨hvalid, Bool.eq_false_iff.mpr hkey⟩) hok

/-- After these calls the next one succeeds. -/
def Succeeds (before : List (String × String)) (reference environmentVariable : String) : Prop :=
  ((new.insertEach before).2.insert reference environmentVariable).1 = .ok ()

/-- The first successful call for the reference binds it to this variable. -/
def FirstSuccess (calls : List (String × String)) (reference environmentVariable : String) : Prop :=
  ∃ before after, calls = before ++ (reference, environmentVariable) :: after ∧
    Succeeds before reference environmentVariable ∧
    ∀ earlier other later, before = earlier ++ (reference, other) :: later →
      ¬ Succeeds earlier reference other

theorem insertEach_snoc (before : List (String × String)) (entry : String × String) :
    (config.insertEach (before ++ [entry])).2 =
      ((config.insertEach before).2.insert entry.1 entry.2).2 := by
  rw [insertEach_append]
  rfl

/-- One call changes no binding that is there. -/
theorem get?_insert_of_some {bound : String} (entry : String × String)
    (h : config.sources.get? reference = some bound) :
    (config.insert entry.1 entry.2).2.sources.get? reference = some bound := by
  cases hout : (config.insert entry.1 entry.2).1 with
  | error error => rw [insert_snd_of_error hout, h]
  | ok _ =>
    have hkey := (insert_eq_ok.mp hout).2
    have hne : reference ≠ entry.1 := by
      rintro rfl
      rw [OrderedMap.containsKey, h] at hkey
      cases hkey
    rw [insert_snd_of_ok hout]
    dsimp only
    rw [OrderedMap.get?_insert, if_neg hne, h]

theorem get?_insertEach_of_some {bound : String}
    (h : config.sources.get? reference = some bound) :
    (config.insertEach calls).2.sources.get? reference = some bound := by
  induction calls generalizing config with
  | nil => exact h
  | cons entry calls ih =>
    rw [insertEach_cons]
    exact ih (get?_insert_of_some entry h)

/-- After a successful call the reference is bound, so no later call for it succeeds. -/
theorem get?_of_succeeds {before after : List (String × String)}
    (h : Succeeds before reference environmentVariable) :
    (new.insertEach (before ++ (reference, environmentVariable) :: after)).2.sources.get?
      reference = some environmentVariable := by
  rw [insertEach_append, insertEach_cons]
  apply get?_insertEach_of_some
  dsimp only
  rw [insert_snd_of_ok h]
  dsimp only
  rw [OrderedMap.get?_insert, if_pos rfl]

theorem not_succeeds_twice {before earlier later : List (String × String)} {other : String}
    (h : Succeeds before reference environmentVariable)
    (hbefore : before = earlier ++ (reference, other) :: later) :
    ¬ Succeeds earlier reference other := by
  intro hearlier
  have hbound : (new.insertEach (earlier ++ (reference, other) :: later)).2.sources.get?
      reference = some other := get?_of_succeeds hearlier
  have hkey := (insert_eq_ok.mp h).2
  rw [hbefore, OrderedMap.containsKey, hbound] at hkey
  cases hkey

/-- What a reference holds comes from a successful call. -/
theorem exists_succeeds
    (h : (new.insertEach calls).2.sources.get? reference = some environmentVariable) :
    ∃ before after, calls = before ++ (reference, environmentVariable) :: after ∧
      Succeeds before reference environmentVariable := by
  induction calls using List.reverseRecOn with
  | nil => cases h
  | append_singleton calls entry ih =>
    rw [insertEach_snoc] at h
    have hearlier : (new.insertEach calls).2.sources.get? reference = some environmentVariable →
        ∃ before after, calls ++ [entry] = before ++ (reference, environmentVariable) :: after ∧
          Succeeds before reference environmentVariable := by
      intro hbound
      obtain ⟨before, after, hcalls, hsucceeds⟩ := ih hbound
      refine ⟨before, after ++ [entry], ?_, hsucceeds⟩
      rw [hcalls, List.append_assoc, List.cons_append]
    cases hout : ((new.insertEach calls).2.insert entry.1 entry.2).1 with
    | error error =>
      rw [insert_snd_of_error hout] at h
      exact hearlier h
    | ok _ =>
      rw [insert_snd_of_ok hout] at h
      dsimp only at h
      rw [OrderedMap.get?_insert] at h
      split_ifs at h with hreference
      · obtain rfl := Option.some.inj h
        subst hreference
        exact ⟨calls, [], rfl, hout⟩
      · exact hearlier h

/-- A reference holds the variable of its first successful call. -/
theorem get?_insertEach_iff :
    (new.insertEach calls).2.sources.get? reference = some environmentVariable ↔
      FirstSuccess calls reference environmentVariable := by
  constructor
  · intro h
    obtain ⟨before, after, hcalls, hsucceeds⟩ := exists_succeeds h
    refine ⟨before, after, hcalls, hsucceeds, ?_⟩
    intro earlier other later hbefore
    exact not_succeeds_twice hsucceeds hbefore
  · intro h
    obtain ⟨before, after, rfl, hsucceeds, -⟩ := h
    exact get?_of_succeeds hsucceeds

/-- The configuration grows by one entry with every successful call. -/
theorem len_insertEach : (config.insertEach calls).2.len =
    config.len + (config.insertEach calls).1.countP Except.isOk := by
  induction calls generalizing config with
  | nil => rfl
  | cons entry calls ih =>
    rw [insertEach_cons, List.countP_cons]
    dsimp only
    rw [ih]
    cases hout : (config.insert entry.1 entry.2).1 with
    | error error =>
      rw [insert_snd_of_error hout]
      rfl
    | ok _ =>
      have hgrow : (config.insert entry.1 entry.2).2.len = config.len + 1 := by
        rw [insert_snd_of_ok hout]
        exact OrderedMap.len_insert (insert_eq_ok.mp hout).2
      have hcount : Except.isOk (.ok () : Except EnvSecretsConfigError Unit) = true := rfl
      rw [hgrow, hcount, if_pos rfl]
      omega

theorem validEntry_of_mem {entry : String × String}
    (h : entry ∈ (new.insertEach calls).2.sources.entries) : ValidEntry entry := by
  have hbound : (new.insertEach calls).2.sources.get? entry.1 = some entry.2 :=
    OrderedMap.get?_eq_some.mpr h
  obtain ⟨before, after, hcalls, hsucceeds, -⟩ := get?_insertEach_iff.mp hbound
  exact (insert_eq_ok.mp hsucceeds).1

/-- A configuration with a successful call is valid. -/
theorem validate_insertEach (h : 0 < (new.insertEach calls).1.countP Except.isOk) :
    (new.insertEach calls).2.validate = .ok () := by
  have hlen := @len_insertEach new calls
  refine validate_eq_ok.mpr ⟨?_, fun entry hentry => validEntry_of_mem hentry⟩
  rw [OrderedMap.isEmpty, List.isEmpty_eq_false_iff, ne_eq, ← List.length_eq_zero_iff]
  have hentries : (new.insertEach calls).2.sources.entries.length =
      (new.insertEach calls).2.len := rfl
  omega

/-- The document whose `references` list these entries in this order. -/
def plan (entries : List (String × String)) : Json :=
  .object [("references", .object (stringFields entries))]

section
variable {ε : Type} [DeError ε] {entries : List (String × String)}

theorem deserialize_plan : (deserialize (plan entries) : Except ε _) = .ok config ↔
    (entries.map Prod.fst).Nodup ∧ config.sources = OrderedMap.ofEntries entries := by
  have hsources : ∀ m, (deserializeUniqueSources (deserializer (.object (stringFields entries))) :
      Except ε _) = .ok m ↔ (entries.map Prod.fst).Nodup ∧ m = OrderedMap.ofEntries entries :=
    fun m => deserializeUnique_stringFields
  have hfields : (deserialize (plan entries) : Except ε _) =
      (deserializeUniqueSources (deserializer (.object (stringFields entries))) >>=
        fun sources => .ok ⟨sources⟩) := rfl
  rw [hfields, bind_eq_ok]
  constructor
  · intro h
    obtain ⟨m, hm, hconfig⟩ := h
    obtain ⟨hnodup, rfl⟩ := (hsources m).mp hm
    obtain rfl := Except.ok.inj hconfig
    exact ⟨hnodup, rfl⟩
  · intro h
    obtain ⟨hnodup, hconfig⟩ := h
    refine ⟨_, (hsources _).mpr ⟨hnodup, rfl⟩, ?_⟩
    rw [← hconfig]

/-- What is serialized deserializes to the same configuration. -/
theorem deserialize_serialize (config : EnvSecretsConfig) :
    (deserialize config.serialize : Except ε _) = .ok config :=
  deserialize_plan.mpr
    ⟨OrderedMap.keys_nodup config.sources, (OrderedMap.ofEntries_entries config.sources).symm⟩

/-- A plan is accepted exactly if it has entries, all valid and with distinct references. -/
theorem validate_ofEntries (hnodup : (entries.map Prod.fst).Nodup)
    (hconfig : config.sources = OrderedMap.ofEntries entries) :
    config.validate = .ok () ↔ entries ≠ [] ∧ ∀ entry ∈ entries, ValidEntry entry := by
  have hmem : ∀ entry, entry ∈ config.sources.entries ↔ entry ∈ entries := by
    intro entry
    have hentry := OrderedMap.get?_ofEntries_of_nodup (k := entry.1) (v := entry.2) hnodup
    rw [← OrderedMap.get?_eq_some (k := entry.1) (v := entry.2), hconfig, hentry]
  have hempty := OrderedMap.isEmpty_ofEntries entries
  rw [validate_eq_ok, hconfig, ← Bool.not_eq_true, hempty, ← hconfig]
  simp only [hmem]

end
end EnvSecretsConfig

section
variable {ε : Type} [DeError ε] {ι : Type} {ρ : ι → Type}
variable {serde : SerdeJson ε} {context : NativePluginFactoryContext} {source : SecretSource ι ρ}

theorem SerdeJson.fromStr_of_parse {text : String} {json : Json} {config : EnvSecretsConfig}
    (h : serde.parse text = .ok json) : serde.fromStr text = .ok config ↔
      (EnvSecretsConfig.deserialize json : Except ε _) = .ok config := by
  rw [SerdeJson.fromStr, h]
  exact mapError_eq_ok

/-- An instance is made of a document that decodes to a valid configuration. -/
theorem instantiateWithSource_eq_ok {provider : EnvSecretsProvider ι ρ} :
    instantiateWithSource serde context source = .ok provider ↔ context.entrypoint = "default" ∧
      serde.fromStr context.configuration = .ok provider.config ∧
      provider.config.validate = .ok () ∧ provider.source = source := by
  simp only [instantiateWithSource, bind_eq_ok, rejectIf_eq_ok, mapError_eq_ok,
    bne_eq_false_iff_eq]
  constructor
  · intro h
    obtain ⟨_, hentrypoint, config, hconfig, _, hvalid, hprovider⟩ := h
    obtain rfl := Except.ok.inj hprovider
    exact ⟨hentrypoint, hconfig, hvalid, rfl⟩
  · intro h
    obtain ⟨hentrypoint, hconfig, hvalid, rfl⟩ := h
    exact ⟨(), hentrypoint, _, hconfig, (), hvalid, rfl⟩

open EnvSecretsConfig

/-- The builder takes all entries, and there are some, exactly if a plan with these entries
is instantiated, and then both hold one configuration. -/
theorem instantiate_plan_iff {entries : List (String × String)} {text : String}
    (htext : serde.parse text = .ok (plan entries)) {provider : EnvSecretsProvider ι ρ} :
    instantiateWithSource serde ⟨"default", text⟩ source = .ok provider ↔
      (∀ outcome ∈ (new.insertEach entries).1, outcome = .ok ()) ∧ entries ≠ [] ∧
        provider = ⟨(new.insertEach entries).2, source⟩ := by
  have hbuilt : ∀ config : EnvSecretsConfig,
      ((∀ outcome ∈ (new.insertEach entries).1, outcome = .ok ()) ∧
        (new.insertEach entries).2 = config) ↔ (∀ entry ∈ entries, ValidEntry entry) ∧
          (entries.map Prod.fst).Nodup ∧ config.sources = OrderedMap.ofEntries entries := by
    intro config
    rw [insertEach_ok_iff, ← OrderedMap.insertAllNew_empty]
    rfl
  rw [instantiateWithSource_eq_ok, SerdeJson.fromStr_of_parse htext, deserialize_plan]
  constructor
  · intro h
    obtain ⟨-, ⟨hnodup, hsources⟩, hvalid, hsource⟩ := h
    obtain ⟨hne, hall⟩ := (validate_ofEntries hnodup hsources).mp hvalid
    obtain ⟨hok, hconfig⟩ := (hbuilt provider.config).mpr ⟨hall, hnodup, hsources⟩
    refine ⟨hok, hne, ?_⟩
    rw [hconfig, ← hsource]
  · intro h
    obtain ⟨hok, hne, rfl⟩ := h
    obtain ⟨hall, hnodup, hsources⟩ := (hbuilt _).mp ⟨hok, rfl⟩
    have hvalid := (validate_ofEntries hnodup hsources).mpr ⟨hne, hall⟩
    exact ⟨rfl, ⟨hnodup, hsources⟩, hvalid, rfl⟩

variable (serde source)

/-- A plan is instantiated exactly if the builder takes all its entries, and both hold one
configuration. In any sequence of calls of the builder a failing one changes nothing, a
reference keeps the variable of its first successful one, the length counts them, and with
one of them the configuration is valid and read back from the text it is written to. -/
theorem builder_agrees_with_plan :
    (∀ entries text, serde.parse text = .ok (plan entries) →
      (((∀ outcome ∈ (new.insertEach entries).1, outcome = .ok ()) ∧ entries ≠ []) ↔
        ∃ provider, instantiateWithSource serde ⟨"default", text⟩ source = .ok provider) ∧
      ∀ provider, instantiateWithSource serde ⟨"default", text⟩ source = .ok provider →
        provider.config = (new.insertEach entries).2) ∧
    (∀ (config : EnvSecretsConfig) reference environmentVariable error,
      (config.insert reference environmentVariable).1 = .error error →
        (config.insert reference environmentVariable).2 = config) ∧
    ∀ calls config, config = (new.insertEach calls).2 →
      (∀ reference environmentVariable, config.sources.get? reference = some environmentVariable ↔
        FirstSuccess calls reference environmentVariable) ∧
      config.len = (new.insertEach calls).1.countP Except.isOk ∧
      (0 < config.len → config.validate = .ok () ∧
        (serde.parse (serde.print config.serialize) = .ok config.serialize →
          serde.fromStr (serde.print config.serialize) = .ok config)) := by
  refine ⟨?_, ?_, ?_⟩
  · intro entries text htext
    refine ⟨?_, ?_⟩
    · simp only [instantiate_plan_iff htext]
      constructor
      · intro h
        exact ⟨_, h.1, h.2, rfl⟩
      · intro h
        obtain ⟨provider, hok, hne, -⟩ := h
        exact ⟨hok, hne⟩
    · intro provider hprovider
      obtain ⟨-, -, rfl⟩ := (instantiate_plan_iff htext).mp hprovider
      rfl
  · intro config reference environmentVariable error herror
    exact insert_snd_of_error herror
  · rintro calls config rfl
    have hlen := @len_insertEach new calls
    have hzero : new.len = 0 := rfl
    rw [hzero, Nat.zero_add] at hlen
    refine ⟨?_, hlen, ?_⟩
    · intro reference environmentVariable
      exact get?_insertEach_iff
    · intro hpos
      rw [hlen] at hpos
      refine ⟨validate_insertEach hpos, ?_⟩
      intro htext
      exact (SerdeJson.fromStr_of_parse htext).mpr (deserialize_serialize _)

end

/-- Errors that are only told apart from success. -/
instance : DeError Unit where
  custom _ := ()
  invalidType _ _ := ()
  invalidLength _ _ := ()
  unknownField _ _ := ()
  missingField _ := ()
  duplicateField _ := ()

def writtenEntries : List (String × String) :=
  [("db/password", "DB_PASSWORD"), ("api.key", "API_KEY")]

/-- Calls of the builder, the second and the last of which fail. -/
def builderCalls : List (String × String) :=
  [("db/password", "DB_PASSWORD"), ("api key", "API_KEY"), ("api.key", "API_KEY"),
    ("db/password", "OTHER")]

def writtenText : String :=
  "\x7b\"references\":\x7b\"db/password\":\"DB_PASSWORD\",\"api.key\":\"API_KEY\"\x7d\x7d"

def printedText : String :=
  "\x7b\"references\":\x7b\"api.key\":\"API_KEY\",\"db/password\":\"DB_PASSWORD\"\x7d\x7d"

/-- The parser on two documents, the second of which is the printed one. -/
def twoTexts : SerdeJson Unit where
  parse text :=
    if text = writtenText then .ok (EnvSecretsConfig.plan writtenEntries)
    else if text = printedText then
      .ok (EnvSecretsConfig.plan [("api.key", "API_KEY"), ("db/password", "DB_PASSWORD")])
    else .error ()
  print _ := printedText
  locate _ error := error
  display _ := "invalid"

theorem writtenText_instantiated :
    (∃ provider,
      instantiateWithSource twoTexts ⟨"default", writtenText⟩ processEnvironment = .ok provider ∧
        provider.config = (EnvSecretsConfig.new.insertEach writtenEntries).2) ∧
    (EnvSecretsConfig.new.insertEach builderCalls).2.len = 2 ∧
    (EnvSecretsConfig.new.insertEach builderCalls).2.sources.get? "db/password" =
      some "DB_PASSWORD" ∧
    twoTexts.fromStr printedText = .ok (EnvSecretsConfig.new.insertEach builderCalls).2 := by
  obtain ⟨hplan, -, hcalls⟩ := builder_agrees_with_plan twoTexts processEnvironment
  have hwritten : twoTexts.parse writtenText = .ok (EnvSecretsConfig.plan writtenEntries) := by
    dsimp only [twoTexts]
    exact if_pos rfl
  have hprinted : twoTexts.parse printedText =
      .ok (EnvSecretsConfig.new.insertEach builderCalls).2.serialize := by
    have hne : printedText ≠ writtenText := by decide
    dsimp only [twoTexts]
    rw [if_neg hne, if_pos rfl]
    rfl
  obtain ⟨hiff, hconfig⟩ := hplan writtenEntries writtenText hwritten
  obtain ⟨-, hlen, hread⟩ := hcalls builderCalls _ rfl
  have hlen : (EnvSecretsConfig.new.insertEach builderCalls).2.len = 2 := hlen
  obtain ⟨provider, hprovider⟩ := hiff.mp ⟨by decide, by decide⟩
  refine ⟨⟨provider, hprovider, hconfig provider hprovider⟩, hlen, by decide, ?_⟩
  have hpos : 0 < (EnvSecretsConfig.new.insertEach builderCalls).2.len := by
    rw [hlen]
    decide
  exact (hread hpos).2 hprinted

end LensoSecrets.EnvironmentProvider
