import LensoSecrets.ByteReaders
import LensoSecrets.FileDocuments
import LensoSecrets.ProviderContract
import LensoSecrets.QueryPrograms
import LensoSecrets.ReferenceSyntax

/-!
# The encrypted-file Provider

Configuration, loading, preparation and resolution of
`lenso-secrets-encrypted-file-plugin`. Everything outside the crate is queried: the
no-follow open, the key variable, the age decryptor and the JSON parser. The opened
file and the decrypting reader are arbitrary readers, so the bytes read need not
agree with the metadata.
-/
namespace LensoSecrets.EncryptedFileProvider
open ByteReaders CapabilityContract EarlyExit FileDocuments OrderedMaps ProviderContract
open QueryPrograms ReferenceSyntax ResolutionTables StandardLibrary

/-- `MAX_REFERENCE_LENGTH` -/
def maxReferenceLength : ℕ := 256

/-- `MAX_SOURCE_LENGTH` -/
def maxSourceLength : ℕ := 512

/-- `MAX_FILE_BYTES` -/
def maxFileBytes : ℕ := 64 * 1024 * 1024

/-- `MAX_PLAINTEXT_BYTES` -/
def maxPlaintextBytes : ℕ := 16 * 1024 * 1024

/-- `MAX_RECORDS` -/
def maxRecords : ℕ := 100000

def validReference (reference : String) : Bool := validPathReference maxReferenceLength reference

def validSourceName (value : String) : Bool :=
  ReferenceSyntax.validSourceName maxSourceLength value

def validEnvironmentVariable (value : String) : Bool := validUppercaseVariable value

structure EncryptedFileConfig where
  path : OsString
  keyEnvironmentVariable : String
  references : OrderedMap String String
  maxFileBytes : ℕ
  maxPlaintextBytes : ℕ
  maxRecords : ℕ

def validateConfig (config : EncryptedFileConfig) : Except RuntimeFailure Unit := do
  rejectIf config.path.isEmpty (invalidPlan "encrypted secret file path is empty")
  rejectIf (!validEnvironmentVariable config.keyEnvironmentVariable)
    (invalidPlan "encrypted secret file key environment variable is invalid")
  rejectIf config.references.isEmpty
    (invalidPlan "encrypted secret file references must contain at least one mapping")
  tryForEach (fun (entry : String × String) => do
    rejectIf (!validReference entry.1)
      (invalidPlan "encrypted secret file logical reference is invalid")
    rejectIf (!validSourceName entry.2)
      (invalidPlan "encrypted secret file source name is invalid"))
    config.references.entries
  rejectIf (!withinLimit config.maxFileBytes maxFileBytes)
    (invalidPlan "max_file_bytes must be between 1 and 67108864")
  rejectIf (!withinLimit config.maxPlaintextBytes maxPlaintextBytes)
    (invalidPlan "max_plaintext_bytes must be between 1 and 16777216")
  rejectIf (!withinLimit config.maxRecords maxRecords)
    (invalidPlan "max_records must be between 1 and 100000")

/-- What `validate_config` asks of a configuration. -/
structure Validated (config : EncryptedFileConfig) : Prop where
  path : config.path.isEmpty = false
  key : validEnvironmentVariable config.keyEnvironmentVariable = true
  references : config.references.isEmpty = false
  entries : ∀ entry ∈ config.references.entries,
    validReference entry.1 = true ∧ validSourceName entry.2 = true
  fileBytes : 1 ≤ config.maxFileBytes ∧ config.maxFileBytes ≤ maxFileBytes
  plaintextBytes : 1 ≤ config.maxPlaintextBytes ∧ config.maxPlaintextBytes ≤ maxPlaintextBytes
  records : 1 ≤ config.maxRecords ∧ config.maxRecords ≤ maxRecords

theorem validateConfig_eq_ok {config : EncryptedFileConfig} :
    validateConfig config = .ok () ↔ Validated config := by
  simp only [validateConfig, bind_eq_ok, rejectIf_eq_ok, tryForEach_eq_ok, Bool.not_eq_false',
    withinLimit_iff]
  constructor
  · intro h
    obtain ⟨_, hpath, _, hkey, _, hreferences, _, hentries, _, hfile, _, hplaintext, hrecords⟩ := h
    refine ⟨hpath, hkey, hreferences, ?_, hfile, hplaintext, hrecords⟩
    intro entry hentry
    obtain ⟨_, _, hreference, hsource⟩ := hentries entry hentry
    exact ⟨hreference, hsource⟩
  · intro h
    refine ⟨(), h.path, (), h.key, (), h.references, (), ?_, (), h.fileBytes, (),
      h.plaintextBytes, h.records⟩
    intro entry hentry
    obtain ⟨hreference, hsource⟩ := h.entries entry hentry
    exact ⟨(), (), hreference, hsource⟩

structure Metadata where
  isFile : Bool
  len : ℕ
deriving DecidableEq

/-- An open handle: its metadata, if that can be had, and what reading it yields. -/
structure File where
  metadata : Option Metadata
  reader : Reader
deriving DecidableEq

inductive Access where
  /-- `OpenOptions::open` with `O_NOFOLLOW | O_CLOEXEC | O_NONBLOCK` -/
  | openNoFollow (path : OsString)
  /-- `std::env::var_os` -/
  | var (name : String)
  /-- `age::Decryptor::new`: whether the header is accepted -/
  | newDecryptor (ciphertext : List UInt8)
  /-- `Decryptor::decrypt` with a scrypt identity -/
  | decrypt (ciphertext : List UInt8) (passphrase : String)
  /-- `serde_json::from_slice`: the value parsed, if any -/
  | fromSlice (plaintext : List UInt8)
deriving DecidableEq

abbrev Access.Answer : Access → Type
  | .openNoFollow _ => Option File
  | .var _ => Option OsString
  | .newDecryptor _ => Bool
  | .decrypt _ _ => Option Reader
  | .fromSlice _ => Option Json

abbrev Loading := Fallible Access Access.Answer

section
variable {ε : Type}

def openNoFollow (path : OsString) : Loading ε (Option File) :=
  Fallible.query (Access.openNoFollow path)
def varOs (name : String) : Loading ε (Option OsString) := Fallible.query (Access.var name)
def newDecryptor (ciphertext : List UInt8) : Loading ε Bool :=
  Fallible.query (Access.newDecryptor ciphertext)
def decrypt (ciphertext : List UInt8) (passphrase : String) : Loading ε (Option Reader) :=
  Fallible.query (Access.decrypt ciphertext passphrase)
def fromSlice (plaintext : List UInt8) : Loading ε (Option Json) :=
  Fallible.query (Access.fromSlice plaintext)

end

/-- The trait `KeySource`; its error carries nothing. -/
structure KeySource where
  read : String → Loading Unit String

def environmentKeySource : KeySource where
  read name := do
    Fallible.okOr () ((← varOs name).bind fromUtf8)

/-- `cfg(unix)` -/
inductive TargetFamily where
  | unix
  | other
deriving DecidableEq

def openEncryptedFile (family : TargetFamily) (path : OsString) : Loading Unit File :=
  match family with
  | .unix => do Fallible.okOr () (← openNoFollow path)
  | .other => throw ()

/-- The bytes of the reader up to the limit, with the reader that is left. -/
def readBounded (reader : Reader) (maxBytes : ℕ) : Except Unit (List UInt8) × Reader :=
  match checkedAdd maxBytes 1 with
  | none => (.error (), reader)
  | some limit =>
    let out := takeReadToEnd limit reader
    if out.failed then (.error (), out.rest)
    else if out.bytes.isEmpty || out.bytes.length > maxBytes then (.error (), out.rest)
    else (.ok out.bytes, out.rest)

/-- The plaintext's part of `load_document_from_file`; here the limit is computed by
a cast to `u64` and a plain addition. -/
def readPlaintext (reader : Reader) (maxPlaintextBytes : ℕ) :
    Except Unit (List UInt8) × Reader :=
  let out := takeReadToEnd ((maxPlaintextBytes % 2 ^ 64 + 1) % 2 ^ 64) reader
  if out.failed then (.error (), out.rest)
  else if out.bytes.length > maxPlaintextBytes then (.error (), out.rest)
  else (.ok out.bytes, out.rest)

/-- The checks on a decoded document. -/
def rejectedDocument (config : EncryptedFileConfig) (document : FileDocument) : Bool :=
  document.version != 1
    || document.secrets.isEmpty
    || document.secrets.len > config.maxRecords
    || document.secrets.entries.any (fun entry => !validSourceName entry.1 || entry.2.isEmpty)

def loadDocumentFromFile (config : EncryptedFileConfig) (keySource : KeySource) (file : File) :
    Loading Unit FileDocument := do
  let metadata ← Fallible.okOr () file.metadata
  Fallible.ofExcept (rejectIf (!metadata.isFile) ())
  Fallible.ofExcept (rejectIf (metadata.len == 0 || metadata.len > config.maxFileBytes) ())
  let ciphertext ← Fallible.ofExcept (readBounded file.reader config.maxFileBytes).1
  let passphrase ← keySource.read config.keyEnvironmentVariable
  let accepted ← newDecryptor ciphertext
  Fallible.ofExcept (rejectIf (!accepted) ())
  let reader ← Fallible.okOr () (← decrypt ciphertext passphrase)
  let plaintext ← Fallible.ofExcept (readPlaintext reader config.maxPlaintextBytes).1
  let document ← Fallible.okOr () ((← fromSlice plaintext).bind deserialize)
  Fallible.ofExcept (rejectIf (rejectedDocument config document) ())
  pure document

def loadDocument (family : TargetFamily) (config : EncryptedFileConfig) (keySource : KeySource) :
    Loading Unit FileDocument := do
  let file ← openEncryptedFile family config.path
  loadDocumentFromFile config keySource file

def unavailable (reference : String) : RuntimeFailure :=
  .pluginFailure
    ("configured encrypted-file secret reference `" ++ reference ++ "` is unavailable")

def fileUnavailable : RuntimeFailure :=
  .pluginFailure "configured encrypted secret file is unavailable"

def resolve (family : TargetFamily) (config : EncryptedFileConfig) (keySource : KeySource)
    (reference : String) : Loading PluginError ResolveResponse :=
  if !validReference reference then
    throw (.domain .invalidReference)
  else do
    let source ← Fallible.okOr (.domain .unknownReference) (config.references.get? reference)
    let document ← Fallible.mapErr (fun _ => .runtime (unavailable reference))
      (loadDocument family config keySource)
    let value ← Fallible.okOr (.runtime (unavailable reference))
      (document.secrets.remove source).1
    pure ⟨value⟩

def verifySources (family : TargetFamily) (config : EncryptedFileConfig)
    (keySource : KeySource) : Loading RuntimeFailure Unit := do
  let document ← Fallible.mapErr (fun _ => fileUnavailable)
    (loadDocument family config keySource)
  Fallible.ofExcept (tryForEach (fun (entry : String × String) =>
    rejectIf (!document.secrets.containsKey entry.2) (unavailable entry.1))
    config.references.entries)

structure EncryptedFileSecretsPlugin where
  config : EncryptedFileConfig
  family : TargetFamily

namespace EncryptedFileSecretsPlugin

def prepare (self : EncryptedFileSecretsPlugin) : Loading RuntimeFailure Unit :=
  verifySources self.family self.config environmentKeySource

def resolve (self : EncryptedFileSecretsPlugin) (request : ResolveRequest) :
    Program Access Access.Answer Reply := do
  let result ← (EncryptedFileProvider.resolve self.family self.config environmentKeySource
    request.reference).run
  pure (PluginError.intoResult result)

/-- The load every preparation and every resolution makes. -/
def load (self : EncryptedFileSecretsPlugin) : Loading Unit FileDocument :=
  loadDocument self.family self.config environmentKeySource

end EncryptedFileSecretsPlugin

/-- A Plugin the Host accepted the configuration of. -/
structure AcceptedPlugin extends EncryptedFileSecretsPlugin where
  accepted : validateConfig config = .ok ()

namespace AcceptedPlugin

theorem valid_entry (P : AcceptedPlugin) {reference source : String}
    (h : P.config.references.get? reference = some source) :
    validReference reference = true ∧ validSourceName source = true := by
  have hv := validateConfig_eq_ok.mp P.accepted
  exact hv.entries (reference, source) (OrderedMap.get?_eq_some.mp h)

theorem exists_reference (P : AcceptedPlugin) :
    ∃ reference source, P.config.references.get? reference = some source := by
  have hreferences := (validateConfig_eq_ok.mp P.accepted).references
  obtain ⟨entry, hentry⟩ := List.exists_mem_of_ne_nil _ (List.isEmpty_eq_false_iff.mp hreferences)
  exact ⟨entry.1, entry.2, OrderedMap.get?_eq_some.mpr hentry⟩

/-- The accepted limits, none of which comes near the width of a machine word. -/
theorem limits (P : AcceptedPlugin) :
    1 ≤ P.config.maxFileBytes ∧ P.config.maxFileBytes ≤ 67108864 ∧
      1 ≤ P.config.maxPlaintextBytes ∧ P.config.maxPlaintextBytes ≤ 16777216 ∧
      1 ≤ P.config.maxRecords ∧ P.config.maxRecords ≤ 100000 := by
  have hv := validateConfig_eq_ok.mp P.accepted
  exact ⟨hv.fileBytes.1, hv.fileBytes.2, hv.plaintextBytes.1, hv.plaintextBytes.2, hv.records.1,
    hv.records.2⟩

def table (P : AcceptedPlugin) : Table String String where
  wellFormed := validReference
  bindings := P.config.references
  closed h := (P.valid_entry h).1

end AcceptedPlugin

variable (P : AcceptedPlugin) (h : History Access.Answer) (t : ℕ) {reference source : String}

/-- The value of a record: of the document a load at this moment returns. -/
def recordValue (P : AcceptedPlugin) (h : History Access.Answer) (t : ℕ) (source : String) :
    Option String :=
  (Program.result h t P.load.run).toOption.bind (fun document => document.secrets.get? source)

theorem recordValue_eq_some {P : AcceptedPlugin} {h : History Access.Answer} {t : ℕ}
    {source value : String} : recordValue P h t source = some value ↔
      ∃ document, Program.result h t P.load.run = .ok document ∧
        document.secrets.get? source = some value := by
  unfold recordValue
  cases Program.result h t P.load.run <;> simp [Except.toOption]

theorem resolve_eq_of_unbound (hb : P.config.references.get? reference = none) :
    (EncryptedFileProvider.resolve P.family P.config environmentKeySource reference).run =
      .done (.error (.domain
        (if validReference reference then .unknownReference else .invalidReference))) := by
  cases hv : validReference reference <;>
    simp only [EncryptedFileProvider.resolve, hv, hb] <;> rfl

theorem resolve_eq_of_bound (hb : P.config.references.get? reference = some source) :
    (EncryptedFileProvider.resolve P.family P.config environmentKeySource reference).run =
      P.load.run >>= fun loaded => .done (((loaded.toOption.bind fun document =>
        document.secrets.get? source).elim (.error (.runtime (unavailable reference)))
          (fun value => .ok ⟨value⟩))) := by
  have hv := (P.valid_entry hb).1
  simp only [EncryptedFileProvider.resolve, hv, hb, Bool.not_true, Bool.false_eq_true, if_false,
    Fallible.okOr_bind]
  rw [Fallible.run_bind, Fallible.run_mapErr, bind_assoc]
  refine congrArg _ (funext fun loaded => ?_)
  cases loaded with
  | error e => rfl
  | ok document =>
    change (Fallible.okOr _ (document.secrets.get? source) >>= _).run = _
    cases hs : document.secrets.get? source with
    | none => simp only [Except.toOption, Option.bind_some, hs]; rfl
    | some value => simp only [Except.toOption, Option.bind_some, hs]; rfl

/-- A resolution answers like the table over the records of the document it loads. -/
theorem result_resolve (reference : String) :
    Program.result h t (P.resolve ⟨reference⟩) =
      replyOf (unavailable reference) (P.table.answer (recordValue P h t) reference) := by
  simp only [EncryptedFileSecretsPlugin.resolve, Program.result_bind, Program.pure_eq_done,
    Program.result_done]
  cases hb : P.config.references.get? reference with
  | none =>
    rw [resolve_eq_of_unbound P hb, Table.answer_of_unbound (T := P.table) hb, Program.result_done]
    cases hv : validReference reference <;> simp only [AcceptedPlugin.table, hv] <;> rfl
  | some source =>
    rw [resolve_eq_of_bound P hb, Table.answer_of_bound (T := P.table) hb, Program.result_bind,
      Program.result_done]
    change PluginError.intoResult ((recordValue P h t source).elim _ _) = _
    cases recordValue P h t source <;> rfl

/-- It loads the document for a bound reference, and does nothing for any other string. -/
theorem transcript_resolve (reference : String) :
    Program.transcript h t (P.resolve ⟨reference⟩) =
      if (P.config.references.get? reference).isSome then Program.transcript h t P.load.run
      else [] := by
  simp only [EncryptedFileSecretsPlugin.resolve, Program.transcript_bind, Program.pure_eq_done,
    Program.transcript_done, List.append_nil]
  cases hb : P.config.references.get? reference with
  | none =>
    rw [resolve_eq_of_unbound P hb]
    rfl
  | some source =>
    rw [resolve_eq_of_bound P hb, Program.transcript_bind, Program.transcript_done,
      List.append_nil, Option.isSome_some, if_pos rfl]

/-- A preparation fails as a whole or is the table's verification over the document. -/
theorem result_prepare :
    Program.result h t P.prepare.run = match Program.result h t P.load.run with
      | .error _ => .error fileUnavailable
      | .ok document => P.table.verify unavailable document.secrets.get? := by
  have hload : loadDocument P.family P.config environmentKeySource = P.load := rfl
  rw [EncryptedFileSecretsPlugin.prepare, verifySources, Fallible.result_run_bind,
    Fallible.result_mapErr, hload]
  cases Program.result h t P.load.run with
  | error e => rfl
  | ok document =>
    refine tryForEach_congr (fun e _ => ?_)
    simp only [OrderedMap.containsKey]
    cases document.secrets.get? e.2 <;> rfl

/-- One reference bound to one record. -/
def singleReference : AcceptedPlugin where
  config :=
    { path := bytes "/secrets.age"
      keyEnvironmentVariable := "KEY"
      references := OrderedMap.ofEntries [("db/password", "a")]
      maxFileBytes := 1024
      maxPlaintextBytes := 1024
      maxRecords := 16 }
  family := .unix
  accepted := by decide

end LensoSecrets.EncryptedFileProvider
