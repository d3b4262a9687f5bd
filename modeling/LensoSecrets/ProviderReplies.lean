import LensoSecrets.CommandReplies
import LensoSecrets.EncryptedFileLoads
import LensoSecrets.EnvironmentProvider
import LensoSecrets.KeychainProvider

/-!
# The failure model of the four Providers

Every Provider answers like the table of its configuration over the values of its own
sources, so all four have one failure model, and what a failure says depends on the
configuration, the reference and availability alone.
-/
namespace LensoSecrets.ProviderReplies
open CapabilityContract OrderedMaps ProviderContract QueryPrograms ResolutionTables

section Environment
open EnvironmentProvider

variable (C : AcceptedConfig) (h : History Access.Answer) (o : Oracle Access.Answer) (t : ℕ)

theorem environment_failureModel (reference : String) :
    FailureModel validReference C.config.sources
      (fun name value => variableValue (h t) name = some value) reference
      (Program.result h t (C.provider.resolve ⟨reference⟩)) := by
  rw [result_resolve]
  apply failureModel_replyOf C.table
  intro name value
  rfl

theorem environment_eval_resolve (reference : String) :
    Program.eval o (C.provider.resolve ⟨reference⟩) =
      replyOf (unavailable reference) (C.table.answer (variableValue o) reference) := by
  rw [← Program.result_constant o 0]
  exact result_resolve C _ 0 reference

end Environment

section Keychain
open KeychainProvider

variable (P : AcceptedPlugin) (h : History Access.Answer) (o : Oracle Access.Answer) (t : ℕ)

theorem keychain_failureModel (reference : String) :
    FailureModel validReference P.config.references
      (fun account value => P.itemValue (h t) account = some value) reference
      (Program.result h t (P.resolve ⟨reference⟩)) := by
  rw [result_resolve]
  apply failureModel_replyOf P.table
  intro account value
  rfl

theorem keychain_eval_resolve (reference : String) :
    Program.eval o (P.resolve ⟨reference⟩) =
      replyOf (unavailable reference) (P.table.answer (P.itemValue o) reference) := by
  rw [← Program.result_constant o 0]
  exact result_resolve P _ 0 reference

/-- A resolution reads at most the account bound to the reference. -/
theorem keychain_reads {reference : String} {e : Σ q : Access, Access.Answer q}
    (he : e ∈ Program.transcript h t (P.resolve ⟨reference⟩)) :
    ∃ account, P.config.references.get? reference = some account ∧
      e.1 = .genericPassword P.config.service account := by
  rw [transcript_resolve] at he
  cases hb : P.config.references.get? reference with
  | none =>
    rw [hb] at he
    exact absurd he List.not_mem_nil
  | some account =>
    rw [hb] at he
    cases ht : P.target with
    | macos =>
      rw [ht] at he
      rw [List.mem_singleton.mp he]
      exact ⟨account, rfl, rfl⟩
    | other =>
      rw [ht] at he
      exact absurd he List.not_mem_nil

end Keychain

section EncryptedFile
open EncryptedFileProvider

variable (P : AcceptedPlugin) (h : History Access.Answer) (o : Oracle Access.Answer) (t : ℕ)

theorem encryptedFile_failureModel (reference : String) :
    FailureModel validReference P.config.references (RecordHeld P h t) reference
      (Program.result h t (P.resolve ⟨reference⟩)) := by
  rw [result_resolve]
  apply failureModel_replyOf P.table
  intro source value
  exact recordHeld_iff P h t

/-- Of the document on the path a resolution selects only the record bound to the reference. -/
theorem encryptedFile_selects {reference source : String} {document : FileDocuments.FileDocument}
    (hb : P.config.references.get? reference = some source) (hheld : DocumentHeld P h t document) :
    Program.result h t (P.resolve ⟨reference⟩) =
      (document.secrets.get? source).elim (.error (unavailable reference))
        (fun value => .ok (.ok ⟨value⟩)) := by
  have hrecord : recordValue P h t source = document.secrets.get? source := by
    rw [recordValue, (load_iff_documentHeld P h t).mpr hheld]
    rfl
  rw [result_resolve, Table.answer_of_bound (T := P.table) hb, hrecord]
  cases document.secrets.get? source <;> rfl

theorem encryptedFile_eval_resolve (reference : String) :
    Program.eval o (P.resolve ⟨reference⟩) = replyOf (unavailable reference)
      (P.table.answer (recordValue P (fun _ => o) 0) reference) := by
  rw [← Program.result_constant o 0]
  exact result_resolve P _ 0 reference

theorem encryptedFile_eval_prepare :
    Program.eval o P.prepare.run = match Program.eval o P.load.run with
      | .error _ => .error fileUnavailable
      | .ok document => P.table.verify unavailable document.secrets.get? := by
  rw [← Program.result_constant o 0, ← Program.result_constant o 0]
  exact result_prepare P _ 0

/-- The records of a snapshot are those of the document that loads in it. -/
theorem recordValue_of_load {document : FileDocuments.FileDocument}
    (hload : Program.eval o P.load.run = .ok document) :
    recordValue P (fun _ => o) 0 = document.secrets.get? := by
  funext source
  rw [recordValue, Program.result_constant, hload]
  rfl

theorem encryptedFile_prepare_eq {o o' : Oracle Access.Answer}
    (hsame : SameAvailability P.config.references
      (fun reference => Program.eval o (P.resolve ⟨reference⟩))
      (fun reference => Program.eval o' (P.resolve ⟨reference⟩)))
    (hload : (∃ document, Program.eval o P.load.run = .ok document) ↔
      ∃ document, Program.eval o' P.load.run = .ok document) :
    Program.eval o P.prepare.run = Program.eval o' P.prepare.run := by
  simp only [encryptedFile_eval_resolve] at hsame
  have hverify := verify_eq_of_sameAvailability (T := P.table) hsame
  rw [encryptedFile_eval_prepare, encryptedFile_eval_prepare]
  cases hl : Program.eval o P.load.run with
  | error e =>
    cases hl' : Program.eval o' P.load.run with
    | error e' => rfl
    | ok document' => simp [hl, hl'] at hload
  | ok document =>
    cases hl' : Program.eval o' P.load.run with
    | error e' => simp [hl, hl'] at hload
    | ok document' =>
      rw [recordValue_of_load P o hl, recordValue_of_load P o' hl'] at hverify
      exact hverify

end EncryptedFile

section Command
open CommandProvider

variable (C : AcceptedConfig) (prepared : Option PreparedProgram) (h : History Access.Answer)
variable (t : ℕ)

theorem command_eval_resolve (o : Oracle Access.Answer) (reference : String) :
    Program.eval o (C.resolveAlone prepared ⟨reference⟩) =
      replyOf (failureOf prepared reference)
        (C.table.answer (C.resolverValue prepared (fun _ => o) 0) reference) := by
  rw [← Program.result_constant o 0]
  exact result_resolveAlone C prepared _ 0 reference

/-- With the same program file, preparations tell apart only which references resolve. -/
theorem command_prepare_eq {o o' : Oracle Access.Answer} (cell : Option PreparedProgram)
    (hpath : o (.canonicalize C.program) = o' (.canonicalize C.program))
    (hfile : ∀ path, o (.isFile path) = o' (.isFile path))
    (hsame : ∀ executable, o (.canonicalize C.program) = some executable →
      SameAvailability C.references
        (fun reference => Program.eval o (C.resolveAlone (some ⟨executable⟩) ⟨reference⟩))
        (fun reference => Program.eval o' (C.resolveAlone (some ⟨executable⟩) ⟨reference⟩))) :
    Program.eval o (C.prepareAlone cell) = Program.eval o' (C.prepareAlone cell) := by
  rw [eval_prepareAlone, eval_prepareAlone, ← hpath]
  cases hp : o (.canonicalize C.program) with
  | none => rfl
  | some executable =>
    have havailable := hsame executable hp
    simp only [command_eval_resolve] at havailable
    have hverify :
        C.table.verify unavailable (C.resolverValue (some ⟨executable⟩) (fun _ => o) 0) =
          C.table.verify unavailable (C.resolverValue (some ⟨executable⟩) (fun _ => o') 0) :=
      verify_eq_of_sameAvailability (T := C.table) havailable
    simp only [hfile, hverify]

theorem command_failureModel (reference : String) :
    FailureModel validReference C.references (C.HandsOver prepared h t) reference
      (Program.result h t (C.resolveAlone prepared ⟨reference⟩)) := by
  rw [result_resolveAlone]
  apply failureModel_replyOf C.table
  intro source value
  exact handsOver_iff C prepared h t

end Command

/-- The decision table of `lenso.secrets@1` for the four Providers, at any moment of any
history of their sources: malformed exactly if the reference is, unknown exactly if it is
not configured, a Runtime failure exactly if the source it is bound to is unavailable, and
otherwise that source's value. A variable and an item have the value their query is answered
with, a record the one in the document the path holds, and a source of the resolver the one
the command returns for it, if a thread is started for it and the message arrives. Nothing is
touched for a reference that is malformed or unknown, and no variable, account, record or
command argument but the bound one. -/
theorem failure_model :
    (∀ (C : EnvironmentProvider.AcceptedConfig) h t reference,
      FailureModel EnvironmentProvider.validReference C.config.sources
        (fun name value => EnvironmentProvider.variableValue (h t) name = some value) reference
        (Program.result h t (C.provider.resolve ⟨reference⟩)) ∧
      ∀ e ∈ Program.transcript h t (C.provider.resolve ⟨reference⟩),
        ∃ name, C.config.sources.get? reference = some name ∧ e.1 = .var name) ∧
    (∀ (P : KeychainProvider.AcceptedPlugin) h t reference,
      FailureModel KeychainProvider.validReference P.config.references
        (fun account value => P.itemValue (h t) account = some value) reference
        (Program.result h t (P.resolve ⟨reference⟩)) ∧
      ∀ e ∈ Program.transcript h t (P.resolve ⟨reference⟩),
        ∃ account, P.config.references.get? reference = some account ∧
          e.1 = .genericPassword P.config.service account) ∧
    (∀ (P : EncryptedFileProvider.AcceptedPlugin) h t reference,
      FailureModel EncryptedFileProvider.validReference P.config.references
        (EncryptedFileProvider.RecordHeld P h t) reference
        (Program.result h t (P.resolve ⟨reference⟩)) ∧
      (P.config.references.get? reference = none →
        Program.transcript h t (P.resolve ⟨reference⟩) = []) ∧
      ∀ source document, P.config.references.get? reference = some source →
        EncryptedFileProvider.DocumentHeld P h t document →
        Program.result h t (P.resolve ⟨reference⟩) =
          (document.secrets.get? source).elim
            (.error (EncryptedFileProvider.unavailable reference))
            (fun value => .ok (.ok ⟨value⟩))) ∧
    (∀ (C : CommandProvider.AcceptedConfig) prepared h t reference,
      FailureModel CommandProvider.validReference C.references (C.HandsOver prepared h t)
        reference (Program.result h t (C.resolveAlone prepared ⟨reference⟩)) ∧
      (C.references.get? reference = none ∨ prepared = none →
        Program.transcript h t (C.resolveAlone prepared ⟨reference⟩) = []) ∧
      ∀ process child, ⟨.spawn process, child⟩ ∈
          Program.transcript h t (C.resolveAlone prepared ⟨reference⟩) →
        ∃ source executable, C.references.get? reference = some source ∧
          prepared = some ⟨executable⟩ ∧ process.program = executable ∧
          process.arguments = C.arguments.map (fun argument =>
            if argument == CommandProvider.sourcePlaceholder then source else argument)) := by
  refine ⟨?_, ?_, ?_, ?_⟩
  · intro C h t reference
    refine ⟨environment_failureModel C h t reference, ?_⟩
    intro e he
    rw [EnvironmentProvider.transcript_resolve] at he
    obtain ⟨name, hname, rfl⟩ := List.mem_map.mp he
    exact ⟨name, Option.mem_toList.mp hname, rfl⟩
  · intro P h t reference
    refine ⟨keychain_failureModel P h t reference, ?_⟩
    intro e he
    exact keychain_reads P h t he
  · intro P h t reference
    refine ⟨encryptedFile_failureModel P h t reference, ?_, ?_⟩
    · intro hb
      rw [EncryptedFileProvider.transcript_resolve, hb]
      rfl
    · intro source document hb hheld
      exact encryptedFile_selects P h t hb hheld
  · intro C prepared h t reference
    refine ⟨command_failureModel C prepared h t reference, ?_, ?_⟩
    · intro hnone
      rw [CommandProvider.transcript_resolveAlone]
      rcases hnone with hb | rfl
      · rw [hb]
      · cases C.references.get? reference <;> rfl
    · intro process child hspawn
      exact CommandProvider.spawned_resolveAlone C prepared h t reference hspawn

def oneRecordJson : FileDocuments.Json :=
  .object [("version", .number (.unsigned 1)), ("secrets", .object [("a", .string "z")])]

/-- A container of one byte with its passphrase, whose plaintext is parsed to one record. -/
def oneRecord : EncryptedFileProvider.Opening := ⟨[0], "passphrase", [.data 1 []], oneRecordJson⟩

def oneRecordAnswers : Oracle EncryptedFileProvider.Access.Answer
  | .openNoFollow _ => some ⟨some ⟨true, 1⟩, [.data 0 []]⟩
  | .var _ => some (StandardLibrary.bytes oneRecord.passphrase)
  | .newDecryptor ciphertext => ciphertext == oneRecord.container
  | .decrypt ciphertext passphrase =>
    if ciphertext = oneRecord.container ∧ passphrase = oneRecord.passphrase then
      some oneRecord.stream
    else none
  | .fromSlice plaintext => if plaintext = [1] then some oneRecordJson else none

theorem documentHeld_oneRecord : EncryptedFileProvider.DocumentHeld
    EncryptedFileProvider.singleReference (fun _ => oneRecordAnswers) 0
    ⟨1, OrderedMap.ofEntries [("a", "z")]⟩ := by
  refine ⟨oneRecord, ?_, by decide, ?_⟩
  · constructor
    · rfl
    · exact ⟨_, _, rfl, rfl, rfl, by decide, by decide, rfl, rfl, by decide, by decide⟩
    · exact StandardLibrary.fromUtf8_bytes _
    · rfl
    · rfl
    · rfl
    · decide
    · rfl
  · exact EncryptedFileProvider.rejectedDocument_eq_false.mp (by decide)

theorem failure_model_of_value :
    Program.result (fun _ _ => some (StandardLibrary.bytes "x")) 0
      (EnvironmentProvider.singleReference.provider.resolve ⟨"a"⟩) = .ok (.ok ⟨"x"⟩) ∧
    Program.result (fun _ _ => some (StandardLibrary.bytes "y")) 0
      (KeychainProvider.singleReference.resolve ⟨"a"⟩) = .ok (.ok ⟨"y"⟩) ∧
    Program.result (fun _ => oneRecordAnswers) 0
      (EncryptedFileProvider.singleReference.resolve ⟨"db/password"⟩) = .ok (.ok ⟨"z"⟩) ∧
    Program.result (fun _ => CommandProvider.printingAnswers) 0
      (CommandProvider.singleReference.resolveAlone
        (some ⟨StandardLibrary.bytes "/bin/resolver"⟩) ⟨"a"⟩) = .ok (.ok ⟨"v"⟩) := by
  obtain ⟨henvironment, hkeychain, hfile, hcommand⟩ := failure_model
  refine ⟨?_, ?_, ?_, ?_⟩
  · have hvalue : EnvironmentProvider.variableValue
        (fun _ => some (StandardLibrary.bytes "x")) "A" = some "x" :=
      StandardLibrary.fromUtf8_bytes "x"
    exact ((henvironment _ _ _ _).1.value "x").mpr ⟨"A", by decide, hvalue⟩
  · have hvalue : KeychainProvider.singleReference.itemValue
        (fun _ => some (StandardLibrary.bytes "y")) "A" = some "y" :=
      StandardLibrary.fromUtf8_bytes "y"
    exact ((hkeychain _ _ _ _).1.value "y").mpr ⟨"A", by decide, hvalue⟩
  · exact (hfile _ _ _ _).2.2 "a" _ (by decide) documentHeld_oneRecord
  · have hrun : Program.result (fun _ => CommandProvider.printingAnswers) 1
        (CommandProvider.runCommand (CommandProvider.commandRequest
          CommandProvider.singleReference.toCommandConfig
          ⟨StandardLibrary.bytes "/bin/resolver"⟩ "A")).run = .ok "v" := by
      have hpath : CommandProvider.printingAnswers
          (.canonicalize CommandProvider.singleReference.program) =
            some (StandardLibrary.bytes "/bin/resolver") := rfl
      rw [CommandProvider.result_runCommand]
      exact (if_pos hpath).trans (CommandProvider.superviseChild_printingChild (by decide))
    exact ((hcommand _ _ _ _ _).1.value "v").mpr
      ⟨"A", by decide, ⟨StandardLibrary.bytes "/bin/resolver"⟩, rfl, rfl, hrun, rfl⟩

/-- Two failing resolutions of one reference report the same failure, at any moments of
any two histories of the sources. In any two snapshots in which the same references
resolve, and for the encrypted file in which the document loads in both or in neither,
preparations report the same. -/
theorem failures_carry_no_secret :
    (∀ C : EnvironmentProvider.AcceptedConfig,
      (∀ h h' t t' reference, SameFailures (Program.result h t (C.provider.resolve ⟨reference⟩))
        (Program.result h' t' (C.provider.resolve ⟨reference⟩))) ∧
      ∀ o o', SameAvailability C.config.sources
          (fun reference => Program.eval o (C.provider.resolve ⟨reference⟩))
          (fun reference => Program.eval o' (C.provider.resolve ⟨reference⟩)) →
        Program.eval o C.provider.verifySources.run =
          Program.eval o' C.provider.verifySources.run) ∧
    (∀ P : KeychainProvider.AcceptedPlugin,
      (∀ h h' t t' reference, SameFailures (Program.result h t (P.resolve ⟨reference⟩))
        (Program.result h' t' (P.resolve ⟨reference⟩))) ∧
      ∀ o o', SameAvailability P.config.references
          (fun reference => Program.eval o (P.resolve ⟨reference⟩))
          (fun reference => Program.eval o' (P.resolve ⟨reference⟩)) →
        Program.eval o P.prepare.run = Program.eval o' P.prepare.run) ∧
    (∀ P : EncryptedFileProvider.AcceptedPlugin,
      (∀ h h' t t' reference, SameFailures (Program.result h t (P.resolve ⟨reference⟩))
        (Program.result h' t' (P.resolve ⟨reference⟩))) ∧
      ∀ o o', SameAvailability P.config.references
          (fun reference => Program.eval o (P.resolve ⟨reference⟩))
          (fun reference => Program.eval o' (P.resolve ⟨reference⟩)) →
        ((∃ document, Program.eval o P.load.run = .ok document) ↔
          ∃ document, Program.eval o' P.load.run = .ok document) →
        Program.eval o P.prepare.run = Program.eval o' P.prepare.run) ∧
    (∀ C : CommandProvider.AcceptedConfig,
      (∀ prepared h h' t t' reference,
        SameFailures (Program.result h t (C.resolveAlone prepared ⟨reference⟩))
          (Program.result h' t' (C.resolveAlone prepared ⟨reference⟩))) ∧
      ∀ (o o' : Oracle CommandProvider.Access.Answer) cell,
        o (.canonicalize C.program) = o' (.canonicalize C.program) →
        (∀ path, o (.isFile path) = o' (.isFile path)) →
        (∀ executable, o (.canonicalize C.program) = some executable →
          SameAvailability C.references
            (fun reference => Program.eval o (C.resolveAlone (some ⟨executable⟩) ⟨reference⟩))
            (fun reference => Program.eval o' (C.resolveAlone (some ⟨executable⟩) ⟨reference⟩))) →
        Program.eval o (C.prepareAlone cell) = Program.eval o' (C.prepareAlone cell)) := by
  refine ⟨?_, ?_, ?_, ?_⟩
  · intro C
    refine ⟨?_, ?_⟩
    · intro h h' t t' reference
      rw [EnvironmentProvider.result_resolve, EnvironmentProvider.result_resolve]
      apply sameFailures_replyOf
    · intro o o' hsame
      simp only [environment_eval_resolve] at hsame
      rw [EnvironmentProvider.eval_verifySources, EnvironmentProvider.eval_verifySources]
      exact verify_eq_of_sameAvailability (T := C.table) hsame
  · intro P
    refine ⟨?_, ?_⟩
    · intro h h' t t' reference
      rw [KeychainProvider.result_resolve, KeychainProvider.result_resolve]
      apply sameFailures_replyOf
    · intro o o' hsame
      simp only [keychain_eval_resolve] at hsame
      rw [KeychainProvider.eval_prepare, KeychainProvider.eval_prepare]
      exact verify_eq_of_sameAvailability (T := P.table) hsame
  · intro P
    refine ⟨?_, ?_⟩
    · intro h h' t t' reference
      rw [EncryptedFileProvider.result_resolve, EncryptedFileProvider.result_resolve]
      apply sameFailures_replyOf
    · intro o o' hsame hload
      exact encryptedFile_prepare_eq P hsame hload
  · intro C
    refine ⟨?_, ?_⟩
    · intro prepared h h' t t' reference
      rw [CommandProvider.result_resolveAlone, CommandProvider.result_resolveAlone]
      apply sameFailures_replyOf
    · intro o o' cell hpath hfile hsame
      exact command_prepare_eq C cell hpath hfile hsame

/-- A variable that is not set and one that is not UTF-8 fail alike. -/
theorem unset_and_invalid_fail_alike :
    Program.eval (fun _ => none)
        EnvironmentProvider.singleReference.provider.verifySources.run =
      Program.eval (fun _ => some [0xFF])
        EnvironmentProvider.singleReference.provider.verifySources.run := by
  refine (failures_carry_no_secret.1 EnvironmentProvider.singleReference).2 _ _ ?_
  intro reference name hb
  have hentry : (reference, name) ∈ [("a", "A")] := OrderedMap.mem_of_get?_ofEntries hb
  obtain ⟨rfl, rfl⟩ := Prod.mk.inj (List.mem_singleton.mp hentry)
  have hinvalid : EnvironmentProvider.variableValue (fun _ => some [0xFF]) "A" = none := by decide
  have hunset : EnvironmentProvider.variableValue (fun _ => none) "A" = none := rfl
  simp only [environment_eval_resolve]
  rw [exists_value_iff (T := EnvironmentProvider.singleReference.table) hb,
    exists_value_iff (T := EnvironmentProvider.singleReference.table) hb, hinvalid, hunset]

end LensoSecrets.ProviderReplies
