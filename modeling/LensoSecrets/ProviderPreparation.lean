import LensoSecrets.DocumentRecords
import LensoSecrets.ProviderReplies

/-!
# What a successful preparation promises

In a snapshot of its sources each Provider's preparation succeeds exactly when every
configured reference resolves. The encrypted-file and command Providers hold no empty
secret at all; the Environment and Keychain Providers hold one exactly when a configured
variable or item is empty.
-/
namespace LensoSecrets.ProviderPreparation
open CapabilityContract OrderedMaps ProviderContract ProviderReplies QueryPrograms
open ResolutionTables

/-- A document that does not load is reported as a whole, and no reference resolves. -/
theorem encryptedFile_of_load_error {P : EncryptedFileProvider.AcceptedPlugin}
    {o : Oracle EncryptedFileProvider.Access.Answer} {e : Unit}
    (hload : Program.eval o P.load.run = .error e) :
    Program.eval o P.prepare.run = .error EncryptedFileProvider.fileUnavailable ∧
    ∀ reference source, P.config.references.get? reference = some source →
      Program.eval o (P.resolve ⟨reference⟩) =
        .error (EncryptedFileProvider.unavailable reference) := by
  refine ⟨?_, ?_⟩
  · rw [encryptedFile_eval_prepare, hload]
  · intro reference source hb
    have hnone : EncryptedFileProvider.recordValue P (fun _ => o) 0 source = none := by
      rw [EncryptedFileProvider.recordValue, Program.result_constant, hload]
      rfl
    rw [encryptedFile_eval_resolve, Table.answer_of_bound (T := P.table) hb, hnone]
    rfl

theorem encryptedFile_predicts {P : EncryptedFileProvider.AcceptedPlugin}
    {o : Oracle EncryptedFileProvider.Access.Answer} {document : FileDocuments.FileDocument}
    (hload : Program.eval o P.load.run = .ok document) :
    PredictsResolution P.config.references (Program.eval o P.prepare.run)
      (fun reference => Program.eval o (P.resolve ⟨reference⟩)) := by
  simp only [encryptedFile_eval_resolve, encryptedFile_eval_prepare, hload,
    recordValue_of_load P o hload]
  exact predictsResolution_replyOf P.table _ _

/-- Whether the document loads or not: some reference is configured, so that a preparation
that fails as a whole has a reference that does not resolve. -/
theorem encryptedFile_prepare_eq_ok {P : EncryptedFileProvider.AcceptedPlugin}
    {o : Oracle EncryptedFileProvider.Access.Answer} :
    Program.eval o P.prepare.run = .ok () ↔
      ∀ reference source, P.config.references.get? reference = some source →
        ∃ v, Program.eval o (P.resolve ⟨reference⟩) = .ok (.ok v) := by
  cases hload : Program.eval o P.load.run with
  | ok document => exact (encryptedFile_predicts hload).succeeds
  | error e =>
    obtain ⟨hprepare, hresolve⟩ := encryptedFile_of_load_error hload
    rw [hprepare]
    constructor
    · intro h
      cases h
    · intro h
      obtain ⟨reference, source, hb⟩ := P.exists_reference
      obtain ⟨v, hv⟩ := h reference source hb
      rw [hresolve reference source hb] at hv
      cases hv

/-- In unchanging sources, or for the command Provider once its program is pinned and
while what the resolver returns for a source stays the same, a preparation succeeds
exactly when every configured reference resolves, and otherwise reports what the least
unresolved reference reports. Only an encrypted file that does not load is reported as a
whole, and then no configured reference resolves. -/
theorem preparation_predicts_resolution :
    (∀ (C : EnvironmentProvider.AcceptedConfig) o,
      PredictsResolution C.config.sources (Program.eval o C.provider.verifySources.run)
        (fun reference => Program.eval o (C.provider.resolve ⟨reference⟩))) ∧
    (∀ (P : KeychainProvider.AcceptedPlugin) o,
      PredictsResolution P.config.references (Program.eval o P.prepare.run)
        (fun reference => Program.eval o (P.resolve ⟨reference⟩))) ∧
    (∀ (P : EncryptedFileProvider.AcceptedPlugin) o,
      (Program.eval o P.prepare.run = .ok () ↔
        ∀ reference source, P.config.references.get? reference = some source →
          ∃ v, Program.eval o (P.resolve ⟨reference⟩) = .ok (.ok v)) ∧
      (∀ document, Program.eval o P.load.run = .ok document →
        PredictsResolution P.config.references (Program.eval o P.prepare.run)
          (fun reference => Program.eval o (P.resolve ⟨reference⟩))) ∧
      ∀ e, Program.eval o P.load.run = .error e →
        Program.eval o P.prepare.run = .error EncryptedFileProvider.fileUnavailable ∧
        ∀ reference source, P.config.references.get? reference = some source →
          Program.eval o (P.resolve ⟨reference⟩) =
            .error (EncryptedFileProvider.unavailable reference)) ∧
    (∀ (C : CommandProvider.AcceptedConfig) (h : History CommandProvider.Access.Answer) t
        executable (outcome : String → Except Unit String),
      h t (.canonicalize C.program) = some executable →
      h (t + 1) (.isFile executable) = true →
      (∀ s source, Program.result h s (C.resolverRun ⟨executable⟩ source) = outcome source) →
      ∀ cell, (Program.result h t (C.prepareAlone cell)).2 = some ⟨executable⟩ ∧
        ∀ s, PredictsResolution C.references (Program.result h t (C.prepareAlone cell)).1
          (fun reference =>
            Program.result h s (C.resolveAlone (some ⟨executable⟩) ⟨reference⟩))) := by
  refine ⟨?_, ?_, ?_, ?_⟩
  · intro C o
    simp only [environment_eval_resolve, EnvironmentProvider.eval_verifySources]
    exact predictsResolution_replyOf C.table _ _
  · intro P o
    simp only [keychain_eval_resolve, KeychainProvider.eval_prepare]
    exact predictsResolution_replyOf P.table _ _
  · intro P o
    refine ⟨encryptedFile_prepare_eq_ok, ?_, ?_⟩
    · intro document hload
      exact encryptedFile_predicts hload
    · intro e hload
      exact encryptedFile_of_load_error hload
  · intro C h t executable outcome hpath hfile hfixed cell
    have hvalue : ∀ s source, C.resolverValue (some ⟨executable⟩) h s source =
        (outcome source).toOption := by
      intro s source
      rw [← hfixed s source]
      rfl
    rw [CommandProvider.result_prepareAlone C h t hpath hfile hvalue cell]
    refine ⟨rfl, ?_⟩
    intro s
    have hsource : C.resolverValue (some ⟨executable⟩) h s = fun source =>
        (outcome source).toOption := funext (hvalue s)
    simp only [CommandProvider.result_resolveAlone, hsource]
    exact predictsResolution_replyOf C.table _ (CommandProvider.failureOf (some ⟨executable⟩))

def threeReferences : CommandProvider.AcceptedConfig where
  program := StandardLibrary.bytes "/bin/resolver"
  arguments := [CommandProvider.sourcePlaceholder]
  environmentAllowlist := []
  references := OrderedMap.ofEntries [("c", "C"), ("a", "A"), ("b", "B")]
  timeoutMs := 1000
  maxOutputBytes := 1024
  accepted := by decide

/-- The resolver prints a value for every source but `B`, for which it does not start. -/
def missingAnswers : Oracle CommandProvider.Access.Answer
  | .canonicalize path => some path
  | .isFile _ => true
  | .spawnThread => true
  | .varOs _ => none
  | .spawn process =>
    if process.arguments = ["B"] then none else some CommandProvider.printingChild
  | .receive => true

theorem result_resolverRun_missing (s : ℕ) (source : String) :
    Program.result (fun _ => missingAnswers) s
      (threeReferences.resolverRun ⟨StandardLibrary.bytes "/bin/resolver"⟩ source) =
        if source = "B" then .error () else .ok "v" := by
  have hpath : missingAnswers (.canonicalize threeReferences.program) =
    some (StandardLibrary.bytes "/bin/resolver") := rfl
  have hstarted : missingAnswers .spawnThread = true := rfl
  have hreceived : missingAnswers .receive = true := rfl
  have harguments : [source] = ["B"] ↔ source = "B" := by simp
  rw [CommandProvider.AcceptedConfig.resolverRun]
  change Program.result _ s (CommandProvider.resolverThread _).run = _
  rw [CommandProvider.resolverThread_eq, Program.result_ask, if_pos hstarted, Program.result_bind,
    Program.result_ask, Program.result_done, if_pos hreceived, CommandProvider.result_runCommand]
  refine (if_pos hpath).trans ?_
  change Option.elim (if [source] = ["B"] then none else some CommandProvider.printingChild) _ _ = _
  have hfit : 2 ≤ threeReferences.maxOutputBytes := by decide
  simp only [harguments]
  split_ifs with hsource
  · rfl
  · exact CommandProvider.superviseChild_printingChild hfit

/-- With the second source missing, a preparation reports the second reference although the
first and the third one resolve. -/
theorem missing_preparation :
    (Program.result (fun _ => missingAnswers) 0 (threeReferences.prepareAlone none)).1 =
      .error (CommandProvider.unavailable "b") ∧
    ∀ reference ∈ ["a", "c"], Program.result (fun _ => missingAnswers) 0
      (threeReferences.resolveAlone (some ⟨StandardLibrary.bytes "/bin/resolver"⟩) ⟨reference⟩) =
        .ok (.ok ⟨"v"⟩) := by
  have hpredicts := (preparation_predicts_resolution.2.2.2 threeReferences
    (fun _ => missingAnswers) 0 (StandardLibrary.bytes "/bin/resolver")
    (fun source => if source = "B" then .error () else .ok "v") rfl rfl
    result_resolverRun_missing none).2 0
  have hreply : ∀ reference source, threeReferences.references.get? reference = some source →
      Program.result (fun _ => missingAnswers) 0 (threeReferences.resolveAlone
        (some ⟨StandardLibrary.bytes "/bin/resolver"⟩) ⟨reference⟩) =
          if source = "B" then .error (CommandProvider.unavailable reference)
          else .ok (.ok ⟨"v"⟩) := by
    intro reference source hb
    rw [CommandProvider.result_resolveAlone, Table.answer_of_bound (T := threeReferences.table) hb,
      CommandProvider.AcceptedConfig.resolverValue, Option.bind_some, result_resolverRun_missing]
    split_ifs <;> rfl
  have hb : threeReferences.references.get? "b" = some "B" := by decide
  refine ⟨?_, ?_⟩
  · cases hprepare : (Program.result (fun _ => missingAnswers) 0
        (threeReferences.prepareAlone none)).1 with
    | ok u =>
      obtain ⟨v, hv⟩ := hpredicts.succeeds.mp hprepare "b" "B" hb
      rw [hreply "b" "B" hb] at hv
      cases hv
    | error failure =>
      obtain ⟨reference, source, hb', hfailure, -⟩ := hpredicts.fails failure hprepare
      have hentry : (reference, source) ∈ [("c", "C"), ("a", "A"), ("b", "B")] :=
        OrderedMap.mem_of_get?_ofEntries hb'
      rw [hreply reference source hb'] at hfailure
      simp only [List.mem_cons, Prod.mk.injEq, List.not_mem_nil, or_false] at hentry
      obtain ⟨rfl, rfl⟩ | ⟨rfl, rfl⟩ | ⟨rfl, rfl⟩ := hentry
      · cases hfailure
      · cases hfailure
      · cases hfailure
        rfl
  · intro reference hreference
    simp only [List.mem_cons, List.not_mem_nil, or_false] at hreference
    obtain rfl | rfl := hreference
    · exact hreply "a" "A" (by decide)
    · exact hreply "c" "C" (by decide)

/-- No response holds the empty string, and after a preparation every configured source
held a non-empty value when the preparation read it. -/
structure NoEmptySecret (references : OrderedMap String String)
    (resolve : ℕ → String → Reply) (prepare : ℕ → Except RuntimeFailure Unit)
    (reads : ℕ → String → String → Prop) : Prop where
  response : ∀ t reference v, resolve t reference = .ok (.ok v) → v.value ≠ ""
  preparation : ∀ t, prepare t = .ok () → ∀ reference name,
    references.get? reference = some name → ∃ v, reads t name v ∧ v ≠ ""

/-- The preparation started at `t` reads this value of the variable. -/
def ReadsVariable (C : EnvironmentProvider.AcceptedConfig)
    (h : History EnvironmentProvider.Access.Answer) (t : ℕ) (name value : String) : Prop :=
  ∃ s, t ≤ s ∧
    ⟨.var name, h s (.var name)⟩ ∈ Program.transcript h t C.provider.verifySources.run ∧
    EnvironmentProvider.variableValue (h s) name = some value

/-- The preparation started at `t` reads this value of the account's item. -/
def ReadsItem (P : KeychainProvider.AcceptedPlugin)
    (h : History KeychainProvider.Access.Answer) (t : ℕ) (account value : String) : Prop :=
  ∃ s, t ≤ s ∧
    ⟨.genericPassword P.config.service account,
      h s (.genericPassword P.config.service account)⟩ ∈ Program.transcript h t P.prepare.run ∧
    P.itemValue (h s) account = some value

/-- The preparation started at `t` loads a document with this record. -/
def LoadsRecord (P : EncryptedFileProvider.AcceptedPlugin)
    (h : History EncryptedFileProvider.Access.Answer) (t : ℕ) (source value : String) : Prop :=
  ∃ document, Program.result h t P.load.run = .ok document ∧
    document.secrets.get? source = some value

/-- The preparation started at `t` makes a resolver run that returns this value. -/
def ReceivesValue (C : CommandProvider.AcceptedConfig)
    (cell : Option CommandProvider.PreparedProgram) (h : History CommandProvider.Access.Answer)
    (t : ℕ) (source value : String) : Prop :=
  ∃ executable s, t ≤ s ∧
    (∀ e ∈ Program.transcript h s (C.resolverRun ⟨executable⟩ source),
      e ∈ Program.transcript h t (C.prepareAlone cell)) ∧
    C.resolverValue (some ⟨executable⟩) h s source = some value

theorem environment_prepare_reads {C : EnvironmentProvider.AcceptedConfig}
    {h : History EnvironmentProvider.Access.Answer} {t : ℕ} {reference name : String}
    (hok : Program.result h t C.provider.verifySources.run = .ok ())
    (hb : C.config.sources.get? reference = some name) :
    ∃ value, ReadsVariable C h t name value := by
  have hkey : reference ∈ C.provider.config.sources.keys := OrderedMap.mem_keys.mpr ⟨name, hb⟩
  obtain ⟨s, hs, hresult, hmem⟩ := result_forM_eq_ok hok reference hkey
  rw [Fallible.run_discard, EnvironmentProvider.read_eq C hb, Program.ask_bind] at hresult hmem
  have hread := hmem _ List.mem_cons_self
  cases hvalue : EnvironmentProvider.variableValue (h s) name with
  | some value => exact ⟨value, s, hs, hread, hvalue⟩
  | none =>
    unfold EnvironmentProvider.variableValue at hvalue
    rw [Program.result_ask, hvalue] at hresult
    contradiction

theorem keychain_prepare_reads {P : KeychainProvider.AcceptedPlugin}
    {h : History KeychainProvider.Access.Answer} {t : ℕ} {reference account : String}
    (hok : Program.result h t P.prepare.run = .ok ())
    (hb : P.config.references.get? reference = some account) :
    ∃ value, ReadsItem P h t account value := by
  have hkey : reference ∈ P.config.references.keys := OrderedMap.mem_keys.mpr ⟨account, hb⟩
  obtain ⟨s, hs, hresult, hmem⟩ := result_forM_eq_ok hok reference hkey
  rw [Fallible.run_discard, Fallible.run_mapErr, KeychainProvider.resolve_eq_of_bound P hb]
    at hresult hmem
  simp only [Program.result_bind, Program.transcript_bind, Program.transcript_done,
    Program.result_done, List.append_nil, KeychainProvider.result_read] at hresult hmem
  cases hvalue : P.itemValue (h s) account with
  | none =>
    rw [hvalue] at hresult
    contradiction
  | some value =>
    cases ht : P.target with
    | macos =>
      refine ⟨value, s, hs, hmem _ ?_, hvalue⟩
      rw [KeychainProvider.transcript_read, ht]
      exact List.mem_cons_self
    | other =>
      rw [KeychainProvider.KeychainSecretsPlugin.itemValue, ht] at hvalue
      contradiction

theorem encryptedFile_prepare_loads {P : EncryptedFileProvider.AcceptedPlugin}
    {h : History EncryptedFileProvider.Access.Answer} {t : ℕ} {reference source : String}
    (hok : Program.result h t P.prepare.run = .ok ())
    (hb : P.config.references.get? reference = some source) :
    ∃ value, LoadsRecord P h t source value := by
  rw [EncryptedFileProvider.result_prepare] at hok
  cases hload : Program.result h t P.load.run with
  | error e =>
    rw [hload] at hok
    contradiction
  | ok document =>
    rw [hload] at hok
    obtain ⟨value, hvalue⟩ := Table.verify_eq_ok.mp hok reference source hb
    exact ⟨value, document, hload, hvalue⟩

/-- A Provider that answers with the values of its sources and whose preparations read them
holds no empty secret exactly if no configured source is ever empty. -/
theorem noEmptySecret_iff_of_values {references : OrderedMap String String}
    {wellFormed : String → Bool} {holds : ℕ → String → String → Prop}
    {resolve : ℕ → String → Reply} {prepare : ℕ → Except RuntimeFailure Unit}
    {reads : ℕ → String → String → Prop}
    (hmodel : ∀ t reference, FailureModel wellFormed references (holds t) reference
      (resolve t reference))
    (hreads : ∀ t, prepare t = .ok () → ∀ reference name,
      references.get? reference = some name → ∃ v, reads t name v)
    (hheld : ∀ t name v, reads t name v → ∃ s, holds s name v) :
    NoEmptySecret references resolve prepare reads ↔
      ∀ t reference name, references.get? reference = some name → ¬ holds t name "" := by
  constructor
  · intro hnone t reference name hb hempty
    have hreply : resolve t reference = .ok (.ok ⟨""⟩) :=
      ((hmodel t reference).value "").mpr ⟨name, hb, hempty⟩
    exact hnone.response t reference ⟨""⟩ hreply rfl
  · intro hne
    refine ⟨?_, ?_⟩
    · intro t reference v hreply hv
      obtain ⟨name, hb, hread⟩ := ((hmodel t reference).value v.value).mp hreply
      rw [hv] at hread
      exact hne t reference name hb hread
    · intro t hok reference name hb
      obtain ⟨v, hv⟩ := hreads t hok reference name hb
      refine ⟨v, hv, ?_⟩
      intro hempty
      obtain ⟨s, hs⟩ := hheld t name v hv
      rw [hempty] at hs
      exact hne s reference name hb hs

/-- The Environment and Keychain Providers hold no empty secret exactly if no configured
variable and no configured item is ever empty; the other two never hold one. -/
theorem noEmptySecret_iff
    (E : EnvironmentProvider.AcceptedConfig) (hE : History EnvironmentProvider.Access.Answer)
    (K : KeychainProvider.AcceptedPlugin) (hK : History KeychainProvider.Access.Answer)
    (F : EncryptedFileProvider.AcceptedPlugin) (hF : History EncryptedFileProvider.Access.Answer)
    (C : CommandProvider.AcceptedConfig) (cell : Option CommandProvider.PreparedProgram)
    (hC : History CommandProvider.Access.Answer) :
    (NoEmptySecret E.config.sources
        (fun t reference => Program.result hE t (E.provider.resolve ⟨reference⟩))
        (fun t => Program.result hE t E.provider.verifySources.run) (ReadsVariable E hE) ↔
      ∀ t reference name, E.config.sources.get? reference = some name →
        hE t (.var name) ≠ some []) ∧
    (NoEmptySecret K.config.references
        (fun t reference => Program.result hK t (K.resolve ⟨reference⟩))
        (fun t => Program.result hK t K.prepare.run) (ReadsItem K hK) ↔
      ∀ t reference account, K.config.references.get? reference = some account →
        ¬ (K.target = .macos ∧ hK t (.genericPassword K.config.service account) = some [])) ∧
    NoEmptySecret F.config.references
      (fun t reference => Program.result hF t (F.resolve ⟨reference⟩))
      (fun t => Program.result hF t F.prepare.run) (LoadsRecord F hF) ∧
    NoEmptySecret C.references
      (fun t reference => Program.result hC t (C.resolveAlone cell ⟨reference⟩))
      (fun t => (Program.result hC t (C.prepareAlone cell)).1) (ReceivesValue C cell hC) := by
  refine ⟨?_, ?_, ?_, ?_⟩
  · rw [noEmptySecret_iff_of_values (environment_failureModel E hE)]
    · simp only [ne_eq, EnvironmentProvider.variableValue_eq_empty]
    · intro t hok reference name hb
      exact environment_prepare_reads hok hb
    · intro t name v hv
      obtain ⟨s, -, -, hvalue⟩ := hv
      exact ⟨s, hvalue⟩
  · rw [noEmptySecret_iff_of_values (keychain_failureModel K hK)]
    · simp only [KeychainProvider.KeychainSecretsPlugin.itemValue_eq_empty]
    · intro t hok reference account hb
      exact keychain_prepare_reads hok hb
    · intro t account v hv
      obtain ⟨s, -, -, hvalue⟩ := hv
      exact ⟨s, hvalue⟩
  · rw [noEmptySecret_iff_of_values (encryptedFile_failureModel F hF)]
    · intro t reference source _ hempty
      have hvalue := (EncryptedFileProvider.recordHeld_iff F hF t).mp hempty
      obtain ⟨document, hload, hvalue⟩ := EncryptedFileProvider.recordValue_eq_some.mp hvalue
      exact EncryptedFileProvider.loaded_value_ne_empty hload hvalue rfl
    · intro t hok reference source hb
      exact encryptedFile_prepare_loads hok hb
    · intro t source v hv
      have hvalue := EncryptedFileProvider.recordValue_eq_some.mpr hv
      exact ⟨t, (EncryptedFileProvider.recordHeld_iff F hF t).mpr hvalue⟩
  · refine ⟨?_, ?_⟩
    · intro t reference v hreply
      obtain ⟨source, hb, hvalue⟩ :=
        ((command_failureModel C cell hC t reference).value v.value).mp hreply
      exact hvalue.ne_empty
    · intro t hok reference source hb
      obtain ⟨executable, hall⟩ := CommandProvider.prepareAlone_ok C hC t hok
      obtain ⟨s, hs, ⟨value, hvalue⟩, hmem⟩ := hall reference source hb
      have hheld := (CommandProvider.handsOver_iff C (some ⟨executable⟩) hC s).mpr hvalue
      exact ⟨value, ⟨executable, s, hs, hmem, hvalue⟩, hheld.ne_empty⟩

/-- A variable that is set to nothing is resolved to the empty string. -/
theorem emptyVariable_resolves :
    ¬ NoEmptySecret EnvironmentProvider.singleReference.config.sources
      (fun t reference => Program.result (fun _ _ => some []) t
        (EnvironmentProvider.singleReference.provider.resolve ⟨reference⟩))
      (fun t => Program.result (fun _ _ => some []) t
        EnvironmentProvider.singleReference.provider.verifySources.run)
      (ReadsVariable EnvironmentProvider.singleReference (fun _ _ => some [])) := by
  intro hnone
  have hb : EnvironmentProvider.singleReference.config.sources.get? "a" = some "A" := by decide
  have hreply := EnvironmentProvider.result_resolve EnvironmentProvider.singleReference
    (fun _ _ => some []) 0 "a"
  rw [Table.answer_of_bound (T := EnvironmentProvider.singleReference.table) hb,
    EnvironmentProvider.variableValue_eq_empty.mpr rfl] at hreply
  exact hnone.response 0 "a" ⟨""⟩ hreply rfl

end LensoSecrets.ProviderPreparation
