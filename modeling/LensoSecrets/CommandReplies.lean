import LensoSecrets.CommandProvider
import LensoSecrets.IsolatedCalls
import LensoSecrets.ResolverOutput

/-!
# What the command Provider's calls return

A resolution and a preparation made alone, each from the value of the cell it finds. The
source of a configured name is the resolver run for it; without a prepared program no
name has a source.
-/
namespace LensoSecrets.CommandProvider
open CapabilityContract CooperativeCalls EarlyExit OrderedMaps ProviderContract QueryPrograms
open ResolutionTables

namespace AcceptedConfig

/-- The run of the resolver for a source. -/
def resolverRun (C : AcceptedConfig) (prepared : PreparedProgram) (source : String) :
    Program Access Access.Answer (Except Unit String) :=
  C.service.work (commandRequest C.toCommandConfig prepared source)

def resolveAlone (C : AcceptedConfig) (prepared : Option PreparedProgram)
    (request : ResolveRequest) : Program Access Access.Answer Reply := do
  let out ← alone C.service.work prepared (resolve C.toCommandConfig request).run
  pure (PluginError.intoResult out.1)

def prepareAlone (C : AcceptedConfig) (prepared : Option PreparedProgram) :
    Program Access Access.Answer (Except RuntimeFailure Unit × Option PreparedProgram) :=
  alone C.service.work prepared (prepare C.toCommandConfig).run

/-- The value of a source: what its resolver run returns when it starts now. -/
def resolverValue (C : AcceptedConfig) (prepared : Option PreparedProgram)
    (h : History Access.Answer) (t : ℕ) (source : String) : Option String :=
  prepared.bind fun prepared => (Program.result h t (C.resolverRun prepared source)).toOption

/-- A resolver thread for this source that is started now hands a value over: the program is
prepared, the thread starts, the command returns the value, and the message arrives. -/
def HandsOver (C : AcceptedConfig) (prepared : Option PreparedProgram)
    (h : History Access.Answer) (t : ℕ) (source value : String) : Prop :=
  ∃ program, prepared = some program ∧ h t .spawnThread = true ∧
    Program.result h (t + 1)
      (runCommand (commandRequest C.toCommandConfig program source)).run = .ok value ∧
    h (t + 1 + (Program.transcript h (t + 1)
      (runCommand (commandRequest C.toCommandConfig program source)).run).length) .receive = true

/-- One iteration of the verification loop, with its resolver run carried out. -/
def verifyReference (C : AcceptedConfig) (prepared : PreparedProgram) (entry : String × String) :
    Fallible Access Access.Answer RuntimeFailure Unit :=
  Fallible.mapErr (fun _ => unavailable entry.1)
    (ExceptT.mk (C.resolverRun prepared entry.2)) >>= fun _ => pure ()

end AcceptedConfig

/-- The Runtime failure of a resolution that finds this in the cell. -/
def failureOf (prepared : Option PreparedProgram) (reference : String) : RuntimeFailure :=
  if prepared.isSome then unavailable reference else .unavailable capabilityId

variable (C : AcceptedConfig) (prepared : Option PreparedProgram) (h : History Access.Answer)
variable (o : Oracle Access.Answer) (t : ℕ) {reference source : String}

theorem handsOver_iff {value : String} :
    C.HandsOver prepared h t source value ↔ C.resolverValue prepared h t source = some value := by
  rw [AcceptedConfig.resolverValue, Option.bind_eq_some_iff]
  constructor
  · intro hvalue
    obtain ⟨program, hprogram, hthread⟩ := hvalue
    have hrun : Program.result h t (C.resolverRun program source) = .ok value :=
      resolverThread_eq_ok.mpr hthread
    refine ⟨program, hprogram, ?_⟩
    rw [hrun]
    rfl
  · intro hvalue
    obtain ⟨program, hprogram, hrun⟩ := hvalue
    refine ⟨program, hprogram, resolverThread_eq_ok.mp ?_⟩
    change Program.result h t (C.resolverRun program source) = .ok value
    cases hresult : Program.result h t (C.resolverRun program source) with
    | error e => simp [hresult, Except.toOption] at hrun
    | ok value' =>
      rw [hresult] at hrun
      exact congrArg Except.ok (Option.some.inj hrun)

/-- A value that is handed over is not empty. -/
theorem AcceptedConfig.HandsOver.ne_empty {C : AcceptedConfig}
    {prepared : Option PreparedProgram} {h : History Access.Answer} {t : ℕ} {value : String}
    (hvalue : C.HandsOver prepared h t source value) : value ≠ "" := by
  obtain ⟨program, -, -, hrun, -⟩ := hvalue
  exact runCommand_ne_empty hrun

theorem result_resolveAlone (reference : String) :
    Program.result h t (C.resolveAlone prepared ⟨reference⟩) =
      replyOf (failureOf prepared reference)
        (C.table.answer (C.resolverValue prepared h t) reference) := by
  simp only [AcceptedConfig.resolveAlone, Program.result_bind, Program.pure_eq_done,
    Program.result_done]
  cases hb : C.references.get? reference with
  | none =>
    rw [resolve_eq_of_unbound C hb, Table.answer_of_unbound (T := C.table) hb]
    cases hv : validReference reference <;> simp only [AcceptedConfig.table, hv] <;> rfl
  | some source =>
    rw [resolve_eq_of_bound C hb, Table.answer_of_bound (T := C.table) hb]
    cases prepared with
    | none => rfl
    | some prepared =>
      change PluginError.intoResult (Program.result h t (C.resolverRun prepared source >>=
        fun result => .done (_, some prepared))).1 = replyOf _ (Option.elim
          (Program.result h t (C.resolverRun prepared source)).toOption _ _)
      rw [Program.result_bind]
      cases Program.result h t (C.resolverRun prepared source) <;> rfl

/-- It runs the resolver for the source bound to the reference, if a program is prepared,
and does nothing for any other string. -/
theorem transcript_resolveAlone (reference : String) :
    Program.transcript h t (C.resolveAlone prepared ⟨reference⟩) =
      match C.references.get? reference, prepared with
      | some source, some prepared => Program.transcript h t (C.resolverRun prepared source)
      | _, _ => [] := by
  simp only [AcceptedConfig.resolveAlone, Program.transcript_bind, Program.pure_eq_done,
    Program.transcript_done, List.append_nil]
  cases hb : C.references.get? reference with
  | none =>
    rw [resolve_eq_of_unbound C hb]
    rfl
  | some source =>
    rw [resolve_eq_of_bound C hb]
    cases prepared with
    | none => rfl
    | some prepared =>
      change Program.transcript h t (C.resolverRun prepared source >>=
        fun result => .done (_, some prepared)) = _
      rw [Program.transcript_bind, Program.transcript_done, List.append_nil]

/-- Only the program that is prepared is spawned, for the source bound to the reference. -/
theorem spawned_resolveAlone {process : Process} {child : Option Child} (reference : String)
    (hspawn : ⟨.spawn process, child⟩ ∈
      Program.transcript h t (C.resolveAlone prepared ⟨reference⟩)) :
    ∃ source executable, C.references.get? reference = some source ∧
      prepared = some ⟨executable⟩ ∧ process.program = executable ∧
      process.arguments = C.arguments.map (fun argument =>
        if argument == sourcePlaceholder then source else argument) := by
  rw [transcript_resolveAlone] at hspawn
  cases hb : C.references.get? reference with
  | none =>
    rw [hb] at hspawn
    exact absurd hspawn List.not_mem_nil
  | some source =>
    cases prepared with
    | none =>
      rw [hb] at hspawn
      exact absurd hspawn List.not_mem_nil
    | some prepared =>
      rw [hb] at hspawn
      have honly := only_resolverThread (commandRequest C.toCommandConfig prepared source)
      obtain ⟨hprogram, harguments⟩ := honly.transcript h t _ hspawn process rfl
      exact ⟨source, prepared.executable, rfl, rfl, hprogram, harguments⟩

/-- The verification loop made alone leaves the cell and runs the resolver in turn. -/
theorem alone_verifyReferences (cell : Option PreparedProgram) (prepared : PreparedProgram)
    (entries : List (String × String)) :
    alone C.service.work cell (verifyReferences C.toCommandConfig prepared entries).run =
      (entries.forM (C.verifyReference prepared)).run >>= fun result => .done (result, cell) := by
  induction entries with
  | nil => rfl
  | cons entry entries ih =>
    rw [verifyReferences_cons, List.forM, Fallible.run_bind, AcceptedConfig.verifyReference,
      Fallible.run_discard, Fallible.run_mapErr, bind_assoc, bind_assoc, bind_assoc]
    change C.resolverRun prepared entry.2 >>= _ = C.resolverRun prepared entry.2 >>= _
    refine congrArg _ (funext fun result => ?_)
    cases result with
    | error e => rfl
    | ok value => exact ih

theorem prepareAlone_eq (cell : Option PreparedProgram) :
    C.prepareAlone cell = .ask (.canonicalize C.program) fun path =>
      match path with
      | none => .done (.error (invalidPlan "Secrets command program is unavailable"), cell)
      | some executable => .ask (.isFile executable) fun isFile =>
        if isFile then
          (C.references.entries.forM (C.verifyReference ⟨executable⟩)).run >>= fun result =>
            .done (result, some ⟨executable⟩)
        else
          .done (.error (invalidPlan "Secrets command program is not a regular file"), cell) := by
  rw [AcceptedConfig.prepareAlone, prepare_eq]
  refine congrArg (Program.ask _) (funext fun path => ?_)
  cases path with
  | none => rfl
  | some executable =>
    refine congrArg (Program.ask _) (funext fun isFile => ?_)
    cases isFile with
    | false => rfl
    | true => exact alone_verifyReferences C _ _ _

/-- What one iteration returns is decided by the value of its source. -/
theorem result_verifyReference (prepared : PreparedProgram) (entry : String × String) :
    Program.result h t (C.verifyReference prepared entry).run =
      match C.resolverValue (some prepared) h t entry.2 with
      | none => .error (unavailable entry.1)
      | some _ => .ok () := by
  rw [AcceptedConfig.verifyReference, Fallible.run_discard, Program.result_bind,
    Fallible.result_mapErr, Program.result_done]
  change Except.map _ (Except.mapError _ (Program.result h t (C.resolverRun prepared entry.2))) =
    match (Program.result h t (C.resolverRun prepared entry.2)).toOption with
    | none => .error (unavailable entry.1)
    | some _ => .ok ()
  cases Program.result h t (C.resolverRun prepared entry.2) <;> rfl

/-- Once the program is pinned, and while what the runs return stays the same, the
preparation is the table's verification. -/
theorem result_prepareAlone {executable : PathBuf} {value : String → Option String}
    (hpath : h t (.canonicalize C.program) = some executable)
    (hfile : h (t + 1) (.isFile executable) = true)
    (hfixed : ∀ s source, C.resolverValue (some ⟨executable⟩) h s source = value source)
    (cell : Option PreparedProgram) :
    Program.result h t (C.prepareAlone cell) =
      (C.table.verify unavailable value, some ⟨executable⟩) := by
  have hloop : Program.result h (t + 1 + 1)
      (C.references.entries.forM (C.verifyReference ⟨executable⟩)).run =
        C.table.verify unavailable value := by
    refine result_forM (t + 1 + 1) ?_
    intro s _ entry _
    rw [result_verifyReference, hfixed]
    cases value entry.2 <;> rfl
  rw [prepareAlone_eq, Program.result_ask, hpath]
  dsimp only
  rw [Program.result_ask, hfile, if_pos rfl, Program.result_bind, Program.result_done, hloop]

theorem resolverValue_constant (s : ℕ) :
    C.resolverValue prepared (fun _ => o) s = C.resolverValue prepared (fun _ => o) 0 := by
  funext source
  unfold AcceptedConfig.resolverValue
  apply congrArg
  funext program
  rw [Program.result_constant, Program.result_constant]

/-- A preparation in unchanging surroundings: the program check, then the verification. -/
theorem eval_prepareAlone (cell : Option PreparedProgram) :
    Program.eval o (C.prepareAlone cell) = match o (.canonicalize C.program) with
      | none => (.error (invalidPlan "Secrets command program is unavailable"), cell)
      | some executable =>
        if o (.isFile executable) then
          (C.table.verify unavailable (C.resolverValue (some ⟨executable⟩) (fun _ => o) 0),
            some ⟨executable⟩)
        else (.error (invalidPlan "Secrets command program is not a regular file"), cell) := by
  cases hpath : o (.canonicalize C.program) with
  | none => rw [prepareAlone_eq, Program.eval_ask, hpath]; rfl
  | some executable =>
    cases hfile : o (.isFile executable) with
    | false =>
      rw [prepareAlone_eq, Program.eval_ask, hpath]
      dsimp only
      rw [Program.eval_ask, hfile]
      rfl
    | true =>
      have hfixed : ∀ s source, C.resolverValue (some ⟨executable⟩) (fun _ => o) s source =
          C.resolverValue (some ⟨executable⟩) (fun _ => o) 0 source := by
        intro s source
        rw [resolverValue_constant]
      dsimp only
      rw [if_pos hfile, ← Program.result_constant o 0]
      exact result_prepareAlone C (fun _ => o) 0 hpath hfile hfixed cell

/-- A preparation that returns Ok has received a value from a run for every source. -/
theorem prepareAlone_ok {cell : Option PreparedProgram}
    (hok : (Program.result h t (C.prepareAlone cell)).1 = .ok ()) :
    ∃ executable, ∀ reference source, C.references.get? reference = some source →
      ∃ s, t ≤ s ∧ (∃ value, C.resolverValue (some ⟨executable⟩) h s source = some value) ∧
        ∀ e ∈ Program.transcript h s (C.resolverRun ⟨executable⟩ source),
          e ∈ Program.transcript h t (C.prepareAlone cell) := by
  rw [prepareAlone_eq] at hok ⊢
  simp only [Program.result_ask, Program.transcript_ask] at hok ⊢
  cases hpath : h t (.canonicalize C.program) with
  | none =>
    rw [hpath] at hok
    contradiction
  | some executable =>
    rw [hpath] at hok
    simp only [Program.result_ask, Program.transcript_ask] at hok ⊢
    split_ifs at hok ⊢ with hfile
    · rw [Program.result_bind, Program.result_done] at hok
      refine ⟨executable, ?_⟩
      intro reference source hb
      have hentry := OrderedMap.get?_eq_some.mp hb
      obtain ⟨s, hs, hresult, hmem⟩ := result_forM_eq_ok hok (reference, source) hentry
      rw [result_verifyReference] at hresult
      refine ⟨s, by omega, ?_, ?_⟩
      · cases hvalue : C.resolverValue (some ⟨executable⟩) h s source with
        | none => simp [hvalue] at hresult
        | some value => exact ⟨value, rfl⟩
      · intro e he
        have htr : Program.transcript h s (C.verifyReference ⟨executable⟩ (reference, source)).run =
            Program.transcript h s (C.resolverRun ⟨executable⟩ source) := by
          rw [AcceptedConfig.verifyReference, Fallible.run_discard, Program.transcript_bind,
            Fallible.transcript_mapErr, Program.transcript_done, List.append_nil]
          rfl
        rw [Program.transcript_bind]
        refine List.mem_cons_of_mem _ (List.mem_cons_of_mem _ (List.mem_append_left _ ?_))
        exact hmem e (htr ▸ he)
    · contradiction

/-- From any state of an instance a resolution can return what it returns alone. -/
theorem reaches_resolveAlone (s : CommandState) (request : ResolveRequest) :
    ∃ s', C.service.Reaches s s' ∧ ∃ c, s'.calls[s.calls.length]? = some c ∧
      c.program = .done (.resolved (Program.result h t (C.resolveAlone s.cell request))) := by
  obtain ⟨s', hreach, -, c, hc, hprogram⟩ :=
    Service.reaches_alone (S := C.service) s (.resolve request) h t
  refine ⟨s', hreach, c, hc, ?_⟩
  have hcall : C.service.call (.resolve request) = (resolve C.toCommandConfig request).run >>=
    fun result => .done (.resolved (PluginError.intoResult result)) := rfl
  rw [hprogram, hcall, alone_bind, Program.result_bind, AcceptedConfig.resolveAlone,
    Program.result_bind]
  rfl

/-- From any state of an instance a preparation can return, and leave in the cell, what it
does alone. -/
theorem reaches_prepareAlone (s : CommandState) :
    ∃ s', C.service.Reaches s s' ∧ s'.cell = (Program.result h t (C.prepareAlone s.cell)).2 ∧
      ∃ c, s'.calls[s.calls.length]? = some c ∧
        c.program = .done (.prepared (Program.result h t (C.prepareAlone s.cell)).1) := by
  obtain ⟨s', hreach, hcell, c, hc, hprogram⟩ :=
    Service.reaches_alone (S := C.service) s .prepare h t
  have hcall : C.service.call .prepare = (prepare C.toCommandConfig).run >>=
    fun result => .done (.prepared result) := rfl
  rw [hcall, alone_bind, Program.result_bind] at hcell hprogram
  exact ⟨s', hreach, hcell, c, hc, hprogram⟩

end LensoSecrets.CommandProvider
