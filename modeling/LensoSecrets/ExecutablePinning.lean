import LensoSecrets.CommandStages

/-!
# Only pinned executables are spawned

In every run of an instance, with calls and resolver runs interleaved in any way and the
file system changing between any two steps, a process is spawned only for a file that
some preparation has pinned and that the run itself has just found again.
-/
namespace LensoSecrets.CommandProvider
open CapabilityContract CooperativeCalls OrderedMaps ProviderContract QueryPrograms
open StandardLibrary

/-- Some preparation has found this regular file at the configured path. -/
def PinnedIn (C : AcceptedConfig) (s : CommandState) (executable : PathBuf) : Prop :=
  ∃ c ∈ s.calls, c.request = .prepare ∧ Pinned C.toCommandConfig executable c.trace

variable {C : AcceptedConfig} {s : CommandState}

theorem pinnedIn_of_held (h : C.service.Invariant s) {executable : PathBuf}
    (hheld : C.service.Held s (some ⟨executable⟩)) : PinnedIn C s executable := by
  rcases hheld with hinitial | ⟨c, hc, hwrite⟩
  · cases hinitial
  · obtain ⟨hrequest, hpinned⟩ := written_program (h.calls c hc) hwrite
    exact ⟨c, hc, hrequest, hpinned⟩

theorem pinnedIn_of_awaited (h : C.service.Invariant s) {job : CommandRequest}
    (hawaited : C.service.Awaited s job) :
    job.configuredProgram = C.program ∧ PinnedIn C s job.executable := by
  obtain ⟨c, hc, tr, k, hpre, hf⟩ := hawaited
  obtain ⟨hconfigured, hprogram⟩ := awaited_program hf
  refine ⟨hconfigured, ?_⟩
  rcases hprogram with ⟨hrequest, hpinned⟩ | hread
  · exact ⟨c, hc, hrequest, hpinned.mono hpre⟩
  · have hheld := h.reads c hc _ (hpre.subset hread)
    exact pinnedIn_of_held h hheld

/-- A worker that comes to spawn a process has found a pinned program again. -/
theorem pinnedIn_of_spawn (h : C.service.Invariant s)
    {w : CommandWorker} (hw : w ∈ s.workers)
    {tr : Transcript Access.Answer} {process : Process}
    {k : Option Child → Program Access Access.Answer (Except Unit String)}
    (hpath : Follows (C.service.work w.job) tr (.ask (.spawn process) k)) :
    PinnedIn C s process.program ∧ ∃ names, tr = ⟨.spawnThread, true⟩ ::
        ⟨.canonicalize C.program, some process.program⟩ :: names ∧
      ∀ e ∈ names, ∃ name, e.1 = .varOs name := by
  obtain ⟨hconfigured, hpinned⟩ := pinnedIn_of_awaited h (h.awaited w hw)
  obtain ⟨hprogram, names, htrace, hnames⟩ := spawn_path hpath
  rw [hconfigured] at htrace
  rw [hprogram]
  exact ⟨hpinned, names, htrace, hnames⟩

/-- A call that resumes leaves the cell alone. -/
theorem cell_resume (h : C.service.Invariant s) (i : ℕ) (outside : History Access.Answer) :
    (C.service.step s (.resume i outside)).cell = s.cell := by
  rcases Service.step_resume (S := C.service) (s := s) i outside with hsame | ⟨c, c', hi, hc, -⟩
  · rw [hsame]
  · obtain ⟨job, k, w, b, hp, -, -, heq⟩ := Service.received_eq_some.mp hc
    have hpath := h.calls c (List.mem_of_getElem? hi)
    rw [hp] at hpath
    have hprogram : c'.program = k b := by rw [heq]
    rw [Service.step_resume_of_received hi hc, hprogram]
    apply lastWrite_of_no_write
    apply no_write_after_await hpath
    exact settle_follows outside 0 s.cell (k b)

theorem cell_begin_resolve (request : ResolveRequest) (outside : History Access.Answer) :
    (C.service.step s (.begin (.resolve request) outside)).cell = s.cell := by
  rw [Service.step_begin]
  apply lastWrite_of_no_write
  have hpath := settle_follows outside 0 s.cell (C.service.call (.resolve request))
  have hno := (follows_resolve hpath).1
  rw [List.any_eq_false]
  intro e he
  rw [hno e he]
  exact Bool.false_ne_true

theorem cell_begin_deactivate (outside : History Access.Answer) :
    (C.service.step s (.begin .deactivate outside)).cell = none := by
  rw [Service.step_begin]
  rfl

theorem cell_work (w : ℕ) (outside : Oracle Access.Answer) :
    (C.service.step s (.work w outside)).cell = s.cell :=
  (Service.step_work s w outside).1

/-- Only a preparation that begins puts a program into the cell. -/
theorem cell_step_none (h : C.service.Invariant s) (hcell : s.cell = none) {x : CommandInput}
    (hx : ∀ outside, x ≠ .begin .prepare outside) : (C.service.step s x).cell = none := by
  cases x with
  | begin request outside =>
    cases request with
    | prepare => exact absurd rfl (hx outside)
    | resolve request => rw [cell_begin_resolve, hcell]
    | deactivate => exact cell_begin_deactivate outside
  | work w outside => rw [cell_work, hcell]
  | resume i outside => rw [cell_resume h, hcell]

theorem cell_run_none {inputs : List CommandInput} (hx : ∀ x ∈ inputs, ∀ outside,
    x ≠ .begin .prepare outside) (h : C.service.Invariant s) (hcell : s.cell = none) :
    (inputs.foldl C.service.step s).cell = none := by
  induction inputs generalizing s with
  | nil => exact hcell
  | cons x inputs ih =>
    have hstep := cell_step_none h hcell (hx x List.mem_cons_self)
    exact ih (fun y hy => hx y (List.mem_cons_of_mem _ hy)) (h.step x) hstep

/-- From a deactivation to the next beginning of a preparation nothing is prepared. -/
theorem cell_after_deactivate {before between : List CommandInput}
    {outside : History Access.Answer}
    (hx : ∀ x ∈ between, ∀ outside, x ≠ .begin .prepare outside) :
    (C.service.run (before ++ .begin .deactivate outside :: between)).cell = none := by
  rw [Service.run_append, List.foldl_cons]
  apply cell_run_none hx
  · exact (Service.invariant_run before).step _
  · exact cell_begin_deactivate outside

/-- A resolution that finds nothing prepared returns at once, and is unavailable if its
reference is configured. -/
theorem resolve_without_program (hcell : s.cell = none) (request : ResolveRequest)
    (outside : History Access.Answer) :
    (C.service.step s (.begin (.resolve request) outside)).workers = s.workers ∧
      ∃ c reply, (C.service.step s (.begin (.resolve request) outside)).calls[s.calls.length]? =
        some c ∧ c.program = .done (.resolved reply) ∧
        ∀ source, C.references.get? request.reference = some source →
          reply = .error (.unavailable capabilityId) := by
  obtain ⟨tr, reply, hsettle, hreply⟩ := settle_resolve_none C outside 0 request
  refine ⟨?_, _, reply, Service.begun_call s (.resolve request) outside, ?_, hreply⟩
  · rw [Service.step_begin, C.service_call, hcell, hsettle]
    exact List.append_nil _
  · rw [C.service_call, hcell, hsettle]

/-- The run a resolution awaits is for the program it finds in the cell. -/
theorem resolve_starts {request : ResolveRequest} {outside : History Access.Answer}
    {w : CommandWorker}
    (hw : w ∈ (C.service.step s (.begin (.resolve request) outside)).workers) :
    w ∈ s.workers ∨ s.cell = some ⟨w.job.executable⟩ := by
  obtain ⟨reference⟩ := request
  rw [Service.step_begin, C.service_call] at hw
  rcases List.mem_append.mp hw with hw | hw
  · exact Or.inl hw
  · right
    obtain ⟨job, k, hp, rfl⟩ := Service.mem_started hw
    cases hb : C.references.get? reference with
    | none =>
      rw [settle_resolve_of_unbound C outside 0 s.cell hb] at hp
      cases hp
    | some source =>
      rw [settle_resolve_of_bound C outside 0 s.cell hb] at hp
      cases hcell : s.cell with
      | none =>
        rw [hcell] at hp
        cases hp
      | some prepared =>
        rw [hcell] at hp
        cases hp
        rfl

/-- In every state of every run, a worker about to spawn a process has just found its
program at the configured path again, and an earlier preparation has pinned that program;
so it is with every process spawned before. A check that finds another path than the
request's, or one that no preparation has pinned, ends the run without a spawn; a
resolution requests the program it finds in the cell; and one that begins after a
deactivation and before the next preparation starts no run. -/
theorem spawns_only_pinned (C : AcceptedConfig) (inputs : List CommandInput) :
    (∀ w ∈ (C.service.run inputs).workers, ∀ process k, w.program = .ask (.spawn process) k →
      PinnedIn C (C.service.run inputs) process.program ∧
      ∃ names, w.trace = ⟨.spawnThread, true⟩ ::
          ⟨.canonicalize C.program, some process.program⟩ :: names ∧
        ∀ e ∈ names, ∃ name, e.1 = .varOs name) ∧
    (∀ w ∈ (C.service.run inputs).workers, ∀ first process child rest,
      w.trace = first ++ ⟨.spawn process, child⟩ :: rest →
      PinnedIn C (C.service.run inputs) process.program ∧
      ∃ names, first = ⟨.spawnThread, true⟩ ::
          ⟨.canonicalize C.program, some process.program⟩ :: names ∧
        ∀ e ∈ names, ∃ name, e.1 = .varOs name) ∧
    (∀ w ∈ (C.service.run inputs).workers, ∀ path k, w.program = .ask (.canonicalize path) k →
      path = C.program ∧ ∀ answer, (answer ≠ some w.job.executable ∨
          ∀ executable, answer = some executable →
            ¬ PinnedIn C (C.service.run inputs) executable) →
        k answer = .ask .receive fun _ => .done (.error ())) ∧
    (∀ request outside, ∀ w ∈ (C.service.step (C.service.run inputs)
        (.begin (.resolve request) outside)).workers,
      w ∈ (C.service.run inputs).workers ∨
        (C.service.run inputs).cell = some ⟨w.job.executable⟩) ∧
    (∀ before between deactivated,
      inputs = before ++ .begin .deactivate deactivated :: between →
      (∀ x ∈ between, ∀ outside, x ≠ .begin .prepare outside) → ∀ request outside,
        (C.service.step (C.service.run inputs) (.begin (.resolve request) outside)).workers =
          (C.service.run inputs).workers ∧
        ∃ c reply, (C.service.step (C.service.run inputs)
            (.begin (.resolve request) outside)).calls[(C.service.run inputs).calls.length]? =
          some c ∧ c.program = .done (.resolved reply)) := by
  have hinv : C.service.Invariant (C.service.run inputs) := Service.invariant_run inputs
  refine ⟨?_, ?_, ?_, ?_, ?_⟩
  · intro w hw process k hspawn
    have hpath := hinv.workers w hw
    rw [hspawn] at hpath
    exact pinnedIn_of_spawn hinv hw hpath
  · intro w hw first process child rest htrace
    have hpath := hinv.workers w hw
    rw [htrace] at hpath
    obtain ⟨k, hbefore, -⟩ := hpath.split
    exact pinnedIn_of_spawn hinv hw hbefore
  · intro w hw path k hcheck
    obtain ⟨hconfigured, hpinned⟩ := pinnedIn_of_awaited hinv (hinv.awaited w hw)
    have hpath := hinv.workers w hw
    rw [hcheck] at hpath
    obtain ⟨hsame, hfails⟩ := failed_check hpath
    refine ⟨hsame.trans hconfigured, ?_⟩
    intro answer hanswer
    apply hfails
    rcases hanswer with hne | hunpinned
    · exact hne
    · intro heq
      exact hunpinned _ heq hpinned
  · intro request outside w hw
    exact resolve_starts hw
  · intro before between deactivated hinputs hbetween request outside
    have hcell : (C.service.run inputs).cell = none := by
      rw [hinputs]
      exact cell_after_deactivate hbetween
    obtain ⟨hworkers, c, reply, hc, hreply, -⟩ := resolve_without_program hcell request outside
    exact ⟨hworkers, c, reply, hc, hreply⟩

/-- The resolver is where it was and runs. -/
def unmovedAnswers : Oracle Access.Answer
  | .canonicalize path => some path
  | .isFile _ => true
  | .spawnThread => true
  | .varOs _ => none
  | .spawn _ => none
  | .receive => true

/-- A preparation, and its first resolver run until it is about to spawn. -/
def firstSpawn : List CommandInput :=
  [.begin .prepare (fun _ => unmovedAnswers), .work 0 unmovedAnswers, .work 0 unmovedAnswers]

theorem firstSpawn_pinned :
    PinnedIn singleReference (singleReference.service.run firstSpawn) (bytes "/bin/resolver") := by
  have hspawns : ∃ w ∈ (singleReference.service.run firstSpawn).workers, ∃ k, w.program =
      .ask (.spawn ⟨bytes "/bin/resolver", ["A"], OrderedMap.empty⟩) k :=
    ⟨_, List.mem_of_getElem? (i := 0) rfl, _, rfl⟩
  obtain ⟨w, hw, k, hspawn⟩ := hspawns
  exact ((spawns_only_pinned singleReference firstSpawn).1 w hw _ k hspawn).1

end LensoSecrets.CommandProvider
