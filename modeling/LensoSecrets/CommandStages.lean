import LensoSecrets.CommandProvider

/-!
# The stages of the command Provider's calls

What every path through a call and through a resolver run looks like, and the segment a
call runs before it is suspended. A preparation writes the cell once, after its program
check, and only verifies after that; a resolution reads the cell once.
-/
namespace LensoSecrets.CommandProvider
open CapabilityContract CooperativeCalls EarlyExit OrderedMaps ProviderContract QueryPrograms
open ResolutionTables

abbrev CommandTrace :=
  CallTrace (Option PreparedProgram) Access.Answer CommandRequest (Except Unit String)

/-- What is left of a preparation that has pinned its program. -/
def verifying (config : CommandConfig) (prepared : PreparedProgram)
    (entries : List (String × String)) : CommandCall :=
  (verifyReferences config prepared entries).run >>= fun result => .done (.prepared result)

/-- The program check has found this file, and the call has written it to the cell. -/
structure Pinned (config : CommandConfig) (executable : PathBuf) (tr : CommandTrace) : Prop where
  canonical : ⟨.look (.canonicalize config.program), some executable⟩ ∈ tr
  regular : ⟨.look (.isFile executable), true⟩ ∈ tr

theorem Pinned.mono {config : CommandConfig} {executable : PathBuf} {tr tr' : CommandTrace}
    (h : Pinned config executable tr) (hpre : tr <+: tr') : Pinned config executable tr' :=
  ⟨hpre.subset h.canonical, hpre.subset h.regular⟩

section
variable (config : CommandConfig) (prepared : PreparedProgram) (entry : String × String)
variable (entries : List (String × String))

theorem verifying_cons : verifying config prepared (entry :: entries) =
    .ask (.await (commandRequest config prepared entry.2)) fun result => match result with
      | .ok _ => verifying config prepared entries
      | .error _ => .done (.prepared (.error (unavailable entry.1))) := by
  rw [verifying, verifyReferences_cons, Program.ask_bind]
  refine congrArg (Program.ask _) (funext fun result => ?_)
  cases result <;> rfl

theorem verifying_ne_failed (failure : RuntimeFailure) :
    verifying config prepared entries ≠ .done (.prepared (.error failure)) := by
  intro hfailed
  cases entries with
  | nil => cases hfailed
  | cons entry entries =>
    rw [verifying_cons] at hfailed
    cases hfailed

theorem invoke_prepare : invoke config .prepare =
    .ask (.look (.canonicalize config.program)) fun path => match path with
      | none => .done (.prepared (.error (invalidPlan "Secrets command program is unavailable")))
      | some executable => .ask (.look (.isFile executable)) fun isFile =>
        if isFile then
          .ask (.write (some ⟨executable⟩)) fun _ =>
            verifying config ⟨executable⟩ config.references.entries
        else .done (.prepared
          (.error (invalidPlan "Secrets command program is not a regular file"))) := by
  rw [invoke, prepare_eq, Program.ask_bind]
  refine congrArg (Program.ask _) (funext fun path => ?_)
  cases path with
  | none => rfl
  | some executable =>
    refine congrArg (Program.ask _) (funext fun isFile => ?_)
    cases isFile <;> rfl

end

section
variable (C : AcceptedConfig) {reference source : String}

theorem invoke_resolve_of_unbound (hb : C.references.get? reference = none) :
    invoke C.toCommandConfig (.resolve ⟨reference⟩) = .done (.resolved (.ok (.error
      (if validReference reference then .unknownReference else .invalidReference)))) := by
  rw [invoke, resolve_eq_of_unbound C hb]
  rfl

theorem invoke_resolve_of_bound (hb : C.references.get? reference = some source) :
    invoke C.toCommandConfig (.resolve ⟨reference⟩) = .ask .read fun prepared =>
      match prepared with
      | none => .done (.resolved (.error (.unavailable capabilityId)))
      | some prepared => .ask (.await (commandRequest C.toCommandConfig prepared source))
        fun result => .done (.resolved (PluginError.intoResult
          ((result.map ResolveResponse.mk).mapError
            fun _ => .runtime (unavailable reference)))) := by
  rw [invoke, resolve_eq_of_bound C hb, Program.ask_bind]
  refine congrArg (Program.ask _) (funext fun prepared => ?_)
  cases prepared <;> rfl

end

section
variable {config : CommandConfig} {prepared : PreparedProgram} {tr : CommandTrace}
variable {p : CommandCall}

/-- A verification only awaits, and stays one until it fails. -/
theorem follows_verifying {entries : List (String × String)}
    (h : Follows (verifying config prepared entries) tr p) :
    (∀ e ∈ tr, ∃ job, e.1 = .await job) ∧
      ((∃ rest, p = verifying config prepared rest) ∨
        ∃ failure, p = .done (.prepared (.error failure))) := by
  induction entries generalizing tr with
  | nil =>
    obtain ⟨rfl, rfl⟩ := h.of_done
    exact ⟨by simp, Or.inl ⟨[], rfl⟩⟩
  | cons entry entries ih =>
    rw [verifying_cons] at h
    rcases h.of_ask with ⟨rfl, rfl⟩ | ⟨result, rest, rfl, hrest⟩
    · exact ⟨by simp, Or.inl ⟨entry :: entries, (verifying_cons _ _ _ _).symm⟩⟩
    · have htail : (∀ e ∈ rest, ∃ job, e.1 = .await job) ∧
          ((∃ rest, p = verifying config prepared rest) ∨
            ∃ failure, p = .done (.prepared (.error failure))) := by
        cases result with
        | ok value => exact ih hrest
        | error e =>
          obtain ⟨rfl, rfl⟩ := hrest.of_done
          exact ⟨by simp, Or.inr ⟨_, rfl⟩⟩
      refine ⟨?_, htail.2⟩
      intro e he
      rcases List.mem_cons.mp he with rfl | he
      · exact ⟨_, rfl⟩
      · exact htail.1 e he

/-- A preparation has either made only its program check or pinned a program. -/
theorem follows_prepare (h : Follows (invoke config .prepare) tr p) :
    ((∀ e ∈ tr, ∃ look, e.1 = .look look) ∧ (∀ job k, p ≠ .ask (.await job) k)) ∨
      ∃ executable rest, tr = ⟨.look (.canonicalize config.program), some executable⟩ ::
          ⟨.look (.isFile executable), true⟩ :: ⟨.write (some ⟨executable⟩), ()⟩ :: rest ∧
        Follows (verifying config ⟨executable⟩ config.references.entries) rest p := by
  rw [invoke_prepare] at h
  rcases h.of_ask with ⟨rfl, rfl⟩ | ⟨path, rest, rfl, hpath⟩
  · exact Or.inl ⟨by simp, by simp⟩
  cases path with
  | none =>
    obtain ⟨rfl, rfl⟩ := hpath.of_done
    exact Or.inl ⟨by simp, by simp⟩
  | some executable =>
    rcases hpath.of_ask with ⟨rfl, rfl⟩ | ⟨isFile, rest, rfl, hfile⟩
    · exact Or.inl ⟨by simp, by simp⟩
    cases isFile with
    | false =>
      obtain ⟨rfl, rfl⟩ := hfile.of_done
      exact Or.inl ⟨by simp, by simp⟩
    | true =>
      rcases hfile.of_ask with ⟨rfl, rfl⟩ | ⟨_, rest, rfl, hwrote⟩
      · exact Or.inl ⟨by simp, by simp⟩
      · exact Or.inr ⟨executable, rest, rfl, hwrote⟩

/-- A preparation that awaits a run has left the run's program in the cell, and fails as
soon as the run does. -/
theorem prepare_awaits {job : CommandRequest} {k : Except Unit String → CommandCall}
    (h : Follows (invoke config .prepare) tr (.ask (.await job) k)) :
    (∀ cell, lastWrite cell tr = some ⟨job.executable⟩) ∧ ∃ rest failure, ∀ b, k b = match b with
      | .ok _ => verifying config ⟨job.executable⟩ rest
      | .error _ => .done (.prepared (.error failure)) := by
  rcases follows_prepare h with ⟨-, hno⟩ | ⟨executable, rest, rfl, hrest⟩
  · exact absurd rfl (hno job k)
  obtain ⟨hawaits, hstage⟩ := follows_verifying hrest
  rcases hstage with ⟨entries, hp⟩ | ⟨failure, hp⟩
  · cases entries with
    | nil => cases hp
    | cons entry entries =>
      rw [verifying_cons] at hp
      cases hp
      refine ⟨?_, entries, unavailable entry.1, ?_⟩
      · intro cell
        change lastWrite (some ⟨executable⟩) rest = some ⟨executable⟩
        apply lastWrite_of_no_write
        rw [List.any_eq_false]
        intro e he
        obtain ⟨job, hq⟩ := hawaits e he
        rw [hq]
        exact Bool.false_ne_true
      · intro b
        cases b <;> rfl
  · cases hp

end

section
variable {C : AcceptedConfig} {request : Invocation} {tr : CommandTrace} {p : CommandCall}

/-- A resolution that awaits its run has read the program of the run. -/
theorem follows_resolve {request : ResolveRequest}
    (h : Follows (invoke C.toCommandConfig (.resolve request)) tr p) :
    (∀ e ∈ tr, isWrite e.1 = false) ∧ ∀ job k, p = .ask (.await job) k →
      ∃ source prepared, C.references.get? request.reference = some source ∧
        ⟨.read, some prepared⟩ ∈ tr ∧ job = commandRequest C.toCommandConfig prepared source ∧
        ∀ b, ∃ reply, k b = .done (.resolved reply) := by
  obtain ⟨reference⟩ := request
  cases hb : C.references.get? reference with
  | none =>
    rw [invoke_resolve_of_unbound C hb] at h
    obtain ⟨rfl, rfl⟩ := h.of_done
    exact ⟨by simp, by simp⟩
  | some source =>
    rw [invoke_resolve_of_bound C hb] at h
    rcases h.of_ask with ⟨rfl, rfl⟩ | ⟨prepared, rest, rfl, hread⟩
    · exact ⟨by simp, by simp⟩
    cases prepared with
    | none =>
      obtain ⟨rfl, rfl⟩ := hread.of_done
      exact ⟨by simp [isWrite], by simp⟩
    | some prepared =>
      rcases hread.of_ask with ⟨rfl, rfl⟩ | ⟨result, rest, rfl, hresult⟩
      · refine ⟨by simp [isWrite], ?_⟩
        intro job k hp
        cases hp
        exact ⟨source, prepared, rfl, List.mem_cons_self, rfl, fun b => ⟨_, rfl⟩⟩
      · obtain ⟨rfl, rfl⟩ := hresult.of_done
        exact ⟨by simp [isWrite], by simp⟩

/-- A run is awaited for the program the call has pinned or read. -/
theorem awaited_program {job : CommandRequest} {k : Except Unit String → CommandCall}
    (h : Follows (invoke C.toCommandConfig request) tr (.ask (.await job) k)) :
    job.configuredProgram = C.program ∧
      ((request = .prepare ∧ Pinned C.toCommandConfig job.executable tr) ∨
        ⟨.read, some ⟨job.executable⟩⟩ ∈ tr) := by
  cases request with
  | prepare =>
    rcases follows_prepare h with ⟨-, hno⟩ | ⟨executable, rest, rfl, hrest⟩
    · exact absurd rfl (hno job k)
    · rcases (follows_verifying hrest).2 with ⟨entries, hp⟩ | ⟨failure, hp⟩
      · cases entries with
        | nil => cases hp
        | cons entry entries =>
          rw [verifying_cons] at hp
          cases hp
          exact ⟨rfl, Or.inl ⟨rfl, by simp [commandRequest], by simp [commandRequest]⟩⟩
      · cases hp
  | resolve request =>
    obtain ⟨source, prepared, -, hread, rfl, -⟩ := (follows_resolve h).2 job k rfl
    exact ⟨rfl, Or.inr hread⟩
  | deactivate =>
    rcases h.of_ask with ⟨-, hp⟩ | ⟨_, rest, -, hrest⟩
    · cases hp
    · cases hrest.of_done.2

/-- The only program written is one the call has pinned. -/
theorem written_program {executable : PathBuf}
    (h : Follows (invoke C.toCommandConfig request) tr p)
    (hwrite : ⟨.write (some ⟨executable⟩), ()⟩ ∈ tr) :
    request = .prepare ∧ Pinned C.toCommandConfig executable tr := by
  cases request with
  | prepare =>
    rcases follows_prepare h with ⟨hlook, -⟩ | ⟨executable', rest, rfl, hrest⟩
    · obtain ⟨look, hq⟩ := hlook _ hwrite
      cases hq
    · simp only [List.mem_cons, Sigma.mk.injEq, reduceCtorEq, false_and, false_or,
        Ask.write.injEq, Option.some.injEq, PreparedProgram.mk.injEq, heq_eq_eq, and_true]
        at hwrite
      rcases hwrite with rfl | hwrite
      · exact ⟨rfl, by simp, by simp⟩
      · obtain ⟨job, hq⟩ := (follows_verifying hrest).1 _ hwrite
        cases hq
  | resolve request =>
    have hno := (follows_resolve h).1 _ hwrite
    cases hno
  | deactivate =>
    rcases h.of_ask with ⟨rfl, -⟩ | ⟨_, rest, rfl, hrest⟩
    · cases hwrite
    · obtain ⟨rfl, -⟩ := hrest.of_done
      cases List.mem_singleton.mp hwrite

/-- Only a preparation returns what a preparation returns. -/
theorem prepare_of_failed {request : Invocation} {tr : CommandTrace} {failure : RuntimeFailure}
    (h : Follows (invoke C.toCommandConfig request) tr (.done (.prepared (.error failure)))) :
    request = .prepare := by
  cases request with
  | prepare => rfl
  | resolve request =>
    obtain ⟨reference⟩ := request
    cases hb : C.references.get? reference with
    | none =>
      rw [invoke_resolve_of_unbound C hb] at h
      cases h.of_done.2
    | some source =>
      rw [invoke_resolve_of_bound C hb] at h
      rcases h.of_ask with ⟨-, hp⟩ | ⟨prepared, rest, -, hrest⟩
      · cases hp
      cases prepared with
      | none => cases hrest.of_done.2
      | some prepared =>
        rcases hrest.of_ask with ⟨-, hp⟩ | ⟨result, rest, -, hresult⟩
        · cases hp
        · cases hresult.of_done.2
  | deactivate =>
    rcases h.of_ask with ⟨-, hp⟩ | ⟨_, rest, -, hrest⟩
    · cases hp
    · cases hrest.of_done.2

/-- A call writes nothing after it has been suspended. -/
theorem no_write_after_await {job : CommandRequest} {k : Except Unit String → CommandCall}
    (h : Follows (invoke C.toCommandConfig request) tr (.ask (.await job) k))
    {b : Except Unit String} {tr' : CommandTrace} (h' : Follows (k b) tr' p) :
    (tr'.any fun e => isWrite e.1) = false := by
  rw [List.any_eq_false]
  cases request with
  | prepare =>
    rcases follows_prepare h with ⟨-, hno⟩ | ⟨executable, rest, rfl, hrest⟩
    · exact absurd rfl (hno job k)
    · have hnext := hrest.snoc b
      have hlater := hnext.trans h'
      intro e he
      obtain ⟨job', hq⟩ := (follows_verifying hlater).1 e (List.mem_append_right _ he)
      rw [hq]
      simp [isWrite]
  | resolve request =>
    obtain ⟨source, prepared, -, -, -, hdone⟩ := (follows_resolve h).2 job k rfl
    obtain ⟨reply, hreply⟩ := hdone b
    rw [hreply] at h'
    obtain ⟨rfl, -⟩ := h'.of_done
    simp
  | deactivate =>
    rcases h.of_ask with ⟨-, hp⟩ | ⟨_, rest, -, hrest⟩
    · cases hp
    · cases hrest.of_done.2

end

section
variable (C : AcceptedConfig) (outside : History Access.Answer) (t : ℕ)
variable (cell : Option PreparedProgram) {reference source : String}

theorem settle_verifying (config : CommandConfig) (prepared : PreparedProgram)
    (entries : List (String × String)) :
    settle outside t cell (verifying config prepared entries) =
      ⟨[], verifying config prepared entries⟩ := by
  cases entries with
  | nil => rfl
  | cons entry entries =>
    rw [verifying_cons]
    rfl

theorem settle_prepare (config : CommandConfig) :
    settle outside t cell (invoke config .prepare) =
      match outside t (.canonicalize config.program) with
      | none => ⟨[⟨.look (.canonicalize config.program), none⟩],
          .done (.prepared (.error (invalidPlan "Secrets command program is unavailable")))⟩
      | some executable =>
        if outside (t + 1) (.isFile executable) then
          ⟨[⟨.look (.canonicalize config.program), some executable⟩,
            ⟨.look (.isFile executable), true⟩, ⟨.write (some ⟨executable⟩), ()⟩],
            verifying config ⟨executable⟩ config.references.entries⟩
        else ⟨[⟨.look (.canonicalize config.program), some executable⟩,
            ⟨.look (.isFile executable), false⟩],
          .done (.prepared
            (.error (invalidPlan "Secrets command program is not a regular file")))⟩ := by
  rw [invoke_prepare, settle]
  generalize outside t (.canonicalize config.program) = path
  cases path with
  | none => rfl
  | some executable =>
    dsimp only
    rw [settle]
    generalize outside (t + 1) (.isFile executable) = isFile
    cases isFile with
    | false => rfl
    | true =>
      rw [if_pos rfl, if_pos rfl, settle, settle_verifying]
      rfl

/-- A resolution of a configured reference is suspended if a program is prepared, and
fails at once if none is. -/
theorem settle_resolve_of_bound (hb : C.references.get? reference = some source) :
    settle outside t cell (invoke C.toCommandConfig (.resolve ⟨reference⟩)) = match cell with
      | none => ⟨[⟨.read, none⟩], .done (.resolved (.error (.unavailable capabilityId)))⟩
      | some prepared => ⟨[⟨.read, some prepared⟩],
          .ask (.await (commandRequest C.toCommandConfig prepared source)) fun result =>
            .done (.resolved (PluginError.intoResult ((result.map ResolveResponse.mk).mapError
              fun _ => .runtime (unavailable reference))))⟩ := by
  rw [invoke_resolve_of_bound C hb]
  cases cell <;> rfl

theorem settle_resolve_of_unbound (hb : C.references.get? reference = none) :
    settle outside t cell (invoke C.toCommandConfig (.resolve ⟨reference⟩)) =
      ⟨[], .done (.resolved (.ok (.error
        (if validReference reference then .unknownReference else .invalidReference))))⟩ := by
  rw [invoke_resolve_of_unbound C hb]
  rfl

/-- A resolution that finds nothing prepared returns in its first segment. -/
theorem settle_resolve_none (request : ResolveRequest) : ∃ tr reply,
    settle outside t none (invoke C.toCommandConfig (.resolve request)) =
      ⟨tr, .done (.resolved reply)⟩ ∧
    ∀ source, C.references.get? request.reference = some source →
      reply = .error (.unavailable capabilityId) := by
  obtain ⟨reference⟩ := request
  cases hb : C.references.get? reference with
  | none => exact ⟨_, _, settle_resolve_of_unbound C outside t none hb, by simp⟩
  | some source => exact ⟨_, _, settle_resolve_of_bound C outside t none hb, fun _ _ => rfl⟩

end

section
variable {request : CommandRequest} {tr : Transcript Access.Answer} {process : Process}

/-- A run spawns the request's program just after finding it at the configured path. -/
theorem spawn_path {k : Option Child → Program Access Access.Answer (Except Unit String)}
    (h : Follows (resolverThread request).run tr (.ask (.spawn process) k)) :
    process.program = request.executable ∧ ∃ names,
      tr = ⟨.spawnThread, true⟩ ::
        ⟨.canonicalize request.configuredProgram, some request.executable⟩ :: names ∧
      ∀ e ∈ names, ∃ name, e.1 = .varOs name := by
  rw [resolverThread_eq] at h
  rcases h.of_ask with ⟨-, hp⟩ | ⟨started, rest, rfl, hstarted⟩
  · cases hp
  cases started with
  | false => cases hstarted.of_done.2
  | true =>
    rw [if_pos rfl, runCommand_eq, Program.ask_bind] at hstarted
    rcases hstarted.of_ask with ⟨-, hp⟩ | ⟨path, rest, rfl, hpath⟩
    · cases hp
    split_ifs at hpath with heq
    · have hvarOs := only_childEnvironment request.environmentAllowlist OrderedMap.empty
      rw [bind_assoc] at hpath
      rcases hpath.of_bind with ⟨q, k', hq, hp⟩ | ⟨environment, names, last, rfl, hnames, hlast⟩
      · obtain ⟨name, rfl⟩ := (hvarOs.follows hq).2.head
        cases hp
      · rcases hlast.of_ask with ⟨rfl, hp⟩ | ⟨child, rest, -, hrest⟩
        · cases hp
          refine ⟨rfl, names, ?_, (hvarOs.follows hnames).1⟩
          rw [heq, List.append_nil]
        · rcases hrest.of_ask with ⟨-, hp⟩ | ⟨_, rest, -, hrest⟩
          · cases hp
          · cases hrest.of_done.2
    · rcases hpath.of_ask with ⟨-, hp⟩ | ⟨_, rest, -, hrest⟩
      · cases hp
      · cases hrest.of_done.2

/-- A run that finds anything else at the configured path only reports its failure. -/
theorem failed_check {path : PathBuf}
    {k : Option PathBuf → Program Access Access.Answer (Except Unit String)}
    (h : Follows (resolverThread request).run tr (.ask (.canonicalize path) k)) :
    path = request.configuredProgram ∧ ∀ answer, answer ≠ some request.executable →
      k answer = .ask .receive fun _ => .done (.error ()) := by
  rw [resolverThread_eq] at h
  rcases h.of_ask with ⟨-, hp⟩ | ⟨started, rest, rfl, hstarted⟩
  · cases hp
  cases started with
  | false => cases hstarted.of_done.2
  | true =>
    rw [if_pos rfl, runCommand_eq, Program.ask_bind] at hstarted
    rcases hstarted.of_ask with ⟨-, hp⟩ | ⟨answer, rest, rfl, hanswer⟩
    · cases hp
      refine ⟨rfl, ?_⟩
      intro answer hne
      dsimp only
      rw [if_neg hne, Program.done_bind]
      simp only [ite_self]
    · refine absurd rfl ((Only.follows (S := fun q => ∀ path, q ≠ .canonicalize path) ?_
        hanswer).2.head path)
      refine Only.bind ?_ (fun result => .ask (by simp) (fun received => .done _))
      split_ifs
      · refine Only.bind ?_ (fun environment => .ask (by simp) (fun child => .done _))
        refine (only_childEnvironment _ _).mono ?_
        intro q hq path hpath
        obtain ⟨name, rfl⟩ := hq
        cases hpath
      · exact .done _

end
end LensoSecrets.CommandProvider
