import Mathlib.Algebra.Ring.Nat
import LensoSecrets.CommandProvider

/-!
# What a resolver process is given

An accepted configuration has one placeholder among its arguments. The request of a run
puts the source in its place and leaves the other arguments alone; the child finds the
variables of the allowlist in its environment and no others.
-/
namespace LensoSecrets.CommandProvider
open EarlyExit OrderedMaps QueryPrograms StandardLibrary

theorem foldlM_argumentBytes {arguments : List String} {start total : ℕ}
    (h : arguments.foldlM (fun total argument =>
      if containsChar argument nul then none else checkedAdd total (len argument)) start =
        some total) :
    (∀ argument ∈ arguments, containsChar argument nul = false) ∧
      total = start + (arguments.map len).sum := by
  induction arguments generalizing start with
  | nil =>
    rw [List.foldlM_nil] at h
    refine ⟨by simp, ?_⟩
    exact (Option.some.inj h).symm
  | cons argument arguments ih =>
    rw [List.foldlM_cons, Option.bind_eq_bind, Option.bind_eq_some_iff] at h
    obtain ⟨next, hnext, hrest⟩ := h
    rw [checkedAdd] at hnext
    split_ifs at hnext with hnul hsum
    obtain ⟨hclean, htotal⟩ := ih hrest
    have hstep : start + len argument = next := Option.some.inj hnext
    refine ⟨?_, ?_⟩
    · rw [List.forall_mem_cons]
      exact ⟨Bool.eq_false_iff.mpr hnul, hclean⟩
    · rw [htotal, List.map_cons, List.sum_cons]
      omega

theorem argumentBytes_eq_some {arguments : List String} {total : ℕ}
    (h : argumentBytes arguments = some total) :
    (∀ argument ∈ arguments, containsChar argument nul = false) ∧
      total = (arguments.map len).sum := by
  obtain ⟨hclean, htotal⟩ := foldlM_argumentBytes h
  rw [Nat.zero_add] at htotal
  exact ⟨hclean, htotal⟩

theorem contains_self (s : String) : contains s s = true :=
  decide_eq_true List.infix_rfl

/-- The arguments around the placeholder. -/
structure Around (arguments before after : List String) : Prop where
  eq : arguments = before ++ sourcePlaceholder :: after
  plain : ∀ argument ∈ before ++ after, contains argument sourcePlaceholder = false
  clean : ∀ argument ∈ before ++ after, containsChar argument nul = false
  bytes_le : (before.map len).sum + (after.map len).sum ≤ 65536 - 8

theorem AcceptedConfig.exists_around (C : AcceptedConfig) :
    ∃ before after, Around C.arguments before after := by
  have hv := validateConfig_eq_ok.mp C.accepted
  obtain ⟨total, htotal, hbytes⟩ := hv.bytes
  obtain ⟨hclean, rfl⟩ := argumentBytes_eq_some htotal
  have hcount := hv.once
  have hmem : sourcePlaceholder ∈ C.arguments := List.count_pos_iff.mp (by omega)
  obtain ⟨before, after, heq⟩ := List.append_of_mem hmem
  have hsub : ∀ argument ∈ before ++ after, argument ∈ C.arguments := by
    intro argument hargument
    rw [heq, List.mem_append, List.mem_cons]
    rcases List.mem_append.mp hargument with hbefore | hafter
    · exact Or.inl hbefore
    · exact Or.inr (Or.inr hafter)
  refine ⟨before, after, heq, ?_, ?_, ?_⟩
  · intro argument hargument
    by_contra hcontains
    rw [Bool.not_eq_false] at hcontains
    obtain rfl := hv.standalone argument (hsub argument hargument) hcontains
    have hpos := List.count_pos_iff.mpr hargument
    rw [heq, List.count_append, List.count_cons_self] at hcount
    rw [List.count_append] at hpos
    omega
  · intro argument hargument
    exact hclean argument (hsub argument hargument)
  · have hlen : len sourcePlaceholder = 8 := by decide
    have hlimit : maxArgumentBytes = 65536 := rfl
    rw [heq, List.map_append, List.map_cons, List.sum_append, List.sum_cons] at hbytes
    omega

theorem AcceptedConfig.exists_reference (C : AcceptedConfig) :
    ∃ reference source, C.references.get? reference = some source := by
  have hv := validateConfig_eq_ok.mp C.accepted
  have hne : C.references.entries ≠ [] := by
    intro hnil
    have hreferences := hv.references
    rw [OrderedMap.isEmpty, hnil] at hreferences
    contradiction
  obtain ⟨entry, hentry⟩ := List.exists_mem_of_ne_nil _ hne
  exact ⟨entry.1, entry.2, OrderedMap.get?_eq_some.mpr hentry⟩

namespace Around

variable {config : CommandConfig} {before after : List String}

theorem ne_placeholder (h : Around config.arguments before after) {argument : String}
    (hargument : argument ∈ before ++ after) : (argument == sourcePlaceholder) = false := by
  rw [beq_eq_false_iff_ne]
  intro heq
  have hplain := h.plain argument hargument
  rw [heq, contains_self] at hplain
  contradiction

/-- Putting a source in the place of the placeholder, as the request does. -/
theorem map_eq (h : Around config.arguments before after) (source : String) :
    config.arguments.map (fun argument =>
      if argument == sourcePlaceholder then source else argument) = before ++ source :: after := by
  have hplain : ∀ argument ∈ before ++ after,
      (if argument == sourcePlaceholder then source else argument) = id argument := by
    intro argument hargument
    rw [h.ne_placeholder hargument]
    rfl
  have hbefore := List.map_congr_left (fun a ha => hplain a (List.mem_append_left after ha))
  have hafter := List.map_congr_left (fun a ha => hplain a (List.mem_append_right before ha))
  rw [h.eq, List.map_append, List.map_cons, hbefore, hafter, List.map_id, List.map_id,
    beq_self_eq_true]
  rfl

theorem commandRequest_arguments (h : Around config.arguments before after)
    (prepared : PreparedProgram) (source : String) :
    (commandRequest config prepared source).arguments = before ++ source :: after :=
  h.map_eq source

/-- Only the place of the placeholder changes. -/
theorem getElem?_elsewhere (h : Around config.arguments before after) (source : String) {j : ℕ}
    (hj : j ≠ before.length) : (before ++ source :: after)[j]? = config.arguments[j]? := by
  rw [h.eq]
  rcases Nat.lt_or_ge j before.length with hlt | hge
  · rw [List.getElem?_append_left hlt, List.getElem?_append_left hlt]
  · obtain ⟨k, hk⟩ : ∃ k, j - before.length = k + 1 := ⟨j - before.length - 1, by omega⟩
    rw [List.getElem?_append_right hge, List.getElem?_append_right hge, hk,
      List.getElem?_cons_succ, List.getElem?_cons_succ]

theorem mem_of_getElem?_elsewhere {source argument : String} {j : ℕ}
    (hj : j ≠ before.length) (h : (before ++ source :: after)[j]? = some argument) :
    argument ∈ before ++ after := by
  rcases Nat.lt_or_ge j before.length with hlt | hge
  · rw [List.getElem?_append_left hlt] at h
    exact List.mem_append_left after (List.mem_of_getElem? h)
  · obtain ⟨k, hk⟩ : ∃ k, j - before.length = k + 1 := ⟨j - before.length - 1, by omega⟩
    rw [List.getElem?_append_right hge, hk, List.getElem?_cons_succ] at h
    exact List.mem_append_right before (List.mem_of_getElem? h)

end Around

/-- The process environment answers every query of a variable. -/
def Reads (h : History Access.Answer) (environment : String → Option OsString) : Prop :=
  ∀ t name, h t (.varOs name) = environment name

/-- A run spawns this process. -/
def Spawns (h : History Access.Answer) (t : ℕ) (request : CommandRequest) (process : Process) :
    Prop :=
  ∃ child, ⟨.spawn process, child⟩ ∈ Program.transcript h t (runCommand request).run

variable {h : History Access.Answer} {t : ℕ} {request : CommandRequest} {process : Process}
variable {E : String → Option OsString}

/-- Each name of the allowlist takes its variable over, if that is set. -/
theorem get?_childEnvironment (hE : Reads h E) (names : List String)
    (environment : OrderedMap String OsString) (name : String) :
    (Program.result h t (childEnvironment names environment)).get? name =
      if name ∈ names then (E name).or (environment.get? name) else environment.get? name := by
  induction names generalizing environment t with
  | nil => rfl
  | cons first names ih =>
    have hstep : ((E first).elim environment (environment.insert first)).get? name =
        if name = first then (E name).or (environment.get? name) else environment.get? name := by
      cases hfirst : E first with
      | none =>
        split_ifs with heq
        · rw [heq, hfirst]
          rfl
        · rfl
      | some value =>
        rw [Option.elim_some, OrderedMap.get?_insert]
        split_ifs with heq
        · rw [heq, hfirst]
          rfl
        · rfl
    have hask : Program.result h t (childEnvironment (first :: names) environment) =
        Program.result h (t + 1)
          (childEnvironment names ((h t (.varOs first)).elim environment
            (environment.insert first))) := rfl
    rw [hask, ih, hE, hstep]
    simp only [List.mem_cons]
    by_cases heq : name = first
    · simp only [heq, true_or, if_true]
      split_ifs
      · rw [← Option.or_assoc, Option.or_self]
      · rfl
    · simp only [heq, false_or, if_false]

theorem spawns_iff : Spawns h t request process ↔
    h t (.canonicalize request.configuredProgram) = some request.executable ∧
      process = spawnedProcess request h t := by
  rw [Spawns]
  constructor
  · intro hspawns
    obtain ⟨child, hspawn⟩ := hspawns
    obtain ⟨hpath, hprocess, -⟩ := spawn_mem_transcript.mp hspawn
    exact ⟨hpath, hprocess⟩
  · intro hspawned
    obtain ⟨hpath, hprocess⟩ := hspawned
    exact ⟨_, spawn_mem_transcript.mpr ⟨hpath, hprocess, rfl⟩⟩

theorem environment_of_spawns (hE : Reads h E) (hspawn : Spawns h t request process)
    (name : String) : process.environment.get? name =
      if name ∈ request.environmentAllowlist then E name else none := by
  obtain ⟨-, rfl⟩ := spawns_iff.mp hspawn
  rw [spawnedProcess, get?_childEnvironment hE, OrderedMap.get?_empty, Option.or_none]

/-- A process gets the arguments of the configuration with the source at the place `i`,
and of the process environment the variables of the allowlist. -/
structure GivenToResolver (C : AcceptedConfig) (i : ℕ) (source : String)
    (E : String → Option OsString) (process : Process) : Prop where
  length_eq : process.arguments.length = C.arguments.length
  source_at : process.arguments[i]? = some source
  elsewhere : ∀ j ≠ i, process.arguments[j]? = C.arguments[j]?
  plain : ∀ j ≠ i, ∀ argument, process.arguments[j]? = some argument →
    contains argument sourcePlaceholder = false
  clean : ∀ argument ∈ process.arguments, containsChar argument nul = false
  bytes_le : (process.arguments.map len).sum ≤ 65536 - 8 + 4096
  environment : ∀ name, process.environment.get? name =
    if name ∈ C.environmentAllowlist then E name else none

theorem validSourceName_limits {source : String} (h : validSourceName source = true) :
    len source ≤ 4096 ∧ containsChar source nul = false := by
  simp only [validSourceName, ReferenceSyntax.validSourceName, Bool.and_eq_true,
    decide_eq_true_iff, Bool.not_eq_true'] at h
  obtain ⟨⟨-, hlen⟩, hnul⟩ := h
  exact ⟨hlen, hnul⟩

section
variable {C : AcceptedConfig} {before after : List String} {prepared : PreparedProgram}
variable {source : String}

theorem arguments_of_spawns (ha : Around C.arguments before after)
    (hspawn : Spawns h t (commandRequest C.toCommandConfig prepared source) process) :
    process.arguments = before ++ source :: after := by
  obtain ⟨-, rfl⟩ := spawns_iff.mp hspawn
  exact ha.commandRequest_arguments prepared source

theorem givenToResolver_of_spawns (ha : Around C.arguments before after)
    (hsource : validSourceName source = true) (hE : Reads h E)
    (hspawn : Spawns h t (commandRequest C.toCommandConfig prepared source) process) :
    GivenToResolver C before.length source E process := by
  obtain ⟨hlen, hnul⟩ := validSourceName_limits hsource
  have harguments := arguments_of_spawns ha hspawn
  refine ⟨?_, ?_, ?_, ?_, ?_, ?_, ?_⟩
  · rw [harguments, ha.eq, List.length_append, List.length_append, List.length_cons,
      List.length_cons]
  · rw [harguments, List.getElem?_append_right le_rfl, Nat.sub_self]
    rfl
  · intro j hj
    rw [harguments]
    exact ha.getElem?_elsewhere source hj
  · intro j hj argument hargument
    rw [harguments] at hargument
    exact ha.plain argument (Around.mem_of_getElem?_elsewhere hj hargument)
  · intro argument hargument
    rw [harguments, List.mem_append, List.mem_cons] at hargument
    rcases hargument with hbefore | rfl | hafter
    · exact ha.clean argument (List.mem_append_left after hbefore)
    · exact hnul
    · exact ha.clean argument (List.mem_append_right before hafter)
  · have hbytes := ha.bytes_le
    rw [harguments, List.map_append, List.map_cons, List.sum_append, List.sum_cons]
    omega
  · exact environment_of_spawns hE hspawn

end

/-- The answers of a system whose programs are where they are configured. -/
def plainAnswers (executable : PathBuf) (E : String → Option OsString) : Oracle Access.Answer
  | .canonicalize _ => some executable
  | .isFile _ => true
  | .spawnThread => true
  | .varOs name => E name
  | .spawn _ => none
  | .receive => true

/-- There is one place at which every process of the configuration gets its source, all
its other arguments are the configured ones, and its environment is the allowlist's part
of the process environment. So the source can be told from the arguments, and what the
allowlist leaves out makes no difference. -/
theorem resolver_is_given (C : AcceptedConfig) :
    (∃! i, ∀ reference source prepared E h t process,
      C.references.get? reference = some source → Reads h E →
      Spawns h t (commandRequest C.toCommandConfig prepared source) process →
        GivenToResolver C i source E process) ∧
    (∀ source prepared h t, h t (.canonicalize C.program) = some prepared.executable →
      ∃ process, Spawns h t (commandRequest C.toCommandConfig prepared source) process) ∧
    (∀ source source' prepared prepared' h h' t t' process process', source ≠ source' →
      Spawns h t (commandRequest C.toCommandConfig prepared source) process →
      Spawns h' t' (commandRequest C.toCommandConfig prepared' source') process' →
        process.arguments ≠ process'.arguments) ∧
    (∀ source prepared E E' h h' t t' process process',
      (∀ name ∈ C.environmentAllowlist, E name = E' name) → Reads h E → Reads h' E' →
      Spawns h t (commandRequest C.toCommandConfig prepared source) process →
      Spawns h' t' (commandRequest C.toCommandConfig prepared source) process' →
        process = process') := by
  obtain ⟨before, after, ha⟩ := C.exists_around
  refine ⟨⟨before.length, ?_, ?_⟩, ?_, ?_, ?_⟩
  · intro reference source prepared E h t process hsource hE hspawn
    exact givenToResolver_of_spawns ha (C.valid_entry hsource).2 hE hspawn
  · intro i hi
    obtain ⟨reference, source, hsource⟩ := C.exists_reference
    let answers := plainAnswers C.program (fun _ => none)
    have hE : Reads (fun _ => answers) (fun _ => none) := fun _ _ => rfl
    have hspawn : Spawns (fun _ => answers) 0
        (commandRequest C.toCommandConfig ⟨C.program⟩ source) _ := spawns_iff.mpr ⟨rfl, rfl⟩
    -- at any other place the process would still get the placeholder where the source stands
    by_contra hne
    have hgiven := hi _ _ _ _ _ _ _ hsource hE hspawn
    have hplaceholder := hgiven.elsewhere before.length (Ne.symm hne)
    rw [ha.eq, List.getElem?_append_right le_rfl, Nat.sub_self] at hplaceholder
    have hplain := hgiven.plain before.length (Ne.symm hne) sourcePlaceholder hplaceholder
    rw [contains_self] at hplain
    contradiction
  · intro source prepared h t hcanonicalize
    exact ⟨_, spawns_iff.mpr ⟨hcanonicalize, rfl⟩⟩
  · intro source source' prepared prepared' h h' t t' process process' hne hspawn hspawn' heq
    rw [arguments_of_spawns ha hspawn, arguments_of_spawns ha hspawn',
      List.append_cancel_left_eq] at heq
    exact hne (List.cons.inj heq).1
  · intro source prepared E E' h h' t t' process process' hagree hE hE' hspawn hspawn'
    have henvironment : process.environment = process'.environment := by
      apply OrderedMap.ext_get?
      intro name
      rw [environment_of_spawns hE hspawn, environment_of_spawns hE' hspawn']
      split_ifs with hname
      · exact hagree name hname
      · rfl
    obtain ⟨-, rfl⟩ := spawns_iff.mp hspawn
    obtain ⟨-, rfl⟩ := spawns_iff.mp hspawn'
    exact congrArg (Process.mk _ _) henvironment

end LensoSecrets.CommandProvider
