import LensoSecrets.ExecutablePinning

/-!
# What a preparation that fails leaves behind

A preparation writes the cell after its program check and does not restore it when a
resolver run fails. The lifecycle contract holds in a run exactly if no such failure and
no resolution falls into the time between that write and a preparation's success.
-/
namespace LensoSecrets.CommandProvider
open CapabilityContract CooperativeCalls OrderedMaps ProviderContract QueryPrograms
open StandardLibrary

/-- The program check of a preparation that begins with these answers passes. -/
def passesCheck (config : CommandConfig) (outside : History Access.Answer) : Bool :=
  match outside 0 (.canonicalize config.program) with
  | none => false
  | some executable => outside 1 (.isFile executable)

/-- How many preparations have returned Ok. -/
def succeeded (s : CommandState) : ℕ :=
  s.calls.countP fun c => match c.program with
    | .done (.prepared (.ok _)) => true
    | _ => false

/-- An instance, with what has happened since the last deactivation: whether a preparation
has passed its program check, and whether one has returned Ok. -/
structure Lifecycle where
  state : CommandState
  checked : Bool
  ready : Bool

namespace Lifecycle

def start (C : AcceptedConfig) : Lifecycle := ⟨C.service.start, false, false⟩

def step (C : AcceptedConfig) (l : Lifecycle) (x : CommandInput) : Lifecycle where
  state := C.service.step l.state x
  checked := match x with
    | .begin .deactivate _ => false
    | .begin .prepare outside => l.checked || passesCheck C.toCommandConfig outside
    | _ => l.checked
  ready := match x with
    | .begin .deactivate _ => false
    | _ => l.ready || decide (succeeded l.state < succeeded (C.service.step l.state x))

def run (C : AcceptedConfig) (inputs : List CommandInput) : Lifecycle :=
  inputs.foldl (step C) (start C)

end Lifecycle

/-- Every preparation that has returned an error has left the cell as it was when that
preparation began, unless another call has written it. -/
def Restored (s : CommandState) : Prop :=
  ∀ c ∈ s.calls, ∀ failure, c.program = .done (.prepared (.error failure)) →
    c.overwritten = false → s.cell = c.began

/-- What a step must keep: failed preparations leave the cell as it was, and a resolution
starts no run before a preparation has succeeded, but is unavailable at once. -/
structure Kept (C : AcceptedConfig) (l : Lifecycle) (x : CommandInput) : Prop where
  restored : Restored (l.step C x).state
  refused : ∀ request outside, x = .begin (.resolve request) outside → l.ready = false →
    (l.step C x).state.workers = l.state.workers ∧
      ∀ source, C.references.get? request.reference = some source →
        ∃ c, (l.step C x).state.calls[l.state.calls.length]? = some c ∧
          c.program = .done (.resolved (.error (.unavailable capabilityId)))

/-- When a run awaited by a preparation has failed, the preparation's program was in the
cell already when it began, or another call has written since; and no configured reference
is resolved after a program check and before a preparation's success. -/
structure Careful (C : AcceptedConfig) (l : Lifecycle) (x : CommandInput) : Prop where
  verified : ∀ i outside c job k w, x = .resume i outside → l.state.calls[i]? = some c →
    c.request = .prepare → c.program = .ask (.await job) k →
    l.state.workers[c.worker]? = some w → w.program = .done (.error ()) →
    c.overwritten = true ∨ c.began = some ⟨job.executable⟩
  ready : ∀ request outside source, x = .begin (.resolve request) outside →
    C.references.get? request.reference = some source → l.checked = true → l.ready = true

/-- The cell holds a program exactly if one was checked since the last deactivation. -/
structure Tracks (C : AcceptedConfig) (l : Lifecycle) : Prop where
  invariant : C.service.Invariant l.state
  checked : l.checked = l.state.cell.isSome

variable {C : AcceptedConfig} {l : Lifecycle} {s : CommandState}

theorem isSome_cell_begin_prepare (outside : History Access.Answer) :
    (C.service.step s (.begin .prepare outside)).cell.isSome =
      (s.cell.isSome || passesCheck C.toCommandConfig outside) := by
  rw [Service.step_begin, C.service_call, settle_prepare, passesCheck]
  cases outside 0 (.canonicalize C.program) with
  | none => exact (Bool.or_false _).symm
  | some executable =>
    dsimp only
    cases outside 1 (.isFile executable) with
    | false => exact (Bool.or_false _).symm
    | true => exact (Bool.or_true _).symm

theorem Tracks.step (h : Tracks C l) (x : CommandInput) : Tracks C (l.step C x) := by
  refine ⟨h.invariant.step x, ?_⟩
  cases x with
  | begin request outside =>
    cases request with
    | prepare =>
      change (l.checked || passesCheck C.toCommandConfig outside) =
        (C.service.step l.state (.begin .prepare outside)).cell.isSome
      rw [isSome_cell_begin_prepare, h.checked]
    | resolve request =>
      change l.checked = (C.service.step l.state (.begin (.resolve request) outside)).cell.isSome
      rw [cell_begin_resolve, h.checked]
    | deactivate =>
      change false = (C.service.step l.state (.begin .deactivate outside)).cell.isSome
      rw [cell_begin_deactivate]
      rfl
  | work w outside =>
    change l.checked = (C.service.step l.state (.work w outside)).cell.isSome
    rw [cell_work, h.checked]
  | resume i outside =>
    change l.checked = (C.service.step l.state (.resume i outside)).cell.isSome
    rw [cell_resume h.invariant, h.checked]

theorem tracks_run (inputs : List CommandInput) : Tracks C (Lifecycle.run C inputs) := by
  unfold Lifecycle.run
  have hstart : Tracks C (Lifecycle.start C) := ⟨Service.invariant_start, rfl⟩
  generalize Lifecycle.start C = l at hstart
  induction inputs generalizing l with
  | nil => exact hstart
  | cons x inputs ih => exact ih _ (hstart.step x)

/-- A call that neither ran nor was overwritten in a step sees the cell unchanged. -/
theorem restored_of_marked (hres : Restored s) {seg : Segment (Option PreparedProgram)
      Access.Answer CommandRequest (Except Unit String) Outcome}
    {c : Call (Option PreparedProgram) Access.Answer CommandRequest (Except Unit String)
      Invocation Outcome}
    (hc : c ∈ s.calls) {failure : RuntimeFailure}
    (hfailed : (c.mark seg.wrote).program = .done (.prepared (.error failure)))
    (hover : (c.mark seg.wrote).overwritten = false) :
    lastWrite s.cell seg.trace = (c.mark seg.wrote).began := by
  obtain ⟨hold, hwrote⟩ := Bool.or_eq_false_iff.mp hover
  rw [lastWrite_of_no_write s.cell hwrote]
  exact hres c hc failure hfailed hold

/-- A preparation whose program check fails has written nothing. -/
theorem restored_begin (hres : Restored s) (request : Invocation)
    (outside : History Access.Answer) :
    Restored (C.service.step s (.begin request outside)) := by
  rw [Service.step_begin]
  intro c hc failure hfailed hover
  rcases List.mem_append.mp hc with hc | hc
  · obtain ⟨y, hy, rfl⟩ := List.mem_map.mp hc
    exact restored_of_marked hres hy hfailed hover
  · rw [List.mem_singleton.mp hc] at hfailed ⊢
    dsimp only at hfailed ⊢
    have hpath := settle_follows outside 0 s.cell (C.service.call request)
    rw [hfailed] at hpath
    rw [prepare_of_failed hpath, C.service_call, settle_prepare] at hfailed ⊢
    cases hlook : outside 0 (.canonicalize C.program) with
    | none => rfl
    | some executable =>
      simp only [hlook] at hfailed ⊢
      split_ifs at hfailed ⊢
      · exact absurd hfailed (verifying_ne_failed _ _ _ _)
      · rfl

/-- What a preparation becomes when the run it awaits is over. -/
theorem settle_awaited {tr : CommandTrace} {job : CommandRequest}
    {k : Except Unit String → CommandCall}
    (h : Follows (invoke C.toCommandConfig .prepare) tr (.ask (.await job) k))
    (outside : History Access.Answer) (cell : Option PreparedProgram) :
    (∃ failure, settle outside 0 cell (k (.error ())) =
      ⟨[], .done (.prepared (.error failure))⟩) ∧
    ∀ value failure, (settle outside 0 cell (k (.ok value))).program ≠
      .done (.prepared (.error failure)) := by
  obtain ⟨-, rest, failure, hk⟩ := prepare_awaits h
  rw [hk]
  refine ⟨⟨failure, rfl⟩, ?_⟩
  intro value failure' hfailed
  rw [hk, settle_verifying] at hfailed
  exact verifying_ne_failed _ _ _ _ hfailed

theorem restored_resume (h : C.service.Invariant s) (hres : Restored s) (i : ℕ)
    (outside : History Access.Answer)
    (hverified : ∀ c job k w, s.calls[i]? = some c → c.request = .prepare →
      c.program = .ask (.await job) k → s.workers[c.worker]? = some w →
      w.program = .done (.error ()) → c.overwritten = true ∨ c.began = some ⟨job.executable⟩) :
    Restored (C.service.step s (.resume i outside)) := by
  have hinv := h.step (.resume i outside)
  have hcell := cell_resume h i outside
  rcases Service.step_resume (S := C.service) (s := s) i outside with hsame | ⟨c, c', hi, hc, -⟩
  · rw [hsame]
    exact hres
  intro x hx failure hfailed hover
  rw [hcell]
  have hpath := hinv.calls x hx
  rw [hfailed] at hpath
  have hprepare := prepare_of_failed hpath
  obtain ⟨job, k, w, b, hp, hw, hb, heq⟩ := Service.received_eq_some.mp hc
  have hawaits := h.calls c (List.mem_of_getElem? hi)
  rw [hp] at hawaits
  have hundisturbed := h.undisturbed c (List.mem_of_getElem? hi)
  rw [Service.step_resume_of_received hi hc] at hx
  rcases List.mem_or_eq_of_mem_set hx with hx | rfl
  · obtain ⟨y, hy, rfl⟩ := List.mem_map.mp hx
    obtain ⟨hold, -⟩ := Bool.or_eq_false_iff.mp hover
    exact hres y hy failure hfailed hold
  · have hrequest : c.request = .prepare := by
      rw [heq] at hprepare
      exact hprepare
    have hnot : c.overwritten = false := by
      rw [heq] at hover
      exact hover
    have hbegan : c'.began = c.began := by rw [heq]
    have hprogram : c'.program = k b := by rw [heq]
    rw [hrequest] at hawaits
    change s.cell = c'.began
    cases b with
    | ok value =>
      have hne := (settle_awaited hawaits outside s.cell).2 value failure
      rw [← hprogram] at hne
      exact absurd hfailed hne
    | error e =>
      rw [hbegan, hundisturbed hnot, (prepare_awaits hawaits).1]
      rcases hverified c job k w hi hrequest hp hw hb with hover' | hsame
      · rw [hnot] at hover'
        cases hover'
      · exact hsame.symm

theorem restored_step (h : Tracks C l) (hres : Restored l.state) {x : CommandInput}
    (hcareful : Careful C l x) : Restored (l.step C x).state := by
  cases x with
  | begin request outside => exact restored_begin hres request outside
  | work w outside =>
    obtain ⟨hcell, hcalls⟩ := Service.step_work (S := C.service) l.state w outside
    intro c hc
    change c ∈ (C.service.step l.state (.work w outside)).calls at hc
    change ∀ failure, _ → _ → (C.service.step l.state (.work w outside)).cell = c.began
    rw [hcalls] at hc
    rw [hcell]
    exact hres c hc
  | resume i outside =>
    apply restored_resume h.invariant hres
    intro c job k w hi hrequest hp hw hb
    exact hcareful.verified i outside c job k w rfl hi hrequest hp hw hb

theorem kept_of_careful (h : Tracks C l) (hres : Restored l.state) {x : CommandInput}
    (hcareful : Careful C l x) : Kept C l x := by
  refine ⟨restored_step h hres hcareful, ?_⟩
  intro request outside hx hready
  subst hx
  cases hb : C.references.get? request.reference with
  | none =>
    refine ⟨?_, by simp⟩
    change (C.service.step l.state (.begin (.resolve ⟨request.reference⟩) outside)).workers = _
    rw [Service.step_begin, C.service_call, settle_resolve_of_unbound C outside 0 l.state.cell hb]
    exact List.append_nil _
  | some source =>
    have hcell : l.state.cell = none := by
      have hchecked : l.checked ≠ true := by
        intro hchecked
        have htrue := hcareful.ready request outside source rfl hb hchecked
        rw [hready] at htrue
        cases htrue
      rw [h.checked] at hchecked
      simpa using hchecked
    obtain ⟨hworkers, c, reply, hc, hprogram, hreply⟩ :=
      resolve_without_program hcell request outside
    refine ⟨hworkers, ?_⟩
    intro source' _
    rw [hreply source hb] at hprogram
    exact ⟨c, hc, hprogram⟩

/-- A preparation whose run has failed returns an error. -/
theorem failed_resume (h : C.service.Invariant s) {i : ℕ} {c : Call (Option PreparedProgram)
      Access.Answer CommandRequest (Except Unit String) Invocation Outcome}
    {job : CommandRequest} {k : Except Unit String → CommandCall}
    {w : CommandWorker} (hi : s.calls[i]? = some c)
    (hrequest : c.request = .prepare) (hp : c.program = .ask (.await job) k)
    (hw : s.workers[c.worker]? = some w) (hb : w.program = .done (.error ()))
    (outside : History Access.Answer) :
    ∃ x ∈ (C.service.step s (.resume i outside)).calls, ∃ failure,
      x.program = .done (.prepared (.error failure)) ∧ x.overwritten = c.overwritten ∧
      x.began = c.began := by
  have hreceived : s.received c = some { c with
      trace := c.trace ++ [⟨.await job, .error ()⟩], program := k (.error ()) } :=
    Service.received_eq_some.mpr ⟨job, k, w, .error (), hp, hw, hb, rfl⟩
  have hawaits := h.calls c (List.mem_of_getElem? hi)
  rw [hp, hrequest] at hawaits
  obtain ⟨⟨failure, hsettle⟩, -⟩ := settle_awaited hawaits outside s.cell
  obtain ⟨hlt, -⟩ := List.getElem?_eq_some_iff.mp hi
  rw [Service.step_resume_of_received hi hreceived]
  refine ⟨_, List.mem_set ?_ _, failure, congrArg Segment.program hsettle, rfl, rfl⟩
  rw [List.length_map]
  exact hlt

theorem careful_of_kept (h : Tracks C l) {x : CommandInput} (hkept : Kept C l x) :
    Careful C l x := by
  refine ⟨?_, ?_⟩
  · intro i outside c job k w hx hi hrequest hp hw hb
    subst hx
    have hc := List.mem_of_getElem? hi
    cases hover : c.overwritten with
    | true => exact Or.inl rfl
    | false =>
      right
      obtain ⟨y, hy, failure, hfailed, hsame, hbegan⟩ :=
        failed_resume h.invariant hi hrequest hp hw hb outside
      have hrestored := hkept.restored y hy failure hfailed (hsame.trans hover)
      have hcell : (l.step C (.resume i outside)).state.cell = l.state.cell :=
        cell_resume h.invariant i outside
      have hawaits := h.invariant.calls c hc
      rw [hp, hrequest] at hawaits
      rw [hcell, hbegan, h.invariant.undisturbed c hc hover, (prepare_awaits hawaits).1]
        at hrestored
      exact hrestored.symm
  · intro request outside source hx hb hchecked
    subst hx
    by_contra hready
    obtain ⟨hworkers, -⟩ := hkept.refused request outside rfl (Bool.eq_false_iff.mpr hready)
    rw [h.checked] at hchecked
    obtain ⟨prepared, hcell⟩ := Option.isSome_iff_exists.mp hchecked
    change (C.service.step l.state (.begin (.resolve ⟨request.reference⟩) outside)).workers = _
      at hworkers
    rw [Service.step_begin, C.service_call, settle_resolve_of_bound C outside 0 l.state.cell hb,
      hcell] at hworkers
    have hlength := congrArg List.length hworkers
    change (l.state.workers ++ [_]).length = _ at hlength
    rw [List.length_append, List.length_singleton] at hlength
    omega

theorem state_run (inputs : List CommandInput) :
    (Lifecycle.run C inputs).state = C.service.run inputs := by
  unfold Lifecycle.run Service.run
  have hstart : (Lifecycle.start C).state = C.service.start := rfl
  generalize Lifecycle.start C = l at hstart
  generalize C.service.start = s at hstart
  induction inputs generalizing l s with
  | nil => exact hstart
  | cons x inputs ih =>
    refine ih _ _ ?_
    change C.service.step l.state x = C.service.step s x
    rw [hstart]

/-- A predicate of a state and the next step holds at every step of a run. -/
def EveryStep (C : AcceptedConfig) (P : Lifecycle → CommandInput → Prop)
    (inputs : List CommandInput) : Prop :=
  ∀ before x after, inputs = before ++ x :: after → P (Lifecycle.run C before) x

theorem restored_run {inputs : List CommandInput} (hcareful : EveryStep C (Careful C) inputs) :
    Restored (Lifecycle.run C inputs).state := by
  induction inputs using List.reverseRecOn with
  | nil =>
    intro c hc
    cases hc
  | append_singleton inputs x ih =>
    have hbefore : EveryStep C (Careful C) inputs := by
      intro before y after hinputs
      apply hcareful before y (after ++ [x])
      rw [hinputs, List.append_assoc, List.cons_append]
    have hrun : Lifecycle.run C (inputs ++ [x]) = (Lifecycle.run C inputs).step C x :=
      List.foldl_concat _ _ _ _
    rw [hrun]
    exact restored_step (tracks_run inputs) (ih hbefore) (hcareful inputs x [] rfl)

/-- In any run of one instance the contract is kept at every step exactly if every step
meets the condition. -/
theorem kept_iff_careful (C : AcceptedConfig) (inputs : List CommandInput) :
    EveryStep C (Kept C) inputs ↔ EveryStep C (Careful C) inputs := by
  constructor
  · intro hkept before x after hinputs
    exact careful_of_kept (tracks_run before) (hkept before x after hinputs)
  · intro hcareful before x after hinputs
    have hbefore : EveryStep C (Careful C) before := by
      intro earlier y later hearlier
      apply hcareful earlier y (later ++ x :: after)
      rw [hinputs, hearlier, List.append_assoc, List.cons_append]
    exact kept_of_careful (tracks_run before) (restored_run hbefore)
      (hcareful before x after hinputs)

/-- A preparation whose only resolver run fails at the spawn, and a resolution after it. -/
def failedPreparation : List CommandInput :=
  firstSpawn ++ [.work 0 unmovedAnswers, .work 0 unmovedAnswers,
    .resume 0 (fun _ => unmovedAnswers)]

/-- The failed preparation leaves its program behind, and the resolution runs it. -/
theorem failedPreparation_resolves :
    ¬ EveryStep singleReference (Kept singleReference)
      (failedPreparation ++ [.begin (.resolve ⟨"a"⟩) (fun _ => unmovedAnswers)]) := by
  intro hkept
  have hresolve := hkept failedPreparation
    (.begin (.resolve ⟨"a"⟩) (fun _ => unmovedAnswers)) [] rfl
  have hworkers := (hresolve.refused ⟨"a"⟩ _ rfl rfl).1
  have hlength := congrArg List.length hworkers
  exact absurd hlength (by decide)

end LensoSecrets.CommandProvider
