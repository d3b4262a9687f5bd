import LensoSecrets.CallJobs
import LensoSecrets.CommandReplies
import LensoSecrets.CommandStages
import Mathlib.Algebra.Order.BigOperators.Group.List

/-!
# Whose run an answer comes from

However the calls of an instance and their resolver threads interleave, each run is made
for one call, after it began and with the program the call read or pinned. A preparation's
runs verify the references in their order, one at a time, and stop at the first failure.
-/
namespace LensoSecrets.CommandProvider
open CapabilityContract CooperativeCalls OrderedMaps ProviderContract QueryPrograms

/-- The worker carries out a run of this program for this source, and `p` is left of it. -/
def RunsFor (C : AcceptedConfig) (s : CommandState) (prepared : PreparedProgram) (source : String)
    (w : ℕ) (p : Program Access Access.Answer (Except Unit String)) : Prop :=
  ∃ tr, s.workers[w]? = some (Worker.mk (commandRequest C.toCommandConfig prepared source) tr p) ∧
    Follows (C.resolverRun prepared source) tr p

/-- What a resolution that found `cell` when it began has come to, with its runs. -/
inductive ResolutionStage (C : AcceptedConfig) (s : CommandState) (cell : Option PreparedProgram)
    (reference : String) : CommandCall → List ℕ → Prop
  | unbound (hb : C.references.get? reference = none) :
      ResolutionStage C s cell reference (.done (.resolved (.ok (.error
        (if validReference reference then .unknownReference else .invalidReference))))) []
  | unprepared {source : String} (hb : C.references.get? reference = some source)
      (hcell : cell = none) :
      ResolutionStage C s cell reference (.done (.resolved (.error (.unavailable capabilityId)))) []
  | running {source : String} {prepared : PreparedProgram} {w : ℕ}
      {p : Program Access Access.Answer (Except Unit String)}
      (k : Except Unit String → CommandCall) (hb : C.references.get? reference = some source)
      (hcell : cell = some prepared) (hrun : RunsFor C s prepared source w p) :
      ResolutionStage C s cell reference
        (.ask (.await (commandRequest C.toCommandConfig prepared source)) k) [w]
  | answered {source value : String} {prepared : PreparedProgram} {w : ℕ}
      (hb : C.references.get? reference = some source) (hcell : cell = some prepared)
      (hrun : RunsFor C s prepared source w (.done (.ok value))) :
      ResolutionStage C s cell reference (.done (.resolved (.ok (.ok ⟨value⟩)))) [w]
  | failed {source : String} {prepared : PreparedProgram} {w : ℕ}
      (hb : C.references.get? reference = some source) (hcell : cell = some prepared)
      (hrun : RunsFor C s prepared source w (.done (.error ()))) :
      ResolutionStage C s cell reference (.done (.resolved (.error (unavailable reference)))) [w]

/-- The run for an entry's source has returned a value. -/
def Verified (C : AcceptedConfig) (s : CommandState) (prepared : PreparedProgram)
    (entry : String × String) (w : ℕ) : Prop :=
  ∃ value, RunsFor C s prepared entry.2 w (.done (.ok value))

/-- The program check a preparation begins with has found this file. -/
structure Checked (C : AcceptedConfig) (outside : History Access.Answer) (executable : PathBuf) :
    Prop where
  canonical : outside 0 (.canonicalize C.program) = some executable
  regular : outside 1 (.isFile executable) = true

/-- What a preparation that began with these answers has come to, with its runs. -/
inductive PreparationStage (C : AcceptedConfig) (s : CommandState)
    (outside : History Access.Answer) : CommandCall → List ℕ → Prop
  | rejected (message : String) (hcheck : ∀ executable, ¬ Checked C outside executable) :
      PreparationStage C s outside (.done (.prepared (.error (invalidPlan message)))) []
  | verifying {executable : PathBuf} {verified rest : List (String × String)} {ws : List ℕ}
      {entry : String × String} {w : ℕ} {p : Program Access Access.Answer (Except Unit String)}
      (hcheck : Checked C outside executable)
      (hentries : C.references.entries = verified ++ entry :: rest)
      (hruns : List.Forall₂ (Verified C s ⟨executable⟩) verified ws)
      (hrun : RunsFor C s ⟨executable⟩ entry.2 w p) :
      PreparationStage C s outside
        (CommandProvider.verifying C.toCommandConfig ⟨executable⟩ (entry :: rest)) (ws ++ [w])
  | failed {executable : PathBuf} {verified rest : List (String × String)} {ws : List ℕ}
      {entry : String × String} {w : ℕ} (hcheck : Checked C outside executable)
      (hentries : C.references.entries = verified ++ entry :: rest)
      (hruns : List.Forall₂ (Verified C s ⟨executable⟩) verified ws)
      (hrun : RunsFor C s ⟨executable⟩ entry.2 w (.done (.error ()))) :
      PreparationStage C s outside (.done (.prepared (.error (unavailable entry.1)))) (ws ++ [w])
  | succeeded {executable : PathBuf} {ws : List ℕ} (hcheck : Checked C outside executable)
      (hruns : List.Forall₂ (Verified C s ⟨executable⟩) C.references.entries ws) :
      PreparationStage C s outside (.done (.prepared (.ok ()))) ws

variable {C : AcceptedConfig} {s : CommandState}

theorem runsFor_of_worker (hinv : C.service.Invariant s) {prepared : PreparedProgram}
    {source : String} {w : ℕ} {tr : Transcript Access.Answer}
    {p : Program Access Access.Answer (Except Unit String)}
    (hw : s.workers[w]? = some ⟨commandRequest C.toCommandConfig prepared source, tr, p⟩) :
    RunsFor C s prepared source w p := by
  generalize hjob : commandRequest C.toCommandConfig prepared source = job at hw
  refine ⟨tr, ?_, ?_⟩
  · rw [hjob]
    exact hw
  · rw [AcceptedConfig.resolverRun, hjob]
    exact hinv.workers ⟨job, tr, p⟩ (List.mem_of_getElem? hw)

/-- A call that has returned without awaiting anything has started nothing. -/
theorem no_runs {c : Call (Option PreparedProgram) Access.Answer CommandRequest
      (Except Unit String) Invocation Outcome} {ws : List ℕ} {outcome : Outcome}
    (h : CallRuns s.workers c ws) (hp : c.program = .done outcome) (hawaits : awaits c.trace = []) :
    ws = [] := by
  have hws := h.of_done hp
  rw [hawaits] at hws
  exact List.forall₂_nil_left_iff.mp hws

theorem resolutionStage_of_begun {earlier : CommandState} {entries : List Entry}
    {request : ResolveRequest} {outside : History Access.Answer} {ws : List ℕ}
    {c : Call (Option PreparedProgram) Access.Answer CommandRequest (Except Unit String)
      Invocation Outcome}
    (hinv : C.service.Invariant s)
    (h : Service.Begun C.service earlier s entries (.resolve request) outside c ws) :
    ResolutionStage C s earlier.cell request.reference c.program ws := by
  obtain ⟨reference⟩ := request
  obtain ⟨rest, hawaits, hfollows⟩ := h.after
  have hruns := h.runs
  rw [C.service_call] at hfollows
  cases hb : C.references.get? reference with
  | none =>
    rw [settle_resolve_of_unbound C outside 0 earlier.cell hb] at hfollows
    obtain ⟨hnil, hprogram⟩ := hfollows.of_done
    obtain rfl := no_runs hruns hprogram (hawaits.trans (congrArg awaits hnil))
    rw [hprogram]
    exact .unbound hb
  | some source =>
    rw [settle_resolve_of_bound C outside 0 earlier.cell hb] at hfollows
    cases hcell : earlier.cell with
    | none =>
      rw [hcell] at hfollows
      obtain ⟨hnil, hprogram⟩ := hfollows.of_done
      obtain rfl := no_runs hruns hprogram (hawaits.trans (congrArg awaits hnil))
      rw [hprogram]
      exact .unprepared hb rfl
    | some prepared =>
      rw [hcell] at hfollows
      rcases hfollows.of_ask with ⟨rfl, hprogram⟩ | ⟨result, rest', rfl, hresult⟩
      · obtain ⟨first, w, tr, p, rfl, hws, hworker⟩ := hruns.of_await hprogram
        rw [hawaits] at hws
        obtain rfl := List.forall₂_nil_left_iff.mp hws
        rw [hprogram]
        exact .running _ hb rfl (runsFor_of_worker hinv hworker)
      · obtain ⟨rfl, hprogram⟩ := hresult.of_done
        have hws := hruns.of_done hprogram
        rw [hawaits] at hws
        obtain ⟨w, rest, ⟨tr, hw⟩, hrest, rfl⟩ := List.forall₂_cons_left_iff.mp hws
        obtain rfl := List.forall₂_nil_left_iff.mp hrest
        have hrun := runsFor_of_worker hinv hw
        rw [hprogram]
        cases result with
        | ok value => exact .answered hb rfl hrun
        | error e => exact .failed hb rfl hrun

/-- An answer comes from a run that was made for this very call after it began, on the
source bound to its reference and with the program that was in the cell then. -/
theorem resolution_runs_own_source (C : AcceptedConfig) (inputs later : List CommandInput)
    (request : ResolveRequest) (outside : History Access.Answer) :
    ∃ c ws,
      Service.Begun C.service (C.service.run inputs)
        (C.service.run (inputs ++ .begin (.resolve request) outside :: later))
        (C.service.ledger (inputs ++ .begin (.resolve request) outside :: later))
        (.resolve request) outside c ws ∧
      ResolutionStage C (C.service.run (inputs ++ .begin (.resolve request) outside :: later))
        (C.service.run inputs).cell request.reference c.program ws := by
  obtain ⟨c, ws, h⟩ := Service.begun_run (S := C.service) inputs later (.resolve request) outside
  exact ⟨c, ws, h, resolutionStage_of_begun (Service.invariant_run _) h⟩

theorem forall₂_comp {γ δ ζ : Type} {P : γ → δ → Prop} {Q : δ → ζ → Prop} {R : γ → ζ → Prop}
    (hR : ∀ x y z, P x y → Q y z → R x z) {xs : List γ} {ys : List δ} {zs : List ζ}
    (h : List.Forall₂ P xs ys) (h' : List.Forall₂ Q ys zs) : List.Forall₂ R xs zs := by
  induction h generalizing zs with
  | nil =>
    cases h'
    exact .nil
  | cons hxy h ih =>
    cases h' with
    | cons hyz h' => exact .cons (hR _ _ _ hxy hyz) (ih h')

theorem forall₂_append_left {γ δ : Type} {P : γ → δ → Prop} {xs xs' : List γ} {ys : List δ}
    (h : List.Forall₂ P (xs ++ xs') ys) :
    ∃ first last, List.Forall₂ P xs first ∧ List.Forall₂ P xs' last ∧ ys = first ++ last := by
  induction xs generalizing ys with
  | nil => exact ⟨[], ys, .nil, h, rfl⟩
  | cons x xs ih =>
    cases h with
    | cons hxy h =>
      obtain ⟨first, last, hfirst, hlast, rfl⟩ := ih h
      exact ⟨_ :: first, last, .cons hxy hfirst, hlast, rfl⟩

/-- The run for an entry has been awaited and returned a value. -/
def Received (config : CommandConfig) (prepared : PreparedProgram) (entry : String × String)
    (awaited : CommandRequest × Except Unit String) : Prop :=
  awaited.1 = commandRequest config prepared entry.2 ∧ ∃ value, awaited.2 = .ok value

/-- A verification has received a value for each entry it has passed, in their order. -/
theorem follows_verifying_order {config : CommandConfig} {prepared : PreparedProgram}
    {entries : List (String × String)} {tr : CommandTrace} {p : CommandCall}
    (h : Follows (verifying config prepared entries) tr p) :
    ∃ verified rest first, entries = verified ++ rest ∧
      List.Forall₂ (Received config prepared) verified first ∧
      ((awaits tr = first ∧ p = verifying config prepared rest) ∨
        ∃ entry rest', rest = entry :: rest' ∧
          awaits tr = first ++ [(commandRequest config prepared entry.2, .error ())] ∧
          p = .done (.prepared (.error (unavailable entry.1)))) := by
  induction entries generalizing tr with
  | nil =>
    obtain ⟨rfl, rfl⟩ := h.of_done
    exact ⟨[], [], [], rfl, .nil, Or.inl ⟨rfl, rfl⟩⟩
  | cons entry entries ih =>
    have hcons := verifying_cons config prepared entry entries
    rw [hcons] at h
    rcases h.of_ask with ⟨rfl, rfl⟩ | ⟨result, rest, rfl, hrest⟩
    · exact ⟨[], entry :: entries, [], rfl, .nil, Or.inl ⟨rfl, hcons.symm⟩⟩
    cases result with
    | error e =>
      obtain ⟨rfl, rfl⟩ := hrest.of_done
      exact ⟨[], entry :: entries, [], rfl, .nil, Or.inr ⟨entry, entries, rfl, rfl, rfl⟩⟩
    | ok value =>
      obtain ⟨verified, later, first, rfl, hfirst, hstage⟩ := ih hrest
      refine ⟨entry :: verified, later, (_, .ok value) :: first, rfl,
        .cons ⟨rfl, value, rfl⟩ hfirst, ?_⟩
      rcases hstage with ⟨htr, hp⟩ | ⟨entry', rest', hlater, htr, hp⟩
      · exact Or.inl ⟨congrArg _ htr, hp⟩
      · exact Or.inr ⟨entry', rest', hlater, congrArg _ htr, hp⟩

theorem verified_of_received (hinv : C.service.Invariant s) {prepared : PreparedProgram}
    {verified : List (String × String)} {first : List (CommandRequest × Except Unit String)}
    {ws : List ℕ} (h : List.Forall₂ (Received C.toCommandConfig prepared) verified first)
    (hws : List.Forall₂ (Returned s.workers) first ws) :
    List.Forall₂ (Verified C s prepared) verified ws := by
  refine forall₂_comp ?_ h hws
  intro entry awaited w hreceived hreturned
  obtain ⟨job, result⟩ := awaited
  obtain ⟨rfl, value, rfl⟩ := hreceived
  obtain ⟨tr, hw⟩ := hreturned
  exact ⟨value, runsFor_of_worker hinv hw⟩

/-- The first segment of a preparation is its program check. -/
theorem settle_rejected_or_checked (C : AcceptedConfig) (outside : History Access.Answer)
    (cell : Option PreparedProgram) :
    ((∀ executable, ¬ Checked C outside executable) ∧ ∃ message,
      (settle outside 0 cell (invoke C.toCommandConfig .prepare)).program =
        .done (.prepared (.error (invalidPlan message)))) ∨
      ∃ executable, Checked C outside executable ∧
        (settle outside 0 cell (invoke C.toCommandConfig .prepare)).program =
          verifying C.toCommandConfig ⟨executable⟩ C.references.entries := by
  rw [settle_prepare]
  cases hpath : outside 0 (.canonicalize C.program) with
  | none =>
    refine Or.inl ⟨?_, _, rfl⟩
    intro executable hchecked
    have hcanonical := hchecked.canonical
    rw [hpath] at hcanonical
    cases hcanonical
  | some executable =>
    cases hfile : outside 1 (.isFile executable) with
    | true =>
      refine Or.inr ⟨executable, ⟨hpath, hfile⟩, ?_⟩
      simp only [hfile, if_true, Nat.zero_add]
    | false =>
      refine Or.inl ⟨?_, "Secrets command program is not a regular file", ?_⟩
      · intro executable' hchecked
        have hcanonical := hchecked.canonical
        rw [hpath, Option.some.injEq] at hcanonical
        subst hcanonical
        have hregular := hchecked.regular
        rw [hfile] at hregular
        cases hregular
      · simp only [hfile, Bool.false_eq_true, if_false, Nat.zero_add]

theorem preparationStage_of_begun {earlier : CommandState} {entries : List Entry}
    {outside : History Access.Answer} {ws : List ℕ}
    {c : Call (Option PreparedProgram) Access.Answer CommandRequest (Except Unit String)
      Invocation Outcome}
    (hinv : C.service.Invariant s)
    (h : Service.Begun C.service earlier s entries .prepare outside c ws) :
    PreparationStage C s outside c.program ws := by
  obtain ⟨rest, hawaits, hfollows⟩ := h.after
  have hruns := h.runs
  rw [C.service_call] at hfollows
  rcases settle_rejected_or_checked C outside earlier.cell with
    ⟨hcheck, message, hdone⟩ | ⟨executable, hcheck, hverifying⟩
  · rw [hdone] at hfollows
    obtain ⟨hnil, hprogram⟩ := hfollows.of_done
    obtain rfl := no_runs hruns hprogram (hawaits.trans (congrArg awaits hnil))
    rw [hprogram]
    exact .rejected message hcheck
  rw [hverifying] at hfollows
  obtain ⟨verified, later, first, hentries, hfirst, hstage⟩ := follows_verifying_order hfollows
  rcases hstage with ⟨htr, hprogram⟩ | ⟨entry, rest', rfl, htr, hprogram⟩
  · cases later with
    | nil =>
      have hws := hruns.of_done hprogram
      rw [hawaits.trans htr] at hws
      rw [List.append_nil] at hentries
      rw [← hentries] at hfirst
      rw [hprogram]
      exact .succeeded hcheck (verified_of_received hinv hfirst hws)
    | cons entry later =>
      have hask := hprogram
      rw [verifying_cons] at hask
      obtain ⟨first', w, tr, p, rfl, hws, hworker⟩ := hruns.of_await hask
      rw [hawaits.trans htr] at hws
      rw [hprogram]
      exact .verifying hcheck hentries (verified_of_received hinv hfirst hws)
        (runsFor_of_worker hinv hworker)
  · have hws := hruns.of_done hprogram
    rw [hawaits.trans htr] at hws
    obtain ⟨ws', last, hws', hlast, rfl⟩ := forall₂_append_left hws
    obtain ⟨w, none, ⟨tr, hw⟩, hnone, rfl⟩ := List.forall₂_cons_left_iff.mp hlast
    obtain rfl := List.forall₂_nil_left_iff.mp hnone
    rw [hprogram]
    exact .failed hcheck hentries (verified_of_received hinv hfirst hws')
      (runsFor_of_worker hinv hw)

/-- A preparation runs the resolver once for each reference, in the order of the references,
each run after the one before has returned a value; it fails at the first that returns none,
and succeeds when all have. -/
theorem preparation_runs_in_order (C : AcceptedConfig) (inputs later : List CommandInput)
    (outside : History Access.Answer) :
    ∃ c ws,
      Service.Begun C.service (C.service.run inputs)
        (C.service.run (inputs ++ .begin .prepare outside :: later))
        (C.service.ledger (inputs ++ .begin .prepare outside :: later)) .prepare outside c ws ∧
      PreparationStage C (C.service.run (inputs ++ .begin .prepare outside :: later)) outside
        c.program ws := by
  obtain ⟨c, ws, h⟩ := Service.begun_run (S := C.service) inputs later .prepare outside
  exact ⟨c, ws, h, preparationStage_of_begun (Service.invariant_run _) h⟩

/-- The most runs a call starts. -/
def mostRuns (C : AcceptedConfig) : Invocation → ℕ
  | .prepare => C.references.entries.length
  | .resolve request => if C.references.containsKey request.reference then 1 else 0
  | .deactivate => 0

theorem PreparationStage.length_le {outside : History Access.Answer} {p : CommandCall}
    {ws : List ℕ} (h : PreparationStage C s outside p ws) :
    ws.length ≤ mostRuns C .prepare := by
  rw [mostRuns]
  cases h with
  | rejected message hcheck => exact Nat.zero_le _
  | verifying hcheck hentries hruns hrun =>
    rw [hentries, List.length_append, List.length_append, hruns.length_eq]
    simp
  | failed hcheck hentries hruns hrun =>
    rw [hentries, List.length_append, List.length_append, hruns.length_eq]
    simp
  | succeeded hcheck hruns => rw [hruns.length_eq]

theorem ResolutionStage.length_le {cell : Option PreparedProgram} {request : ResolveRequest}
    {p : CommandCall} {ws : List ℕ} (h : ResolutionStage C s cell request.reference p ws) :
    ws.length ≤ mostRuns C (.resolve request) := by
  have hbound : ∀ source, C.references.get? request.reference = some source →
      mostRuns C (.resolve request) = 1 := by
    intro source hb
    rw [mostRuns, OrderedMap.containsKey, hb]
    rfl
  cases h with
  | unbound hb => exact Nat.zero_le _
  | unprepared hb hcell => exact Nat.zero_le _
  | running k hb hcell hrun => rw [hbound _ hb, List.length_singleton]
  | answered hb hcell hrun => rw [hbound _ hb, List.length_singleton]
  | failed hb hcell hrun => rw [hbound _ hb, List.length_singleton]

theorem length_le_of_begun {earlier : CommandState} {entries : List Entry} {request : Invocation}
    {outside : History Access.Answer} {ws : List ℕ}
    {c : Call (Option PreparedProgram) Access.Answer CommandRequest (Except Unit String)
      Invocation Outcome}
    (hinv : C.service.Invariant s)
    (h : Service.Begun C.service earlier s entries request outside c ws) :
    ws.length ≤ mostRuns C request := by
  cases request with
  | prepare => exact (preparationStage_of_begun hinv h).length_le
  | resolve request => exact (resolutionStage_of_begun hinv h).length_le
  | deactivate =>
    obtain ⟨rest, hawaits, hfollows⟩ := h.after
    have hdone : (settle outside 0 earlier.cell (C.service.call .deactivate)).program =
        .done (.deactivated (.ok ())) := rfl
    rw [hdone] at hfollows
    obtain ⟨hnil, hprogram⟩ := hfollows.of_done
    rw [no_runs h.runs hprogram (hawaits.trans (congrArg awaits hnil))]
    exact Nat.zero_le _

/-- In every state of every run, no more runs have been started than one for each
resolution of a configured reference and one for each preparation and reference, and no
more are at work than calls are suspended. A suspended call whose caller is gone is still
counted: there is no step that drops one. -/
theorem resolver_runs_bounded (C : AcceptedConfig) (inputs : List CommandInput) :
    (C.service.run inputs).workers.length ≤
        ((C.service.run inputs).calls.map fun c => mostRuns C c.request).sum ∧
      (C.service.run inputs).workers.countP Worker.unfinished ≤
        (C.service.run inputs).calls.countP Call.suspended := by
  have haccounted := Service.accounted_run (S := C.service) inputs
  refine ⟨?_, haccounted.unfinished_le⟩
  rw [haccounted.length_workers]
  apply List.Forall₂.sum_le_sum
  rw [List.forall₂_map_left_iff, List.forall₂_map_right_iff, List.forall₂_iff_get]
  refine ⟨haccounted.length, ?_⟩
  intro i hi hi'
  obtain ⟨earlier, request, outside, later, rfl, hlength⟩ := Service.exists_begin inputs hi'
  obtain ⟨c, ws, h⟩ := Service.begun_run (S := C.service) earlier later request outside
  have hcall := h.call
  have hentry := h.entry
  rw [hlength] at hcall hentry
  obtain ⟨_, hc⟩ := List.getElem?_eq_some_iff.mp hcall
  obtain ⟨_, he⟩ := List.getElem?_eq_some_iff.mp hentry
  rw [List.get_eq_getElem, List.get_eq_getElem, hc, he, h.asked]
  exact length_le_of_begun (Service.invariant_run _) h

/-- The kind of outcome a call returns. -/
def Answers : Invocation → Outcome → Prop
  | .prepare, .prepared _ => True
  | .resolve _, .resolved _ => True
  | .deactivate, .deactivated _ => True
  | _, _ => False

theorem answers_of_follows {config : CommandConfig} {request : Invocation} {tr : CommandTrace}
    {outcome : Outcome} (h : Follows (invoke config request) tr (.done outcome)) :
    Answers request outcome := by
  cases request with
  | prepare =>
    rcases h.of_bind with ⟨q, k, -, hp⟩ | ⟨result, first, rest, -, -, hrest⟩
    · cases hp
    · cases hrest.of_done.2
      trivial
  | resolve request =>
    rcases h.of_bind with ⟨q, k, -, hp⟩ | ⟨result, first, rest, -, -, hrest⟩
    · cases hp
    · cases hrest.of_done.2
      trivial
  | deactivate =>
    rcases h.of_bind with ⟨q, k, -, hp⟩ | ⟨result, first, rest, -, -, hrest⟩
    · cases hp
    · cases hrest.of_done.2
      trivial

end LensoSecrets.CommandProvider
