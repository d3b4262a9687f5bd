import LensoSecrets.IsolatedCalls
import Mathlib.Algebra.Ring.Nat
import Mathlib.Data.List.Forall2
import Mathlib.Data.List.Induction
import Mathlib.Data.List.Nodup

/-!
# The jobs of cooperative calls

Every worker carries out one job for one call. A ledger lists for each call the workers it
has started, in order: those whose results it has received, and last the one it awaits if
it is suspended. Every run has a ledger in which each worker stands once.
-/
namespace LensoSecrets.CooperativeCalls
open QueryPrograms

variable {σ ι κ ν α β : Type} {ρ : ι → Type}

/-- The jobs a call has awaited, with what they returned. -/
def awaits : CallTrace σ ρ κ β → List (κ × β)
  | [] => []
  | ⟨.await job, b⟩ :: tr => (job, b) :: awaits tr
  | ⟨.read, _⟩ :: tr => awaits tr
  | ⟨.write _, _⟩ :: tr => awaits tr
  | ⟨.look _, _⟩ :: tr => awaits tr

theorem awaits_append (tr tr' : CallTrace σ ρ κ β) :
    awaits (tr ++ tr') = awaits tr ++ awaits tr' := by
  induction tr with
  | nil => rfl
  | cons e tr ih =>
    obtain ⟨q, a⟩ := e
    cases q with
    | await job => exact congrArg ((job, a) :: ·) ih
    | read => exact ih
    | write v => exact ih
    | look q => exact ih

/-- A segment receives nothing and ends with a result or at a job. -/
theorem settle_stops (outside : History ρ) (t : ℕ) (s : σ) (p : CallProgram σ ρ κ β α) :
    awaits (settle outside t s p).trace = [] ∧
      ((∃ a, (settle outside t s p).program = .done a) ∨
        ∃ job k, (settle outside t s p).program = .ask (.await job) k) := by
  induction p generalizing t s with
  | done a => exact ⟨rfl, Or.inl ⟨a, rfl⟩⟩
  | ask q k ih =>
    cases q with
    | read => exact ih s t s
    | write v => exact ih () t v
    | look q => exact ih (outside t q) (t + 1) s
    | await job => exact ⟨rfl, Or.inr ⟨job, k, rfl⟩⟩

/-- The worker has carried the job out and returned what was received. -/
def Returned (workers : List (Worker ρ κ β)) (awaited : κ × β) (w : ℕ) : Prop :=
  ∃ tr, workers[w]? = some (Worker.mk awaited.1 tr (.done awaited.2))

/-- The workers of a call: those it has received the results of, and the one it awaits. -/
inductive CallRuns (workers : List (Worker ρ κ β)) (c : Call σ ρ κ β ν α) : List ℕ → Prop
  | returned {ws : List ℕ} (a : α) (hprogram : c.program = .done a)
      (hws : List.Forall₂ (Returned workers) (awaits c.trace) ws) : CallRuns workers c ws
  | suspended {ws : List ℕ} {tr : Transcript ρ} {p : Program ι ρ β} (job : κ)
      (k : β → CallProgram σ ρ κ β α) (hprogram : c.program = .ask (.await job) k)
      (hws : List.Forall₂ (Returned workers) (awaits c.trace) ws)
      (hworker : workers[c.worker]? = some (Worker.mk job tr p)) :
    CallRuns workers c (ws ++ [c.worker])

/-- Workers keep their jobs, and what they have returned. -/
def WorkersGrow (workers workers' : List (Worker ρ κ β)) : Prop :=
  ∀ (w : ℕ) (job : κ) (tr : Transcript ρ) (p : Program ι ρ β),
    workers[w]? = some ⟨job, tr, p⟩ → ∃ tr' p',
      workers'[w]? = some (Worker.mk job tr' p') ∧ ∀ b, p = .done b → p' = .done b

theorem WorkersGrow.append (workers more : List (Worker ρ κ β)) :
    WorkersGrow workers (workers ++ more) := by
  intro w job tr p hw
  refine ⟨tr, p, ?_, fun b hb => hb⟩
  obtain ⟨hlt, -⟩ := List.getElem?_eq_some_iff.mp hw
  rw [List.getElem?_append_left hlt, hw]

section
variable {workers workers' : List (Worker ρ κ β)} {c c' : Call σ ρ κ β ν α} {ws : List ℕ}

theorem Returned.grow (hg : WorkersGrow workers workers') {awaited : κ × β} {w : ℕ}
    (h : Returned workers awaited w) : Returned workers' awaited w := by
  obtain ⟨tr, hw⟩ := h
  obtain ⟨tr', p', hw', hdone⟩ := hg _ _ _ _ hw
  rw [hdone _ rfl] at hw'
  exact ⟨tr', hw'⟩

theorem returned_grow (hg : WorkersGrow workers workers') {tr : CallTrace σ ρ κ β}
    (h : List.Forall₂ (Returned workers) (awaits tr) ws) :
    List.Forall₂ (Returned workers') (awaits tr) ws :=
  List.Forall₂.imp (fun _ _ hr => hr.grow hg) h

theorem CallRuns.of_done (h : CallRuns workers c ws) {a : α} (hp : c.program = .done a) :
    List.Forall₂ (Returned workers) (awaits c.trace) ws := by
  cases h with
  | returned a' hp' hws => exact hws
  | suspended job k hp' hws hworker =>
    rw [hp] at hp'
    cases hp'

theorem CallRuns.of_await (h : CallRuns workers c ws) {job : κ} {k : β → CallProgram σ ρ κ β α}
    (hp : c.program = .ask (.await job) k) : ∃ first w tr p, ws = first ++ [w] ∧
      List.Forall₂ (Returned workers) (awaits c.trace) first ∧
      workers[w]? = some (Worker.mk job tr p) := by
  cases h with
  | returned a hp' hws =>
    rw [hp] at hp'
    cases hp'
  | suspended job' k' hp' hws hworker =>
    rw [hp] at hp'
    cases hp'
    exact ⟨_, _, _, _, rfl, hws, hworker⟩

/-- A call that is only marked keeps its workers while workers go on. -/
theorem CallRuns.grow (hg : WorkersGrow workers workers') (h : CallRuns workers c ws)
    (htrace : c'.trace = c.trace) (hprogram : c'.program = c.program)
    (hworker : c'.worker = c.worker) : CallRuns workers' c' ws := by
  cases h with
  | returned a hp hws =>
    refine .returned a (hprogram.trans hp) ?_
    rw [htrace]
    exact returned_grow hg hws
  | suspended job k hp hws hw =>
    obtain ⟨tr', p', hw', -⟩ := hg _ _ _ _ hw
    rw [← hworker] at hw' ⊢
    refine .suspended job k (hprogram.trans hp) ?_ hw'
    rw [htrace]
    exact returned_grow hg hws

/-- A call that receives a result has now received the results of all its workers. -/
theorem CallRuns.receive {s : State σ ρ κ β ν α} (h : CallRuns s.workers c ws)
    (hc : s.received c = some c') :
    List.Forall₂ (Returned s.workers) (awaits c'.trace) ws := by
  obtain ⟨job, k, ⟨job', tr', p'⟩, b, hp, hw, hb, rfl⟩ := Service.received_eq_some.mp hc
  cases h with
  | returned a ha hws =>
    rw [hp] at ha
    cases ha
  | suspended job₂ k₂ hp₂ hws hw₂ =>
    rw [hp] at hp₂
    cases hp₂
    rw [hw] at hw₂
    cases hw₂
    dsimp only at hb ⊢
    rw [awaits_append]
    refine List.rel_append hws ?_
    refine List.Forall₂.cons ⟨tr', ?_⟩ List.Forall₂.nil
    rw [hw, hb]

/-- After a segment the call has started at most one more worker, for the job it awaits. -/
theorem CallRuns.segment (work : κ → Program ι ρ β) {outside : History ρ} {t : ℕ} {s : σ}
    {seg : Segment σ ρ κ β α} (hseg : settle outside t s c.program = seg)
    (hws : List.Forall₂ (Returned workers) (awaits c.trace) ws) :
    CallRuns (workers ++ started work seg.program) (c.extend seg workers.length)
      (ws ++ List.range' workers.length (started work seg.program).length) := by
  obtain ⟨hnone, hstop⟩ := settle_stops outside t s c.program
  rw [hseg] at hnone hstop
  have hawaits : awaits (c.extend seg workers.length).trace = awaits c.trace := by
    rw [Call.extend, awaits_append, hnone, List.append_nil]
  have hgrow := WorkersGrow.append workers (started work seg.program)
  rw [← hawaits] at hws
  rcases hstop with ⟨a, ha⟩ | ⟨job, k, hjob⟩
  · have hnew : started work seg.program = [] := by
      rw [ha]
      rfl
    rw [hnew] at hgrow ⊢
    rw [List.length_nil, List.range'_zero, List.append_nil ws]
    exact .returned a ha (returned_grow hgrow hws)
  · have hnew : started work seg.program = [⟨job, [], work job⟩] := by
      rw [hjob]
      rfl
    rw [hnew] at hgrow ⊢
    rw [List.length_singleton, List.range'_one]
    exact .suspended job k hjob (returned_grow hgrow hws) List.getElem?_concat_length

end

def Worker.unfinished (w : Worker ρ κ β) : Bool :=
  match w.program with
  | .done _ => false
  | .ask _ _ => true

def Call.suspended (c : Call σ ρ κ β ν α) : Bool :=
  match c.program with
  | .done _ => false
  | .ask _ _ => true

/-- Whether the worker at an index has not finished. -/
def unfinishedAt (workers : List (Worker ρ κ β)) (w : ℕ) : Bool :=
  workers[w]?.any Worker.unfinished

theorem countP_unfinishedAt (workers : List (Worker ρ κ β)) :
    (List.range workers.length).countP (unfinishedAt workers) =
      workers.countP Worker.unfinished := by
  induction workers with
  | nil => rfl
  | cons w workers ih =>
    rw [List.length_cons, List.range_succ_eq_map, List.countP_cons, List.countP_cons,
      List.countP_map, ← ih]
    rfl

/-- A call has at most one worker that has not finished, and none after it has returned. -/
theorem CallRuns.unfinished_le {workers : List (Worker ρ κ β)} {c : Call σ ρ κ β ν α}
    {ws : List ℕ} (h : CallRuns workers c ws) :
    ws.countP (unfinishedAt workers) ≤ if c.suspended then 1 else 0 := by
  have hreturned : ∀ {awaited : List (κ × β)} {ws : List ℕ},
      List.Forall₂ (Returned workers) awaited ws → ws.countP (unfinishedAt workers) = 0 := by
    intro awaited ws hws
    induction hws with
    | nil => rfl
    | cons hw hws ih =>
      obtain ⟨tr, hw⟩ := hw
      rw [List.countP_cons, ih, unfinishedAt, hw]
      rfl
  cases h with
  | returned a hp hws =>
    rw [hreturned hws]
    exact Nat.zero_le _
  | suspended job k hp hws hworker =>
    have hsuspended : c.suspended = true := by
      rw [Call.suspended, hp]
    rw [hsuspended, List.countP_append, hreturned hws, Nat.zero_add]
    exact List.countP_le_length

theorem sum_le_countP {γ δ : Type} {f : γ → ℕ} {p : δ → Bool} {xs : List γ} {ys : List δ}
    (h : List.Forall₂ (fun x y => f x ≤ if p y then 1 else 0) xs ys) :
    (xs.map f).sum ≤ ys.countP p := by
  induction h with
  | nil => exact Nat.le_refl 0
  | cons hxy h ih =>
    rw [List.map_cons, List.sum_cons, List.countP_cons]
    omega

/-- A call's entry: how many workers there were when it began, and those it has started. -/
structure Entry where
  before : ℕ
  workers : List ℕ
deriving DecidableEq, Repr

def Entry.add (new : List ℕ) (e : Entry) : Entry := { e with workers := e.workers ++ new }

/-- Adding workers to one entry adds them to the whole ledger. -/
theorem flatMap_modify {ledger : List Entry} {i : ℕ} (hi : i < ledger.length) (new : List ℕ) :
    ((ledger.modify i (Entry.add new)).flatMap Entry.workers).Perm
      (ledger.flatMap Entry.workers ++ new) := by
  induction ledger generalizing i with
  | nil => exact absurd hi (Nat.not_lt_zero i)
  | cons e ledger ih =>
    cases i with
    | zero =>
      rw [List.modify_zero_cons, List.flatMap_cons, List.flatMap_cons, Entry.add,
        List.append_assoc, List.append_assoc]
      exact List.perm_append_comm.append_left e.workers
    | succ i =>
      rw [List.modify_succ_cons, List.flatMap_cons, List.flatMap_cons, List.append_assoc]
      exact (ih (Nat.lt_of_succ_lt_succ hi)).append_left e.workers

theorem mem_modify_add {ledger : List Entry} {i : ℕ} {new : List ℕ} {e : Entry}
    (he : e ∈ ledger.modify i (Entry.add new)) : e ∈ ledger ∨ ∃ e' ∈ ledger, e = e'.add new := by
  obtain ⟨j, hj⟩ := List.mem_iff_getElem?.mp he
  rw [List.getElem?_modify, Option.map_eq_map, Option.map_eq_some_iff] at hj
  obtain ⟨e', hj', rfl⟩ := hj
  split_ifs
  · exact Or.inr ⟨e', List.mem_of_getElem? hj', rfl⟩
  · exact Or.inl (List.mem_of_getElem? hj')

namespace Service
variable (S : Service σ ρ κ β ν α)

/-- The workers a step starts. -/
def newWorkers (s : State σ ρ κ β ν α) (x : Input ρ ν) : List ℕ :=
  List.range' s.workers.length ((S.step s x).workers.length - s.workers.length)

/-- The ledger after a step. -/
def record (s : State σ ρ κ β ν α) (ledger : List Entry) (x : Input ρ ν) : List Entry :=
  match x with
  | .begin _ _ => ledger ++ [⟨s.workers.length, S.newWorkers s x⟩]
  | .work _ _ => ledger
  | .resume i _ => ledger.modify i (Entry.add (S.newWorkers s x))

def ledgerFrom (s : State σ ρ κ β ν α) (ledger : List Entry) : List (Input ρ ν) → List Entry
  | [] => ledger
  | x :: inputs => ledgerFrom (S.step s x) (S.record s ledger x) inputs

/-- The ledger of a run. -/
def ledger (inputs : List (Input ρ ν)) : List Entry := S.ledgerFrom S.start [] inputs

/-- Every call has one entry, every worker stands in one entry and only once, and a call's
workers were started after it began, for the jobs it has awaited. -/
structure Accounted (s : State σ ρ κ β ν α) (ledger : List Entry) : Prop where
  length : ledger.length = s.calls.length
  once : (ledger.flatMap Entry.workers).Perm (List.range s.workers.length)
  calls : ∀ (i : ℕ) (c : Call σ ρ κ β ν α) (e : Entry),
    s.calls[i]? = some c → ledger[i]? = some e → CallRuns s.workers c e.workers
  began : ∀ e ∈ ledger, e.before ≤ s.workers.length
  since : ∀ e ∈ ledger, ∀ w ∈ e.workers, e.before ≤ w

variable {S} {s : State σ ρ κ β ν α} {entries : List Entry}

theorem accounted_start : Accounted S.start [] where
  length := rfl
  once := List.Perm.refl []
  calls := by simp [start]
  began := by simp
  since := by simp

theorem newWorkers_of_append {x : Input ρ ν} {more : List (Worker ρ κ β)}
    (h : (S.step s x).workers = s.workers ++ more) :
    S.newWorkers s x = List.range' s.workers.length more.length := by
  rw [newWorkers, h, List.length_append, Nat.add_sub_cancel_left]

theorem range_append_range' (n k : ℕ) :
    List.range n ++ List.range' n k = List.range (n + k) := by
  rw [List.range_eq_range', List.range_eq_range', ← List.range'_append_1, Nat.zero_add]

theorem Accounted.begin (h : Accounted s entries) (request : ν) (outside : History ρ) :
    Accounted (S.step s (.begin request outside))
      (S.record s entries (.begin request outside)) := by
  have hlast := begun_call (S := S) s request outside
  have hstep := step_begin (S := S) s request outside
  generalize hseg : settle outside 0 s.cell (S.call request) = seg at hlast hstep
  have hworkers : (S.step s (.begin request outside)).workers =
      s.workers ++ started S.work seg.program := by rw [hstep]
  have hcalls : (S.step s (.begin request outside)).calls =
      s.calls.map (Call.mark seg.wrote) ++
        [⟨request, s.cell, false, seg.trace, seg.program, s.workers.length⟩] := by rw [hstep]
  have hnew := newWorkers_of_append hworkers
  have hrecord : S.record s entries (.begin request outside) =
      entries ++ [⟨s.workers.length, S.newWorkers s (.begin request outside)⟩] := rfl
  have hmore : s.workers.length ≤ (S.step s (.begin request outside)).workers.length := by
    rw [hworkers, List.length_append]
    omega
  rw [hrecord, hnew]
  refine ⟨?_, ?_, ?_, ?_, ?_⟩
  · rw [hcalls, List.length_append, List.length_append, List.length_map, h.length]
    rfl
  · rw [hworkers, List.flatMap_append, List.length_append, ← range_append_range']
    have hone := h.once.append_right
      (List.range' s.workers.length (started S.work seg.program).length)
    simpa using hone
  · intro i c e hc he
    rw [hworkers]
    by_cases hi : i < s.calls.length
    · have hi' : i < entries.length := by
        rw [h.length]
        exact hi
      rw [hcalls, List.getElem?_append_left (by rwa [List.length_map]), List.getElem?_map,
        List.getElem?_eq_getElem hi, Option.map_some, Option.some.injEq] at hc
      rw [List.getElem?_append_left hi'] at he
      subst hc
      exact (h.calls i _ e (List.getElem?_eq_getElem hi) he).grow
        (WorkersGrow.append _ _) rfl rfl rfl
    · have hlt : i < entries.length + 1 := by
        have := (List.getElem?_eq_some_iff.mp he).1
        rwa [List.length_append, List.length_singleton] at this
      have hlen := h.length
      obtain rfl : i = s.calls.length := by omega
      rw [← hlen, List.getElem?_concat_length, Option.some.injEq] at he
      rw [hlast, Option.some.injEq] at hc
      subst he
      have hruns := CallRuns.segment (c := ⟨request, s.cell, false, [], S.call request, 0⟩)
        S.work hseg (List.Forall₂.nil (R := Returned s.workers))
      rw [← hc]
      exact hruns
  · intro e he
    rcases List.mem_append.mp he with he | he
    · exact Nat.le_trans (h.began e he) hmore
    · rw [List.mem_singleton.mp he]
      exact hmore
  · intro e he w hw
    rcases List.mem_append.mp he with he | he
    · exact h.since e he w hw
    · rw [List.mem_singleton.mp he] at hw ⊢
      exact (List.mem_range'_1.mp hw).1

/-- A worker that makes a query has not returned before. -/
theorem runWorker_grow (s : State σ ρ κ β ν α) (w : ℕ) (outside : Oracle ρ) :
    WorkersGrow s.workers (runWorker s w outside).workers := by
  unfold runWorker
  split
  · rename_i job trace q k hw
    intro w' job' tr p hw'
    by_cases hsame : w = w'
    · subst hsame
      rw [hw, Option.some.injEq, Worker.mk.injEq] at hw'
      obtain ⟨rfl, -, rfl⟩ := hw'
      refine ⟨_, _, List.getElem?_set_self (List.getElem?_eq_some_iff.mp hw).1, ?_⟩
      intro b hb
      cases hb
    · refine ⟨tr, p, ?_, fun b hb => hb⟩
      rw [List.getElem?_set_ne hsame, hw']
  · intro w' job' tr p hw'
    exact ⟨tr, p, hw', fun b hb => hb⟩

theorem length_runWorker (s : State σ ρ κ β ν α) (w : ℕ) (outside : Oracle ρ) :
    (runWorker s w outside).workers.length = s.workers.length := by
  unfold runWorker
  split
  · exact List.length_set
  · rfl

theorem Accounted.work (h : Accounted s entries) (w : ℕ) (outside : Oracle ρ) :
    Accounted (S.step s (.work w outside)) (S.record s entries (.work w outside)) := by
  obtain ⟨-, hcalls⟩ := step_work (S := S) s w outside
  have hlength : (S.step s (.work w outside)).workers.length = s.workers.length :=
    length_runWorker s w outside
  refine ⟨?_, ?_, ?_, ?_, h.since⟩
  · rw [hcalls]
    exact h.length
  · rw [hlength]
    exact h.once
  · intro i c e hc he
    rw [hcalls] at hc
    exact (h.calls i c e hc he).grow (runWorker_grow s w outside) rfl rfl rfl
  · rw [hlength]
    exact h.began

theorem record_resume (s : State σ ρ κ β ν α) (entries : List Entry) (i : ℕ)
    (outside : History ρ) : S.record s entries (.resume i outside) =
      entries.modify i (Entry.add (S.newWorkers s (.resume i outside))) := rfl

theorem Accounted.resume (h : Accounted s entries) (i : ℕ) (outside : History ρ) :
    Accounted (S.step s (.resume i outside)) (S.record s entries (.resume i outside)) := by
  rcases step_resume (S := S) (s := s) i outside with hsame | ⟨c, c', hi, hc, -⟩
  · have hnew : S.newWorkers s (.resume i outside) = [] := by
      rw [newWorkers, hsame, Nat.sub_self, List.range'_zero]
    have hid : Entry.add [] = id := by
      funext e
      rw [Entry.add, List.append_nil]
      rfl
    rw [record_resume, hsame, hnew, hid, List.modify_id]
    exact h
  have hstep := step_resume_of_received (S := S) hi hc outside
  generalize hseg : settle outside 0 s.cell c'.program = seg at hstep
  have hworkers : (S.step s (.resume i outside)).workers =
      s.workers ++ started S.work seg.program := by rw [hstep]
  have hcalls : (S.step s (.resume i outside)).calls =
      (s.calls.map (Call.mark seg.wrote)).set i (c'.extend seg s.workers.length) := by rw [hstep]
  have hlt : i < s.calls.length := (List.getElem?_eq_some_iff.mp hi).1
  have hlt' : i < entries.length := by
    rw [h.length]
    exact hlt
  have hmore : s.workers.length ≤ (S.step s (.resume i outside)).workers.length := by
    rw [hworkers, List.length_append]
    omega
  rw [record_resume, newWorkers_of_append hworkers]
  refine ⟨?_, ?_, ?_, ?_, ?_⟩
  · rw [hcalls, List.length_modify, List.length_set, List.length_map, h.length]
  · rw [hworkers, List.length_append, ← range_append_range']
    exact (flatMap_modify hlt' _).trans (h.once.append_right _)
  · intro j x e hx he
    rw [hworkers]
    by_cases hij : i = j
    · subst hij
      rw [List.getElem?_modify_eq, List.getElem?_eq_getElem hlt', Option.map_eq_map,
        Option.map_some, Option.some.injEq] at he
      rw [hcalls, List.getElem?_set_self (by rwa [List.length_map]), Option.some.injEq] at hx
      have hreceived := (h.calls i c _ hi (List.getElem?_eq_getElem hlt')).receive hc
      subst he hx
      exact CallRuns.segment S.work hseg hreceived
    · rw [List.getElem?_modify_ne _ _ hij] at he
      rw [hcalls, List.getElem?_set_ne hij, List.getElem?_map, Option.map_eq_some_iff] at hx
      obtain ⟨y, hy, rfl⟩ := hx
      exact (h.calls j y e hy he).grow (WorkersGrow.append _ _) rfl rfl rfl
  · intro e he
    rcases mem_modify_add he with he | ⟨e', he', rfl⟩
    · exact Nat.le_trans (h.began e he) hmore
    · exact Nat.le_trans (h.began e' he') hmore
  · intro e he w hw
    rcases mem_modify_add he with he | ⟨e', he', rfl⟩
    · exact h.since e he w hw
    · rcases List.mem_append.mp hw with hw | hw
      · exact h.since e' he' w hw
      · exact Nat.le_trans (h.began e' he') (List.mem_range'_1.mp hw).1

theorem Accounted.step (h : Accounted s entries) (x : Input ρ ν) :
    Accounted (S.step s x) (S.record s entries x) := by
  cases x with
  | begin request outside => exact h.begin request outside
  | work w outside => exact h.work w outside
  | resume i outside => exact h.resume i outside

theorem Accounted.steps (h : Accounted s entries) (inputs : List (Input ρ ν)) :
    Accounted (inputs.foldl S.step s) (S.ledgerFrom s entries inputs) := by
  induction inputs generalizing s entries with
  | nil => exact h
  | cons x inputs ih => exact ih (h.step x)

/-- The ledger of a run accounts for the state it reaches. -/
theorem accounted_run (inputs : List (Input ρ ν)) :
    Accounted (S.run inputs) (S.ledger inputs) :=
  accounted_start.steps inputs

/-- No more workers are at work than calls wait for one. -/
theorem Accounted.unfinished_le (h : Accounted s entries) :
    s.workers.countP Worker.unfinished ≤ s.calls.countP Call.suspended := by
  rw [← countP_unfinishedAt, ← h.once.countP_eq, List.countP_flatMap]
  apply sum_le_countP
  rw [List.forall₂_iff_get]
  refine ⟨h.length, ?_⟩
  intro i hi hi'
  exact (h.calls i _ _ (List.getElem?_eq_getElem hi') (List.getElem?_eq_getElem hi)).unfinished_le

/-- There are as many workers as the entries list. -/
theorem Accounted.length_workers (h : Accounted s entries) :
    s.workers.length = (entries.map fun e => e.workers.length).sum := by
  rw [← List.length_flatMap, h.once.length_eq, List.length_range]

/-- A worker stands in the entry of one call only. -/
theorem Accounted.owner (h : Accounted s entries) {i j w : ℕ} {e e' : Entry}
    (hi : entries[i]? = some e) (hj : entries[j]? = some e') (hw : w ∈ e.workers)
    (hw' : w ∈ e'.workers) : i = j := by
  have hnodup : (entries.flatMap Entry.workers).Nodup := h.once.nodup_iff.mpr List.nodup_range
  rw [List.nodup_flatMap] at hnodup
  by_contra hne
  obtain ⟨hlt, rfl⟩ := List.getElem?_eq_some_iff.mp hi
  obtain ⟨hlt', rfl⟩ := List.getElem?_eq_some_iff.mp hj
  have hpairs := List.pairwise_iff_getElem.mp hnodup.2
  rcases Nat.lt_or_gt_of_ne hne with hij | hij
  · exact hpairs i j hlt hlt' hij hw hw'
  · exact hpairs j i hlt' hlt hij hw' hw

theorem step_keeps_call {i : ℕ} {c : Call σ ρ κ β ν α} (hi : s.calls[i]? = some c)
    (x : Input ρ ν) : ∃ c', (S.step s x).calls[i]? = some c' ∧ c'.request = c.request ∧
      c.trace <+: c'.trace := by
  cases x with
  | begin request outside =>
    refine ⟨c.mark (settle outside 0 s.cell (S.call request)).wrote, ?_, rfl, List.prefix_rfl⟩
    rw [step_begin, List.getElem?_append_left, List.getElem?_map, hi]
    · rfl
    · rw [List.length_map]
      exact (List.getElem?_eq_some_iff.mp hi).1
  | work w outside =>
    rw [(step_work (S := S) s w outside).2]
    exact ⟨c, hi, rfl, List.prefix_rfl⟩
  | resume j outside =>
    rcases step_resume (S := S) (s := s) j outside with hsame | ⟨x, x', hj, hx, -⟩
    · rw [hsame]
      exact ⟨c, hi, rfl, List.prefix_rfl⟩
    rw [step_resume_of_received hj hx]
    by_cases hij : j = i
    · subst hij
      rw [hi, Option.some.injEq] at hj
      subst hj
      refine ⟨_, List.getElem?_set_self ?_, ?_⟩
      · rw [List.length_map]
        exact (List.getElem?_eq_some_iff.mp hi).1
      · obtain ⟨_, _, _, _, -, -, -, rfl⟩ := received_eq_some.mp hx
        exact ⟨rfl, (List.prefix_append _ _).trans (List.prefix_append _ _)⟩
    · refine ⟨c.mark (settle outside 0 s.cell x'.program).wrote, ?_, rfl, List.prefix_rfl⟩
      rw [List.getElem?_set_ne hij, List.getElem?_map, hi]
      rfl

theorem record_keeps_before {i : ℕ} {e : Entry} (hi : entries[i]? = some e)
    (s : State σ ρ κ β ν α) (x : Input ρ ν) :
    ∃ e', (S.record s entries x)[i]? = some e' ∧ e'.before = e.before := by
  cases x with
  | begin request outside =>
    refine ⟨e, ?_, rfl⟩
    rw [record, List.getElem?_append_left (List.getElem?_eq_some_iff.mp hi).1, hi]
  | work w outside => exact ⟨e, hi, rfl⟩
  | resume j outside =>
    rw [record_resume, List.getElem?_modify, hi]
    refine ⟨_, rfl, ?_⟩
    split_ifs <;> rfl

theorem steps_keep {i : ℕ} {c : Call σ ρ κ β ν α} {e : Entry} (hi : s.calls[i]? = some c)
    (he : entries[i]? = some e) (inputs : List (Input ρ ν)) :
    ∃ c' e', (inputs.foldl S.step s).calls[i]? = some c' ∧
      (S.ledgerFrom s entries inputs)[i]? = some e' ∧ c'.request = c.request ∧
      c.trace <+: c'.trace ∧ e'.before = e.before := by
  induction inputs generalizing s entries c e with
  | nil => exact ⟨c, e, hi, he, rfl, List.prefix_rfl, rfl⟩
  | cons x inputs ih =>
    obtain ⟨c', hc', hrequest, htrace⟩ := step_keeps_call (S := S) hi x
    obtain ⟨e', he', hbefore⟩ := record_keeps_before (S := S) he s x
    obtain ⟨c'', e'', hc'', he'', hrequest', htrace', hbefore'⟩ := ih hc' he'
    exact ⟨c'', e'', hc'', he'', hrequest'.trans hrequest, htrace.trans htrace',
      hbefore'.trans hbefore⟩

theorem ledgerFrom_append (s : State σ ρ κ β ν α) (entries : List Entry)
    (inputs later : List (Input ρ ν)) : S.ledgerFrom s entries (inputs ++ later) =
      S.ledgerFrom (inputs.foldl S.step s) (S.ledgerFrom s entries inputs) later := by
  induction inputs generalizing s entries with
  | nil => rfl
  | cons x inputs ih => exact ih _ _

/-- What has become of a call that began in an earlier state: its entry lists the workers it
has started since then, which no other call's entry lists. -/
structure Begun (S : Service σ ρ κ β ν α) (earlier later : State σ ρ κ β ν α)
    (entries : List Entry) (request : ν) (outside : History ρ) (c : Call σ ρ κ β ν α)
    (ws : List ℕ) : Prop where
  call : later.calls[earlier.calls.length]? = some c
  entry : entries[earlier.calls.length]? = some ⟨earlier.workers.length, ws⟩
  asked : c.request = request
  opening : (settle outside 0 earlier.cell (S.call request)).trace <+: c.trace
  follows : Follows (S.call request) c.trace c.program
  runs : CallRuns later.workers c ws
  since : ∀ w ∈ ws, earlier.workers.length ≤ w
  owner : ∀ w ∈ ws, ∀ (j : ℕ) (e : Entry), entries[j]? = some e → w ∈ e.workers →
    j = earlier.calls.length

/-- What the call has awaited it has awaited after its first segment. -/
theorem Begun.after {earlier later : State σ ρ κ β ν α} {request : ν} {outside : History ρ}
    {c : Call σ ρ κ β ν α} {ws : List ℕ}
    (h : Begun S earlier later entries request outside c ws) :
    ∃ rest, awaits c.trace = awaits rest ∧
      Follows (settle outside 0 earlier.cell (S.call request)).program rest c.program := by
  obtain ⟨rest, hrest⟩ := h.opening
  have hfollows := h.follows
  rw [← hrest] at hfollows
  have hawaits := (settle_stops outside 0 earlier.cell (S.call request)).1
  refine ⟨rest, ?_, (settle_follows outside 0 earlier.cell (S.call request)).drop hfollows⟩
  rw [← hrest, awaits_append, hawaits, List.nil_append]

/-- Whatever happens after a call has begun, the ledger accounts for it. -/
theorem begun_run (inputs later : List (Input ρ ν)) (request : ν) (outside : History ρ) :
    ∃ c ws, Begun S (S.run inputs) (S.run (inputs ++ .begin request outside :: later))
      (S.ledger (inputs ++ .begin request outside :: later)) request outside c ws := by
  have hlast := begun_call (S := S) (S.run inputs) request outside
  have hlength := (accounted_run (S := S) inputs).length
  have hentry : (S.record (S.run inputs) (S.ledger inputs) (.begin request outside))[
      (S.run inputs).calls.length]? =
        some ⟨(S.run inputs).workers.length,
          S.newWorkers (S.run inputs) (.begin request outside)⟩ := by
    rw [record, ← hlength, List.getElem?_concat_length]
  obtain ⟨c, ⟨before, ws⟩, hc, he, hrequest, htrace, hbefore⟩ :=
    steps_keep (S := S) hlast hentry later
  have hrun : S.run (inputs ++ .begin request outside :: later) =
      later.foldl S.step (S.step (S.run inputs) (.begin request outside)) := run_append _ _
  have hledger : S.ledger (inputs ++ .begin request outside :: later) =
      S.ledgerFrom (S.step (S.run inputs) (.begin request outside))
        (S.record (S.run inputs) (S.ledger inputs) (.begin request outside)) later :=
    ledgerFrom_append _ _ _ _
  have haccounted := accounted_run (S := S) (inputs ++ .begin request outside :: later)
  have hfollows := (invariant_run (S := S) (inputs ++ .begin request outside :: later)).calls
  rw [← hrun] at hc
  rw [← hledger] at he
  dsimp only at hrequest htrace hbefore
  subst hrequest hbefore
  refine ⟨c, ws, hc, he, rfl, htrace, hfollows c (List.mem_of_getElem? hc),
    haccounted.calls _ c _ hc he, haccounted.since _ (List.mem_of_getElem? he), ?_⟩
  intro w hw j e hj hwe
  exact haccounted.owner hj he hwe hw

theorem length_calls_step (s : State σ ρ κ β ν α) (x : Input ρ ν) :
    (∃ request outside, x = .begin request outside ∧
      (S.step s x).calls.length = s.calls.length + 1) ∨
      (S.step s x).calls.length = s.calls.length := by
  cases x with
  | begin request outside =>
    refine Or.inl ⟨request, outside, rfl, ?_⟩
    rw [step_begin, List.length_append, List.length_map]
    rfl
  | work w outside =>
    right
    rw [(step_work (S := S) s w outside).2]
  | resume i outside =>
    right
    rcases step_resume (S := S) (s := s) i outside with hsame | ⟨c, c', hi, hc, -⟩
    · rw [hsame]
    · rw [step_resume_of_received hi hc, List.length_set, List.length_map]

/-- Every call of a run has begun in it. -/
theorem exists_begin (inputs : List (Input ρ ν)) {i : ℕ} (hi : i < (S.run inputs).calls.length) :
    ∃ earlier request outside later, inputs = earlier ++ .begin request outside :: later ∧
      (S.run earlier).calls.length = i := by
  induction inputs using List.reverseRecOn with
  | nil => exact absurd hi (Nat.not_lt_zero i)
  | append_singleton inputs x ih =>
    have hrun : S.run (inputs ++ [x]) = S.step (S.run inputs) x := run_append inputs [x]
    have holder : i < (S.run inputs).calls.length → ∃ earlier request outside later,
        inputs ++ [x] = earlier ++ .begin request outside :: later ∧
          (S.run earlier).calls.length = i := by
      intro hlt
      obtain ⟨earlier, request, outside, later, rfl, hlength⟩ := ih hlt
      exact ⟨earlier, request, outside, later ++ [x], by simp, hlength⟩
    rw [hrun] at hi
    rcases length_calls_step (S := S) (S.run inputs) x with
      ⟨request, outside, rfl, hlength⟩ | hlength
    · by_cases hlt : i < (S.run inputs).calls.length
      · exact holder hlt
      · exact ⟨inputs, request, outside, [], rfl, by omega⟩
    · exact holder (by omega)

end Service
end LensoSecrets.CooperativeCalls
