import LensoSecrets.ProgramPaths

/-!
# Cooperative calls over one shared cell

A service answers calls. A call runs without interruption until it returns or awaits a
job; a job is carried out by a worker of its own, one query at a time, while other calls
and workers take steps and the outside changes arbitrarily. Calls share one cell, which
only they read and write.
-/
namespace LensoSecrets.CooperativeCalls
open QueryPrograms

/-- What a call does besides computing. -/
inductive Ask (σ ι κ : Type) where
  | read
  | write (value : σ)
  | look (query : ι)
  | await (job : κ)

abbrev Ask.Answer {σ ι κ : Type} (ρ : ι → Type) (β : Type) : Ask σ ι κ → Type
  | .read => σ
  | .write _ => Unit
  | .look q => ρ q
  | .await _ => β

variable {σ ι κ ν α β : Type} {ρ : ι → Type}

/-- The program of a call. -/
abbrev CallProgram (σ : Type) {ι : Type} (ρ : ι → Type) (κ β α : Type) :=
  Program (Ask σ ι κ) (Ask.Answer ρ β) α

abbrev CallTrace (σ : Type) {ι : Type} (ρ : ι → Type) (κ β : Type) :=
  Transcript (@Ask.Answer σ ι κ ρ β)

/-- The value of the cell after a trace of a call. -/
def lastWrite : σ → CallTrace σ ρ κ β → σ
  | s, [] => s
  | _, ⟨.write v, _⟩ :: tr => lastWrite v tr
  | s, ⟨.read, _⟩ :: tr => lastWrite s tr
  | s, ⟨.look _, _⟩ :: tr => lastWrite s tr
  | s, ⟨.await _, _⟩ :: tr => lastWrite s tr

def isWrite : Ask σ ι κ → Bool
  | .write _ => true
  | _ => false

/-- What a call does before it is suspended: its queries and the program left. -/
structure Segment (σ : Type) {ι : Type} (ρ : ι → Type) (κ β α : Type) where
  trace : CallTrace σ ρ κ β
  program : CallProgram σ ρ κ β α

def Segment.after (seg : Segment σ ρ κ β α) (e : Σ q : Ask σ ι κ, Ask.Answer ρ β q) :
    Segment σ ρ κ β α :=
  { seg with trace := e :: seg.trace }

def Segment.wrote (seg : Segment σ ρ κ β α) : Bool := seg.trace.any fun e => isWrite e.1

/-- Run a call until it returns or awaits a job; the outside may change at every look. -/
def settle (outside : History ρ) : ℕ → σ → CallProgram σ ρ κ β α → Segment σ ρ κ β α
  | _, _, .done a => ⟨[], .done a⟩
  | t, s, .ask .read k => (settle outside t s (k s)).after ⟨.read, s⟩
  | t, _, .ask (.write v) k => (settle outside t v (k ())).after ⟨.write v, ()⟩
  | t, s, .ask (.look q) k =>
    (settle outside (t + 1) s (k (outside t q))).after ⟨.look q, outside t q⟩
  | _, _, .ask (.await job) k => ⟨[], .ask (.await job) k⟩

/-- A service: the cell's first value, the program of a call, the program of a job. -/
structure Service (σ : Type) {ι : Type} (ρ : ι → Type) (κ β ν α : Type) where
  initial : σ
  call : ν → CallProgram σ ρ κ β α
  work : κ → Program ι ρ β

/-- A call: the request, the cell when it began, whether another call has written since,
what it has done, what is left, and the worker whose job it awaits if it is suspended. -/
structure Call (σ : Type) {ι : Type} (ρ : ι → Type) (κ β ν α : Type) where
  request : ν
  began : σ
  overwritten : Bool
  trace : CallTrace σ ρ κ β
  program : CallProgram σ ρ κ β α
  worker : ℕ

structure Worker {ι : Type} (ρ : ι → Type) (κ β : Type) where
  job : κ
  trace : Transcript ρ
  program : Program ι ρ β

structure State (σ : Type) {ι : Type} (ρ : ι → Type) (κ β ν α : Type) where
  cell : σ
  calls : List (Call σ ρ κ β ν α)
  workers : List (Worker ρ κ β)

inductive Input {ι : Type} (ρ : ι → Type) (ν : Type) where
  | begin (request : ν) (outside : History ρ)
  | work (worker : ℕ) (outside : Oracle ρ)
  | resume (call : ℕ) (outside : History ρ)

/-- Mark a call that has been overwritten. -/
def Call.mark (wrote : Bool) (c : Call σ ρ κ β ν α) : Call σ ρ κ β ν α :=
  { c with overwritten := c.overwritten || wrote }

/-- A call after one more segment, whose job, if any, is done by the given worker. -/
def Call.extend (c : Call σ ρ κ β ν α) (seg : Segment σ ρ κ β α) (worker : ℕ) :
    Call σ ρ κ β ν α :=
  { c with trace := c.trace ++ seg.trace, program := seg.program, worker := worker }

/-- The worker started for a suspended call. -/
def started (work : κ → Program ι ρ β) : CallProgram σ ρ κ β α → List (Worker ρ κ β)
  | .ask (.await job) _ => [⟨job, [], work job⟩]
  | _ => []

namespace State

/-- A suspended call whose worker has finished receives what it returned. -/
def received (s : State σ ρ κ β ν α) (c : Call σ ρ κ β ν α) : Option (Call σ ρ κ β ν α) :=
  match c.program with
  | .ask (.await job) k => match s.workers[c.worker]? with
    | some ⟨_, _, .done b⟩ =>
      some { c with trace := c.trace ++ [⟨.await job, b⟩], program := k b }
    | _ => none
  | _ => none

end State

namespace Service
variable (S : Service σ ρ κ β ν α)

def start : State σ ρ κ β ν α := ⟨S.initial, [], []⟩

/-- A call that has done nothing yet joins the others. -/
def enter (s : State σ ρ κ β ν α) (request : ν) : State σ ρ κ β ν α :=
  { s with calls := s.calls ++ [⟨request, s.cell, false, [], S.call request, 0⟩] }

/-- The state after a segment of one call. -/
def settled (s : State σ ρ κ β ν α) (i : ℕ) (c : Call σ ρ κ β ν α)
    (seg : Segment σ ρ κ β α) : State σ ρ κ β ν α where
  cell := lastWrite s.cell seg.trace
  calls := (s.calls.map (Call.mark seg.wrote)).set i (c.extend seg s.workers.length)
  workers := s.workers ++ started S.work seg.program

/-- One call runs until it returns or is suspended again. -/
def runCall (s : State σ ρ κ β ν α) (i : ℕ) (outside : History ρ) : State σ ρ κ β ν α :=
  match s.calls[i]? with
  | none => s
  | some c => S.settled s i c (settle outside 0 s.cell c.program)

/-- One worker makes one query. -/
def runWorker (s : State σ ρ κ β ν α) (w : ℕ) (outside : Oracle ρ) : State σ ρ κ β ν α :=
  match s.workers[w]? with
  | some ⟨job, trace, .ask q k⟩ =>
    { s with workers := s.workers.set w ⟨job, trace ++ [⟨q, outside q⟩], k (outside q)⟩ }
  | _ => s

def step (s : State σ ρ κ β ν α) : Input ρ ν → State σ ρ κ β ν α
  | .begin request outside => S.runCall (S.enter s request) s.calls.length outside
  | .work w outside => runWorker s w outside
  | .resume i outside => match s.calls[i]? with
    | none => s
    | some c => match s.received c with
      | none => s
      | some c' => S.runCall { s with calls := s.calls.set i c' } i outside

def run (inputs : List (Input ρ ν)) : State σ ρ κ β ν α := inputs.foldl S.step S.start

end Service

theorem lastWrite_append (s : σ) (tr tr' : CallTrace σ ρ κ β) :
    lastWrite s (tr ++ tr') = lastWrite (lastWrite s tr) tr' := by
  induction tr generalizing s with
  | nil => rfl
  | cons e tr ih =>
    obtain ⟨q, a⟩ := e
    cases q <;> exact ih _

theorem lastWrite_of_no_write {tr : CallTrace σ ρ κ β} (s : σ)
    (h : (tr.any fun e => isWrite e.1) = false) : lastWrite s tr = s := by
  induction tr generalizing s with
  | nil => rfl
  | cons e tr ih =>
    obtain ⟨q, a⟩ := e
    rw [List.any_cons, Bool.or_eq_false_iff] at h
    cases q with
    | write v => exact absurd h.1 (by simp [isWrite])
    | read => exact ih s h.2
    | look q => exact ih s h.2
    | await job => exact ih s h.2

/-- The cell holds what it held before or a value the trace has written. -/
theorem lastWrite_mem (s : σ) (tr : CallTrace σ ρ κ β) :
    lastWrite s tr = s ∨ ⟨.write (lastWrite s tr), ()⟩ ∈ tr := by
  induction tr generalizing s with
  | nil => exact Or.inl rfl
  | cons e tr ih =>
    obtain ⟨q, a⟩ := e
    cases q with
    | write v =>
      rcases ih v with h | h
      · refine Or.inr (List.mem_cons.mpr (Or.inl ?_))
        change (⟨.write (lastWrite v tr), ()⟩ : Σ q : Ask σ ι κ, Ask.Answer ρ β q) = ⟨.write v, a⟩
        rw [h]
      · exact Or.inr (List.mem_cons_of_mem _ h)
    | read => exact (ih s).imp_right (List.mem_cons_of_mem _)
    | look q => exact (ih s).imp_right (List.mem_cons_of_mem _)
    | await job => exact (ih s).imp_right (List.mem_cons_of_mem _)

variable (outside : History ρ)

theorem settle_follows (t : ℕ) (s : σ) (p : CallProgram σ ρ κ β α) :
    Follows p (settle outside t s p).trace (settle outside t s p).program := by
  induction p generalizing t s with
  | done a => exact .here _
  | ask q k ih =>
    cases q with
    | read => exact Follows.there (k := k) s (ih s t s)
    | write v => exact Follows.there (k := k) () (ih () t v)
    | look q => exact Follows.there (k := k) (outside t q) (ih (outside t q) (t + 1) s)
    | await job => exact .here _

/-- A segment reads what the cell held before it or what it has written itself. -/
theorem settle_reads {t : ℕ} {s v : σ} {p : CallProgram σ ρ κ β α}
    (h : ⟨.read, v⟩ ∈ (settle outside t s p).trace) :
    v = s ∨ ⟨.write v, ()⟩ ∈ (settle outside t s p).trace := by
  induction p generalizing t s with
  | done a => exact absurd h List.not_mem_nil
  | ask q k ih =>
    cases q with
    | read =>
      rcases List.mem_cons.mp h with h | h
      · cases h
        exact Or.inl rfl
      · exact (ih s h).imp_right (List.mem_cons_of_mem _)
    | write w =>
      rcases List.mem_cons.mp h with h | h
      · cases h
      · rcases ih () h with rfl | h
        · exact Or.inr List.mem_cons_self
        · exact Or.inr (List.mem_cons_of_mem _ h)
    | look q =>
      rcases List.mem_cons.mp h with h | h
      · cases h
      · exact (ih _ h).imp_right (List.mem_cons_of_mem _)
    | await job => exact absurd h List.not_mem_nil

variable (S : Service σ ρ κ β ν α)

namespace Service

/-- Some call has written this value, or it is the cell's first. -/
def Held (s : State σ ρ κ β ν α) (v : σ) : Prop :=
  v = S.initial ∨ ∃ c ∈ s.calls, ⟨.write v, ()⟩ ∈ c.trace

/-- Some call has come to await this job. -/
def Awaited (s : State σ ρ κ β ν α) (job : κ) : Prop :=
  ∃ c ∈ s.calls, ∃ tr k, tr <+: c.trace ∧ Follows (S.call c.request) tr (.ask (.await job) k)

/-- Calls and workers follow their programs; jobs and cell values come from calls; the
cell is what a call that has not been overwritten has made of it. -/
structure Invariant (s : State σ ρ κ β ν α) : Prop where
  calls : ∀ c ∈ s.calls, Follows (S.call c.request) c.trace c.program
  workers : ∀ w ∈ s.workers, Follows (S.work w.job) w.trace w.program
  awaited : ∀ w ∈ s.workers, S.Awaited s w.job
  cell : S.Held s s.cell
  reads : ∀ c ∈ s.calls, ∀ v, ⟨.read, v⟩ ∈ c.trace → S.Held s v
  undisturbed : ∀ c ∈ s.calls, c.overwritten = false → s.cell = lastWrite c.began c.trace

/-- Every call is still there and remembers what it has done. -/
def Grows (s s' : State σ ρ κ β ν α) : Prop :=
  ∀ c ∈ s.calls, ∃ c' ∈ s'.calls, c'.request = c.request ∧ c.trace <+: c'.trace

variable {S} {s s' : State σ ρ κ β ν α}

theorem Held.grows {v : σ} (h : S.Held s v) (hg : Grows s s') : S.Held s' v := by
  rcases h with h | ⟨c, hc, hv⟩
  · exact Or.inl h
  · obtain ⟨c', hc', -, hpre⟩ := hg c hc
    exact Or.inr ⟨c', hc', hpre.subset hv⟩

theorem Awaited.grows {job : κ} (h : S.Awaited s job) (hg : Grows s s') : S.Awaited s' job := by
  obtain ⟨c, hc, tr, k, htr, hf⟩ := h
  obtain ⟨c', hc', hreq, hpre⟩ := hg c hc
  exact ⟨c', hc', tr, k, htr.trans hpre, hreq ▸ hf⟩

theorem invariant_start : S.Invariant S.start where
  calls := by simp [start]
  workers := by simp [start]
  awaited := by simp [start]
  cell := Or.inl rfl
  reads := by simp [start]
  undisturbed := by simp [start]

theorem Invariant.enter (h : S.Invariant s) (request : ν) : S.Invariant (S.enter s request) := by
  have hg : Grows s (S.enter s request) := by
    intro c hc
    exact ⟨c, List.mem_append_left _ hc, rfl, List.prefix_rfl⟩
  refine ⟨?_, h.workers, fun w hw => (h.awaited w hw).grows hg, h.cell.grows hg, ?_, ?_⟩
  · intro c hc
    rcases List.mem_append.mp hc with hc | hc
    · exact h.calls c hc
    · rw [List.mem_singleton.mp hc]
      exact .here _
  · intro c hc v hv
    rcases List.mem_append.mp hc with hc | hc
    · exact (h.reads c hc v hv).grows hg
    · rw [List.mem_singleton.mp hc] at hv
      exact absurd hv List.not_mem_nil
  · intro c hc ho
    rcases List.mem_append.mp hc with hc | hc
    · exact h.undisturbed c hc ho
    · rw [List.mem_singleton.mp hc]
      rfl

/-- Putting a later stage of one call in its place. -/
theorem grows_set {calls : List (Call σ ρ κ β ν α)} {c c' : Call σ ρ κ β ν α} {i : ℕ}
    (hi : calls[i]? = some c) (hreq : c'.request = c.request) (hpre : c.trace <+: c'.trace) :
    ∀ x ∈ calls, ∃ y ∈ calls.set i c', y.request = x.request ∧ x.trace <+: y.trace := by
  intro x hx
  obtain ⟨j, hj⟩ := List.mem_iff_getElem?.mp hx
  obtain ⟨hlt, -⟩ := List.getElem?_eq_some_iff.mp hi
  by_cases hij : i = j
  · subst hij
    rw [hi] at hj
    cases hj
    exact ⟨c', List.mem_set hlt c', hreq, hpre⟩
  · refine ⟨x, List.mem_of_getElem? (i := j) ?_, rfl, List.prefix_rfl⟩
    rw [List.getElem?_set_ne hij, hj]

theorem Grows.of_calls_eq_set {c c' : Call σ ρ κ β ν α} {i : ℕ} (hi : s.calls[i]? = some c)
    (hreq : c'.request = c.request) (hpre : c.trace <+: c'.trace)
    (hcalls : s'.calls = s.calls.set i c') : Grows s s' := by
  rw [Grows, hcalls]
  exact grows_set hi hreq hpre

/-- A call that receives what its job's worker returned has made one more query. -/
theorem received_eq_some {c c' : Call σ ρ κ β ν α} : s.received c = some c' ↔
    ∃ job k w b, c.program = .ask (.await job) k ∧ s.workers[c.worker]? = some w ∧
      w.program = .done b ∧
      c' = { c with trace := c.trace ++ [⟨.await job, b⟩], program := k b } := by
  constructor
  · intro h
    unfold State.received at h
    split at h
    · rename_i job k hp
      split at h
      · rename_i b hw
        exact ⟨job, k, _, b, hp, hw, rfl, (Option.some.inj h).symm⟩
      · contradiction
    · contradiction
  · intro h
    obtain ⟨job, k, ⟨_, _, _⟩, b, hp, hw, rfl, rfl⟩ := h
    simp only [State.received, hp, hw]

theorem Invariant.receive (h : S.Invariant s) {c c' : Call σ ρ κ β ν α} {i : ℕ}
    (hi : s.calls[i]? = some c) (hc' : s.received c = some c') :
    S.Invariant { s with calls := s.calls.set i c' } := by
  obtain ⟨job, k, w, b, hp, -, -, heq⟩ := received_eq_some.mp hc'
  have hc : c ∈ s.calls := List.mem_of_getElem? hi
  have hreq : c'.request = c.request := by rw [heq]
  have htrace : c'.trace = c.trace ++ [⟨.await job, b⟩] := by rw [heq]
  have hg : Grows s { s with calls := s.calls.set i c' } :=
    Grows.of_calls_eq_set hi hreq (htrace ▸ List.prefix_append _ _) rfl
  refine ⟨?_, h.workers, fun w hw => (h.awaited w hw).grows hg, h.cell.grows hg, ?_, ?_⟩
  · intro x hx
    rcases List.mem_or_eq_of_mem_set hx with hx | rfl
    · exact h.calls x hx
    · have hf := h.calls c hc
      rw [hp] at hf
      rw [heq]
      exact hf.snoc (k := k) b
  · intro x hx v hv
    rcases List.mem_or_eq_of_mem_set hx with hx | rfl
    · exact (h.reads x hx v hv).grows hg
    · rw [htrace] at hv
      rcases List.mem_append.mp hv with hv | hv
      · exact (h.reads c hc v hv).grows hg
      · cases List.mem_singleton.mp hv
  · intro x hx ho
    rcases List.mem_or_eq_of_mem_set hx with hx | rfl
    · exact h.undisturbed x hx ho
    · have hu := h.undisturbed c hc (by rw [heq] at ho; exact ho)
      rw [heq, lastWrite_append]
      exact hu

theorem Grows.settled {c : Call σ ρ κ β ν α} {i : ℕ} (hi : s.calls[i]? = some c)
    (seg : Segment σ ρ κ β α) : Grows s (S.settled s i c seg) := by
  intro x hx
  have hi' : (s.calls.map (Call.mark seg.wrote))[i]? = some (c.mark seg.wrote) := by
    rw [List.getElem?_map, hi]
    rfl
  have hpre : (c.mark seg.wrote).trace <+: (c.extend seg s.workers.length).trace :=
    List.prefix_append _ _
  have hreq : (c.extend seg s.workers.length).request = (c.mark seg.wrote).request := rfl
  exact grows_set hi' hreq hpre (x.mark seg.wrote) (List.mem_map_of_mem hx)

/-- A call after a segment is the one that ran or an old one, marked. -/
theorem mem_calls_settled {c x : Call σ ρ κ β ν α} {i : ℕ} {seg : Segment σ ρ κ β α}
    (hx : x ∈ (S.settled s i c seg).calls) :
    x = c.extend seg s.workers.length ∨ ∃ y ∈ s.calls, x = y.mark seg.wrote := by
  rcases List.mem_or_eq_of_mem_set hx with hx | hx
  · obtain ⟨y, hy, rfl⟩ := List.mem_map.mp hx
    exact Or.inr ⟨y, hy, rfl⟩
  · exact Or.inl hx

theorem mem_started {work : κ → Program ι ρ β} {p : CallProgram σ ρ κ β α} {w : Worker ρ κ β}
    (hw : w ∈ started work p) :
    ∃ job k, p = .ask (.await job) k ∧ w = ⟨job, [], work job⟩ := by
  unfold started at hw
  split at hw
  · exact ⟨_, _, rfl, List.mem_singleton.mp hw⟩
  · exact absurd hw List.not_mem_nil

theorem Invariant.settled (h : S.Invariant s) {c : Call σ ρ κ β ν α} {i : ℕ}
    (hi : s.calls[i]? = some c) {seg : Segment σ ρ κ β α}
    (hfollows : Follows c.program seg.trace seg.program)
    (hreads : ∀ v, ⟨.read, v⟩ ∈ seg.trace → v = s.cell ∨ ⟨.write v, ()⟩ ∈ seg.trace) :
    S.Invariant (S.settled s i c seg) := by
  have hc : c ∈ s.calls := List.mem_of_getElem? hi
  have hg : Grows s (S.settled s i c seg) := Grows.settled hi seg
  have hpath : Follows (S.call c.request) (c.trace ++ seg.trace) seg.program :=
    (h.calls c hc).trans hfollows
  obtain ⟨hlt, -⟩ := List.getElem?_eq_some_iff.mp hi
  have hself : c.extend seg s.workers.length ∈ (S.settled s i c seg).calls :=
    List.mem_set (by simpa using hlt) _
  have hwritten : ∀ v, ⟨.write v, ()⟩ ∈ seg.trace → S.Held (S.settled s i c seg) v :=
    fun v hv => Or.inr ⟨_, hself, List.mem_append_right _ hv⟩
  refine ⟨?_, ?_, ?_, ?_, ?_, ?_⟩
  · intro x hx
    rcases mem_calls_settled hx with rfl | ⟨y, hy, rfl⟩
    · exact hpath
    · exact h.calls y hy
  · intro w hw
    rcases List.mem_append.mp hw with hw | hw
    · exact h.workers w hw
    · obtain ⟨job, k, -, rfl⟩ := mem_started hw
      exact .here _
  · intro w hw
    rcases List.mem_append.mp hw with hw | hw
    · exact (h.awaited w hw).grows hg
    · obtain ⟨job, k, hp, rfl⟩ := mem_started hw
      exact ⟨_, hself, c.trace ++ seg.trace, k, List.prefix_rfl, hp ▸ hpath⟩
  · rcases lastWrite_mem s.cell seg.trace with hcell | hcell
    · have hold := h.cell.grows hg
      rw [← hcell] at hold
      exact hold
    · exact hwritten _ hcell
  · intro x hx v hv
    rcases mem_calls_settled hx with rfl | ⟨y, hy, rfl⟩
    · rcases List.mem_append.mp hv with hv | hv
      · exact (h.reads c hc v hv).grows hg
      · rcases hreads v hv with rfl | hv
        · exact h.cell.grows hg
        · exact hwritten v hv
    · exact (h.reads y hy v hv).grows hg
  · intro x hx ho
    rcases mem_calls_settled hx with rfl | ⟨y, hy, rfl⟩
    · have hu := h.undisturbed c hc ho
      change lastWrite s.cell seg.trace = lastWrite c.began (c.trace ++ seg.trace)
      rw [lastWrite_append, hu]
    · have hno := Bool.or_eq_false_iff.mp ho
      have hu := h.undisturbed y hy hno.1
      change lastWrite s.cell seg.trace = _
      rw [lastWrite_of_no_write s.cell hno.2]
      exact hu

theorem runCall_eq {c : Call σ ρ κ β ν α} {i : ℕ} (hi : s.calls[i]? = some c)
    (outside : History ρ) :
    S.runCall s i outside = S.settled s i c (settle outside 0 s.cell c.program) := by
  simp only [runCall, hi]

/-- A resumption changes nothing unless a suspended call's worker has finished. -/
theorem step_resume (i : ℕ) (outside : History ρ) :
    S.step s (.resume i outside) = s ∨ ∃ c c', s.calls[i]? = some c ∧
      s.received c = some c' ∧ S.step s (.resume i outside) =
        S.runCall { s with calls := s.calls.set i c' } i outside := by
  cases hi : s.calls[i]? with
  | none => exact Or.inl (by simp only [step, hi])
  | some c =>
    cases hc : s.received c with
    | none => exact Or.inl (by simp only [step, hi, hc])
    | some c' => exact Or.inr ⟨c, c', rfl, hc, by simp only [step, hi, hc]⟩

/-- A worker's step leaves the cell and the calls alone. -/
theorem step_work (s : State σ ρ κ β ν α) (w : ℕ) (outside : Oracle ρ) :
    (S.step s (.work w outside)).cell = s.cell ∧ (S.step s (.work w outside)).calls = s.calls := by
  rw [step, runWorker]
  split
  · exact ⟨rfl, rfl⟩
  · exact ⟨rfl, rfl⟩

/-- A beginning call joins the others after its first segment. -/
theorem step_begin (s : State σ ρ κ β ν α) (request : ν) (outside : History ρ) :
    S.step s (.begin request outside) =
      let seg := settle outside 0 s.cell (S.call request)
      { cell := lastWrite s.cell seg.trace
        calls := s.calls.map (Call.mark seg.wrote) ++
          [⟨request, s.cell, false, seg.trace, seg.program, s.workers.length⟩]
        workers := s.workers ++ started S.work seg.program } := by
  have hi : (S.enter s request).calls[s.calls.length]? =
      some ⟨request, s.cell, false, [], S.call request, 0⟩ := List.getElem?_concat_length
  have hstep : S.step s (.begin request outside) =
      S.runCall (S.enter s request) s.calls.length outside := rfl
  rw [hstep, runCall_eq hi]
  simp [settled, enter, Call.extend]

/-- The call that has begun is the last one. -/
theorem begun_call (s : State σ ρ κ β ν α) (request : ν) (outside : History ρ) :
    (S.step s (.begin request outside)).calls[s.calls.length]? =
      some ⟨request, s.cell, false, (settle outside 0 s.cell (S.call request)).trace,
        (settle outside 0 s.cell (S.call request)).program, s.workers.length⟩ := by
  rw [step_begin]
  simp

/-- A call that has received its job's result runs one more segment. -/
theorem step_resume_of_received {c c' : Call σ ρ κ β ν α} {i : ℕ} (hi : s.calls[i]? = some c)
    (hc : s.received c = some c') (outside : History ρ) :
    S.step s (.resume i outside) =
      let seg := settle outside 0 s.cell c'.program
      { cell := lastWrite s.cell seg.trace
        calls := (s.calls.map (Call.mark seg.wrote)).set i (c'.extend seg s.workers.length)
        workers := s.workers ++ started S.work seg.program } := by
  obtain ⟨hlt, -⟩ := List.getElem?_eq_some_iff.mp hi
  have hi' : (s.calls.set i c')[i]? = some c' := List.getElem?_set_self hlt
  have hstep : S.step s (.resume i outside) =
      S.runCall { s with calls := s.calls.set i c' } i outside := by
    simp only [step, hi, hc]
  have hi'' : ({ s with calls := s.calls.set i c' } : State σ ρ κ β ν α).calls[i]? = some c' := hi'
  rw [hstep, runCall_eq hi'']
  simp [settled, List.map_set]

theorem Invariant.runCall (h : S.Invariant s) (i : ℕ) (outside : History ρ) :
    S.Invariant (S.runCall s i outside) := by
  cases hi : s.calls[i]? with
  | none =>
    simp only [Service.runCall, hi]
    exact h
  | some c =>
    rw [runCall_eq hi]
    exact h.settled hi (settle_follows outside 0 s.cell c.program)
      (fun v hv => settle_reads outside hv)

theorem Invariant.runWorker (h : S.Invariant s) (w : ℕ) (outside : Oracle ρ) :
    S.Invariant (Service.runWorker s w outside) := by
  unfold Service.runWorker
  split
  · rename_i job trace q k hw
    have hmem : (⟨job, trace, .ask q k⟩ : Worker ρ κ β) ∈ s.workers := List.mem_of_getElem? hw
    refine ⟨h.calls, ?_, ?_, h.cell, h.reads, h.undisturbed⟩
    · intro x hx
      rcases List.mem_or_eq_of_mem_set hx with hx | rfl
      · exact h.workers x hx
      · exact (h.workers _ hmem).snoc (k := k) (outside q)
    · intro x hx
      rcases List.mem_or_eq_of_mem_set hx with hx | rfl
      · exact h.awaited x hx
      · exact h.awaited ⟨job, trace, .ask q k⟩ hmem
  · exact h

theorem Invariant.step (h : S.Invariant s) (x : Input ρ ν) : S.Invariant (S.step s x) := by
  cases x with
  | begin request outside => exact (h.enter request).runCall _ outside
  | work w outside => exact h.runWorker w outside
  | resume i outside =>
    rcases step_resume (S := S) (s := s) i outside with hsame | ⟨c, c', hi, hc, heq⟩
    · rw [hsame]
      exact h
    · rw [heq]
      exact (h.receive hi hc).runCall i outside

/-- A property of the first state that every step preserves holds in every state of
every run. -/
theorem run_induction {P : State σ ρ κ β ν α → Prop} (hstart : P S.start)
    (hstep : ∀ s x, P s → P (S.step s x)) (inputs : List (Input ρ ν)) : P (S.run inputs) := by
  unfold Service.run
  generalize S.start = s at hstart
  induction inputs generalizing s with
  | nil => exact hstart
  | cons x inputs ih => exact ih _ (hstep s x hstart)

theorem run_append (inputs later : List (Input ρ ν)) :
    S.run (inputs ++ later) = later.foldl S.step (S.run inputs) := List.foldl_append

theorem invariant_run (inputs : List (Input ρ ν)) : S.Invariant (S.run inputs) :=
  run_induction invariant_start (fun _ x h => h.step x) inputs

end Service

end LensoSecrets.CooperativeCalls
