import LensoSecrets.CooperativeCalls

/-!
# Calls made alone

The plain meaning of a call whose jobs run to their end while it waits and which no other
call disturbs. The service realizes it: from any state some steps begin the call, carry
its jobs out and resume it until it returns what it returns alone.
-/
namespace LensoSecrets.CooperativeCalls
open QueryPrograms

variable {σ ι κ ν α β : Type} {ρ : ι → Type}

/-- A call made alone: its jobs run to their end while it waits. The outcome comes with
the value left in the cell. -/
def alone (work : κ → Program ι ρ β) : σ → CallProgram σ ρ κ β α → Program ι ρ (α × σ)
  | s, .done a => .done (a, s)
  | s, .ask .read k => alone work s (k s)
  | _, .ask (.write v) k => alone work v (k ())
  | s, .ask (.look q) k => .ask q (fun a => alone work s (k a))
  | s, .ask (.await job) k => work job >>= fun b => alone work s (k b)

theorem alone_bind {γ : Type} (work : κ → Program ι ρ β) (s : σ) (p : CallProgram σ ρ κ β α)
    (f : α → CallProgram σ ρ κ β γ) :
    alone work s (p >>= f) = alone work s p >>= fun out => alone work out.2 (f out.1) := by
  induction p generalizing s with
  | done a => rfl
  | ask q k ih =>
    cases q with
    | read => exact ih s s
    | write v => exact ih () v
    | look q => exact congrArg (Program.ask q) (funext fun a => ih a s)
    | await job =>
      change (work job >>= fun b => alone work s (k b >>= f)) =
        (work job >>= fun b => alone work s (k b)) >>= _
      rw [bind_assoc]
      exact congrArg _ (funext fun b => ih b s)

/-- How many looks a trace has taken. -/
def looks : CallTrace σ ρ κ β → ℕ
  | [] => 0
  | ⟨.look _, _⟩ :: tr => looks tr + 1
  | ⟨.read, _⟩ :: tr => looks tr
  | ⟨.write _, _⟩ :: tr => looks tr
  | ⟨.await _, _⟩ :: tr => looks tr

theorem settle_shift (h : History ρ) (t n : ℕ) (s : σ) (p : CallProgram σ ρ κ β α) :
    settle (fun i => h (t + i)) n s p = settle h (t + n) s p := by
  induction p generalizing n s with
  | done a => rfl
  | ask q k ih =>
    cases q with
    | read => exact congrArg (Segment.after · ⟨.read, s⟩) (ih s n s)
    | write v => exact congrArg (Segment.after · ⟨.write v, ()⟩) (ih () n v)
    | look q =>
      have hnext := ih (h (t + n) q) (n + 1) s
      exact congrArg (Segment.after · ⟨.look q, h (t + n) q⟩) hnext
    | await job => rfl

/-- A call made alone does what is left of it after its first segment. -/
theorem result_alone_settle (work : κ → Program ι ρ β) (h : History ρ) (t : ℕ) (s : σ)
    (p : CallProgram σ ρ κ β α) :
    Program.result h t (alone work s p) =
      Program.result h (t + looks (settle h t s p).trace)
        (alone work (lastWrite s (settle h t s p).trace) (settle h t s p).program) := by
  induction p generalizing t s with
  | done a => rfl
  | ask q k ih =>
    cases q with
    | read => exact ih s t s
    | write v => exact ih () t v
    | look q =>
      have hnext := ih (h t q) (t + 1) s
      rw [Nat.add_right_comm] at hnext
      exact hnext
    | await job => rfl

namespace Service
variable (S : Service σ ρ κ β ν α)

/-- Some steps lead from one state to another. -/
def Reaches (s s' : State σ ρ κ β ν α) : Prop :=
  ∃ inputs : List (Input ρ ν), inputs.foldl S.step s = s'

variable {S} {s s' s'' : State σ ρ κ β ν α}

theorem Reaches.refl (s : State σ ρ κ β ν α) : S.Reaches s s := ⟨[], rfl⟩

theorem Reaches.trans (h : S.Reaches s s') (h' : S.Reaches s' s'') : S.Reaches s s'' := by
  obtain ⟨inputs, rfl⟩ := h
  obtain ⟨later, rfl⟩ := h'
  exact ⟨inputs ++ later, List.foldl_append⟩

theorem Reaches.step (s : State σ ρ κ β ν α) (x : Input ρ ν) : S.Reaches s (S.step s x) :=
  ⟨[x], rfl⟩

/-- A worker that takes all its steps finishes its job and changes nothing else. -/
theorem reaches_worker_done (h : History ρ) (t : ℕ) {w : ℕ} {job : κ} {tr : Transcript ρ}
    {p : Program ι ρ β} (hw : s.workers[w]? = some (Worker.mk job tr p)) :
    ∃ tr', S.Reaches s
      { s with workers := s.workers.set w ⟨job, tr', .done (Program.result h t p)⟩ } := by
  induction p generalizing s t tr with
  | done b =>
    obtain ⟨hlt, heq⟩ := List.getElem?_eq_some_iff.mp hw
    refine ⟨tr, ?_⟩
    rw [Program.result_done, ← heq, List.set_getElem_self]
    exact Reaches.refl s
  | ask q k ih =>
    obtain ⟨hlt, -⟩ := List.getElem?_eq_some_iff.mp hw
    have hstep : S.step s (.work w (h t)) = { s with
        workers := s.workers.set w ⟨job, tr ++ [⟨q, h t q⟩], k (h t q)⟩ } := by
      simp only [step, runWorker, hw]
    have hnext : (S.step s (.work w (h t))).workers[w]? =
        some (Worker.mk job (tr ++ [⟨q, h t q⟩]) (k (h t q))) := by
      rw [hstep]
      exact List.getElem?_set_self hlt
    obtain ⟨tr', hreach⟩ := ih (h t q) (t + 1) hnext
    refine ⟨tr', (Reaches.step s (.work w (h t))).trans ?_⟩
    rw [hstep] at hreach
    rw [hstep]
    rwa [List.set_set] at hreach

/-- A suspended call whose worker has not begun comes to run again with the job's result,
in the same cell. -/
theorem reaches_resumed (h : History ρ) (t : ℕ) (outside : History ρ) {i : ℕ}
    {c : Call σ ρ κ β ν α} {job : κ} {k : β → CallProgram σ ρ κ β α} {tr : Transcript ρ}
    (hi : s.calls[i]? = some c) (hp : c.program = .ask (.await job) k)
    (hw : s.workers[c.worker]? = some ⟨job, tr, S.work job⟩) :
    ∃ s' c', s'.calls[i]? = some c' ∧ c'.program = k (Program.result h t (S.work job)) ∧
      s'.cell = s.cell ∧ S.Reaches s (S.runCall s' i outside) := by
  obtain ⟨tr', hdone⟩ := reaches_worker_done (S := S) h t hw
  generalize Program.result h t (S.work job) = b at hdone ⊢
  generalize hset : s.workers.set c.worker ⟨job, tr', .done b⟩ = workers at hdone
  have hw' : workers[c.worker]? = some (Worker.mk job tr' (.done b)) := by
    rw [← hset]
    exact List.getElem?_set_self (List.getElem?_eq_some_iff.mp hw).1
  generalize hc' : ({ c with trace := c.trace ++ [⟨.await job, b⟩], program := k b } :
    Call σ ρ κ β ν α) = c'
  have hprogram : c'.program = k b := by rw [← hc']
  have hreceived : ({ s with workers := workers } : State σ ρ κ β ν α).received c = some c' :=
    received_eq_some.mpr ⟨job, k, ⟨job, tr', .done b⟩, b, hp, hw', rfl, hc'.symm⟩
  refine ⟨⟨s.cell, s.calls.set i c', workers⟩, c',
    List.getElem?_set_self (List.getElem?_eq_some_iff.mp hi).1, hprogram, rfl, ?_⟩
  have hstep := Reaches.step (S := S) { s with workers := workers } (.resume i outside)
  simp only [step, hi, hreceived] at hstep
  exact hdone.trans hstep

/-- The state in which a call has returned what it returns alone. -/
def ReturnsAlone (S : Service σ ρ κ β ν α) (h : History ρ) (t : ℕ) (cell : σ)
    (p : CallProgram σ ρ κ β α) (i : ℕ) (s : State σ ρ κ β ν α) : Prop :=
  s.cell = (Program.result h t (alone S.work cell p)).2 ∧ ∃ c, s.calls[i]? = some c ∧
    c.program = .done (Program.result h t (alone S.work cell p)).1

/-- A call that stands at `p` and may run can be carried to its end as if alone. -/
def RunsAlone (S : Service σ ρ κ β ν α) (h : History ρ) (p : CallProgram σ ρ κ β α) : Prop :=
  ∀ (s : State σ ρ κ β ν α) (i : ℕ) (c : Call σ ρ κ β ν α) (t : ℕ), s.calls[i]? = some c →
    c.program = p → ∃ s', S.Reaches (S.runCall s i fun n => h (t + n)) s' ∧
      S.ReturnsAlone h t s.cell p i s'

/-- It is enough that this holds again after every job the first segment may await. -/
theorem runsAlone_of_resumed {h : History ρ} {p : CallProgram σ ρ κ β α}
    (hsettled : ∀ t s, (∃ a, (settle h t s p).program = .done a) ∨
      ∃ job k, (settle h t s p).program = .ask (.await job) k ∧ ∀ b, RunsAlone S h (k b)) :
    RunsAlone S h p := by
  intro s i c t hi hp
  have hlt : i < s.calls.length := (List.getElem?_eq_some_iff.mp hi).1
  have hshift : settle (fun n => h (t + n)) 0 s.cell c.program = settle h t s.cell p := by
    rw [hp]
    exact settle_shift h t 0 s.cell p
  unfold ReturnsAlone
  rw [runCall_eq hi, hshift, result_alone_settle]
  have hwill := hsettled t s.cell
  generalize settle h t s.cell p = seg at hwill ⊢
  have hcall : (S.settled s i c seg).calls[i]? = some (c.extend seg s.workers.length) := by
    apply List.getElem?_set_self
    rw [List.length_map]
    exact hlt
  rcases hwill with ⟨a, ha⟩ | ⟨job, k, hjob, hresumed⟩
  · refine ⟨S.settled s i c seg, Reaches.refl _, ?_, _, hcall, ?_⟩
    · rw [ha]
      rfl
    · rw [ha]
      exact ha
  · have hworker : (S.settled s i c seg).workers[s.workers.length]? =
        some (Worker.mk job [] (S.work job)) := by
      have hstarted : started S.work seg.program = [Worker.mk job [] (S.work job)] := by
        rw [hjob]
        rfl
      change (s.workers ++ started S.work seg.program)[s.workers.length]? = _
      rw [hstarted]
      exact List.getElem?_concat_length
    -- the job runs from where the segment stopped, and the call goes on where it ended
    have hlater : Program.result h (t + looks seg.trace)
        (alone S.work (lastWrite s.cell seg.trace) seg.program) =
          Program.result h (t + looks seg.trace +
              (Program.transcript h (t + looks seg.trace) (S.work job)).length)
            (alone S.work (lastWrite s.cell seg.trace)
              (k (Program.result h (t + looks seg.trace) (S.work job)))) := by
      rw [hjob]
      exact Program.result_bind h _ _ _
    obtain ⟨s', c', hi', hprogram, hcell, hreach⟩ := reaches_resumed (S := S) h
      (t + looks seg.trace) (fun n => h (t + looks seg.trace +
        (Program.transcript h (t + looks seg.trace) (S.work job)).length + n)) hcall hjob hworker
    obtain ⟨s'', hreach', hreturns⟩ := hresumed _ s' i c' _ hi' hprogram
    unfold ReturnsAlone at hreturns
    rw [hcell] at hreturns
    rw [hlater]
    exact ⟨s'', hreach.trans hreach', hreturns⟩

/-- Every call can be carried to its end as if alone. -/
theorem runsAlone (h : History ρ) (p : CallProgram σ ρ κ β α) : RunsAlone S h p := by
  apply runsAlone_of_resumed
  induction p with
  | done a => exact fun t s => Or.inl ⟨a, rfl⟩
  | ask q k ih =>
    intro t s
    cases q with
    | read => exact ih s t s
    | write v => exact ih () t v
    | look q => exact ih (h t q) (t + 1) s
    | await job => exact Or.inr ⟨job, k, rfl, fun b => runsAlone_of_resumed (ih b)⟩

/-- From any state a call can be begun and carried to its end as if alone. -/
theorem reaches_alone (s : State σ ρ κ β ν α) (request : ν) (h : History ρ) (t : ℕ) :
    ∃ s', S.Reaches s s' ∧ S.ReturnsAlone h t s.cell (S.call request) s.calls.length s' := by
  have hi : (S.enter s request).calls[s.calls.length]? =
      some ⟨request, s.cell, false, [], S.call request, 0⟩ := List.getElem?_concat_length
  obtain ⟨s', hreach, hreturns⟩ := runsAlone h (S.call request) (S.enter s request) _ _ t hi rfl
  exact ⟨s', (Reaches.step s (.begin request fun n => h (t + n))).trans hreach, hreturns⟩

end Service
end LensoSecrets.CooperativeCalls
