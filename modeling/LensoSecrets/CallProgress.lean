import LensoSecrets.CallJobs
import Mathlib.Logic.Hydra
import Mathlib.Tactic.Abel

/-!
# What calls and workers have left to do

A call and a worker have less left with every query, whatever the answer; a call that is
resumed may start a worker, which has less to do than any call. So every step that begins no
call and changes the state of a service leaves it less.
-/
namespace LensoSecrets.CooperativeCalls
open QueryPrograms Relation

variable {σ ι κ ν α β : Type} {ρ : ι → Type}

/-- What is left of a program after one query. -/
def Below (p' p : Program ι ρ α) : Prop := ∃ q k, ∃ a : ρ q, p = .ask q k ∧ p' = k a

theorem wellFounded_below : WellFounded (Below : Program ι ρ α → Program ι ρ α → Prop) := by
  refine ⟨fun p => ?_⟩
  induction p with
  | done a =>
    refine ⟨_, ?_⟩
    intro p' h
    obtain ⟨q, k, b, hp, -⟩ := h
    cases hp
  | ask q k ih =>
    refine ⟨_, ?_⟩
    intro p' h
    obtain ⟨q', k', b, hp, rfl⟩ := h
    cases hp
    exact ih b

theorem settle_below (outside : History ρ) (t : ℕ) (s : σ) (p : CallProgram σ ρ κ β α) :
    ReflTransGen Below (settle outside t s p).program p := by
  induction p generalizing t s with
  | done a => exact .refl
  | ask q k ih =>
    cases q with
    | read => exact (ih s t s).tail ⟨.read, k, s, rfl, rfl⟩
    | write v => exact (ih () t v).tail ⟨.write v, k, (), rfl, rfl⟩
    | look q => exact (ih (outside t q) (t + 1) s).tail ⟨.look q, k, outside t q, rfl, rfl⟩
    | await job => exact .refl

/-- A worker's program or a call's. -/
abbrev Task (σ : Type) {ι : Type} (ρ : ι → Type) (κ β α : Type) :=
  Program ι ρ β ⊕ CallProgram σ ρ κ β α

/-- A task shrinks with every query; a worker's is smaller than any call's. -/
def TaskLess : Task σ ρ κ β α → Task σ ρ κ β α → Prop := Sum.Lex (TransGen Below) (TransGen Below)

theorem wellFounded_taskLess : WellFounded (TaskLess : Task σ ρ κ β α → Task σ ρ κ β α → Prop) :=
  Sum.lex_wf wellFounded_below.transGen wellFounded_below.transGen

/-- What the workers and the calls of a state have left to do. -/
def State.pending (s : State σ ρ κ β ν α) : Multiset (Task σ ρ κ β α) :=
  (s.workers.map fun w => .inl w.program : List (Task σ ρ κ β α)) +
    (s.calls.map fun c => .inr c.program : List (Task σ ρ κ β α))

theorem coe_set_add {γ : Type} {l : List γ} {i : ℕ} {x : γ} (hi : l[i]? = some x) (y : γ) :
    ((l.set i y : List γ) : Multiset γ) + {x} = (l : Multiset γ) + {y} := by
  induction l generalizing i with
  | nil => simp at hi
  | cons z l ih =>
    cases i with
    | zero =>
      obtain rfl : z = x := by simpa using hi
      rw [List.set_cons_zero, ← Multiset.cons_coe, ← Multiset.cons_coe, ← Multiset.singleton_add,
        ← Multiset.singleton_add]
      abel
    | succ i =>
      rw [List.getElem?_cons_succ] at hi
      rw [List.set_cons_succ, ← Multiset.cons_coe, ← Multiset.cons_coe, Multiset.cons_add,
        Multiset.cons_add, ih hi]

def Input.begins : Input ρ ν → Bool
  | .begin _ _ => true
  | _ => false

namespace Service
variable {S : Service σ ρ κ β ν α} {s : State σ ρ κ β ν α}

theorem pending_work {w : ℕ} {outside : Oracle ρ} (hne : S.step s (.work w outside) ≠ s) :
    CutExpand TaskLess (S.step s (.work w outside)).pending s.pending := by
  have hstep : S.step s (.work w outside) = runWorker s w outside := rfl
  rw [hstep, runWorker] at hne ⊢
  split
  · rename_i job trace q k hw
    refine ⟨{.inl (k (outside q))}, .inl (.ask q k), ?_, ?_⟩
    · intro task htask
      rw [Multiset.mem_singleton] at htask
      rw [htask]
      exact Sum.Lex.inl (.single ⟨q, k, outside q, rfl, rfl⟩)
    · have hmap : (s.workers.map fun w => (.inl w.program : Task σ ρ κ β α))[w]? =
          some (.inl (.ask q k)) := by
        rw [List.getElem?_map, hw]
        rfl
      have hset := coe_set_add hmap (.inl (k (outside q)))
      rw [State.pending, State.pending, List.map_set, add_right_comm, hset, add_right_comm]
  · rename_i hno
    split at hne
    · rename_i hw
      exact absurd hw (hno _ _ _ _)
    · exact absurd rfl hne

theorem pending_resume {i : ℕ} {outside : History ρ} (hne : S.step s (.resume i outside) ≠ s) :
    CutExpand TaskLess (S.step s (.resume i outside)).pending s.pending := by
  rcases step_resume (S := S) (s := s) i outside with hsame | ⟨c, c', hi, hc, -⟩
  · exact absurd hsame hne
  rw [step_resume_of_received hi hc]
  have hbelow := settle_below outside 0 s.cell c'.program
  generalize settle outside 0 s.cell c'.program = seg at hbelow ⊢
  obtain ⟨job, k, w, b, hp, -, -, rfl⟩ := received_eq_some.mp hc
  have hless : TransGen Below seg.program c.program := by
    rw [hp]
    exact .tail' hbelow ⟨.await job, k, b, rfl, rfl⟩
  let new : List (Task σ ρ κ β α) := (started S.work seg.program).map fun w => .inl w.program
  refine ⟨{.inr seg.program} + (new : Multiset (Task σ ρ κ β α)), .inr c.program, ?_, ?_⟩
  · intro task htask
    rw [Multiset.mem_add, Multiset.mem_singleton, Multiset.mem_coe, List.mem_map] at htask
    rcases htask with rfl | ⟨w', -, rfl⟩
    · exact Sum.Lex.inr hless
    · exact Sum.Lex.sep _ _
  · have hmap : (s.calls.map fun c => (.inr c.program : Task σ ρ κ β α))[i]? =
        some (.inr c.program) := by
      rw [List.getElem?_map, hi]
      rfl
    have hset := coe_set_add hmap (.inr seg.program)
    have hmark : (s.calls.map (Call.mark seg.wrote)).map
        (fun c => (.inr c.program : Task σ ρ κ β α)) = s.calls.map fun c => .inr c.program := by
      rw [List.map_map]
      rfl
    rw [State.pending, State.pending, List.map_set, hmark, List.map_append, ← Multiset.coe_add,
      add_assoc, Call.extend, hset]
    have hnew : ((started S.work seg.program).map fun w => (.inl w.program : Task σ ρ κ β α)) =
        new := rfl
    rw [hnew]
    abel

/-- A step that begins no call and changes the state leaves less to do. -/
theorem pending_step {x : Input ρ ν} (hbegins : x.begins = false) (hne : S.step s x ≠ s) :
    CutExpand TaskLess (S.step s x).pending s.pending := by
  cases x with
  | begin request outside => cases hbegins
  | work w outside => exact pending_work hne
  | resume i outside => exact pending_resume hne

/-- A worker with a query to make changes the state by making it. -/
theorem step_work_ne {w : ℕ} {job : κ} {trace : Transcript ρ} {q : ι} {k : ρ q → Program ι ρ β}
    (hw : s.workers[w]? = some ⟨job, trace, .ask q k⟩) (outside : Oracle ρ) :
    S.step s (.work w outside) ≠ s := by
  intro hsame
  have hstep : S.step s (.work w outside) =
      { s with workers :=
          s.workers.set w ⟨job, trace ++ [⟨q, outside q⟩], k (outside q)⟩ } := by
    simp only [step, runWorker, hw]
  rw [hstep] at hsame
  have hget := congrArg (fun s => (State.workers s)[w]?) hsame
  dsimp only at hget
  rw [List.getElem?_set_self (List.getElem?_eq_some_iff.mp hw).1, hw, Option.some.injEq,
    Worker.mk.injEq] at hget
  have hlength := congrArg List.length hget.2.1
  rw [List.length_append, List.length_singleton] at hlength
  omega

/-- A suspended call whose worker has finished changes the state by going on. -/
theorem step_resume_ne {i : ℕ} {c c' : Call σ ρ κ β ν α} (hi : s.calls[i]? = some c)
    (hc : s.received c = some c') (outside : History ρ) : S.step s (.resume i outside) ≠ s := by
  intro hsame
  rw [step_resume_of_received hi hc] at hsame
  have hget := congrArg (fun s => (State.calls s)[i]?) hsame
  dsimp only at hget
  rw [List.getElem?_set_self, hi, Option.some.injEq] at hget
  · obtain ⟨job, k, w, b, -, -, -, rfl⟩ := received_eq_some.mp hc
    have hlength := congrArg (fun c => (Call.trace c).length) hget
    simp only [Call.extend, List.length_append, List.length_singleton] at hlength
    omega
  · rw [List.length_map]
    exact (List.getElem?_eq_some_iff.mp hi).1

/-- A step leaves alone the workers that it does not let make a query. -/
theorem worker_step {w : ℕ} {worker : Worker ρ κ β} {x : Input ρ ν}
    (hx : ∀ outside, x ≠ .work w outside) (hw : s.workers[w]? = some worker) :
    (S.step s x).workers[w]? = some worker := by
  have happend : ∀ more, (s.workers ++ more)[w]? = some worker := by
    intro more
    rw [List.getElem?_append_left (List.getElem?_eq_some_iff.mp hw).1, hw]
  cases x with
  | begin request outside =>
    rw [step_begin]
    exact happend _
  | work v outside =>
    have hne : v ≠ w := by
      intro h
      subst h
      exact hx outside rfl
    rw [step, runWorker]
    split
    · rw [List.getElem?_set_ne hne]
      exact hw
    · exact hw
  | resume i outside =>
    rcases step_resume (S := S) (s := s) i outside with hsame | ⟨c, c', hi, hc, -⟩
    · rw [hsame]
      exact hw
    · rw [step_resume_of_received hi hc]
      exact happend _

/-- A worker after a step was there before it, has made no query yet, or is the one that the
step let make a query. -/
theorem mem_workers_step {x : Input ρ ν} {worker : Worker ρ κ β}
    (h : worker ∈ (S.step s x).workers) : worker ∈ s.workers ∨ worker.trace = [] ∨
      ∃ w outside job trace q k, x = .work w outside ∧
        s.workers[w]? = some ⟨job, trace, .ask q k⟩ ∧
        worker = ⟨job, trace ++ [⟨q, outside q⟩], k (outside q)⟩ := by
  have hstarted : ∀ p : CallProgram σ ρ κ β α, worker ∈ s.workers ++ started S.work p →
      worker ∈ s.workers ∨ worker.trace = [] := by
    intro p hp
    refine (List.mem_append.mp hp).imp_right ?_
    intro hnew
    unfold started at hnew
    split at hnew
    · rw [List.mem_singleton.mp hnew]
    · cases hnew
  cases x with
  | begin request outside =>
    rw [step_begin] at h
    exact (hstarted _ h).imp_right Or.inl
  | work w outside =>
    rw [step, runWorker] at h
    split at h
    · rename_i job trace q k hw
      rcases List.mem_or_eq_of_mem_set h with hold | rfl
      · exact Or.inl hold
      · exact Or.inr (Or.inr ⟨w, outside, job, trace, q, k, rfl, hw, rfl⟩)
    · exact Or.inl h
  | resume i outside =>
    rcases step_resume (S := S) (s := s) i outside with hsame | ⟨c, c', hi, hc, -⟩
    · rw [hsame] at h
      exact Or.inl h
    · rw [step_resume_of_received hi hc] at h
      exact (hstarted _ h).imp_right Or.inl

end Service
end LensoSecrets.CooperativeCalls
