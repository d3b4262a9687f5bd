import LensoSecrets.CallProgress
import Mathlib.Algebra.Order.BigOperators.Group.Finset
import Mathlib.Logic.Function.Basic

/-!
# Services whose workers wait for machines

A query of a worker may start a machine that makes moves of its own, and others from outside,
until it has the answer. Such a live service is the service at any moment. While nothing
comes from outside it can change only finitely often, and when it cannot change any more every
call has returned or awaits a worker whose machine waits for the outside.
-/
namespace LensoSecrets.CooperativeCalls
open QueryPrograms Relation

/-- Machines for some of the queries: one is started for the query of a job, makes moves and
may come to have an answer. Some answers, such as a refusal, are given without a machine. The
weight is what a machine has left to do unless something comes from outside. -/
structure Machines {ι : Type} (ρ : ι → Type) (κ μ δ : Type) where
  launch : κ → ι → Option μ
  move : μ → δ → μ
  inner : δ → Bool
  answer : μ → (q : ι) → Option (ρ q)
  direct : (q : ι) → ρ q → Bool
  job : μ → κ
  weight : μ → ℕ
  bound : κ → ℕ
  job_launch : ∀ k q m, launch k q = some m → job m = k
  job_move : ∀ m d, job (move m d) = job m
  weight_launch : ∀ k q m, launch k q = some m → weight m ≤ bound k
  weight_move : ∀ m d, inner d = true → move m d = m ∨ weight (move m d) < weight m
  direct_of_launch : ∀ k q, launch k q = none → ∀ a, direct q a = true

/-- A service with the machines its workers wait for. -/
structure Live (σ : Type) {ι : Type} (ρ : ι → Type) (κ β ν α μ : Type) where
  state : State σ ρ κ β ν α
  machine : ℕ → Option μ

inductive LiveInput {ι : Type} (ρ : ι → Type) (ν δ : Type) where
  | serve (input : Input ρ ν)
  | launch (worker : ℕ)
  | move (worker : ℕ) (move : δ)
  | deliver (worker : ℕ) (outside : Oracle ρ)

variable {σ ι κ ν α β μ δ : Type} {ρ : ι → Type}

namespace Machines
variable (M : Machines ρ κ μ δ) (S : Service σ ρ κ β ν α)

/-- A worker that waits for a machine makes no query, and none is answered at once for which a
machine is needed. -/
def allows (l : Live σ ρ κ β ν α μ) : Input ρ ν → Bool
  | .work w outside => match l.state.workers[w]? with
    | some ⟨_, _, .ask q _⟩ => (l.machine w).isNone && M.direct q (outside q)
    | _ => true
  | _ => true

def start : Live σ ρ κ β ν α μ := ⟨S.start, fun _ => none⟩

/-- A step that needs nothing from outside: no call begins, and a machine moves by itself. -/
def innerStep : LiveInput ρ ν δ → Bool
  | .serve x => !x.begins
  | .launch _ => true
  | .move _ d => M.inner d
  | .deliver _ _ => true

/-- The machine works for the job of a worker whose query needs one. -/
def Serves (M : Machines ρ κ μ δ) (s : State σ ρ κ β ν α) (w : ℕ) (m : μ) : Prop :=
  ∃ tr q k, s.workers[w]? = some ⟨M.job m, tr, .ask q k⟩ ∧ M.launch (M.job m) q ≠ none

/-- Every machine works for a worker that waits for it. -/
def Manned (M : Machines ρ κ μ δ) (l : Live σ ρ κ β ν α μ) : Prop :=
  ∀ w m, l.machine w = some m → M.Serves l.state w m

/-- Every answer a worker has was given at once, or by a machine for its job. -/
def Answered (M : Machines ρ κ μ δ) (s : State σ ρ κ β ν α) : Prop :=
  ∀ worker ∈ s.workers, ∀ e ∈ worker.trace,
    M.direct e.1 e.2 = true ∨ ∃ m, M.job m = worker.job ∧ M.answer m e.1 = some e.2

/-- The worker waits for a machine that has no answer and makes no move by itself. -/
structure Waits (l : Live σ ρ κ β ν α μ) (w : ℕ) (m : μ) : Prop where
  machine : l.machine w = some m
  still : ∀ d, M.inner d = true → M.move m d = m
  unanswered : ∃ q, M.launch (M.job m) q ≠ none ∧ M.answer m q = none

section
variable {M} {l : Live σ ρ κ β ν α μ}

/-- What the machines have left to do, and what one may have that is not started yet. -/
def workLeft (M : Machines ρ κ μ δ) (l : Live σ ρ κ β ν α μ) (w : ℕ) : ℕ :=
  match l.state.workers[w]? with
  | none => 0
  | some worker => (l.machine w).elim (M.bound worker.job + 1) M.weight

def machineWork (M : Machines ρ κ μ δ) (l : Live σ ρ κ β ν α μ) : ℕ :=
  ∑ w ∈ Finset.range l.state.workers.length, M.workLeft l w

/-- First what calls and workers have left to do, then what the machines have. -/
def Less (M : Machines ρ κ μ δ) : Live σ ρ κ β ν α μ → Live σ ρ κ β ν α μ → Prop :=
  InvImage (Prod.Lex (CutExpand TaskLess) (· < ·)) fun l => (l.state.pending, M.machineWork l)

theorem wellFounded_less :
    WellFounded (Less M : Live σ ρ κ β ν α μ → Live σ ρ κ β ν α μ → Prop) :=
  InvImage.wf _ (wellFounded_taskLess.cutExpand.prod_lex Nat.lt_wfRel.wf)

/-- A machine that is started, or moves by itself, leaves less. -/
theorem less_of_machine {w : ℕ} {worker : Worker ρ κ β} {m : μ}
    (hw : l.state.workers[w]? = some worker) (hweight : M.weight m < M.workLeft l w) :
    Less M { l with machine := Function.update l.machine w (some m) } l := by
  refine Prod.Lex.right _ ?_
  apply Finset.sum_lt_sum
  · intro v _
    by_cases hsame : v = w
    · subst hsame
      simp only [workLeft, hw, Function.update_self, Option.elim_some] at hweight ⊢
      exact hweight.le
    · simp only [workLeft, Function.update_of_ne hsame]
      exact le_refl _
  · refine ⟨w, Finset.mem_range.mpr (List.getElem?_eq_some_iff.mp hw).1, ?_⟩
    simp only [workLeft, hw, Function.update_self, Option.elim_some] at hweight ⊢
    exact hweight

end

section
variable [DecidableEq ι]

def step (l : Live σ ρ κ β ν α μ) : LiveInput ρ ν δ → Live σ ρ κ β ν α μ
  | .serve x => if M.allows l x then { l with state := S.step l.state x } else l
  | .launch w => match l.state.workers[w]?, l.machine w with
    | some ⟨job, _, .ask q _⟩, none => match M.launch job q with
      | some m => { l with machine := Function.update l.machine w (some m) }
      | none => l
    | _, _ => l
  | .move w d => match l.state.workers[w]?, l.machine w with
    | some _, some m => { l with machine := Function.update l.machine w (some (M.move m d)) }
    | _, _ => l
  | .deliver w outside => match l.state.workers[w]?, l.machine w with
    | some ⟨_, _, .ask q _⟩, some m => match M.answer m q with
      | some a =>
        { state := S.step l.state (.work w (Function.update outside q a))
          machine := Function.update l.machine w none }
      | none => l
    | _, _ => l

def run (inputs : List (LiveInput ρ ν δ)) : Live σ ρ κ β ν α μ :=
  inputs.foldl (M.step S) (start S)

/-- Such a step that changes something. -/
def Progress (l' l : Live σ ρ κ β ν α μ) : Prop :=
  ∃ x, M.innerStep x = true ∧ l' = M.step S l x ∧ l' ≠ l

def Quiescent (l : Live σ ρ κ β ν α μ) : Prop := ∀ l', ¬ M.Progress S l' l

variable {M S} {l : Live σ ρ κ β ν α μ}

/-- The four ways a step can change a live service. -/
inductive Changed (M : Machines ρ κ μ δ) (S : Service σ ρ κ β ν α) (l : Live σ ρ κ β ν α μ) :
    LiveInput ρ ν δ → Live σ ρ κ β ν α μ → Prop
  | same (x : LiveInput ρ ν δ) : Changed M S l x l
  | served (x : Input ρ ν) (hallows : M.allows l x = true) :
      Changed M S l (.serve x) { l with state := S.step l.state x }
  | launched {w : ℕ} {job : κ} {tr : Transcript ρ} {q : ι} {k : ρ q → Program ι ρ β} {m : μ}
      (hw : l.state.workers[w]? = some ⟨job, tr, .ask q k⟩) (hmachine : l.machine w = none)
      (hlaunch : M.launch job q = some m) :
      Changed M S l (.launch w) { l with machine := Function.update l.machine w (some m) }
  | moved {w : ℕ} {worker : Worker ρ κ β} {m : μ} (d : δ)
      (hw : l.state.workers[w]? = some worker) (hmachine : l.machine w = some m) :
      Changed M S l (.move w d)
        { l with machine := Function.update l.machine w (some (M.move m d)) }
  | delivered {w : ℕ} {job : κ} {tr : Transcript ρ} {q : ι} {k : ρ q → Program ι ρ β} {m : μ}
      {a : ρ q} (outside : Oracle ρ) (hw : l.state.workers[w]? = some ⟨job, tr, .ask q k⟩)
      (hmachine : l.machine w = some m) (hanswer : M.answer m q = some a) :
      Changed M S l (.deliver w outside)
        { state := S.step l.state (.work w (Function.update outside q a))
          machine := Function.update l.machine w none }

theorem changed (l : Live σ ρ κ β ν α μ) (x : LiveInput ρ ν δ) :
    Changed M S l x (M.step S l x) := by
  cases x with
  | serve x =>
    by_cases hallows : M.allows l x = true
    · rw [step, if_pos hallows]
      exact .served x hallows
    · rw [step, if_neg hallows]
      exact .same _
  | launch w =>
    rw [step]
    split
    · rename_i job tr q k hw hmachine
      split
      · rename_i m hlaunch
        exact .launched hw hmachine hlaunch
      · exact .same _
    · exact .same _
  | move w d =>
    rw [step]
    split
    · rename_i worker m hw hmachine
      exact .moved d hw hmachine
    · exact .same _
  | deliver w outside =>
    rw [step]
    split
    · rename_i job tr q k m hw hmachine
      split
      · rename_i a hanswer
        exact .delivered outside hw hmachine hanswer
      · exact .same _
    · exact .same _

/-- What every step preserves holds of every live service that is reached. -/
theorem run_induction {P : Live σ ρ κ β ν α μ → Prop} (hstart : P (start S))
    (hstep : ∀ l x, P l → P (M.step S l x)) (inputs : List (LiveInput ρ ν δ)) :
    P (M.run S inputs) := by
  rw [run]
  generalize start S = l at hstart
  induction inputs generalizing l with
  | nil => exact hstart
  | cons x inputs ih => exact ih _ (hstep l x hstart)

/-- A step changes the service's state as one of its own steps does, or not at all. -/
theorem state_step (l : Live σ ρ κ β ν α μ) (x : LiveInput ρ ν δ) :
    (M.step S l x).state = l.state ∨ ∃ y, (M.step S l x).state = S.step l.state y := by
  have hchanged := changed (M := M) (S := S) l x
  generalize M.step S l x = l' at hchanged
  cases hchanged with
  | same x => exact Or.inl rfl
  | served x hallows => exact Or.inr ⟨x, rfl⟩
  | launched hw hmachine hlaunch => exact Or.inl rfl
  | moved d hw hmachine => exact Or.inl rfl
  | @delivered w job tr q k m a outside hw hmachine hanswer =>
    exact Or.inr ⟨.work w (Function.update outside q a), rfl⟩

/-- A live service is at every moment the service after some of its steps. -/
theorem state_run (inputs : List (LiveInput ρ ν δ)) :
    ∃ xs, (M.run S inputs).state = S.run xs := by
  apply run_induction (M := M) (S := S) (P := fun l => ∃ xs, l.state = S.run xs)
  · exact ⟨[], rfl⟩
  · intro l x h
    obtain ⟨xs, hxs⟩ := h
    obtain hsame | ⟨y, hy⟩ := state_step (M := M) (S := S) l x
    · exact ⟨xs, hsame.trans hxs⟩
    · refine ⟨xs ++ [y], ?_⟩
      rw [hy, hxs, Service.run_append]
      rfl

theorem Manned.step (h : Manned M l) (x : LiveInput ρ ν δ) : Manned M (M.step S l x) := by
  have hchanged := changed (M := M) (S := S) l x
  generalize M.step S l x = l' at hchanged
  intro w m hm
  cases hchanged with
  | same x => exact h w m hm
  | served x hallows =>
    obtain ⟨tr, q, k, hw, hneeds⟩ := h w m hm
    refine ⟨tr, q, k, Service.worker_step ?_ hw, hneeds⟩
    intro outside hx
    subst hx
    have hm : l.machine w = some m := hm
    simp [allows, hw, hm] at hallows
  | @launched v job tr q k m' hv hmachine hlaunch =>
    dsimp only at hm ⊢
    by_cases hsame : w = v
    · subst hsame
      rw [Function.update_self] at hm
      cases hm
      rw [Serves, M.job_launch _ _ _ hlaunch]
      refine ⟨tr, q, k, hv, ?_⟩
      rw [hlaunch]
      exact Option.some_ne_none _
    · rw [Function.update_of_ne hsame] at hm
      exact h w m hm
  | @moved v worker m' d hv hmachine =>
    dsimp only at hm ⊢
    by_cases hsame : w = v
    · subst hsame
      rw [Function.update_self] at hm
      cases hm
      rw [Serves, M.job_move]
      exact h w m' hmachine
    · rw [Function.update_of_ne hsame] at hm
      exact h w m hm
  | @delivered v job tr q k m' a outside hv hmachine hanswer =>
    dsimp only at hm ⊢
    by_cases hsame : w = v
    · subst hsame
      rw [Function.update_self] at hm
      cases hm
    · rw [Function.update_of_ne hsame] at hm
      obtain ⟨tr', q', k', hw, hneeds⟩ := h w m hm
      refine ⟨tr', q', k', Service.worker_step ?_ hw, hneeds⟩
      intro outside' hx
      cases hx
      exact hsame rfl

theorem manned_run (inputs : List (LiveInput ρ ν δ)) : Manned M (M.run S inputs) := by
  apply run_induction (M := M) (S := S) (P := Manned M)
  · intro w m hm
    cases hm
  · intro l x h
    exact h.step x

theorem Answered.step (h : Answered M l.state) (hmanned : Manned M l) (x : LiveInput ρ ν δ) :
    Answered M (M.step S l x).state := by
  have hchanged := changed (M := M) (S := S) l x
  generalize M.step S l x = l' at hchanged
  intro worker hworker e he
  cases hchanged with
  | same x => exact h worker hworker e he
  | served x hallows =>
    rcases Service.mem_workers_step hworker with
      hold | hnew | ⟨w, outside, job, trace, q, k, rfl, hw, rfl⟩
    · exact h worker hold e he
    · rw [hnew] at he
      cases he
    · rcases List.mem_append.mp he with he | he
      · exact h _ (List.mem_of_getElem? hw) e he
      · obtain rfl := List.mem_singleton.mp he
        simp only [allows, hw, Bool.and_eq_true] at hallows
        exact Or.inl hallows.2
  | launched hw hmachine hlaunch => exact h worker hworker e he
  | moved d hw hmachine => exact h worker hworker e he
  | @delivered w job tr q k m a outside hw hmachine hanswer =>
    rcases Service.mem_workers_step hworker with
      hold | hnew | ⟨w', outside', job', trace, q', k', hx, hw', rfl⟩
    · exact h worker hold e he
    · rw [hnew] at he
      cases he
    · cases hx
      cases hw.symm.trans hw'
      rcases List.mem_append.mp he with he | he
      · exact h _ (List.mem_of_getElem? hw) e he
      · obtain rfl := List.mem_singleton.mp he
        obtain ⟨tr', q', k', hw'', -⟩ := hmanned w m hmachine
        cases hw.symm.trans hw''
        refine Or.inr ⟨m, rfl, ?_⟩
        rw [hanswer, Function.update_self]

theorem answered_run (inputs : List (LiveInput ρ ν δ)) : Answered M (M.run S inputs).state := by
  suffices h : Manned M (M.run S inputs) ∧ Answered M (M.run S inputs).state from h.2
  apply run_induction (M := M) (S := S) (P := fun l => Manned M l ∧ Answered M l.state)
  · refine ⟨manned_run [], ?_⟩
    intro worker hworker
    cases hworker
  · intro l x h
    exact ⟨h.1.step x, h.2.step h.1 x⟩

/-- A step that needs nothing from outside and changes something leaves less to do. -/
theorem less_of_progress {l' : Live σ ρ κ β ν α μ} (h : M.Progress S l' l) : Less M l' l := by
  obtain ⟨x, hinner, rfl, hne⟩ := h
  have hchanged := changed (M := M) (S := S) l x
  generalize M.step S l x = l' at hchanged hne
  cases hchanged with
  | same x => exact absurd rfl hne
  | served x hallows =>
    have hstate : S.step l.state x ≠ l.state := by
      intro hsame
      exact hne (congrArg (fun s => { l with state := s }) hsame)
    have hbegins : x.begins = false := by simpa [innerStep] using hinner
    exact Prod.Lex.left _ _ (Service.pending_step hbegins hstate)
  | @launched w job tr q k m hw hmachine hlaunch =>
    apply less_of_machine hw
    have hweight := M.weight_launch _ _ _ hlaunch
    simp only [workLeft, hw, hmachine, Option.elim_none]
    omega
  | @moved w worker m d hw hmachine =>
    apply less_of_machine hw
    simp only [workLeft, hw, hmachine, Option.elim_some]
    rcases M.weight_move m d hinner with hsame | hless
    · exfalso
      apply hne
      rw [hsame, ← hmachine, Function.update_eq_self]
    · exact hless
  | @delivered w job tr q k m a outside hw hmachine hanswer =>
    exact Prod.Lex.left _ _ (Service.pending_step rfl (Service.step_work_ne hw _))

theorem wellFounded_progress : WellFounded (M.Progress S) :=
  Subrelation.wf (fun h => less_of_progress h) wellFounded_less

/-- From every state some steps that need nothing from outside lead to one where none is
left that changes anything. -/
theorem exists_quiescent (l : Live σ ρ κ β ν α μ) :
    ∃ more : List (LiveInput ρ ν δ), (∀ x ∈ more, M.innerStep x = true) ∧
      M.Quiescent S (more.foldl (M.step S) l) := by
  induction l using (wellFounded_progress (M := M) (S := S)).induction with
  | _ l ih =>
    by_cases hquiet : M.Quiescent S l
    · exact ⟨[], by simp, hquiet⟩
    · rw [Quiescent] at hquiet
      push Not at hquiet
      obtain ⟨l', hl'⟩ := hquiet
      obtain ⟨more, hmore, hquiet⟩ := ih l' hl'
      obtain ⟨x, hx, rfl, -⟩ := hl'
      refine ⟨x :: more, ?_, hquiet⟩
      intro y hy
      rcases List.mem_cons.mp hy with rfl | hy
      · exact hx
      · exact hmore y hy

/-- In a state without a step left, a step that needs nothing from outside changes nothing. -/
theorem step_eq_of_quiescent (h : M.Quiescent S l) {x : LiveInput ρ ν δ}
    (hx : M.innerStep x = true) : M.step S l x = l := by
  by_contra hne
  exact h _ ⟨x, hx, rfl, hne⟩

theorem machine_of_quiescent (h : M.Quiescent S l) (o : Oracle ρ) {w : ℕ} {job : κ}
    {tr : Transcript ρ} {q : ι} {k : ρ q → Program ι ρ β}
    (hw : l.state.workers[w]? = some ⟨job, tr, .ask q k⟩) : ∃ m, l.machine w = some m := by
  cases hmachine : l.machine w with
  | some m => exact ⟨m, rfl⟩
  | none =>
    exfalso
    cases hlaunch : M.launch job q with
    | some m =>
      have hsame := step_eq_of_quiescent h (x := .launch w) rfl
      have hget := congrArg (fun l => Live.machine l w) hsame
      simp only [step, hw, hmachine, hlaunch, Function.update_self] at hget
      cases hget
    | none =>
      have hdirect := M.direct_of_launch _ _ hlaunch (o q)
      have hallows : M.allows l (.work w o : Input ρ ν) = true := by
        simp [allows, hw, hmachine, hdirect]
      have hsame := step_eq_of_quiescent h (x := .serve (.work w o)) rfl
      rw [step, if_pos hallows] at hsame
      have hstate : S.step l.state (.work w o) = l.state := congrArg Live.state hsame
      exact Service.step_work_ne hw o hstate

/-- Then a worker that has not finished waits for its machine. -/
theorem waits_of_quiescent (h : M.Quiescent S l) (hmanned : Manned M l) (o : Oracle ρ) {w : ℕ}
    {job : κ} {tr : Transcript ρ} {q : ι} {k : ρ q → Program ι ρ β}
    (hw : l.state.workers[w]? = some ⟨job, tr, .ask q k⟩) :
    ∃ m, M.job m = job ∧ M.Waits l w m := by
  obtain ⟨m, hmachine⟩ := machine_of_quiescent h o hw
  obtain ⟨tr', q', k', hw', hneeds⟩ := hmanned w m hmachine
  have hjob := hw.symm.trans hw'
  cases hjob
  refine ⟨m, rfl, hmachine, ?_, q, hneeds, ?_⟩
  · intro d hd
    have hsame := step_eq_of_quiescent h (x := .move w d) hd
    have hget := congrArg (fun l => Live.machine l w) hsame
    simp only [step, hw, hmachine, Function.update_self, Option.some.injEq] at hget
    exact hget
  · cases hanswer : M.answer m q with
    | none => rfl
    | some a =>
      exfalso
      have hsame := step_eq_of_quiescent h (x := .deliver w o) rfl
      have hget := congrArg (fun l => Live.machine l w) hsame
      simp only [step, hw, hmachine, hanswer, Function.update_self] at hget
      cases hget

/-- And every call has returned or awaits such a worker. -/
theorem call_of_quiescent (h : M.Quiescent S l) (hmanned : Manned M l) (o : Oracle ρ)
    {entries : List Entry} (ha : Service.Accounted l.state entries) {c : Call σ ρ κ β ν α}
    (hc : c ∈ l.state.calls) : (∃ a, c.program = .done a) ∨
      ∃ job k m, c.program = .ask (.await job) k ∧ M.job m = job ∧ M.Waits l c.worker m := by
  obtain ⟨i, hi⟩ := List.mem_iff_getElem?.mp hc
  have hlt : i < entries.length := by
    rw [ha.length]
    exact (List.getElem?_eq_some_iff.mp hi).1
  have hruns := ha.calls i c _ hi (List.getElem?_eq_getElem hlt)
  generalize entries[i].workers = ws at hruns
  cases hruns with
  | returned a hp hws => exact Or.inl ⟨a, hp⟩
  | @suspended ws tr p job k hp hws hworker =>
    cases p with
    | ask q k' =>
      obtain ⟨m, hjob, hwaits⟩ := waits_of_quiescent h hmanned o hworker
      exact Or.inr ⟨job, k, m, hp, hjob, hwaits⟩
    | done b =>
      exfalso
      have hreceived := Service.received_eq_some.mpr ⟨job, k, _, b, hp, hworker, rfl, rfl⟩
      have hsame := step_eq_of_quiescent h (x := .serve (.resume i fun _ => o)) rfl
      have hallows : M.allows l (.resume i (fun _ => o) : Input ρ ν) = true := rfl
      rw [step, if_pos hallows] at hsame
      have hstate : S.step l.state (.resume i fun _ => o) = l.state := congrArg Live.state hsame
      exact Service.step_resume_ne hi hreceived _ hstate

end
end Machines
end LensoSecrets.CooperativeCalls
