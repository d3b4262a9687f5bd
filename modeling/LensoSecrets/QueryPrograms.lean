import LensoSecrets.EarlyExit
import Mathlib.Data.Sigma.Basic

/-!
# Programs that query changing surroundings

A program is a finite tree of queries. Its surroundings are a history: one oracle
for every moment, so an answer may change between any two queries. A run has a
result and a transcript, the list of all queries made together with their answers.
A constant history is a snapshot; there the moment at which a program starts is
irrelevant and `eval` gives the result.
-/
namespace LensoSecrets.QueryPrograms
open EarlyExit

/-- A program over queries `ι`, where a query `q` is answered in `ρ q`. -/
inductive Program (ι : Type) (ρ : ι → Type) (α : Type) where
  | done (value : α)
  | ask (query : ι) (resume : ρ query → Program ι ρ α)

/-- The surroundings at one moment. -/
abbrev Oracle {ι : Type} (ρ : ι → Type) := (q : ι) → ρ q

/-- The surroundings at every moment. -/
abbrev History {ι : Type} (ρ : ι → Type) := ℕ → Oracle ρ

/-- Queries with the answers they received, in order. -/
abbrev Transcript {ι : Type} (ρ : ι → Type) := List (Σ q : ι, ρ q)

variable {ι : Type} {ρ : ι → Type} {α β ε ε' : Type}

namespace Program

def bind : Program ι ρ α → (α → Program ι ρ β) → Program ι ρ β
  | done a, f => f a
  | ask q k, f => ask q (fun r => (k r).bind f)

instance : Monad (Program ι ρ) where
  pure := done
  bind := bind

theorem bind_done (p : Program ι ρ α) : p.bind done = p := by
  induction p with
  | done a => rfl
  | ask q k ih => exact congrArg (ask q) (funext ih)

theorem bind_assoc {γ : Type} (p : Program ι ρ α) (f : α → Program ι ρ β)
    (g : β → Program ι ρ γ) : (p.bind f).bind g = p.bind (fun a => (f a).bind g) := by
  induction p with
  | done a => rfl
  | ask q k ih => exact congrArg (ask q) (funext ih)

instance : LawfulMonad (Program ι ρ) :=
  LawfulMonad.mk' _ bind_done (fun _ _ => rfl) bind_assoc

/-- One query, returning its answer. -/
def query (q : ι) : Program ι ρ (ρ q) := ask q done

@[simp] theorem pure_eq_done (a : α) : (pure a : Program ι ρ α) = done a := rfl
@[simp] theorem done_bind (a : α) (f : α → Program ι ρ β) : (done a >>= f) = f a := rfl
@[simp] theorem ask_bind (q : ι) (k : ρ q → Program ι ρ α) (f : α → Program ι ρ β) :
    (ask q k >>= f) = ask q (fun r => k r >>= f) := rfl

/-- The value a run started at moment `t` returns. -/
def result (h : History ρ) : ℕ → Program ι ρ α → α
  | _, done a => a
  | t, ask q k => result h (t + 1) (k (h t q))

/-- The queries a run started at moment `t` makes. -/
def transcript (h : History ρ) : ℕ → Program ι ρ α → Transcript ρ
  | _, done _ => []
  | t, ask q k => ⟨q, h t q⟩ :: transcript h (t + 1) (k (h t q))

/-- The result in surroundings that do not change. -/
def eval (o : Oracle ρ) : Program ι ρ α → α
  | done a => a
  | ask q k => eval o (k (o q))

variable (h : History ρ) (o : Oracle ρ) (t : ℕ)

@[simp] theorem result_done (a : α) : result h t (done a : Program ι ρ α) = a := rfl
@[simp] theorem result_ask (q : ι) (k : ρ q → Program ι ρ α) :
    result h t (ask q k) = result h (t + 1) (k (h t q)) := rfl
@[simp] theorem transcript_done (a : α) :
    transcript h t (done a : Program ι ρ α) = [] := rfl
@[simp] theorem transcript_ask (q : ι) (k : ρ q → Program ι ρ α) :
    transcript h t (ask q k) = ⟨q, h t q⟩ :: transcript h (t + 1) (k (h t q)) := rfl
@[simp] theorem eval_done (a : α) : eval o (done a : Program ι ρ α) = a := rfl
@[simp] theorem eval_ask (q : ι) (k : ρ q → Program ι ρ α) :
    eval o (ask q k) = eval o (k (o q)) := rfl

/-- In a snapshot neither the moment nor the transcript matters. -/
theorem result_constant (p : Program ι ρ α) : result (fun _ => o) t p = eval o p := by
  induction p generalizing t with
  | done a => rfl
  | ask q k ih => exact ih _ (t + 1)

@[simp] theorem result_bind (p : Program ι ρ α) (f : α → Program ι ρ β) :
    result h t (p >>= f) =
      result h (t + (transcript h t p).length) (f (result h t p)) := by
  induction p generalizing t with
  | done a => rfl
  | ask q k ih =>
    rw [ask_bind, result_ask, ih, transcript_ask, List.length_cons, Nat.add_right_comm,
      Nat.add_assoc]
    rfl

@[simp] theorem transcript_bind (p : Program ι ρ α) (f : α → Program ι ρ β) :
    transcript h t (p >>= f) = transcript h t p ++
      transcript h (t + (transcript h t p).length) (f (result h t p)) := by
  induction p generalizing t with
  | done a => simp
  | ask q k ih =>
    simp only [ask_bind, transcript_ask, ih, result_ask, List.cons_append, List.length_cons]
    rw [Nat.add_right_comm, Nat.add_assoc]

@[simp] theorem eval_bind (p : Program ι ρ α) (f : α → Program ι ρ β) :
    eval o (p >>= f) = eval o (f (eval o p)) := by
  induction p with
  | done a => rfl
  | ask q k ih => exact ih _

end Program

/-- A program that may stop with an error. -/
abbrev Fallible (ι : Type) (ρ : ι → Type) (ε : Type) := ExceptT ε (Program ι ρ)

namespace Fallible

/-- One query of a program that may stop. -/
def query (q : ι) : Fallible ι ρ ε (ρ q) := ExceptT.lift (Program.query q)

/-- Run the inner program and replace its error. -/
def mapErr (f : ε → ε') (p : Fallible ι ρ ε α) : Fallible ι ρ ε' α :=
  ExceptT.mk (p.run >>= fun r => pure (r.mapError f))

/-- An outcome that needs no query. -/
def ofExcept (x : Except ε α) : Fallible ι ρ ε α := ExceptT.mk (.done x)

/-- A missing value is the given error. -/
def okOr (e : ε) : Option α → Fallible ι ρ ε α
  | some a => pure a
  | none => throw e

open Program hiding query

variable (h : History ρ) (o : Oracle ρ) (t : ℕ)

theorem run_mapErr (f : ε → ε') (p : Fallible ι ρ ε α) :
    (mapErr f p).run = p.run >>= fun r => .done (r.mapError f) := rfl

theorem run_query_bind (q : ι) (f : ρ q → Fallible ι ρ ε α) :
    (query q >>= f).run = .ask q (fun r => (f r).run) := rfl

@[simp] theorem run_ofExcept (x : Except ε α) :
    (ofExcept x : Fallible ι ρ ε α).run = .done x := rfl

@[simp] theorem run_okOr (e : ε) (x : Option α) :
    (okOr e x : Fallible ι ρ ε α).run = .done (x.elim (.error e) .ok) := by
  cases x <;> rfl

@[simp] theorem elim_eq_ok {e : ε} {x : Option α} {a : α} :
    (x.elim (.error e) .ok : Except ε α) = .ok a ↔ x = some a := by
  cases x <;> simp

theorem lift_bind (p : Program ι ρ α) (f : α → Fallible ι ρ ε β) :
    (ExceptT.lift p >>= f).run = p >>= fun a => (f a).run := by
  rw [ExceptT.run_bind, ExceptT.run_lift, bind_map_left]

theorem okOr_bind (e : ε) (x : Option α) (f : α → Fallible ι ρ ε β) :
    (okOr e x >>= f).run = match x with
      | some a => (f a).run
      | none => .done (.error e) := by
  cases x <;> rfl

theorem ofExcept_bind (x : Except ε α) (f : α → Fallible ι ρ ε β) :
    (ofExcept x >>= f).run = match x with
      | .ok a => (f a).run
      | .error e => .done (.error e) := by
  cases x <;> rfl

theorem run_bind (p : Fallible ι ρ ε α) (f : α → Fallible ι ρ ε β) :
    (p >>= f).run = p.run >>= fun r => match r with
      | .ok a => (f a).run
      | .error e => pure (.error e) := by
  rw [ExceptT.run_bind]
  refine congrArg _ (funext fun r => ?_)
  cases r <;> rfl

theorem run_discard (p : Fallible ι ρ ε α) :
    (p >>= fun _ => pure ()).run = p.run >>= fun r => .done (r.map fun _ => ()) := by
  rw [run_bind]
  refine congrArg _ (funext fun r => ?_)
  cases r <;> rfl

@[simp] theorem result_run_bind (p : Fallible ι ρ ε α) (f : α → Fallible ι ρ ε β) :
    result h t (p >>= f).run = match result h t p.run with
      | .ok a => result h (t + (transcript h t p.run).length) (f a).run
      | .error e => .error e := by
  rw [run_bind, result_bind]
  cases result h t p.run <;> rfl

@[simp] theorem transcript_run_bind (p : Fallible ι ρ ε α) (f : α → Fallible ι ρ ε β) :
    transcript h t (p >>= f).run = match result h t p.run with
      | .ok a => transcript h t p.run ++
          transcript h (t + (transcript h t p.run).length) (f a).run
      | .error _ => transcript h t p.run := by
  rw [run_bind, transcript_bind]
  cases result h t p.run <;> simp

/-- A program that returns a value has passed through all its steps. -/
theorem result_run_bind_eq_ok {p : Fallible ι ρ ε α} {f : α → Fallible ι ρ ε β} {b : β} :
    result h t (p >>= f).run = .ok b ↔ ∃ a, result h t p.run = .ok a ∧
      result h (t + (transcript h t p.run).length) (f a).run = .ok b := by
  rw [result_run_bind]
  cases result h t p.run <;> simp

/-- A query made after a first step is made after a first step that succeeded. -/
theorem mem_transcript_run_bind {p : Fallible ι ρ ε α} {f : α → Fallible ι ρ ε β}
    {e : Σ q : ι, ρ q} :
    e ∈ transcript h t (p >>= f).run ↔ e ∈ transcript h t p.run ∨
      ∃ a, result h t p.run = .ok a ∧
        e ∈ transcript h (t + (transcript h t p.run).length) (f a).run := by
  rw [transcript_run_bind]
  cases result h t p.run <;> simp

@[simp] theorem result_mapErr (f : ε → ε') (p : Fallible ι ρ ε α) :
    result h t (mapErr f p).run = (result h t p.run).mapError f := by
  simp only [mapErr, ExceptT.run_mk, result_bind, pure_eq_done, result_done]

@[simp] theorem transcript_mapErr (f : ε → ε') (p : Fallible ι ρ ε α) :
    transcript h t (mapErr f p).run = transcript h t p.run := by
  simp only [mapErr, ExceptT.run_mk, transcript_bind, pure_eq_done, transcript_done,
    List.append_nil]

@[simp] theorem eval_mapErr (f : ε → ε') (p : Fallible ι ρ ε α) :
    eval o (mapErr f p).run = (eval o p.run).mapError f := by
  simp only [mapErr, ExceptT.run_mk, eval_bind, pure_eq_done, eval_done]

end Fallible

/-- A loop whose body gives the same outcome at every moment is a plain loop. -/
theorem result_forM {h : History ρ} {xs : List α} {body : α → Fallible ι ρ ε Unit}
    {f : α → Except ε Unit} (t : ℕ)
    (hf : ∀ s, t ≤ s → ∀ x ∈ xs, Program.result h s (body x).run = f x) :
    Program.result h t (xs.forM body).run = tryForEach f xs := by
  induction xs generalizing t with
  | nil => rfl
  | cons x xs ih =>
    have hx := hf t (Nat.le_refl t) x List.mem_cons_self
    rw [List.forM, Fallible.result_run_bind, hx, tryForEach]
    cases f x with
    | ok u =>
      refine ih _ (fun s hs y hy => hf s ?_ y (List.mem_cons_of_mem _ hy))
      omega
    | error e => rfl

/-- A loop that ends well has made every body's queries, and each body ended well. -/
theorem result_forM_eq_ok {h : History ρ} {xs : List α} {body : α → Fallible ι ρ ε Unit} {t : ℕ}
    {u : Unit} (hok : Program.result h t (xs.forM body).run = .ok u) :
    ∀ x ∈ xs, ∃ s, t ≤ s ∧ Program.result h s (body x).run = .ok () ∧
      ∀ e ∈ Program.transcript h s (body x).run, e ∈ Program.transcript h t (xs.forM body).run := by
  induction xs generalizing t with
  | nil => simp
  | cons x xs ih =>
    rw [List.forM] at hok ⊢
    obtain ⟨_, hx, hxs⟩ := (Fallible.result_run_bind_eq_ok h t).mp hok
    intro y hy
    rcases List.mem_cons.mp hy with rfl | hy
    · refine ⟨t, Nat.le_refl t, hx, ?_⟩
      intro e he
      exact (Fallible.mem_transcript_run_bind h t).mpr (Or.inl he)
    · obtain ⟨s, hs, hbody, hmem⟩ := ih hxs y hy
      refine ⟨s, by omega, hbody, ?_⟩
      intro e he
      exact (Fallible.mem_transcript_run_bind h t).mpr (Or.inr ⟨_, hx, hmem e he⟩)

theorem eval_forM {o : Oracle ρ} (xs : List α) (body : α → Fallible ι ρ ε Unit) :
    Program.eval o (xs.forM body).run =
      tryForEach (fun x => Program.eval o (body x).run) xs := by
  rw [← Program.result_constant o 0]
  exact result_forM 0 (fun s _ x _ => Program.result_constant o s (body x).run)

end LensoSecrets.QueryPrograms
