import LensoSecrets.QueryPrograms

/-!
# Paths through a program

A path is a finite sequence of queries with answers a program can receive, together
with the program that is left. Every partial run is a path, so what holds on all paths
holds at every moment of every run.
-/
namespace LensoSecrets.QueryPrograms

variable {ι : Type} {ρ : ι → Type} {α β ε : Type}

/-- After these answers the program `p` has become `p'`. -/
inductive Follows : Program ι ρ α → Transcript ρ → Program ι ρ α → Prop
  | here (p : Program ι ρ α) : Follows p [] p
  | there {q : ι} {k : ρ q → Program ι ρ α} {tr : Transcript ρ} {p' : Program ι ρ α} (a : ρ q)
      (h : Follows (k a) tr p') : Follows (.ask q k) (⟨q, a⟩ :: tr) p'

namespace Follows

variable {p p' p'' : Program ι ρ α} {tr tr' : Transcript ρ}

theorem trans (h : Follows p tr p') (h' : Follows p' tr' p'') : Follows p (tr ++ tr') p'' := by
  induction h with
  | here p => exact h'
  | there a h ih => exact .there a (ih h')

/-- One more query. -/
theorem snoc {q : ι} {k : ρ q → Program ι ρ α} (h : Follows p tr (.ask q k)) (a : ρ q) :
    Follows p (tr ++ [⟨q, a⟩]) (k a) :=
  h.trans (.there a (.here (k a)))

theorem of_done {a : α} (h : Follows (.done a) tr p') : tr = [] ∧ p' = .done a := by
  cases h with
  | here p => exact ⟨rfl, rfl⟩

/-- A path of a query that is not empty starts with its answer. -/
theorem of_ask {q : ι} {k : ρ q → Program ι ρ α} (h : Follows (.ask q k) tr p') :
    (tr = [] ∧ p' = .ask q k) ∨ ∃ a rest, tr = ⟨q, a⟩ :: rest ∧ Follows (k a) rest p' := by
  cases h with
  | here p => exact Or.inl ⟨rfl, rfl⟩
  | @there _ _ rest _ a h => exact Or.inr ⟨a, rest, rfl, h⟩

/-- Every query on a path was the program's next one when it was made. -/
theorem split {first rest : Transcript ρ} {q : ι} {a : ρ q}
    (h : Follows p (first ++ ⟨q, a⟩ :: rest) p') :
    ∃ k, Follows p first (.ask q k) ∧ Follows (k a) rest p' := by
  induction first generalizing p with
  | nil =>
    cases h with
    | there _ hrest => exact ⟨_, .here _, hrest⟩
  | cons e first ih =>
    cases h with
    | there a' hrest =>
      obtain ⟨k, hfirst, hlast⟩ := ih hrest
      exact ⟨k, .there a' hfirst, hlast⟩

/-- A longer path goes on from where a shorter one has led. -/
theorem drop (h : Follows p tr p') (h' : Follows p (tr ++ tr') p'') : Follows p' tr' p'' := by
  induction h with
  | here p => exact h'
  | there a h ih =>
    cases h' with
    | there _ h' => exact ih h'

/-- A path of a sequence is still in the first program or has left it with its result. -/
theorem of_bind {f : α → Program ι ρ β} {r : Program ι ρ β} (h : Follows (p >>= f) tr r) :
    (∃ q k, Follows p tr (.ask q k) ∧ r = .ask q fun a => k a >>= f) ∨
      ∃ a first rest, tr = first ++ rest ∧ Follows p first (.done a) ∧ Follows (f a) rest r := by
  induction p generalizing tr with
  | done a => exact Or.inr ⟨a, [], tr, rfl, .here _, h⟩
  | ask q k ih =>
    rcases h.of_ask with ⟨rfl, rfl⟩ | ⟨a, rest, rfl, hrest⟩
    · exact Or.inl ⟨q, k, .here _, rfl⟩
    · rcases ih a hrest with ⟨q', k', hp, rfl⟩ | ⟨b, first, last, rfl, hp, hf⟩
      · exact Or.inl ⟨q', k', .there a hp, rfl⟩
      · exact Or.inr ⟨b, ⟨q, a⟩ :: first, last, rfl, .there a hp, hf⟩

/-- A whole run is a path to its result. -/
theorem run (h : History ρ) (t : ℕ) (p : Program ι ρ α) :
    Follows p (p.transcript h t) (.done (p.result h t)) := by
  induction p generalizing t with
  | done a => exact .here _
  | ask q k ih => exact .there (h t q) (ih (h t q) (t + 1))

end Follows

/-- Every query on every path satisfies `S`. -/
inductive Only (S : ι → Prop) : Program ι ρ α → Prop
  | done (a : α) : Only S (.done a)
  | ask {q : ι} {k : ρ q → Program ι ρ α} (hq : S q) (hk : ∀ a, Only S (k a)) : Only S (.ask q k)

namespace Only

variable {S : ι → Prop} {p p' : Program ι ρ α} {tr : Transcript ρ}

theorem head {q : ι} {k : ρ q → Program ι ρ α} (h : Only S (.ask q k)) : S q := by
  cases h with
  | ask hq hk => exact hq

theorem follows (h : Only S p) (hp : Follows p tr p') : (∀ e ∈ tr, S e.1) ∧ Only S p' := by
  induction hp with
  | here p => exact ⟨by simp, h⟩
  | there a hf ih =>
    cases h with
    | ask hq hk =>
      obtain ⟨htr, hp'⟩ := ih (hk a)
      refine ⟨?_, hp'⟩
      intro e he
      rcases List.mem_cons.mp he with rfl | he
      · exact hq
      · exact htr e he

theorem transcript (h : Only S p) (hist : History ρ) (t : ℕ) :
    ∀ e ∈ Program.transcript hist t p, S e.1 :=
  (h.follows (.run hist t p)).1

theorem mono {S' : ι → Prop} (h : Only S p) (hs : ∀ q, S q → S' q) : Only S' p := by
  induction h with
  | done a => exact .done a
  | ask hq hk ih => exact .ask (hs _ hq) ih

theorem bind {f : α → Program ι ρ β} (h : Only S p) (hf : ∀ a, Only S (f a)) :
    Only S (p >>= f) := by
  induction h with
  | done a => exact hf a
  | ask hq hk ih => exact .ask hq ih

end Only
end LensoSecrets.QueryPrograms
