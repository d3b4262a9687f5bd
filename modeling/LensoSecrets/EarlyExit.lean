import Mathlib.Data.List.Basic

/-!
# Loops and checks that stop at the first error
-/
namespace LensoSecrets.EarlyExit

variable {α β γ ε : Type}

/-- Stop with an error when a check finds something bad. -/
def rejectIf (bad : Bool) (e : ε) : Except ε Unit := if bad then .error e else .ok ()

@[simp] theorem rejectIf_eq_ok {bad : Bool} {e : ε} {u : Unit} :
    rejectIf bad e = .ok u ↔ bad = false := by
  cases bad <;> simp [rejectIf]

@[simp] theorem bind_eq_ok {x : Except ε α} {f : α → Except ε β} {b : β} :
    (x >>= f) = .ok b ↔ ∃ a, x = .ok a ∧ f a = .ok b := by
  cases x <;> simp [bind, Except.bind]

theorem bind_eq_error {x : Except ε α} {f : α → Except ε β} {e : ε} :
    (x >>= f) = .error e ↔ x = .error e ∨ ∃ a, x = .ok a ∧ f a = .error e := by
  cases x <;> simp [bind, Except.bind]

theorem map_eq_ok {x : Except ε α} {f : α → β} {b : β} :
    x.map f = .ok b ↔ ∃ a, x = .ok a ∧ f a = b := by
  cases x <;> simp [Except.map]

theorem map_eq_error {x : Except ε α} {f : α → β} {e : ε} :
    x.map f = .error e ↔ x = .error e := by
  cases x <;> simp [Except.map]

theorem mapError_eq_ok {ε' : Type} {x : Except ε α} {f : ε → ε'} {a : α} :
    x.mapError f = .ok a ↔ x = .ok a := by
  cases x <;> simp [Except.mapError]

/-- With one possible error an outcome is determined by its values. -/
theorem eq_of_ok_iff {x y : Except Unit α} (h : ∀ a, x = .ok a ↔ y = .ok a) : x = y := by
  cases x with
  | ok a => exact ((h a).mp rfl).symm
  | error u =>
    cases y with
    | ok a => exact (h a).mpr rfl
    | error v => rfl

/-- The outcome of a loop whose body is checked on each element in order and which
stops at the first failure. -/
def tryForEach (f : α → Except ε β) : List α → Except ε Unit
  | [] => .ok ()
  | x :: xs => match f x with
    | .ok _ => tryForEach f xs
    | .error e => .error e

theorem tryForEach_eq_ok {f : α → Except ε β} {xs : List α} {u : Unit} :
    tryForEach f xs = .ok u ↔ ∀ x ∈ xs, ∃ b, f x = .ok b := by
  induction xs with
  | nil => simp [tryForEach]
  | cons x xs ih =>
    cases hx : f x with
    | ok b => simp [tryForEach, hx, ih]
    | error e => simp [tryForEach, hx]

/-- A failing loop stopped at one element, after success on every earlier one. -/
theorem tryForEach_eq_error {f : α → Except ε β} {xs : List α} {e : ε} :
    tryForEach f xs = .error e ↔ ∃ before x after, xs = before ++ x :: after ∧
      f x = .error e ∧ ∀ y ∈ before, ∃ b, f y = .ok b := by
  induction xs with
  | nil => simp [tryForEach]
  | cons x xs ih =>
    cases hx : f x with
    | ok b =>
      simp only [tryForEach, hx, ih]
      constructor
      · rintro ⟨before, y, after, rfl, hy, hb⟩
        exact ⟨x :: before, y, after, rfl, hy, by simpa [hx] using hb⟩
      · rintro ⟨before, y, after, hxs, hy, hb⟩
        cases before with
        | nil =>
          obtain ⟨rfl, -⟩ := List.cons.inj hxs
          rw [hx] at hy
          contradiction
        | cons z before =>
          obtain ⟨rfl, rfl⟩ := List.cons.inj hxs
          exact ⟨before, y, after, rfl, hy, fun w hw => hb w (List.mem_cons_of_mem _ hw)⟩
    | error e' =>
      simp only [tryForEach, hx]
      constructor
      · rintro ⟨⟩
        exact ⟨[], x, xs, rfl, hx, by simp⟩
      · rintro ⟨before, y, after, hxs, hy, hb⟩
        cases before with
        | nil =>
          obtain ⟨rfl, -⟩ := List.cons.inj hxs
          rw [hx] at hy
          exact congrArg Except.error (Except.error.inj hy)
        | cons z before =>
          obtain ⟨rfl, -⟩ := List.cons.inj hxs
          obtain ⟨b, hz⟩ := hb x List.mem_cons_self
          rw [hx] at hz
          contradiction

theorem tryForEach_map (f : β → Except ε γ) (g : α → β) (xs : List α) :
    tryForEach f (xs.map g) = tryForEach (fun x => f (g x)) xs := by
  induction xs with
  | nil => rfl
  | cons x xs ih =>
    simp only [List.map_cons, tryForEach, ih]

theorem tryForEach_congr {f : α → Except ε β} {g : α → Except ε γ} {xs : List α}
    (h : ∀ x ∈ xs, (f x).map (fun _ => ()) = (g x).map (fun _ => ())) :
    tryForEach f xs = tryForEach g xs := by
  induction xs with
  | nil => rfl
  | cons x xs ih =>
    have hx := h x List.mem_cons_self
    have hxs := ih (fun y hy => h y (List.mem_cons_of_mem _ hy))
    cases hf : f x <;> cases hg : g x <;> simp_all [tryForEach, Except.map]

/-- A fold fails at the first element it cannot take. -/
theorem foldlM_eq_error {f : β → α → Except ε β} {b : β} {xs : List α} {e : ε} :
    xs.foldlM f b = .error e ↔ ∃ before x after b', xs = before ++ x :: after ∧
      before.foldlM f b = .ok b' ∧ f b' x = .error e := by
  induction xs generalizing b with
  | nil =>
    constructor
    · intro h
      cases h
    · intro h
      obtain ⟨before, x, after, b', hxs, -⟩ := h
      simp at hxs
  | cons y ys ih =>
    rw [List.foldlM_cons, bind_eq_error]
    simp only [ih]
    constructor
    · intro h
      obtain h | ⟨b₁, hb₁, before, x, after, b', rfl, hbefore, hx⟩ := h
      · exact ⟨[], y, ys, b, rfl, rfl, h⟩
      · refine ⟨y :: before, x, after, b', rfl, ?_, hx⟩
        rw [List.foldlM_cons, hb₁]
        exact hbefore
    · intro h
      obtain ⟨before, x, after, b', hxs, hbefore, hx⟩ := h
      cases before with
      | nil =>
        obtain ⟨rfl, -⟩ := List.cons.inj hxs
        cases hbefore
        exact Or.inl hx
      | cons z before =>
        obtain ⟨rfl, rfl⟩ := List.cons.inj hxs
        rw [List.foldlM_cons, bind_eq_ok] at hbefore
        obtain ⟨b₁, hb₁, hbefore⟩ := hbefore
        exact Or.inr ⟨b₁, hb₁, before, x, after, b', rfl, hbefore, hx⟩

end LensoSecrets.EarlyExit
