import LensoSecrets.EarlyExit
import LensoSecrets.OrderedMaps

/-!
# Resolution tables

The abstract purpose of an allowlisted lookup. A table binds well-formed keys to
names of a source; the source holds a value for some names. Every key has exactly
one answer, a verification pass over all bindings fails at the least key without a
value, and neither depends on anything but the key, its binding and availability.
-/
namespace LensoSecrets.ResolutionTables
open EarlyExit OrderedMaps

variable {κ σ ν φ : Type} [LinearOrder κ]

/-- What is learned about one key. -/
inductive Answer (ν : Type) where
  | malformed
  | unbound
  | unavailable
  | value (v : ν)

/-- An allowlist all of whose keys are well-formed. -/
structure Table (κ σ : Type) [LinearOrder κ] where
  wellFormed : κ → Bool
  bindings : OrderedMap κ σ
  closed : ∀ {k s}, bindings.get? k = some s → wellFormed k = true

namespace Table

def answer (T : Table κ σ) (source : σ → Option ν) (k : κ) : Answer ν :=
  if T.wellFormed k then
    match T.bindings.get? k with
    | none => .unbound
    | some s => match source s with
      | none => .unavailable
      | some v => .value v
  else .malformed

/-- Check every binding in key order, with an error for the key that fails. -/
def verify (T : Table κ σ) (failure : κ → φ) (source : σ → Option ν) : Except φ Unit :=
  tryForEach (fun e => match source e.2 with
    | none => .error (failure e.1)
    | some _ => .ok ()) T.bindings.entries

variable {T : Table κ σ} {source source' : σ → Option ν} {k : κ} {v : ν} {failure : κ → φ}

theorem answer_of_bound {s : σ} (h : T.bindings.get? k = some s) :
    T.answer source k = (source s).elim .unavailable .value := by
  rw [answer, if_pos (T.closed h), h]
  cases hs : source s <;> simp [hs]

theorem answer_of_unbound (h : T.bindings.get? k = none) :
    T.answer source k = if T.wellFormed k then .unbound else .malformed := by
  rw [answer, h]

theorem answer_eq_malformed (source : σ → Option ν) :
    T.answer source k = .malformed ↔ T.wellFormed k = false := by
  unfold answer
  cases T.wellFormed k with
  | false => simp
  | true =>
    cases T.bindings.get? k with
    | none => simp
    | some s => cases hs : source s <;> simp [hs]

theorem answer_eq_unbound (source : σ → Option ν) :
    T.answer source k = .unbound ↔ T.wellFormed k = true ∧ T.bindings.get? k = none := by
  unfold answer
  cases T.wellFormed k with
  | false => simp
  | true =>
    cases T.bindings.get? k with
    | none => simp
    | some s => cases hs : source s <;> simp [hs]

theorem answer_eq_unavailable : T.answer source k = .unavailable ↔
    ∃ s, T.bindings.get? k = some s ∧ source s = none := by
  cases hb : T.bindings.get? k with
  | none =>
    simp only [answer, hb]
    split <;> simp
  | some s =>
    rw [answer_of_bound hb]
    cases hs : source s <;> simp [hs]

theorem answer_eq_value : T.answer source k = .value v ↔
    ∃ s, T.bindings.get? k = some s ∧ source s = some v := by
  cases hb : T.bindings.get? k with
  | none =>
    simp only [answer, hb]
    split <;> simp
  | some s =>
    rw [answer_of_bound hb]
    cases hs : source s <;> simp [hs]

/-- Only the source named by the binding matters. -/
theorem answer_congr (h : ∀ s, T.bindings.get? k = some s → source s = source' s) :
    T.answer source k = T.answer source' k := by
  unfold answer
  cases hb : T.bindings.get? k with
  | none => rfl
  | some s => simp only [h s hb]

/-- Two sources without a value for a key give the same answer. -/
theorem answer_eq_of_no_value (h : ∀ v, T.answer source k ≠ .value v)
    (h' : ∀ v, T.answer source' k ≠ .value v) : T.answer source k = T.answer source' k := by
  refine answer_congr (fun s hb => ?_)
  rw [answer_of_bound hb] at h h'
  cases hs : source s with
  | some v => exact absurd (by rw [hs]; rfl) (h v)
  | none =>
    cases hs' : source' s with
    | some v => exact absurd (by rw [hs']; rfl) (h' v)
    | none => rfl

theorem verify_eq_ok : T.verify failure source = .ok () ↔
    ∀ k s, T.bindings.get? k = some s → ∃ v, source s = some v := by
  rw [verify, tryForEach_eq_ok]
  constructor
  · intro h k s hb
    obtain ⟨u, hu⟩ := h (k, s) (OrderedMap.get?_eq_some.mp hb)
    cases hs : source s with
    | none => simp [hs] at hu
    | some v => exact ⟨v, rfl⟩
  · rintro h ⟨k, s⟩ he
    obtain ⟨v, hv⟩ := h k s (OrderedMap.get?_eq_some.mpr he)
    exact ⟨(), by simp [hv]⟩

/-- Verification fails at the least key whose source has no value. -/
theorem verify_eq_error {f : φ} : T.verify failure source = .error f ↔
    ∃ k s, T.bindings.get? k = some s ∧ source s = none ∧ failure k = f ∧
      ∀ j u, T.bindings.get? j = some u → j < k → ∃ v, source u = some v := by
  rw [verify, tryForEach_eq_error]
  constructor
  · rintro ⟨before, ⟨k, s⟩, after, hes, hf, hb⟩
    have hk : T.bindings.get? k = some s := by
      rw [OrderedMap.get?_eq_some, hes]
      exact List.mem_append_right _ List.mem_cons_self
    cases hs : source s with
    | some v => simp [hs] at hf
    | none =>
      refine ⟨k, s, hk, hs, by simpa [hs] using hf, fun j u hj hlt => ?_⟩
      have hju := OrderedMap.get?_eq_some.mp hj
      obtain ⟨w, hw⟩ := hb (j, u) ((OrderedMap.mem_before_iff hes).mpr ⟨hju, hlt⟩)
      cases hu : source u with
      | none => simp [hu] at hw
      | some v => exact ⟨v, rfl⟩
  · rintro ⟨k, s, hk, hs, rfl, hleast⟩
    obtain ⟨before, after, hes⟩ := List.append_of_mem (OrderedMap.get?_eq_some.mp hk)
    refine ⟨before, (k, s), after, hes, by simp [hs], ?_⟩
    rintro ⟨j, u⟩ hju
    obtain ⟨hm, hlt⟩ := (OrderedMap.mem_before_iff hes).mp hju
    obtain ⟨v, hv⟩ := hleast j u (OrderedMap.get?_eq_some.mpr hm) hlt
    exact ⟨(), by simp [hv]⟩

/-- Verification depends on which bound sources have a value, not on the values. -/
theorem verify_congr
    (h : ∀ k s, T.bindings.get? k = some s → (source s).isSome = (source' s).isSome) :
    T.verify failure source = T.verify failure source' := by
  refine tryForEach_congr (fun e he => ?_)
  have hes := h e.1 e.2 (OrderedMap.get?_eq_some.mpr he)
  cases hs : source e.2 <;> cases hs' : source' e.2 <;> simp [hs, hs'] at hes <;> rfl

end Table
end LensoSecrets.ResolutionTables
