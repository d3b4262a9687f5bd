import Mathlib.Data.List.Infix

/-!
# Lists cut at a separator

Cutting at a separator is the only way to write a list as a join of pieces that are free
of it. That no piece is empty can be seen on the list itself: it has no separator at
either end and no two next to each other.
-/
namespace LensoSecrets.SeparatedLists

variable {α : Type} [DecidableEq α] {x : α}

/-- Cutting in front of an element, by whether it is the separator. -/
theorem splitOn_cons (a : α) (xs : List α) : (a :: xs).splitOn x =
    if a = x then [] :: xs.splitOn x else (xs.splitOn x).modifyHead (List.cons a) := by
  rw [List.splitOn_cons_eq_if_modifyHead]
  simp only [beq_iff_eq]

theorem exists_splitOn (x : α) (xs : List α) :
    ∃ first rest, xs.splitOn x = first :: rest :=
  List.exists_cons_of_ne_nil (List.splitOn_ne_nil x xs)

theorem not_mem_of_mem_splitOn {xs piece : List α} (h : piece ∈ xs.splitOn x) : x ∉ piece := by
  induction xs generalizing piece with
  | nil =>
    rw [List.splitOn_nil, List.mem_singleton] at h
    rw [h]
    exact List.not_mem_nil
  | cons a xs ih =>
    rw [splitOn_cons] at h
    split_ifs at h with ha
    · rcases List.mem_cons.mp h with rfl | h
      · exact List.not_mem_nil
      · exact ih h
    · obtain ⟨first, rest, hsplit⟩ := exists_splitOn x xs
      rw [hsplit, List.modifyHead_cons] at h
      rcases List.mem_cons.mp h with rfl | h
      · have hfirst : x ∉ first := ih (by rw [hsplit]; exact List.mem_cons_self)
        intro hx
        rcases List.mem_cons.mp hx with hx | hx
        · exact ha hx.symm
        · exact hfirst hx
      · apply ih
        rw [hsplit]
        exact List.mem_cons_of_mem _ h

/-- The pieces of a list are determined by their join. -/
theorem eq_splitOn_iff {xs : List α} {pieces : List (List α)} :
    pieces = xs.splitOn x ↔
      pieces ≠ [] ∧ (∀ piece ∈ pieces, x ∉ piece) ∧ [x].intercalate pieces = xs := by
  constructor
  · rintro rfl
    refine ⟨List.splitOn_ne_nil x xs, ?_, List.intercalate_splitOn x⟩
    intro piece hpiece
    exact not_mem_of_mem_splitOn hpiece
  · intro h
    obtain ⟨hne, hfree, hjoin⟩ := h
    rw [← hjoin, List.splitOn_intercalate x hfree hne]

/-- Every element but the separator is in some piece. -/
theorem mem_iff_mem_piece {a : α} {xs : List α} (ha : a ≠ x) :
    a ∈ xs ↔ ∃ piece ∈ xs.splitOn x, a ∈ piece := by
  induction xs with
  | nil => simp
  | cons b xs ih =>
    obtain ⟨first, rest, hsplit⟩ := exists_splitOn x xs
    rw [hsplit] at ih
    rw [List.mem_cons, ih, splitOn_cons, hsplit]
    split_ifs with hb
    · simp [hb, ha]
    · simp [or_assoc]

/-- What holds of all elements but the separator holds of all elements of the pieces. -/
theorem forall_mem_iff_forall_piece {P : α → Prop} {xs : List α} :
    (∀ a ∈ xs, a = x ∨ P a) ↔ ∀ piece ∈ xs.splitOn x, ∀ a ∈ piece, P a := by
  constructor
  · intro h piece hpiece a ha
    have hne : a ≠ x := by
      rintro rfl
      exact not_mem_of_mem_splitOn hpiece ha
    have hmem : a ∈ xs := (mem_iff_mem_piece hne).mpr ⟨piece, hpiece, ha⟩
    exact (h a hmem).resolve_left hne
  · intro h a ha
    by_cases hne : a = x
    · exact Or.inl hne
    · obtain ⟨piece, hpiece, hmem⟩ := (mem_iff_mem_piece hne).mp ha
      exact Or.inr (h piece hpiece a hmem)

/-- The first piece is empty if there is nothing before a separator. -/
theorem first_eq_nil_iff {xs first : List α} {rest : List (List α)}
    (h : xs.splitOn x = first :: rest) : first = [] ↔ xs = [] ∨ xs.head? = some x := by
  cases xs with
  | nil =>
    rw [List.splitOn_nil] at h
    obtain ⟨rfl, -⟩ := List.cons.inj h
    simp
  | cons a xs =>
    rw [splitOn_cons] at h
    split_ifs at h with ha
    · obtain ⟨rfl, -⟩ := List.cons.inj h
      simp [ha]
    · obtain ⟨first', rest', hsplit⟩ := exists_splitOn x xs
      rw [hsplit, List.modifyHead_cons] at h
      obtain ⟨rfl, -⟩ := List.cons.inj h
      simp [ha]

omit [DecidableEq α] in
theorem pair_infix_cons {a : α} {xs : List α} :
    [x, x] <:+: a :: xs ↔ (a = x ∧ xs.head? = some x) ∨ [x, x] <:+: xs := by
  rw [List.infix_cons_iff]
  apply or_congr_left
  cases xs with
  | nil => simp
  | cons b xs => simp [eq_comm (a := x)]

/-- All pieces after the first are non-empty if no separator is the last element or next
to another one. -/
theorem rest_nonempty_iff {xs first : List α} {rest : List (List α)}
    (h : xs.splitOn x = first :: rest) :
    (∀ piece ∈ rest, piece ≠ []) ↔ xs.getLast? ≠ some x ∧ ¬ [x, x] <:+: xs := by
  induction xs generalizing first rest with
  | nil =>
    rw [List.splitOn_nil] at h
    obtain ⟨-, rfl⟩ := List.cons.inj h
    simp
  | cons a xs ih =>
    obtain ⟨first', rest', hsplit⟩ := exists_splitOn x xs
    have hfirst := first_eq_nil_iff hsplit
    have hrest := ih hsplit
    have hlast : (a :: xs).getLast? = some x ↔ (a = x ∧ xs = []) ∨ xs.getLast? = some x := by
      cases xs with
      | nil => simp
      | cons b xs => simp [List.getLast?_cons_cons]
    rw [splitOn_cons, hsplit] at h
    rw [ne_eq, hlast, pair_infix_cons]
    split_ifs at h with ha
    · obtain ⟨-, rfl⟩ := List.cons.inj h
      rw [List.forall_mem_cons, hrest, ne_eq, hfirst]
      simp only [ha, true_and, ne_eq, not_or, and_assoc, and_left_comm]
    · obtain ⟨-, rfl⟩ := List.cons.inj h
      rw [hrest]
      simp only [ha, false_and, false_or, ne_eq]

/-- No piece is empty exactly if the list has elements, but no separator at either end and
no two next to each other. -/
theorem pieces_nonempty_iff {xs : List α} : (∀ piece ∈ xs.splitOn x, piece ≠ []) ↔
    xs ≠ [] ∧ xs.head? ≠ some x ∧ xs.getLast? ≠ some x ∧ ¬ [x, x] <:+: xs := by
  obtain ⟨first, rest, hsplit⟩ := exists_splitOn x xs
  have hfirst := first_eq_nil_iff hsplit
  have hrest := rest_nonempty_iff hsplit
  rw [hsplit, List.forall_mem_cons, hrest, ne_eq, hfirst, not_or, and_assoc]

end LensoSecrets.SeparatedLists
