import Mathlib.Order.Defs.LinearOrder
import Mathlib.Order.Basic
import Mathlib.Data.List.Basic
import Mathlib.Data.List.Nodup
import Mathlib.Data.List.Dedup
import Mathlib.Data.List.Induction
import Mathlib.Data.List.Sort

/-!
# Maps kept in key order

A map is its list of entries in strictly increasing key order, so iteration order,
size and equality are those of the list. Inserting a present key replaces its value.
Decoding a sequence of entries one by one keeps the last value written for each key;
nothing is lost exactly when the written keys are distinct.
-/
namespace LensoSecrets.OrderedMaps

/-- A finite map iterated in key order. -/
structure OrderedMap (κ ν : Type) [LinearOrder κ] where
  entries : List (κ × ν)
  sorted : entries.Pairwise (fun a b => a.1 < b.1)

variable {κ ν : Type} [LinearOrder κ]

/-- Put an entry at its place, replacing an entry of the same key. -/
def insertEntry (k : κ) (v : ν) : List (κ × ν) → List (κ × ν)
  | [] => [(k, v)]
  | e :: es =>
    if k < e.1 then (k, v) :: e :: es
    else if k = e.1 then (k, v) :: es
    else e :: insertEntry k v es

theorem mem_insertEntry {k : κ} {v : ν} {e : κ × ν} {es : List (κ × ν)}
    (h : e ∈ insertEntry k v es) : e = (k, v) ∨ e ∈ es := by
  induction es with
  | nil => simpa [insertEntry] using h
  | cons a es ih =>
    simp only [insertEntry] at h
    split_ifs at h
    · simpa using h
    · rcases List.mem_cons.mp h with h | h
      · exact Or.inl h
      · exact Or.inr (List.mem_cons_of_mem _ h)
    · rcases List.mem_cons.mp h with h | h
      · exact Or.inr (h ▸ List.mem_cons_self)
      · exact (ih h).imp_right (List.mem_cons_of_mem _)

theorem insertEntry_sorted (k : κ) (v : ν) {es : List (κ × ν)}
    (h : es.Pairwise (fun a b => a.1 < b.1)) :
    (insertEntry k v es).Pairwise (fun a b => a.1 < b.1) := by
  induction es with
  | nil => simp [insertEntry]
  | cons a es ih =>
    obtain ⟨ha, hes⟩ := List.pairwise_cons.mp h
    simp only [insertEntry]
    split_ifs with hlt heq
    · refine List.pairwise_cons.mpr ⟨?_, h⟩
      intro b hb
      rcases List.mem_cons.mp hb with rfl | hb
      · exact hlt
      · exact hlt.trans (ha b hb)
    · exact List.pairwise_cons.mpr ⟨fun b hb => heq ▸ ha b hb, hes⟩
    · refine List.pairwise_cons.mpr ⟨?_, ih hes⟩
      intro b hb
      rcases mem_insertEntry hb with rfl | hb
      · exact lt_of_le_of_ne (not_lt.mp hlt) (Ne.symm heq)
      · exact ha b hb

theorem lookup_cons_eq_ite (j k : κ) (v : ν) (es : List (κ × ν)) :
    ((k, v) :: es).lookup j = if j = k then some v else es.lookup j := by
  by_cases h : j = k <;> simp [List.lookup_cons, h, beq_eq_decide]

theorem lookup_insertEntry (k j : κ) (v : ν) (es : List (κ × ν)) :
    (insertEntry k v es).lookup j = if j = k then some v else es.lookup j := by
  induction es with
  | nil => exact lookup_cons_eq_ite j k v []
  | cons a es ih =>
    obtain ⟨l, w⟩ := a
    by_cases hlt : k < l
    · rw [insertEntry, if_pos hlt, lookup_cons_eq_ite]
    · by_cases heq : k = l
      · subst heq
        rw [insertEntry, if_neg hlt, if_pos rfl]
        simp only [lookup_cons_eq_ite]
        split_ifs <;> rfl
      · rw [insertEntry, if_neg hlt, if_neg heq]
        simp only [lookup_cons_eq_ite, ih]
        by_cases hj : j = l
        · subst hj
          rw [if_pos rfl, if_neg (Ne.symm heq), if_pos rfl]
        · rw [if_neg hj, if_neg hj]

/-- In an ordered list of entries a key finds exactly its own entry. -/
theorem lookup_eq_some_iff_mem {es : List (κ × ν)}
    (h : es.Pairwise (fun a b => a.1 < b.1)) {k : κ} {v : ν} :
    es.lookup k = some v ↔ (k, v) ∈ es := by
  induction es with
  | nil => simp
  | cons a es ih =>
    obtain ⟨ha, hes⟩ := List.pairwise_cons.mp h
    obtain ⟨l, w⟩ := a
    rw [lookup_cons_eq_ite]
    by_cases hk : k = l
    · subst hk
      have hn : (k, v) ∉ es := fun hm => lt_irrefl k (ha _ hm)
      simp [hn, eq_comm]
    · simp [hk, ih hes]

theorem length_insertEntry {k : κ} (v : ν) {es : List (κ × ν)} (h : k ∉ es.map Prod.fst) :
    (insertEntry k v es).length = es.length + 1 := by
  induction es with
  | nil => rfl
  | cons a es ih =>
    obtain ⟨hne, hes⟩ := not_or.mp (List.mem_cons.not.mp h)
    rw [insertEntry]
    split_ifs with hlt
    · rfl
    · rw [List.length_cons, List.length_cons, ih hes]

namespace OrderedMap

theorem ext_entries {m n : OrderedMap κ ν} (h : m.entries = n.entries) : m = n := by
  cases m
  cases n
  cases h
  rfl

instance [DecidableEq ν] : DecidableEq (OrderedMap κ ν) := fun m n =>
  decidable_of_iff (m.entries = n.entries) ⟨ext_entries, congrArg entries⟩

def empty : OrderedMap κ ν := ⟨[], List.Pairwise.nil⟩
def get? (m : OrderedMap κ ν) (k : κ) : Option ν := m.entries.lookup k
def containsKey (m : OrderedMap κ ν) (k : κ) : Bool := (m.get? k).isSome
def keys (m : OrderedMap κ ν) : List κ := m.entries.map Prod.fst
def len (m : OrderedMap κ ν) : ℕ := m.entries.length
def isEmpty (m : OrderedMap κ ν) : Bool := m.entries.isEmpty

/-- Take the value of a key out, with the map that is left. -/
def remove (m : OrderedMap κ ν) (k : κ) : Option ν × OrderedMap κ ν :=
  (m.get? k, ⟨m.entries.filter (fun e => e.1 ≠ k), m.sorted.filter _⟩)

def insert (m : OrderedMap κ ν) (k : κ) (v : ν) : OrderedMap κ ν :=
  ⟨insertEntry k v m.entries, insertEntry_sorted k v m.sorted⟩

/-- Put a value in, with the value that it replaces. -/
def replace (m : OrderedMap κ ν) (k : κ) (v : ν) : Option ν × OrderedMap κ ν :=
  (m.get? k, m.insert k v)

/-- Insert entries one by one, in the order given. -/
def insertAll (m : OrderedMap κ ν) (es : List (κ × ν)) : OrderedMap κ ν :=
  es.foldl (fun m e => m.insert e.1 e.2) m

def ofEntries (es : List (κ × ν)) : OrderedMap κ ν := insertAll empty es

/-- Insert entries one by one, but stop at one whose key is there already. -/
def insertAllNew (m : OrderedMap κ ν) : List (κ × ν) → Option (OrderedMap κ ν)
  | [] => some m
  | e :: es => if m.containsKey e.1 then none else (m.insert e.1 e.2).insertAllNew es

variable {m n : OrderedMap κ ν} {k : κ} {v : ν}

theorem get?_eq_some : m.get? k = some v ↔ (k, v) ∈ m.entries :=
  lookup_eq_some_iff_mem m.sorted

@[simp] theorem get?_empty (k : κ) : (empty : OrderedMap κ ν).get? k = none := rfl

theorem get?_insert (m : OrderedMap κ ν) (k j : κ) (v : ν) :
    (m.insert k v).get? j = if j = k then some v else m.get? j :=
  lookup_insertEntry k j v m.entries

theorem keys_nodup (m : OrderedMap κ ν) : m.keys.Nodup :=
  (List.pairwise_map.mpr m.sorted).imp ne_of_lt

theorem mem_keys : k ∈ m.keys ↔ ∃ v, m.get? k = some v := by
  simp [keys, get?_eq_some]

/-- The entries before a key are those of the smaller keys. -/
theorem mem_before_iff {before after : List (κ × ν)} (h : m.entries = before ++ (k, v) :: after)
    {e : κ × ν} : e ∈ before ↔ e ∈ m.entries ∧ e.1 < k := by
  have hs := m.sorted
  rw [h, List.pairwise_append] at hs
  obtain ⟨-, hright, hcross⟩ := hs
  rw [h]
  constructor
  · intro he
    exact ⟨List.mem_append_left _ he, hcross e he (k, v) List.mem_cons_self⟩
  · rintro ⟨he, hlt⟩
    rcases List.mem_append.mp he with he | he
    · exact he
    · exfalso
      rcases List.mem_cons.mp he with rfl | he
      · exact lt_irrefl _ hlt
      · exact lt_asymm hlt ((List.pairwise_cons.mp hright).1 e he)

variable {es : List (κ × ν)}

/-- A key holds the last value written for it. -/
theorem get?_insertAll (m : OrderedMap κ ν) (es : List (κ × ν)) (k : κ) :
    (m.insertAll es).get? k = (es.reverse.lookup k).or (m.get? k) := by
  induction es generalizing m with
  | nil => rfl
  | cons e es ih =>
    have hstep : m.insertAll (e :: es) = (m.insert e.1 e.2).insertAll es := rfl
    rw [hstep, ih, get?_insert, List.reverse_cons, List.lookup_append, Option.or_assoc]
    congr 1
    obtain ⟨l, w⟩ := e
    rw [lookup_cons_eq_ite]
    by_cases hk : k = l <;> simp [hk]

theorem get?_ofEntries (es : List (κ × ν)) (k : κ) :
    (ofEntries es).get? k = es.reverse.lookup k := by
  rw [ofEntries, get?_insertAll, get?_empty, Option.or_none]

theorem mem_of_get?_ofEntries (h : (ofEntries es).get? k = some v) : (k, v) ∈ es := by
  rw [get?_ofEntries, List.lookup_eq_some_iff] at h
  obtain ⟨l₁, l₂, hl, -⟩ := h
  exact List.mem_reverse.mp (hl ▸ List.mem_append_right _ List.mem_cons_self)

theorem mem_keys_ofEntries : k ∈ (ofEntries es).keys ↔ k ∈ es.map Prod.fst := by
  rw [mem_keys, ← Option.isSome_iff_exists, get?_ofEntries, List.lookup_isSome_iff]
  simp only [List.mem_reverse, List.mem_map, beq_iff_eq, eq_comm (a := k)]

theorem containsKey_ofEntries :
    (ofEntries es).containsKey k = true ↔ k ∈ es.map Prod.fst := by
  rw [containsKey, Option.isSome_iff_exists, ← mem_keys, mem_keys_ofEntries]

/-- The number of keys kept is the number of distinct keys written. -/
theorem len_ofEntries (es : List (κ × ν)) :
    (ofEntries es).len = (es.map Prod.fst).dedup.length := by
  have hperm : (ofEntries es).keys.Perm (es.map Prod.fst).dedup := by
    refine (List.perm_ext_iff_of_nodup (keys_nodup _) (List.nodup_dedup _)).mpr (fun k => ?_)
    rw [mem_keys_ofEntries, List.mem_dedup]
  rw [← hperm.length_eq, keys, List.length_map, len]

theorem isEmpty_ofEntries (es : List (κ × ν)) :
    (ofEntries es).isEmpty = true ↔ es = [] := by
  have hlen : (ofEntries es).isEmpty = true ↔ (ofEntries es).len = 0 := by
    rw [isEmpty, len, List.isEmpty_iff, List.length_eq_zero_iff]
  rw [hlen, len_ofEntries, List.length_eq_zero_iff, List.dedup_eq_nil, List.map_eq_nil_iff]

/-- With distinct keys nothing written is lost. -/
theorem get?_ofEntries_of_nodup (h : (es.map Prod.fst).Nodup) :
    (ofEntries es).get? k = some v ↔ (k, v) ∈ es := by
  refine ⟨mem_of_get?_ofEntries, fun hm => ?_⟩
  obtain ⟨w, hw⟩ := mem_keys.mp (mem_keys_ofEntries.mpr (List.mem_map_of_mem (f := Prod.fst) hm))
  have hv : (k, w) = (k, v) := List.inj_on_of_nodup_map h (mem_of_get?_ofEntries hw) hm rfl
  cases hv
  exact hw

/-- A map is determined by what its keys hold. -/
theorem ext_get? (h : ∀ k, m.get? k = n.get? k) : m = n := by
  have hmem : ∀ e, e ∈ m.entries ↔ e ∈ n.entries := by
    intro e
    have hm := get?_eq_some (m := m) (k := e.1) (v := e.2)
    have hn := get?_eq_some (m := n) (k := e.1) (v := e.2)
    rw [← hm, ← hn, h]
  have hnodup : ∀ m : OrderedMap κ ν, m.entries.Nodup := fun m => (keys_nodup m).of_map
  have hperm : m.entries.Perm n.entries :=
    (List.perm_ext_iff_of_nodup (hnodup m) (hnodup n)).mpr hmem
  apply ext_entries
  refine hperm.eq_of_pairwise ?_ m.sorted n.sorted
  intro a b _ _ hab hba
  exact absurd hab (lt_asymm hba)

theorem ofEntries_entries (m : OrderedMap κ ν) : ofEntries m.entries = m := by
  apply ext_get?
  intro k
  apply Option.ext
  intro v
  rw [get?_ofEntries_of_nodup (keys_nodup m), get?_eq_some]

theorem ofEntries_perm {es' : List (κ × ν)} (h : es.Perm es') (hnodup : (es.map Prod.fst).Nodup) :
    ofEntries es = ofEntries es' := by
  have hnodup' : (es'.map Prod.fst).Nodup := (h.map Prod.fst).nodup_iff.mp hnodup
  apply ext_get?
  intro k
  apply Option.ext
  intro v
  rw [get?_ofEntries_of_nodup hnodup, get?_ofEntries_of_nodup hnodup', h.mem_iff]

theorem get?_remove (m : OrderedMap κ ν) (k j : κ) :
    (m.remove k).2.get? j = if j = k then none else m.get? j := by
  apply Option.ext
  intro v
  have hmem : (m.remove k).2.get? j = some v ↔ (j, v) ∈ m.entries ∧ j ≠ k := by
    rw [get?_eq_some, remove, List.mem_filter, decide_eq_true_iff]
  rw [hmem, ← get?_eq_some]
  by_cases hj : j = k <;> simp [hj]

theorem get?_ofEntries_append (es : List (κ × ν)) (m : OrderedMap κ ν) (k : κ) :
    (ofEntries (es ++ m.entries)).get? k = (m.get? k).or ((ofEntries es).get? k) := by
  have hm : m.entries.reverse.lookup k = m.get? k := by
    rw [← get?_ofEntries, ofEntries_entries]
  rw [get?_ofEntries, List.reverse_append, List.lookup_append, hm, get?_ofEntries]

theorem containsKey_insert (m : OrderedMap κ ν) (k j : κ) (v : ν) :
    (m.insert k v).containsKey j = (decide (j = k) || m.containsKey j) := by
  rw [containsKey, containsKey, get?_insert]
  by_cases hj : j = k <;> simp [hj]

theorem len_insert (h : m.containsKey k = false) : (m.insert k v).len = m.len + 1 := by
  apply length_insertEntry
  intro hmem
  obtain ⟨w, hw⟩ := mem_keys.mp hmem
  rw [containsKey, hw] at h
  cases h

/-- All entries are inserted exactly if their keys are new and distinct. -/
theorem insertAllNew_eq_some : m.insertAllNew es = some n ↔
    (∀ e ∈ es, m.containsKey e.1 = false) ∧ (es.map Prod.fst).Nodup ∧ n = m.insertAll es := by
  induction es generalizing m with
  | nil =>
    have hnil : m.insertAll [] = m := rfl
    rw [insertAllNew, Option.some.injEq, hnil, eq_comm]
    simp only [List.not_mem_nil, false_implies, implies_true, List.map_nil, List.nodup_nil,
      true_and]
  | cons e es ih =>
    have hstep : m.insertAll (e :: es) = (m.insert e.1 e.2).insertAll es := rfl
    have hnew : (∀ e' ∈ es, (m.insert e.1 e.2).containsKey e'.1 = false) ↔
        e.1 ∉ es.map Prod.fst ∧ ∀ e' ∈ es, m.containsKey e'.1 = false := by
      simp only [containsKey_insert, Bool.or_eq_false_iff, decide_eq_false_iff_not, List.mem_map,
        not_exists, not_and]
      exact forall₂_and
    rw [insertAllNew, List.forall_mem_cons, List.map_cons, List.nodup_cons, hstep]
    cases hkey : m.containsKey e.1 with
    | true => simp
    | false =>
      rw [if_neg Bool.false_ne_true, ih, hnew]
      simp only [true_and]
      tauto

theorem insertAllNew_empty : (empty : OrderedMap κ ν).insertAllNew es = some n ↔
    (es.map Prod.fst).Nodup ∧ n = ofEntries es := by
  rw [insertAllNew_eq_some, ofEntries]
  have hempty : ∀ e ∈ es, (empty : OrderedMap κ ν).containsKey e.1 = false := fun e _ => rfl
  exact and_iff_right hempty

/-- A list of entries that repeats a key does so for the first time somewhere. -/
theorem exists_repeat_iff : ¬ (es.map Prod.fst).Nodup ↔ ∃ before e after,
    es = before ++ e :: after ∧ (before.map Prod.fst).Nodup ∧ e.1 ∈ before.map Prod.fst := by
  induction es using List.reverseRecOn with
  | nil => simp
  | append_singleton es e ih =>
    constructor
    · intro h
      by_cases hnodup : (es.map Prod.fst).Nodup
      · refine ⟨es, e, [], rfl, hnodup, ?_⟩
        by_contra hnew
        apply h
        rw [List.map_append, List.nodup_append]
        refine ⟨hnodup, List.nodup_singleton _, ?_⟩
        intro k hk k' hk' heq
        rw [List.map_singleton, List.mem_singleton] at hk'
        exact hnew (hk' ▸ heq ▸ hk)
      · obtain ⟨before, e', after, rfl, hbefore, hmem⟩ := ih.mp hnodup
        exact ⟨before, e', after ++ [e], by simp, hbefore, hmem⟩
    · intro h hnodup
      obtain ⟨before, e', after, hes, -, hmem⟩ := h
      rw [hes, List.map_append, List.nodup_append] at hnodup
      exact hnodup.2.2 _ hmem _ List.mem_cons_self rfl

end OrderedMap
end LensoSecrets.OrderedMaps
