import Mathlib.Data.List.Nodup

/-! Association lists in which each key has one entry: a hash table without its buckets. -/
namespace Lib

open List

variable {κ α : Type*} [BEq κ] [LawfulBEq κ] {l : List (κ × α)} {k j : κ} {v : α}

theorem lookup_cons_of_ne {k' : κ} (h : k ≠ k') : ((k', v) :: l).lookup k = l.lookup k := by
  rw [lookup_cons, beq_false_of_ne h]

theorem mem_of_lookup {a : α} (h : l.lookup k = some a) : (k, a) ∈ l := by
  obtain ⟨l1, l2, rfl, -⟩ := lookup_eq_some_iff.mp h
  simp

theorem lookup_eq_some (hkeys : (l.map Prod.fst).Nodup) : l.lookup k = some v ↔ (k, v) ∈ l := by
  induction l with
  | nil => simp
  | cons e l ih =>
    obtain ⟨a, w⟩ := e
    obtain ⟨hfirst, hrest⟩ := nodup_cons.mp hkeys
    rw [mem_cons]
    by_cases hk : k = a
    · subst hk
      rw [lookup_cons_self, Option.some_inj]
      refine ⟨fun h => .inl (by rw [h]), fun h => ?_⟩
      simp_all
    · rw [lookup_cons_of_ne hk, ih hrest]
      simp [hk]

theorem lookup_perm {l l' : List (κ × α)} (h : l.Perm l') (hkeys : (l.map Prod.fst).Nodup) (k : κ) :
    l'.lookup k = l.lookup k := by
  ext v
  rw [lookup_eq_some hkeys, lookup_eq_some ((h.map _).nodup_iff.mp hkeys), h.mem_iff]

/-- Replace the value of a key, or add an entry. -/
def assocSet (k : κ) (v : α) : List (κ × α) → List (κ × α)
  | [] => [(k, v)]
  | e :: l => if e.1 == k then (k, v) :: l else e :: assocSet k v l

theorem mem_keys_assocSet : j ∈ (assocSet k v l).map Prod.fst ↔ j = k ∨ j ∈ l.map Prod.fst := by
  induction l with
  | nil => simp [assocSet]
  | cons e l ih =>
    rw [assocSet]
    split_ifs with he
    · simp [eq_of_beq he]
    · rw [map_cons, mem_cons, ih, map_cons, mem_cons]
      exact or_left_comm

theorem nodup_keys_assocSet (hkeys : (l.map Prod.fst).Nodup) (k : κ) (v : α) :
    ((assocSet k v l).map Prod.fst).Nodup := by
  induction l with
  | nil => exact nodup_singleton k
  | cons e l ih =>
    obtain ⟨hfirst, hrest⟩ := nodup_cons.mp hkeys
    rw [assocSet]
    split_ifs with he
    · simp_all
    · refine nodup_cons.mpr ⟨fun h => ?_, ih hrest⟩
      rcases mem_keys_assocSet.mp h with h | h
      · exact he (beq_iff_eq.mpr h)
      · exact hfirst h

theorem lookup_assocSet_self (k : κ) (v : α) (l : List (κ × α)) :
    (assocSet k v l).lookup k = some v := by
  induction l with
  | nil => exact lookup_cons_self
  | cons e l ih =>
    rw [assocSet]
    split_ifs with he
    · exact lookup_cons_self
    · rw [lookup_cons_of_ne fun h => he (beq_iff_eq.mpr h.symm), ih]

theorem lookup_assocSet_of_ne (h : j ≠ k) (v : α) (l : List (κ × α)) :
    (assocSet k v l).lookup j = l.lookup j := by
  induction l with
  | nil => exact lookup_cons_of_ne h
  | cons e l ih =>
    obtain ⟨a, w⟩ := e
    rw [assocSet]
    split_ifs with he
    · obtain rfl : a = k := eq_of_beq he
      rw [lookup_cons_of_ne h, lookup_cons_of_ne h]
    · rw [lookup_cons, lookup_cons, ih]

end Lib
