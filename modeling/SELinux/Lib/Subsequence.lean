import Mathlib.Data.List.Chain
import Mathlib.Data.List.Nodup

/-! Lists as orders: one element is before another if the two are a subsequence. A list that has no
element twice is determined by its neighbours. -/
namespace Lib

open List

variable {α : Type*} {l m m' : List α} {x y z : α}

section Before

variable {l1 l2 : List α}

theorem pair_sublist_left (h : (l1 ++ y :: l2).Nodup) : [x, y].Sublist (l1 ++ y :: l2) ↔
    x ∈ l1 := by
  constructor
  · intro hxy
    obtain ⟨r1, r2, hr, hx, hy⟩ := cons_sublist_iff.mp hxy
    rcases append_eq_append_iff.mp hr with ⟨t, rfl, ht⟩ | ⟨t, rfl, -⟩
    · -- then `y` stands behind itself
      cases t with
      | nil => simpa using hx
      | cons a t =>
        rw [cons_append, cons.injEq] at ht
        have hmem : y ∈ l2 := ht.2 ▸ mem_append_right _ (singleton_sublist.mp hy)
        rw [nodup_append, nodup_cons] at h
        exact absurd hmem h.2.1.1
    · exact mem_append_left _ hx
  · intro hx
    exact (singleton_sublist.mpr hx).append (singleton_sublist.mpr (by simp : y ∈ y :: l2))

theorem pair_sublist_right (h : (l1 ++ y :: l2).Nodup) : [y, z].Sublist (l1 ++ y :: l2) ↔
    z ∈ l2 := by
  have hrev : (l2.reverse ++ y :: l1.reverse).Nodup := by
    rw [← nodup_reverse]
    simpa using h
  have hleft := pair_sublist_left (x := z) hrev
  rw [mem_reverse, ← reverse_sublist] at hleft
  simpa using hleft

end Before

theorem pair_sublist_asymm (h : m.Nodup) (hxy : [x, y].Sublist m) : ¬[y, x].Sublist m := by
  intro hyx
  obtain ⟨l1, l2, rfl⟩ := append_of_mem (hxy.subset (by simp : y ∈ [x, y]))
  rw [pair_sublist_left h] at hxy
  rw [pair_sublist_right h] at hyx
  exact (nodup_append.mp h).2.2 x hxy x (mem_cons_of_mem _ hyx) rfl

theorem pair_sublist_trans (h : m.Nodup) (hxy : [x, y].Sublist m) (hyz : [y, z].Sublist m) :
    [x, z].Sublist m := by
  obtain ⟨l1, l2, rfl⟩ := append_of_mem (hxy.subset (by simp : y ∈ [x, y]))
  rw [pair_sublist_left h] at hxy
  rw [pair_sublist_right h] at hyz
  exact (singleton_sublist.mpr hxy).append (singleton_sublist.mpr (mem_cons_of_mem _ hyz))

/-- Two lists of the same elements are equal if neighbours in the one are in the same order in the
other. -/
theorem eq_of_isChain_pair_sublist (hl : l.Nodup) (hm : m.Nodup) (hmem : ∀ a, a ∈ l ↔ a ∈ m)
    (hchain : l.IsChain fun a b => [a, b].Sublist m) : l = m := by
  have htrans : Trans (fun a b => [a, b].Sublist m) (fun a b => [a, b].Sublist m)
      (fun a b => [a, b].Sublist m) :=
    ⟨fun hab hbc => pair_sublist_trans hm hab hbc⟩
  refine List.Perm.eq_of_pairwise (fun a b _ _ hab hba => absurd hba (pair_sublist_asymm hm hab))
    hchain.pairwise
    (pairwise_iff_forall_sublist.mpr fun h => h) ?_
  exact (perm_ext_iff_of_nodup hl hm).mpr hmem

/-! ## Conflicts -/

/-- No list without duplicates has both as subsequences. -/
def Conflicts (l m : List α) : Prop := ∃ x y, [x, y].Sublist l ∧ (x = y ∨ [y, x].Sublist m)

theorem Conflicts.mono (h : Conflicts l m) (hm : m.Sublist m') : Conflicts l m' := by
  obtain ⟨x, y, hxy, hyx⟩ := h
  exact ⟨x, y, hxy, hyx.imp_right fun h => h.trans hm⟩

theorem Conflicts.not_sublist (h : Conflicts l m) (hm : m.Nodup) : ¬l.Sublist m := by
  obtain ⟨x, y, hxy, hyx⟩ := h
  intro hsub
  rcases hyx with rfl | hyx
  · exact nodup_iff_sublist.mp hm x (hxy.trans hsub)
  · exact pair_sublist_asymm hm (hxy.trans hsub) hyx

end Lib
