import Mathlib.Data.List.GetD
import SELinux.Sepol.AvtabMap

/-! Tables whose nodes are written to by address, as the expander does: a node for a
key may be there several times, once for each rule list it stands on. -/
namespace SELinux.Sepol

open AvtabKey List Option

/-- A well-formed table with a slot for every hash value and one node for each
address. -/
structure Avtab.Placed (t : Avtab) : Prop where
  wf : t.Wf
  slots : ∀ k, avtabHash k t.mask < t.htable.length
  addrs : (t.nodes.map AvtabNode.addr).Nodup

theorem avtabAlloc_placed {nrules : Nat} (h : nrules ≠ 0) : (avtabAlloc nrules).Placed :=
  ⟨(avtabAlloc_isMap h).wf, (avtabAlloc_isMap h).slots, by simp [avtabAlloc_nodes]⟩

theorem le_foldr_max {a : Nat} {l : List Nat} (h : a ∈ l) : a ≤ l.foldr max 0 := by
  induction l with
  | nil => simp at h
  | cons b l ih =>
    rcases mem_cons.mp h with rfl | h
    · exact Nat.le_max_left ..
    · exact Nat.le_trans (ih h) (Nat.le_max_right ..)

theorem Avtab.freshAddr_not_mem (t : Avtab) : t.freshAddr ∉ t.nodes.map AvtabNode.addr := by
  intro h
  have := le_foldr_max h
  rw [Avtab.freshAddr] at this
  omega

/-! ## Insertion -/

theorem avtabInsertNonuniqueChain_perm (node : AvtabNode) (l : List AvtabNode) :
    (avtabInsertNonuniqueChain node l).Perm (node :: l) := by
  induction l with
  | nil => exact .refl _
  | cons cur next ih =>
    rw [avtabInsertNonuniqueChain]
    split_ifs
    · exact .refl _
    · exact (ih.cons cur).trans (.swap ..)

theorem avtabInsertNonuniqueChain_order {node} {l : List AvtabNode}
    (hl : l.Pairwise fun a b => ¬ b.key.before a.key = true) :
    (avtabInsertNonuniqueChain node l).Pairwise fun a b => ¬ b.key.before a.key = true := by
  induction l with
  | nil => simp [avtabInsertNonuniqueChain]
  | cons cur next ih =>
    have hcur : ∀ n ∈ next, ¬ n.key.before cur.key = true := fun n hn =>
      rel_of_pairwise_cons hl hn
    rw [avtabInsertNonuniqueChain]
    split_ifs with hplace
    · refine pairwise_cons.mpr ⟨fun n hn hb => ?_, hl⟩
      have hnode : ¬ n.key.before cur.key = true := by
        rcases mem_cons.mp hn with rfl | hn
        · exact fun h => not_before_of_before h h
        · exact hcur n hn
      rcases Bool.or_eq_true_iff.mp hplace with hhit | hbefore
      · rw [before_congr (hits_iff.mp hhit).1] at hb
        exact hnode hb
      · exact not_before_of_before hb (before_of_not_before hbefore hnode)
    · rw [Bool.or_eq_true_iff, not_or] at hplace
      refine pairwise_cons.mpr ⟨fun n hn => ?_, ih hl.of_cons⟩
      rcases mem_cons.mp ((avtabInsertNonuniqueChain_perm node next).subset hn) with rfl | hn
      · exact hplace.2
      · exact hcur n hn

@[simp] theorem avtabInsertNonunique_mask (t : Avtab) (node : AvtabNode) :
    (avtabInsertNonunique t node).mask = t.mask := by
  cases t
  rfl

variable {t : Avtab} {node : AvtabNode}

theorem avtabInsertNonunique_nodes (hslot : avtabHash node.key t.mask < t.htable.length) :
    (avtabInsertNonunique t node).nodes.Perm (node :: t.nodes) := by
  exact Lib.flatten_modify_perm hslot (avtabInsertNonuniqueChain_perm node)

theorem Avtab.Wf.insertNonunique (h : t.Wf) (node : AvtabNode) :
    (avtabInsertNonunique t node).Wf := by
  have hget : ∀ i, (avtabInsertNonunique t node).htable[i]? =
      if avtabHash node.key t.mask = i then (t.htable[i]?).map (avtabInsertNonuniqueChain node)
      else t.htable[i]? := by
    intro i
    simp only [avtabInsertNonunique, getElem?_modify, Option.map_eq_map]
    split_ifs
    · rfl
    · exact map_id' ..
  refine ⟨fun i n hn => ?_, fun c hc => ?_⟩
  · rw [getD_eq_getElem?_getD, hget] at hn
    rw [avtabInsertNonunique_mask]
    cases hc : t.htable[i]? with
    | none => simp [hc] at hn
    | some c =>
      have hold : ∀ m ∈ c, avtabHash m.key t.mask = i := by
        intro m hm
        exact h.slot i m (by rwa [getD_eq_getElem?_getD, hc])
      rw [hc] at hn
      split_ifs at hn with hi
      · rw [map_some, getD_some] at hn
        rcases mem_cons.mp ((avtabInsertNonuniqueChain_perm node c).subset hn) with rfl | hn
        · exact hi
        · exact hold n hn
      · exact hold n hn
  · obtain ⟨i, hi⟩ := mem_iff_getElem?.mp hc
    rw [hget] at hi
    cases hc' : t.htable[i]? with
    | none => simp [hc'] at hi
    | some c' =>
      have hord := h.order c' (mem_of_getElem? hc')
      rw [hc'] at hi
      split_ifs at hi
      · rw [map_some, some_inj] at hi
        exact hi ▸ avtabInsertNonuniqueChain_order hord
      · rw [some_inj] at hi
        exact hi ▸ hord

theorem Avtab.Placed.insertNonunique (h : t.Placed)
    (haddr : node.addr ∉ t.nodes.map AvtabNode.addr) : (avtabInsertNonunique t node).Placed := by
  have hperm := avtabInsertNonunique_nodes (h.slots node.key)
  refine ⟨h.wf.insertNonunique node, fun k => ?_, ?_⟩
  · rw [avtabInsertNonunique_mask, avtabInsertNonunique, length_modify]
    exact h.slots k
  · rw [(hperm.map AvtabNode.addr).nodup_iff, map_cons, nodup_cons]
    exact ⟨haddr, h.addrs⟩

/-! ## Writing -/

theorem AvtabKey.alike_refl (k : AvtabKey) : k.alike k = true := by
  simp [alike_iff, same_iff]

/-- Where a node belongs: its key without the kind. -/
def AvtabNode.place (n : AvtabNode) : AvtabKey := { n.key with specified := 0 }

/-- The shape of a table only depends on where its nodes belong. -/
theorem Avtab.Wf.congr {t' : Avtab} (h : t.Wf) (hmask : t'.mask = t.mask)
    (hplace : t'.htable.map (·.map AvtabNode.place) = t.htable.map (·.map AvtabNode.place)) :
      t'.Wf := by
  constructor
  · intro i n hn
    have hchain :
        (t'.htable.getD i []).map AvtabNode.place = (t.htable.getD i []).map AvtabNode.place := by
      have hget := congrArg (fun l => l.getD i (map AvtabNode.place [])) hplace
      rwa [List.getD_map, List.getD_map] at hget
    have hmem := mem_map_of_mem (f := AvtabNode.place) hn
    rw [hchain] at hmem
    obtain ⟨m, hm, hmn⟩ := mem_map.mp hmem
    change avtabHash n.place _ = i
    rw [hmask, ← hmn]
    exact h.slot i m hm
  · intro c hc
    have hmem := mem_map_of_mem (f := fun c : List AvtabNode => c.map AvtabNode.place) hc
    rw [hplace] at hmem
    obtain ⟨c', hc', hcc⟩ := mem_map.mp hmem
    have horder : (c'.map AvtabNode.place).Pairwise fun a b => ¬b.before a = true :=
      pairwise_map.mpr (h.order c' hc')
    rw [hcc] at horder
    exact pairwise_map.mp horder

theorem Avtab.modifyNode_nodes (t : Avtab) (addr : Nat) (f : AvtabNode → AvtabNode) :
    (t.modifyNode addr f).nodes = t.nodes.map fun n => if n.addr = addr then f n else n := by
  simp [Avtab.nodes, Avtab.modifyNode, map_flatten]

theorem AvtabKey.OneKind.congr {k c : AvtabKey} (h : k.OneKind) (hkc : k.alike c = true) :
    c.OneKind := by
  rw [AvtabKey.OneKind, ← (alike_iff.mp hkc).2]
  exact h

end SELinux.Sepol
