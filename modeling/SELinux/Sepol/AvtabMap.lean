import Mathlib.Data.List.Pairwise
import SELinux.Sepol.Avtab

/-! A table with one node for each key is a finite map: what `avtab_search` finds
after an insertion, and after a write to a datum that was found. -/
namespace SELinux.Sepol

open AvtabNode AvtabKey List Option

/-- Same source, target, class and kind. -/
def AvtabKey.alike (k c : AvtabKey) : Bool := k.same c && k.spec == c.spec

variable {k c : AvtabKey} {t t' : Avtab}

theorem AvtabKey.alike_iff : k.alike c = true ↔ k.same c = true ∧ k.spec = c.spec := by
  simp [alike]

theorem AvtabKey.alike_symm (h : k.alike c = true) : c.alike k = true := by
  rw [alike_iff, same_iff] at *
  simp [h]

theorem AvtabKey.alike_trans {a b : AvtabKey} (hab : a.alike b = true) (hbc : b.alike c = true) :
    a.alike c = true := by
  rw [alike_iff, same_iff] at *
  simp [hab, hbc]

variable {n : AvtabNode}

/-- For keys of one kind, a hit is an entry for a like key. -/
theorem AvtabKey.hits_eq_alike (hk : k.OneKind)
    (hn : n.key.OneKind) : k.hits k.spec n = k.alike n.key := by
  rw [Bool.eq_iff_iff, hits_iff, alike_iff]
  refine and_congr_right fun _ => ⟨spec_eq_of_overlap hk hn, fun h => ?_⟩
  have hself : k.spec &&& n.key.specified = k.spec := by
    rw [h]
    simp only [spec]
    rw [BitVec.and_comm, ← BitVec.and_assoc, BitVec.and_self]
  have hnonzero : specOrder.all (fun a => a != 0) = true := by decide
  rw [hself]
  exact bne_iff_ne.mp (all_eq_true.mp hnonzero _ hk)

/-- A well-formed table with a slot for every hash value, in which each key is of
one kind and no two nodes have like keys. -/
structure Avtab.IsMap (t : Avtab) : Prop where
  wf : t.Wf
  slots : ∀ k, avtabHash k t.mask < t.htable.length
  kinds : ∀ n ∈ t.nodes, n.key.OneKind
  unique : t.nodes.Pairwise fun a b => ¬ a.key.alike b.key = true

theorem Avtab.Wf.search_eq (h : t.Wf) (k : AvtabKey) :
    avtabSearch t k = (t.nodes.filter (k.hits k.spec)).head?.map datum := by
  rw [avtabSearch, avtabSearchNode, Lib.scan_head?_eq (h.chain_stop k),
    ← Lib.scanAll_eq_filter (h.chain_stop k), h.scanAll_chain]

namespace Avtab.IsMap

theorem eq_of_alike (h : t.IsMap) {a b : AvtabNode} (ha : a ∈ t.nodes) (hb : b ∈ t.nodes)
    (hab : a.key.alike b.key = true) : a = b := by
  have : Std.Symm fun a b : AvtabNode => ¬ a.key.alike b.key = true :=
    ⟨fun x y hxy hyx => hxy (alike_symm hyx)⟩
  by_contra hne
  exact h.unique.forall ha hb hne hab

/-- A search finds the datum of the node with a like key. -/
theorem search_iff (h : t.IsMap) (hk : k.OneKind) {d} :
    avtabSearch t k = some d ↔ ∃ n ∈ t.nodes, k.alike n.key = true ∧ n.datum = d := by
  rw [h.wf.search_eq, head?_filter]
  constructor
  · intro hs
    obtain ⟨n, hn, rfl⟩ := map_eq_some_iff.mp hs
    have hmem := mem_of_find?_eq_some hn
    refine ⟨n, hmem, ?_, rfl⟩
    rw [← hits_eq_alike hk (h.kinds n hmem)]
    exact find?_some hn
  · rintro ⟨n, hn, hal, rfl⟩
    have hhit : k.hits k.spec n = true := by rwa [hits_eq_alike hk (h.kinds n hn)]
    obtain ⟨m, hm⟩ := isSome_iff_exists.mp (find?_isSome.mpr ⟨n, hn, hhit⟩)
    have hmem := mem_of_find?_eq_some hm
    have hmal : k.alike m.key = true := by
      rw [← hits_eq_alike hk (h.kinds m hmem)]
      exact find?_some hm
    rw [hm, h.eq_of_alike hmem hn (alike_trans (alike_symm hmal) hal)]
    rfl

theorem search_eq_none_iff (h : t.IsMap) (hk : k.OneKind) :
    avtabSearch t k = none ↔ ∀ n ∈ t.nodes, ¬ k.alike n.key = true := by
  rw [eq_none_iff_forall_ne_some]
  constructor
  · intro hs n hn hal
    exact hs n.datum ((h.search_iff hk).mpr ⟨n, hn, hal, rfl⟩)
  · intro hall d hd
    obtain ⟨n, hn, hal, -⟩ := (h.search_iff hk).mp hd
    exact hall n hn hal

end Avtab.IsMap

/-! ## Insertion -/

/-- A chain refuses a node, or has it in place; a node that is not for extended permissions
is only put into a chain in which a scan finds nothing. -/
theorem avtabInsertChain_cases (node : AvtabNode) (l : List AvtabNode) :
    (avtabInsertChain node l = none ∧ node.key.spec &&& avtabXperms = 0 ∧
      ∃ n ∈ l, node.key.hits node.key.spec n = true) ∨
    ∃ l', avtabInsertChain node l = some l' ∧ l'.Perm (node :: l) ∧
      (node.key.spec &&& avtabXperms = 0 →
      Lib.scan (node.key.hits node.key.spec) (fun n => node.key.before n.key) l = []) := by
  induction l with
  | nil => exact .inr ⟨[node], rfl, .refl _, fun _ => rfl⟩
  | cons cur next ih =>
    rw [avtabInsertChain, Lib.scan]
    by_cases hhit : node.key.hits node.key.spec cur = true
    · by_cases hx : node.key.spec &&& avtabXperms = 0
      · simp [hhit, hx]
      · simp_all
    · rw [if_neg hhit, if_neg hhit]
      by_cases hbefore : node.key.before cur.key = true
      · simp [hbefore]
      · rw [if_neg hbefore, if_neg hbefore]
        rcases ih with ⟨hnone, hx, n, hn, hit⟩ | ⟨l', hl', hperm, hscan⟩
        · exact .inl ⟨by rw [hnone]; rfl, hx, n, mem_cons_of_mem _ hn, hit⟩
        · exact .inr ⟨cur :: l', by rw [hl']; rfl, (hperm.cons cur).trans (.swap ..), hscan⟩

theorem Avtab.Wf.not_hits (h : t.Wf) (hnone : avtabSearch t k = none) {n}
    (hn : n ∈ t.nodes) : k.hits k.spec n = false := by
  rw [h.search_eq, map_eq_none_iff, head?_eq_none_iff, filter_eq_nil_iff] at hnone
  simpa using hnone n hn

/-- The table after a node has been put into its chain. -/
structure Avtab.Inserted (t : Avtab) (node : AvtabNode) (t' : Avtab) : Prop where
  mask : t'.mask = t.mask
  length : t'.htable.length = t.htable.length
  nel : t'.nel = (t.nel + 1) % 2 ^ 32
  nodes : t'.nodes.Perm (node :: t.nodes)

theorem Avtab.Inserted.slots {node} (h : t.Inserted node t')
    (hslots : ∀ k, avtabHash k t.mask < t.htable.length) (k : AvtabKey) :
    avtabHash k t'.mask < t'.htable.length := by
  rw [h.mask, h.length]
  exact hslots k

/-- An insertion into an allocated table is refused if a node of the table is a hit for a key
that is not for extended permissions; otherwise it adds one node. -/
theorem avtabInsert_cases (hwf : t.Wf) (hslots : ∀ k, avtabHash k t.mask < t.htable.length)
    (k : AvtabKey) (d : AvtabDatum) :
    (avtabInsert t k d = .error .eexist ∧ k.spec &&& avtabXperms = 0 ∧
      ∃ n ∈ t.nodes, k.hits k.spec n = true) ∨
    ∃ t', avtabInsert t k d = .ok t' ∧ t.Inserted { key := k, datum := d } t' ∧
      (k.spec &&& avtabXperms = 0 → ∀ n ∈ t.nodes, k.hits k.spec n = false) := by
  have hlt := hslots k
  have hne : t.htable ≠ [] := ne_nil_of_length_pos (Nat.zero_lt_of_lt hlt)
  rcases avtabInsertChain_cases { key := k, datum := d } (t.chain k) with
    ⟨hnone, hx, n, hn, hit⟩ | ⟨c, hc, hperm, hscan⟩
  · exact .inl
      ⟨by simp only [avtabInsert, if_neg hne, hnone], hx, n, Avtab.mem_nodes_of_mem_chain hn, hit⟩
  · refine .inr
      ⟨{ t with htable := t.htable.set (avtabHash k t.mask) c, nel := (t.nel + 1) % 2 ^ 32 },
      by simp only [avtabInsert, if_neg hne, hc], ⟨rfl, by simp, rfl, ?_⟩, fun hx n hn => ?_⟩
    · have hget : t.htable[avtabHash k t.mask]? = some (t.chain k) := by
        simp [Avtab.chain, getElem?_eq_getElem hlt]
      have hnodes : t.nodes = (t.htable.take (avtabHash k t.mask)).flatten ++ t.chain k ++
          (t.htable.drop (avtabHash k t.mask + 1)).flatten := by
        have hself := (List.getElem?_eq_some_iff.mp hget).choose_spec
        simp [← Lib.flatten_set hlt, ← hself, Avtab.nodes]
      rw [hnodes]
      simp only [Avtab.nodes]
      rw [Lib.flatten_set hlt, append_assoc, append_assoc]
      exact ((hperm.append_right _).append_left _).trans perm_middle
    · have hnone : avtabSearch t k = none := by
        rw [avtabSearch, avtabSearchNode, hscan hx]
        rfl
      exact hwf.not_hits hnone hn

theorem avtabInsert_ok (hwf : t.Wf)
    (hslots : ∀ k, avtabHash k t.mask < t.htable.length) {k d} (h : avtabInsert t k d = .ok t') :
    t.Inserted { key := k, datum := d } t' ∧
      (k.spec &&& avtabXperms = 0 → ∀ n ∈ t.nodes, k.hits k.spec n = false) := by
  rcases avtabInsert_cases hwf hslots k d with ⟨herr, -⟩ | ⟨t'', hok, hins⟩
  · rw [herr] at h
    cases h
  · rw [hok] at h
    cases h
    exact hins

namespace Avtab.IsMap

theorem insert_nodes (h : t.IsMap) (d : AvtabDatum) (hnone : avtabSearch t k = none) :
    ∃ t', avtabInsert t k d = .ok t' ∧ t.Inserted { key := k, datum := d } t' := by
  rcases avtabInsert_cases h.wf h.slots k d with ⟨-, -, n, hn, hit⟩ | ⟨t', hok, hins, -⟩
  · rw [h.wf.not_hits hnone hn] at hit
    cases hit
  · exact ⟨t', hok, hins⟩

/-- Insertion of a new key extends the map by it. -/
theorem insert (h : t.IsMap) (hk : k.OneKind) (d : AvtabDatum) (hnone : avtabSearch t k = none) :
    ∃ t', avtabInsert t k d = .ok t' ∧ t'.IsMap ∧ ∀ c : AvtabKey, c.OneKind →
      avtabSearch t' c = if k.alike c then some d else avtabSearch t c := by
  obtain ⟨t', hins, hmask, hlen, -, hperm⟩ := h.insert_nodes d hnone
  have hnew := (h.search_eq_none_iff hk).mp hnone
  have hmap : t'.IsMap := by
    refine ⟨h.wf.insert hins, fun c => ?_, fun n hn => ?_, ?_⟩
    · rw [hmask, hlen]
      exact h.slots c
    · rcases mem_cons.mp (hperm.subset hn) with rfl | hn
      · exact hk
      · exact h.kinds n hn
    · refine hperm.symm.pairwise (pairwise_cons.mpr ⟨hnew, h.unique⟩) ?_
      intro a b hab hba
      exact hab (alike_symm hba)
  refine ⟨t', hins, hmap, fun c hc => ?_⟩
  apply ext
  intro e
  rw [hmap.search_iff hc]
  split_ifs with hkc
  · constructor
    · rintro ⟨n, hn, hal, rfl⟩
      rcases mem_cons.mp (hperm.subset hn) with rfl | hn
      · rfl
      · exact absurd (alike_trans hkc hal) (hnew n hn)
    · intro he
      refine ⟨_, hperm.symm.subset (mem_cons_self ..), alike_symm hkc, ?_⟩
      exact some_inj.mp he
  · rw [h.search_iff hc]
    constructor
    · rintro ⟨n, hn, hal, rfl⟩
      rcases mem_cons.mp (hperm.subset hn) with rfl | hn
      · exact absurd (alike_symm hal) hkc
      · exact ⟨n, hn, hal, rfl⟩
    · rintro ⟨n, hn, hal, rfl⟩
      exact ⟨n, hperm.symm.subset (mem_cons_of_mem _ hn), hal, rfl⟩

end Avtab.IsMap

/-! ## Writing to a datum -/

@[simp] theorem avtabModify_mask (t : Avtab) (k : AvtabKey) (f : AvtabDatum → AvtabDatum) :
    (avtabModify t k f).mask = t.mask := by
  cases t
  rfl

/-- A node after a write to the datum under `k`. -/
def AvtabNode.modifyAt (k : AvtabKey) (f : AvtabDatum → AvtabDatum) (n : AvtabNode) : AvtabNode :=
  if k.hits k.spec n then { n with datum := f n.datum } else n

@[simp] theorem AvtabNode.modifyAt_key {k f} (n : AvtabNode) : (n.modifyAt k f).key = n.key := by
  unfold modifyAt
  split_ifs <;> rfl

theorem AvtabNode.modifyAt_of_miss {f} (h : k.hits k.spec n = false) : n.modifyAt k f = n := by
  simp [modifyAt, h]

theorem AvtabNode.modifyAt_of_hit {f} (h : k.hits k.spec n = true) :
    (n.modifyAt k f).datum = f n.datum := by
  simp [modifyAt, h]

namespace Avtab.IsMap

variable (h : t.IsMap) (hk : k.OneKind) (f : AvtabDatum → AvtabDatum)
include h hk

theorem modify_htable :
    (avtabModify t k f).htable = t.htable.map fun c => c.map fun n => n.modifyAt k f := by
  apply ext_getElem?
  intro i
  rw [avtabModify, getElem?_modify, getElem?_map]
  cases hc : t.htable[i]? with
  | none => simp
  | some c =>
    have hmem : ∀ n ∈ c, n ∈ t.nodes := fun n hn =>
      mem_flatten.mpr ⟨c, mem_of_getElem? hc, hn⟩
    simp only [Option.map_eq_map, map_some, some_inj]
    split_ifs with hi
    · have hchain : t.chain k = c := by
        simp [Avtab.chain, hi, hc]
      have hone : c.Pairwise fun a b => k.hits k.spec a = true → k.hits k.spec b = false := by
        have hsub : c.Sublist t.nodes := sublist_flatten_of_mem (mem_of_getElem? hc)
        refine (h.unique.sublist hsub).imp_of_mem ?_
        intro a b ha hb hab hka
        rw [hits_eq_alike hk (h.kinds a (hmem a ha))] at hka
        rw [hits_eq_alike hk (h.kinds b (hmem b hb)), Bool.eq_false_iff]
        exact fun hkb => hab (alike_trans (alike_symm hka) hkb)
      have hstop := h.wf.chain_stop k
      rw [hchain] at hstop
      rw [Lib.scanModify_eq_map hstop hone]
      rfl
    · have hmiss : ∀ n ∈ c, k.hits k.spec n = false := by
        intro n hn
        rw [Bool.eq_false_iff]
        intro hit
        apply hi
        rw [avtabHash_congr (hits_iff.mp hit).1]
        refine h.wf.slot i n ?_
        rwa [getD_eq_getElem?_getD, hc]
      symm
      calc c.map _ = c.map id :=
            map_congr_left fun n hn => modifyAt_of_miss (hmiss n hn)
        _ = c := List.map_id c

theorem modify_nodes : (avtabModify t k f).nodes = t.nodes.map fun n => n.modifyAt k f := by
  simp [Avtab.nodes, h.modify_htable hk]

theorem modify_wf : (avtabModify t k f).Wf := by
  constructor
  · intro i n hn
    rw [h.modify_htable hk, getD_eq_getElem?_getD, getElem?_map] at hn
    cases hc : t.htable[i]? with
    | none => simp [hc] at hn
    | some c =>
      rw [hc, map_some, getD_some] at hn
      obtain ⟨m, hm, rfl⟩ := mem_map.mp hn
      rw [modifyAt_key, avtabModify_mask]
      exact h.wf.slot i m (by rwa [getD_eq_getElem?_getD, hc])
  · rw [h.modify_htable hk]
    intro c hc
    obtain ⟨c', hc', rfl⟩ := mem_map.mp hc
    exact pairwise_map.mpr (by simpa using h.wf.order c' hc')

theorem modify_isMap : (avtabModify t k f).IsMap := by
  refine ⟨h.modify_wf hk f, ?_, ?_, ?_⟩
  · rw [h.modify_htable hk, length_map, avtabModify_mask]
    exact h.slots
  · rw [h.modify_nodes hk]
    intro n hn
    obtain ⟨m, hm, rfl⟩ := mem_map.mp hn
    rw [modifyAt_key]
    exact h.kinds m hm
  · rw [h.modify_nodes hk]
    exact pairwise_map.mpr (by simpa using h.unique)

/-- A write to a found datum changes the map at its key. -/
theorem modify_search (hc : c.OneKind) : avtabSearch (avtabModify t k f) c =
      if k.alike c then (avtabSearch t c).map f else avtabSearch t c := by
  apply ext
  intro e
  have hfound : avtabSearch (avtabModify t k f) c = some e ↔
      ∃ n ∈ t.nodes, c.alike n.key = true ∧ (n.modifyAt k f).datum = e := by
    rw [(h.modify_isMap hk f).search_iff hc, h.modify_nodes hk]
    simp
  rw [hfound]
  split_ifs with hkc
  · have hhit : ∀ n ∈ t.nodes, c.alike n.key = true → (n.modifyAt k f).datum = f n.datum := by
      intro n hn hal
      apply modifyAt_of_hit
      rw [hits_eq_alike hk (h.kinds n hn)]
      exact alike_trans hkc hal
    rw [map_eq_some_iff]
    constructor
    · rintro ⟨n, hn, hal, rfl⟩
      exact ⟨n.datum, (h.search_iff hc).mpr ⟨n, hn, hal, rfl⟩, (hhit n hn hal).symm⟩
    · rintro ⟨d, hd, rfl⟩
      obtain ⟨n, hn, hal, rfl⟩ := (h.search_iff hc).mp hd
      exact ⟨n, hn, hal, hhit n hn hal⟩
  · rw [h.search_iff hc]
    refine exists_congr fun n => and_congr_right fun hn => and_congr_right fun hal => ?_
    rw [modifyAt_of_miss]
    rw [hits_eq_alike hk (h.kinds n hn), Bool.eq_false_iff]
    exact fun hkn => hkc (alike_trans hkn (alike_symm hal))

end Avtab.IsMap

theorem avtabHash_le (k : AvtabKey) (mask : BitVec 32) : avtabHash k mask ≤ mask.toNat := by
  exact Nat.and_le_right

theorem avtabAlloc_nodes (nrules : Nat) : (avtabAlloc nrules).nodes = [] := by
  unfold avtabAlloc
  split_ifs
  · rfl
  · simp [Avtab.nodes]

theorem avtabAlloc_search (nrules : Nat) (k : AvtabKey) :
    avtabSearch (avtabAlloc nrules) k = none := by
  rw [(avtabAlloc_wf nrules).search_eq, avtabAlloc_nodes]
  rfl

theorem avtabAlloc_isMap {nrules : Nat} (h : nrules ≠ 0) : (avtabAlloc nrules).IsMap := by
  have hnodes := avtabAlloc_nodes nrules
  refine ⟨avtabAlloc_wf nrules, fun k => ?_, by simp [hnodes], by simp [hnodes]⟩
  have hslots : 0 < min (2 ^ avtabAllocShift nrules) maxAvtabHashBuckets :=
    Nat.lt_min.mpr ⟨Nat.two_pow_pos _, by decide⟩
  have hle : min (2 ^ avtabAllocShift nrules) maxAvtabHashBuckets ≤ maxAvtabHashBuckets :=
    Nat.min_le_right ..
  have hmax : maxAvtabHashBuckets < 2 ^ 32 := by decide
  refine Nat.lt_of_le_of_lt (avtabHash_le k _) ?_
  simp only [avtabAlloc, h, if_false, BitVec.toNat_ofNat, length_replicate]
  generalize min (2 ^ avtabAllocShift nrules) maxAvtabHashBuckets = n at hslots hle
  rw [Nat.mod_eq_of_lt (by omega)]
  omega

end SELinux.Sepol
