import SELinux.Sepol.ExpandAvtab
import SELinux.Sepol.KeyEffects

/-! The access that a table without attributes gives: for each pair of types and each class it is
what the rules of the original table give together that stand for the pair. Two rules that meet may
end up in one node or, with different enabled flags, in two. -/
namespace SELinux.Sepol

open AvtabNode List

/-! ## A write to the first node that matches -/

/-- A write that keeps the key, seen from the node it goes to. -/
theorem Avtab.scanModify_split {t : Avtab} {k hit stop f} (hf : ∀ n, (f n).key = n.key) {node rest}
    (hscan : Lib.scan hit stop (t.chain k) = node :: rest) : let t' : Avtab :=
      { t with htable := t.htable.modify (avtabHash k t.mask) (Lib.scanModify hit stop f) }
    (t.Wf → t'.Wf) ∧ ∃ X Y, t.nodes = X ++ node :: Y ∧ t'.nodes = X ++ f node :: Y := by
  intro t'
  have hslot : avtabHash k t.mask < t.htable.length := by
    by_contra hlt
    rw [Avtab.chain, getD_eq_getElem?_getD, getElem?_eq_none (Nat.le_of_not_lt hlt)] at hscan
    cases hscan
  obtain ⟨l, hchain, hmodify⟩ := Lib.scanModify_split (f := f) hscan
  have hget : t.htable[avtabHash k t.mask] = t.chain k := by
    simp [Avtab.chain, getElem?_eq_getElem hslot]
  have hset : t'.htable = t.htable.set (avtabHash k t.mask) (l ++ f node :: rest) := by
    rw [← hmodify, Avtab.chain, getD_eq_getElem?_getD]
    exact modify_eq_set ..
  have hself : t.htable.set (avtabHash k t.mask) (l ++ node :: rest) = t.htable := by
    simp [← hchain, ← hget]
  constructor
  · intro hwf
    refine hwf.congr rfl ?_
    rw [hset, ← hself, set_set, map_set, map_set]
    simp [place, hf]
  · refine ⟨(t.htable.take (avtabHash k t.mask)).flatten ++ l,
      rest ++ (t.htable.drop (avtabHash k t.mask + 1)).flatten, ?_, ?_⟩
    · rw [Avtab.nodes, ← hself, Lib.flatten_set hslot, hself]
      simp
    · rw [Avtab.nodes, hset, Lib.flatten_set hslot]
      simp

/-! ## One rule -/

/-- A rule as a node. -/
def ruleNode (r : AvtabKey × AvtabDatum) : AvtabNode := { key := r.1, datum := r.2 }

/-- A table built from rules without attributes: its keys are theirs, and so are its effects. -/
structure EffectsOf (rules : List (AvtabKey × AvtabDatum)) (a : Avtab) : Prop where
  wf : a.Wf
  slots : ∀ k, avtabHash k a.mask < a.htable.length
  keys : ∀ n ∈ a.nodes, ∃ r ∈ rules, r.1 = n.key
  effects : ∀ s t c, keyEffects s t c a.nodes = keyEffects s t c (rules.map ruleNode)

theorem effectsOf_alloc : EffectsOf [] (avtabAlloc maxAvtabSize) := by
  have hmap := avtabAlloc_isMap (by decide : maxAvtabSize ≠ 0)
  refine ⟨hmap.wf, hmap.slots, ?_, ?_⟩
  · simp [avtabAlloc_nodes]
  · simp [avtabAlloc_nodes, keyEffects]

theorem keyEffects_concat (s t c : Nat) (rules : List (AvtabKey × AvtabDatum))
    (r : AvtabKey × AvtabDatum) : keyEffects s t c ((rules ++ [r]).map ruleNode) =
      keyEffects s t c (rules.map ruleNode) ∪ testEffects (fun n => n.isFor s t c)
        (ruleNode r) := by
  simp [keyEffects]

/-- The rules that are merged are access vectors. -/
theorem expandAvtabMerge_some {spec} (hx : spec &&& avtabXperms = 0) {old new merged : AvtabDatum}
    (h : expandAvtabMerge spec old new = some merged) :
    spec ∈ avKinds ∧ merged.data = mergeData spec old.data new.data := by
  rw [expandAvtabMerge] at h
  split_ifs at h with hor hand hxperms
  · cases h
    have hne : spec ≠ avtabAuditdeny := by
      rintro rfl
      revert hor
      decide
    refine ⟨?_, by rw [mergeData, if_neg hne]⟩
    rcases hor with rfl | rfl <;> simp [avKinds]
  · cases h
    simp [avKinds, hand, mergeData]
  · rcases hxperms with rfl | rfl | rfl <;> exact absurd hx (by decide)

theorem EffectsOf.insertNonunique {rules a} (h : EffectsOf rules a) (k : AvtabKey)
    (d : AvtabDatum) :
    EffectsOf (rules ++ [(k, d)]) (avtabInsertNonunique a { key := k, datum := d }) := by
  obtain ⟨-, -, -, hnodes⟩ := avtabInsertNonunique_inserted { key := k, datum := d } (h.slots k)
  refine ⟨h.wf.insertNonunique _, fun c => ?_, fun n hn => ?_, fun s t c => ?_⟩
  · rw [avtabInsertNonunique_mask, avtabInsertNonunique, length_modify]
    exact h.slots c
  · rcases mem_cons.mp (hnodes.mem_iff.mp hn) with rfl | hn
    · exact ⟨(k, d), by simp, rfl⟩
    · obtain ⟨r, hr, hrn⟩ := h.keys n hn
      exact ⟨r, by simp [hr], hrn⟩
  · rw [keyEffects_concat, ← h.effects, Set.union_comm, keyEffects, Lib.pool_perm hnodes,
      Lib.pool_cons]
    rfl

theorem EffectsOf.insert {rules a a'} (h : EffectsOf rules a) (hkinds : ∀ r ∈ rules, r.1.OneKind)
    {k : AvtabKey} {d} (hk : k.OneKind) (hx : k.spec &&& avtabXperms = 0)
    (hins : expandAvtabInsert a k d = some a') : EffectsOf (rules ++ [(k, d)]) a' := by
  unfold expandAvtabInsert at hins
  simp only [expandAvtabMatch_eq hx] at hins
  rcases Lib.scan_cases (k.hits k.spec) (fun n => k.before n.key) (a.chain k) with
    hnil | ⟨node, rest, hcons, hit, hmem⟩
  · rw [hnil, Option.some.injEq] at hins
    rw [← hins]
    exact h.insertNonunique k d
  · rw [hcons] at hins
    dsimp only at hins
    split_ifs at hins with hflag
    · rw [Option.some.injEq] at hins
      rw [← hins]
      exact h.insertNonunique k d
    · obtain ⟨merged, hmerge, hins⟩ := Option.bind_eq_some_iff.mp hins
      rw [Option.some.injEq] at hins
      obtain ⟨hav, hdata⟩ := expandAvtabMerge_some hx hmerge
      obtain ⟨hwf, X, Y, hold, hnew⟩ := Avtab.scanModify_split
        (f := fun n : AvtabNode => { n with datum := merged }) (fun _ => rfl) hcons
      have hnode : node ∈ a.nodes := by
        rw [hold]
        simp
      obtain ⟨r, hr, hrn⟩ := h.keys node hnode
      have halike : k.alike node.key = true := by
        rwa [← AvtabKey.hits_eq_alike hk (hrn ▸ hkinds r hr)]
      rw [← hins]
      refine ⟨hwf h.wf, fun c => ?_, fun n hn => ?_, fun s t c => ?_⟩
      · rw [length_modify]
        exact h.slots c
      · have hkeys : n.key ∈ a.nodes.map key := by
          have hkey := mem_map_of_mem (f := key) hn
          rw [hnew] at hkey
          simpa [hold] using hkey
        obtain ⟨m, hm, hmn⟩ := mem_map.mp hkeys
        obtain ⟨r, hr, hrm⟩ := h.keys m hm
        exact ⟨r, by simp [hr], hrm.trans hmn⟩
      · have hmerged := @testEffects_merge _ (isFor_keyTest s t c) { key := k, datum := d } node
          { node with datum := merged } hav halike rfl hdata
        rw [keyEffects_concat, ← h.effects, hnew, hold]
        simp only [keyEffects, Lib.pool_append, Lib.pool_cons, hmerged, ruleNode]
        ac_rfl

/-! ## All rules -/

theorem EffectsOf.insert_all {rules l : List (AvtabKey × AvtabDatum)} {a a' : Avtab}
    (h : EffectsOf rules a) (hkinds : ∀ r ∈ rules ++ l, r.1.OneKind ∧ r.1.spec &&& avtabXperms = 0)
    (hfold : l.foldlM (fun a r => expandAvtabInsert a r.1 r.2) a = some a') :
      EffectsOf (rules ++ l) a' := by
  induction l generalizing rules a with
  | nil =>
    cases hfold
    rwa [append_nil]
  | cons r l ih =>
    obtain ⟨a1, hins, hfold⟩ := Option.bind_eq_some_iff.mp hfold
    obtain ⟨hk, hx⟩ := hkinds r (by simp)
    have h1 := h.insert (fun r hr => (hkinds r (by simp [hr])).1) hk hx hins
    rw [append_cons] at hkinds ⊢
    exact ih h1 hkinds hfold

/-- The map from attributes to types, as expansion and the readers build it: a type stands for
itself, an attribute for types, and all of them fit in a rule key. -/
structure Policydb.TypeMap (p : Policydb) : Prop where
  own : ∀ i, p.isType i = true → ∀ j, j ∈ p.attrTypes i ↔ j = i
  types : ∀ a, ∀ i ∈ p.attrTypes a, p.isType i = true
  fits : ∀ a, ∀ i ∈ p.attrTypes a, i + 1 < 2 ^ 16

/-- The source and the target of the rule, read through `attr_type_map`, contain the types with
these indices, and it is for this class. -/
def AvtabNode.standsFor (n : AvtabNode) (p : Policydb) (s t c : Nat) : Bool :=
  ebitmapGetBit (p.attrTypes (n.key.sourceType - 1)) s &&
    ebitmapGetBit (p.attrTypes (n.key.targetType - 1)) t && n.key.targetClass == c

variable {p : Policydb}

theorem Policydb.TypeMap.mem_ruleTypes (h : p.TypeMap) {value v : Nat} (hvalue : 0 < value) :
    v ∈ p.ruleTypes value ↔ ∃ i ∈ p.attrTypes (value - 1), v = i + 1 := by
  rw [Policydb.ruleTypes]
  by_cases htype : p.isType (value - 1) = true
  · rw [if_pos htype]
    simp only [mem_singleton, h.own _ htype, exists_eq_left]
    omega
  · rw [if_neg htype]
    simp [eq_comm]

theorem Policydb.TypeMap.mem_rules (h : p.TypeMap) {a : Avtab}
    (hkeys : ∀ n ∈ a.nodes, n.key.Valid) {r} :
    r ∈ p.rules a ↔ ∃ n ∈ a.nodes, ∃ i ∈ p.attrTypes (n.key.sourceType - 1),
      ∃ j ∈ p.attrTypes (n.key.targetType - 1),
        r = ({ n.key with sourceType := i + 1, targetType := j + 1 }, n.datum) := by
  simp only [Policydb.rules, Policydb.ruleKeys, mem_flatMap, mem_map]
  refine exists_congr fun n => and_congr_right fun hn => ?_
  have hsource (v : Nat) := h.mem_ruleTypes (v := v) (hkeys n hn).source
  have htarget (v : Nat) := h.mem_ruleTypes (v := v) (hkeys n hn).target
  constructor
  · rintro ⟨k, ⟨x, hx, y, hy, rfl⟩, rfl⟩
    obtain ⟨i, hi, rfl⟩ := (hsource x).mp hx
    simpa [htarget, hi] using hy
  · rintro ⟨i, hi, j, hj, rfl⟩
    exact ⟨_, ⟨i + 1, (hsource _).mpr ⟨i, hi, rfl⟩, j + 1, (htarget _).mpr ⟨j, hj, rfl⟩, rfl⟩, rfl⟩

/-- The rules of a table have, for a pair of types, the effects of the entries that stand for it. -/
theorem Policydb.TypeMap.effects_rules (h : p.TypeMap) {a : Avtab}
    (hkeys : ∀ n ∈ a.nodes, n.key.Valid) (s t c : Nat) :
    keyEffects s t c ((p.rules a).map ruleNode) =
      Lib.pool (testEffects fun n => n.standsFor p s t c) a.nodes := by
  ext e
  simp only [keyEffects, Lib.mem_pool, mem_map, exists_exists_and_eq_and, h.mem_rules hkeys]
  constructor
  · rintro ⟨r, ⟨n, hn, i, hi, j, hj, rfl⟩, hfor, heffect⟩
    refine ⟨n, hn, ?_, heffect⟩
    simp only [ruleNode, isFor, Bool.and_eq_true, beq_iff_eq] at hfor
    obtain ⟨⟨hs, ht⟩, hc⟩ := hfor
    obtain rfl : i = s := by omega
    obtain rfl : j = t := by omega
    simpa [standsFor] using ⟨⟨hi, hj⟩, hc⟩
  · rintro ⟨n, hn, hstands, heffect⟩
    simp only [standsFor, Bool.and_eq_true, ebitmapGetBit_eq_true, beq_iff_eq] at hstands
    obtain ⟨⟨hs, ht⟩, hc⟩ := hstands
    refine ⟨_, ⟨n, hn, s, hs, t, ht, rfl⟩, ?_, heffect⟩
    simp [ruleNode, isFor, hc]

/-- A table without attributes gives the same access as the original. -/
theorem expandAvtab_access (p : Policydb) (hmap : p.TypeMap) (a expa : Avtab)
    (hkeys : ∀ n ∈ a.nodes, n.key.Valid ∧ n.key.Fits)
    (hx : ∀ n ∈ a.nodes, n.key.spec &&& avtabXperms = 0) (h : expandAvtab p a = some expa) :
    (∀ n ∈ expa.nodes, p.isType (n.key.sourceType - 1) = true ∧
      p.isType (n.key.targetType - 1) = true) ∧
    ∀ s t c, accessVectors expa.nodes (fun n => n.isFor s t c) =
      accessVectors a.nodes fun n => n.standsFor p s t c := by
  have hvalid : ∀ n ∈ a.nodes, n.key.Valid := fun n hn => (hkeys n hn).1
  have hrules (r : AvtabKey × AvtabDatum) (hr : r ∈ p.rules a) := (hmap.mem_rules hvalid).mp hr
  have hfits : ∀ r ∈ p.rules a, r.1.Fits := by
    intro r hr
    obtain ⟨n, hn, i, hi, j, hj, rfl⟩ := hrules r hr
    exact ⟨hmap.fits _ i hi, hmap.fits _ j hj, (hkeys n hn).2.targetClass⟩
  have hkinds : ∀ r ∈ p.rules a, r.1.OneKind ∧ r.1.spec &&& avtabXperms = 0 := by
    intro r hr
    obtain ⟨n, hn, i, -, j, -, rfl⟩ := hrules r hr
    exact ⟨(hvalid n hn).kind, hx n hn⟩
  rw [expandAvtab_eq hfits] at h
  have heffects := effectsOf_alloc.insert_all hkinds h
  constructor
  · intro n hn
    obtain ⟨r, hr, hrn⟩ := heffects.keys n hn
    obtain ⟨m, hm, i, hi, j, hj, rfl⟩ := hrules r hr
    rw [← hrn]
    exact ⟨hmap.types _ i hi, hmap.types _ j hj⟩
  · intro s t c
    apply accessVectors_congr
    rw [← hmap.effects_rules hvalid]
    exact heffects.effects s t c

/-- Types `1` and `2`, and the attribute `3` of both. -/
def pairPolicydb : Policydb where
  typeValToStruct := [some {}, some {}, some { flavor := .attrib }]
  attrTypeMap := [.ofList [0], .ofList [1], .ofList [0, 1]]

theorem pairPolicydb_typeMap : pairPolicydb.TypeMap := by
  have hlt (a : Nat) (h : ∃ i, i ∈ pairPolicydb.attrTypes a) : a < 3 := by
    obtain ⟨i, hi⟩ := h
    by_contra hge
    have hnone : pairPolicydb.attrTypes a = ∅ := by
      simp only [Policydb.attrTypes, getD_eq_getElem?_getD]
      rw [getElem?_eq_none (Nat.le_of_not_lt hge), Option.getD_none]
    rw [hnone] at hi
    exact Ebitmap.not_mem_empty _ hi
  have hmaps : ∀ a < 3, ∀ i ∈ (pairPolicydb.attrTypes a).bits,
      pairPolicydb.isType i = true ∧ i + 1 < 2 ^ 16 := by decide
  have hown : ∀ i < 3, pairPolicydb.isType i = true → (pairPolicydb.attrTypes i).bits = [i] := by
    decide
  refine ⟨fun i hi j => ?_, fun a i hi => (hmaps a (hlt a ⟨i, hi⟩) i hi).1,
    fun a i hi => (hmaps a (hlt a ⟨i, hi⟩) i hi).2⟩
  rw [Ebitmap.mem_def, hown i (Policydb.isType_lt hi) hi, mem_singleton]

/-- The two allow rules of the table meet at `(1, 2)`. -/
theorem expandAvtab_access_pair :
    ∃ expa, expandAvtab pairPolicydb (avtabOf [(⟨3, 2, 1, avtabAllowed⟩, { data := 2 }),
        (⟨1, 3, 1, avtabAllowed⟩, { data := 4 }), (⟨1, 2, 1, avtabTransition⟩, { data := 1 })]) =
          some expa ∧
      accessVectors expa.nodes (fun n => n.isFor 0 1 1) = ⟨6, 0, .allOnes 32⟩ := by
  obtain ⟨expa, hexpand, -⟩ :=
    @expandAvtab_expandsTo pairPolicydb (avtabOf [(⟨3, 2, 1, avtabAllowed⟩, { data := 2 }),
    (⟨1, 3, 1, avtabAllowed⟩, { data := 4 }), (⟨1, 2, 1, avtabTransition⟩, { data := 1 })])
    (by decide) ⟨by decide, by decide, by decide⟩
  refine ⟨expa, hexpand, ?_⟩
  rw [(expandAvtab_access pairPolicydb pairPolicydb_typeMap _ expa (by decide)
    (by decide) hexpand).2 0 1 1]
  decide

/-- The type `1` and the attributes `2` and `3`, where `3` stands for `2`. -/
def nestedPolicydb : Policydb where
  typeValToStruct := [some {}, some { flavor := .attrib }, some { flavor := .attrib }]
  attrTypeMap := [.ofList [0], .ofList [0], .ofList [1]]

/-- An attribute that stands for an attribute is replaced by it, so an attribute is left. -/
theorem expandAvtab_nested :
    ∃ expa, expandAvtab nestedPolicydb (avtabOf [(⟨3, 1, 1, avtabAllowed⟩, { data := 2 })]) =
      some expa ∧
      ∃ n ∈ expa.nodes, nestedPolicydb.isAttrib (n.key.sourceType - 1) = true := by
  obtain ⟨expa, hexpand, hrules⟩ := @expandAvtab_expandsTo nestedPolicydb
    (avtabOf [(⟨3, 1, 1, avtabAllowed⟩, { data := 2 })]) (by decide)
    ⟨by decide, by decide, by decide⟩
  obtain ⟨n, hn, hkey⟩ := (hrules.keys ⟨2, 1, 1, avtabAllowed⟩).mpr
    ⟨(⟨2, 1, 1, avtabAllowed⟩, { data := 2 }), by decide, rfl⟩
  exact ⟨expa, hexpand, n, hn, by rw [hkey]; decide⟩

end SELinux.Sepol
