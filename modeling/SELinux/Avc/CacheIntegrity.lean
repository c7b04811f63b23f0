import Mathlib.Data.List.Perm.Basic
import SELinux.Avc.Cache
import SELinux.Lib.Loop

/-!
# Integrity of the access vector cache

Each chain of the cache has the decisions of its slot in the order in which they were inserted, the
newest first. From this follows where nodes are and what a lookup returns, after any operations.
-/

namespace SELinux.Avc

open AvcNode List Function

/-! ## Chains and the log -/

/-- What matters of a node: its address, what it is about and its decision. -/
def AvcNode.core (n : AvcNode) : Nat × AvcKey × AvDecision := (n.addr, n.ae.key, n.ae.avd)

def Inserted.core (e : Inserted) : Nat × AvcKey × AvDecision := (e.addr, e.key, e.now)

/-- The part of the log that belongs to a slot. -/
def slotLog (log : List Inserted) (h : Slot) : List Inserted := log.filter fun e =>
    avcHash e.key == h

/-- The chains hold the log, and each node is on the free list or in the log. -/
structure AvcInv (mem : List Nat) (s : AvcCache) (log : List Inserted) : Prop where
  chains : ∀ h, (s.slots h).map AvcNode.core = (slotLog log h).map Inserted.core
  nodes : (s.freelist.map AvcNode.addr ++ log.map Inserted.addr).Perm mem
  nodup : mem.Nodup
  active : s.activeNodes = BitVec.ofNat 32 log.length

theorem avcInit_inv {mem : List Nat} (h : mem.Nodup) : AvcInv (mem.take avcCacheMaxnodes)
    (avcInit mem) [] := by
  refine ⟨fun _ => rfl, ?_, h.sublist (take_sublist ..), rfl⟩
  have hfold (l : List Nat) (acc : List AvcNode) :
      ((l.foldl (fun freelist addr => { addr := addr } :: freelist) acc).map addr).Perm
        (l ++ acc.map addr) := by
    induction l generalizing acc with
    | nil => exact .refl _
    | cons a l ih =>
      refine (ih _).trans ?_
      simp
  have hperm := hfold (mem.take avcCacheMaxnodes) []
  rw [map_nil, append_nil] at hperm ⊢
  exact hperm

variable {mem : List Nat} {s : AvcCache} {log : List Inserted}

/-- Two nodes or decisions at one address are the same. -/
theorem AvcInv.log_nodup (h : AvcInv mem s log) : (log.map Inserted.addr).Nodup :=
  (nodup_append.mp (h.nodes.nodup_iff.mpr h.nodup)).2.1

variable {n : AvcNode} {i : Slot} {chain : List AvcNode}

theorem AvcInv.not_free (h : AvcInv mem s log) (hn : n ∈ s.freelist) :
    n.addr ∉ log.map Inserted.addr := by
  intro hmem
  exact (nodup_append.mp (h.nodes.nodup_iff.mpr h.nodup)).2.2 _ (mem_map_of_mem hn) _ hmem rfl

theorem AvcInv.mem_log (h : AvcInv mem s log) (hn : n ∈ s.slots i) :
    ∃ e ∈ log, avcHash e.key = i ∧ e.core = n.core := by
  have hcore := mem_map_of_mem (f := core) hn
  rw [h.chains, mem_map] at hcore
  obtain ⟨e, he, hec⟩ := hcore
  obtain ⟨he, hslot⟩ := mem_filter.mp he
  exact ⟨e, he, by simpa using hslot, hec⟩

/-! ## Changes that do not matter -/

/-- The two caches differ in marks only. -/
structure SameCores (s s' : AvcCache) : Prop where
  chains : ∀ h, (s'.slots h).map AvcNode.core = (s.slots h).map AvcNode.core
  freelist : s'.freelist = s.freelist
  active : s'.activeNodes = s.activeNodes

theorem SameCores.trans {s1 s2 s3} (h : SameCores s1 s2) (h' : SameCores s2 s3) : SameCores s1 s3 :=
  ⟨fun i => (h'.chains i).trans (h.chains i), h'.freelist.trans h.freelist,
    h'.active.trans h.active⟩

theorem AvcInv.congr {mem s s' log} (h : AvcInv mem s log) (hs : SameCores s s') :
    AvcInv mem s' log :=
  ⟨fun i => (hs.chains i).trans (h.chains i), hs.freelist ▸ h.nodes, h.nodup,
    hs.active.trans h.active⟩

theorem map_update (h : Slot) : (update s.slots i chain h).map core =
      if h = i then chain.map core else (s.slots h).map core := by
  by_cases hi : h = i
  · subst hi
    rw [update_self, if_pos rfl]
  · rw [update_of_ne hi, if_neg hi]

theorem sameCores_update (hchain : chain.map core = (s.slots i).map core) :
    SameCores s { s with slots := update s.slots i chain } := by
  refine ⟨fun h => ?_, rfl, rfl⟩
  rw [map_update]
  split_ifs with hi
  · rw [hchain, hi]
  · rfl

/-! ## Reclaiming a node -/

def AvcNode.clearUsed (n : AvcNode) : AvcNode := { n with ae := { n.ae with used := false } }

theorem map_core_clearUsed (l : List AvcNode) : (l.map clearUsed).map core = l.map core := by
  rw [map_map]
  rfl

/-- A chain is searched for the first node that was not used. -/
theorem reclaimChain_spec (chain : List AvcNode) :
    ((∀ n ∈ chain, n.ae.used = true) ∧ reclaimChain chain = (chain.map clearUsed, none)) ∨
    ∃ X cur Y, chain = X ++ cur :: Y ∧ reclaimChain chain = (X.map clearUsed ++ Y, some cur) := by
  induction chain with
  | nil => exact .inl ⟨by simp, rfl⟩
  | cons n chain ih =>
    rw [reclaimChain]
    by_cases hused : n.ae.used = false
    · exact .inr ⟨[], n, chain, rfl, by rw [if_pos hused]; rfl⟩
    · rw [if_neg hused]
      rcases ih with ⟨hall, heq⟩ | ⟨X, cur, Y, rfl, heq⟩
      · refine .inl ⟨forall_mem_cons.mpr ⟨by simpa using hused, hall⟩, ?_⟩
        rw [heq]
        rfl
      · refine .inr ⟨n :: X, cur, Y, rfl, ?_⟩
        rw [heq]
        rfl

/-- A node was taken out of a chain. -/
structure TakenFrom (s s' : AvcCache) (cur : AvcNode) : Prop where
  chain : ∃ (i : Slot) (X Y : List (Nat × AvcKey × AvDecision)),
    (s.slots i).map AvcNode.core = X ++ cur.core :: Y ∧ (s'.slots i).map AvcNode.core = X ++ Y ∧
    ∀ h, h ≠ i → (s'.slots h).map AvcNode.core = (s.slots h).map AvcNode.core
  freelist : s'.freelist = s.freelist
  active : s'.activeNodes = s.activeNodes

theorem TakenFrom.of_same {s1 s2 s3 cur} (h : SameCores s1 s2) (h' : TakenFrom s2 s3 cur) :
    TakenFrom s1 s3 cur := by
  obtain ⟨⟨i, X, Y, hold, hnew, hother⟩, hfree, hactive⟩ := h'
  refine ⟨⟨i, X, Y, (h.chains i).symm.trans hold, hnew, fun j hj =>
    (hother j hj).trans (h.chains j)⟩,
    hfree.trans h.freelist, hactive.trans h.active⟩

/-- How many slots are walked before a slot is reached. -/
def slotsTo (hvalue h : Slot) : Nat := (h.val + 512 - hvalue.val) % 512

theorem slotsTo_succ {hvalue h n} (hn : n < 512) :
    slotsTo hvalue h < n + 1 ↔ h = hvalue ∨ slotsTo (hvalue + 1) h < n := by
  have hval : (hvalue + 1).val = (hvalue.val + 1) % 512 := Fin.val_add ..
  rw [slotsTo, slotsTo, hval, Fin.ext_iff]
  omega

theorem slotsTo_hint {hvalue hint n} (hn : n < 512) (h : slotsTo hvalue hint = (n + 1) % 512) :
    (hvalue + 1 = hint ↔ n = 0) ∧ slotsTo (hvalue + 1) hint = n := by
  have hval : (hvalue + 1).val = (hvalue.val + 1) % 512 := Fin.val_add ..
  rw [slotsTo] at h
  rw [slotsTo, Fin.ext_iff, hval]
  omega

/-- The slots after a walk that found nothing. -/
def swept (n : Nat) (hvalue : Slot) (s : AvcCache) : AvcCache :=
  { s with slots := fun h => if slotsTo hvalue h < n then (s.slots h).map AvcNode.clearUsed
    else s.slots h }

theorem swept_same (n : Nat) (hvalue : Slot) (s : AvcCache) : SameCores s (swept n hvalue s) := by
  refine ⟨fun h => ?_, rfl, rfl⟩
  rw [swept]
  dsimp only
  split_ifs
  · exact map_core_clearUsed _
  · rfl

theorem reclaimSweep_step (n : Nat) (hvalue : Slot) (s : AvcCache) :
    (∃ cur, (reclaimSweep (n + 1) hvalue s).2 = some cur ∧
      TakenFrom s (reclaimSweep (n + 1) hvalue s).1 cur) ∨
    ((∀ m ∈ s.slots hvalue, m.ae.used = true) ∧ ∀ s1 : AvcCache,
        s1 = { s with slots := update s.slots hvalue ((s.slots hvalue).map clearUsed) } →
        reclaimSweep (n + 1) hvalue s =
          if hvalue + 1 ≠ s.lruHint then reclaimSweep n (hvalue + 1) s1 else (s1, none)) := by
  rw [reclaimSweep]
  rcases reclaimChain_spec (s.slots hvalue) with ⟨hall, heq⟩ | ⟨X, cur, Y, hchain, heq⟩
  · simp_all
  · refine .inl ⟨cur, by rw [heq], ?_⟩
    rw [heq]
    refine ⟨⟨hvalue, X.map core, Y.map core, ?_, ?_, fun h hne => ?_⟩, rfl, rfl⟩
    · simp [hchain]
    · show (update s.slots hvalue _ hvalue).map core = _
      rw [update_self, map_append, map_core_clearUsed]
    · simp [update_of_ne hne]

theorem swept_succ {n hvalue s} (hn : n < 512) : swept n (hvalue + 1)
      { s with slots := update s.slots hvalue ((s.slots hvalue).map clearUsed) } =
      swept (n + 1) hvalue s := by
  rw [swept, swept]
  congr 1
  funext h
  by_cases hh : h = hvalue
  · subst hh
    have hlast : ¬slotsTo (h + 1) h < n := by
      have hval : (h + 1).val = (h.val + 1) % 512 := Fin.val_add ..
      rw [slotsTo, hval]
      omega
    rw [if_neg hlast, if_pos ((slotsTo_succ hn).mpr (.inl rfl))]
    exact update_self ..
  · simp [slotsTo_succ hn, hh]

theorem reclaimSweep_spec {n hvalue} (hn : n < 512)
    (hhint : slotsTo hvalue s.lruHint = (n + 1) % 512) :
    (∃ cur, (reclaimSweep (n + 1) hvalue s).2 = some cur ∧
      TakenFrom s (reclaimSweep (n + 1) hvalue s).1 cur) ∨
    (reclaimSweep (n + 1) hvalue s = (swept (n + 1) hvalue s, none) ∧
      ∀ h, slotsTo hvalue h < n + 1 → ∀ m ∈ s.slots h, m.ae.used = true) := by
  induction n generalizing hvalue s with
  | zero =>
    obtain ⟨hstop, -⟩ := slotsTo_hint hn hhint
    rcases reclaimSweep_step 0 hvalue s with htaken | ⟨hall, heq⟩
    · exact .inl htaken
    · refine .inr ⟨?_, fun h hh => ?_⟩
      · rw [heq _ rfl, if_neg (not_not.mpr (hstop.mpr rfl)), ← swept_succ hn]
        simp [swept]
      · rcases (slotsTo_succ hn).mp hh with rfl | hlt
        · exact hall
        · omega
  | succ n ih =>
    obtain ⟨hstop, hnext⟩ := slotsTo_hint hn hhint
    rcases reclaimSweep_step (n + 1) hvalue s with htaken | ⟨hall, heq⟩
    · exact .inl htaken
    · have hcontinue : hvalue + 1 ≠ s.lruHint := fun h => by
        have := hstop.mp h
        omega
      have hsame : SameCores s
          { s with slots := update s.slots hvalue ((s.slots hvalue).map clearUsed) } :=
        sameCores_update (map_core_clearUsed _)
      rw [heq _ rfl, if_pos hcontinue]
      have hmod : slotsTo (hvalue + 1) s.lruHint = (n + 1) % 512 := by omega
      rcases ih
        (s := { s with slots := update s.slots hvalue ((s.slots hvalue).map clearUsed) })
        (by omega) hmod with ⟨cur, hcur, htaken⟩ | ⟨hnone, hused⟩
      · exact .inl ⟨cur, hcur, htaken.of_same hsame⟩
      · refine .inr ⟨by rw [hnone, swept_succ (by omega)], fun h hh => ?_⟩
        rcases (slotsTo_succ hn).mp hh with rfl | hlt
        · exact hall
        · intro m hm
          by_cases hhv : h = hvalue
          · subst hhv
            exact hall m hm
          · refine hused h hlt m ?_
            simp [hm, hhv]

theorem slotsTo_lt (hvalue h : Slot) : slotsTo hvalue h < 512 := Nat.mod_lt _ (by decide)

theorem slotsTo_self (h : Slot) : slotsTo h h = (511 + 1) % 512 := by
  rw [slotsTo]
  omega

theorem avcReclaimNode_spec (s : AvcCache) :
    (∃ cur, (avcReclaimNode s).2 = some cur ∧ TakenFrom s (avcReclaimNode s).1 cur) ∨
    ((avcReclaimNode s).2 = none ∧ SameCores s (avcReclaimNode s).1 ∧ ∀ h, s.slots h = []) := by
  rw [avcReclaimNode]
  rcases reclaimSweep_spec (s := s) (n := 511) (by omega) (slotsTo_self s.lruHint) with
    ⟨cur, hcur, htaken⟩ | ⟨hnone, hused⟩
  · cases hsweep : reclaimSweep (511 + 1) s.lruHint s with
    | mk s1 found =>
      simp_all
  · rw [hnone]
    have hsame := swept_same (511 + 1) s.lruHint s
    rcases reclaimSweep_spec (s := swept (511 + 1) s.lruHint s) (n := 511) (by omega)
      (slotsTo_self s.lruHint) with ⟨cur, hcur, htaken⟩ | ⟨hnone2, hused2⟩
    · exact .inl ⟨cur, hcur, htaken.of_same hsame⟩
    · refine .inr ⟨congrArg Prod.snd hnone2, ?_, fun h => ?_⟩
      · show SameCores s (reclaimSweep (511 + 1) s.lruHint (swept (511 + 1) s.lruHint s)).1
        rw [hnone2]
        exact hsame.trans (swept_same ..)
      · -- what the first walk has marked as not used the second would have taken
        by_contra hne
        obtain ⟨m, hm⟩ := exists_mem_of_ne_nil _ hne
        have hm' : m.clearUsed ∈ (swept (511 + 1) s.lruHint s).slots h := by
          rw [swept]
          dsimp only
          rw [if_pos (slotsTo_lt s.lruHint h)]
          exact mem_map_of_mem hm
        exact absurd (hused2 h (slotsTo_lt s.lruHint h) _ hm') (by simp [clearUsed])

/-! ## Claiming a node -/

/-- The log without the decision in a node. -/
def logWithout (log : List Inserted) (addr : Nat) : List Inserted := log.filter fun e =>
    e.addr != addr

theorem slotLog_without (log : List Inserted) (addr : Nat) (h : Slot) :
    (slotLog (logWithout log addr) h).map Inserted.core =
      ((slotLog log h).map Inserted.core).filter fun c => c.1 != addr := by
  rw [slotLog, logWithout, filter_filter, filter_map, slotLog, filter_filter]
  congr 2
  funext e
  exact Bool.and_comm ..

/-- A node was taken: it is not on the free list and not in the log. -/
structure Taken (mem : List Nat) (s : AvcCache) (log : List Inserted) (addr : Nat) : Prop where
  chains : ∀ h, (s.slots h).map AvcNode.core = (slotLog (logWithout log addr) h).map Inserted.core
  nodes : (addr :: (s.freelist.map AvcNode.addr ++ (logWithout log addr).map Inserted.addr)).Perm
    mem
  nodup : mem.Nodup
  active : s.activeNodes = BitVec.ofNat 32 ((logWithout log addr).length + 1)

section Steps

variable (h : AvcInv mem s log)
include h

theorem AvcInv.take_free {new rest} (hfree : s.freelist = new :: rest) :
    Taken mem { s with freelist := rest, activeNodes := s.activeNodes + 1 } log new.addr := by
  have hsame : logWithout log new.addr = log := by
    refine filter_eq_self.mpr fun e he => ?_
    rw [bne_iff_ne]
    intro heq
    exact h.not_free (n := new) (by simp [hfree]) (heq ▸ mem_map_of_mem he)
  refine ⟨fun i => ?_, ?_, h.nodup, ?_⟩
  · rw [hsame]
    exact h.chains i
  · have hnodes := h.nodes
    simpa [hfree, hsame] using hnodes
  · simp [hsame, h.active, BitVec.ofNat_add]

theorem AvcInv.take_chain {s'} {cur : AvcNode} (ht : TakenFrom s s' cur) :
    Taken mem s' log cur.addr := by
  obtain ⟨⟨i, X, Y, hold, hnew, hother⟩, hfree, hactive⟩ := ht
  have hchain := (h.chains i).symm.trans hold
  have hcur : cur.core ∈ (slotLog log i).map Inserted.core := by
    rw [hchain]
    simp
  obtain ⟨e, he, hecore⟩ := mem_map.mp hcur
  have haddr : e.addr = cur.addr := congrArg Prod.fst hecore
  obtain ⟨he, hslot⟩ := mem_filter.mp he
  have hslotNodup (j : Slot) : (((slotLog log j).map Inserted.core).map Prod.fst).Nodup := by
    rw [map_map]
    exact h.log_nodup.sublist (filter_sublist.map _)
  -- no other decision is in the node
  have hunique (e' : Inserted) (he' : e' ∈ log) (ha : e'.addr = cur.addr) : e' = e :=
    inj_on_of_nodup_map h.log_nodup he' he (ha.trans haddr.symm)
  have hperm :
      (log.map Inserted.addr).Perm (cur.addr :: (logWithout log cur.addr).map Inserted.addr) := by
    have hmem : cur.addr ∈ log.map Inserted.addr := haddr ▸ mem_map_of_mem he
    have herase :
        (log.map Inserted.addr).erase cur.addr = (logWithout log cur.addr).map Inserted.addr := by
      rw [h.log_nodup.erase_eq_filter, filter_map]
      rfl
    rw [← herase]
    exact perm_cons_erase hmem
  refine ⟨fun j => ?_, ?_, h.nodup, ?_⟩
  · rw [slotLog_without]
    by_cases hj : j = i
    · subst hj
      have hnd := hslotNodup j
      rw [hchain, map_append, map_cons, nodup_middle, nodup_cons] at hnd
      have hkeep (l : List (Nat × AvcKey × AvDecision)) (hl : ∀ c ∈ l, c ∈ X ++ Y) :
          l.filter (fun c => c.1 != cur.addr) = l := by
        refine filter_eq_self.mpr fun c hc => ?_
        rw [bne_iff_ne]
        intro heq
        have hmem := mem_map_of_mem (f := Prod.fst) (hl c hc)
        rw [heq, map_append] at hmem
        exact hnd.1 hmem
      rw [hnew, hchain, filter_append, filter_cons_of_neg (by simp [core]),
        hkeep X fun c hc => by simp [hc], hkeep Y fun c hc => by simp [hc]]
    · rw [hother j hj, h.chains j, filter_eq_self.mpr]
      intro c hc
      obtain ⟨e', he', rfl⟩ := mem_map.mp hc
      obtain ⟨he', hslot'⟩ := mem_filter.mp he'
      rw [bne_iff_ne]
      intro heq
      rw [hunique e' he' heq] at hslot'
      simp_all
  · rw [hfree]
    refine List.Perm.trans ?_ h.nodes
    exact (perm_middle.symm.trans (hperm.symm.append_left _))
  · have hlen := hperm.length_eq
    rw [length_map, length_cons, length_map] at hlen
    rw [hactive, h.active, hlen]

theorem AvcInv.take :
    (∃ cur, (avcTakeNode s).2 = some cur ∧ Taken mem (avcTakeNode s).1 log cur.addr) ∨
    ((avcTakeNode s).2 = none ∧ SameCores s (avcTakeNode s).1 ∧ mem = []) := by
  rw [avcTakeNode]
  cases hfree : s.freelist with
  | cons new rest => exact .inl ⟨new, rfl, h.take_free hfree⟩
  | nil =>
    rcases avcReclaimNode_spec s with ⟨cur, hcur, htaken⟩ | ⟨hnone, hsame, hempty⟩
    · exact .inl ⟨cur, hcur, h.take_chain htaken⟩
    · have hlog : log = [] := by
        by_contra hne
        obtain ⟨e, he⟩ := exists_mem_of_ne_nil _ hne
        have hslot : e.core ∈ (slotLog log (avcHash e.key)).map Inserted.core :=
          mem_map_of_mem (mem_filter.mpr ⟨he, beq_self_eq_true _⟩)
        rw [← h.chains, hempty] at hslot
        cases hslot
      have hnodes := h.nodes
      simpa [hfree, hnone, hsame, hlog] using hnodes

/-- A node that was taken, for a new decision. -/
def claimedNode (key : AvcKey) (addr : Nat) : AvcNode :=
  { addr := addr, ae := { key := key, used := true } }

/-- The node at the front of its chain. -/
def AvcCache.link (s : AvcCache) (key : AvcKey) (addr : Nat) : AvcCache :=
  { s with slots :=
    Function.update s.slots (avcHash key) (claimedNode key addr :: s.slots (avcHash key)) }

theorem AvcInv.claim (key : AvcKey) :
    (∃ cur s1, avcClaimNode s key = (s1.link key cur, some (claimedNode key cur)) ∧
      Taken mem s1 log cur) ∨
    ((avcClaimNode s key).2 = none ∧ SameCores s (avcClaimNode s key).1 ∧ mem = []) := by
  rw [avcClaimNode]
  cases htake : avcTakeNode s with
  | mk s1 found =>
    rcases h.take with ⟨cur, hcur, htaken⟩ | ⟨hnone, hsame, hmem⟩
    · rw [htake] at hcur htaken
      cases hcur
      exact .inl ⟨cur.addr, s1, rfl, htaken⟩
    · simp_all

theorem AvcInv.insert (key : AvcKey) (avd : AvDecision) :
    AvcInv mem (avcInsert s key avd).1 (logStep s log (.insert key avd)) := by
  rw [logStep, avcInsert]
  split_ifs with hseq
  · exact h
  rcases h.claim key with ⟨cur, s1, hclaim, htaken⟩ | ⟨hnone, hsame, -⟩
  · rw [hclaim]
    show AvcInv mem ((s1.link key cur).write cur fun ae => { ae with avd := avd })
      (⟨cur, key, avd, avd⟩ :: logWithout log cur)
    -- the nodes that were there are not written
    have hkeep (i : Slot) : ((s1.slots i).map fun n : AvcNode =>
        if n.addr = cur then { n with ae := { n.ae with avd := avd } } else n) = s1.slots i := by
      refine Lib.map_ite_eq_self fun n hn heq => ?_
      have hcore := mem_map_of_mem (f := core) hn
      rw [htaken.chains, slotLog_without] at hcore
      have hfst := (mem_filter.mp hcore).2
      rw [bne_iff_ne] at hfst
      exact hfst heq
    refine ⟨fun i => ?_, ?_, htaken.nodup, ?_⟩
    · show ((Function.update s1.slots (avcHash key) _ i).map _).map core = _
      by_cases hi : i = avcHash key
      · subst hi
        rw [update_self, map_cons, hkeep, slotLog, filter_cons, map_cons, htaken.chains]
        rw [if_pos (show (claimedNode key cur).addr = cur from rfl),
          if_pos (beq_self_eq_true (avcHash key))]
        rfl
      · rw [update_of_ne hi, hkeep, slotLog,
          filter_cons_of_neg (by simpa using Ne.symm hi), htaken.chains]
        rfl
    · exact perm_middle.trans htaken.nodes
    · exact htaken.active
  · cases hclaim : avcClaimNode s key with
    | mk s1 found =>
      rw [hclaim] at hnone hsame
      cases hnone
      exact h.congr hsame

/-! ## Lookups and updates -/

/-- What a search finds is the newest decision in the log. -/
theorem AvcInv.find (key : AvcKey) :
    ((s.slots (avcHash key)).find? fun n => decide (n.ae.key = key)).map core =
      (log.find? fun e => decide (e.key = key)).map Inserted.core := by
  have hnode :=
    find?_map (f := core) (p := fun c => decide (c.2.1 = key)) (l := s.slots (avcHash key))
  have hlog := find?_map (f := Inserted.core) (p := fun c => decide (c.2.1 = key))
    (l := slotLog log (avcHash key))
  have hslot : (slotLog log (avcHash key)).find? (fun e => decide (e.key = key)) =
      log.find? fun e => decide (e.key = key) := by
    rw [slotLog, find?_filter]
    congr 1
    funext e
    by_cases he : e.key = key <;> simp [he]
  rw [h.chains, hlog] at hnode
  rw [← hslot]
  exact hnode.symm

omit h in
theorem avcSearchNode_same (s : AvcCache) (key : AvcKey) : SameCores s (avcSearchNode s key).1 := by
  have hcore (n : AvcNode) : core { n with ae := n.ae.setUsed } = n.core := rfl
  exact sameCores_update (Lib.map_scanModify hcore _)

theorem AvcInv.map {p} [DecidablePred p] (f : AvDecision → AvDecision) :
    AvcInv mem
      { s with
        slots := fun i => (s.slots i).map fun n =>
          if p n.core then { n with ae := { n.ae with avd := f n.ae.avd } } else n }
      (log.map fun e => if p e.core then { e with now := f e.now } else e) := by
  have hnode (n : AvcNode) :
      (if p n.core then { n with ae := { n.ae with avd := f n.ae.avd } } else n).core =
      if p n.core then (n.core.1, n.core.2.1, f n.core.2.2) else n.core := by
    split_ifs <;> rfl
  have hentry (e : Inserted) : (if p e.core then { e with now := f e.now } else e).core =
      if p e.core then (e.core.1, e.core.2.1, f e.core.2.2) else e.core := by
    split_ifs <;> rfl
  have hkey (e : Inserted) : (if p e.core then { e with now := f e.now } else e).key = e.key := by
    split_ifs <;> rfl
  have haddr (e : Inserted) :
      (if p e.core then { e with now := f e.now } else e).addr = e.addr := by
    split_ifs <;> rfl
  refine ⟨fun i => ?_, ?_, h.nodup, ?_⟩
  · have hslot : slotLog (log.map fun e => if p e.core then { e with now := f e.now } else e) i =
        (slotLog log i).map fun e => if p e.core then { e with now := f e.now } else e := by
      simp only [slotLog, filter_map, comp_def, hkey]
    have hchange :=
      congrArg (List.map fun c => if p c then (c.1, c.2.1, f c.2.2) else c) (h.chains i)
    rw [map_map, map_map] at hchange
    rw [hslot, map_map, map_map]
    simp only [comp_def, hnode, hentry]
    exact hchange
  · rw [map_map]
    simp only [comp_def, haddr]
    exact h.nodes
  · rw [length_map]
    exact h.active

theorem AvcInv.write {l1 l2} {e : Inserted} (hlog : log = l1 ++ e :: l2)
    (f : AvDecision → AvDecision) :
    AvcInv mem (s.write e.addr fun ae => { ae with avd := f ae.avd })
      (l1 ++ { e with now := f e.now } :: l2) := by
  have hnd := h.log_nodup
  rw [hlog] at hnd
  have hsplit := Lib.map_ite_split hnd fun e' => { e' with now := f e'.now }
  rw [← hlog] at hsplit
  rw [← hsplit]
  exact h.map (p := fun c => c.1 = e.addr) f

theorem AvcInv.update (event : AvcEvent) (key : AvcKey) (perms : BitVec 32) :
    AvcInv mem (avcUpdateCache s event key perms) (logStep s log (.update event key perms)) := by
  rw [avcUpdateCache, logStep]
  by_cases hwild : key.isWild = true
  · rw [if_pos hwild, if_pos hwild]
    exact h.map (p := fun c => key.covers c.2.1 = true) (avcUpdateNode event perms)
  · rw [if_neg hwild, if_neg hwild]
    have hsame := avcSearchNode_same s key
    have hfind := h.find key
    have hnode : (avcSearchNode s key).2 =
        ((s.slots (avcHash key)).find? fun n => decide (n.ae.key = key)).map
          fun n => { n with ae := n.ae.setUsed } := rfl
    cases hsearch : avcSearchNode s key with
    | mk s1 found =>
      rw [hsearch] at hsame hnode
      have h1 := h.congr hsame
      cases hlog : log.find? fun e => decide (e.key = key) with
      | none =>
        rw [hlog, Option.map_none, Option.map_eq_none_iff] at hfind
        rw [hfind] at hnode
        cases hnode
        rw [Lib.scanModify_of_forall fun e he => by simpa using find?_eq_none.mp hlog e he]
        exact h1
      | some e =>
        rw [hlog] at hfind
        obtain ⟨n, hn, hcore⟩ := Option.map_eq_some_iff.mp hfind
        rw [hn] at hnode
        cases hnode
        obtain ⟨hkey, l1, l2, hsplit, hbefore⟩ := find?_eq_some_iff_append.mp hlog
        have haddr : n.addr = e.addr := congrArg Prod.fst hcore
        rw [hsplit, Lib.scanModify_append (a := e)
          (fun b hb => ⟨by simpa using hbefore b hb, rfl⟩) hkey]
        show AvcInv mem (s1.write n.addr _) _
        rw [haddr]
        exact h1.write hsplit (avcUpdateNode event perms)

/-- What a lookup returns is the newest decision in the log. -/
theorem AvcInv.lookup {key requested} {node : AvcNode}
    (hlookup : (avcLookup s key requested).2 = some node) :
    ∃ e, log.find? (fun e => decide (e.key = key)) = some e ∧ node.core = e.core := by
  rw [avcLookup, avcSearchNode] at hlookup
  have hfind := h.find key
  cases hchain : (s.slots (avcHash key)).find? fun n => decide (n.ae.key = key) with
  | none =>
    rw [hchain] at hlookup
    cases hlookup
  | some n =>
    rw [hchain] at hlookup hfind
    obtain ⟨e, he, hcore⟩ := Option.map_eq_some_iff.mp hfind.symm
    refine ⟨e, he, ?_⟩
    simp only [Option.map_some] at hlookup
    split_ifs at hlookup
    cases hlookup
    exact hcore.symm

omit h in
theorem avcLookup_same (s : AvcCache) (key : AvcKey) (requested : BitVec 32) :
    SameCores s (avcLookup s key requested).1 := by
  have hsame := avcSearchNode_same s key
  rw [avcLookup]
  cases hsearch : avcSearchNode s key with
  | mk s1 found =>
    rw [hsearch] at hsame
    cases found with
    | none => exact hsame
    | some node =>
      dsimp only
      split_ifs <;> exact hsame

/-! ## Reset -/

/-- The chains together are the log, in another order. -/
theorem AvcInv.chained_perm :
    (s.chained.map core).Perm (log.map Inserted.core) := by
  have hslots : s.chained.map core =
      ((finRange 512).flatMap fun i => log.filter fun e => avcHash e.key = i).map
        Inserted.core := by
    rw [AvcCache.chained, map_flatMap, map_flatMap]
    refine flatMap_congr fun i _ => ?_
    rw [h.chains, slotLog]
    rfl
  rw [hslots]
  refine (Lib.flatMap_filter_perm (nodup_finRange 512) log).map _ |>.trans ?_
  simp

theorem AvcInv.chained_addr :
    (s.chained.map addr).Perm (log.map Inserted.addr) := by
  have hperm := h.chained_perm.map Prod.fst
  rwa [map_map, map_map] at hperm

omit h in
theorem foldl_resetNode (nodes : List AvcNode) (acc : List AvcNode × BitVec 32) :
    ((nodes.foldl resetNode acc).1.map addr).Perm (nodes.map addr ++ acc.1.map addr) ∧
      (nodes.foldl resetNode acc).2 = acc.2 - BitVec.ofNat 32 nodes.length := by
  induction nodes generalizing acc with
  | nil => exact ⟨.refl _, by simp⟩
  | cons n nodes ih =>
    obtain ⟨hperm, hcount⟩ := ih (resetNode acc n)
    refine ⟨hperm.trans ?_, ?_⟩
    · simp [resetNode]
    · rw [foldl_cons, hcount, resetNode, length_cons, BitVec.ofNat_add, BitVec.sub_sub,
        BitVec.add_comm]
      rfl

theorem AvcInv.reset : AvcInv mem (avcReset s) [] := by
  have hreset : avcReset s = { s with
      slots := fun _ => [],
      lruHint := 0,
      freelist := (s.chained.foldl resetNode (s.freelist, s.activeNodes)).1,
      activeNodes := (s.chained.foldl resetNode (s.freelist, s.activeNodes)).2 } := by
    rw [avcReset, AvcCache.chained, foldl_flatMap]
  obtain ⟨hperm, hcount⟩ := foldl_resetNode s.chained (s.freelist, s.activeNodes)
  have hlen := h.chained_perm.length_eq
  rw [length_map, length_map] at hlen
  rw [hreset]
  generalize s.chained.foldl resetNode (s.freelist, s.activeNodes) = acc at hperm hcount
  refine ⟨fun _ => rfl, ?_, h.nodup, ?_⟩
  · rw [map_nil, append_nil]
    exact hperm.trans ((perm_append_comm.trans (h.chained_addr.append_left _)).trans h.nodes)
  · simp [hcount, h.active, hlen]

end Steps

/-! ## Runs -/

theorem AvcInv.step {mem s log} (h : AvcInv mem s log) (op : AvcOp) :
    AvcInv mem (avcStep s op) (logStep s log op) := by
  cases op with
  | lookup key requested => exact h.congr (avcLookup_same s key requested)
  | insert key avd => exact h.insert key avd
  | update event key perms => exact h.update event key perms
  | reset => exact h.reset
  | notif seqno =>
    rw [avcStep]
    split_ifs
    · exact ⟨h.chains, h.nodes, h.nodup, h.active⟩
    · exact h

theorem AvcInv.run {mem s log} (h : AvcInv mem s log) (ops : List AvcOp) :
    AvcInv mem (avcRun s log ops).1 (avcRun s log ops).2 :=
  Lib.foldl_inv (P := fun r : AvcCache × List Inserted => AvcInv mem r.1 r.2)
    (fun _ op hr => hr.step op) h

/-- The cache after initialisation and any operations: each node is on the free list or on one
chain, the counter is the number of nodes on chains, each node is on the chain its key hashes to, a
node can be claimed if there are any, and a lookup returns the newest decision for its key that is
left. -/
theorem avcRun_integrity (mem : List Nat) (hmem : mem.Nodup) (ops : List AvcOp) (s : AvcCache)
    (log : List Inserted) (hrun : avcRun (avcInit mem) [] ops = (s, log)) :
    ((s.freelist ++ s.chained).map AvcNode.addr).Perm (mem.take avcCacheMaxnodes) ∧
    ((s.freelist ++ s.chained).map AvcNode.addr).Nodup ∧ s.activeNodes.toNat = s.chained.length ∧
    (∀ i, ∀ n ∈ s.slots i, avcHash n.ae.key = i) ∧
    (mem ≠ [] → ∀ key, (avcClaimNode s key).2.isSome) ∧
    ∀ key requested node, (avcLookup s key requested).2 = some node →
      ∃ e, log.find? (fun e => decide (e.key = key)) = some e ∧
        node.addr = e.addr ∧ node.ae.key = key ∧ node.ae.avd = e.now := by
  have h : AvcInv (mem.take avcCacheMaxnodes) s log := by
    have hinv := (avcInit_inv hmem).run ops
    rwa [hrun] at hinv
  have hnodes : ((s.freelist ++ s.chained).map AvcNode.addr).Perm (mem.take avcCacheMaxnodes) := by
    rw [map_append]
    exact (h.chained_addr.append_left _).trans h.nodes
  have hlen : s.chained.length = log.length := by
    have hlength := h.chained_perm.length_eq
    rwa [length_map, length_map] at hlength
  refine ⟨hnodes, hnodes.nodup_iff.mpr h.nodup, ?_, fun i n hn => ?_, fun hne key => ?_,
    fun key requested node hlookup => ?_⟩
  · have hbound : s.chained.length ≤ avcCacheMaxnodes := by
      have hlength := hnodes.length_eq
      rw [length_map, length_append, length_take] at hlength
      omega
    rw [h.active, hlen, BitVec.toNat_ofNat]
    rw [hlen, avcCacheMaxnodes] at hbound
    omega
  · obtain ⟨e, -, hslot, hcore⟩ := h.mem_log hn
    have hkey : e.key = n.ae.key := congrArg (fun c => c.2.1) hcore
    rw [← hkey, hslot]
  · rcases h.claim key with ⟨cur, s1, hclaim, -⟩ | ⟨-, -, hnone⟩
    · rw [hclaim]
      rfl
    · rw [take_eq_nil_iff] at hnone
      exact absurd (hnone.resolve_left (by decide)) hne
  · obtain ⟨e, he, hcore⟩ := h.lookup hlookup
    have hkey : node.ae.key = e.key := congrArg (fun c => c.2.1) hcore
    refine ⟨e, he, congrArg Prod.fst hcore, ?_, congrArg (fun c => c.2.2) hcore⟩
    rw [hkey]
    simpa using find?_some he

/-- Two decisions for the same key. -/
def repeatedInsert : List AvcOp := [.insert {} {}, .insert {} { decided := 1, allowed := 1 }]

/-- A cache of two nodes holds both decisions, and a lookup returns the second. -/
theorem avcRun_integrity_repeatedInsert :
    (avcRun (avcInit [0, 1]) [] repeatedInsert).1.chained.length = 2 ∧
    ∃ e, (avcRun (avcInit [0, 1]) [] repeatedInsert).2.find? (fun e => decide (e.key = {})) =
      some e ∧ e.addr = 0 ∧ e.now = { decided := 1, allowed := 1 } := by
  have hlookup : (avcLookup (avcRun (avcInit [0, 1]) [] repeatedInsert).1 {} 1).2 =
      some { addr := 0, ae := { avd := { decided := 1, allowed := 1 }, used := true } } := by
    decide +kernel
  have hactive : (avcRun (avcInit [0, 1]) [] repeatedInsert).1.activeNodes.toNat = 2 := by
    decide +kernel
  obtain ⟨-, -, hcount, -, -, hfound⟩ := avcRun_integrity [0, 1] (by decide) repeatedInsert _ _ rfl
  obtain ⟨e, he, haddr, -, hnow⟩ := hfound {} 1 _ hlookup
  exact ⟨hcount.symm.trans hactive, e, he, haddr.symm, hnow.symm⟩

/-- Without a node the first claim fails, and with it the first insertion. -/
theorem avcClaimNode_noNodes : (avcClaimNode (avcRun (avcInit []) [] []).1 {}).2 = none := by
  rcases (avcInit_inv nodup_nil).claim {} with ⟨cur, s1, -, htaken⟩ | ⟨hnone, -, -⟩
  · exact absurd htaken.nodes (cons_ne_nil _ _ ∘ List.Perm.eq_nil)
  · exact hnone

end SELinux.Avc
