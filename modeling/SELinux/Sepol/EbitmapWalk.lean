import SELinux.Lib.Runs
import SELinux.Sepol.EbitmapNodes

/-! `ebitmap_for_each_bit` (`ebitmap.h`) visits the bits of the nodes of a bitmap, set or not,
and skips what lies between two nodes. A bitmap in canonical form is made of its members, so
the nodes of the abstract bitmap are the ones that the code walks. -/
namespace SELinux.Sepol

open List Nat

namespace EbitmapT

/-! ## Model -/

/-- `ebitmap_startbit`. -/
def startbit (e : EbitmapT) : Nat := (e.node.head?.map EbitmapNode.startbit).getD 0

/-- `ebitmap_next`: the node and the bit that come after a bit of the first node. -/
def next (node : List EbitmapNode) (bit : Nat) : List EbitmapNode × Nat :=
  match node with
  | n :: m :: rest =>
    if bit = n.startbit + mapsize - 1 then (m :: rest, m.startbit) else (n :: m :: rest, bit + 1)
  | node => (node, bit + 1)

/-- `ebitmap_node_get_bit`. -/
def nodeGetBit (n : EbitmapNode) (bit : Nat) : Bool := n.map &&& mapbit (bit - n.startbit) != 0

/-- The loop of `ebitmap_for_each_bit`: the visited bits, each with its value, and the bit
after the loop. It is `none` if the loop is not at its end after so many rounds. -/
def forEachBitLoop (highbit : Nat) : Nat → List EbitmapNode → Nat → Option (List (Nat × Bool) × Nat)
  | 0, _, _ => none
  | rounds + 1, node, bit =>
    if bit < highbit then
      match node with
      | [] => none
      | n :: rest =>
        (forEachBitLoop highbit rounds (next (n :: rest) bit).1 (next (n :: rest) bit).2).map
          fun r =>
          ((bit, nodeGetBit n bit) :: r.1, r.2)
    else some ([], bit)

/-- `ebitmap_for_each_bit`. -/
def forEachBit (e : EbitmapT) : Option (List (Nat × Bool) × Nat) :=
  forEachBitLoop e.highbit (mapsize * e.node.length + 1) e.node e.startbit

/-! ## The visited bits -/

/-- The bits of a node from one on. -/
def nodeBits (n : EbitmapNode) (i j : Nat) : List (Nat × Bool) :=
  (range' i j).map fun i => (n.startbit + i, n.map.getLsbD i)

variable {i x b a : Nat} {n : EbitmapNode} {t : EbitmapT} {r : Lib.Run Nat}

theorem nodeGetBit_eq (n : EbitmapNode) (hi : i < mapsize) :
    nodeGetBit n (n.startbit + i) = n.map.getLsbD i := by
  rw [nodeGetBit, Nat.add_sub_cancel_left, and_mapbit_ne_zero hi]

theorem next_of_lt (n : EbitmapNode) (rest : List EbitmapNode) (hi : i + 1 < mapsize) :
    next (n :: rest) (n.startbit + i) = (n :: rest, n.startbit + (i + 1)) := by
  cases rest with
  | nil => rfl
  | cons m rest => rw [next, if_neg (by omega), add_assoc]

theorem forEachBitLoop_node {highbit} (hend : n.startbit + mapsize ≤ highbit)
    (rest : List EbitmapNode) (rounds : Nat) {i j} (hij : i + (j + 1) = mapsize) :
    forEachBitLoop highbit (rounds + (j + 1)) (n :: rest) (n.startbit + i) =
      (forEachBitLoop highbit rounds (next (n :: rest) (n.startbit + mapsize - 1)).1
        (next (n :: rest) (n.startbit + mapsize - 1)).2).map fun r =>
          (nodeBits n i (j + 1) ++ r.1, r.2) := by
  induction j generalizing i with
  | zero =>
    rw [forEachBitLoop, if_pos (by omega), nodeGetBit_eq n (by omega),
      show n.startbit + i = n.startbit + mapsize - 1 by omega]
    have hi : n.startbit + mapsize - 1 = n.startbit + i := by omega
    simp [nodeBits, hi]
  | succ j ih =>
    rw [← add_assoc, forEachBitLoop, if_pos (by omega)]
    simp only [nodeGetBit_eq n (show i < mapsize by omega),
      next_of_lt n rest (show i + 1 < mapsize by omega)]
    rw [ih (by omega), Option.map_map]
    rfl

theorem forEachBitLoop_cons {highbit : Nat} (hend : n.startbit + mapsize ≤ highbit)
    (rest : List EbitmapNode) (rounds : Nat) :
    forEachBitLoop highbit (rounds + mapsize) (n :: rest) n.startbit =
      (forEachBitLoop highbit rounds (next (n :: rest) (n.startbit + mapsize - 1)).1
        (next (n :: rest) (n.startbit + mapsize - 1)).2).map fun r =>
          (nodeBits n 0 mapsize ++ r.1, r.2) :=
  forEachBitLoop_node hend rest rounds (i := 0) (j := 63) rfl

theorem forEachBitLoop_eq {rest} (hblocks : Blocks (n :: rest)) :
    forEachBitLoop (nodesEnd (n :: rest)) (mapsize * (n :: rest).length + 1)
      (n :: rest) n.startbit =
      some ((n :: rest).flatMap fun m => nodeBits m 0 mapsize, nodesEnd (n :: rest)) := by
  induction rest generalizing n with
  | nil =>
    have hlast : nodesEnd [n] = n.startbit + mapsize := rfl
    have hnext : next [n] (n.startbit + mapsize - 1) = ([n], n.startbit + mapsize - 1 + 1) := rfl
    rw [show mapsize * [n].length + 1 = 1 + mapsize from rfl,
      forEachBitLoop_cons (le_of_eq hlast.symm), hnext, forEachBitLoop, if_neg (by omega)]
    rfl
  | cons m rest ih =>
    have hfirst : n.startbit + mapsize ≤ nodesEnd (n :: m :: rest) :=
      (nodesEnd_le_iff hblocks.ascend).mp (le_refl _) n mem_cons_self
    have hsame : nodesEnd (n :: m :: rest) = nodesEnd (m :: rest) := by
      rfl
    rw [show mapsize * (n :: m :: rest).length + 1 = mapsize * (m :: rest).length + 1 + mapsize by
      rfl]
    rw [forEachBitLoop_cons hfirst, next, if_pos rfl, hsame, ih hblocks.of_cons]
    rfl

/-- The bits of a canonical bitmap are visited node by node, and the loop ends at the high
bit. -/
theorem Canonical.forEachBit_eq {e : EbitmapT} (h : e.Canonical) :
    e.forEachBit = some (e.node.flatMap fun n => nodeBits n 0 mapsize, e.highbit) := by
  obtain ⟨node, highbit⟩ := e
  have hend : highbit = nodesEnd node := h.highbit
  have hblocks : Blocks node := h.blocks
  subst hend
  cases node with
  | nil => rfl
  | cons n rest => exact forEachBitLoop_eq hblocks

theorem bitAt_mem {node} (h : Blocks node) (hn : n ∈ node) {i} (hi : i < mapsize) :
    bitAt node (n.startbit + i) = n.map.getLsbD i := by
  have hstart : n.startbit = startOf (n.startbit + i) :=
    eq_startOf (h.aligned n hn) (le_add_right _ _) (by omega)
  have hmod : (n.startbit + i) % mapsize = i := by
    rw [← sub_startOf, ← hstart, Nat.add_sub_cancel_left]
  rw [bitAt, ← hstart, hmod, wordAt, h.ascend.blockAt_eq_some.mpr ⟨hn, rfl⟩]
  rfl

theorem exists_node_of_bitAt {node bit} (h : bitAt node bit = true) :
    ∃ n ∈ node, n.startbit = startOf bit := by
  by_contra hnone
  rw [bitAt, wordAt_eq_zero fun n hn heq => hnone ⟨n, hn, heq⟩] at h
  simp at h

/-- The set bits of a node. -/
def nodeMembers (n : EbitmapNode) : List Nat :=
  ((range mapsize).filter n.map.getLsbD).map (n.startbit + ·)

theorem mem_flatMap_nodeMembers {node : List EbitmapNode} (h : Blocks node) :
    x ∈ node.flatMap nodeMembers ↔ bitAt node x = true := by
  simp only [nodeMembers, mem_flatMap, mem_map, mem_filter, mem_range]
  constructor
  · rintro ⟨n, hn, i, ⟨hi, hbit⟩, rfl⟩
    rwa [bitAt_mem h hn hi]
  · intro hx
    obtain ⟨n, hn, hstart⟩ := exists_node_of_bitAt hx
    have hsplit : n.startbit + x % mapsize = x := by
      rw [hstart, ← sub_startOf, Nat.add_sub_cancel' (startOf_le x)]
    have hmod : x % mapsize < mapsize := mod_lt _ (by decide)
    refine ⟨n, hn, x % mapsize, ⟨hmod, ?_⟩, hsplit⟩
    rw [← bitAt_mem h hn hmod, hsplit]
    exact hx

end EbitmapT

/-! ## The nodes of a bitmap -/

namespace Ebitmap

open EbitmapT

/-- The nodes with one more bit, which comes before those that are there. -/
def addNode (bit : Nat) : List EbitmapNode → List EbitmapNode
  | [] => [{ startbit := startOf bit, map := mapbit (bit % mapsize) }]
  | n :: node =>
    if n.startbit = startOf bit then { n with map := n.map ||| mapbit (bit % mapsize) } :: node
    else { startbit := startOf bit, map := mapbit (bit % mapsize) } :: n :: node

def nodes (e : Ebitmap) : List EbitmapNode := e.bits.foldr addNode []

/-- The bitmap as the code has it. -/
def toT (e : Ebitmap) : EbitmapT := { node := e.nodes, highbit := nodesEnd e.nodes }

theorem wordAt_addNode {bit node} (hblocks : Blocks node)
    (hbehind : ∀ n ∈ node, startOf bit ≤ n.startbit) (s : Nat) : wordAt (addNode bit node) s =
      if startOf bit = s then wordAt node s ||| mapbit (bit % mapsize) else wordAt node s := by
  cases node with
  | nil => simp [addNode, wordAt_cons]
  | cons n node =>
    rw [addNode]
    split_ifs with hstart hs hs
    · simp [wordAt_cons, hstart, hs]
    · simp [wordAt_cons, hstart, hs]
    · have hzero : wordAt (n :: node) s = 0 := wordAt_eq_zero fun m hm => by
        have hn := hbehind n mem_cons_self
        rcases mem_cons.mp hm with rfl | hm
        · omega
        · have := (pairwise_cons.mp hblocks.ascend).1 m hm
          omega
      simp [wordAt_cons, if_pos hs, hzero]
    · rw [wordAt_cons, if_neg hs]

theorem blocks_addNode {bit} (hbit : bit < ebitmapLimit) {node} (hblocks : Blocks node)
    (hbehind : ∀ n ∈ node, startOf bit ≤ n.startbit) : Blocks (addNode bit node) := by
  have hmod : bit % mapsize < mapsize := mod_lt _ (by decide)
  have hword : startOf bit + mapsize < 2 ^ 32 := by
    have := startOf_le bit
    simp only [mapsize, ebitmapLimit] at *
    omega
  have hmap := mapbit_ne_zero hmod
  cases node with
  | nil => exact ⟨pairwise_singleton .., by simp [addNode, dvd_startOf], by simpa [addNode]
    using hmap,
      by simpa [addNode] using hword⟩
  | cons n node =>
    obtain ⟨hn, hnode⟩ := pairwise_cons.mp hblocks.ascend
    rw [addNode]
    split_ifs with hstart
    · have hor : n.map ||| mapbit (bit % mapsize) ≠ 0 := fun hzero => by
        simp_all
      exact hblocks.of_cons.cons hn (hblocks.aligned n mem_cons_self) hor
        (hblocks.word n mem_cons_self)
    · refine hblocks.cons (fun m hm => ?_) (dvd_startOf bit) hmap hword
      have hle := hbehind n mem_cons_self
      show startOf bit < m.startbit
      rcases mem_cons.mp hm with rfl | hm
      · omega
      · have := hn m hm
        omega

theorem startbit_addNode {bit node} (hn : n ∈ addNode bit node) :
    n.startbit = startOf bit ∨ ∃ m ∈ node, m.startbit = n.startbit := by
  cases node with
  | nil => exact .inl (by simp_all [addNode])
  | cons m node =>
    rw [addNode] at hn
    split_ifs at hn with hstart
    · rcases mem_cons.mp hn with rfl | hn
      · exact .inl hstart
      · exact .inr ⟨n, mem_cons_of_mem _ hn, rfl⟩
    · rcases mem_cons.mp hn with rfl | hn
      · exact .inl rfl
      · exact .inr ⟨n, hn, rfl⟩

theorem foldr_addNode_spec {bits : List Nat} (hsorted : bits.Pairwise (· < ·))
    (hbound : ∀ b ∈ bits, b < ebitmapLimit) : Blocks (bits.foldr addNode []) ∧
    (∀ n ∈ bits.foldr addNode [], ∃ b ∈ bits, n.startbit = startOf b) ∧
    ∀ x, bitAt (bits.foldr addNode []) x = decide (x ∈ bits) := by
  induction bits with
  | nil => exact ⟨⟨.nil, by simp, by simp, by simp⟩, by simp, by simp [bitAt]⟩
  | cons b bits ih =>
    obtain ⟨hfirst, hsorted⟩ := pairwise_cons.mp hsorted
    obtain ⟨hb, hbound⟩ := forall_mem_cons.mp hbound
    obtain ⟨hblocks, hstarts, hbits⟩ := ih hsorted hbound
    have hbehind : ∀ n ∈ bits.foldr addNode [], startOf b ≤ n.startbit := by
      intro n hn
      obtain ⟨c, hc, heq⟩ := hstarts n hn
      have := hfirst c hc
      rw [heq]
      simp only [startOf, mapsize]
      omega
    rw [foldr_cons]
    refine ⟨blocks_addNode hb hblocks hbehind, fun n hn => ?_, fun x => ?_⟩
    · rcases startbit_addNode hn with heq | ⟨m, hm, heq⟩
      · exact ⟨b, mem_cons_self, heq⟩
      · obtain ⟨c, hc, hstart⟩ := hstarts m hm
        exact ⟨c, mem_cons_of_mem _ hc, heq ▸ hstart⟩
    · have hx : x % mapsize < mapsize := mod_lt _ (by decide)
      have hbit := hbits x
      rw [bitAt] at hbit ⊢
      rw [wordAt_addNode hblocks hbehind]
      by_cases hstart : startOf b = startOf x
      · have heq : x % mapsize = b % mapsize ↔ x = b := by
          simp only [startOf, mapsize] at *
          omega
        simp [if_pos hstart, hbit, getLsbD_mapbit hx, heq, Bool.or_comm]
      · have hne : x ≠ b := fun heq => hstart (by rw [heq])
        rw [if_neg hstart, hbit]
        simp [hne]

variable (e : Ebitmap)

theorem blocks_nodes : Blocks e.nodes := (foldr_addNode_spec e.sorted e.bound).1

theorem bitAt_nodes (x : Nat) : bitAt e.nodes x = ebitmapGetBit e x :=
  (foldr_addNode_spec e.sorted e.bound).2.2 x

theorem canonical_toT : e.toT.Canonical := e.blocks_nodes.canonical rfl

theorem getBit_toT (x : Nat) : e.toT.getBit x = ebitmapGetBit e x := by
  rw [e.canonical_toT.getBit_eq]
  exact e.bitAt_nodes x

theorem blocks_ext {l1 l2} (h1 : Blocks l1) (h2 : Blocks l2)
    (hbits : ∀ x, bitAt l1 x = bitAt l2 x) : l1 = l2 := by
  have hsubset : ∀ {l1 l2 : List EbitmapNode}, Blocks l1 → Blocks l2 →
      (∀ x, bitAt l1 x = bitAt l2 x) → ∀ n ∈ l1, n ∈ l2 := by
    intro l1 l2 h1 h2 hbits n hn
    -- a node that is not empty has a bit, so the other list has a node there
    obtain ⟨i, hi, hbit⟩ : ∃ i < mapsize, n.map.getLsbD i = true := by
      by_contra hnone
      exact h1.nonzero n hn (BitVec.eq_of_getLsbD_eq fun i hi => by
        simpa using fun hbit => hnone ⟨i, hi, hbit⟩)
    have hset : bitAt l2 (n.startbit + i) = true := by rw [← hbits, bitAt_mem h1 hn hi, hbit]
    obtain ⟨m, hm, hstart⟩ := exists_node_of_bitAt hset
    have hsame : m.startbit = n.startbit :=
      hstart.trans (eq_startOf (h1.aligned n hn) (le_add_right _ _) (by omega)).symm
    have hmap : m.map = n.map := BitVec.eq_of_getLsbD_eq fun j hj => by
      rw [← bitAt_mem h1 hn hj, ← bitAt_mem h2 hm hj, hbits, hsame]
    obtain ⟨ms, mm⟩ := m
    simp_all
  exact h1.ascend.eq_of_mem_iff h2.ascend fun n =>
    ⟨hsubset h1 h2 hbits n, hsubset h2 h1 (fun x => (hbits x).symm) n⟩

variable {e : Ebitmap}

/-- A canonical bitmap is the one made of its members. -/
theorem eq_toT (ht : t.Canonical) (hbits : ∀ x, t.getBit x = ebitmapGetBit e x) : t = e.toT := by
  have hnode : t.node = e.nodes := blocks_ext ht.blocks e.blocks_nodes fun x => by
    rw [← ht.getBit_eq, hbits, e.bitAt_nodes]
  obtain ⟨node, highbit⟩ := t
  obtain rfl : node = e.nodes := hnode
  have hend : highbit = nodesEnd e.nodes := ht.highbit
  rw [toT, hend]

/-- Every canonical bitmap is made of some members. -/
theorem exists_toT (ht : t.Canonical) : ∃ e : Ebitmap, t = e.toT := by
  have hlt : ∀ x, t.getBit x = true → x < t.highbit := by
    intro x hx
    rw [ht.getBit_eq] at hx
    obtain ⟨n, hn, hstart⟩ := exists_node_of_bitAt hx
    have hend := (nodesEnd_le_iff ht.ascend).mp (le_of_eq ht.highbit.symm) n hn
    have := lt_startOf_add x
    omega
  have hdvd : mapsize ∣ t.highbit := by
    rw [ht.highbit, nodesEnd]
    cases hlast : t.node.getLast? with
    | none => exact Nat.dvd_zero _
    | some n => exact Nat.dvd_add (ht.aligned n (mem_of_getLast? hlast)) (Nat.dvd_refl _)
  have hlimit : t.highbit ≤ ebitmapLimit := by
    have := ht.word
    simp only [ebitmapLimit, mapsize] at *
    omega
  let e : Ebitmap :=
    { bits := (range t.highbit).filter t.getBit
      sorted := pairwise_lt_range.filter _
      bound := fun b hb => by
        have := mem_range.mp (List.mem_filter.mp hb).1
        omega }
  refine ⟨e, eq_toT ht fun x => ?_⟩
  rw [Bool.eq_iff_iff, ebitmapGetBit_eq_true, mem_def]
  show _ ↔ x ∈ (range t.highbit).filter t.getBit
  simp_all

/-! ## The walk over a bitmap -/

/-- The bits that are visited: those of the nodes. -/
def walk (e : Ebitmap) : List Nat :=
  e.nodes.flatMap fun n => (range' 0 mapsize).map fun i => n.startbit + i

theorem forEachBit_toT :
    e.toT.forEachBit = some (e.walk.map fun x => (x, ebitmapGetBit e x), e.toT.highbit) := by
  have hvisits : e.nodes.flatMap (fun n => nodeBits n 0 mapsize) =
      e.walk.map fun x => (x, ebitmapGetBit e x) := by
    rw [walk, map_flatMap]
    refine flatMap_congr fun n hn => ?_
    rw [nodeBits, map_map]
    refine map_congr_left fun i hi => ?_
    have hi : i < mapsize := by simpa using (mem_range'_1.mp hi).2
    rw [Function.comp_apply, ← e.bitAt_nodes, bitAt_mem e.blocks_nodes hn hi]
  rw [e.canonical_toT.forEachBit_eq, ← hvisits]
  rfl

theorem exists_node (hb : b ∈ e) : ∃ n ∈ e.nodes, n.startbit = startOf b :=
  exists_node_of_bitAt (by rw [e.bitAt_nodes, ebitmapGetBit_eq_true]; exact hb)

theorem node_start (hn : n ∈ e.nodes) :
    ∃ b ∈ e, n.startbit = startOf b := (foldr_addNode_spec e.sorted e.bound).2.1 n hn

/-- A bit is visited if its block has a member. -/
theorem mem_walk : x ∈ e.walk ↔ ∃ b ∈ e, startOf b = startOf x := by
  have hmod : x % mapsize < mapsize := mod_lt _ (by decide)
  simp only [walk, mem_flatMap, mem_map, mem_range'_1, zero_le, true_and, zero_add]
  constructor
  · rintro ⟨n, hn, i, hi, rfl⟩
    obtain ⟨b, hb, hstart⟩ := node_start hn
    exact ⟨b, hb, hstart ▸ eq_startOf (e.blocks_nodes.aligned n hn) (le_add_right _ _)
      (by omega)⟩
  · rintro ⟨b, hb, hstart⟩
    obtain ⟨n, hn, hnb⟩ := exists_node hb
    refine ⟨n, hn, x % mapsize, hmod, ?_⟩
    rw [hnb, hstart, ← sub_startOf, Nat.add_sub_cancel' (startOf_le x)]

theorem le_highbit_toT (hb : b ∈ e) : startOf b + mapsize ≤ e.toT.highbit := by
  obtain ⟨n, hn, hstart⟩ := exists_node hb
  have := (nodesEnd_le_iff e.blocks_nodes.ascend).mp (le_refl _) n hn
  rwa [hstart] at this

theorem highbit_toT_le {k : Nat} (h : ∀ b ∈ e, startOf b + mapsize ≤ k) : e.toT.highbit ≤ k := by
  refine (nodesEnd_le_iff e.blocks_nodes.ascend).mpr fun n hn => ?_
  obtain ⟨b, hb, hstart⟩ := node_start hn
  exact hstart ▸ h b hb

theorem walk_isWalk : Lib.Walk (ebitmapGetBit e) e.toT.highbit e.walk where
  sorted := by
    refine pairwise_append.mpr ⟨?_, pairwise_singleton .., fun x hx y hy => ?_⟩
    · refine pairwise_flatMap.mpr ⟨fun n hn => ?_, ?_⟩
      · exact pairwise_map.mpr ((pairwise_lt_range' ..).imp fun h => Nat.add_lt_add_left h _)
      · refine e.blocks_nodes.ascend.imp_of_mem fun {n m} hn hm hlt x hx y hy => ?_
        obtain ⟨i, hi, rfl⟩ := mem_map.mp hx
        obtain ⟨j, -, rfl⟩ := mem_map.mp hy
        have hi := (mem_range'_1.mp hi).2
        have hn := e.blocks_nodes.aligned n hn
        have hm := e.blocks_nodes.aligned m hm
        simp only [mapsize] at *
        omega
    · obtain rfl := mem_singleton.mp hy
      obtain ⟨b, hb, hstart⟩ := mem_walk.mp hx
      have := le_highbit_toT hb
      have := lt_startOf_add x
      omega
  mem x hx := mem_walk.mpr ⟨x, ebitmapGetBit_eq_true.mp hx, rfl⟩
  stop := by
    rw [ebitmapGetBit, decide_eq_false_iff_not]
    intro hmem
    have := le_highbit_toT hmem
    have := lt_startOf_add e.toT.highbit
    omega

/-- The runs of members on the walk. -/
def runs (e : Ebitmap) : List (Lib.Run Nat) := Lib.runs (ebitmapGetBit e) e.toT.highbit none e.walk

theorem mem_of_mem_run (hr : r ∈ e.runs) (hx : x ∈ r.members) :
    x ∈ e := ebitmapGetBit_eq_true.mp (Lib.pass_of_mem_run hr hx)

theorem exists_run (hx : x ∈ e) : ∃ r ∈ e.runs, x ∈ r.members :=
  e.walk_isWalk.exists_run (ebitmapGetBit_eq_true.mpr hx)

theorem highbit_toT_le_limit : e.toT.highbit ≤ ebitmapLimit :=
  highbit_toT_le fun b hb => by
    have := e.bound b hb
    simp only [startOf, mapsize, ebitmapLimit] at *
    omega

theorem close_le_limit (hr : r ∈ e.runs) : r.close ≤ ebitmapLimit := by
  refine le_trans ?_ e.highbit_toT_le_limit
  have hmem : r.close ∈ e.walk ++ [e.toT.highbit] :=
    (Lib.infix_of_mem_runs hr).subset (mem_append_right _ (mem_singleton.mpr rfl))
  rcases mem_append.mp hmem with hwalk | hend
  · exact le_of_lt ((pairwise_append.mp e.walk_isWalk.sorted).2.2 _ hwalk _ (by simp))
  · exact le_of_eq (mem_singleton.mp hend)

/-- The bit that is visited after a bit, or the end of the walk. -/
def nextBit (e : Ebitmap) (a : Nat) : Nat := Lib.next (e.walk ++ [e.toT.highbit]) a

/-- The member that comes after a bit. -/
structure IsNext (e : Ebitmap) (a b : Nat) : Prop where
  mem : b ∈ e
  lt : a < b
  least : ∀ c ∈ e, a < c → b ≤ c

/-- The member `a` is the last bit of its block, and the next member `b` is not in the block
behind it. -/
structure Gap (e : Ebitmap) (a b : Nat) : Prop where
  mem : a ∈ e
  last : a % mapsize = mapsize - 1
  next : e.IsNext a b
  far : a + mapsize < b

variable {a : Nat}

theorem nextBit_inside (ha : a ∈ e) (hlast : a % mapsize ≠ mapsize - 1) : e.nextBit a = a + 1 := by
  refine Lib.next_eq e.walk_isWalk.sorted (mem_append_left _ (mem_walk.mpr ⟨a, ha, ?_⟩))
    (lt_succ_self a) fun z _ hz => hz
  simp only [startOf, mapsize] at *
  omega

theorem nextBit_last (ha : a ∈ e) (hlast : a % mapsize = mapsize - 1)
    (hnone : ∀ c ∈ e, c ≤ a) : e.nextBit a = a + 1 := by
  have hend : e.toT.highbit = a + 1 := by
    have hle := le_highbit_toT ha
    have hge : e.toT.highbit ≤ a + 1 := highbit_toT_le fun b hb => by
      have := hnone b hb
      simp only [startOf, mapsize] at *
      omega
    simp only [startOf, mapsize] at *
    omega
  exact Lib.next_eq e.walk_isWalk.sorted (by simp [hend]) (lt_succ_self a) fun z _ hz => hz

theorem nextBit_block (hlast : a % mapsize = mapsize - 1) (h : e.IsNext a b) :
    e.nextBit a = startOf b := by
  have hstart : a < startOf b := by
    have := h.lt
    simp only [startOf, mapsize] at *
    omega
  refine Lib.next_eq e.walk_isWalk.sorted (mem_append_left _ (mem_walk.mpr ⟨b, h.mem, ?_⟩)) hstart
    fun z hz haz => ?_
  · simp only [startOf, mapsize]
    omega
  · rcases mem_append.mp hz with hz | hz
    · obtain ⟨c, hc, hstart⟩ := mem_walk.mp hz
      have hle : a < c → b ≤ c := h.least c hc
      simp only [startOf, mapsize] at *
      omega
    · obtain rfl := mem_singleton.mp hz
      have := le_highbit_toT h.mem
      omega

/-- A member is either followed by the next bit or by a gap. -/
theorem nextBit_cases (ha : a ∈ e) :
    e.nextBit a = a + 1 ∨ ∃ b, e.Gap a b ∧ e.nextBit a = startOf b := by
  by_cases hlast : a % mapsize = mapsize - 1
  · by_cases hnone : ∀ c ∈ e, c ≤ a
    · exact .inl (nextBit_last ha hlast hnone)
    · obtain ⟨c, hc, hac⟩ : ∃ c, c ∈ e ∧ a < c := by simpa using hnone
      have hex : ∃ c, c ∈ e ∧ a < c := ⟨c, hc, hac⟩
      have hnext : e.IsNext a (Nat.find hex) :=
        ⟨(Nat.find_spec hex).1, (Nat.find_spec hex).2, fun c hc hac => Nat.find_min' hex ⟨hc, hac⟩⟩
      have hblock := nextBit_block hlast hnext
      by_cases hfar : a + mapsize < Nat.find hex
      · exact .inr ⟨_, ⟨ha, hlast, hnext, hfar⟩, hblock⟩
      · have := hnext.lt
        refine .inl (hblock.trans ?_)
        generalize Nat.find hex = b at *
        simp only [startOf, mapsize] at *
        omega
  · exact .inl (nextBit_inside ha hlast)

theorem Gap.nextBit_eq (h : e.Gap a b) : e.nextBit a = startOf b ∧ a + 1 < startOf b := by
  refine ⟨nextBit_block h.last h.next, ?_⟩
  have := h.last
  have := h.far
  simp only [startOf, mapsize] at *
  omega

theorem nextBit_eq_succ_iff (ha : a ∈ e) : e.nextBit a = a + 1 ↔ ∀ b, ¬e.Gap a b := by
  constructor
  · intro h b hgap
    have := hgap.nextBit_eq
    omega
  · intro h
    rcases nextBit_cases ha with hsucc | ⟨b, hgap, -⟩
    · exact hsucc
    · exact absurd hgap (h b)

end Ebitmap

end SELinux.Sepol
