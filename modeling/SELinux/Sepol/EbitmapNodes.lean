import SELinux.Lib.Merge
import SELinux.Sepol.Ebitmap

/-! The representation of a bitmap (`ebitmap.h`, `ebitmap.c`): a list of nodes, each with the
bit it starts at and a map of 64 bits, and the end of the last node. The operations walk the
lists of nodes. `mem` is the number of nodes that can still be allocated; an operation that
needs more returns `-ENOMEM`. -/
namespace SELinux.Sepol

open List

/-! ## Model -/

/-- `ebitmap_node_t`; the pointer to the next node is the rest of the list. -/
structure EbitmapNode where
  startbit : Nat
  map : BitVec 64
  deriving DecidableEq

structure EbitmapT where
  node : List EbitmapNode := []
  highbit : Nat := 0
  deriving DecidableEq

/-- `-ENOMEM`. -/
def enomem : Int := -12

/-- `MAPBIT << i`. -/
def mapbit (i : Nat) : BitVec 64 := 1#64 <<< i

/-- `~((MAPTYPE) 0)`. -/
def mapones : BitVec 64 := ~~~0#64

/-- `bit & ~(MAPSIZE - 1)`. -/
def startOf (bit : Nat) : Nat := bit / mapsize * mapsize

/-- A bitmap made of newly allocated nodes. -/
def allocNodes (mem : Nat) (node : List EbitmapNode) (highbit : Nat) : Except Int EbitmapT :=
  if node.length ≤ mem then .ok { node, highbit } else .error enomem

/-- `prev->startbit + MAPSIZE` in 32 bits, where `prev` is the last node; `0` without one. -/
def highbitOf (node : List EbitmapNode) : Nat :=
  match node.getLast? with
  | none => 0
  | some prev => (prev.startbit + mapsize) % 2 ^ 32

namespace EbitmapT

/-- The loop of `ebitmap_get_bit`. -/
def getBitLoop (bit : Nat) : List EbitmapNode → Bool
  | [] => false
  | n :: next =>
    if n.startbit ≤ bit then
      if bit < n.startbit + mapsize then n.map &&& mapbit (bit - n.startbit) != 0
      else getBitLoop bit next
    else false

section

variable (mem : Nat) (e1 e2 : EbitmapT) (e : EbitmapT)

/-- `ebitmap_get_bit`. -/
def getBit (bit : Nat) : Bool :=
  if e.highbit < bit then false else getBitLoop bit e.node

/-- The loop of `ebitmap_set_bit` and what follows it, from the node after `prev` on. -/
def setBitLoop (mem bit : Nat) (value : Bool) (highbit : Nat) (prev : Option EbitmapNode) :
    List EbitmapNode → Except Int EbitmapT
  | [] =>
    if !value then .ok { node := [], highbit }
    -- the new node is the highest one
    else allocNodes mem [{ startbit := startOf bit, map := mapbit (bit - startOf bit) }]
      (startOf bit + mapsize)
  | n :: next =>
    if n.startbit ≤ bit then
      if bit < n.startbit + mapsize then
        if value then
          .ok { node := { n with map := n.map ||| mapbit (bit - n.startbit) } :: next, highbit }
        else
          let map := n.map &&& ~~~mapbit (bit - n.startbit)
          if map = 0 then
            -- drop this node; if it was the highest one, the one before is
            .ok { node := next, highbit := if next = [] then highbitOf prev.toList else highbit }
          else .ok { node := { n with map } :: next, highbit }
      else
        (setBitLoop mem bit value highbit (some n) next).map fun e => { e with node := n :: e.node }
    else if !value then .ok { node := n :: next, highbit }
    else (allocNodes mem [{ startbit := startOf bit, map := mapbit (bit - startOf bit) }]
      highbit).map
      fun e => { e with node := e.node ++ n :: next }

/-- `ebitmap_set_bit`. -/
def setBit (bit : Nat) (value : Bool) : Except Int EbitmapT :=
  if (startOf bit + mapsize) % 2 ^ 32 = 0 then .error einval
  else setBitLoop mem bit value e.highbit none e.node

/-- The new node for two nodes that start at the same bit. -/
def joinNodes (op : BitVec 64 → BitVec 64 → BitVec 64) (n1 n2 : EbitmapNode) : EbitmapNode :=
  { startbit := n1.startbit, map := op n1.map n2.map }

/-- `ebitmap_or`. -/
def or : Except Int EbitmapT :=
  allocNodes mem
    (Lib.outerMerge EbitmapNode.startbit (joinNodes (· ||| ·)) e1.node e2.node)
    (if e1.highbit > e2.highbit then e1.highbit else e2.highbit)

/-- `ebitmap_union(dst, e1)`: any failure is `-1`. -/
def union (dst e1 : EbitmapT) : Except Int EbitmapT :=
  match or mem dst e1 with
  | .error _ => .error (-1)
  | .ok tmp => .ok tmp

/-- The new node of `ebitmap_and`, if the two nodes have a bit in common. -/
def meetNodes (n1 n2 : EbitmapNode) : Option EbitmapNode :=
  if n1.map &&& n2.map ≠ 0 then some (joinNodes (· &&& ·) n1 n2) else none

/-- `ebitmap_and`. -/
def and : Except Int EbitmapT :=
  let node := Lib.innerMerge EbitmapNode.startbit meetNodes e1.node e2.node
  allocNodes mem node (highbitOf node)

/-- `ebitmap_xor`. It walks the nodes as `ebitmap_or` does and skips those that become
zero. -/
def xor : Except Int EbitmapT :=
  let node := (Lib.outerMerge EbitmapNode.startbit (joinNodes (· ^^^ ·)) e1.node e2.node).filter
    fun n => n.map != 0
  allocNodes mem node (highbitOf node)

/-- The map of the complement from `cur` on. -/
def notMap (maxbit cur : Nat) (map : BitVec 64) : BitVec 64 :=
  if maxbit - cur < mapsize then ~~~map &&& (mapbit (maxbit - cur) - 1) else ~~~map

/-- The map that the other bitmap has at `cur`, and the rest of its nodes. -/
def notNode (cur : Nat) : List EbitmapNode → BitVec 64 × List EbitmapNode
  | [] => (0, [])
  | n :: next => if n.startbit = cur then (n.map, next) else (0, n :: next)

/-- The loop of `ebitmap_not`: the nodes from `cur` on, where `n` is the rest of the other
bitmap. The loop has no bound of its own: in `rounds` rounds it is not at its end. -/
def notLoop (maxbit : Nat) : Nat → Nat → List EbitmapNode → Option (List EbitmapNode)
  | 0, _, _ => none
  | rounds + 1, cur, n =>
    if cur < maxbit then
      let map := notMap maxbit cur (notNode cur n).1
      (notLoop maxbit rounds ((cur + mapsize) % 2 ^ 32) (notNode cur n).2).map fun rest =>
        if map ≠ 0 then { startbit := cur, map } :: rest else rest
    else some []

/-- `ebitmap_not`. Every start bit is reached in `2 ^ 26` rounds; a loop that goes on after
that has wrapped around and goes on until there is no memory left. -/
def not (e1 : EbitmapT) (maxbit : Nat) : Except Int EbitmapT :=
  match notLoop maxbit (2 ^ 26 + 1) 0 e1.node with
  | none => .error enomem
  | some node => allocNodes mem node (highbitOf node)

/-- `ebitmap_andnot`. The complement is freed when the function returns. -/
def andnot (maxbit : Nat) : Except Int EbitmapT :=
  match not mem e2 maxbit with
  | .error err => .error err
  | .ok e3 => and (mem - e3.node.length) e1 e3

/-- `ebitmap_cpy`. -/
def cpy (src : EbitmapT) : Except Int EbitmapT := allocNodes mem src.node src.highbit

/-- The map of a node of `ebitmap_init_range`. -/
def rangeMap (minbit maxbit startbit : Nat) : BitVec 64 :=
  if startbit ≠ startOf minbit ∧ startbit ≠ startOf maxbit then mapones
  else if startbit ≠ startOf maxbit then mapones <<< (minbit - startbit)
  else if startbit ≠ startOf minbit then mapones >>> (mapsize - (maxbit - startbit + 1))
  else (mapones >>> (mapsize - (maxbit - minbit + 1))) <<< (minbit - startbit)

/-- The loop of `ebitmap_init_range`, for a number of nodes. -/
def rangeLoop (minbit maxbit : Nat) : Nat → Nat → List EbitmapNode
  | 0, _ => []
  | n + 1, startbit =>
    { startbit, map := rangeMap minbit maxbit startbit } ::
      rangeLoop minbit maxbit n (startbit + mapsize)

/-- `ebitmap_init_range`. -/
def initRange (mem minbit maxbit : Nat) : Except Int EbitmapT :=
  if minbit > maxbit then .error einval
  else if (startOf minbit + mapsize) % 2 ^ 32 = 0 ∨ (startOf maxbit + mapsize) % 2 ^ 32 = 0 then
    .error eoverflow
  else
    allocNodes mem
      (rangeLoop minbit maxbit ((startOf maxbit - startOf minbit) / mapsize + 1) (startOf minbit))
      ((startOf maxbit + mapsize) % 2 ^ 32)

/-! ## Canonical form -/

/-- The end of the last node. -/
def nodesEnd (node : List EbitmapNode) : Nat :=
  match node.getLast? with
  | none => 0
  | some n => n.startbit + mapsize

/-- The nodes ascend, start at multiples of 64 and are not empty, and `highbit` is the end of
the last one. -/
structure Canonical : Prop where
  ascend : Lib.StartsAscend EbitmapNode.startbit e.node
  aligned : ∀ n ∈ e.node, mapsize ∣ n.startbit
  nonzero : ∀ n ∈ e.node, n.map ≠ 0
  highbit : e.highbit = nodesEnd e.node
  word : e.highbit < 2 ^ 32

end

instance (e : EbitmapT) : Decidable e.Canonical :=
  decidable_of_iff
    ((e.node.Pairwise fun a b : EbitmapNode => a.startbit < b.startbit) ∧
      (∀ n ∈ e.node, mapsize ∣ n.startbit) ∧
      (∀ n ∈ e.node, n.map ≠ 0) ∧ e.highbit = nodesEnd e.node ∧ e.highbit < 2 ^ 32)
    ⟨fun h => ⟨h.1, h.2.1, h.2.2.1, h.2.2.2.1, h.2.2.2.2⟩,
      fun h => ⟨h.ascend, h.aligned, h.nonzero, h.highbit, h.word⟩⟩

/-- The nodes of a canonical bitmap. -/
structure Blocks (node : List EbitmapNode) : Prop where
  ascend : Lib.StartsAscend EbitmapNode.startbit node
  aligned : ∀ n ∈ node, mapsize ∣ n.startbit
  nonzero : ∀ n ∈ node, n.map ≠ 0
  word : ∀ n ∈ node, n.startbit + mapsize < 2 ^ 32

theorem nodesEnd_cons (n : EbitmapNode) (node : List EbitmapNode) :
    nodesEnd (n :: node) = if node = [] then n.startbit + mapsize else nodesEnd node := by
  cases node with
  | nil => rfl
  | cons m node => rfl

theorem nodesEnd_le_iff {node} (h : Lib.StartsAscend EbitmapNode.startbit node) {b} :
    nodesEnd node ≤ b ↔ ∀ n ∈ node, n.startbit + mapsize ≤ b := by
  induction node with
  | nil => simp [nodesEnd]
  | cons n node ih =>
    obtain ⟨hn, hnode⟩ := pairwise_cons.mp h
    rw [nodesEnd_cons, forall_mem_cons]
    cases node with
    | nil => simp
    | cons m node =>
      rw [if_neg (cons_ne_nil m node), ih hnode]
      refine ⟨fun hall => ⟨?_, hall⟩, fun hall => hall.2⟩
      exact Nat.le_trans (Nat.add_le_add_right (Nat.le_of_lt (hn m mem_cons_self)) _)
        (hall m mem_cons_self)

theorem nodesEnd_lt_iff {node} (h : Lib.StartsAscend EbitmapNode.startbit node) {b} (hb : 0 < b) :
    nodesEnd node < b ↔ ∀ n ∈ node, n.startbit + mapsize < b := by
  have := nodesEnd_le_iff h (b := b - 1)
  constructor
  · intro hlt n hn
    have := this.mp (by omega) n hn
    omega
  · intro hall
    have := this.mpr fun n hn => by have := hall n hn; omega
    omega

variable {e : EbitmapT} {i : Nat}

theorem Canonical.blocks (h : e.Canonical) : Blocks e.node :=
  ⟨h.ascend, h.aligned, h.nonzero,
    (nodesEnd_lt_iff h.ascend (Nat.two_pow_pos 32)).mp (h.highbit ▸ h.word)⟩

theorem Blocks.canonical {node} (h : Blocks node) {highbit} (hend : highbit = nodesEnd node) :
    Canonical { node, highbit } :=
  ⟨h.ascend, h.aligned, h.nonzero, hend,
    hend ▸ (nodesEnd_lt_iff h.ascend (Nat.two_pow_pos 32)).mpr h.word⟩

theorem Blocks.highbitOf_eq {node} (h : Blocks node) : highbitOf node = nodesEnd node := by
  unfold highbitOf nodesEnd
  cases hlast : node.getLast? with
  | none => rfl
  | some n => exact Nat.mod_eq_of_lt (h.word n (mem_of_getLast? hlast))

theorem Blocks.of_cons {n node} (h : Blocks (n :: node)) : Blocks node :=
  ⟨(pairwise_cons.mp h.ascend).2, fun m hm => h.aligned m (mem_cons_of_mem _ hm),
    fun m hm => h.nonzero m (mem_cons_of_mem _ hm),
    fun m hm => h.word m (mem_cons_of_mem _ hm)⟩

theorem Blocks.cons {n : EbitmapNode} {node} (h : Blocks node)
    (hfirst : ∀ m ∈ node, n.startbit < m.startbit) (haligned : mapsize ∣ n.startbit)
    (hmap : n.map ≠ 0) (hword : n.startbit + mapsize < 2 ^ 32) : Blocks (n :: node) :=
  ⟨pairwise_cons.mpr ⟨hfirst, h.ascend⟩, forall_mem_cons.mpr ⟨haligned, h.aligned⟩,
    forall_mem_cons.mpr ⟨hmap, h.nonzero⟩, forall_mem_cons.mpr ⟨hword, h.word⟩⟩

/-! ## Bits -/

/-- The map of the node that starts at a bit; zero if there is none. -/
def wordAt (node : List EbitmapNode) (startbit : Nat) : BitVec 64 :=
  ((Lib.blockAt EbitmapNode.startbit startbit node).map EbitmapNode.map).getD 0

/-- Whether a bit is set in its node. -/
def bitAt (node : List EbitmapNode) (bit : Nat) : Bool :=
  (wordAt node (startOf bit)).getLsbD (bit % mapsize)

theorem wordAt_cons (n : EbitmapNode) (node : List EbitmapNode) (s : Nat) :
    wordAt (n :: node) s = if n.startbit = s then n.map else wordAt node s := by
  unfold wordAt
  rw [Lib.blockAt_cons]
  split_ifs <;> rfl

@[simp] theorem wordAt_nil (s : Nat) : wordAt [] s = 0 := rfl

theorem wordAt_eq_zero {node s} (h : ∀ n ∈ node, n.startbit ≠ s) : wordAt node s = 0 := by
  rw [wordAt, Lib.blockAt_eq_none.mpr h]
  rfl

theorem getLsbD_mapbit {i j} (hj : j < mapsize) : (mapbit i).getLsbD j = decide (j = i) := by
  simp only [mapsize] at hj
  by_cases h : j = i
  · simp [mapbit, h, h ▸ hj]
  · simp only [mapbit, BitVec.getLsbD_shiftLeft, hj, decide_true, Bool.true_and, h, decide_false,
      BitVec.getLsbD_one, Bool.and_eq_false_iff]
    by_cases hlt : j < i
    · simp [hlt]
    · simp
      omega

theorem mapbit_ne_zero (hi : i < mapsize) : mapbit i ≠ 0 := by
  intro hzero
  have := congrArg (fun w => BitVec.getLsbD w i) hzero
  simp [getLsbD_mapbit hi] at this

theorem and_mapbit_ne_zero {map : BitVec 64} (hi : i < mapsize) :
    (map &&& mapbit i != 0) = map.getLsbD i := by
  rw [Bool.eq_iff_iff, bne_iff_ne]
  constructor
  · intro hne
    by_contra hbit
    refine hne (BitVec.eq_of_getLsbD_eq fun j hj => ?_)
    rw [BitVec.getLsbD_and, getLsbD_mapbit hj]
    by_cases hji : j = i
    · simp [hji, Bool.eq_false_iff.mpr hbit]
    · simp [hji]
  · intro hbit hzero
    have := congrArg (fun w => BitVec.getLsbD w i) hzero
    simp [getLsbD_mapbit hi, hbit] at this

theorem startOf_le (bit : Nat) : startOf bit ≤ bit := Nat.div_mul_le_self bit mapsize

theorem lt_startOf_add (bit : Nat) : bit < startOf bit + mapsize := by
  simp only [startOf, mapsize]
  omega

theorem sub_startOf (bit : Nat) : bit - startOf bit = bit % mapsize := by
  simp only [startOf, mapsize]
  omega

theorem dvd_startOf (bit : Nat) : mapsize ∣ startOf bit := Nat.dvd_mul_left ..

/-- Blocks do not overlap. -/
theorem add_mapsize_le {a b : Nat} (ha : mapsize ∣ a) (hb : mapsize ∣ b) (hlt : a < b) :
    a + mapsize ≤ b := by
  obtain ⟨a, rfl⟩ := ha
  obtain ⟨b, rfl⟩ := hb
  simp only [mapsize] at *
  omega

theorem eq_startOf {s bit : Nat} (hs : mapsize ∣ s) (hle : s ≤ bit) (hlt : bit < s + mapsize) :
    s = startOf bit := by
  simp only [startOf, mapsize] at *
  omega

theorem getBitLoop_eq {bit node} (hascend : Lib.StartsAscend EbitmapNode.startbit node)
    (haligned : ∀ n ∈ node, mapsize ∣ n.startbit) : getBitLoop bit node = bitAt node bit := by
  induction node with
  | nil => simp [getBitLoop, bitAt]
  | cons n node ih =>
    obtain ⟨hn, hnode⟩ := pairwise_cons.mp hascend
    obtain ⟨hdvd, hrest⟩ := forall_mem_cons.mp haligned
    rw [getBitLoop, bitAt, wordAt_cons]
    split_ifs with hle hlt heq heq heq
    · rw [and_mapbit_ne_zero (by omega), heq, sub_startOf]
    · exact absurd (eq_startOf hdvd hle hlt) heq
    · have := lt_startOf_add bit
      omega
    · rw [ih hnode hrest, bitAt]
    · have := startOf_le bit
      omega
    · -- the nodes behind start behind the bit, too
      rw [wordAt_eq_zero fun m hm => ?_]
      · simp
      · have hm' := hn m hm
        have := startOf_le bit
        omega

theorem Canonical.getBit_eq (h : e.Canonical) (bit : Nat) : e.getBit bit = bitAt e.node bit := by
  rw [getBit, getBitLoop_eq h.ascend h.aligned]
  split_ifs with hlt
  · rw [bitAt, wordAt_eq_zero fun n hn => ?_]
    · simp
    · have hend := (nodesEnd_le_iff h.ascend).mp (Nat.le_of_eq h.highbit.symm) n hn
      have := lt_startOf_add bit
      omega
  · rfl

end EbitmapT

end SELinux.Sepol
