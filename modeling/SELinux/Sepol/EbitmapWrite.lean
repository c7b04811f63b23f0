import SELinux.Sepol.Constraint
import SELinux.Sepol.EbitmapWalk
import SELinux.Sepol.PutEntry

/-! `ebitmap_write` (`write.c`) writes a bitmap node by node, and `ebitmap_read` reads it back. The
reader compares each node with the one before only; that is enough for what it accepts to be
canonical. -/
namespace SELinux.Sepol

open List Option

/-! ## Model -/

/-- A node: its start bit and its map, a word of 64 bits. -/
def putNode (n : EbitmapNode) : PolicyFile :=
  putLe32 (.ofNat 32 n.startbit) ++
    (putLe32 (n.map.extractLsb' 0 32) ++ putLe32 (n.map.extractLsb' 32 32))

namespace EbitmapT

/-- `ebitmap_write`. -/
def write (e : EbitmapT) : PolicyFile :=
  putLe32s [.ofNat 32 mapsize, .ofNat 32 e.highbit, .ofNat 32 e.node.length] ++
    e.node.flatMap putNode

/-- One round of the loop of `ebitmap_read`, behind the node `l`. -/
def readNode (highbit : Nat) (l : Option EbitmapNode) (fp : PolicyFile) :
    Option (EbitmapNode × PolicyFile) := do
  let (startbit, fp) ← nextLe32 fp
  if startbit.toNat % mapsize ≠ 0 ∨ highbit - mapsize < startbit.toNat then none
  else
    let (low, fp) ← nextLe32 fp
    let (high, fp) ← nextLe32 fp
    let n : EbitmapNode := { startbit := startbit.toNat, map := high ++ low }
    if n.map = 0 then none
    else if l.any fun l => decide (n.startbit ≤ l.startbit) then none
    else some (n, fp)

/-- The loop of `ebitmap_read`: the nodes, and the last one. -/
def readNodes (highbit : Nat) : Nat → Option EbitmapNode → PolicyFile →
      Option (List EbitmapNode × Option EbitmapNode × PolicyFile)
  | 0, l, fp => some ([], l, fp)
  | count + 1, l, fp => do
    let (n, fp) ← readNode highbit l fp
    let (node, l, fp) ← readNodes highbit count (some n) fp
    some (n :: node, l, fp)

/-- `ebitmap_read`. A bitmap whose high bit is 0 is empty, whatever its count says. -/
def read (mem : Nat) (fp : PolicyFile) : Option (EbitmapT × PolicyFile) := do
  let (size, fp) ← nextLe32 fp
  let (highbit, fp) ← nextLe32 fp
  let (count, fp) ← nextLe32 fp
  if size.toNat ≠ mapsize then none
  else if highbit = 0 then some ({}, fp)
  else if highbit.toNat % mapsize ≠ 0 ∨ count = 0 then none
  else if mem < count.toNat then none
  else
    let (node, l, fp) ← readNodes highbit.toNat count.toNat none fp
    if l.map (·.startbit + mapsize) ≠ some highbit.toNat then none
    else some ({ node, highbit := highbit.toNat }, fp)

/-! ## What is accepted -/

variable {n : EbitmapNode}

theorem readNode_eq_some {highbit l fp fp'} (h : readNode highbit l fp = some (n, fp')) :
    mapsize ∣ n.startbit ∧ n.startbit ≤ highbit - mapsize ∧ n.map ≠ 0 ∧
      ∀ m ∈ l, m.startbit < n.startbit := by
  simp only [readNode, bind_eq_bind, bind_eq_some_iff, Prod.exists] at h
  obtain ⟨startbit, fp1, -, h⟩ := h
  split_ifs at h with hstart
  simp only [bind_eq_some_iff, Prod.exists] at h
  obtain ⟨low, fp2, -, high, fp3, -, h⟩ := h
  split_ifs at h with hmap hord
  obtain ⟨rfl, -⟩ := Prod.mk.inj (some.inj h)
  obtain ⟨haligned, hhigh⟩ := not_or.mp hstart
  refine ⟨Nat.dvd_of_mod_eq_zero (not_not.mp haligned), Nat.le_of_not_lt hhigh, hmap, ?_⟩
  rintro m rfl
  simpa using hord

variable {node : List EbitmapNode}

/-- The nodes that the loop reads make up a canonical bitmap, behind the node it began with. -/
theorem readNodes_blocks {highbit} (hword : highbit < 2 ^ 32) (hpos : mapsize ≤ highbit)
    {count l l' fp fp'} (h : readNodes highbit count l fp = some (node, l', fp')) :
    Blocks node ∧ (∀ m ∈ l, ∀ n ∈ node, m.startbit < n.startbit) ∧ l' = node.getLast?.or l := by
  induction count generalizing l fp fp' node with
  | zero =>
    obtain ⟨rfl, rfl, -⟩ := h
    exact ⟨⟨.nil, by simp, by simp, by simp⟩, by simp, rfl⟩
  | succ count ih =>
    simp only [readNodes, bind_eq_bind, bind_eq_some_iff, Prod.exists, some.injEq,
      Prod.mk.injEq] at h
    obtain ⟨n, fp1, hn, rest, l1, fp2, hrest, rfl, rfl, -⟩ := h
    obtain ⟨hdvd, hhigh, hmap, hord⟩ := readNode_eq_some hn
    obtain ⟨hblocks, hbehind, rfl⟩ := ih hrest
    have hfirst : ∀ m ∈ rest, n.startbit < m.startbit := hbehind n rfl
    refine ⟨hblocks.cons hfirst hdvd hmap (by omega), fun m hm => ?_, ?_⟩
    · refine forall_mem_cons.mpr ⟨hord m hm, fun n' hn' => ?_⟩
      exact (hord m hm).trans (hfirst n' hn')
    · cases hlast : rest.getLast? with
      | none => simp [getLast?_eq_none_iff.mp hlast]
      | some m => simp [getLast?_cons, hlast]

variable {e : EbitmapT}

theorem read_canonical {mem fp fp'} (h : read mem fp = some (e, fp')) : e.Canonical := by
  simp only [read, bind_eq_bind, bind_eq_some_iff, Prod.exists] at h
  obtain ⟨size, fp1, -, highbit, fp2, -, count, fp3, -, h⟩ := h
  split_ifs at h with hsize hzero hhead hmem
  · obtain ⟨rfl, -⟩ := Prod.mk.inj (some.inj h)
    decide
  · simp only [bind_eq_some_iff, Prod.exists] at h
    obtain ⟨node, l, fp4, hread, h⟩ := h
    split_ifs at h with hend
    obtain ⟨rfl, -⟩ := Prod.mk.inj (some.inj h)
    have hne : highbit.toNat ≠ 0 := fun h0 => hzero (BitVec.eq_of_toNat_eq h0)
    have hpos : mapsize ≤ highbit.toNat :=
      Nat.le_of_dvd (Nat.pos_of_ne_zero hne)
        (Nat.dvd_of_mod_eq_zero (not_not.mp (not_or.mp hhead).1))
    obtain ⟨hblocks, -, rfl⟩ := readNodes_blocks highbit.isLt hpos hread
    refine hblocks.canonical ?_
    rw [nodesEnd]
    cases hlast : node.getLast? with
    | none => simp [hlast] at hend
    | some n =>
      rw [hlast] at hend
      exact (some.inj (not_not.mp hend)).symm

/-! ## Reading back -/

theorem map_eq_append (map : BitVec 64) : map.extractLsb' 32 32 ++ map.extractLsb' 0 32 = map := by
  rw [BitVec.extractLsb'_append_extractLsb'_eq_extractLsb' (show 32 = 0 + 32 from rfl)]
  exact BitVec.extractLsb'_eq_self

theorem readNode_putNode {highbit} (hdvd : mapsize ∣ n.startbit)
    (hhigh : n.startbit + mapsize ≤ highbit) (hword : highbit < 2 ^ 32) (hmap : n.map ≠ 0) {l}
    (hl : ∀ m ∈ l, m.startbit < n.startbit) (fp : PolicyFile) :
    readNode highbit l (putNode n ++ fp) = some (n, fp) := by
  have hstart : (BitVec.ofNat 32 n.startbit).toNat = n.startbit := by
    rw [BitVec.toNat_ofNat, Nat.mod_eq_of_lt (by omega)]
  have hord : (l.any fun m => decide (n.startbit ≤ m.startbit)) = false := by
    cases l with
    | none => rfl
    | some m => exact decide_eq_false (Nat.not_le_of_lt (hl m rfl))
  rw [readNode, putNode, append_assoc, append_assoc, nextLe32_putLe32]
  simp only [bind_eq_bind, bind_some, hstart]
  rw [if_neg (by omega), nextLe32_putLe32, bind_some, nextLe32_putLe32, bind_some, map_eq_append,
    if_neg hmap, hord, if_neg Bool.false_ne_true]

theorem readNodes_putNode {highbit} (hword : highbit < 2 ^ 32)
    (h : Blocks node) (hend : ∀ n ∈ node, n.startbit + mapsize ≤ highbit) {l}
    (hl : ∀ m ∈ l, ∀ n ∈ node, m.startbit < n.startbit) (fp : PolicyFile) :
    readNodes highbit node.length l (node.flatMap putNode ++ fp) =
      some (node, node.getLast?.or l, fp) := by
  induction node generalizing l with
  | nil => rfl
  | cons n node ih =>
    have hnext : ∀ m ∈ some n, ∀ n' ∈ node, m.startbit < n'.startbit := by
      rintro m hm
      cases hm
      exact (pairwise_cons.mp h.ascend).1
    rw [length_cons, readNodes, flatMap_cons, append_assoc,
      readNode_putNode (h.aligned n mem_cons_self) (hend n mem_cons_self) hword
        (h.nonzero n mem_cons_self) (fun m hm => hl m hm n mem_cons_self)]
    simp only [bind_eq_bind, bind_some]
    rw [ih h.of_cons (fun m hm => hend m (mem_cons_of_mem n hm)) hnext]
    cases hlast : node.getLast? with
    | none => simp [getLast?_eq_none_iff.mp hlast]
    | some m => simp [getLast?_cons, hlast]

theorem length_le_of_ascend (h : Lib.StartsAscend EbitmapNode.startbit node) {low high : Nat}
    (hlow : ∀ n ∈ node, low ≤ n.startbit) (hhigh : ∀ n ∈ node, n.startbit < high)
    (hle : low ≤ high) : node.length ≤ high - low := by
  induction node generalizing low with
  | nil => exact Nat.zero_le _
  | cons n node ih =>
    obtain ⟨hfirst, hnode⟩ := pairwise_cons.mp h
    have hn := hhigh n mem_cons_self
    have hn' := hlow n mem_cons_self
    have hrest := ih hnode (fun m hm => hfirst m hm) (fun m hm => hhigh m (mem_cons_of_mem _ hm)) hn
    rw [length_cons]
    omega

theorem Canonical.end_le (h : e.Canonical) : ∀ n ∈ e.node, n.startbit + mapsize ≤ e.highbit :=
  (nodesEnd_le_iff h.ascend).mp (Nat.le_of_eq h.highbit.symm)

/-- The number of nodes fits into a word. -/
theorem Canonical.length_lt (h : e.Canonical) : e.node.length < 2 ^ 32 := by
  have hend := h.end_le
  have hword := h.word
  have hle := length_le_of_ascend h.ascend (fun n _ => Nat.zero_le n.startbit)
    (fun n hn => show n.startbit < e.highbit by
      have := hend n hn; simp only [mapsize] at this; omega) (Nat.zero_le _)
  omega

/-- A canonical bitmap is read back as it was written. -/
theorem read_write (h : e.Canonical) {mem : Nat} (hmem : e.node.length ≤ mem) (fp : PolicyFile) :
    read mem (write e ++ fp) = some (e, fp) := by
  have hhighbit : (BitVec.ofNat 32 e.highbit).toNat = e.highbit := by
    rw [BitVec.toNat_ofNat, Nat.mod_eq_of_lt h.word]
  have hlength : (BitVec.ofNat 32 e.node.length).toNat = e.node.length := by
    rw [BitVec.toNat_ofNat, Nat.mod_eq_of_lt h.length_lt]
  simp only [read, write, putLe32s, flatMap_cons, flatMap_nil, append_nil, append_assoc,
    nextLe32_putLe32, bind_eq_bind, bind_some]
  rw [if_neg (by decide)]
  obtain ⟨node, highbit⟩ := e
  have hnodesEnd : highbit = nodesEnd node := h.highbit
  cases hlast : node.getLast? with
  | none =>
    obtain rfl := getLast?_eq_none_iff.mp hlast
    obtain rfl : highbit = 0 := hnodesEnd
    rfl
  | some n =>
    have hn := mem_of_getLast? hlast
    have hsum : highbit = n.startbit + mapsize := by rw [hnodesEnd, nodesEnd, hlast]
    have haligned := Nat.mod_eq_zero_of_dvd (h.aligned n hn)
    have hne : BitVec.ofNat 32 highbit ≠ 0 := by
      intro hzero
      have hnat : highbit = 0 := hhighbit.symm.trans (congrArg BitVec.toNat hzero)
      simp only [mapsize] at hsum
      omega
    have hcount : BitVec.ofNat 32 node.length ≠ 0 := by
      intro hzero
      have hnat : node.length = 0 := hlength.symm.trans (congrArg BitVec.toNat hzero)
      exact absurd (length_pos_of_mem hn) (by omega)
    have hguard : ¬ (highbit % mapsize ≠ 0 ∨ BitVec.ofNat 32 node.length = 0) :=
      not_or.mpr ⟨not_not.mpr (by rw [hsum, Nat.add_mod_right, haligned]), hcount⟩
    have hread := readNodes_putNode h.word h.blocks h.end_le (l := none) (by simp) fp
    rw [if_neg hne, hhighbit, if_neg hguard, hlength, if_neg (Nat.not_lt.mpr hmem), hread,
      bind_some, hlast,
      if_neg (by simp [hsum])]

/-- What is written from a canonical bitmap is read back as that bitmap, and whatever is read is
canonical. -/
theorem read_write_and_canonical : (∀ e : EbitmapT, e.Canonical → ∀ mem, e.node.length ≤ mem →
      ∀ fp, read mem (write e ++ fp) = some (e, fp)) ∧
      ∀ mem fp e fp', read mem fp = some (e, fp') → e.Canonical :=
  ⟨fun _ h _ hmem fp => read_write h hmem fp, fun _ _ _ _ h => read_canonical h⟩

end EbitmapT

end SELinux.Sepol
