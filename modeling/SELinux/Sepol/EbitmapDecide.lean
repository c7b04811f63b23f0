import Mathlib.Data.Set.Card
import SELinux.Sepol.EbitmapOps
import SELinux.Sepol.EbitmapWalk

/-! Questions about bitmaps (`ebitmap.c`): whether two are equal, contain each other or meet, how
many bits are set and which is the highest one. Each function walks lists of nodes; for canonical
bitmaps it answers for the sets of their members. The order of security levels rests on
`ebitmap_contains`. -/
namespace SELinux.Sepol.EbitmapT

open List BitVec

/-! ## Model -/

/-- `__builtin_popcountll`. -/
def popcountll (map : BitVec 64) : Nat := (range mapsize).countP map.getLsbD

def cardinality (e : EbitmapT) : Nat :=
  e.node.foldl (fun count n => (count + popcountll n.map) % 2 ^ 32) 0

/-- The loop of `ebitmap_cmp`. -/
def cmpLoop : List EbitmapNode → List EbitmapNode → Bool
  | n1 :: next1, n2 :: next2 =>
    if n1.startbit = n2.startbit ∧ n1.map = n2.map then cmpLoop next1 next2 else false
  | [], [] => true
  | _, _ => false

def cmp (e1 e2 : EbitmapT) : Bool :=
  if e1.highbit ≠ e2.highbit then false else cmpLoop e1.node e2.node

/-- The `int` is the `unsigned int` that `ebitmap_cardinality` returns. -/
def hammingDistance (mem : Nat) (e1 e2 : EbitmapT) : Int :=
  if cmp e1 e2 then 0
  else
    match xor mem e1 e2 with
    | .error _ => -1
    | .ok tmp => (BitVec.ofNat 32 tmp.cardinality).toInt

/-- The loop of `ebitmap_contains`. -/
def containsLoop : List EbitmapNode → List EbitmapNode → Bool
  | n1 :: next1, n2 :: next2 =>
    if n1.startbit < n2.startbit then containsLoop next1 (n2 :: next2)
    else if n1.startbit = n2.startbit then
      if n1.map &&& n2.map ≠ n2.map then false else containsLoop next1 next2
    else false
  | _, n2 => n2.isEmpty

def contains (e1 e2 : EbitmapT) : Bool :=
  if e1.highbit < e2.highbit then false else containsLoop e1.node e2.node

/-- The loop of `ebitmap_match_any`. -/
def matchAnyLoop : List EbitmapNode → List EbitmapNode → Bool
  | n1 :: next1, n2 :: next2 =>
    if n1.startbit < n2.startbit then matchAnyLoop next1 (n2 :: next2)
    else if n2.startbit < n1.startbit then matchAnyLoop (n1 :: next1) next2
    else if n1.map &&& n2.map ≠ 0 then true
    else matchAnyLoop next1 next2
  | _, _ => false
termination_by l1 l2 => l1.length + l2.length

def matchAny (e1 e2 : EbitmapT) : Bool := matchAnyLoop e1.node e2.node

variable {map : BitVec 64} {s mem : Nat}

theorem toNat_shiftRight_one_lt (h : ¬ map >>> 1 = 0) : (map >>> 1).toNat < map.toNat := by
  have hpos : (map >>> 1).toNat ≠ 0 := fun hzero => h (eq_of_toNat_eq hzero)
  rw [toNat_ushiftRight, Nat.shiftRight_eq_div_pow] at hpos ⊢
  omega

/-- `while (map >>= 1) pos++`. -/
def topBit (map : BitVec 64) (pos : Nat) : Nat :=
  if map >>> 1 = 0 then pos else topBit (map >>> 1) (pos + 1)
termination_by map.toNat
decreasing_by exact toNat_shiftRight_one_lt ‹_›

def highestSetBit (e : EbitmapT) : Nat :=
  match e.node.getLast? with
  | none => 0
  | some n => (n.startbit + topBit n.map 0) % 2 ^ 32

/-! ## The members -/

/-- The set that a bitmap stands for. -/
def members (e : EbitmapT) : Set Nat := {x | e.getBit x = true}

section Members

variable {node l1 l2 : List EbitmapNode}

theorem nodup_nodeMembers (h : Blocks node) : (node.flatMap nodeMembers).Nodup := by
  rw [nodup_flatMap]
  refine ⟨fun n _ => ?_, ?_⟩
  · exact (nodup_range.filter _).map fun i j hij => Nat.add_left_cancel hij
  · refine h.ascend.imp_of_mem fun {a b} ha hb hab => ?_
    -- the nodes are at least 64 bits apart
    have hapart : a.startbit + mapsize ≤ b.startbit := by
      obtain ⟨i, hi⟩ := h.aligned a ha
      obtain ⟨j, hj⟩ := h.aligned b hb
      simp only [mapsize] at *
      omega
    intro x hx hy
    obtain ⟨i, hi, rfl⟩ := mem_map.mp hx
    obtain ⟨j, -, hij⟩ := mem_map.mp hy
    have hlt := mem_range.mp (mem_filter.mp hi).1
    omega

theorem length_nodeMembers (node : List EbitmapNode) :
    (node.flatMap nodeMembers).length = (node.map fun n => popcountll n.map).sum := by
  simp [nodeMembers, popcountll, countP_eq_length_filter]

theorem length_nodeMembers_lt (h : Blocks node) : (node.flatMap nodeMembers).length < 2 ^ 32 := by
  have hsub : node.flatMap nodeMembers ⊆ range (2 ^ 32 - 1) := by
    intro x hx
    obtain ⟨n, hn, hstart⟩ := exists_node_of_bitAt ((mem_flatMap_nodeMembers h).mp hx)
    have hword := h.word n hn
    have hlt := lt_startOf_add x
    rw [mem_range]
    omega
  have hle := (subperm_of_subset (nodup_nodeMembers h) hsub).length_le
  rw [length_range] at hle
  omega

theorem foldl_popcount (node : List EbitmapNode) (count : Nat)
    (hlt : count + (node.map fun n => popcountll n.map).sum < 2 ^ 32) :
    node.foldl (fun count n => (count + popcountll n.map) % 2 ^ 32) count =
      count + (node.map fun n => popcountll n.map).sum := by
  induction node generalizing count with
  | nil => rfl
  | cons n node ih =>
    rw [map_cons, sum_cons] at hlt ⊢
    rw [foldl_cons, Nat.mod_eq_of_lt (by omega), ih _ (by omega), Nat.add_assoc]

variable {e e1 e2 : EbitmapT}

theorem Canonical.mem_members (h : e.Canonical) {x : Nat} : x ∈ e.members ↔
    bitAt e.node x = true := by
  rw [members, Set.mem_ofPred_eq, h.getBit_eq]

theorem Canonical.members_eq (h : e.Canonical) :
    e.members = ↑(e.node.flatMap nodeMembers).toFinset := by
  ext x
  simp [h.mem_members, mem_flatMap_nodeMembers h.blocks]

theorem Canonical.ncard_members (h : e.Canonical) :
    e.members.ncard = (e.node.flatMap nodeMembers).length := by
  rw [h.members_eq, Set.ncard_coe_finset, toFinset_card_of_nodup (nodup_nodeMembers h.blocks)]

theorem Canonical.cardinality_eq (h : e.Canonical) : e.cardinality = e.members.ncard := by
  have hlt := length_nodeMembers_lt h.blocks
  rw [length_nodeMembers] at hlt
  rw [h.ncard_members, cardinality, foldl_popcount _ _ (by omega), Nat.zero_add, length_nodeMembers]

/-! ## Equality -/

theorem cmpLoop_iff : cmpLoop l1 l2 = true ↔ l1 = l2 := by
  fun_induction cmpLoop l1 l2 with
  | case1 n1 next1 n2 next2 heq ih =>
    have hn : n1 = n2 := by
      exact (EbitmapNode.mk.injEq ..).mpr heq
    rw [ih, hn, cons_inj_right]
  | case2 n1 next1 n2 next2 hne =>
    refine iff_of_false Bool.false_ne_true fun h => hne ?_
    simp_all
  | case3 => exact iff_of_true rfl rfl
  | case4 l1 l2 hcons hnil =>
    refine iff_of_false Bool.false_ne_true fun h => ?_
    subst h
    cases l1 with
    | nil => exact hnil rfl rfl
    | cons n next => exact hcons n next n next rfl rfl

theorem cmp_iff (h1 : e1.Canonical) (h2 : e2.Canonical) : cmp e1 e2 = true ↔
    e1.members = e2.members := by
  constructor
  · intro h
    rw [cmp] at h
    split_ifs at h
    ext x
    rw [h1.mem_members, h2.mem_members, cmpLoop_iff.mp h]
  · intro h
    have hnode : e1.node = e2.node := Ebitmap.blocks_ext h1.blocks h2.blocks fun x => by
      rw [Bool.eq_iff_iff, ← h1.mem_members, ← h2.mem_members, h]
    rw [cmp, h1.highbit, h2.highbit, hnode, if_neg (by simp), cmpLoop_iff]

/-! ## Inclusion and intersection -/

theorem wordAt_eq_zero_of_not_dvd (h : Blocks node) (hs : ¬ mapsize ∣ s) : wordAt node s = 0 :=
  wordAt_eq_zero fun n hn heq => hs (heq ▸ h.aligned n hn)

theorem bitAt_add {i : Nat} (hs : mapsize ∣ s) (hi : i < mapsize) :
    bitAt node (s + i) = (wordAt node s).getLsbD i := by
  have hstart : s = startOf (s + i) :=
    eq_startOf hs (Nat.le_add_right s i) (Nat.add_lt_add_left hi s)
  rw [bitAt, ← hstart, ← sub_startOf, ← hstart, Nat.add_sub_cancel_left]

theorem subset_iff_words (h1 : Blocks l1) (h2 : Blocks l2) :
    (∀ x, bitAt l2 x = true → bitAt l1 x = true) ↔
      ∀ s, wordAt l1 s &&& wordAt l2 s = wordAt l2 s := by
  constructor
  · intro h s
    by_cases hs : mapsize ∣ s
    · refine eq_of_getLsbD_eq fun i hi => ?_
      have hbit := h (s + i)
      rw [bitAt_add hs hi, bitAt_add hs hi] at hbit
      simpa using hbit
    · rw [wordAt_eq_zero_of_not_dvd h1 hs, wordAt_eq_zero_of_not_dvd h2 hs, BitVec.and_self]
  · intro h x hx
    rw [bitAt, ← h, getLsbD_and, Bool.and_eq_true] at hx
    exact hx.1

theorem meet_iff_words (h1 : Blocks l1) :
    (∃ x, bitAt l1 x = true ∧ bitAt l2 x = true) ↔ ∃ s, wordAt l1 s &&& wordAt l2 s ≠ 0 := by
  constructor
  · rintro ⟨x, hx1, hx2⟩
    refine ⟨startOf x, fun hzero => ?_⟩
    have hbit := congrArg (fun w => BitVec.getLsbD w (x % mapsize)) hzero
    rw [bitAt] at hx1 hx2
    simp [hx1, hx2] at hbit
  · rintro ⟨s, hs⟩
    by_contra hnone
    have hdvd : mapsize ∣ s := by
      by_contra hs'
      rw [wordAt_eq_zero_of_not_dvd h1 hs'] at hs
      exact hs zero_and
    refine hs (eq_of_getLsbD_eq fun i hi => ?_)
    rw [getLsbD_and, ← bitAt_add hdvd hi, ← bitAt_add hdvd hi]
    simp_all

theorem wordAt_of_lt (h : ∀ n ∈ node, s < n.startbit) : wordAt node s = 0#64 :=
  wordAt_eq_zero fun n hn => (h n hn).ne'

/-- Nodes that begin behind a start bit have nothing there. -/
theorem wordAt_before {n : EbitmapNode} (h : Blocks (n :: node)) (hs : s < n.startbit) :
    wordAt (n :: node) s = 0#64 :=
  wordAt_of_lt (forall_mem_cons.mpr
    ⟨hs, fun m hm => hs.trans ((pairwise_cons.mp h.ascend).1 m hm)⟩)

theorem containsLoop_iff (h1 : Blocks l1) (h2 : Blocks l2) :
    containsLoop l1 l2 = true ↔ ∀ s, wordAt l1 s &&& wordAt l2 s = wordAt l2 s := by
  fun_induction containsLoop l1 l2 with
  | case1 n1 next1 n2 next2 hlt ih =>
    rw [ih h1.of_cons h2]
    refine forall_congr' fun s => ?_
    rw [wordAt_cons n1]
    by_cases hs : n1.startbit = s
    · simp [wordAt_before h2 (hs ▸ hlt)]
    · rw [if_neg hs]
  | case2 n1 next1 n2 next2 hlt heq hmap =>
    refine iff_of_false Bool.false_ne_true fun h => hmap ?_
    have hs := h n1.startbit
    rwa [wordAt_cons, wordAt_cons, if_pos rfl, if_pos heq.symm] at hs
  | case3 n1 next1 n2 next2 hlt heq hmap ih =>
    rw [ih h1.of_cons h2.of_cons]
    obtain ⟨hn1, -⟩ := pairwise_cons.mp h1.ascend
    obtain ⟨hn2, -⟩ := pairwise_cons.mp h2.ascend
    refine forall_congr' fun s => ?_
    rw [wordAt_cons n1, wordAt_cons n2, ← heq]
    by_cases hs : n1.startbit = s
    · rw [if_pos hs, if_pos hs, wordAt_of_lt fun n hn => hs ▸ hn1 n hn,
        wordAt_of_lt fun n hn => hs ▸ heq ▸ hn2 n hn]
      exact iff_of_true BitVec.and_self (not_not.mp hmap)
    · rw [if_neg hs, if_neg hs]
  | case4 n1 next1 n2 next2 hlt hne =>
    refine iff_of_false Bool.false_ne_true fun h => h2.nonzero n2 mem_cons_self ?_
    have hs := h n2.startbit
    rw [wordAt_before h1 (by omega), wordAt_cons, if_pos rfl, zero_and] at hs
    exact hs.symm
  | case5 l1 l2 hcons =>
    cases l2 with
    | nil => simp
    | cons n2 next2 =>
      cases l1 with
      | cons n1 next1 => exact absurd rfl (hcons n1 next1 n2 next2 rfl)
      | nil =>
        refine iff_of_false (by simp) fun h => h2.nonzero n2 mem_cons_self ?_
        have hs := h n2.startbit
        rw [wordAt_of_lt (fun _ hn => absurd hn not_mem_nil), wordAt_cons, if_pos rfl,
          zero_and] at hs
        exact hs.symm

theorem matchAnyLoop_iff (h1 : Blocks l1) (h2 : Blocks l2) :
    matchAnyLoop l1 l2 = true ↔ ∃ s, wordAt l1 s &&& wordAt l2 s ≠ 0 := by
  fun_induction matchAnyLoop l1 l2 with
  | case1 n1 next1 n2 next2 hlt ih =>
    rw [ih h1.of_cons h2]
    refine exists_congr fun s => ?_
    rw [wordAt_cons n1]
    by_cases hs : n1.startbit = s
    · simp [wordAt_before h2 (hs ▸ hlt)]
    · rw [if_neg hs]
  | case2 n1 next1 n2 next2 hlt hlt' ih =>
    rw [ih h1 h2.of_cons]
    refine exists_congr fun s => ?_
    rw [wordAt_cons n2]
    by_cases hs : n2.startbit = s
    · simp [wordAt_before h1 (hs ▸ hlt')]
    · rw [if_neg hs]
  | case3 n1 next1 n2 next2 hlt hlt' hmap =>
    refine iff_of_true rfl ⟨n1.startbit, ?_⟩
    rwa [wordAt_cons, wordAt_cons, if_pos rfl, if_pos (by omega)]
  | case4 n1 next1 n2 next2 hlt hlt' hmap ih =>
    rw [ih h1.of_cons h2.of_cons]
    have heq : n1.startbit = n2.startbit := by omega
    obtain ⟨hn1, -⟩ := pairwise_cons.mp h1.ascend
    refine exists_congr fun s => ?_
    rw [wordAt_cons n1, wordAt_cons n2, ← heq]
    by_cases hs : n1.startbit = s
    · rw [if_pos hs, if_pos hs, wordAt_of_lt fun n hn => hs ▸ hn1 n hn, zero_and]
      exact iff_of_false (fun h => h rfl) hmap
    · rw [if_neg hs, if_neg hs]
  | case5 l1 l2 hcons =>
    refine iff_of_false Bool.false_ne_true ?_
    rintro ⟨s, hs⟩
    cases l1 with
    | nil => exact hs zero_and
    | cons n1 next1 =>
      cases l2 with
      | nil => exact hs and_zero
      | cons n2 next2 => exact hcons n1 next1 n2 next2 rfl rfl

/-- A set that contains another one does not end before it. -/
theorem nodesEnd_le_of_subset (h1 : Blocks l1) (h2 : Blocks l2)
    (hsubset : ∀ x, bitAt l2 x = true → bitAt l1 x = true) : nodesEnd l2 ≤ nodesEnd l1 := by
  refine (nodesEnd_le_iff h2.ascend).mpr fun n hn => ?_
  have hbit : ∃ i, ∃ _ : i < mapsize, n.map.getLsbD i = true := by
    by_contra hnone
    refine h2.nonzero n hn (eq_of_getLsbD_eq fun i hi => ?_)
    show n.map.getLsbD i = (0#64).getLsbD i
    rw [getLsbD_zero]
    exact Bool.eq_false_iff.mpr fun htrue => hnone ⟨i, hi, htrue⟩
  obtain ⟨i, hi, htrue⟩ := hbit
  have hin := hsubset (n.startbit + i) (by rw [bitAt_mem h2 hn hi]; exact htrue)
  obtain ⟨m, hm, hstart⟩ := exists_node_of_bitAt hin
  have hsame : n.startbit = m.startbit := by
    rw [hstart]
    exact eq_startOf (h2.aligned n hn) (Nat.le_add_right _ _) (Nat.add_lt_add_left hi _)
  rw [hsame]
  exact (nodesEnd_le_iff h1.ascend).mp (Nat.le_refl _) m hm

theorem contains_iff (h1 : e1.Canonical) (h2 : e2.Canonical) :
    contains e1 e2 = true ↔ e2.members ⊆ e1.members := by
  have hsubset : e2.members ⊆ e1.members ↔ ∀ x, bitAt e2.node x = true →
      bitAt e1.node x = true := by
    refine forall_congr' fun x => ?_
    rw [h1.mem_members, h2.mem_members]
  rw [hsubset, contains]
  by_cases hhigh : e1.highbit < e2.highbit
  · rw [if_pos hhigh]
    refine iff_of_false Bool.false_ne_true fun h => ?_
    have hle := nodesEnd_le_of_subset h1.blocks h2.blocks h
    rw [← h1.highbit, ← h2.highbit] at hle
    omega
  · rw [if_neg hhigh, containsLoop_iff h1.blocks h2.blocks, subset_iff_words h1.blocks h2.blocks]

theorem matchAny_iff (h1 : e1.Canonical) (h2 : e2.Canonical) :
    matchAny e1 e2 = true ↔ (e1.members ∩ e2.members).Nonempty := by
  rw [matchAny, matchAnyLoop_iff h1.blocks h2.blocks, ← meet_iff_words h1.blocks]
  refine exists_congr fun x => ?_
  rw [Set.mem_inter_iff, h1.mem_members, h2.mem_members]

/-! ## The highest bit -/

theorem topBit_eq (map : BitVec 64) (pos : Nat) : topBit map pos = pos + Nat.log2 map.toNat := by
  fun_induction topBit map pos with
  | case1 map pos hzero =>
    have hlt : map.toNat / 2 = 0 := by
      have htoNat := congrArg BitVec.toNat hzero
      rwa [toNat_ushiftRight, Nat.shiftRight_eq_div_pow] at htoNat
    rw [Nat.log2_def, if_neg (by omega), Nat.add_zero]
  | case2 map pos hne ih =>
    have hpos : (map >>> 1).toNat ≠ 0 := fun hzero => hne (eq_of_toNat_eq hzero)
    rw [toNat_ushiftRight, Nat.shiftRight_eq_div_pow, Nat.pow_one] at hpos ih
    rw [ih, Nat.log2_def map.toNat, if_pos (by omega)]
    omega

theorem topBit_spec (hne : map ≠ 0) : topBit map 0 < mapsize ∧ map.getLsbD (topBit map 0) = true ∧
      ∀ i, map.getLsbD i = true → i ≤ topBit map 0 := by
  have hpos : map.toNat ≠ 0 := fun hzero => hne (eq_of_toNat_eq hzero)
  rw [topBit_eq, Nat.zero_add]
  refine ⟨(Nat.log2_lt hpos).mpr map.isLt, Nat.testBit_log2 hpos, fun i hi => ?_⟩
  exact (Nat.le_log2 hpos).mpr (Nat.ge_two_pow_of_testBit hi)

theorem highestSetBit_spec (h : e.Canonical) :
    e.members = ∅ ∧ e.highestSetBit = 0 ∨ IsGreatest e.members e.highestSetBit := by
  rw [highestSetBit]
  cases hlast : e.node.getLast? with
  | none =>
    simp [h.members_eq, getLast?_eq_none_iff.mp hlast]
  | some n =>
    right
    have hn := mem_of_getLast? hlast
    obtain ⟨hlt, htop, hmax⟩ := topBit_spec (h.nonzero n hn)
    have hword := h.blocks.word n hn
    show IsGreatest e.members ((n.startbit + topBit n.map 0) % 2 ^ 32)
    rw [Nat.mod_eq_of_lt (by omega)]
    refine ⟨h.mem_members.mpr (by rw [bitAt_mem h.blocks hn hlt]; exact htop), fun x hx => ?_⟩
    rw [h.mem_members] at hx
    obtain ⟨m, hm, hstart⟩ := exists_node_of_bitAt hx
    -- no node starts behind the last one
    have hle : m.startbit + mapsize ≤ n.startbit + mapsize := by
      have hend := (nodesEnd_le_iff h.ascend).mp (Nat.le_refl _) m hm
      rwa [nodesEnd, hlast] at hend
    have hsplit := lt_startOf_add x
    have hstart_le := startOf_le x
    by_cases hsame : m.startbit = n.startbit
    · have hbit : n.map.getLsbD (x - n.startbit) = true := by
        rw [← bitAt_mem h.blocks hn (by omega), Nat.add_sub_cancel' (by omega)]
        exact hx
      have := hmax _ hbit
      omega
    · obtain ⟨i, hi⟩ := h.aligned m hm
      obtain ⟨j, hj⟩ := h.aligned n hn
      simp only [mapsize] at *
      omega

/-! ## The distance -/

theorem members_xor (h1 : e1.Canonical) (h2 : e2.Canonical) (h : xor mem e1 e2 = .ok e) :
    e.Canonical ∧ e.members = symmDiff e1.members e2.members := by
  obtain ⟨hcanonical, hbits⟩ := xor_spec h1 h2 h
  refine ⟨hcanonical, ?_⟩
  ext x
  rw [members, Set.mem_ofPred_eq, hbits, Set.mem_symmDiff]
  simp only [members, Set.mem_ofPred_eq]
  cases e1.getBit x <;> cases e2.getBit x <;> simp

theorem exists_xor (e1 e2 : EbitmapT) : ∃ mem e, xor mem e1 e2 = .ok e := by
  refine ⟨_, _, if_pos (Nat.le_refl _)⟩

theorem ncard_symmDiff_lt (h1 : e1.Canonical) (h2 : e2.Canonical) :
    (symmDiff e1.members e2.members).ncard < 2 ^ 32 := by
  obtain ⟨mem, e, h⟩ := exists_xor e1 e2
  obtain ⟨hcanonical, hmembers⟩ := members_xor h1 h2 h
  rw [← hmembers, hcanonical.ncard_members]
  exact length_nodeMembers_lt hcanonical.blocks

/-- The distance is the size of the difference, as an `int`. -/
theorem hammingDistance_eq (h1 : e1.Canonical) (h2 : e2.Canonical) (h : xor mem e1 e2 = .ok e) :
    hammingDistance mem e1 e2 = (BitVec.ofNat 32 (symmDiff e1.members e2.members).ncard).toInt := by
  obtain ⟨hcanonical, hmembers⟩ := members_xor h1 h2 h
  rw [hammingDistance]
  by_cases hcmp : cmp e1 e2 = true
  · simp [if_pos hcmp, (cmp_iff h1 h2).mp hcmp]
  · rw [if_neg hcmp, h, ← hmembers, ← hcanonical.cardinality_eq]

end Members

/-! ## Levels -/

/-- `struct mls_level`, with its categories as the code has them. -/
structure LevelT where
  sens : Nat
  cat : EbitmapT

/-- `mls_level_eq`. -/
def LevelT.eq (l1 l2 : LevelT) : Bool := l1.sens == l2.sens && cmp l1.cat l2.cat

/-- `mls_level_dom`. -/
def LevelT.dom (l1 l2 : LevelT) : Bool := decide (l2.sens ≤ l1.sens) && contains l1.cat l2.cat

section Levels

variable {l1 l2 l3 : LevelT} (h1 : l1.cat.Canonical)
include h1

theorem LevelT.dom_iff (h2 : l2.cat.Canonical) :
    l1.dom l2 = true ↔ l2.sens ≤ l1.sens ∧ l2.cat.members ⊆ l1.cat.members := by
  simp [dom, contains_iff h1 h2]

theorem LevelT.eq_iff (h2 : l2.cat.Canonical) :
    l1.eq l2 = true ↔ l1.sens = l2.sens ∧ l1.cat.members = l2.cat.members := by
  simp [eq, cmp_iff h1 h2]

theorem LevelT.dom_refl : l1.dom l1 = true :=
  (dom_iff h1 h1).mpr ⟨Nat.le_refl _, Set.Subset.refl _⟩

theorem LevelT.dom_trans (h2 : l2.cat.Canonical) (h3 : l3.cat.Canonical)
    (h12 : l1.dom l2 = true) (h23 : l2.dom l3 = true) : l1.dom l3 = true := by
  rw [dom_iff h1 h2] at h12
  rw [dom_iff h2 h3] at h23
  exact (dom_iff h1 h3).mpr ⟨h23.1.trans h12.1, h23.2.trans h12.2⟩

theorem LevelT.dom_antisymm_iff (h2 : l2.cat.Canonical) :
    l1.dom l2 = true ∧ l2.dom l1 = true ↔ l1.eq l2 = true := by
  rw [dom_iff h1 h2, dom_iff h2 h1, eq_iff h1 h2]
  constructor
  · rintro ⟨⟨hle, hsub⟩, hle', hsub'⟩
    exact ⟨Nat.le_antisymm hle' hle, hsub'.antisymm hsub⟩
  · simp_all

end Levels

/-- The functions answer for the sets that two bitmaps stand for. -/
structure Decides (a b : EbitmapT) : Prop where
  cmp : cmp a b = true ↔ a.members = b.members
  contains : contains a b = true ↔ b.members ⊆ a.members
  matchAny : matchAny a b = true ↔ (a.members ∩ b.members).Nonempty
  cardinality : a.cardinality = a.members.ncard
  highestSetBit : a.members = ∅ ∧ a.highestSetBit = 0 ∨ IsGreatest a.members a.highestSetBit
  /-- The distance, unless there is no memory for it. -/
  hammingDistance : ∀ mem, hammingDistance mem a b = (symmDiff a.members b.members).ncard ∨
    hammingDistance mem a b = -1 ∧ ∃ err, xor mem a b = .error err

/-- `mls_level_dom` is a partial order up to `mls_level_eq`. -/
def LevelsOrdered : Prop := ∀ l1 l2 l3 : LevelT, l1.cat.Canonical → l2.cat.Canonical →
    l3.cat.Canonical →
  l1.dom l1 = true ∧ (l1.dom l2 = true → l2.dom l3 = true → l1.dom l3 = true) ∧
    (l1.dom l2 = true ∧ l2.dom l1 = true ↔ l1.eq l2 = true)

theorem levelsOrdered : LevelsOrdered := fun _ _ _ h1 h2 h3 =>
  ⟨LevelT.dom_refl h1, LevelT.dom_trans h1 h2 h3, LevelT.dom_antisymm_iff h1 h2⟩

theorem toInt_ofNat_eq_iff {n : Nat} (hn : n < 2 ^ 32) : (BitVec.ofNat 32 n).toInt = (n : Int) ↔
    n < 2 ^ 31 := by
  rw [toInt_eq_toNat_cond, toNat_ofNat, Nat.mod_eq_of_lt hn]
  split_ifs <;> omega

/-- All answers are right if the distance fits into an `int`; the other functions and the order of
levels do not depend on that. -/
theorem decides_iff {a b : EbitmapT} (ha : a.Canonical) (hb : b.Canonical) :
    Decides a b ∧ LevelsOrdered ↔ (symmDiff a.members b.members).ncard < 2 ^ 31 := by
  have hlt := ncard_symmDiff_lt ha hb
  constructor
  · rintro ⟨h, -⟩
    obtain ⟨mem, e, hxor⟩ := exists_xor a b
    rcases h.hammingDistance mem with heq | ⟨-, err, herr⟩
    · rw [hammingDistance_eq ha hb hxor] at heq
      exact (toInt_ofNat_eq_iff hlt).mp heq
    · rw [hxor] at herr
      cases herr
  · intro hsmall
    refine ⟨⟨cmp_iff ha hb, contains_iff ha hb, matchAny_iff ha hb, ha.cardinality_eq,
      highestSetBit_spec ha,
      fun mem => ?_⟩, levelsOrdered⟩
    cases hxor : xor mem a b with
    | ok e =>
      rw [hammingDistance_eq ha hb hxor]
      exact .inl ((toInt_ofNat_eq_iff hlt).mpr hsmall)
    | error err =>
      by_cases hcmp : EbitmapT.cmp a b = true
      · simp [EbitmapT.hammingDistance, if_pos hcmp, (cmp_iff ha hb).mp hcmp]
      · simp [EbitmapT.hammingDistance, if_neg hcmp, hxor]

theorem decides_iff_blocks :
    let e1 : EbitmapT := { node := [⟨0, 5⟩, ⟨128, 1⟩], highbit := 192 }
    let e2 : EbitmapT := { node := [⟨0, 5⟩, ⟨64, 2⟩], highbit := 128 }
    Decides e1 e2 ∧ LevelsOrdered ↔ (symmDiff (members e1) (members e2)).ncard < 2 ^ 31 :=
  decides_iff (by decide) (by decide)

/-- A bitmap with every bit that can be set has the distance -64 from the empty one. -/
theorem hammingDistance_negative : ∃ room full mem, initRange room 0 (2 ^ 32 - 65) = .ok full ∧
    hammingDistance mem full {} = -64 ∧ ¬ Decides full {} := by
  have hinit : ∃ room full, initRange room 0 (2 ^ 32 - 65) = .ok full := by
    have hrange : ¬ 0 > 2 ^ 32 - 65 := by omega
    have hword :
        ¬ ((startOf 0 + mapsize) % 2 ^ 32 = 0 ∨
          (startOf (2 ^ 32 - 65) + mapsize) % 2 ^ 32 = 0) := by
      simp only [startOf, mapsize]
      omega
    simp only [initRange, if_neg hrange, if_neg hword]
    exact ⟨_, _, if_pos (Nat.le_refl _)⟩
  obtain ⟨room, full, hfull⟩ := hinit
  obtain ⟨hcanonical, hbits⟩ := initRange_spec (by decide) hfull
  have hempty : Canonical {} := by decide
  have hmembers : symmDiff full.members (members {}) = ↑(Finset.range (2 ^ 32 - 64)) := by
    ext x
    have hnot : x ∉ members {} := by
      rw [hempty.mem_members]
      simp [bitAt]
    rw [Set.mem_symmDiff, Finset.mem_coe, Finset.mem_range, members, Set.mem_ofPred_eq, hbits,
      decide_eq_true_iff]
    constructor
    · rintro (⟨hx, -⟩ | ⟨hx, -⟩)
      · omega
      · exact absurd hx hnot
    · exact fun hx => .inl ⟨by omega, hnot⟩
  have hcard : (symmDiff full.members (members {})).ncard = 2 ^ 32 - 64 := by
    rw [hmembers, Set.ncard_coe_finset, Finset.card_range]
  obtain ⟨mem, e, hxor⟩ := exists_xor full {}
  have hdistance : EbitmapT.hammingDistance mem full {} = -64 := by
    rw [hammingDistance_eq hcanonical hempty hxor, hcard]
    decide
  refine ⟨room, full, mem, hfull, hdistance, fun h => ?_⟩
  rcases h.hammingDistance mem with heq | ⟨-, err, herr⟩
  · rw [hdistance, hcard] at heq
    omega
  · rw [hxor] at herr
    cases herr

end SELinux.Sepol.EbitmapT
