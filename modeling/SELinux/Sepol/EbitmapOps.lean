import SELinux.Sepol.EbitmapNodes

/-! The operations on bitmaps keep the canonical form and are the set operations. Each
operation is described by the map it has at every start bit; the bits follow from that. -/
namespace SELinux.Sepol.EbitmapT

open EbitmapNode Lib List Option BitVec Nat

theorem allocNodes_ok {mem node highbit e} (h : allocNodes mem node highbit = .ok e) :
    e = { node, highbit } := by
  unfold allocNodes at h
  split_ifs at h
  exact (Except.ok.inj h).symm

/-! ## Merges -/

section Merge

variable {l1 l2 : List EbitmapNode}

theorem joinNodes_startbit {op} (a b : EbitmapNode) (_ : a.startbit = b.startbit) :
    (joinNodes op a b).startbit = a.startbit := rfl

theorem outerMerge_starts (h1 : Blocks l1) (h2 : Blocks l2) {op} {n : EbitmapNode}
    (hn : n ∈ outerMerge startbit (joinNodes op) l1 l2) :
    mapsize ∣ n.startbit ∧ n.startbit + mapsize < 2 ^ 32 := by
  rcases start_of_mem_outerMerge joinNodes_startbit hn with ⟨m, hm, hs⟩ | ⟨m, hm, hs⟩
  · exact hs ▸ ⟨h1.aligned m hm, h1.word m hm⟩
  · exact hs ▸ ⟨h2.aligned m hm, h2.word m hm⟩

theorem wordAt_outerMerge (h1 : Blocks l1) (h2 : Blocks l2) {op} (hl : ∀ w, op w 0 = w)
    (hr : ∀ w, op 0 w = w) (s : Nat) : wordAt (outerMerge startbit (joinNodes op) l1 l2) s =
      op (wordAt l1 s) (wordAt l2 s) := by
  unfold wordAt
  rw [blockAt_outerMerge joinNodes_startbit h1.ascend h2.ascend]
  cases blockAt startbit s l1 with
  | none => cases blockAt startbit s l2 <;> exact (hr _).symm
  | some n1 =>
    cases blockAt startbit s l2 with
    | none => exact (hl n1.map).symm
    | some n2 => rfl

theorem blocks_or (h1 : Blocks l1) (h2 : Blocks l2) :
    Blocks (outerMerge startbit (joinNodes (· ||| ·)) l1 l2) where
  ascend := startsAscend_outerMerge joinNodes_startbit h1.ascend h2.ascend
  aligned n hn := (outerMerge_starts h1 h2 hn).1
  word n hn := (outerMerge_starts h1 h2 hn).2
  nonzero n hn := by
    rcases mem_outerMerge hn with hn | hn | ⟨a, ha, b, -, -, rfl⟩
    · exact h1.nonzero n hn
    · exact h2.nonzero n hn
    · intro hzero
      exact h1.nonzero a ha (or_eq_zero_iff.mp hzero).1

theorem nodesEnd_or (h1 : Blocks l1) (h2 : Blocks l2) :
    nodesEnd (outerMerge startbit (joinNodes (· ||| ·)) l1 l2) =
      max (nodesEnd l1) (nodesEnd l2) := by
  -- both sides have the same upper bounds
  refine eq_of_forall_ge_iff fun b => ?_
  rw [Nat.max_le, nodesEnd_le_iff (blocks_or h1 h2).ascend, nodesEnd_le_iff h1.ascend,
    nodesEnd_le_iff h2.ascend]
  have hsome : ∀ (l : List EbitmapNode) (n : EbitmapNode), n ∈ l →
      (blockAt startbit n.startbit l).isSome = true := by
    intro l n hn
    rw [← isNone_eq_false_iff, Bool.eq_false_iff]
    intro hnone
    exact blockAt_eq_none.mp (isNone_iff_eq_none.mp hnone) n hn rfl
  have hstart : ∀ s : Nat, (∃ n ∈ l1, n.startbit = s) ∨ (∃ n ∈ l2, n.startbit = s) →
      ∃ n ∈ outerMerge startbit (joinNodes (· ||| ·)) l1 l2, n.startbit = s := by
    intro s hs
    have : (blockAt startbit s
        (outerMerge startbit (joinNodes (· ||| ·)) l1 l2)).isSome = true := by
      rw [blockAt_outerMerge joinNodes_startbit h1.ascend h2.ascend]
      rcases hs with ⟨n, hn, rfl⟩ | ⟨n, hn, rfl⟩
      · simp [hsome, hn]
      · simp [hsome, hn]
    obtain ⟨a, ha⟩ := isSome_iff_exists.mp this
    exact ⟨a, start_of_blockAt ha⟩
  constructor
  · intro hall
    refine ⟨fun n hn => ?_, fun n hn => ?_⟩
    · obtain ⟨m, hm, hs⟩ := hstart n.startbit (.inl ⟨n, hn, rfl⟩)
      exact hs ▸ hall m hm
    · obtain ⟨m, hm, hs⟩ := hstart n.startbit (.inr ⟨n, hn, rfl⟩)
      exact hs ▸ hall m hm
  · rintro ⟨hall1, hall2⟩ n hn
    rcases start_of_mem_outerMerge joinNodes_startbit hn with ⟨m, hm, hs⟩ | ⟨m, hm, hs⟩
    · exact hs ▸ hall1 m hm
    · exact hs ▸ hall2 m hm

theorem wordAt_filter {l : List EbitmapNode} (h : Lib.StartsAscend startbit l) (s : Nat) :
    wordAt (l.filter fun n => n.map != 0) s = wordAt l s := by
  induction l with
  | nil => rfl
  | cons n l ih =>
    obtain ⟨hn, hl⟩ := pairwise_cons.mp h
    rw [wordAt_cons]
    by_cases hzero : n.map = 0
    · rw [filter_cons_of_neg (by simp [hzero]), ih hl]
      split_ifs with hs
      · rw [hzero]
        exact wordAt_eq_zero fun m hm => hs ▸ (hn m hm).ne'
      · rfl
    · rw [filter_cons_of_pos (by exact bne_iff_ne.mpr hzero), wordAt_cons, ih hl]

theorem blocks_xor (h1 : Blocks l1) (h2 : Blocks l2) :
    Blocks ((outerMerge startbit (joinNodes (· ^^^ ·)) l1 l2).filter fun n => n.map != 0) where
  ascend := (startsAscend_outerMerge joinNodes_startbit h1.ascend h2.ascend).filter _
  aligned _ hn := (outerMerge_starts h1 h2 (mem_filter.mp hn).1).1
  word _ hn := (outerMerge_starts h1 h2 (mem_filter.mp hn).1).2
  nonzero _ hn := bne_iff_ne.mp (mem_filter.mp hn).2

theorem meetNodes_startbit (a b c : EbitmapNode) (_ : a.startbit = b.startbit)
    (h : meetNodes a b = some c) : c.startbit = a.startbit := by
  unfold meetNodes at h
  split_ifs at h
  rw [← some_inj.mp h]
  rfl

theorem blocks_and (h1 : Blocks l1) (h2 : Blocks l2) :
    Blocks (innerMerge startbit meetNodes l1 l2) where
  ascend := startsAscend_innerMerge meetNodes_startbit h1.ascend
  aligned n hn := by
    obtain ⟨m, hm, hs⟩ := start_of_mem_innerMerge meetNodes_startbit hn
    exact hs ▸ h1.aligned m hm
  word n hn := by
    obtain ⟨m, hm, hs⟩ := start_of_mem_innerMerge meetNodes_startbit hn
    exact hs ▸ h1.word m hm
  nonzero n hn := by
    have hascend : Lib.StartsAscend startbit
        (innerMerge startbit meetNodes l1 l2) :=
      startsAscend_innerMerge meetNodes_startbit h1.ascend
    have hat := hascend.blockAt_eq_some.mpr ⟨hn, rfl⟩
    rw [blockAt_innerMerge meetNodes_startbit h1.ascend h2.ascend] at hat
    obtain ⟨a, -, hat⟩ := bind_eq_some_iff.mp hat
    obtain ⟨b, -, hat⟩ := bind_eq_some_iff.mp hat
    unfold meetNodes at hat
    split_ifs at hat with hne
    rw [← some_inj.mp hat]
    exact hne

theorem wordAt_and (h1 : Blocks l1) (h2 : Blocks l2) (s : Nat) :
    wordAt (innerMerge startbit meetNodes l1 l2) s = wordAt l1 s &&& wordAt l2 s := by
  unfold wordAt
  rw [blockAt_innerMerge meetNodes_startbit h1.ascend h2.ascend]
  cases blockAt startbit s l1 with
  | none => simp
  | some n1 =>
    cases blockAt startbit s l2 with
    | none => simp
    | some n2 =>
      simp only [bind_some, map_some, getD_some, meetNodes]
      split_ifs with hne
      · rfl
      · rw [not_ne_iff.mp hne]
        rfl

end Merge

section Binary

variable {e1 e2 e : EbitmapT} {mem : Nat} (h1 : e1.Canonical) (h2 : e2.Canonical)
include h1 h2

theorem or_spec (h : or mem e1 e2 = .ok e) :
    e.Canonical ∧ ∀ x, e.getBit x = (e1.getBit x || e2.getBit x) := by
  obtain rfl := allocNodes_ok h
  have hend : (if e1.highbit > e2.highbit then e1.highbit else e2.highbit) =
      nodesEnd (outerMerge startbit (joinNodes (· ||| ·)) e1.node e2.node) := by
    rw [nodesEnd_or h1.blocks h2.blocks, ← h1.highbit, ← h2.highbit]
    split_ifs <;> omega
  have hcanonical := (blocks_or h1.blocks h2.blocks).canonical hend
  refine ⟨hcanonical, fun x => ?_⟩
  rw [hcanonical.getBit_eq, h1.getBit_eq, h2.getBit_eq]
  simp only [bitAt]
  rw [wordAt_outerMerge h1.blocks h2.blocks (fun _ => or_zero) fun _ => zero_or,
    getLsbD_or]

theorem union_spec (h : union mem e1 e2 = .ok e) :
    e.Canonical ∧ ∀ x, e.getBit x = (e1.getBit x || e2.getBit x) := by
  unfold union at h
  split at h
  · cases h
  · rename_i tmp htmp
    cases h
    exact or_spec h1 h2 htmp

theorem and_spec (h : and mem e1 e2 = .ok e) :
    e.Canonical ∧ ∀ x, e.getBit x = (e1.getBit x && e2.getBit x) := by
  obtain rfl := allocNodes_ok h
  have hblocks := blocks_and h1.blocks h2.blocks
  have hcanonical := hblocks.canonical hblocks.highbitOf_eq
  refine ⟨hcanonical, fun x => ?_⟩
  simp [hcanonical.getBit_eq, h1.getBit_eq, h2.getBit_eq, bitAt, wordAt_and h1.blocks h2.blocks]

theorem xor_spec (h : xor mem e1 e2 = .ok e) :
    e.Canonical ∧ ∀ x, e.getBit x = (e1.getBit x ^^ e2.getBit x) := by
  obtain rfl := allocNodes_ok h
  have hblocks := blocks_xor h1.blocks h2.blocks
  have hcanonical := hblocks.canonical hblocks.highbitOf_eq
  refine ⟨hcanonical, fun x => ?_⟩
  rw [hcanonical.getBit_eq, h1.getBit_eq, h2.getBit_eq]
  simp only [bitAt]
  rw [wordAt_filter (startsAscend_outerMerge joinNodes_startbit h1.ascend h2.ascend),
    wordAt_outerMerge h1.blocks h2.blocks (fun _ => xor_zero) fun _ => BitVec.zero_xor,
    getLsbD_xor]

end Binary

variable {e1 e : EbitmapT} {mem bit i maxbit minbit s : Nat} {prev : Option EbitmapNode}

theorem cpy_spec (h1 : e1.Canonical) (h : cpy mem e1 = .ok e) :
    e.Canonical ∧ ∀ x, e.getBit x = e1.getBit x := by
  obtain rfl := allocNodes_ok h
  exact ⟨h1, fun _ => rfl⟩

/-! ## Setting a bit -/

/-- The map of the node of a bit after the bit is written. -/
def writeBit (value : Bool) (bit : Nat) (w : BitVec 64) : BitVec 64 :=
  if value then w ||| mapbit (bit - startOf bit) else w &&& ~~~mapbit (bit - startOf bit)

theorem nodesEnd_append_cons (l : List EbitmapNode) (n : EbitmapNode) (node : List EbitmapNode) :
    nodesEnd (l ++ n :: node) = nodesEnd (n :: node) := by
  induction l with
  | nil => rfl
  | cons m l ih => simp [nodesEnd_cons, ih]

section SetBit

variable {highbit : Nat} {value : Bool}

/-- What the rest of the loop must have done, from a list of nodes. -/
structure SetBitSpec (bit : Nat) (value : Bool) (prev : Option EbitmapNode)
    (node : List EbitmapNode) (e : EbitmapT) : Prop where
  blocks : Blocks e.node
  highbit : e.highbit = nodesEnd (prev.toList ++ e.node)
  starts : ∀ n ∈ e.node, n.startbit = startOf bit ∨ ∃ m ∈ node, m.startbit = n.startbit
  words : ∀ s, wordAt e.node s =
    if s = startOf bit then writeBit value bit (wordAt node s) else wordAt node s

/-- The loop past the last node that starts before the bit. -/
theorem setBitSpec_new (hbit : startOf bit + mapsize < 2 ^ 32) {node}
    (hnode : Blocks node) (hbehind : ∀ n ∈ node, bit < n.startbit) {end'}
    (hend : end' = nodesEnd (prev.toList ++
      { startbit := startOf bit, map := mapbit (bit - startOf bit) } :: node)) :
    SetBitSpec bit true prev node
      { node := { startbit := startOf bit, map := mapbit (bit - startOf bit) } :: node
        highbit := end' } := by
  have hfirst : ∀ n ∈ node, startOf bit < n.startbit := fun n hn =>
    lt_of_le_of_lt (startOf_le bit) (hbehind n hn)
  have hlt : bit - startOf bit < mapsize := by
    have := lt_startOf_add bit
    have := startOf_le bit
    omega
  refine ⟨hnode.cons hfirst (dvd_startOf bit) (mapbit_ne_zero hlt) hbit, hend, fun n hn =>
    ?_, fun s => ?_⟩
  · rcases mem_cons.mp hn with rfl | hn
    · exact .inl rfl
    · exact .inr ⟨n, hn, rfl⟩
  · rw [wordAt_cons]
    by_cases hs : s = startOf bit
    · simp [hs, wordAt_eq_zero fun n hn => (hfirst n hn).ne', writeBit]
    · rw [if_neg (Ne.symm hs), if_neg hs]

theorem setBitSpec_same {node} (hnode : Blocks node)
    (hbehind : ∀ n ∈ node, bit < n.startbit) (hend : highbit = nodesEnd (prev.toList ++ node)) :
    SetBitSpec bit false prev node { node, highbit } := by
  refine ⟨hnode, hend, fun n hn => .inr ⟨n, hn, rfl⟩, fun s => ?_⟩
  split_ifs with hs
  · have hzero : wordAt node s = 0 := wordAt_eq_zero fun n hn => by
      have := hbehind n hn
      have := startOf_le bit
      omega
    rw [hzero, writeBit]
    simp
  · rfl

section Node

variable {n : EbitmapNode} {next : List EbitmapNode} (hnode : Blocks (n :: next))
  (hend : highbit = nodesEnd (prev.toList ++ n :: next))
include hnode hend

theorem setBitSpec_write (value : Bool) (hstart : n.startbit = startOf bit)
    (hmap : writeBit value bit n.map ≠ 0) : SetBitSpec bit value prev (n :: next)
      { node := { n with map := writeBit value bit n.map } :: next, highbit } := by
  have hn := (pairwise_cons.mp hnode.ascend).1
  refine ⟨hnode.of_cons.cons hn (hnode.aligned n mem_cons_self) hmap
    (hnode.word n mem_cons_self), ?_, fun m hm => ?_, fun s => ?_⟩
  · simp [hend, nodesEnd_append_cons, nodesEnd_cons]
  · rcases mem_cons.mp hm with rfl | hm
    · exact .inl hstart
    · exact .inr ⟨m, mem_cons_of_mem _ hm, rfl⟩
  · rw [wordAt_cons, wordAt_cons, ← hstart]
    by_cases hs : n.startbit = s
    · simp only [if_pos hs, if_pos hs.symm]
    · simp only [if_neg hs, if_neg (Ne.symm hs)]

theorem setBitSpec_drop (hprev : ∀ p ∈ prev, p.startbit + mapsize < 2 ^ 32)
    (hstart : n.startbit = startOf bit) (hmap : writeBit false bit n.map = 0) :
    SetBitSpec bit false prev (n :: next)
      { node := next, highbit := if next = [] then highbitOf prev.toList else highbit } := by
  have hn := (pairwise_cons.mp hnode.ascend).1
  refine ⟨hnode.of_cons, ?_, fun m hm => .inr ⟨m, mem_cons_of_mem _ hm, rfl⟩, fun s => ?_⟩
  · cases next with
    | nil =>
      cases prev with
      | none => rfl
      | some p => exact mod_eq_of_lt (hprev p rfl)
    | cons m next =>
      simp [hend, nodesEnd_append_cons, nodesEnd_cons]
  · rw [wordAt_cons, ← hstart]
    by_cases hs : n.startbit = s
    · rw [if_pos hs.symm, if_pos hs, hmap]
      exact wordAt_eq_zero fun m hm => hs ▸ (hn m hm).ne'
    · rw [if_neg (Ne.symm hs), if_neg hs]

omit hend in
theorem SetBitSpec.cons (hbehind : n.startbit + mapsize ≤ bit) {e}
    (h : SetBitSpec bit value (some n) next e) :
    SetBitSpec bit value prev (n :: next) { e with node := n :: e.node } := by
  have hn := (pairwise_cons.mp hnode.ascend).1
  have hlt : n.startbit < startOf bit := by
    have := lt_startOf_add bit
    omega
  refine ⟨h.blocks.cons (fun m hm => ?_) (hnode.aligned n mem_cons_self)
    (hnode.nonzero n mem_cons_self) (hnode.word n mem_cons_self), ?_, fun m hm => ?_, fun s => ?_⟩
  · rcases h.starts m hm with hs | ⟨k, hk, hs⟩
    · exact hs ▸ hlt
    · exact hs ▸ hn k hk
  · simp [h.highbit, nodesEnd_append_cons]
  · rcases mem_cons.mp hm with rfl | hm
    · simp
    · exact (h.starts m hm).imp_right fun ⟨k, hk, hs⟩ => ⟨k, mem_cons_of_mem _ hk, hs⟩
  · rw [wordAt_cons, wordAt_cons, h.words s]
    by_cases hs : n.startbit = s
    · rw [if_pos hs, if_neg (by omega), if_pos hs]
    · simp only [if_neg hs]

end Node

theorem setBitLoop_spec (hbit : startOf bit + mapsize < 2 ^ 32) {node}
    (hnode : Blocks node) {e} (hend : highbit = nodesEnd (prev.toList ++ node))
    (hprev : ∀ p ∈ prev, p.startbit + mapsize < 2 ^ 32)
    (h : setBitLoop mem bit value highbit prev node = .ok e) :
    SetBitSpec bit value prev node e := by
  induction node generalizing prev e with
  | nil =>
    cases value with
    | false =>
      obtain rfl := Except.ok.inj h
      exact setBitSpec_same hnode (by simp) hend
    | true =>
      obtain rfl := allocNodes_ok h
      exact setBitSpec_new hbit hnode (by simp) (by rw [nodesEnd_append_cons]; rfl)
  | cons n next ih =>
    have hn := (pairwise_cons.mp hnode.ascend).1
    rw [setBitLoop] at h
    by_cases hle : n.startbit ≤ bit
    · rw [if_pos hle] at h
      by_cases hlt : bit < n.startbit + mapsize
      · rw [if_pos hlt] at h
        have hstart := eq_startOf (hnode.aligned n mem_cons_self) hle hlt
        have hmapbit : mapbit (bit - n.startbit) = mapbit (bit - startOf bit) := by rw [hstart]
        rw [hmapbit] at h
        cases value with
        | true =>
          obtain rfl := Except.ok.inj h
          refine setBitSpec_write hnode hend true hstart fun hzero => ?_
          exact hnode.nonzero n mem_cons_self (or_eq_zero_iff.mp hzero).1
        | false =>
          by_cases hzero : n.map &&& ~~~mapbit (bit - startOf bit) = 0
          · rw [if_pos hzero] at h
            obtain rfl := Except.ok.inj h
            exact setBitSpec_drop hnode hend hprev hstart hzero
          · rw [if_neg hzero] at h
            obtain rfl := Except.ok.inj h
            exact setBitSpec_write hnode hend false hstart hzero
      · rw [if_neg hlt] at h
        cases hrest : setBitLoop mem bit value highbit (some n) next with
        | error err => simp [hrest, Except.map] at h
        | ok e' =>
          rw [hrest] at h
          obtain rfl := Except.ok.inj h
          refine SetBitSpec.cons hnode (Nat.le_of_not_lt hlt) (ih hnode.of_cons ?_ ?_ hrest)
          · rw [hend, nodesEnd_append_cons]
            rfl
          · intro p hp
            rw [← some_inj.mp hp]
            exact hnode.word n mem_cons_self
    · rw [if_neg hle] at h
      have hbehind : ∀ m ∈ n :: next, bit < m.startbit := by
        intro m hm
        rcases mem_cons.mp hm with rfl | hm
        · omega
        · have := hn m hm
          omega
      cases value with
      | false =>
        obtain rfl := Except.ok.inj h
        exact setBitSpec_same hnode hbehind hend
      | true =>
        cases hnew : allocNodes mem [{ startbit := startOf bit, map := mapbit (bit - startOf bit) }]
            highbit with
        | error err => simp [hnew, Except.map] at h
        | ok e' =>
          obtain rfl := allocNodes_ok hnew
          simp only [Bool.not_true, Bool.false_eq_true, if_false, hnew, Except.map] at h
          obtain rfl := Except.ok.inj h
          refine setBitSpec_new hbit hnode hbehind ?_
          simp [hend, nodesEnd_append_cons, nodesEnd_cons _ (n :: next)]

end SetBit

theorem startOf_word (hbit : bit < 2 ^ 32) :
    (startOf bit + mapsize) % 2 ^ 32 = 0 ↔ 2 ^ 32 - mapsize ≤ bit := by
  simp only [startOf, mapsize]
  omega

/-- A bit of the last 64 of the 32-bit range is refused. -/
theorem setBit_last (e : EbitmapT) (mem : Nat) (value : Bool) (hbit : bit < 2 ^ 32)
    (hlast : 2 ^ 32 - mapsize ≤ bit) : setBit mem e bit value = .error einval := by
  rw [setBit, if_pos ((startOf_word hbit).mpr hlast)]

theorem getLsbD_writeBit {value bit i} (hi : i < mapsize) (w : BitVec 64) :
    (writeBit value bit w).getLsbD i = if i = bit % mapsize then value else w.getLsbD i := by
  cases value with
  | true =>
    rw [writeBit, if_pos rfl, getLsbD_or, sub_startOf, getLsbD_mapbit hi]
    by_cases h : i = bit % mapsize <;> simp [h]
  | false =>
    simp only [mapsize] at hi
    rw [writeBit, if_neg Bool.false_ne_true, getLsbD_and, getLsbD_not, sub_startOf,
      getLsbD_mapbit hi]
    by_cases h : i = bit % mapsize <;> simp [h, hi]

theorem setBit_spec {mem bit value} (h1 : e1.Canonical) (hbit : bit < 2 ^ 32)
    (h : setBit mem e1 bit value = .ok e) :
    e.Canonical ∧ ∀ x, e.getBit x = if x = bit then value else e1.getBit x := by
  unfold setBit at h
  split_ifs at h with hlast
  rw [startOf_word hbit] at hlast
  have hword : startOf bit + mapsize < 2 ^ 32 := by
    simp only [startOf, mapsize] at *
    omega
  have hspec := setBitLoop_spec hword h1.blocks h1.highbit (by simp) h
  have hcanonical : e.Canonical := hspec.blocks.canonical hspec.highbit
  refine ⟨hcanonical, fun x => ?_⟩
  have hx : x % mapsize < mapsize := mod_lt _ (by decide)
  rw [hcanonical.getBit_eq, h1.getBit_eq, bitAt, bitAt, hspec.words]
  by_cases hstart : startOf x = startOf bit
  · rw [if_pos hstart, getLsbD_writeBit hx]
    have heq : x % mapsize = bit % mapsize ↔ x = bit := by
      simp only [startOf, mapsize] at *
      omega
    simp only [heq]
  · rw [if_neg hstart, if_neg fun heq => hstart (by rw [heq])]

/-! ## Complement -/

theorem getLsbD_mapbit_sub_one {k : Nat} (hk : k < mapsize) (hi : i < mapsize) :
    (mapbit k - 1).getLsbD i = decide (i < k) := by
  simp only [mapsize] at hk hi
  have hpow : 2 ^ k < 2 ^ 64 := Nat.pow_lt_pow_right (by decide) hk
  have hpos := Nat.two_pow_pos k
  have hmask : mapbit k - 1 = BitVec.ofNat 64 (2 ^ k - 1) := by
    have hbit : (mapbit k).toNat = 2 ^ k := by
      rw [mapbit, toNat_shiftLeft, Nat.shiftLeft_eq, toNat_one (by decide), Nat.one_mul,
        mod_eq_of_lt hpow]
    apply eq_of_toNat_eq
    rw [toNat_sub, hbit, toNat_ofNat]
    show (2 ^ 64 - 1 + 2 ^ k) % 2 ^ 64 = (2 ^ k - 1) % 2 ^ 64
    omega
  rw [hmask, getLsbD_ofNat, testBit_two_pow_sub_one]
  simp [hi]

theorem getLsbD_notMap {cur : Nat} (hi : i < mapsize) (map : BitVec 64) :
    (notMap maxbit cur map).getLsbD i = (!map.getLsbD i && decide (i < maxbit - cur)) := by
  have hi' : i < 64 := hi
  unfold notMap
  split_ifs with hlast
  · rw [getLsbD_and, getLsbD_not, getLsbD_mapbit_sub_one hlast hi]
    simp [hi']
  · have hlt : i < maxbit - cur := by omega
    simp [hi', hlt]

/-- The nodes that the loop makes from `cur` on. -/
structure NotSpec (maxbit cur : Nat) (n node : List EbitmapNode) : Prop where
  blocks : Blocks node
  starts : ∀ m ∈ node, cur ≤ m.startbit
  words : ∀ s, wordAt node s =
    if cur ≤ s ∧ s < maxbit ∧ mapsize ∣ s then notMap maxbit s (wordAt n s) else 0

theorem notSpec_end {maxbit cur} (h : maxbit ≤ cur) {n} : NotSpec maxbit cur n [] := by
  refine ⟨⟨.nil, by simp, by simp, by simp⟩, by simp, fun s => ?_⟩
  rw [if_neg (by omega)]
  rfl

theorem NotSpec.round {maxbit cur} (hmax : maxbit ≤ 2 ^ 32 - mapsize) (hcur : cur < maxbit)
    (hdvd : mapsize ∣ cur) {n n' rest} (hrest : NotSpec maxbit (cur + mapsize) n' rest)
    (hn : ∀ s, cur < s → wordAt n' s = wordAt n s) : NotSpec maxbit cur n
      (if notMap maxbit cur (wordAt n cur) ≠ 0 then
        { startbit := cur, map := notMap maxbit cur (wordAt n cur) } :: rest else rest) := by
  have hpos : 0 < mapsize := by decide
  have hwords : ∀ s, s ≠ cur → wordAt rest s =
      if cur ≤ s ∧ s < maxbit ∧ mapsize ∣ s then notMap maxbit s (wordAt n s) else 0 := by
    intro s hs
    rw [hrest.words s]
    by_cases hlt : cur < s
    · rw [hn s hlt]
      congr 1
      rw [eq_iff_iff]
      exact and_congr_left fun ⟨_, hdvd'⟩ =>
        ⟨fun h => by omega, fun _ => add_mapsize_le hdvd hdvd' hlt⟩
    · rw [if_neg (by omega), if_neg (by omega)]
  have hzero : wordAt rest cur = 0 := wordAt_eq_zero fun m hm => by
    have := hrest.starts m hm
    omega
  split_ifs with hmap
  · refine ⟨hrest.blocks.cons (fun m hm => ?_) hdvd hmap ?_, fun m hm => ?_, fun s => ?_⟩
    · have := hrest.starts m hm
      show cur < m.startbit
      omega
    · obtain ⟨a, rfl⟩ := hdvd
      simp only [mapsize] at *
      omega
    · rcases mem_cons.mp hm with rfl | hm
      · exact le_refl _
      · have := hrest.starts m hm
        omega
    · rw [wordAt_cons]
      by_cases hs : cur = s
      · subst hs
        rw [if_pos rfl, if_pos ⟨le_refl _, hcur, hdvd⟩]
      · rw [if_neg hs, hwords s (Ne.symm hs)]
  · refine ⟨hrest.blocks, fun m hm => ?_, fun s => ?_⟩
    · have := hrest.starts m hm
      omega
    · by_cases hs : s = cur
      · simp [hs, hzero, not_ne_iff.mp hmap]
      · exact hwords s hs

/-- What the loop takes from the other bitmap. -/
theorem notNode_spec {cur n} (hn : Lib.StartsAscend startbit n)
    (haligned : ∀ m ∈ n, mapsize ∣ m.startbit) (hdvd : mapsize ∣ cur)
    (hstarts : ∀ m ∈ n, cur ≤ m.startbit) : (notNode cur n).1 = wordAt n cur ∧
    Lib.StartsAscend startbit (notNode cur n).2 ∧
    (∀ m ∈ (notNode cur n).2, mapsize ∣ m.startbit ∧ cur + mapsize ≤ m.startbit) ∧
    ∀ s, cur < s → wordAt (notNode cur n).2 s = wordAt n s := by
  cases n with
  | nil => simp [notNode, Lib.StartsAscend]
  | cons m next =>
    obtain ⟨hm, hnext⟩ := pairwise_cons.mp hn
    have hbehind : ∀ k ∈ m :: next, cur < k.startbit → cur + mapsize ≤ k.startbit := fun k hk =>
      add_mapsize_le hdvd (haligned k hk)
    have hcur := hstarts m mem_cons_self
    rw [notNode, wordAt_cons]
    split_ifs with hs
    · refine ⟨rfl, hnext, fun k hk => ?_, fun s hlt => ?_⟩
      · have hk' := mem_cons_of_mem m hk
        exact ⟨haligned k hk', hbehind k hk' (hs ▸ hm k hk)⟩
      · rw [wordAt_cons, if_neg (by omega)]
    · refine ⟨?_, hn, fun k hk => ⟨haligned k hk, hbehind k hk ?_⟩, fun _ _ => rfl⟩
      · refine (wordAt_eq_zero fun k hk => ?_).symm
        have := hm k hk
        omega
      · rcases mem_cons.mp hk with rfl | hk
        · omega
        · have := hm k hk
          omega

theorem notLoop_spec {maxbit} (hmax : maxbit ≤ 2 ^ 32 - mapsize) (rounds : Nat) {cur}
    (hdvd : mapsize ∣ cur) (hrounds : maxbit ≤ cur + mapsize * rounds) {n}
    (hn : Lib.StartsAscend startbit n) (haligned : ∀ m ∈ n, mapsize ∣ m.startbit)
    (hstarts : ∀ m ∈ n, cur ≤ m.startbit) :
    ∃ node, notLoop maxbit (rounds + 1) cur n = some node ∧ NotSpec maxbit cur n node := by
  induction rounds generalizing cur n with
  | zero =>
    rw [notLoop, if_neg (by omega)]
    exact ⟨[], rfl, notSpec_end (by omega)⟩
  | succ rounds ih =>
    rw [notLoop]
    by_cases hcur : cur < maxbit
    · rw [if_pos hcur]
      obtain ⟨hmap, hascend, hrest, hwords⟩ := notNode_spec hn haligned hdvd hstarts
      have hword : (cur + mapsize) % 2 ^ 32 = cur + mapsize := by
        obtain ⟨a, rfl⟩ := hdvd
        simp only [mapsize] at *
        omega
      obtain ⟨node, hnode, hspec⟩ := ih (Nat.dvd_add hdvd (Nat.dvd_refl _))
        (by rw [Nat.mul_succ] at hrounds; omega) hascend (fun m hm => (hrest m hm).1)
        fun m hm => (hrest m hm).2
      rw [hword, hnode, hmap]
      exact ⟨_, rfl, hspec.round hmax hcur hdvd hwords⟩
    · rw [if_neg hcur]
      exact ⟨[], rfl, notSpec_end (by omega)⟩

/-- Past the last block of the 32-bit range the loop starts anew. -/
theorem notLoop_wraps {maxbit} (hmax : 2 ^ 32 - mapsize < maxbit) {cur} (hdvd : mapsize ∣ cur)
    (hcur : cur < 2 ^ 32) (rounds : Nat) (n : List EbitmapNode) :
    notLoop maxbit rounds cur n = none := by
  induction rounds generalizing cur n with
  | zero => rfl
  | succ rounds ih =>
    have hlt : cur < maxbit := by
      obtain ⟨a, rfl⟩ := hdvd
      simp only [mapsize] at *
      omega
    have hnext : mapsize ∣ (cur + mapsize) % 2 ^ 32 := by
      obtain ⟨a, rfl⟩ := hdvd
      simp only [mapsize] at *
      omega
    rw [notLoop, if_pos hlt, ih hnext (mod_lt _ (by decide))]
    rfl

theorem not_spec {mem maxbit} (h1 : e1.Canonical) (h : not mem e1 maxbit = .ok e) :
    e.Canonical ∧ ∀ x, e.getBit x = (!e1.getBit x && decide (x < maxbit)) := by
  by_cases hmax : maxbit ≤ 2 ^ 32 - mapsize
  · obtain ⟨node, hnode, hspec⟩ := notLoop_spec hmax (2 ^ 26) (Nat.dvd_zero _)
      (by simp only [mapsize] at *; omega) h1.ascend h1.aligned fun m _ => zero_le m.startbit
    rw [not, hnode] at h
    obtain rfl := allocNodes_ok h
    have hcanonical := hspec.blocks.canonical hspec.blocks.highbitOf_eq
    refine ⟨hcanonical, fun x => ?_⟩
    have hx : x % mapsize < mapsize := mod_lt _ (by decide)
    rw [hcanonical.getBit_eq, h1.getBit_eq]
    simp only [bitAt]
    rw [hspec.words]
    by_cases hlt : startOf x < maxbit
    · rw [if_pos ⟨zero_le _, hlt, dvd_startOf x⟩, getLsbD_notMap hx]
      congr 2
      rw [eq_iff_iff, ← sub_startOf]
      have := startOf_le x
      omega
    · have := startOf_le x
      rw [if_neg (by omega), decide_eq_false (by omega)]
      simp
  · rw [not, notLoop_wraps (Nat.lt_of_not_le hmax) (Nat.dvd_zero _) (Nat.two_pow_pos 32)] at h
    cases h

theorem not_total (h1 : e1.Canonical) (hmax : maxbit ≤ 2 ^ 32 - mapsize) :
    ∃ mem e, not mem e1 maxbit = .ok e := by
  obtain ⟨node, hnode, -⟩ := notLoop_spec hmax (2 ^ 26) (Nat.dvd_zero _)
    (by simp only [mapsize] at *; omega) h1.ascend h1.aligned fun m _ => zero_le m.startbit
  refine ⟨node.length, { node, highbit := highbitOf node }, ?_⟩
  rw [not, hnode]
  exact if_pos (le_refl _)

/-- `ebitmap_not` comes to an end as long as it gets the memory it asks for, and what it returns is
the complement. -/
def NotComplements (e1 : EbitmapT) (maxbit : Nat) : Prop :=
  (∃ rounds node, notLoop maxbit rounds 0 e1.node = some node) ∧
    ∀ mem e, not mem e1 maxbit = .ok e →
      e.Canonical ∧ ∀ x, e.getBit x = (!e1.getBit x && decide (x < maxbit))

/-- For a `maxbit` in the last 64 bits of the range, the start bit wraps around before it reaches
`maxbit`. -/
theorem notComplements_iff {e1 : EbitmapT} (h1 : e1.Canonical) (maxbit : Nat) :
    NotComplements e1 maxbit ↔ maxbit ≤ 2 ^ 32 - mapsize := by
  constructor
  · rintro ⟨⟨rounds, node, hend⟩, -⟩
    by_contra hmax
    rw [notLoop_wraps (Nat.lt_of_not_le hmax) (Nat.dvd_zero _) (Nat.two_pow_pos 32)] at hend
    cases hend
  · intro hmax
    obtain ⟨node, hnode, -⟩ := notLoop_spec hmax (2 ^ 26) (Nat.dvd_zero _)
      (by simp only [mapsize] at *; omega) h1.ascend h1.aligned fun m _ => zero_le m.startbit
    exact ⟨⟨2 ^ 26 + 1, node, hnode⟩, fun mem e h => not_spec h1 h⟩

theorem notComplements_iff_blocks :
    NotComplements { node := [⟨0, 5⟩, ⟨128, 1⟩], highbit := 192 } 70 :=
  (notComplements_iff (by decide) 70).mpr (by decide)

/-- The complement of the empty bitmap up to `UINT_MAX` is never finished, however long the loop
runs. -/
theorem notComplements_uintMax : ¬ NotComplements {} (2 ^ 32 - 1) ∧
    ∀ rounds, notLoop (2 ^ 32 - 1) rounds 0 [] = none := by
  have hwraps : ∀ rounds, notLoop (2 ^ 32 - 1) rounds 0 [] = none := fun rounds =>
    notLoop_wraps (by decide) (Nat.dvd_zero _) (Nat.two_pow_pos 32) rounds []
  refine ⟨?_, hwraps⟩
  rintro ⟨⟨rounds, node, hend⟩, -⟩
  rw [hwraps rounds] at hend
  cases hend

theorem andnot_spec {e2 : EbitmapT} (h1 : e1.Canonical) (h2 : e2.Canonical)
    (h : andnot mem e1 e2 maxbit = .ok e) :
    e.Canonical ∧ ∀ x, e.getBit x = (e1.getBit x && !e2.getBit x && decide (x < maxbit)) := by
  unfold andnot at h
  split at h
  · cases h
  · rename_i e3 hnot
    obtain ⟨h3, hbits⟩ := not_spec h2 hnot
    obtain ⟨hcanonical, hand⟩ := and_spec h1 h3 h
    refine ⟨hcanonical, fun x => ?_⟩
    rw [hand, hbits, Bool.and_assoc]

/-! ## Ranges -/

theorem getLsbD_mapones : mapones.getLsbD i = decide (i < mapsize) := by
  rw [mapones, getLsbD_not, getLsbD_zero, Bool.not_false, Bool.and_true, mapsize]

theorem getLsbD_rangeMap (hle : minbit ≤ maxbit) (hdvd : mapsize ∣ s)
    (hmin : startOf minbit ≤ s) (hmax : s ≤ startOf maxbit) (hi : i < mapsize) :
    (rangeMap minbit maxbit s).getLsbD i = decide (minbit ≤ s + i ∧ s + i ≤ maxbit) := by
  have hminlt := lt_startOf_add minbit
  have hmaxlt := lt_startOf_add maxbit
  have hminle := startOf_le minbit
  have hmaxle := startOf_le maxbit
  have hi' : i < 64 := hi
  unfold rangeMap
  split_ifs with hmid hlow hhigh
  · have hafter := add_mapsize_le (dvd_startOf minbit) hdvd (by omega)
    have hbefore := add_mapsize_le hdvd (dvd_startOf maxbit) (by omega)
    rw [getLsbD_mapones, decide_eq_decide]
    omega
  · have hs : s = startOf minbit := by
      by_contra hne
      exact hmid ⟨hne, hlow⟩
    have hbefore := add_mapsize_le hdvd (dvd_startOf maxbit) (by omega)
    rw [getLsbD_shiftLeft, getLsbD_mapones, ← decide_not, ← Bool.decide_and, ← Bool.decide_and,
      decide_eq_decide]
    simp only [mapsize] at *
    omega
  · rw [not_ne_iff] at hlow
    have hafter := add_mapsize_le (dvd_startOf minbit) hdvd (by omega)
    rw [getLsbD_ushiftRight, getLsbD_mapones, decide_eq_decide]
    omega
  · rw [not_ne_iff] at hlow hhigh
    rw [getLsbD_shiftLeft, getLsbD_ushiftRight, getLsbD_mapones, ← decide_not,
      ← Bool.decide_and, ← Bool.decide_and, decide_eq_decide]
    simp only [mapsize] at *
    omega

theorem rangeMap_ne_zero (hle : minbit ≤ maxbit) (hdvd : mapsize ∣ s)
    (hmin : startOf minbit ≤ s) (hmax : s ≤ startOf maxbit) : rangeMap minbit maxbit s ≠ 0 := by
  intro hzero
  have hminlt := lt_startOf_add minbit
  have hmaxle := startOf_le maxbit
  have hi : max minbit s - s < mapsize := by
    simp only [mapsize] at *
    omega
  have hbit := getLsbD_rangeMap hle hdvd hmin hmax hi
  rw [hzero, ofNat_eq_ofNat, getLsbD_zero] at hbit
  have := decide_eq_false_iff_not.mp hbit.symm
  omega

theorem rangeLoop_spec {minbit maxbit} (hle : minbit ≤ maxbit)
    (hmaxbit : startOf maxbit + mapsize < 2 ^ 32) {n s} (hdvd : mapsize ∣ s)
    (hmin : startOf minbit ≤ s) (hend : s + mapsize * n = startOf maxbit + mapsize) :
    Blocks (rangeLoop minbit maxbit n s) ∧ (∀ m ∈ rangeLoop minbit maxbit n s, s ≤ m.startbit) ∧
    (0 < n → nodesEnd (rangeLoop minbit maxbit n s) = startOf maxbit + mapsize) ∧
    ∀ k, wordAt (rangeLoop minbit maxbit n s) k =
      if s ≤ k ∧ k ≤ startOf maxbit ∧ mapsize ∣ k then rangeMap minbit maxbit k else 0 := by
  induction n generalizing s with
  | zero =>
    refine ⟨⟨.nil, by simp [rangeLoop], by simp [rangeLoop], by simp [rangeLoop]⟩, by
      simp [rangeLoop],
      by simp, fun k => ?_⟩
    rw [if_neg (by simp only [mapsize] at *; omega)]
    rfl
  | succ n ih =>
    have hpos : 0 < mapsize := by decide
    rw [Nat.mul_succ] at hend
    obtain ⟨hblocks, hstarts, hlast, hwords⟩ :=
      ih (Nat.dvd_add hdvd (Nat.dvd_refl _)) (s := s + mapsize) (by omega) (by omega)
    have hmax : s ≤ startOf maxbit := by omega
    rw [rangeLoop]
    refine ⟨hblocks.cons (fun m hm => ?_) hdvd (rangeMap_ne_zero hle hdvd hmin hmax) ?_, fun m hm =>
      ?_,
      fun _ => ?_, fun k => ?_⟩
    · have := hstarts m hm
      show s < m.startbit
      omega
    · show s + mapsize < 2 ^ 32
      omega
    · rcases mem_cons.mp hm with rfl | hm
      · exact le_refl _
      · have := hstarts m hm
        omega
    · rw [nodesEnd_cons]
      cases n with
      | zero =>
        show s + mapsize = startOf maxbit + mapsize
        omega
      | succ n => rw [if_neg (by simp [rangeLoop]), hlast (succ_pos n)]
    · rw [wordAt_cons]
      by_cases hk : s = k
      · subst hk
        rw [if_pos rfl, if_pos ⟨le_refl _, hmax, hdvd⟩]
      · rw [if_neg hk, hwords]
        congr 1
        rw [eq_iff_iff]
        exact and_congr_left fun h =>
          ⟨fun h => by omega, fun _ => add_mapsize_le hdvd h.2 (by omega)⟩

theorem initRange_spec (hword : maxbit < 2 ^ 32) (h : initRange mem minbit maxbit = .ok e) :
    e.Canonical ∧ ∀ x, e.getBit x = decide (minbit ≤ x ∧ x ≤ maxbit) := by
  unfold initRange at h
  split_ifs at h with hle hover
  obtain rfl := allocNodes_ok h
  have hle : minbit ≤ maxbit := by omega
  rw [startOf_word hword, startOf_word (by omega)] at hover
  have hmaxbit : startOf maxbit + mapsize < 2 ^ 32 := by
    simp only [startOf, mapsize] at *
    omega
  have hmono : startOf minbit ≤ startOf maxbit := by
    simp only [startOf, mapsize]
    omega
  obtain ⟨hblocks, -, hlast, hwords⟩ :=
    rangeLoop_spec hle hmaxbit (dvd_startOf minbit) (le_refl _)
    (n := (startOf maxbit - startOf minbit) / mapsize + 1) (by
      simp only [startOf, mapsize] at *
      omega)
  rw [mod_eq_of_lt hmaxbit]
  have hcanonical := hblocks.canonical (hlast (succ_pos _)).symm
  refine ⟨hcanonical, fun x => ?_⟩
  rw [hcanonical.getBit_eq]
  simp only [bitAt]
  rw [hwords]
  have hx : x % mapsize < mapsize := mod_lt _ (by decide)
  by_cases hin : startOf minbit ≤ startOf x ∧ startOf x ≤ startOf maxbit
  · rw [if_pos ⟨hin.1, hin.2, dvd_startOf x⟩, getLsbD_rangeMap hle (dvd_startOf x) hin.1 hin.2 hx]
    have := startOf_le x
    rw [← sub_startOf, Nat.add_sub_cancel' this]
  · rw [if_neg (by tauto)]
    symm
    simp only [ofNat_eq_ofNat, getLsbD_zero, decide_eq_false_iff_not]
    simp only [startOf, mapsize] at *
    omega

/-! ## The operations as set operations -/

/-- A canonical bitmap with the given members. -/
def Represents (e : EbitmapT) (members : Nat → Bool) : Prop :=
  e.Canonical ∧ ∀ x, e.getBit x = members x

/-- Whatever an operation on canonical bitmaps returns is canonical and has the members of
the set operation. -/
theorem operations_represent {e1 e2 : EbitmapT} (h1 : e1.Canonical) (h2 : e2.Canonical)
    (mem : Nat) : (∀ bit < 2 ^ 32, ∀ value e, setBit mem e1 bit value = .ok e →
      e.Represents fun x => if x = bit then value else e1.getBit x) ∧
    (∀ e, or mem e1 e2 = .ok e → e.Represents fun x => e1.getBit x || e2.getBit x) ∧
    (∀ e, union mem e1 e2 = .ok e → e.Represents fun x => e1.getBit x || e2.getBit x) ∧
    (∀ e, and mem e1 e2 = .ok e → e.Represents fun x => e1.getBit x && e2.getBit x) ∧
    (∀ e, xor mem e1 e2 = .ok e → e.Represents fun x => e1.getBit x ^^ e2.getBit x) ∧
    (∀ maxbit e, not mem e1 maxbit = .ok e →
      e.Represents fun x => !e1.getBit x && decide (x < maxbit)) ∧
    (∀ maxbit ≤ 2 ^ 32 - mapsize, ∃ room e, not room e1 maxbit = .ok e) ∧
    (∀ maxbit e, andnot mem e1 e2 maxbit = .ok e →
      e.Represents fun x => e1.getBit x && !e2.getBit x && decide (x < maxbit)) ∧
    (∀ e, cpy mem e1 = .ok e → e.Represents e1.getBit) ∧
    (∀ minbit maxbit e, maxbit < 2 ^ 32 → initRange mem minbit maxbit = .ok e →
      e.Represents fun x => decide (minbit ≤ x ∧ x ≤ maxbit)) ∧
    (∀ bit < 2 ^ 32, 2 ^ 32 - mapsize ≤ bit → ∀ value, setBit mem e1 bit value = .error einval) :=
  ⟨fun _ hbit _ _ h => setBit_spec h1 hbit h, fun _ h => or_spec h1 h2 h, fun _ h =>
    union_spec h1 h2 h,
    fun _ h => and_spec h1 h2 h, fun _ h => xor_spec h1 h2 h, fun _ _ h => not_spec h1 h,
    fun _ hmax => not_total h1 hmax, fun _ _ h => andnot_spec h1 h2 h, fun _ h => cpy_spec h1 h,
    fun _ _ _ hword h => initRange_spec hword h, fun _ hbit hlast value =>
      setBit_last e1 mem value hbit hlast⟩

theorem operations_represent_xor : Canonical { node := [⟨0, 5⟩, ⟨128, 1⟩], highbit := 192 } ∧
    Canonical { node := [⟨0, 5⟩, ⟨64, 2⟩], highbit := 128 } ∧
    Represents { node := [⟨64, 2⟩, ⟨128, 1⟩], highbit := 192 } fun x =>
      getBit { node := [⟨0, 5⟩, ⟨128, 1⟩], highbit := 192 } x ^^
        getBit { node := [⟨0, 5⟩, ⟨64, 2⟩], highbit := 128 } x :=
  ⟨by decide, by decide, (operations_represent (by decide) (by decide) 4).2.2.2.2.1 _ (by
    simp [xor, Lib.outerMerge, joinNodes, allocNodes, highbitOf, mapsize])⟩

end SELinux.Sepol.EbitmapT
