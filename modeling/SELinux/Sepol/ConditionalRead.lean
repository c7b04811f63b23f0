import SELinux.Sepol.AvtabRead
import SELinux.Sepol.Decision

/-! Reading the conditionals of a kernel policy (`cond_read_list` in `conditional.c`).
Each rule goes into the conditional table as a node of its own, and onto the list that is
being read. Type rules are checked against the unconditional table and against the nodes
that are there already, so that for a source, a target, a class and a kind at most one
type rule is ever active. -/
namespace SELinux.Sepol

open List Option

/-! ## Model -/

def condLast : Nat := 7

def condExprOf (exprType bool : Nat) : CondExpr :=
  match exprType with
  | 1 => .bool bool
  | 2 => .not
  | 3 => .or
  | 4 => .and
  | 5 => .xor
  | 6 => .eq
  | 7 => .neq
  | t => .invalid t

/-- `expr_isvalid`: the Boolean is also checked in entries that do not use it. -/
def exprIsvalid (boolsNprim exprType bool : Nat) : Bool :=
  decide (0 < exprType) && decide (exprType ≤ condLast) && decide (bool ≤ boolsNprim)

def condReadExpr (boolsNprim : Nat) : Nat → PolicyFile → Option (List CondExpr × PolicyFile)
  | 0, fp => some ([], fp)
  | n + 1, fp => do
    let (exprType, fp) ← nextLe32 fp
    let (bool, fp) ← nextLe32 fp
    if exprIsvalid boolsNprim exprType.toNat bool.toNat then
      let (expr, fp) ← condReadExpr boolsNprim n fp
      some (condExprOf exprType.toNat bool.toNat :: expr, fp)
    else none

/-- The node that `cond_insertf` makes, and the list with it. -/
def condInsertNode (s : Avtab × List Nat) (k : AvtabKey) (d : AvtabDatum) :
    Option (Avtab × List Nat) :=
  if s.1.htable = [] then none
  else
    let addr := s.1.freshAddr
    some (avtabInsertNonunique s.1 { key := k, datum := d, addr := addr }, s.2 ++ [addr])

/-- `cond_insertf` on the conditional table and the list read so far; `other` is the true
list while the false list is read. -/
def condInsertf (te : Avtab) (other : List Nat) (s : Avtab × List Nat) (k : AvtabKey)
    (d : AvtabDatum) : Option (Avtab × List Nat) :=
  if k.specified &&& avtabType ≠ 0 then
    -- type rule already exists outside of a conditional
    if (avtabSearch te k).isSome then none
    else if other ≠ [] then
      match avtabSearchNode s.1 k with
      | [] => condInsertNode s k d
      | node :: next =>
        -- too many conflicting type rules
        if avtabSearchNodeNext k.specified (node :: next) ≠ [] then none
        else if node.addr ∈ other then condInsertNode s k d
        else none
    else if (avtabSearch s.1 k).isSome then none
    else condInsertNode s k d
  else condInsertNode s k d

def condReadAvList (vers : Nat) (te : Avtab) (other : List Nat) (fp : PolicyFile) (cond : Avtab) :
    Option (PolicyFile × Avtab × List Nat) := do
  let (len, fp) ← nextLe32 fp
  avtabReadItems (condInsertf te other) vers len.toNat fp (cond, [])

/-- `cond_read_node` of a kernel policy. The counts are of type `int`. -/
def condReadNode (vers boolsNprim : Nat) (te : Avtab) (addr : Nat) (fp : PolicyFile)
    (cond : Avtab) : Option (PolicyFile × Avtab × CondNode) := do
  let (curState, fp) ← nextLe32 fp
  let (len, fp) ← nextLe32 fp
  let (expr, fp) ← condReadExpr boolsNprim len.toInt.toNat fp
  let (fp, cond, trueList) ← condReadAvList vers te [] fp cond
  let (fp, cond, falseList) ← condReadAvList vers te trueList fp cond
  some (fp, cond, { addr, curState := curState.toInt, expr, trueList, falseList })

def condReadNodes (vers boolsNprim : Nat) (te : Avtab) :
    Nat → Nat → PolicyFile → Avtab → Option (PolicyFile × Avtab × List CondNode)
  | 0, _, fp, cond => some (fp, cond, [])
  | n + 1, addr, fp, cond => do
    let (fp, cond, node) ← condReadNode vers boolsNprim te addr fp cond
    let (fp, cond, nodes) ← condReadNodes vers boolsNprim te n (addr + 1) fp cond
    some (fp, cond, node :: nodes)

def condReadList (vers boolsNprim : Nat) (te : Avtab) (fp : PolicyFile) :
    Option (PolicyFile × Avtab × List CondNode) := do
  let (len, fp) ← nextLe32 fp
  condReadNodes vers boolsNprim te len.toInt.toNat 0 fp (avtabAlloc te.nel)

/-- `avtab_read` and `cond_read_list` of `policydb_read`: what is left of the file, and the
policy database with its two rule tables and its conditionals. -/
def readRules (vers boolsNprim : Nat) (fp : PolicyFile) : Option (PolicyFile × Policydb) := do
  let (fp, te) ← avtabRead vers fp
  let (fp, cond, conds) ← condReadList vers boolsNprim te fp
  some (fp, { policyvers := vers, teAvtab := te, teCondAvtab := cond, condList := conds })

/-! ## Type rules for the same source, target, class and kind -/

/-- The kinds of type rules. -/
def typeKinds : List (BitVec 16) := [avtabTransition, avtabMember, avtabChange]

/-- Both rules are of the kind, for the same source, target and class. -/
def SameRule (spec : BitVec 16) (a b : AvtabNode) : Prop :=
  a.key.same b.key = true ∧ a.isKind spec = true ∧ b.isKind spec = true

theorem AvtabKey.same_symm {a b : AvtabKey} (h : a.same b = true) : b.same a = true := by
  rw [AvtabKey.same_iff] at h ⊢
  exact ⟨h.1.symm, h.2.1.symm, h.2.2.symm⟩

theorem SameRule.symm {spec a b} (h : SameRule spec a b) :
    SameRule spec b a := ⟨AvtabKey.same_symm h.1, h.2.2, h.2.1⟩

/-- The kinds are single bits, none of them the enabled flag. -/
theorem typeKinds_bit {spec} (h : spec ∈ typeKinds) : ∃ i, i < 15 ∧ spec = BitVec.twoPow 16 i := by
  have hall : typeKinds.all (fun s => [4, 5, 6].any fun i => s == BitVec.twoPow 16 i) = true := by
    decide
  obtain ⟨i, hi, heq⟩ := any_eq_true.mp (all_eq_true.mp hall spec h)
  have hlt : i < 15 := by
    simp only [mem_cons, not_mem_nil, or_false] at hi
    omega
  exact ⟨i, hlt, beq_iff_eq.mp heq⟩

theorem and_twoPow_ne_zero {w} {x : BitVec w} {i} (hi : i < w) :
    x &&& BitVec.twoPow w i ≠ 0 ↔ x.getLsbD i = true := by
  rw [BitVec.and_twoPow]
  cases h : x.getLsbD i with
  | false => simp
  | true =>
    simp only [↓reduceIte, ne_eq, iff_true]
    intro h0
    have := congrArg (fun v => v.getLsbD i) h0
    simp [hi] at this

variable {n m : AvtabNode} {cur : CondNode}

theorem hits_of_sameRule {spec} (hspec : spec ∈ typeKinds) (h : SameRule spec n m) :
    n.key.hits n.key.spec m = true := by
  obtain ⟨hsame, hn, hm⟩ := h
  obtain ⟨i, hi, rfl⟩ := typeKinds_bit hspec
  have hi16 : i < 16 := by omega
  simp only [AvtabNode.isKind, bne_iff_ne] at hn hm
  rw [and_twoPow_ne_zero hi16] at hn hm
  refine AvtabKey.hits_iff.mpr ⟨hsame, fun h0 => ?_⟩
  have hflag : ∀ j < 15, avtabEnabled.getLsbD j = false := by decide
  have hbit := congrArg (fun v => v.getLsbD i) h0
  simp only [AvtabKey.spec, BitVec.getLsbD_and, BitVec.getLsbD_not, hn, hm, hflag i hi,
    hi16] at hbit
  simp at hbit

theorem SameRule.type {spec} (hspec : spec ∈ typeKinds) (h : SameRule spec n m) :
    n.key.specified &&& avtabType ≠ 0 := by
  intro h0
  have hkind : n.key.specified &&& spec ≠ 0 := by simpa [AvtabNode.isKind] using h.2.1
  have hsub : typeKinds.all (fun s => avtabType &&& s == s) = true := by decide
  have hs := beq_iff_eq.mp (all_eq_true.mp hsub spec hspec)
  rw [← hs, ← BitVec.and_assoc, h0] at hkind
  exact hkind (by simp)

variable {k : AvtabKey}

/-- A key of one kind that is a type rule is not for extended permissions. -/
theorem AvtabKey.OneSpec.not_xperms (h : k.OneSpec) {spec} (hspec : spec ∈ typeKinds)
    (hk : k.specified &&& spec ≠ 0) : k.specified &&& avtabXperms = 0 := by
  by_contra hx
  obtain ⟨x, hxmem, hxk⟩ : ∃ x ∈ [avtabXpermsAllowed, avtabXpermsAuditallow, avtabXpermsDontaudit],
      k.specified &&& x ≠ 0 := by
    have hsplit : avtabXperms =
        avtabXpermsAllowed ||| (avtabXpermsAuditallow ||| avtabXpermsDontaudit) := by decide
    by_contra hall
    simp only [mem_cons, not_mem_nil, or_false, not_exists, not_and, not_not] at hall
    rw [hsplit, BitVec.and_or_distrib_left, BitVec.and_or_distrib_left, hall _ (Or.inl rfl),
      hall _ (Or.inr (Or.inl rfl)),
      hall _ (Or.inr (Or.inr rfl))] at hx
    exact hx rfl
  obtain ⟨y, hy⟩ := length_eq_one_iff.mp h
  have hmem : ∀ z ∈ specOrder, k.specified &&& z ≠ 0 → z = y := by
    intro z hz hkz
    have : z ∈ specsOf k.specified := mem_filter.mpr ⟨hz, by simpa using hkz⟩
    rwa [hy, mem_singleton] at this
  have hkinds : typeKinds.all (fun a => specOrder.contains a &&
      [avtabXpermsAllowed, avtabXpermsAuditallow, avtabXpermsDontaudit].all fun b =>
        specOrder.contains b && a != b) = true := by decide
  have hpair := all_eq_true.mp hkinds spec hspec
  simp only [Bool.and_eq_true, contains_iff_mem] at hpair
  have hother := all_eq_true.mp hpair.2 x hxmem
  simp only [Bool.and_eq_true, contains_iff_mem, bne_iff_ne] at hother
  exact hother.2 ((hmem spec hpair.1 hk).trans (hmem x hother.1 hxk).symm)

/-! ## The unconditional table -/

/-- The unconditional table as it is read: type rules for one key are there once. -/
structure TypesOnce (te : Avtab) : Prop where
  wf : te.Wf
  slots : ∀ k, avtabHash k te.mask < te.htable.length
  once : ∀ spec ∈ typeKinds, te.nodes.Pairwise fun a b => ¬ SameRule spec a b

theorem TypesOnce.insert {te te'} (h : TypesOnce te) {d} (hk : k.OneSpec)
    (hins : avtabInsertf te k d = some te') : TypesOnce te' := by
  have hok : avtabInsert te k d = .ok te' := by
    rw [avtabInsertf] at hins
    cases hi : avtabInsert te k d with
    | error e => simp [hi, Except.toOption] at hins
    | ok t => simpa [hi, Except.toOption] using hins
  obtain ⟨hinserted, hmiss⟩ := avtabInsert_ok h.wf h.slots hok
  refine ⟨h.wf.insert hok, hinserted.slots h.slots, fun spec hspec => ?_⟩
  refine hinserted.nodes.symm.pairwise (pairwise_cons.mpr ⟨fun m hm hsame => ?_, h.once spec hspec⟩)
    fun hab hba => hab hba.symm
  -- a rule of this kind would have been found
  have hx : k.spec &&& avtabXperms = 0 := by
    rw [← AvtabKey.specified_and (by decide)]
    refine hk.not_xperms hspec ?_
    simpa [AvtabNode.isKind] using hsame.2.1
  have hhit : k.hits k.spec m = true := hits_of_sameRule hspec hsame
  rw [hmiss hx m hm] at hhit
  cases hhit

theorem avtabRead_typesOnce {vers fp fp' te} (h : avtabRead vers fp = some (fp', te)) :
    TypesOnce te := by
  obtain ⟨⟨nel, fp1⟩, -, h⟩ := bind_eq_some_iff.mp h
  dsimp only at h
  split_ifs at h with hnel
  have hnel' : nel.toNat ≠ 0 := by
    intro h0
    exact hnel (BitVec.eq_of_toNat_eq (by simpa using h0))
  have hmap := avtabAlloc_isMap hnel'
  refine avtabReadItems_inv (fun t k d t' hk ht hins => ht.insert hk hins) ?_ h
  exact ⟨hmap.wf, hmap.slots, by simp [avtabAlloc_nodes]⟩

/-! ## The conditional table -/

/-- The addresses on both lists of a conditional. -/
def CondNode.lists (c : CondNode) : List Nat := c.trueList ++ c.falseList

/-- One of the rules is on the true list and the other on the false list. -/
def CondNode.Opposite (c : CondNode) (a b : AvtabNode) : Prop :=
  (a.addr ∈ c.trueList ∧ b.addr ∈ c.falseList) ∨ (b.addr ∈ c.trueList ∧ a.addr ∈ c.falseList)

/-- The conditional table and the conditionals, while they are read: every node is on
exactly one list, no type rule is also in the unconditional table, and two type rules for
one key are on opposite lists of one conditional. -/
structure CondTable (te cond : Avtab) (conds : List CondNode) : Prop where
  placed : cond.htable ≠ [] → cond.Placed
  nodup : (conds.flatMap CondNode.lists).Nodup
  listed : ∀ a, a ∈ conds.flatMap CondNode.lists ↔ a ∈ cond.nodes.map AvtabNode.addr
  outside : ∀ spec ∈ typeKinds, ∀ a ∈ te.nodes, ∀ b ∈ cond.nodes, ¬ SameRule spec a b
  opposite : ∀ spec ∈ typeKinds, ∀ a ∈ cond.nodes, ∀ b ∈ cond.nodes, a.addr ≠ b.addr →
    SameRule spec a b → ∃ c ∈ conds, c.Opposite a b

theorem CondTable.alloc (te : Avtab) (nrules : Nat) : CondTable te (avtabAlloc nrules) [] := by
  refine ⟨fun hne => avtabAlloc_placed ?_, by simp, by simp [avtabAlloc_nodes],
    by simp [avtabAlloc_nodes], by simp [avtabAlloc_nodes]⟩
  rintro rfl
  exact hne rfl

theorem CondTable.insert {te cond : Avtab} {done} {cur' : CondNode}
    (h : CondTable te cond (done ++ [cur])) (hte : te.Wf) {d}
    (hne : cond.htable ≠ []) (hlists : cur'.lists = cur.lists ++ [cond.freshAddr])
    (htrue : cur.trueList ⊆ cur'.trueList) (hfalse : cur.falseList ⊆ cur'.falseList)
    (houtside : k.specified &&& avtabType ≠ 0 → avtabSearch te k = none)
    (hopposite : ∀ spec ∈ typeKinds, ∀ m ∈ cond.nodes,
      SameRule spec { key := k, datum := d, addr := cond.freshAddr } m →
      m.addr ∈ cur.trueList ∧ cond.freshAddr ∈ cur'.falseList) :
    CondTable te (avtabInsertNonunique cond { key := k, datum := d, addr := cond.freshAddr })
      (done ++ [cur']) := by
  have hplaced := h.placed hne
  have hfresh := cond.freshAddr_not_mem
  have hperm :
      (avtabInsertNonunique cond { key := k, datum := d, addr := cond.freshAddr }).nodes.Perm
      ({ key := k, datum := d, addr := cond.freshAddr } :: cond.nodes) :=
    avtabInsertNonunique_nodes (hplaced.slots k)
  have hflat : (done ++ [cur']).flatMap CondNode.lists =
      (done ++ [cur]).flatMap CondNode.lists ++ [cond.freshAddr] := by
    simp [hlists]
  -- what was opposite before is so now
  have hkeep : ∀ a b, (∃ c ∈ done ++ [cur], c.Opposite a b) →
      ∃ c ∈ done ++ [cur'], c.Opposite a b := by
    rintro a b ⟨c, hc, hab⟩
    rcases mem_append.mp hc with hc | hc
    · exact ⟨c, mem_append_left _ hc, hab⟩
    · rw [mem_singleton] at hc
      subst hc
      refine ⟨cur', by simp, hab.imp ?_ ?_⟩
      · exact fun ⟨ha, hb⟩ => ⟨htrue ha, hfalse hb⟩
      · exact fun ⟨hb, ha⟩ => ⟨htrue hb, hfalse ha⟩
  refine ⟨fun _ => hplaced.insertNonunique hfresh, ?_, fun a => ?_, ?_, ?_⟩
  · rw [hflat, nodup_append]
    refine ⟨h.nodup, nodup_singleton _, fun a ha b hb hab => ?_⟩
    rw [mem_singleton] at hb
    rw [h.listed, hab, hb] at ha
    exact hfresh ha
  · rw [hflat, mem_append, h.listed, (hperm.map AvtabNode.addr).mem_iff]
    simp [or_comm]
  · intro spec hspec a ha b hb hab
    rcases mem_cons.mp (hperm.subset hb) with rfl | hb
    · have hmiss := hte.not_hits (houtside (hab.symm.type hspec)) ha
      have hhit : k.hits k.spec a = true := hits_of_sameRule hspec hab.symm
      rw [hmiss] at hhit
      cases hhit
    · exact h.outside spec hspec a ha b hb hab
  · intro spec hspec a ha b hb hne hab
    rcases mem_cons.mp (hperm.subset ha) with rfl | ha
    · rcases mem_cons.mp (hperm.subset hb) with rfl | hb
      · exact absurd rfl hne
      · obtain ⟨hm, hnew⟩ := hopposite spec hspec b hb hab
        exact ⟨cur', by simp, Or.inr ⟨htrue hm, hnew⟩⟩
    · rcases mem_cons.mp (hperm.subset hb) with rfl | hb
      · obtain ⟨hm, hnew⟩ := hopposite spec hspec a ha hab.symm
        exact ⟨cur', by simp, Or.inl ⟨htrue hm, hnew⟩⟩
      · exact hkeep a b (h.opposite spec hspec a ha b hb hne hab)

theorem Avtab.Wf.eq_of_no_next {t : Avtab} (h : t.Wf) {node next}
    (hfirst : avtabSearchNode t k = node :: next)
    (hnext : avtabSearchNodeNext k.specified (node :: next) = []) {m} (hm : m ∈ t.nodes)
    (hhit : k.hits k.spec m = true) : m = node := by
  have hall := h.searchNodes_eq k
  have hlen := (Lib.scan_suffix (k.hits k.spec) (fun n => k.before n.key) (t.chain k)).length_le
  rw [← avtabSearchNode, hfirst] at hlen
  obtain ⟨fuel, hfuel⟩ := Nat.exists_eq_succ_of_ne_zero
    (Nat.ne_of_gt (Nat.lt_of_lt_of_le (Nat.succ_pos _) hlen))
  rw [avtabSearchNodes, hfuel, hfirst, avtabSearchRest, hnext] at hall
  have hmem : m ∈ t.nodes.filter (k.hits k.spec) := mem_filter.mpr ⟨hm, hhit⟩
  rw [← hall] at hmem
  cases fuel <;> simpa [avtabSearchRest] using hmem

/-- What `cond_insertf` has checked when it inserts. -/
theorem condInsertf_some {te other s s'} {d} (hwf : s.1.htable ≠ [] → s.1.Wf)
    (h : condInsertf te other s k d = some s') : condInsertNode s k d = some s' ∧
    (k.specified &&& avtabType ≠ 0 → avtabSearch te k = none ∧
      ∀ m ∈ s.1.nodes, k.hits k.spec m = true → m.addr ∈ other) := by
  have hne : ∀ {s'}, condInsertNode s k d = some s' → s.1.htable ≠ [] := by
    simp [condInsertNode]
  unfold condInsertf at h
  split_ifs at h with htype hte hother hsearch
  · rw [not_isSome_iff_eq_none] at hte
    split at h
    · rename_i hnil
      refine ⟨h, fun _ => ⟨hte, fun m hm hhit => ?_⟩⟩
      have hnone : avtabSearch s.1 k = none := by rw [avtabSearch, hnil]; rfl
      rw [(hwf (hne h)).not_hits hnone hm] at hhit
      cases hhit
    · rename_i node next hfirst
      split_ifs at h with hnext hmem
      rw [ne_eq, not_not] at hnext
      refine ⟨h, fun _ => ⟨hte, fun m hm hhit => ?_⟩⟩
      rw [(hwf (hne h)).eq_of_no_next hfirst hnext hm hhit]
      exact hmem
  · rw [not_isSome_iff_eq_none] at hte hsearch
    refine ⟨h, fun _ => ⟨hte, fun m hm hhit => ?_⟩⟩
    rw [(hwf (hne h)).not_hits hsearch hm] at hhit
    cases hhit
  · exact ⟨h, fun hk => absurd hk htype⟩

variable {te : Avtab}

/-- Reading a list of a conditional, against the list that was read before it. -/
theorem CondTable.readList (hte : te.Wf) {done other} (node : List Nat → CondNode)
    {vers fp fp' cond cond' list} (hlists : ∀ l a, (node (l ++ [a])).lists = (node l).lists ++ [a])
    (htrue : ∀ l a, (node l).trueList ⊆ (node (l ++ [a])).trueList)
    (hfalse : ∀ l a, (node l).falseList ⊆ (node (l ++ [a])).falseList)
    (hother : ∀ m ∈ other, ∀ l a, m ∈ (node l).trueList ∧ a ∈ (node (l ++ [a])).falseList)
    (h : CondTable te cond (done ++ [node []]))
    (hread : condReadAvList vers te other fp cond = some (fp', cond', list)) :
    CondTable te cond' (done ++ [node list]) := by
  obtain ⟨⟨len, fp1⟩, -, hread⟩ := bind_eq_some_iff.mp hread
  refine avtabReadItems_inv (I := fun s => CondTable te s.1 (done ++ [node s.2])) ?_ h hread
  intro s k d s' _ hI hins
  obtain ⟨hnode, hchecked⟩ := condInsertf_some (fun hne => (hI.placed hne).wf) hins
  unfold condInsertNode at hnode
  split_ifs at hnode with hne
  cases hnode
  refine hI.insert hte hne (hlists _ _) (htrue _ _) (hfalse _ _) (fun htype => (hchecked htype).1)
    fun spec hspec m hm hsame => ?_
  exact hother _ ((hchecked (hsame.type hspec)).2 m hm (hits_of_sameRule hspec hsame)) _ _

/-- A conditional without lists says nothing about the table. -/
theorem CondTable.push {te cond done} (h : CondTable te cond done)
    (hcur : cur.lists = []) : CondTable te cond (done ++ [cur]) := by
  refine ⟨h.placed, ?_, fun a => ?_, h.outside, fun spec hspec a ha b hb hne hab => ?_⟩
  · simpa [hcur] using h.nodup
  · simpa [hcur] using h.listed a
  · obtain ⟨c, hc, hopp⟩ := h.opposite spec hspec a ha b hb hne hab
    exact ⟨c, mem_append_left _ hc, hopp⟩

theorem CondTable.readNode (hte : te.Wf) {done vers nb addr fp fp' cond cond' node}
    (h : CondTable te cond done)
    (hread : condReadNode vers nb te addr fp cond = some (fp', cond', node)) :
    CondTable te cond' (done ++ [node]) := by
  obtain ⟨⟨curState, fp1⟩, -, hread⟩ := bind_eq_some_iff.mp hread
  obtain ⟨⟨len, fp2⟩, -, hread⟩ := bind_eq_some_iff.mp hread
  obtain ⟨⟨expr, fp3⟩, -, hread⟩ := bind_eq_some_iff.mp hread
  obtain ⟨⟨fp4, cond1, trueList⟩, htrue, hread⟩ := bind_eq_some_iff.mp hread
  obtain ⟨⟨fp₅, cond2, falseList⟩, hfalse, hread⟩ := bind_eq_some_iff.mp hread
  cases hread
  let cur : CondNode := { addr, curState := curState.toInt, expr, trueList, falseList := [] }
  have hcur : CondTable te cond1 (done ++ [cur]) :=
    .readList hte (fun l => { cur with trueList := l }) (by simp [CondNode.lists, cur]) (by simp)
      (by simp) (by simp)
      (h.push rfl) htrue
  exact .readList hte (fun l => { cur with falseList := l }) (by simp [CondNode.lists]) (by simp)
    (by simp)
    (by simp [cur]) hcur hfalse

theorem CondTable.readNodes (hte : te.Wf) {done vers nb n addr fp fp' cond cond' nodes}
    (h : CondTable te cond done)
    (hread : condReadNodes vers nb te n addr fp cond = some (fp', cond', nodes)) :
    CondTable te cond' (done ++ nodes) := by
  induction n generalizing done addr fp cond nodes with
  | zero =>
    cases hread
    simpa using h
  | succ n ih =>
    obtain ⟨⟨fp1, cond1, node⟩, hnode, hread⟩ := bind_eq_some_iff.mp hread
    obtain ⟨⟨fp2, cond2, rest⟩, hrest, hread⟩ := bind_eq_some_iff.mp hread
    cases hread
    have := ih (h.readNode hte hnode) hrest
    rwa [append_assoc, singleton_append] at this

/-- What the reader of the two tables establishes. -/
theorem readRules_tables {vers nb fp fp'} {p : Policydb}
    (h : readRules vers nb fp = some (fp', p)) :
    TypesOnce p.teAvtab ∧ CondTable p.teAvtab p.teCondAvtab p.condList := by
  obtain ⟨⟨fp1, te⟩, hte, h⟩ := bind_eq_some_iff.mp h
  obtain ⟨⟨fp2, cond, conds⟩, hcond, h⟩ := bind_eq_some_iff.mp h
  cases h
  have honce := avtabRead_typesOnce hte
  obtain ⟨⟨len, fp3⟩, -, hcond⟩ := bind_eq_some_iff.mp hcond
  exact ⟨honce, (CondTable.alloc te te.nel).readNodes honce.wf hcond⟩

/-! ## At most one type rule is active -/

/-- The two lists of a conditional are never both selected, and the lists of different
conditionals have no rule in common: of two rules on opposite lists one is not active. -/
theorem CondTable.not_both_active {te cond conds} (h : CondTable te cond conds) {c : CondNode}
    (hc : c ∈ conds) {a b} (ha : a ∈ c.trueList) (hb : b ∈ c.falseList) {state}
    (hactive : a ∈ activeAddrs conds state) : b ∉ activeAddrs conds state := by
  have hsub : ∀ c : CondNode, ∀ x ∈ c.activeList state, x ∈ c.lists := by
    intro c x hx
    unfold CondNode.activeList at hx
    split at hx
    · exact mem_append_left _ hx
    · exact mem_append_right _ hx
    · cases hx
  -- an active address is active through the one conditional that lists it
  have howner : ∀ x, x ∈ c.lists → x ∈ activeAddrs conds state → x ∈ c.activeList state := by
    intro x hx hact
    obtain ⟨c', hc', hx'⟩ := mem_flatMap.mp hact
    rwa [← Lib.eq_of_mem_flatMap h.nodup hc' hc (hsub c' x hx') hx]
  intro hb'
  have hta := howner a (mem_append_left _ ha) hactive
  have htb := howner b (mem_append_right _ hb) hb'
  have hdisj : ∀ x ∈ c.trueList, x ∉ c.falseList := by
    intro x hx hx'
    have := (nodup_flatMap.mp h.nodup).1 c hc
    rw [CondNode.lists, nodup_append] at this
    exact this.2.2 x hx x hx' rfl
  unfold CondNode.activeList at hta htb
  cases hv : condEvaluateExpr state c.expr with
  | none => simp [hv] at hta
  | some v =>
    rw [hv] at hta htb
    cases v with
    | true => exact hdisj b htb hb
    | false => exact hdisj a ha hta

/-- After the two tables have been read, for every state of the Booleans at most one type
rule for a source, a target, a class and a kind is active; two conditional rules for them
are on opposite lists of one conditional, every conditional rule being on one list; and
none is also in the unconditional table. -/
theorem readRules_unambiguous {vers nb : Nat} {fp fp' : PolicyFile} {p : Policydb}
    (h : readRules vers nb fp = some (fp', p)) {spec : BitVec 16} (hspec : spec ∈ typeKinds) :
    (∀ state, (p.activeNodes state).Pairwise fun a b => ¬ SameRule spec a b) ∧
    ((p.condList.flatMap CondNode.lists).Nodup ∧
      ∀ n ∈ p.teCondAvtab.nodes, ∃ c ∈ p.condList, n.addr ∈ c.lists) ∧
    (p.teCondAvtab.nodes.Pairwise fun a b => SameRule spec a b → ∃ c ∈ p.condList, c.Opposite a b) ∧
    ∀ a ∈ p.teAvtab.nodes, ∀ b ∈ p.teCondAvtab.nodes, ¬ SameRule spec a b := by
  obtain ⟨honce, hcond⟩ := readRules_tables h
  have haddr : p.teCondAvtab.nodes.Pairwise fun a b => a.addr ≠ b.addr := by
    by_cases hne : p.teCondAvtab.htable = []
    · simp [Avtab.nodes, hne]
    · exact pairwise_map.mp (hcond.placed hne).addrs
  have hopposite : p.teCondAvtab.nodes.Pairwise fun a b =>
      SameRule spec a b → ∃ c ∈ p.condList, c.Opposite a b := by
    refine haddr.imp_of_mem ?_
    intro a b ha hb hne hab
    exact hcond.opposite spec hspec a ha b hb hne hab
  refine ⟨fun state => ?_, ⟨hcond.nodup, fun n hn => ?_⟩, hopposite, hcond.outside spec hspec⟩
  · refine pairwise_append.mpr ⟨honce.once spec hspec, ?_, fun a ha b hb => ?_⟩
    · refine (hopposite.filter _).imp_of_mem ?_
      intro a b ha hb hopp hab
      obtain ⟨c, hc, hlist⟩ := hopp hab
      have hacta : a.addr ∈ activeAddrs p.condList state := by
        simpa using (mem_filter.mp ha).2
      have hactb : b.addr ∈ activeAddrs p.condList state := by
        simpa using (mem_filter.mp hb).2
      rcases hlist with ⟨ht, hf⟩ | ⟨ht, hf⟩
      · exact hcond.not_both_active hc ht hf hacta hactb
      · exact hcond.not_both_active hc ht hf hactb hacta
    · exact hcond.outside spec hspec a ha b (mem_of_mem_filter hb)
  · have := (hcond.listed n.addr).mpr (mem_map_of_mem hn)
    exact mem_flatMap.mp this

/-- The rules of a small policy: `allow`, and a conditional on the first Boolean with a
type transition for one key on each of its lists. -/
def typeRuleFile : PolicyFile :=
  [1, 0, 0, 0,
    1, 0, 1, 0, 1, 0, 1, 0, 1, 0, 0, 0,
    1, 0, 0, 0,
    0, 0, 0, 0,
    1, 0, 0, 0, 1, 0, 0, 0, 1, 0, 0, 0,
    1, 0, 0, 0,
    1, 0, 1, 0, 1, 0, 16, 0, 1, 0, 0, 0,
    1, 0, 0, 0,
    1, 0, 1, 0, 1, 0, 16, 0, 2, 0, 0, 0]

theorem readRules_unambiguous_transition : ∃ fp p, readRules 33 1 typeRuleFile = some (fp, p) ∧
      ∀ state, (p.activeNodes state).Pairwise fun a b => ¬ SameRule avtabTransition a b := by
  have hsome : (readRules 33 1 typeRuleFile).isSome = true := by decide +kernel
  obtain ⟨⟨fp, p⟩, h⟩ := isSome_iff_exists.mp hsome
  exact ⟨fp, p, h, (readRules_unambiguous h (by decide)).1⟩

end SELinux.Sepol
