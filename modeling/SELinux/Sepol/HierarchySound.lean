import SELinux.Sepol.AvtabMap
import SELinux.Sepol.Hierarchy

/-! Where the bounds check is sound. The scratch tables are read as sets of
permissions; the loops that fill them add the permissions of one rule after
another, and the check compares those of the child with them. -/
namespace SELinux.Sepol

open Avtab Policydb Lib

/-! ## What the bounds of a type mean -/

/-- A permission on a target type. -/
structure TargetPerm where
  target : Nat
  cls : Nat
  bit : Nat

section

variable (p : Policydb) (s : Nat) (child parent : Nat)

/-- The bound of a type, if it has one, and otherwise the type itself. -/
def Policydb.boundsOf (t : Nat) : Nat :=
  match p.typeStruct t with
  | some td => if td.bounds ≠ 0 then td.bounds - 1 else t
  | none => t

/-- The permission that a parent needs if a child has `b`. -/
def Policydb.bounded (b : TargetPerm) : TargetPerm :=
  { b with target := p.boundsOf b.target }

/-- What the allow rules that are active in a state grant to a source type. -/
def Policydb.granted (state : Nat → Bool) (s : Nat) : Set TargetPerm :=
  {b | (p.decision state s b.target b.cls).allowed.getLsbD b.bit = true}

/-- In every Boolean state the parent has what the child has, on the bounds of the
targets. -/
def BoundsSound : Prop :=
  ∀ state, ∀ b ∈ p.granted state child, p.isType b.target = true →
    p.bounded b ∈ p.granted state parent

/-- The permissions that a rule carries for a source type, as if it were an allow
rule. -/
def Policydb.rulePerms (n : AvtabNode) : Set TargetPerm :=
  {b | p.isType b.target = true ∧ n.appliesTo p s b.target b.cls = true ∧
    n.datum.data.getLsbD b.bit = true}

/-- The permissions of an allow rule. -/
def Policydb.allowPerms (n : AvtabNode) : Set TargetPerm :=
  {b | n.isKind avtabAllowed = true ∧ b ∈ p.rulePerms s n}

/-- What the rules of a conditional list carry, of whatever kind they are. -/
def Policydb.listPerms (list : List Nat) : Set TargetPerm :=
  pool (p.rulePerms s) (p.condRules list)

/-- What the code takes a type to have in every state: by allow rules of the
unconditional table, or by any rules of both branches of a conditional. -/
def Policydb.alwaysPerms : Set TargetPerm :=
  pool (p.allowPerms s) p.teAvtab.nodes ∪
    {b | ∃ c ∈ p.condList, b ∈ p.listPerms s c.trueList ∧ b ∈ p.listPerms s c.falseList}

/-- The allow rules of the child are covered, if conditional rules of the parent
count whatever their kind. -/
structure DataCovered : Prop where
  te : ∀ b ∈ pool (p.allowPerms child) p.teAvtab.nodes,
    p.bounded b ∈ p.alwaysPerms parent
  cond : ∀ c ∈ p.condList, ∀ list ∈ [c.trueList, c.falseList],
    ∀ b ∈ pool (p.allowPerms child) (p.condRules list),
      p.bounded b ∈ p.listPerms parent list ∪ p.alwaysPerms parent

/-- What conditional rules other than allow rules carry for a type. -/
def Policydb.otherPerms : Set TargetPerm :=
  {b | ∃ c ∈ p.condList, ∃ n ∈ p.condRules (c.trueList ++ c.falseList),
    n.isKind avtabAllowed = false ∧ b ∈ p.rulePerms s n}

/-- Where a conditional rule of another kind carries a permission that the child
has, the parent has it as well. -/
def NoFalseCover : Prop :=
  ∀ state, ∀ b ∈ p.granted state child, p.isType b.target = true →
    p.bounded b ∈ p.otherPerms parent → p.bounded b ∈ p.granted state parent

end

/-! ## Scratch tables -/

/-- The key under which the parent's data for a target is kept. -/
def boundsKey (parent t c : Nat) : AvtabKey := ⟨parent + 1, t + 1, c, avtabAllowed⟩

theorem boundsKey_oneKind (parent t c : Nat) : (boundsKey parent t c).OneKind := by
  exact (by decide : avtabAllowed &&& ~~~avtabEnabled ∈ specOrder)

theorem boundsKey_alike {parent t c t' c' : Nat} :
    (boundsKey parent t c).alike (boundsKey parent t' c') = true ↔ t = t' ∧ c = c' := by
  simp [AvtabKey.alike_iff, AvtabKey.same_iff, boundsKey, AvtabKey.spec]

/-- The data a search finds; none if it finds nothing. -/
def Avtab.dataAt (t : Avtab) (k : AvtabKey) : BitVec 32 :=
  match avtabSearch t k with
  | some d => d.data
  | none => 0

/-- The permissions in a scratch table. -/
def Avtab.perms (t : Avtab) (parent : Nat) : Set TargetPerm :=
  {b | (t.dataAt (boundsKey parent b.target b.cls)).getLsbD b.bit = true}

/-- The permissions that data under a key stands for. -/
def dataPerms (t c : Nat) (data : BitVec 32) : Set TargetPerm :=
  {b | b.target = t ∧ b.cls = c ∧ data.getLsbD b.bit = true}

variable {avtab : Avtab}

theorem dataPerms_and {parent t c data} :
    dataPerms t c (avtab.dataAt (boundsKey parent t c) &&& data) =
      dataPerms t c data ∩ avtab.perms parent := by
  ext b
  simp only [dataPerms, perms, Set.mem_inter_iff, Set.mem_ofPred_eq, BitVec.getLsbD_and,
    Bool.and_eq_true]
  constructor
  · rintro ⟨rfl, rfl, hown, hdata⟩
    exact ⟨⟨rfl, rfl, hdata⟩, hown⟩
  · rintro ⟨⟨rfl, rfl, hdata⟩, hown⟩
    exact ⟨rfl, rfl, hown, hdata⟩

theorem Avtab.perms_of_dataAt {avtab avtab' : Avtab} {parent t c data}
    (h : ∀ t' c', avtab'.dataAt (boundsKey parent t' c') = if (boundsKey parent t c).alike
      (boundsKey parent t' c') then avtab.dataAt (boundsKey parent t' c') ||| data
      else avtab.dataAt (boundsKey parent t' c')) :
    avtab'.perms parent = avtab.perms parent ∪ dataPerms t c data := by
  ext b
  simp only [perms, dataPerms, Set.mem_union, Set.mem_ofPred_eq, h, boundsKey_alike]
  split_ifs with hb
  · simp [hb.1, hb.2]
  · have : ¬ (b.target = t ∧ b.cls = c) := fun h => hb ⟨h.1.symm, h.2.symm⟩
    simp [← and_assoc, this]

theorem boundsAddData_spec (h : avtab.IsMap) (parent t c : Nat) (data : BitVec 32) :
    ∃ avtab', boundsAddData avtab (boundsKey parent t c) data = .ok avtab' ∧ avtab'.IsMap ∧
      avtab'.perms parent = avtab.perms parent ∪ dataPerms t c data := by
  have hk := boundsKey_oneKind parent t c
  unfold boundsAddData
  cases hs : avtabSearch avtab (boundsKey parent t c) with
  | none =>
    obtain ⟨avtab', hins, hmap, hsearch⟩ := h.insert hk { data := data } hs
    refine ⟨avtab', hins, hmap, perms_of_dataAt fun t' c' => ?_⟩
    rw [dataAt, hsearch _ (boundsKey_oneKind parent t' c'), dataAt]
    split_ifs with heq
    · obtain ⟨rfl, rfl⟩ := boundsKey_alike.mp heq
      simp [hs]
    · rfl
  | some d =>
    have hmap := h.modify_isMap hk fun dup => { dup with data := dup.data ||| data }
    refine ⟨_, rfl, hmap, perms_of_dataAt fun t' c' => ?_⟩
    rw [dataAt, h.modify_search hk _ (boundsKey_oneKind parent t' c'), dataAt]
    split_ifs with heq
    · obtain ⟨rfl, rfl⟩ := boundsKey_alike.mp heq
      simp [hs]
    · rfl

/-! ## Inserting rules -/

/-- The permissions in both tables; those of the global one are marked `true`. -/
def BoundsTabs.perms (tabs : BoundsTabs) (parent : Nat) : Set (Bool × TargetPerm) :=
  {x | x.2 ∈ (if x.1 then tabs.global else tabs.avtab).perms parent}

/-- New permissions go to the one table, and those that the other branch shares to
the global table as well. -/
def addedPerms (common new : Set TargetPerm) : Set (Bool × TargetPerm) :=
  {x | x.2 ∈ new ∧ (x.1 = true → x.2 ∈ common)}

theorem pool_addedPerms {α : Type*} (common : Set TargetPerm) (new : α → Set TargetPerm)
    (l : List α) :
    pool (fun a => addedPerms common (new a)) l = addedPerms common (pool new l) := by
  ext x
  simp only [mem_pool, addedPerms, Set.mem_ofPred_eq]
  constructor
  · rintro ⟨a, ha, hnew, hcommon⟩
    exact ⟨⟨a, ha, hnew⟩, hcommon⟩
  · rintro ⟨⟨a, ha, hnew⟩, hcommon⟩
    exact ⟨a, ha, hnew, hcommon⟩

/-- The permissions of the table of the other branch, if there is one. -/
def commonPerms (other : Option Avtab) (parent : Nat) : Set TargetPerm :=
  {b | ∃ avtab ∈ other, b ∈ avtab.perms parent}

/-- The tables can be written to. -/
structure BoundsTabs.Ready (tabs : BoundsTabs) (other : Option Avtab) : Prop where
  avtab : tabs.avtab.IsMap
  global : other.isSome = true → tabs.global.IsMap

/-- One table changes by `new`, the other by what `new` has in common. -/
theorem BoundsTabs.perms_eq_iff {tabs tabs' : BoundsTabs} {parent common new} :
    tabs'.perms parent = tabs.perms parent ∪ addedPerms common new ↔
      tabs'.avtab.perms parent = tabs.avtab.perms parent ∪ new ∧
      tabs'.global.perms parent = tabs.global.perms parent ∪ (new ∩ common) := by
  simp [Set.ext_iff, BoundsTabs.perms, addedPerms]

theorem boundsInsertRule_spec {other} {tabs : BoundsTabs} (h : tabs.Ready other) (parent t c : Nat)
    (data : BitVec 32) :
    ∃ tabs', boundsInsertRule other (boundsKey parent t c) { data := data } tabs = .ok tabs' ∧
      tabs'.Ready other ∧ tabs'.perms parent =
        tabs.perms parent ∪ addedPerms (commonPerms other parent) (dataPerms t c data) := by
  obtain ⟨avtab, hadd, hmap, hperms⟩ := boundsAddData_spec h.avtab parent t c data
  -- the data shared with the other branch
  have hshared : dataPerms t c data ∩ commonPerms other parent =
      dataPerms t c ((other.bind fun o => avtabSearch o (boundsKey parent t c)).elim 0
        fun dup => dup.data &&& data) := by
    cases other with
    | none => simp [commonPerms, dataPerms]
    | some o =>
      have hcommon : commonPerms (some o) parent = o.perms parent := by
        simp [commonPerms]
      rw [hcommon, ← dataPerms_and, dataAt, Option.bind_some]
      cases avtabSearch o (boundsKey parent t c) with
      | none => simp
      | some dup => rfl
  have hnothing : dataPerms t c 0 = ∅ := by
    simp [dataPerms]
  simp only [boundsInsertRule, hadd]
  cases hfound : other.bind fun o => avtabSearch o (boundsKey parent t c) with
  | none =>
    rw [hfound, Option.elim_none, hnothing] at hshared
    exact ⟨_, rfl, ⟨hmap, h.global⟩, BoundsTabs.perms_eq_iff.mpr ⟨hperms, by simp [hshared]⟩⟩
  | some dup =>
    rw [hfound, Option.elim_some] at hshared
    by_cases hzero : dup.data &&& data = 0
    · rw [hzero, hnothing] at hshared
      refine ⟨{ tabs with avtab := avtab }, by simp only [bind, Except.bind, if_pos hzero]; rfl,
        ⟨hmap, h.global⟩, BoundsTabs.perms_eq_iff.mpr ⟨hperms, by simp [hshared]⟩⟩
    · have hsome : other.isSome = true := by
        cases other with
        | none => cases hfound
        | some o => rfl
      obtain ⟨global, hgadd, hgmap, hgperms⟩ :=
        boundsAddData_spec (h.global hsome) parent t c (dup.data &&& data)
      refine ⟨⟨avtab, global⟩, by simp only [bind, Except.bind, if_neg hzero, hgadd]; rfl,
        ⟨hmap, fun _ => hgmap⟩, BoundsTabs.perms_eq_iff.mpr ⟨hperms, ?_⟩⟩
      rw [hgperms, hshared]

theorem boundsAvtab_isMap : (avtabAlloc boundsAvtabSize).IsMap :=
  avtabAlloc_isMap (by decide : boundsAvtabSize ≠ 0)

section Expansion

variable (e : ExpandedPolicydb) {parent : Nat} (hparent : e.isType parent = true)
include hparent

theorem boundsExpandRule_spec {n : AvtabNode} (hn : n.key.Valid) {other} {tabs : BoundsTabs}
    (h : tabs.Ready other) :
    ∃ tabs', boundsExpandRule e.toPolicydb other (parent + 1) n.key.sourceType n.key.targetType
        n.key.targetClass n.datum.data tabs = .ok tabs' ∧ tabs'.Ready other ∧
      tabs'.perms parent = tabs.perms parent ∪
        addedPerms (commonPerms other parent) (e.rulePerms parent n) := by
  have hsrc : ebitmapGetBit (e.attrTypes (n.key.sourceType - 1)) parent = true ↔
      e.covers n.key.sourceType parent = true := by
    rw [ebitmapGetBit_eq_true, e.mem_attrTypes hn.source]
    exact and_iff_right hparent
  unfold boundsExpandRule
  rw [Nat.add_sub_cancel]
  split_ifs with hbit
  · obtain ⟨tabs', hfold, hready, hperms⟩ := foldlM_pool
      (l := (e.attrTypes (n.key.targetType - 1)).bits) (fun tabs => BoundsTabs.Ready tabs other)
      (fun tabs => tabs.perms parent)
      (fun t _ tabs h => boundsInsertRule_spec h parent t n.key.targetClass n.datum.data) h
    refine ⟨tabs', hfold, hready, ?_⟩
    rw [hperms, pool_addedPerms]
    congr 2
    ext b
    simp only [mem_pool, dataPerms, rulePerms, Set.mem_ofPred_eq, Ebitmap.mem_bits,
      e.mem_attrTypes hn.target, AvtabNode.appliesTo, hsrc.mp hbit, Bool.true_and,
      Bool.and_eq_true, beq_iff_eq]
    constructor
    · rintro ⟨_, ⟨htype, hcovers⟩, rfl, hcls, hdata⟩
      exact ⟨htype, ⟨hcovers, hcls.symm⟩, hdata⟩
    · rintro ⟨htype, ⟨hcovers, hcls⟩, hdata⟩
      exact ⟨_, ⟨htype, hcovers⟩, rfl, hcls.symm, hdata⟩
  · refine ⟨tabs, rfl, h, ?_⟩
    have hnone : e.rulePerms parent n = ∅ := by
      ext b
      simp only [rulePerms, AvtabNode.appliesTo, Set.mem_ofPred_eq,
        Bool.eq_false_iff.mpr fun h => hbit (hsrc.mpr h)]
      simp
    ext x
    simp [hnone, addedPerms]

theorem boundsExpandCondRules_spec {rules} (hrules : ∀ n ∈ rules, n.key.Valid) {other}
    {tabs : BoundsTabs} (h : tabs.Ready other) :
    ∃ tabs', boundsExpandCondRules e.toPolicydb other (parent + 1) rules tabs = .ok tabs' ∧
      tabs'.Ready other ∧ tabs'.perms parent = tabs.perms parent ∪
        addedPerms (commonPerms other parent) (pool (e.rulePerms parent) rules) := by
  rw [← pool_addedPerms]
  exact foldlM_pool (fun tabs => BoundsTabs.Ready tabs other) (fun tabs => tabs.perms parent)
    (fun n hn tabs h => boundsExpandRule_spec e hparent (hrules n hn) h) h

omit hparent in
theorem avtabAlloc_perms (nrules : Nat) : (avtabAlloc nrules).perms parent = ∅ := by
  simp [perms, dataAt, avtabAlloc_search]

theorem boundsExpandRuleCallback_spec {n : AvtabNode} (hn : n.key.Valid) {tabs : BoundsTabs}
    (h : tabs.Ready none) :
    ∃ tabs', boundsExpandRuleCallback e.toPolicydb (parent + 1) tabs n.key n.datum = .ok tabs' ∧
      tabs'.Ready none ∧ tabs'.perms parent = tabs.perms parent ∪
        addedPerms (commonPerms none parent) (e.allowPerms parent n) := by
  unfold boundsExpandRuleCallback
  split_ifs with hkind
  · refine ⟨tabs, rfl, h, ?_⟩
    simp [addedPerms, allowPerms, AvtabNode.isKind, hkind]
  · have hallow : e.allowPerms parent n = e.rulePerms parent n := by
      ext b
      exact and_iff_right (bne_iff_ne.mpr hkind)
    rw [hallow]
    exact boundsExpandRule_spec e hparent hn h

/-- The unconditional rules: only allow rules count. -/
theorem boundsExpandTe_spec : ∃ tabs, e.teAvtab.nodes.foldlM
        (fun tabs n => boundsExpandRuleCallback e.toPolicydb (parent + 1) tabs n.key n.datum)
        { avtab := avtabAlloc boundsAvtabSize } = .ok tabs ∧ tabs.avtab.IsMap ∧
      tabs.avtab.perms parent = pool (e.allowPerms parent) e.teAvtab.nodes := by
  have hfresh : BoundsTabs.Ready { avtab := avtabAlloc boundsAvtabSize } none :=
    ⟨boundsAvtab_isMap, by simp⟩
  obtain ⟨tabs, hfold, hready, hperms⟩ := foldlM_pool (l := e.teAvtab.nodes)
    (fun tabs => BoundsTabs.Ready tabs none) (fun tabs => tabs.perms parent)
    (fun n hn tabs h => boundsExpandRuleCallback_spec e hparent (e.teKeys n hn) h) hfresh
  rw [pool_addedPerms, BoundsTabs.perms_eq_iff, avtabAlloc_perms, Set.empty_union] at hperms
  exact ⟨tabs, hfold, hready.avtab, hperms.1⟩

theorem boundsExpandBranch_spec (other : Option Avtab) (list : List Nat) (global : Avtab)
    (hglobal : other.isSome = true → global.IsMap) :
    ∃ tabs, boundsExpandBranch e.toPolicydb other (parent + 1) list global = .ok tabs ∧
      (other.isSome = true → tabs.global.IsMap) ∧
      tabs.avtab.perms parent = e.listPerms parent list ∧
      tabs.global.perms parent = global.perms parent ∪
        (e.listPerms parent list ∩ commonPerms other parent) := by
  unfold boundsExpandBranch
  split_ifs with hnil
  · have hnone : e.listPerms parent list = ∅ := by
      simp [hnil, listPerms, condRules]
    refine ⟨_, rfl, hglobal, ?_, by simp [hnone]⟩
    rw [hnone]
    exact avtabAlloc_perms 0
  · have hvalid : ∀ n ∈ e.condRules list, n.key.Valid := fun n hn =>
      e.condKeys n (e.mem_condRules.mp hn).1
    have hfresh :
        BoundsTabs.Ready { avtab := avtabAlloc boundsAvtabSize, global := global } other :=
      ⟨boundsAvtab_isMap, hglobal⟩
    obtain ⟨tabs, hok, hready, hperms⟩ := boundsExpandCondRules_spec e hparent hvalid hfresh
    rw [BoundsTabs.perms_eq_iff, avtabAlloc_perms, Set.empty_union] at hperms
    exact ⟨tabs, hok, hready.global, hperms⟩

/-- The tables of a conditional hold what its lists carry. -/
structure BoundsCondInfo.Ok (info : BoundsCondInfo) (p : Policydb) (parent : Nat) : Prop where
  true : info.trueAvtab.perms parent = p.listPerms parent info.condList.trueList
  false : info.falseAvtab.perms parent = p.listPerms parent info.condList.falseList

/-- The permissions of the global table, and the conditionals that have been
expanded. -/
def expandedFacts (parent : Nat) (s : Avtab × List BoundsCondInfo) : Set (TargetPerm ⊕ CondNode) :=
  {x | x.elim (fun b => b ∈ s.1.perms parent) fun c => ∃ info ∈ s.2, info.condList = c}

theorem boundsExpandCond_spec {s} (cur : CondNode) (hglobal : s.1.IsMap)
    (hinfo : ∀ info ∈ s.2, info.Ok e.toPolicydb parent) :
    ∃ s', boundsExpandCond e.toPolicydb (parent + 1) s cur = .ok s' ∧
      (s'.1.IsMap ∧ ∀ info ∈ s'.2, info.Ok e.toPolicydb parent) ∧
      expandedFacts parent s' = expandedFacts parent s ∪ {x | x.elim
        (fun b => b ∈ e.listPerms parent cur.trueList ∧ b ∈ e.listPerms parent cur.falseList)
        fun c => c = cur} := by
  obtain ⟨t, ht, -, htperms, -⟩ := boundsExpandBranch_spec e hparent none cur.trueList {}
    (by simp)
  obtain ⟨f, hf, hfmap, hfperms, hgperms⟩ := boundsExpandBranch_spec e hparent
    (some t.avtab) cur.falseList s.1 fun _ => hglobal
  have hcommon : commonPerms (some t.avtab) parent = e.listPerms parent cur.trueList := by
    rw [← htperms]
    simp [commonPerms]
  refine ⟨(f.global, { trueAvtab := t.avtab, falseAvtab := f.avtab, condList := cur } :: s.2), ?_,
    ⟨hfmap rfl, ?_⟩, ?_⟩
  · rw [boundsExpandCond, ht]
    simp only [bind, Except.bind, hf]
    rfl
  · intro info h
    rcases List.mem_cons.mp h with rfl | h
    · exact ⟨htperms, hfperms⟩
    · exact hinfo info h
  · ext x
    cases x with
    | inl b =>
      simp [expandedFacts, hgperms, hcommon, and_comm]
    | inr c => simp [expandedFacts, or_comm, eq_comm]

theorem boundsExpandParentRules_spec :
    ∃ global infos, boundsExpandParentRules e.toPolicydb (parent + 1) = .ok (global, infos) ∧
      global.perms parent = e.alwaysPerms parent ∧
      (∀ info ∈ infos, info.Ok e.toPolicydb parent ∧ info.condList ∈ e.condList) ∧
      ∀ c ∈ e.condList, ∃ info ∈ infos, info.condList = c := by
  obtain ⟨tabs, hte, hmap, hperms⟩ := boundsExpandTe_spec e hparent
  obtain ⟨⟨global, infos⟩, hfold, ⟨-, hinfos⟩, hfacts⟩ := foldlM_pool (l := e.condList)
    (fun s => s.1.IsMap ∧ ∀ info ∈ s.2, info.Ok e.toPolicydb parent) (expandedFacts parent)
    (fun c _ s h => boundsExpandCond_spec e hparent c h.1 h.2) (s := (tabs.avtab, []))
    ⟨hmap, by simp⟩
  simp only [Set.ext_iff, Sum.forall, expandedFacts, mem_pool, Set.mem_union,
    Set.mem_ofPred_eq, Sum.elim_inl, Sum.elim_inr] at hfacts
  refine ⟨global, infos, ?_, ?_, fun info h => ⟨hinfos info h, ?_⟩, fun c hc => ?_⟩
  · rw [boundsExpandParentRules, hte]
    exact hfold
  · ext b
    rw [hfacts.1 b, hperms]
    rfl
  · obtain h | ⟨c, hc, heq⟩ := (hfacts.2 info.condList).mp ⟨info, h, rfl⟩
    · simp at h
    · rwa [heq]
  · exact (hfacts.2 c).mpr (.inr ⟨c, hc, rfl⟩)

end Expansion

/-! ## Checking rules -/

theorem boundsTarget_eq (p : Policydb) (t : Nat) : boundsTarget p t = p.boundsOf t + 1 := by
  unfold boundsTarget boundsOf
  cases p.typeStruct t with
  | none => rfl
  | some td =>
    dsimp only
    split_ifs <;> omega

theorem getLsbD_boundsStrip {k} {data : BitVec 32} {x} :
    (boundsStrip avtab k data).getLsbD x = (data.getLsbD x && !(avtab.dataAt k).getLsbD x) := by
  unfold boundsStrip dataAt
  cases avtabSearch avtab k with
  | none => simp
  | some d =>
    by_cases hx : x < 32
    · simp [hx]
    · simp [BitVec.getLsbD_of_ge _ _ (Nat.le_of_not_lt hx)]

theorem boundsNotCovered_eq_zero_iff {global} {cur : Avtab} {parent t c data} :
    boundsNotCovered global cur (boundsKey parent t c) data = 0 ↔
      dataPerms t c data ⊆ cur.perms parent ∪ commonPerms global parent := by
  have hbits : boundsNotCovered global cur (boundsKey parent t c) data = 0 ↔ ∀ x,
      data.getLsbD x = true → (cur.dataAt (boundsKey parent t c)).getLsbD x = true ∨
        ∃ avtab ∈ global, (avtab.dataAt (boundsKey parent t c)).getLsbD x = true := by
    cases global with
    | none =>
      rw [boundsNotCovered]
      refine BitVec.zero_iff_eq_false.trans ?_
      simp [getLsbD_boundsStrip]
    | some avtab =>
      have hboth : boundsNotCovered (some avtab) cur (boundsKey parent t c) data =
          boundsStrip avtab (boundsKey parent t c)
            (boundsStrip cur (boundsKey parent t c) data) := by
        simp only [boundsNotCovered]
        split_ifs with hzero
        · rw [hzero]
          exact (BitVec.zero_iff_eq_false.mpr fun x => by simp [getLsbD_boundsStrip]).symm
        · rfl
      rw [hboth]
      refine BitVec.zero_iff_eq_false.trans ?_
      simp [getLsbD_boundsStrip, or_iff_not_imp_left]
  rw [hbits]
  constructor
  · rintro h b ⟨rfl, rfl, hdata⟩
    exact h b.bit hdata
  · intro h x hdata
    exact h (a := ⟨t, c, x⟩) ⟨rfl, rfl, hdata⟩

section Checking

variable (e : ExpandedPolicydb) {child : Nat} (hchild : e.isType child = true) {parent : Nat}
  (global : Option Avtab) (cur : Avtab)
include hchild

/-- A rule adds nothing to the bad rules if what it carries for the child is in
the tables of the parent. -/
theorem boundsCheckRule_bad {n : AvtabNode} (hn : n.key.Valid) (b : BoundsBad) :
    (boundsCheckRule e.toPolicydb global cur (child + 1) (parent + 1) n.key.sourceType
        n.key.targetType n.key.targetClass n.datum.data b).bad = [] ↔
      b.bad = [] ∧ ∀ x ∈ e.rulePerms child n,
        e.bounded x ∈ cur.perms parent ∪ commonPerms global parent := by
  have hsrc : ebitmapGetBit (e.attrTypes (n.key.sourceType - 1)) child = true ↔
      e.covers n.key.sourceType child = true := by
    rw [ebitmapGetBit_eq_true, e.mem_attrTypes hn.source]
    exact and_iff_right hchild
  unfold boundsCheckRule
  split_ifs with hbit
  · rw [foldl_iff (P := fun b : BoundsBad => b.bad = [])
      (Q := fun t => dataPerms (e.boundsOf t) n.key.targetClass n.datum.data ⊆
        cur.perms parent ∪ commonPerms global parent)]
    · refine and_congr_right fun _ => ?_
      simp only [rulePerms, Set.mem_ofPred_eq, Ebitmap.mem_bits,
        e.mem_attrTypes hn.target, AvtabNode.appliesTo, hsrc.mp hbit, Bool.true_and,
        Bool.and_eq_true, beq_iff_eq]
      constructor
      · rintro h x ⟨ht, ⟨hcov, hcls⟩, hdata⟩
        exact h x.target ⟨ht, hcov⟩ ⟨rfl, hcls.symm, hdata⟩
      · rintro h t ⟨ht, hcov⟩ x ⟨hxt, hxc, hdata⟩
        have := h ⟨t, x.cls, x.bit⟩ ⟨ht, ⟨hcov, hxc.symm⟩, hdata⟩
        rwa [bounded, ← hxt] at this
    · intro t _ s
      dsimp only
      rw [boundsTarget_eq]
      split_ifs with hzero
      · simp only [boundsAddBad, reduceCtorEq, false_iff, not_and]
        exact fun _ h => hzero (boundsNotCovered_eq_zero_iff.mpr h)
      · exact (and_iff_left (boundsNotCovered_eq_zero_iff.mp (not_not.mp hzero))).symm
  · refine (and_iff_left ?_).symm
    rintro x ⟨-, happ, -⟩
    simp only [AvtabNode.appliesTo, Bool.and_eq_true] at happ
    exact absurd (hsrc.mpr happ.1.1) hbit

theorem boundsCheckRules_bad {rules} (hrules : ∀ n ∈ rules, n.key.Valid) (b : BoundsBad) :
    (boundsCheckRules e.toPolicydb global cur (child + 1) (parent + 1) rules b).bad = [] ↔
      b.bad = [] ∧ ∀ x ∈ pool (e.allowPerms child) rules,
        e.bounded x ∈ cur.perms parent ∪ commonPerms global parent := by
  unfold boundsCheckRules
  rw [foldl_iff (P := fun b : BoundsBad => b.bad = [])
    (Q := fun n => ∀ x ∈ e.allowPerms child n,
      e.bounded x ∈ cur.perms parent ∪ commonPerms global parent)]
  · refine and_congr_right fun _ => ?_
    constructor
    · rintro h x ⟨n, hn, hx⟩
      exact h n hn x hx
    · intro h n hn x hx
      exact h x ⟨n, hn, hx⟩
  · intro n hn s
    split_ifs with hkind
    · refine (and_iff_left ?_).symm
      rintro x ⟨hallow, -⟩
      exact absurd hkind (bne_iff_ne.mp hallow)
    · rw [boundsCheckRule_bad e hchild global cur (hrules n hn)]
      refine and_congr_right fun _ => forall_congr' fun x => imp_congr_left ?_
      exact (and_iff_right (bne_iff_ne.mpr hkind)).symm

end Checking

theorem boundsCheckRules_numbad {p global cur child parent rules} {b : BoundsBad}
    (h : b.numbad = b.bad.length) : (boundsCheckRules p global cur child parent rules b).numbad =
      (boundsCheckRules p global cur child parent rules b).bad.length := by
  refine foldl_inv (P := fun b : BoundsBad => b.numbad = b.bad.length) ?_ h
  intro s n hs
  split_ifs
  · exact hs
  · unfold boundsCheckRule
    split_ifs
    · refine foldl_inv (P := fun b : BoundsBad => b.numbad = b.bad.length) ?_ hs
      intro s t hs
      dsimp only
      split_ifs
      · simp [boundsAddBad, hs]
      · exact hs
    · exact hs

theorem boundsCheckChildRules_numbad {p global infos child parent numbad} :
    (boundsCheckChildRules p global infos child parent numbad).numbad =
      numbad + (boundsCheckChildRules p global infos child parent numbad).bad.length := by
  simp only [boundsCheckChildRules]
  congr 1
  refine foldl_inv (P := fun b : BoundsBad => b.numbad = b.bad.length) ?_
    (boundsCheckRules_numbad rfl)
  intro s info hs
  exact boundsCheckRules_numbad (boundsCheckRules_numbad hs)

/-- `bounds_check_type` succeeds, and it reports nothing exactly if the child's
rules are covered by the data of the parent's. -/
theorem boundsCheckType_bad (e : ExpandedPolicydb) {child parent : Nat}
    (hchild : e.isType child = true) (hparent : e.isType parent = true) (numbad : Nat) :
    ∃ r, boundsCheckType e.toPolicydb (child + 1) (parent + 1) numbad = .ok r ∧
      r.numbad = numbad + r.bad.length ∧ (r.bad = [] ↔ DataCovered e.toPolicydb child parent) := by
  obtain ⟨global, infos, hexpand, hglobal, hinfos, hall⟩ := boundsExpandParentRules_spec e hparent
  have hvalid : ∀ list, ∀ n ∈ e.condRules list, n.key.Valid := fun list n hn =>
    e.condKeys n (e.mem_condRules.mp hn).1
  have hnone : commonPerms none parent = ∅ := by
    simp [commonPerms]
  have hsome : commonPerms (some global) parent = e.alwaysPerms parent := by
    rw [← hglobal]
    simp [commonPerms]
  refine ⟨_, by rw [boundsCheckType, hexpand]; rfl, boundsCheckChildRules_numbad, ?_⟩
  simp only [boundsCheckChildRules]
  rw [foldl_iff (P := fun b : BoundsBad => b.bad = [])
    (Q := fun info => ∀ list ∈ [info.condList.trueList, info.condList.falseList],
      ∀ b ∈ pool (e.allowPerms child) (e.condRules list),
        e.bounded b ∈ e.listPerms parent list ∪ e.alwaysPerms parent)]
  · rw [boundsCheckRules_bad e hchild none global e.teKeys, hnone, Set.union_empty, hglobal]
    constructor
    · rintro ⟨⟨-, hte⟩, hcond⟩
      refine ⟨hte, fun c hc => ?_⟩
      obtain ⟨info, hinfo, rfl⟩ := hall c hc
      exact hcond info hinfo
    · intro h
      exact ⟨⟨rfl, h.te⟩, fun info hinfo => h.cond _ (hinfos info hinfo).2⟩
  · intro info hinfo s
    obtain ⟨⟨htrue, hfalse⟩, -⟩ := hinfos info hinfo
    rw [boundsCheckRules_bad e hchild (some global) info.falseAvtab (hvalid _),
      boundsCheckRules_bad e hchild (some global) info.trueAvtab (hvalid _), htrue, hfalse, hsome]
    simp [and_assoc]

/-! ## Soundness -/

section Sound

variable (e : ExpandedPolicydb) {state : Nat → Bool} {s : Nat}

theorem mem_granted {p : Policydb} {b : TargetPerm} :
    b ∈ p.granted state s ↔ ∃ n ∈ p.activeNodes state, n.isKind avtabAllowed = true ∧
      n.appliesTo p s b.target b.cls = true ∧ n.datum.data.getLsbD b.bit = true := by
  rw [granted, Set.mem_ofPred_eq, decision, decisionOf_allowed]
  simp only [mem_pool, effects, datumHas, Set.mem_ofPred_eq, AvtabNode.isKind, bne_iff_ne]
  refine exists_congr fun n => and_congr_right fun _ => ?_
  exact and_left_comm

/-- An expression that has a value selects one of the lists. -/
theorem activeList_cases {c : CondNode} (hc : c ∈ e.condList) (state : Nat → Bool) :
    c.activeList state = c.trueList ∨ c.activeList state = c.falseList := by
  obtain ⟨v, hv⟩ := Option.isSome_iff_exists.mp (e.condDefined c hc state)
  cases v <;> simp [CondNode.activeList, hv]

/-- A rule on an active list grants what it carries, unless it is not an allow
rule. -/
theorem granted_of_listPerms {c : CondNode} (hc : c ∈ e.condList) {b}
    (hb : b ∈ e.listPerms s (c.activeList state)) : b ∈ e.granted state s ∨ b ∈ e.otherPerms s := by
  obtain ⟨n, hn, hbn⟩ := hb
  cases hkind : n.isKind avtabAllowed with
  | true =>
    exact .inl (mem_granted.mpr ⟨n, e.mem_activeNodes.mpr (.inr ⟨c, hc, hn⟩), hkind, hbn.2⟩)
  | false =>
    refine .inr ⟨c, hc, n, ?_, hkind, hbn⟩
    obtain ⟨hmem, haddr⟩ := e.mem_condRules.mp hn
    refine e.mem_condRules.mpr ⟨hmem, ?_⟩
    rcases activeList_cases e hc state with h | h <;> simp [← h, haddr]

theorem granted_of_alwaysPerms {b} (hb : b ∈ e.alwaysPerms s) :
    b ∈ e.granted state s ∨ b ∈ e.otherPerms s := by
  rcases hb with ⟨n, hn, hkind, hbn⟩ | ⟨c, hc, htrue, hfalse⟩
  · exact .inl (mem_granted.mpr ⟨n, e.mem_activeNodes.mpr (.inl hn), hkind, hbn.2⟩)
  · -- one of the two branches is active
    apply granted_of_listPerms e hc
    rcases activeList_cases e hc state with h | h
    · rwa [h]
    · rwa [h]

theorem boundsSound_of_covered {child parent : Nat} (hcov : DataCovered e.toPolicydb child parent)
    (hno : NoFalseCover e.toPolicydb child parent) : BoundsSound e.toPolicydb child parent := by
  intro state b hb ht
  have hparent : e.bounded b ∈ e.granted state parent ∨ e.bounded b ∈ e.otherPerms parent := by
    obtain ⟨n, hn, hkind, happ, hbit⟩ := mem_granted.mp hb
    rcases e.mem_activeNodes.mp hn with hn | ⟨c, hc, hn⟩
    · exact granted_of_alwaysPerms e (hcov.te b ⟨n, hn, hkind, ht, happ, hbit⟩)
    · rcases hcov.cond c hc _ (by simpa using activeList_cases e hc state) b
        ⟨n, hn, hkind, ht, happ, hbit⟩ with h | h
      · exact granted_of_listPerms e hc h
      · exact granted_of_alwaysPerms e h
  rcases hparent with h | h
  · exact h
  · exact hno state b hb ht h

end Sound

/-- `bounds_check_type` succeeds and counts what it lists. That it reports nothing
means that the child stays within its bounds in every Boolean state, if and only if:
whenever the child's rules are covered by the parent's, with conditional rules of
every kind counted as allow rules, those of another kind make no difference. -/
theorem boundsCheckType_sound_iff (e : ExpandedPolicydb) {child parent : Nat}
    (hchild : e.isType child = true) (hparent : e.isType parent = true) (numbad : Nat) :
    ∃ r, boundsCheckType e.toPolicydb (child + 1) (parent + 1) numbad = .ok r ∧
      r.numbad = numbad + r.bad.length ∧ ((r.bad = [] → BoundsSound e.toPolicydb child parent) ↔
        (DataCovered e.toPolicydb child parent → NoFalseCover e.toPolicydb child parent)) := by
  obtain ⟨r, hr, hcount, hbad⟩ := boundsCheckType_bad e hchild hparent numbad
  refine ⟨r, hr, hcount, ?_⟩
  rw [hbad]
  constructor
  · intro hsound hcov state b hb ht _
    exact hsound hcov state b hb ht
  · intro hno hcov
    exact boundsSound_of_covered e hcov (hno hcov)

/-- Type `2` is bounded by type `1`. On the true list of a conditional, the child is
allowed permission `0` of class `1` on type `0`, and the parent has a rule with the
same data: an allow rule, or with `audit` an auditallow rule. -/
def boundsPolicydb (audit : Bool) : ExpandedPolicydb where
  typeValToStruct := [some {}, some {}, some { bounds := 2 }]
  typeAttrMap := [.ofList [0], .ofList [1], .ofList [2]]
  attrTypeMap := [.ofList [0], .ofList [1], .ofList [2]]
  teCondAvtab :=
    { htable :=
        [[{ key := ⟨2, 1, 1, if audit then avtabAuditallow else avtabAllowed⟩
            datum := { data := 1 } },
          { key := ⟨3, 1, 1, avtabAllowed⟩, datum := { data := 1 }, addr := 1 }]]
      nel := 2 }
  condList := [{ expr := [.bool 1], trueList := [0, 1] }]
  maps := by cases audit <;> decide
  typesOnly := by cases audit <;> decide
  teKeys := Avtab.empty_keysValid
  condKeys := by cases audit <;> decide
  teXperms := Avtab.empty_xpermsValid
  condXperms := by cases audit <;> decide
  teWf := Avtab.empty_wf
  condWf := by
    refine ⟨fun i n hn => ?_, by cases audit <;> decide⟩
    cases i with
    | zero => exact Nat.le_zero.mp (avtabHash_le n.key 0)
    | succ i => simp at hn
  condAddrs := by cases audit <;> decide
  condDefined := by simp [condEvaluateExpr, condEvaluateLoop, condEvaluateStep, condExprMaxdepth]

/-- Nothing is reported for either policy. -/
theorem boundsPolicydb_reports_none (audit : Bool) :
    ∃ r, boundsCheckType (boundsPolicydb audit).toPolicydb 3 2 0 = .ok r ∧ r.bad = [] := by
  have hreport : (boundsCheckType (boundsPolicydb audit).toPolicydb 3 2 0).toOption.map
      BoundsBad.bad = some [] := by cases audit <;> decide +kernel
  cases hr : boundsCheckType (boundsPolicydb audit).toPolicydb 3 2 0 with
  | error err => simp [hr, Except.toOption] at hreport
  | ok r => exact ⟨r, rfl, by simpa [hr, Except.toOption] using hreport⟩

/-- With an allow rule for the parent the child stays within its bounds. -/
theorem boundsCheckType_sound_allow :
    ∃ r, boundsCheckType (boundsPolicydb false).toPolicydb 3 2 0 = .ok r ∧ r.bad = [] ∧
      BoundsSound (boundsPolicydb false).toPolicydb 2 1 := by
  obtain ⟨r, hr, hbad⟩ := boundsPolicydb_reports_none false
  obtain ⟨r', hr', -, hsound⟩ :=
    @boundsCheckType_sound_iff (boundsPolicydb false) 2 1 rfl rfl 0
  obtain rfl : r = r' := Except.ok.inj (hr.symm.trans hr')
  refine ⟨r, hr, hbad, hsound.mpr ?_ hbad⟩
  have hallow : ∀ c ∈ (boundsPolicydb false).condList,
      ∀ n ∈ (boundsPolicydb false).condRules (c.trueList ++ c.falseList),
        n.isKind avtabAllowed = true := by decide
  rintro - state b - - ⟨c, hc, n, hn, hkind, -⟩
  rw [hallow c hc n hn] at hkind
  cases hkind

/-- With an auditallow rule the parent does not have the permission of the child when
the Boolean is true, although nothing is reported. -/
theorem boundsCheckType_auditallow :
    (∃ r, boundsCheckType (boundsPolicydb true).toPolicydb 3 2 0 = .ok r ∧ r.bad = []) ∧
      ¬ BoundsSound (boundsPolicydb true).toPolicydb 2 1 := by
  constructor
  · exact boundsPolicydb_reports_none true
  · intro hsound
    have hchild : (⟨0, 1, 0⟩ : TargetPerm) ∈ (boundsPolicydb true).granted (fun _ => true) 2 := by
      rfl
    have hparent := hsound (fun _ => true) ⟨0, 1, 0⟩ hchild rfl
    rw [Policydb.granted, Set.mem_ofPred_eq] at hparent
    exact absurd hparent (by decide)

end SELinux.Sepol
