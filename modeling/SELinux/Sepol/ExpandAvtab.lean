import SELinux.Sepol.AvtabMultimap
import SELinux.Sepol.Policydb

/-! A rule table without attributes (`expand_avtab` in `expand.c`), as the old format of the
policy file needs it. Every rule is inserted once for each pair of types that its attributes
stand for, and rules that meet are merged. -/
namespace SELinux.Sepol

open AvtabKey List

def maxAvtabSize : Nat := maxAvtabHashBuckets <<< 1

/-- The node that `expand_avtab_insert` looks for: of extended permissions there may be several
for a key, and the one of the same kind and driver is meant. -/
def expandAvtabMatch (k : AvtabKey) (d : AvtabDatum) (n : AvtabNode) : Bool :=
  k.hits k.spec n && (k.specified &&& avtabXperms == 0 ||
    (n.datum.xperms.specified == d.xperms.specified && n.datum.xperms.driver == d.xperms.driver))

/-- The datum of a node after a rule has been merged into it; `none` is "Type conflict!". -/
def expandAvtabMerge (spec : BitVec 16) (old new : AvtabDatum) : Option AvtabDatum :=
  if spec = avtabAllowed ∨ spec = avtabAuditallow then
    some { old with data := old.data ||| new.data }
  else if spec = avtabAuditdeny then some { old with data := old.data &&& new.data }
  else if spec = avtabXpermsAllowed ∨ spec = avtabXpermsAuditallow ∨
    spec = avtabXpermsDontaudit then
    some { old with xperms := { old.xperms with perms := old.xperms.perms ||| new.xperms.perms } }
  else none

def expandAvtabInsert (a : Avtab) (k : AvtabKey) (d : AvtabDatum) : Option Avtab :=
  let stop (n : AvtabNode) : Bool := k.before n.key
  match Lib.scan (expandAvtabMatch k d) stop (a.chain k) with
  | [] => some (avtabInsertNonunique a { key := k, datum := d })
  | node :: _ =>
    if k.specified &&& avtabEnabled ≠ node.key.specified &&& avtabEnabled then
      some (avtabInsertNonunique a { key := k, datum := d })
    else do
      let datum ← expandAvtabMerge k.spec node.datum d
      let write := Lib.scanModify (expandAvtabMatch k d) stop fun n => { n with datum := datum }
      some { a with htable := a.htable.modify (avtabHash k a.mask) write }

/-- The type values that a value in a rule stands for: those of an attribute, or that of a type
alone. -/
def Policydb.ruleTypes (p : Policydb) (value : Nat) : List Nat :=
  if p.isType (value - 1) then [value] else (p.attrTypes (value - 1)).bits.map (· + 1)

/-- The fields of a key cut down to 16 bits. -/
def AvtabKey.stored (k : AvtabKey) : AvtabKey :=
  { k with sourceType := keyType k.sourceType, targetType := keyType k.targetType }

/-- `expand_avtab_node`. The four branches of the source differ in which of the two values are
expanded; the loop over the sources is the outer one. -/
def expandAvtabNode (p : Policydb) (k : AvtabKey) (d : AvtabDatum) (expa : Avtab) : Option Avtab :=
  (p.ruleTypes k.sourceType).foldlM (fun expa source =>
    (p.ruleTypes k.targetType).foldlM (fun expa target =>
      expandAvtabInsert expa { k with sourceType := source, targetType := target }.stored d) expa)
        expa

def expandAvtab (p : Policydb) (a : Avtab) : Option Avtab :=
  a.nodes.foldlM (fun expa n => expandAvtabNode p n.key n.datum expa) (avtabAlloc maxAvtabSize)

/-! ## The rules of a table without attributes -/

/-- The keys that a key with attributes stands for. -/
def Policydb.ruleKeys (p : Policydb) (k : AvtabKey) : List AvtabKey :=
  (p.ruleTypes k.sourceType).flatMap fun source =>
    (p.ruleTypes k.targetType).map fun target =>
      { k with sourceType := source, targetType := target }

def Policydb.rules (p : Policydb) (t : Avtab) : List (AvtabKey × AvtabDatum) :=
  t.nodes.flatMap fun n => (p.ruleKeys n.key).map fun k => (k, n.datum)

/-- What two rules of a kind give where they meet. -/
def ruleOp (spec : BitVec 16) (x y : BitVec 32) : BitVec 32 :=
  if spec = avtabAllowed ∨ spec = avtabAuditallow then x ||| y
  else if spec = avtabAuditdeny then x &&& y
  else x

/-- What rules give for a key: nothing, or the data of those for it taken together. -/
def ruleData (rules : List (AvtabKey × AvtabDatum)) (k : AvtabKey) : Option (BitVec 32) :=
  match rules.filter fun r => k.alike r.1 with
  | [] => none
  | r :: rs => some (rs.foldl (fun x r => ruleOp k.spec x r.2.data) r.2.data)

theorem ruleData_append (rules : List (AvtabKey × AvtabDatum)) (r : AvtabKey × AvtabDatum)
    (k : AvtabKey) : ruleData (rules ++ [r]) k = if k.alike r.1 then
        some ((ruleData rules k).elim r.2.data fun x => ruleOp k.spec x r.2.data)
      else ruleData rules k := by
  rw [ruleData, ruleData, filter_append]
  by_cases hr : k.alike r.1 = true
  · rw [if_pos hr, filter_cons_of_pos (by simpa using hr), filter_nil]
    cases rules.filter fun r => k.alike r.1 with
    | nil => rfl
    | cons r' rs => simp
  · simp [hr]

variable {k : AvtabKey} {p : Policydb} {t : Avtab}

theorem AvtabKey.Fits.stored_eq (h : k.Fits) : k.stored = k := by
  rw [stored, keyType_of_lt h.sourceType, keyType_of_lt h.targetType]

theorem expandAvtabNode_eq (p : Policydb) (k : AvtabKey) (d : AvtabDatum) (expa : Avtab) :
    expandAvtabNode p k d expa =
      (p.ruleKeys k).foldlM (fun expa c => expandAvtabInsert expa c.stored d) expa := by
  rw [expandAvtabNode, Policydb.ruleKeys]
  generalize p.ruleTypes k.sourceType = sources
  induction sources generalizing expa with
  | nil => rfl
  | cons source sources ih =>
    rw [foldlM_cons, flatMap_cons, foldlM_append, foldlM_map]
    exact bind_congr ih

theorem foldlM_stored {keys : List AvtabKey} (hfits : ∀ c ∈ keys, c.Fits) (d : AvtabDatum)
    (expa : Avtab) : keys.foldlM (fun expa c => expandAvtabInsert expa c.stored d) expa =
      keys.foldlM (fun expa c => expandAvtabInsert expa c d) expa := by
  induction keys generalizing expa with
  | nil => rw [foldlM_nil, foldlM_nil]
  | cons c keys ih =>
    obtain ⟨hfit, hfits⟩ := forall_mem_cons.mp hfits
    rw [foldlM_cons, foldlM_cons, hfit.stored_eq]
    exact bind_congr (ih hfits)

theorem expandAvtab_eq {t} (hfits : ∀ r ∈ p.rules t, r.1.Fits) : expandAvtab p t =
      (p.rules t).foldlM (fun expa r => expandAvtabInsert expa r.1 r.2)
        (avtabAlloc maxAvtabSize) := by
  rw [expandAvtab, Policydb.rules]
  rw [Policydb.rules] at hfits
  generalize avtabAlloc maxAvtabSize = expa
  generalize t.nodes = nodes at hfits
  induction nodes generalizing expa with
  | nil => rfl
  | cons n nodes ih =>
    rw [foldlM_cons, flatMap_cons, foldlM_append, foldlM_map]
    have hnode : ∀ c ∈ p.ruleKeys n.key, c.Fits := fun c hc =>
      hfits (c, n.datum) (mem_append_left _ (mem_map_of_mem hc))
    rw [expandAvtabNode_eq, foldlM_stored hnode]
    exact bind_congr fun expa => ih expa fun r hr => hfits r (mem_append_right _ hr)

/-! ## What expansion builds -/

/-- Where a table has nothing for a key, `avtab_insert` and `avtab_insert_nonunique` do the same. -/
theorem avtabInsertNonuniqueChain_eq {node : AvtabNode} {l}
    (h : ∀ n ∈ l, node.key.hits node.key.spec n = false) :
    avtabInsertChain node l = some (avtabInsertNonuniqueChain node l) := by
  induction l with
  | nil => rfl
  | cons cur next ih =>
    obtain ⟨hcur, hnext⟩ := forall_mem_cons.mp h
    rw [avtabInsertChain, avtabInsertNonuniqueChain, hcur, Bool.false_or, if_neg Bool.false_ne_true]
    split_ifs
    · rfl
    · rw [ih hnext]
      rfl

theorem Avtab.IsMap.insert_eq (h : t.IsMap) {k} (d : AvtabDatum) (hnone : avtabSearch t k = none) :
    avtabInsert t k d = .ok (avtabInsertNonunique t { key := k, datum := d }) := by
  have hne : t.htable ≠ [] := ne_nil_of_length_pos (Nat.zero_lt_of_lt (h.slots k))
  have hchain : avtabInsertChain { key := k, datum := d } (t.chain k) =
      some (avtabInsertNonuniqueChain { key := k, datum := d } (t.chain k)) :=
    avtabInsertNonuniqueChain_eq fun n hn => h.wf.not_hits hnone (Avtab.mem_nodes_of_mem_chain hn)
  have hset : t.htable.modify (avtabHash k t.mask)
      (avtabInsertNonuniqueChain { key := k, datum := d }) =
      t.htable.set (avtabHash k t.mask)
        (avtabInsertNonuniqueChain { key := k, datum := d } (t.chain k)) := by
    rw [modify_eq_set, Avtab.chain, getD_eq_getElem?_getD]
    rfl
  rw [avtabInsert, if_neg hne, hchain, avtabInsertNonunique, hset]

theorem expandAvtabMatch_eq (hx : k.spec &&& avtabXperms = 0) (d : AvtabDatum) :
    expandAvtabMatch k d = k.hits k.spec := by
  funext n
  rw [expandAvtabMatch, specified_and (by decide), hx]
  simp

/-- Access vectors that meet are merged. -/
theorem expandAvtabMerge_eq (hk : k.OneKind) (hx : k.spec &&& avtabXperms = 0)
    (ht : k.spec &&& avtabType = 0) (old new : AvtabDatum) :
    ∃ d, expandAvtabMerge k.spec old new = some d ∧ d.data = ruleOp k.spec old.data new.data := by
  have hall : specOrder.all (fun spec => spec &&& avtabXperms != 0 || spec &&& avtabType != 0 ||
      spec == avtabAllowed || spec == avtabAuditallow || spec == avtabAuditdeny) = true := by decide
  have hspec := all_eq_true.mp hall k.spec hk
  simp only [hx, ht, bne_self_eq_false, Bool.false_or, Bool.or_eq_true, beq_iff_eq] at hspec
  rw [expandAvtabMerge, ruleOp]
  rcases hspec with hor | hand
  · exact ⟨_, if_pos hor, (if_pos hor).symm⟩
  · have hne : ¬(k.spec = avtabAllowed ∨ k.spec = avtabAuditallow) := by
      rw [hand]
      decide
    simp_all

/-- A table built from rules without attributes: it has a node for each key, with what the rules
give for it. -/
structure ExpandsTo (rules : List (AvtabKey × AvtabDatum)) (a : Avtab) : Prop where
  isMap : a.IsMap
  nel : a.nel = a.nodes.length % 2 ^ 32
  keys : ∀ k, (∃ n ∈ a.nodes, n.key = k) ↔ ∃ r ∈ rules, r.1 = k
  data : ∀ k, k.OneKind → (avtabSearch a k).map AvtabDatum.data = ruleData rules k

theorem expandsTo_alloc : ExpandsTo [] (avtabAlloc maxAvtabSize) := by
  have hsize : maxAvtabSize ≠ 0 := by decide
  refine ⟨avtabAlloc_isMap hsize, ?_, by simp [avtabAlloc_nodes], fun k _ => ?_⟩
  · rw [avtabAlloc_nodes, avtabAlloc, if_neg hsize]
    rfl
  · rw [avtabAlloc_search]
    rfl

theorem AvtabKey.alike_comm (k c : AvtabKey) : k.alike c = c.alike k :=
  Bool.eq_iff_iff.mpr ⟨alike_symm, alike_symm⟩

theorem Avtab.IsMap.search_congr (h : t.IsMap) {c : AvtabKey} (hk : k.OneKind)
    (hkc : k.alike c = true) : avtabSearch t c = avtabSearch t k := by
  apply Option.ext
  intro d
  rw [h.search_iff (hk.congr hkc), h.search_iff hk]
  refine exists_congr fun n => and_congr_right fun _ => and_congr_left fun _ => ?_
  exact ⟨alike_trans hkc, alike_trans (alike_symm hkc)⟩

@[simp] theorem avtabModify_nel (t : Avtab) (k : AvtabKey) (f : AvtabDatum → AvtabDatum) :
    (avtabModify t k f).nel = t.nel := by
  cases t
  rfl

section Insert

variable {rules : List (AvtabKey × AvtabDatum)} {a : Avtab} (h : ExpandsTo rules a)
include h

theorem ExpandsTo.insert_new (d : AvtabDatum) (hk : k.OneKind) (hnone : avtabSearch a k = none) :
    ExpandsTo (rules ++ [(k, d)]) (avtabInsertNonunique a { key := k, datum := d }) := by
  obtain ⟨a', hins, hmap, hsearch⟩ := h.isMap.insert hk d hnone
  rw [h.isMap.insert_eq d hnone] at hins
  cases hins
  obtain ⟨-, -, hnel, hnodes⟩ :=
    avtabInsertNonunique_inserted { key := k, datum := d } (h.isMap.slots k)
  refine ⟨hmap, ?_, fun c => ?_, fun c hc => ?_⟩
  · simp [hnel, h.nel, hnodes.length_eq]
  · simp only [hnodes.mem_iff, mem_cons, h.keys c, mem_append, or_and_right, exists_or,
      not_mem_nil, or_false, exists_eq_left]
    exact or_comm
  · rw [hsearch c hc, ruleData_append, ← h.data c hc, alike_comm c k]
    split_ifs with hkc
    · rw [h.isMap.search_congr hk hkc, hnone]
      rfl
    · rfl

theorem ExpandsTo.insert_old {d old new : AvtabDatum} (hk : k.OneKind)
    (hsome : avtabSearch a k = some old) (hkeys : ∃ r ∈ rules, r.1 = k)
    (hnew : new.data = ruleOp k.spec old.data d.data) :
    ExpandsTo (rules ++ [(k, d)]) (avtabModify a k fun _ => new) := by
  have hnodes := h.isMap.modify_nodes hk fun _ => new
  refine ⟨h.isMap.modify_isMap hk _, ?_, fun c => ?_, fun c hc => ?_⟩
  · simp [hnodes, h.nel]
  · simp only [hnodes, mem_map, exists_exists_and_eq_and, AvtabNode.modifyAt_key, h.keys c,
      mem_append,
      or_and_right, exists_or, mem_singleton, exists_eq_left]
    constructor
    · exact .inl
    · rintro (hold | rfl)
      · exact hold
      · exact hkeys
  · rw [h.isMap.modify_search hk _ hc, ruleData_append, ← h.data c hc, alike_comm c k]
    split_ifs with hkc
    · rw [h.isMap.search_congr hk hkc, hsome, ← (alike_iff.mp hkc).2]
      exact congrArg some hnew
    · rfl

theorem ExpandsTo.exists_rule (hk : k.OneKind) {node} (hmem : node ∈ a.chain k)
    (hit : k.hits k.spec node = true) : ∃ r ∈ rules, r.1 = node.key ∧ k.alike r.1 = true := by
  have hnode := Avtab.mem_nodes_of_mem_chain hmem
  obtain ⟨r, hr, hrn⟩ := (h.keys node.key).mp ⟨node, hnode, rfl⟩
  refine ⟨r, hr, hrn, ?_⟩
  rwa [hrn, ← hits_eq_alike hk (h.isMap.kinds node hnode)]

/-- One rule more. A type rule must be the first for its key, and rules that meet must have the
same enabled flag. -/
theorem ExpandsTo.insert (d : AvtabDatum) (hk : k.OneKind)
    (hx : k.spec &&& avtabXperms = 0) (hflag : ∀ r ∈ rules, k.alike r.1 = true → r.1 = k)
    (htype : ∀ r ∈ rules, k.alike r.1 = true → k.spec &&& avtabType = 0) :
    ∃ a', expandAvtabInsert a k d = some a' ∧ ExpandsTo (rules ++ [(k, d)]) a' := by
  unfold expandAvtabInsert
  simp only [expandAvtabMatch_eq hx]
  rcases Lib.scan_cases (k.hits k.spec) (fun n => k.before n.key) (a.chain k) with
    hnil | ⟨node, rest, hcons, hit, hmem⟩
  · have hnone : avtabSearch a k = none := by
      rw [avtabSearch, avtabSearchNode, hnil]
      rfl
    rw [hnil]
    exact ⟨_, rfl, h.insert_new d hk hnone⟩
  · have hsome : avtabSearch a k = some node.datum := by
      rw [avtabSearch, avtabSearchNode, hcons]
      rfl
    obtain ⟨r, hr, hrn, hal⟩ := h.exists_rule hk hmem hit
    have hkey := hflag r hr hal
    obtain ⟨new, hmerge, hnew⟩ := expandAvtabMerge_eq hk hx (htype r hr hal) node.datum d
    rw [hcons]
    simp only [← hrn, hkey, ne_eq, not_true_eq_false, if_false, hmerge]
    exact ⟨_, rfl, h.insert_old hk hsome ⟨r, hr, hkey⟩ hnew⟩

end Insert

/-- The rules of a table can be merged: none is for extended permissions, each has one kind, those
that meet have the same enabled flag, and of a type rule there is only one. -/
structure Mergeable (rules : List (AvtabKey × AvtabDatum)) : Prop where
  kinds : ∀ r ∈ rules, r.1.OneKind ∧ r.1.spec &&& avtabXperms = 0
  flags : rules.Pairwise fun r r' => r'.1.alike r.1 = true → r.1 = r'.1
  types : rules.Pairwise fun r r' => r'.1.alike r.1 = true → r'.1.spec &&& avtabType = 0

theorem Mergeable.insert_all {rules l : List (AvtabKey × AvtabDatum)} (hm : Mergeable (rules ++ l))
    {a} (h : ExpandsTo rules a) :
    ∃ a', l.foldlM (fun a r => expandAvtabInsert a r.1 r.2) a = some a' ∧
      ExpandsTo (rules ++ l) a' := by
  induction l generalizing rules a with
  | nil => exact ⟨a, rfl, by simpa using h⟩
  | cons r l ih =>
    obtain ⟨hk, hx⟩ := hm.kinds r (by simp)
    have hflag := (pairwise_append.mp hm.flags).2.2
    have htype := (pairwise_append.mp hm.types).2.2
    obtain ⟨a1, hins, h1⟩ := h.insert r.2 hk hx (fun r' hr' => hflag r' hr' r mem_cons_self)
      (fun r' hr' => htype r' hr' r mem_cons_self)
    rw [append_cons] at hm ⊢
    obtain ⟨a', hfold, h'⟩ := ih hm h1
    refine ⟨a', ?_, h'⟩
    rw [foldlM_cons, hins]
    exact hfold

/-- A table whose rules fit and can be merged is expanded. -/
theorem expandAvtab_expandsTo {t} (hfits : ∀ r ∈ p.rules t, r.1.Fits)
    (hm : Mergeable (p.rules t)) : ∃ a, expandAvtab p t = some a ∧ ExpandsTo (p.rules t) a := by
  rw [expandAvtab_eq hfits]
  exact @Mergeable.insert_all [] _ hm _ expandsTo_alloc

end SELinux.Sepol
