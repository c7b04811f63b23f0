import SELinux.Cil.AvRules
import SELinux.Sepol.ExpandAvtab

/-!
# What the rule table of CIL grants

Whether attributes are expanded or kept, the table grants what the rules say, as long as values fit
in the 16 bits that a rule key has for them. The compiler does not check that they do.
-/

namespace SELinux.Cil

open Db Lib Sepol List

/-! ## Insertion -/

/-- A table that rules were merged into: it has their effects. -/
structure Holds (rules : List AvtabNode) (t : Avtab) : Prop where
  isMap : t.IsMap
  effects : ∀ test, KeyTest test →
    pool (testEffects test) t.nodes = pool (testEffects test) rules

theorem holds_alloc : Holds [] (avtabAlloc maxAvtabSize) := by
  refine ⟨avtabAlloc_isMap (by decide), fun test _ => ?_⟩
  rw [avtabAlloc_nodes]

section

variable (kind : AvruleKind) (src tgt obj : Nat)

theorem AvruleKind.specified_mem : kind.specified ∈ avKinds := by
  cases kind <;> decide

theorem ruleKey_spec : (ruleKey kind src tgt obj).spec = kind.specified := by
  show kind.specified &&& ~~~avtabEnabled = kind.specified
  cases kind <;> decide

theorem ruleKey_oneKind : (ruleKey kind src tgt obj).OneKind := by
  rw [AvtabKey.OneKind, ruleKey_spec]
  cases kind <;> decide

theorem merge_eq (old new : BitVec 32) : (if kind = .dontaudit then old &&& new else old ||| new) =
      mergeData kind.specified old new := by
  cases kind <;> rfl

/-- A rule as it is inserted. -/
def insertedNode (data : BitVec 32) : AvtabNode :=
  { key := ruleKey kind src tgt obj, datum := { data := data } }

end

theorem Holds.insertAvrule {rules t} (h : Holds rules t) (kind : AvruleKind) (src tgt obj : Nat)
    (data : BitVec 32) : ∃ t', insertAvrule t kind src tgt obj data = some t' ∧
      Holds (rules ++ [insertedNode kind src tgt obj data]) t' := by
  have hk := ruleKey_oneKind kind src tgt obj
  have hspec := ruleKey_spec kind src tgt obj
  rw [Cil.insertAvrule, insertedNode]
  generalize ruleKey kind src tgt obj = k at hk hspec
  cases hsearch : avtabSearch t k with
  | none =>
    obtain ⟨t', hins, hmap, -⟩ := h.isMap.insert hk { data := data } hsearch
    obtain ⟨t2, hins2, hinserted⟩ := h.isMap.insert_nodes { data := data } hsearch
    cases hins.symm.trans hins2
    refine ⟨t', ?_, hmap, fun test htest => ?_⟩
    · rw [hins]
      rfl
    · simp [pool_perm hinserted.nodes, h.effects test htest, Set.union_comm]
  | some dup =>
    refine ⟨_, rfl, h.isMap.modify_isMap hk _, fun test htest => ?_⟩
    obtain ⟨node, hnode, halike, -⟩ := (h.isMap.search_iff hk).mp hsearch
    -- the nodes that are hit get the effects of the rule in addition
    have hstep (f : AvtabDatum → AvtabDatum)
        (hf : ∀ d, (f d).data = mergeData kind.specified d.data data) (n : AvtabNode)
          (hn : n ∈ t.nodes) :
        testEffects test (n.modifyAt k f) =
          if k.alike n.key then testEffects test n ∪ testEffects test
            { key := k, datum := { data := data } }
          else testEffects test n := by
      rw [← AvtabKey.hits_eq_alike hk (h.isMap.kinds n hn)]
      by_cases hit : k.hits k.spec n = true
      · rw [if_pos hit]
        refine testEffects_merge htest ?_ ?_ (AvtabNode.modifyAt_key n) ?_
        · rw [hspec]
          exact kind.specified_mem
        · rwa [← AvtabKey.hits_eq_alike hk (h.isMap.kinds n hn)]
        · rw [AvtabNode.modifyAt_of_hit hit, hf, hspec]
      · rw [if_neg hit, AvtabNode.modifyAt_of_miss (Bool.eq_false_iff.mpr hit)]
    rw [h.isMap.modify_nodes hk, pool_append, ← h.effects test htest]
    ext e
    simp only [mem_pool, mem_map, Set.mem_union, mem_singleton]
    constructor
    · rintro ⟨_, ⟨n, hn, rfl⟩, he⟩
      rw [hstep _ (fun d => merge_eq kind d.data data) n hn] at he
      split_ifs at he with hal
      · rcases he with he | he
        · exact .inl ⟨n, hn, he⟩
        · exact .inr ⟨_, rfl, he⟩
      · exact .inl ⟨n, hn, he⟩
    · rintro (⟨n, hn, he⟩ | ⟨_, rfl, he⟩)
      · refine ⟨_, ⟨n, hn, rfl⟩, ?_⟩
        rw [hstep _ (fun d => merge_eq kind d.data data) n hn]
        split_ifs
        · exact .inl he
        · exact he
      · refine ⟨_, ⟨node, hnode, rfl⟩, ?_⟩
        rw [hstep _ (fun d => merge_eq kind d.data data) node hnode, if_pos halike]
        exact .inr he

/-! ## One class with permissions -/

section Leaf

variable (p : Tables) (kind : AvruleKind) (src tgt : TypeName) (leaf : Nat × List Nat)

/-- What is inserted for a pair of names and a class with permissions. -/
def leafNodes : List AvtabNode :=
  match p.pClasses leaf.1, p.typeValue src, p.typeValue tgt with
  | some c, some s, some t =>
    let data := (permsToDatum leaf.2 c).getD 0
    if data = 0 then []
    else [insertedNode kind s t c.value (if kind = .dontaudit then ~~~data else data)]
  | _, _, _ => []

/-- All that is looked up is there. -/
def LeafDefined : Prop :=
  ∃ c data, p.pClasses leaf.1 = some c ∧ permsToDatum leaf.2 c = some data ∧
    (data ≠ 0 → ∃ s t, p.typeValue src = some s ∧ p.typeValue tgt = some t)

variable {p kind src tgt leaf}

theorem leafNodes_zero {c} (hc : p.pClasses leaf.1 = some c)
    (hdata : permsToDatum leaf.2 c = some 0) : leafNodes p kind src tgt leaf = [] := by
  rw [leafNodes, hc]
  cases p.typeValue src <;> cases p.typeValue tgt <;> simp [hdata]

theorem leafNodes_eq {c : SepolClass} {data s t} (hc : p.pClasses leaf.1 = some c)
    (hdata : permsToDatum leaf.2 c = some data) (hne : data ≠ 0) (hs : p.typeValue src = some s)
    (ht : p.typeValue tgt = some t) : leafNodes p kind src tgt leaf =
      [insertedNode kind s t c.value (if kind = .dontaudit then ~~~data else data)] := by
  rw [leafNodes, hc, hs, ht]
  simp only [hdata, Option.getD_some]
  rw [if_neg hne]

theorem Holds.helper {rules t t'} (h : Holds rules t)
    (hhelper : avruleExpandHelper p kind src tgt leaf.1 leaf.2 t = some t') :
    Holds (rules ++ leafNodes p kind src tgt leaf) t' ∧ LeafDefined p src tgt leaf := by
  obtain ⟨c, hc, hhelper⟩ := Option.bind_eq_some_iff.mp hhelper
  obtain ⟨data, hdata, hhelper⟩ := Option.bind_eq_some_iff.mp hhelper
  by_cases hzero : data = 0
  · rw [if_pos hzero, Option.some.injEq] at hhelper
    rw [leafNodes_zero hc (hzero ▸ hdata), append_nil, ← hhelper]
    exact ⟨h, c, data, hc, hdata, fun hne => absurd hzero hne⟩
  · rw [if_neg hzero] at hhelper
    obtain ⟨s, hs, hhelper⟩ := Option.bind_eq_some_iff.mp hhelper
    obtain ⟨v, hv, hhelper⟩ := Option.bind_eq_some_iff.mp hhelper
    obtain ⟨t1, hins, hholds⟩ :=
      h.insertAvrule kind s v c.value (if kind = .dontaudit then ~~~data else data)
    rw [hins, Option.some.injEq] at hhelper
    rw [leafNodes_eq hc hdata hzero hs hv, ← hhelper]
    exact ⟨hholds, c, data, hc, hdata, fun _ => ⟨s, v, hs, hv⟩⟩

end Leaf

/-! ## Sets and map classes -/

section Expand

variable (p : Tables) (kind : AvruleKind) (src tgt : TypeName)

mutual

theorem avruleExpand_eq : ∀ (cps : List ClassPerms) (t : Avtab), avruleExpand p kind src tgt cps t =
    (leaves cps).foldlM (fun t leaf => avruleExpandHelper p kind src tgt leaf.1 leaf.2 t) t
  | [], t => by
    rfl
  | item :: rest, t => by
    rw [avruleExpand, leaves, foldlM_append, avruleExpandItem_eq item t]
    congr 1
    funext t1
    exact avruleExpand_eq rest t1

theorem avruleExpandItem_eq :
    ∀ (item : ClassPerms) (t : Avtab), avruleExpandItem p kind src tgt item t =
    (itemLeaves item).foldlM (fun t leaf => avruleExpandHelper p kind src tgt leaf.1 leaf.2 t) t
  | .cls cls perms, t => by
    rw [avruleExpandItem, itemLeaves]
    simp
  | .map perms, t => by
    exact avruleExpandMap_eq perms t
  | .set classperms, t => by
    exact avruleExpand_eq classperms t

theorem avruleExpandMap_eq : ∀ (perms : List (List ClassPerms)) (t : Avtab),
    avruleExpandMap p kind src tgt perms t =
      (mapLeaves perms).foldlM (fun t leaf => avruleExpandHelper p kind src tgt leaf.1 leaf.2 t) t
  | [], t => by
    rfl
  | classperms :: rest, t => by
    rw [avruleExpandMap, mapLeaves, foldlM_append, avruleExpand_eq classperms t]
    congr 1
    funext t1
    exact avruleExpandMap_eq rest t1

end

end Expand

/-! ## All rules -/

/-- What is inserted for a rule. -/
def ruleNodes (db : Db) (p : Tables) (r : Avrule) : List AvtabNode :=
  if db.uses r then
    (db.rulePairs r).flatMap fun pair =>
      (leaves r.classperms).flatMap (leafNodes p r.kind pair.1 pair.2)
  else []

def RuleDefined (db : Db) (p : Tables) (r : Avrule) : Prop :=
  db.uses r = true →
    ∀ pair ∈ db.rulePairs r, ∀ leaf ∈ leaves r.classperms, LeafDefined p pair.1 pair.2 leaf

theorem Holds.rule {db p rules t t' r} (h : Holds rules t)
    (hr : avruleToPolicydb db p t r = some t') :
    Holds (rules ++ ruleNodes db p r) t' ∧ RuleDefined db p r := by
  rw [avruleToPolicydb] at hr
  by_cases hoff : r.kind = .dontaudit ∧ db.disableDontaudit = true
  · have huses : db.uses r = false := by simp [uses, hoff]
    rw [if_pos hoff, Option.some.injEq] at hr
    rw [ruleNodes, huses, RuleDefined, huses, ← hr]
    simpa using h
  · have huses : db.uses r = true := by simpa [uses, imp_iff_not_or] using hoff
    rw [if_neg hoff] at hr
    rw [ruleNodes, if_pos huses]
    -- the loop over the pairs, and in it the loop over the classes
    have hpairs := foldlM_record
      (g := fun pair => (leaves r.classperms).flatMap (leafNodes p r.kind pair.1 pair.2))
      (D := fun pair => ∀ leaf ∈ leaves r.classperms, LeafDefined p pair.1 pair.2 leaf) ?_ h hr
    · exact ⟨hpairs.1, fun _ => hpairs.2⟩
    · intro record t1 t2 pair h1 hexpand
      rw [avruleExpand_eq] at hexpand
      exact foldlM_record (fun _ _ _ _ h2 hhelper => h2.helper hhelper) h1 hexpand

theorem avrulesToPolicydb_holds {db p} {rules : List Avrule} {t}
    (h : avrulesToPolicydb db p rules (avtabAlloc maxAvtabSize) = some t) :
    Holds (rules.flatMap (ruleNodes db p)) t ∧ ∀ r ∈ rules, RuleDefined db p r :=
  foldlM_record (fun _ _ _ _ h1 hr => h1.rule hr) holds_alloc h

/-! ## Names and keys -/

/-- Values that are stored in keys for a pair of names and a class with permissions still stand for
what they stood for: each name for the types it contains, and the class for itself. Without
permissions nothing is stored. -/
def LeafFits (db : Db) (p : Tables) (src tgt : TypeName) (leaf : Nat × List Nat) : Prop :=
  ∀ c data v w, p.pClasses leaf.1 = some c → permsToDatum leaf.2 c = some data → data ≠ 0 →
    p.typeValue src = some v → p.typeValue tgt = some w →
      (∀ s, p.stands db (keyType v) s = decide (s ∈ db.expandType src)) ∧
      (∀ t, p.stands db (keyType w) t = decide (t ∈ db.expandType tgt)) ∧
      ((∃ s, s ∈ db.expandType src) → (∃ t, t ∈ db.expandType tgt) → c.value % 2 ^ 16 = c.value)

/-- So it is for all that the rules of the list are inserted for. -/
def FitsKeys (db : Db) (p : Tables) (rules : List Avrule) : Prop :=
  ∀ r ∈ rules, db.uses r = true → ∀ pair ∈ db.rulePairs r, ∀ leaf ∈ leaves r.classperms,
    LeafFits db p pair.1 pair.2 leaf

theorem reads_keyTest (p : Tables) (db : Db) (s t c : Nat) : KeyTest (p.reads db s t c) := by
  intro n m hsame
  obtain ⟨hsource, htarget, hclass⟩ := AvtabKey.same_iff.mp hsame
  simp only [Tables.reads, hsource, htarget, hclass]

/-- An expanded attribute is replaced by its types. -/
theorem Db.exists_ruleNames {db : Db} {n s} :
    (∃ m ∈ db.ruleNames n, s ∈ db.expandType m) ↔ s ∈ db.expandType n := by
  rw [ruleNames]
  split_ifs
  · simp [expandType]
  · simp

/-- The four ways to expand a rule cover the same types. -/
theorem Db.exists_rulePairs {db : Db} {r : Avrule} {s t : Nat} :
    (∃ pair ∈ db.rulePairs r, s ∈ db.expandType pair.1 ∧ t ∈ db.expandType pair.2) ↔
      r.covers db s t = true := by
  rw [rulePairs, Avrule.covers, Bool.and_eq_true, decide_eq_true_iff]
  cases r.tgt with
  | none =>
    rw [decide_eq_true_iff]
    constructor
    · rintro ⟨_, hpair, hs, ht⟩
      obtain ⟨v, hv, rfl⟩ := mem_map.mp hpair
      cases mem_singleton.mp hs
      exact ⟨hv, mem_singleton.mp ht⟩
    · rintro ⟨hs, rfl⟩
      exact ⟨_, mem_map_of_mem hs, mem_singleton.mpr rfl, mem_singleton.mpr rfl⟩
  | some tgt =>
    rw [decide_eq_true_iff, ← exists_ruleNames, ← exists_ruleNames (n := tgt)]
    constructor
    · rintro ⟨_, hpair, hs, ht⟩
      obtain ⟨m, hm, hpair⟩ := mem_flatMap.mp hpair
      obtain ⟨m', hm', rfl⟩ := mem_map.mp hpair
      exact ⟨⟨m, hm, hs⟩, m', hm', ht⟩
    · rintro ⟨⟨m, hm, hs⟩, m', hm', ht⟩
      exact ⟨(m, m'), mem_flatMap.mpr ⟨m, hm, mem_map_of_mem hm'⟩, hs, ht⟩

/-! ## Effects -/

/-- The effect of a permission in a rule of the kind. -/
def AvruleKind.effect : AvruleKind → Nat → Effect
  | .allowed => .allowed
  | .auditallow => .auditallow
  | .dontaudit => .auditdeny

theorem insertedNode_has {kind kind' : AvruleKind} {src tgt obj b : Nat} {data : BitVec 32}
    (hb : b < 32) : datumHas (insertedNode kind src tgt obj
      (if kind = .dontaudit then ~~~data else data)).key.specified
      (insertedNode kind src tgt obj (if kind = .dontaudit then ~~~data else data)).datum
        (kind'.effect b) ↔ kind = kind' ∧ data.getLsbD b = true := by
  show datumHas kind.specified { data := if kind = .dontaudit then ~~~data else data }
    (kind'.effect b) ↔ _
  cases kind <;> cases kind' <;>
    simp [AvruleKind.effect, AvruleKind.specified, datumHas, hb, avtabAllowed, avtabAuditallow,
      avtabAuditdeny]

section Effects

variable {db : Db} {p : Tables} {kind kind' : AvruleKind} {s t c b : Nat}

theorem mem_leafNodes (kind kind' : AvruleKind) {src tgt leaf} (hfits : LeafFits db p src tgt leaf)
    (hdef : LeafDefined p src tgt leaf) (hb : b < 32) :
    kind'.effect b ∈ pool (testEffects (p.reads db s t c)) (leafNodes p kind src tgt leaf) ↔
      kind = kind' ∧ (s ∈ db.expandType src ∧ t ∈ db.expandType tgt) ∧
        (leafPerms p c leaf).getLsbD b = true := by
  obtain ⟨cls, data, hcls, hdata, hvalues⟩ := hdef
  by_cases hzero : data = 0
  · simp [leafPerms, hcls, hdata, hzero, leafNodes_zero hcls (hzero ▸ hdata)]
  · obtain ⟨sv, tv, hsv, htv⟩ := hvalues hzero
    obtain ⟨hstands, hstands', hclass⟩ := hfits cls data sv tv hcls hdata hzero hsv htv
    have hperms : leafPerms p c leaf = if cls.value = c then data else 0 := by
      simp [leafPerms, hcls, hdata]
    have hreads (d : BitVec 32) : p.reads db s t c (insertedNode kind sv tv cls.value d) = true ↔
        (s ∈ db.expandType src ∧ t ∈ db.expandType tgt) ∧ cls.value % 2 ^ 16 = c := by
      show (p.stands db (keyType sv) s && p.stands db (keyType tv) t && cls.value % 2 ^ 16 == c) =
          true ↔ _
      simp [hstands, hstands']
    rw [leafNodes_eq hcls hdata hzero hsv htv, hperms, pool_cons, pool_nil, Set.union_empty,
      testEffects, Set.mem_ofPred_eq,
      insertedNode_has hb, hreads]
    constructor
    · rintro ⟨⟨hs, hc⟩, hkind, hbit⟩
      rw [hclass ⟨s, hs.1⟩ ⟨t, hs.2⟩] at hc
      rw [if_pos hc]
      exact ⟨hkind, hs, hbit⟩
    · rintro ⟨hkind, hs, hbit⟩
      split_ifs at hbit with hc
      · exact ⟨⟨hs, (hclass ⟨s, hs.1⟩ ⟨t, hs.2⟩).trans hc⟩, hkind, hbit⟩
      · simp at hbit

theorem mem_ruleNodes {r : Avrule} (hfits : FitsKeys db p [r]) (hdef : RuleDefined db p r)
    (hb : b < 32) : kind.effect b ∈ pool (testEffects (p.reads db s t c)) (ruleNodes db p r) ↔
      (r.kind = kind ∧ db.uses r = true ∧ r.covers db s t = true) ∧
        (r.perms p c).getLsbD b = true := by
  rw [ruleNodes, Avrule.perms, getLsbD_foldr_or]
  by_cases huses : db.uses r = true
  · rw [if_pos huses, mem_pool_flatMap, ← exists_rulePairs]
    have hleaf (pair : TypeName × TypeName) (hpair : pair ∈ db.rulePairs r) (leaf : Nat × List Nat)
        (hl : leaf ∈ leaves r.classperms) :=
      mem_leafNodes r.kind kind (s := s) (t := t) (c := c)
        (hfits r mem_cons_self huses pair hpair leaf hl) (hdef huses pair hpair leaf hl) hb
    constructor
    · rintro ⟨pair, hpair, he⟩
      obtain ⟨leaf, hl, he⟩ := mem_pool_flatMap.mp he
      obtain ⟨hkind, hs, hbit⟩ := (hleaf pair hpair leaf hl).mp he
      exact ⟨⟨hkind, huses, pair, hpair, hs⟩, leaf, hl, hbit⟩
    · rintro ⟨⟨hkind, -, pair, hpair, hs⟩, leaf, hl, hbit⟩
      exact ⟨pair, hpair,
        mem_pool_flatMap.mpr ⟨leaf, hl, (hleaf pair hpair leaf hl).mpr ⟨hkind, hs, hbit⟩⟩⟩
  · simp [huses]

/-- The effects of the table are the permissions of the rules. -/
theorem mem_effects (kind : AvruleKind) {rules} (hfits : FitsKeys db p rules) {table : Avtab}
    (h : avrulesToPolicydb db p rules (avtabAlloc maxAvtabSize) = some table) (hb : b < 32) :
    kind.effect b ∈ pool (testEffects (p.reads db s t c)) table.nodes ↔
      (db.rulePerms p rules kind s t c).getLsbD b = true := by
  obtain ⟨hholds, hdef⟩ := avrulesToPolicydb_holds h
  have hone : ∀ r ∈ rules, FitsKeys db p [r] := fun r hr _ h => mem_singleton.mp h ▸ hfits r hr
  rw [hholds.effects _ (reads_keyTest p db s t c), mem_pool_flatMap, rulePerms, getLsbD_foldr_or]
  constructor
  · rintro ⟨r, hr, he⟩
    obtain ⟨⟨hkind, huses, hcovers⟩, hbit⟩ := (mem_ruleNodes (hone r hr) (hdef r hr) hb).mp he
    exact ⟨r, by simp [hr, hkind, huses, hcovers], hbit⟩
  · rintro ⟨r, hr, hbit⟩
    simp only [mem_filter, Bool.and_eq_true, decide_eq_true_iff] at hr
    obtain ⟨hr, ⟨hkind, huses⟩, hcovers⟩ := hr
    exact ⟨r, hr, (mem_ruleNodes (hone r hr) (hdef r hr) hb).mpr ⟨⟨hkind, huses, hcovers⟩, hbit⟩⟩

end Effects

/-! ## Access -/

/-- The rule `allow n n (cls perms)`. -/
def allowSame (n : TypeName) (cls : Nat) (perms : List Nat) : Avrule :=
  { kind := .allowed, src := n, tgt := some n, classperms := [.cls cls perms] }

section AllowSame

variable {db : Db} {p : Tables} {n : TypeName} {cls v : Nat} {c : SepolClass} {perms : List Nat}
  {data : BitVec 32}

theorem allowSame_eq (hc : p.pClasses cls = some c) (hdata : permsToDatum perms c = some data)
    (hne : data ≠ 0) (hv : p.typeValue n = some v) (hexpand : db.shouldExpandAttribute n = false)
    (t : Avtab) : avrulesToPolicydb db p [allowSame n cls perms] t =
      insertAvrule t .allowed v v c.value data := by
  have hhelper :
      avruleExpandHelper p .allowed n n cls perms t = insertAvrule t .allowed v v c.value data := by
    simpa [avruleExpandHelper, hc, hdata, hv] using fun hzero => absurd hzero hne
  simp [rulePairs, allowSame, ruleNames, hexpand, avruleToPolicydb, ← hhelper, avruleExpand,
    avruleExpandItem, avrulesToPolicydb]

theorem allowSame_holds (hc : p.pClasses cls = some c) (hdata : permsToDatum perms c = some data)
    (hne : data ≠ 0) (hv : p.typeValue n = some v) (hexpand : db.shouldExpandAttribute n = false) :
    ∃ t, avrulesToPolicydb db p [allowSame n cls perms] (avtabAlloc maxAvtabSize) = some t ∧
      Holds [insertedNode .allowed v v c.value data] t := by
  obtain ⟨t, hins, hholds⟩ := holds_alloc.insertAvrule .allowed v v c.value data
  exact ⟨t, (allowSame_eq hc hdata hne hv hexpand _).trans hins, hholds⟩

/-- Who gets the permissions in the table. -/
theorem Holds.allowed_bit {t : Avtab} (hholds : Holds [insertedNode .allowed v v c.value data] t)
    (db : Db) {b : Nat} (hbit : data.getLsbD b = true) (s s' k : Nat) :
    (accessVectors t.nodes (p.reads db s s' k)).allowed.getLsbD b = true ↔
      (p.stands db (keyType v) s = true ∧ p.stands db (keyType v) s' = true) ∧
        c.value % 2 ^ 16 = k := by
  rw [accessVectors_allowed, hholds.effects _ (reads_keyTest p db s s' k), pool_cons, pool_nil,
    Set.union_empty, testEffects, Set.mem_ofPred_eq]
  show ((p.stands db (keyType v) s && p.stands db (keyType v) s' && c.value % 2 ^ 16 == k) = true ∧
    avtabAllowed &&& avtabAllowed ≠ 0 ∧ data.getLsbD b = true) ↔ _
  rw [Bool.and_eq_true, Bool.and_eq_true, beq_iff_eq, and_iff_left ⟨by decide, hbit⟩]

end AllowSame

/-- The types with the numbers below `count`, and classes with one permission. -/
def tablesOf (count : Nat) : Tables where
  pTypes := (range count).map .type
  nodup := nodup_range.map fun _ _ h => TypeName.type.inj h
  pClasses := fun _ => some { value := 1, permissions := fun _ => some 1, common := none }

def plainDb : Db where
  attrTypes := fun _ => ∅
  keep := fun _ => true
  attrsExpandSize := 0
  disableDontaudit := false

theorem tablesOf_typeValue {count k : Nat} (hk : k < count) :
    (tablesOf count).typeValue (.type k) = some (k + 1) := by
  have hidx : ((range count).map TypeName.type).idxOf? (.type k) = some k := by
    refine findIdx?_eq_some_iff_getElem.mpr ⟨by simpa using hk, by simp, fun j hj => ?_⟩
    have hne : j ≠ k := by omega
    simpa using hne
  rw [Tables.typeValue, tablesOf, hidx]
  rfl

theorem tablesOf_stands {count k : Nat} (hk : k < count) :
    (tablesOf count).stands plainDb (k + 1) k = true := by
  simp [getElem?_range hk, Tables.stands, tablesOf, expandType]

end SELinux.Cil
