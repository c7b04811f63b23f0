import SELinux.Sepol.ConditionalRead

/-! How the compiler of CIL puts type rules into the tables of a policy
(`__cil_insert_type_rule` in `cil_binary.c`). A rule in a conditional is compared with the
unconditional rule for its key, and with the conditional rule for its key that was put in last,
unless the other list of its conditional has a rule for the key. -/
namespace SELinux.Cil

open List Sepol

/-! ## Model -/

def cilTypeTransition : Nat := 16
def cilTypeMember : Nat := 32
def cilTypeChange : Nat := 64

/-- The arguments that say what the rule is. -/
structure TypeRule where
  kind : Nat
  src : Nat
  tgt : Nat
  obj : Nat
  res : BitVec 32

/-- The kind of a rule in a key, and `none` for what is no kind of type rules. -/
def TypeRule.specified (r : TypeRule) : Option (BitVec 16) :=
  if r.kind = cilTypeTransition then some avtabTransition
  else if r.kind = cilTypeChange then some avtabChange
  else if r.kind = cilTypeMember then some avtabMember
  else none

/-- The fields of a key have 16 bits. -/
def TypeRule.key (r : TypeRule) (specified : BitVec 16) : AvtabKey :=
  { sourceType := keyType r.src, targetType := keyType r.tgt, targetClass := r.obj % 2 ^ 16,
    specified }

/-- The list of a conditional that holds the rules for `flavor`, `CIL_CONDTRUE` or not. -/
def condRules (c : CondNode) (flavor : Bool) : List Nat :=
  if flavor then c.trueList else c.falseList

/-- `cond_list->next = ...; ... = cond_list`. -/
def condPush (c : CondNode) (flavor : Bool) (addr : Nat) : CondNode :=
  if flavor then { c with trueList := addr :: c.trueList }
    else { c with falseList := addr :: c.falseList }

/-- `__cil_cond_insert_rule`, for the conditional at an index of the list. The writer only asks
whether `parse_context` is null. -/
def condInsertRule (p : Policydb) (key : AvtabKey) (datum : AvtabDatum) (i : Nat) (c : CondNode)
    (flavor : Bool) : Option Policydb :=
  if p.teCondAvtab.htable = [] then none
  else
    let addr := p.teCondAvtab.freshAddr
    some
      { p with
        teCondAvtab :=
          avtabInsertNonunique p.teCondAvtab { key, datum, addr, parseContext := some (1, true) }
        condList := p.condList.set i (condPush c flavor addr) }

/-- `cil_cond_av_list_search`. -/
def condAvListSearch (cond : Avtab) (key : AvtabKey) (list : List Nat) : Option AvtabDatum :=
  list.findSome? fun addr =>
    match cond.nodeAt addr with
    | none => none
    | some n => if key.hits key.specified n then some n.datum else none

/-- The second half of `__cil_insert_type_rule`, for a rule in a conditional. -/
def insertCondTypeRule (p : Policydb) (key : AvtabKey) (res : BitVec 32) (i : Nat) (c : CondNode)
    (flavor : Bool) : Option Policydb :=
  match avtabSearchNode p.teCondAvtab key with
  | [] => condInsertRule p key { data := res } i c flavor
  | existing :: _ =>
    match condAvListSearch p.teCondAvtab key (condRules c !flavor) with
    | some _ => condInsertRule p key { data := res } i c flavor
    | none =>
      if existing.datum.data ≠ res then none
      else
        match condAvListSearch p.teCondAvtab key (condRules c flavor) with
        | some _ => some p
        | none => condInsertRule p key { data := res } i c flavor

/-- `__cil_insert_type_rule`: the policy with the rule, or `none` for an error. A rule in a
conditional comes with the place of the conditional and the list it is for. -/
def cilInsertTypeRule (p : Policydb) (r : TypeRule) (cond : Option (Nat × Bool)) :
    Option Policydb := do
  let specified ← r.specified
  let key := r.key specified
  match avtabSearchNode p.teAvtab key with
  | existing :: _ => if existing.datum.data ≠ r.res then none else some p
  | [] =>
    match cond with
    | none =>
      let te ← (avtabInsert p.teAvtab key { data := r.res }).toOption
      some { p with teAvtab := te }
    | some (i, flavor) =>
      let c ← p.condList[i]?
      insertCondTypeRule p key r.res i c flavor

/-! ## Keys of type rules -/

theorem TypeRule.specified_mem {r : TypeRule} {specified} (h : r.specified = some specified) :
    specified ∈ typeKinds := by
  unfold TypeRule.specified at h
  split_ifs at h <;> cases h <;> decide

variable {k : AvtabKey} {n : AvtabNode}

theorem hits_iff_eq (hk : k.specified ∈ typeKinds) (hn : n.key.specified ∈ typeKinds) :
    k.hits k.specified n = true ↔ n.key = k := by
  have hkinds : ∀ s ∈ typeKinds, ∀ t ∈ typeKinds, s &&& t ≠ 0 ↔ t = s := by
    intro s hs t ht
    simp only [typeKinds, mem_cons, not_mem_nil, or_false] at hs ht
    rcases hs with rfl | rfl | rfl <;> rcases ht with rfl | rfl | rfl <;> decide
  rw [AvtabKey.hits_iff, AvtabKey.same_iff, hkinds _ hk _ hn]
  constructor
  · rintro ⟨⟨hsource, htarget, hclass⟩, hspecified⟩
    obtain ⟨source, target, tclass, specified⟩ := k
    subst hsource htarget hclass hspecified
    rfl
  · rintro rfl
    exact ⟨⟨rfl, rfl, rfl⟩, rfl⟩

theorem spec_eq_specified (hk : k.specified ∈ typeKinds) : k.spec = k.specified := by
  have hall : ∀ s ∈ typeKinds, s &&& ~~~avtabEnabled = s := by
    intro s hs
    simp only [typeKinds, mem_cons, not_mem_nil, or_false] at hs
    rcases hs with rfl | rfl | rfl <;> decide
  exact hall _ hk

variable {t : Avtab} {c : CondNode} {p : Policydb}

theorem key_ne_of_search (hwf : t.Wf) (hkinds : ∀ n ∈ t.nodes, n.key.specified ∈ typeKinds)
    (hk : k.specified ∈ typeKinds) (hnone : avtabSearchNode t k = []) (hn : n ∈ t.nodes) :
    n.key ≠ k := by
  intro heq
  have hmiss := hwf.not_hits (k := k) (by rw [avtabSearch, hnone]; rfl) hn
  rw [spec_eq_specified hk, Bool.eq_false_iff, Ne, hits_iff_eq hk (hkinds n hn)] at hmiss
  exact hmiss heq

/-- A search that finds something: a node with the key. -/
theorem key_eq_of_search (hkinds : ∀ n ∈ t.nodes, n.key.specified ∈ typeKinds)
    (hk : k.specified ∈ typeKinds) {node : AvtabNode} {next}
    (hfirst : avtabSearchNode t k = node :: next) : node ∈ t.nodes ∧ node.key = k := by
  rw [avtabSearchNode, spec_eq_specified hk] at hfirst
  rcases Lib.scan_cases (k.hits k.specified) (fun n => k.before n.key)
    (t.chain k) with hnil | ⟨n, rest, hcons, hhit, hmem⟩
  · rw [hnil] at hfirst
    cases hfirst
  · cases hcons.symm.trans hfirst
    have hn := Avtab.mem_nodes_of_mem_chain hmem
    exact ⟨hn, (hits_iff_eq hk (hkinds _ hn)).mp hhit⟩

/-! ## Which rules are in force -/

/-- For every state of the Booleans, the rules in force for one key have one result. -/
def Unambiguous (p : Policydb) : Prop :=
  ∀ state, ∀ a ∈ p.activeNodes state, ∀ b ∈ p.activeNodes state, a.key = b.key →
    a.datum.data = b.datum.data

/-- The tables while type rules are put in: the unconditional table has a key once, no key is in
both tables, and the lists are of nodes of the conditional table. -/
structure TypeTables (p : Policydb) : Prop where
  teWf : p.teAvtab.Wf
  teSlots : p.teAvtab.htable ≠ [] → ∀ k, avtabHash k p.teAvtab.mask < p.teAvtab.htable.length
  teKinds : ∀ n ∈ p.teAvtab.nodes, n.key.specified ∈ typeKinds
  teOnce : p.teAvtab.nodes.Pairwise fun a b => a.key ≠ b.key
  condWf : p.teCondAvtab.Wf
  condPlaced : p.teCondAvtab.htable ≠ [] → p.teCondAvtab.Placed
  condKinds : ∀ n ∈ p.teCondAvtab.nodes, n.key.specified ∈ typeKinds
  outside : ∀ a ∈ p.teAvtab.nodes, ∀ b ∈ p.teCondAvtab.nodes, a.key ≠ b.key
  listed : ∀ c ∈ p.condList, ∀ addr ∈ c.lists, addr ∈ p.teCondAvtab.nodes.map AvtabNode.addr

theorem exists_split_set {α : Type} {l : List α} {i c} (h : l[i]? = some c) :
    ∃ l1 l2, l = l1 ++ c :: l2 ∧ ∀ x, l.set i x = l1 ++ x :: l2 := by
  induction l generalizing i with
  | nil => simp at h
  | cons a l ih =>
    cases i with
    | zero =>
      rw [getElem?_cons_zero, Option.some_inj] at h
      exact ⟨[], l, by rw [h]; rfl, fun x => rfl⟩
    | succ i =>
      obtain ⟨l1, l2, hl, hset⟩ := ih h
      exact ⟨a :: l1, l2, by rw [hl]; rfl, fun x => by rw [set_cons_succ, hset]; rfl⟩

theorem mem_lists_condPush {flavor addr a} :
    a ∈ (condPush c flavor addr).lists ↔ a = addr ∨ a ∈ c.lists := by
  cases flavor <;> simp [condPush, CondNode.lists, or_left_comm]

theorem mem_activeList_condPush {flavor addr a state} :
    a ∈ (condPush c flavor addr).activeList state ↔
      (a = addr ∧ condEvaluateExpr state c.expr = some flavor) ∨ a ∈ c.activeList state := by
  cases flavor <;> cases h : condEvaluateExpr state c.expr with
  | none => simp [condPush, CondNode.activeList, h]
  | some v => cases v <;> simp [condPush, CondNode.activeList, h]

section Insert

variable {p' : Policydb} {key : AvtabKey} {datum : AvtabDatum} {i : Nat} {flavor : Bool}

theorem mem_activeAddrs_condPush (hc : p.condList[i]? = some c) {addr a state} :
    a ∈ activeAddrs (p.condList.set i (condPush c flavor addr)) state ↔
      (a = addr ∧ condEvaluateExpr state c.expr = some flavor) ∨
        a ∈ activeAddrs p.condList state := by
  obtain ⟨l1, l2, hl, hset⟩ := exists_split_set hc
  rw [hset, hl, activeAddrs, activeAddrs, flatMap_append, flatMap_append, flatMap_cons,
    flatMap_cons]
  simp only [mem_append, mem_activeList_condPush]
  tauto

variable (h : TypeTables p)
include h

theorem TypeTables.mem_activeAddrs {state addr}
    (ha : addr ∈ activeAddrs p.condList state) : addr ∈ p.teCondAvtab.nodes.map AvtabNode.addr := by
  obtain ⟨c, hc, haddr⟩ := mem_flatMap.mp ha
  refine h.listed c hc addr ?_
  unfold CondNode.activeList at haddr
  split at haddr
  · exact mem_append_left _ haddr
  · exact mem_append_right _ haddr
  · cases haddr

theorem TypeTables.nodes_condInsert (key datum) (hne : p.teCondAvtab.htable ≠ []) :
    (avtabInsertNonunique p.teCondAvtab
      { key, datum, addr := p.teCondAvtab.freshAddr, parseContext := some (1, true) }).nodes.Perm
      ({ key, datum, addr := p.teCondAvtab.freshAddr, parseContext := some (1, true) } ::
        p.teCondAvtab.nodes) :=
  avtabInsertNonunique_nodes ((h.condPlaced hne).slots key)

theorem TypeTables.mem_activeNodes (hc : p.condList[i]? = some c)
    (hins : condInsertRule p key datum i c flavor = some p') {state} :
    n ∈ p'.activeNodes state ↔ n ∈ p.activeNodes state ∨
      (n.key = key ∧ n.datum = datum ∧ n.addr = p.teCondAvtab.freshAddr ∧
        n.parseContext = some (1, true)) ∧ condEvaluateExpr state c.expr = some flavor := by
  unfold condInsertRule at hins
  split_ifs at hins with hne
  cases hins
  have hfresh := p.teCondAvtab.freshAddr_not_mem
  have hperm := h.nodes_condInsert key datum hne
  simp only [Policydb.activeNodes, mem_append, mem_filter, decide_eq_true_eq, hperm.mem_iff,
    mem_cons,
    mem_activeAddrs_condPush hc]
  rw [or_assoc]
  refine or_congr_right ⟨?_, ?_⟩
  · rintro ⟨rfl | hn, ⟨haddr, heval⟩ | hactive⟩
    · exact .inr ⟨⟨rfl, rfl, rfl, rfl⟩, heval⟩
    · exact absurd (h.mem_activeAddrs hactive) hfresh
    · exact absurd (haddr ▸ mem_map_of_mem hn) hfresh
    · exact .inl ⟨hn, hactive⟩
  · rintro (⟨hn, hactive⟩ | ⟨⟨hkey, hdatum, haddr, hcontext⟩, heval⟩)
    · exact ⟨.inr hn, .inr hactive⟩
    · obtain ⟨nkey, ndatum, naddr, ncontext⟩ := n
      subst hkey hdatum haddr hcontext
      exact ⟨.inl rfl, .inl ⟨rfl, heval⟩⟩

theorem TypeTables.condInsertRule (hc : p.condList[i]? = some c)
    (hk : key.specified ∈ typeKinds) (houtside : ∀ n ∈ p.teAvtab.nodes, n.key ≠ key)
    (hins : Cil.condInsertRule p key datum i c flavor = some p') : TypeTables p' := by
  unfold Cil.condInsertRule at hins
  split_ifs at hins with hne
  cases hins
  have hperm := h.nodes_condInsert key datum hne
  refine
    { teWf := h.teWf
      teSlots := h.teSlots
      teKinds := h.teKinds
      teOnce := h.teOnce
      condWf := h.condWf.insertNonunique _
      condPlaced := fun _ => (h.condPlaced hne).insertNonunique p.teCondAvtab.freshAddr_not_mem
      condKinds := fun n hn => ?_
      outside := fun a ha b hb => ?_
      listed := fun c' hc' addr haddr => ?_ }
  · rcases mem_cons.mp (hperm.subset hn) with rfl | hn
    · exact hk
    · exact h.condKinds n hn
  · rcases mem_cons.mp (hperm.subset hb) with rfl | hb
    · exact houtside a ha
    · exact h.outside a ha b hb
  · rw [(hperm.map AvtabNode.addr).mem_iff, map_cons, mem_cons]
    obtain ⟨l1, l2, hl, hset⟩ := exists_split_set hc
    rw [hset] at hc'
    have hold : ∀ c'' ∈ p.condList, addr ∈ c''.lists →
        addr ∈ p.teCondAvtab.nodes.map AvtabNode.addr :=
      fun c'' hc'' ha => h.listed c'' hc'' addr ha
    rw [hl] at hold
    rcases mem_append.mp hc' with hc' | hc'
    · exact .inr (hold c' (mem_append_left _ hc') haddr)
    · rcases mem_cons.mp hc' with rfl | hc'
      · rcases mem_lists_condPush.mp haddr with rfl | haddr
        · exact .inl rfl
        · exact .inr (hold c (mem_append_right _ mem_cons_self) haddr)
      · exact .inr (hold c' (mem_append_right _ (mem_cons_of_mem _ hc')) haddr)

/-- A rule that is put into a conditional keeps the results of a key apart exactly if it agrees with
the rules that can be in force with it. -/
theorem TypeTables.unambiguous_insert_iff (hun : Unambiguous p) (hc : p.condList[i]? = some c)
    (hins : Cil.condInsertRule p key datum i c flavor = some p') :
    Unambiguous p' ↔ ∀ state, condEvaluateExpr state c.expr = some flavor →
      ∀ n ∈ p.activeNodes state, n.key = key → n.datum.data = datum.data := by
  constructor
  · intro hun' state heval n hn hkey
    have hnew : ({ key, datum, addr := p.teCondAvtab.freshAddr, parseContext := some (1, true) } :
      AvtabNode) ∈
        p'.activeNodes state := (h.mem_activeNodes hc hins).mpr (.inr ⟨⟨rfl, rfl, rfl, rfl⟩, heval⟩)
    exact hun' state n ((h.mem_activeNodes hc hins).mpr (.inl hn)) _ hnew hkey
  · intro hagree state a ha b hb hab
    rcases (h.mem_activeNodes hc hins).mp ha with ha | ⟨⟨hakey, hadatum, -⟩, heval⟩ <;>
      rcases (h.mem_activeNodes hc hins).mp hb with hb | ⟨⟨hbkey, hbdatum, -⟩, heval'⟩
    · exact hun state a ha b hb hab
    · rw [hbdatum]
      exact hagree state heval' a ha (hab.trans hbkey)
    · rw [hadatum]
      exact (hagree state heval b hb (hab.symm.trans hakey)).symm
    · rw [hadatum, hbdatum]

end Insert

/-! ## Calls -/

/-- The rule can be put into the conditional: no state of the Booleans that selects its list puts a
rule with its key and another result in force, or its list has a rule with the key and the other
list has none, so that nothing is put in. -/
def TypeRule.Compatible (p : Policydb) (r : TypeRule) (i : Nat) (flavor : Bool) : Prop :=
  ∀ specified c, r.specified = some specified → p.condList[i]? = some c →
    (∀ state, condEvaluateExpr state c.expr = some flavor →
      ∀ n ∈ p.activeNodes state, n.key = r.key specified → n.datum.data = r.res) ∨
    ((condAvListSearch p.teCondAvtab (r.key specified) (condRules c flavor)).isSome = true ∧
      condAvListSearch p.teCondAvtab (r.key specified) (condRules c !flavor) = none)

section Calls

variable {p' : Policydb} {r : TypeRule} {i : Nat} {flavor : Bool}

theorem exists_of_condAvListSearch {cond : Avtab} {key : AvtabKey} {list}
    (hkinds : ∀ n ∈ cond.nodes, n.key.specified ∈ typeKinds) (hk : key.specified ∈ typeKinds)
    (h : (condAvListSearch cond key list).isSome = true) : ∃ n ∈ cond.nodes, n.key = key := by
  obtain ⟨d, hd⟩ := Option.isSome_iff_exists.mp h
  obtain ⟨addr, -, hd⟩ := exists_of_findSome?_eq_some hd
  cases hn : cond.nodeAt addr with
  | none => simp [hn] at hd
  | some n =>
    rw [hn] at hd
    dsimp only at hd
    split_ifs at hd with hhit
    have hmem := (Avtab.mem_nodes_of_nodeAt hn).1
    exact ⟨n, hmem, (hits_iff_eq hk (hkinds n hmem)).mp hhit⟩

variable (h : TypeTables p)
include h

/-- An accepted rule for a conditional is put in, or the policy stays as it is: there is an
unconditional rule with its result, or its list has a rule for the key and the other list none. -/
theorem cilInsertTypeRule_cond_cases (hins : cilInsertTypeRule p r (some (i, flavor)) = some p') :
    ∃ specified c, r.specified = some specified ∧
      ((p' = p ∧ ∃ n ∈ p.teAvtab.nodes, n.key = r.key specified ∧ n.datum.data = r.res) ∨
        p.condList[i]? = some c ∧ (∀ n ∈ p.teAvtab.nodes, n.key ≠ r.key specified) ∧
          let this := condAvListSearch p.teCondAvtab (r.key specified) (condRules c flavor)
          let other := condAvListSearch p.teCondAvtab (r.key specified) (condRules c !flavor)
          (p' = p ∧ this.isSome = true ∧ other = none ∨
            condInsertRule p (r.key specified) { data := r.res } i c flavor = some p' ∧
              (this = none ∨ other.isSome = true))) := by
  rw [cilInsertTypeRule, Option.bind_eq_bind, Option.bind_eq_some_iff] at hins
  obtain ⟨specified, hspecified, hins⟩ := hins
  have hk : (r.key specified).specified ∈ typeKinds := TypeRule.specified_mem hspecified
  refine ⟨specified, ?_⟩
  cases hte : avtabSearchNode p.teAvtab (r.key specified) with
  | cons existing next =>
    simp only [hte] at hins
    split_ifs at hins with hres
    cases hins
    obtain ⟨hn, hkey⟩ := key_eq_of_search h.teKinds hk hte
    exact ⟨{}, hspecified, .inl ⟨rfl, existing, hn, hkey, not_ne_iff.mp hres⟩⟩
  | nil =>
    simp only [hte] at hins
    obtain ⟨c, hc, hins⟩ := Option.bind_eq_some_iff.mp hins
    refine ⟨c, hspecified, .inr ⟨hc, fun n hn => key_ne_of_search h.teWf h.teKinds hk hte hn, ?_⟩⟩
    unfold insertCondTypeRule at hins
    cases hcond : avtabSearchNode p.teCondAvtab (r.key specified) with
    | nil =>
      simp only [hcond] at hins
      refine .inr ⟨hins, .inl ?_⟩
      by_contra hthis
      obtain ⟨n, hn, hkey⟩ :=
        exists_of_condAvListSearch h.condKinds hk (Option.isSome_iff_ne_none.mpr hthis)
      exact key_ne_of_search h.condWf h.condKinds hk hcond hn hkey
    | cons existing next =>
      simp only [hcond] at hins
      cases hother : condAvListSearch p.teCondAvtab (r.key specified) (condRules c !flavor) with
      | some d =>
        simpa [hother] using hins
      | none =>
        simp only [hother] at hins
        by_cases hres : existing.datum.data ≠ r.res
        · rw [if_pos hres] at hins
          cases hins
        · cases hthis : condAvListSearch p.teCondAvtab (r.key specified) (condRules c flavor) with
          | some d =>
            rw [if_neg hres, hthis] at hins
            exact .inl ⟨(Option.some_inj.mp hins).symm, rfl, rfl⟩
          | none =>
            simpa [hres, hthis] using hins

theorem TypeTables.cond (hins : cilInsertTypeRule p r (some (i, flavor)) = some p') :
    TypeTables p' := by
  obtain ⟨specified, c, hspecified, ⟨rfl, -⟩ | ⟨hc, houtside, ⟨rfl, -⟩ | ⟨hrule, -⟩⟩⟩ :=
    cilInsertTypeRule_cond_cases h hins
  · exact h
  · exact h
  · exact h.condInsertRule hc (TypeRule.specified_mem hspecified) houtside hrule

/-- One call for a conditional: the results stay unambiguous exactly if the rule is compatible. -/
theorem TypeTables.unambiguous_cond_iff (hun : Unambiguous p)
    (hins : cilInsertTypeRule p r (some (i, flavor)) = some p') : Unambiguous p' ↔
      r.Compatible p i flavor := by
  obtain ⟨specified, c, hspecified, ⟨rfl, n, hn, hkey, hres⟩ | ⟨hc, houtside, hcases⟩⟩ :=
    cilInsertTypeRule_cond_cases h hins
  · refine iff_of_true hun fun specified' c' hspecified' hc' => .inl fun state _ m hm hmkey => ?_
    cases hspecified.symm.trans hspecified'
    rw [← hres]
    exact hun state m hm n (mem_append_left _ hn) (hmkey.trans hkey.symm)
  · have hcompatible : r.Compatible p i flavor ↔ _ :=
      ⟨fun hr => hr specified c hspecified hc, fun hr specified' c' hspecified' hc' => by
        cases hspecified.symm.trans hspecified'
        cases hc.symm.trans hc'
        exact hr⟩
    rw [hcompatible]
    rcases hcases with ⟨rfl, hthis, hother⟩ | ⟨hrule, hlists⟩
    · exact iff_of_true hun (.inr ⟨hthis, hother⟩)
    · rw [h.unambiguous_insert_iff hun hc hrule]
      refine (or_iff_left ?_).symm
      rintro ⟨hthis, hother⟩
      rcases hlists with hnone | hsome
      · rw [hnone] at hthis
        cases hthis
      · rw [hother] at hsome
        cases hsome

/-- An unconditional call, before there are rules in conditionals. -/
theorem TypeTables.unconditional (hempty : p.teCondAvtab.nodes = [])
    (hins : cilInsertTypeRule p r none = some p') : TypeTables p' ∧ p'.teCondAvtab.nodes = [] := by
  rw [cilInsertTypeRule, Option.bind_eq_bind, Option.bind_eq_some_iff] at hins
  obtain ⟨specified, hspecified, hins⟩ := hins
  have hk : (r.key specified).specified ∈ typeKinds := TypeRule.specified_mem hspecified
  cases hte : avtabSearchNode p.teAvtab (r.key specified) with
  | cons existing next =>
    simp only [hte] at hins
    split_ifs at hins
    cases hins
    exact ⟨h, hempty⟩
  | nil =>
    simp only [hte] at hins
    obtain ⟨te, hok, hins⟩ := Option.bind_eq_some_iff.mp hins
    cases hins
    refine ⟨?_, hempty⟩
    have hne : p.teAvtab.htable ≠ [] := by
      intro hnil
      simp [avtabInsert, hnil, Except.toOption] at hok
    have hok' : avtabInsert p.teAvtab (r.key specified) { data := r.res } = .ok te := by
      cases hi : avtabInsert p.teAvtab (r.key specified) { data := r.res } with
      | error e =>
        rw [hi] at hok
        cases hok
      | ok t =>
        rw [hi] at hok
        cases hok
        rfl
    obtain ⟨hinserted, -⟩ := avtabInsert_ok h.teWf (h.teSlots hne) hok'
    refine
      { teWf := h.teWf.insert hok'
        teSlots := fun _ => hinserted.slots (h.teSlots hne)
        teKinds := fun n hn => ?_
        teOnce := ?_
        condWf := h.condWf
        condPlaced := h.condPlaced
        condKinds := h.condKinds
        outside := fun a _ b hb => ?_
        listed := h.listed }
    · rcases mem_cons.mp (hinserted.nodes.subset hn) with rfl | hn
      · exact hk
      · exact h.teKinds n hn
    · refine hinserted.nodes.symm.pairwise (pairwise_cons.mpr ⟨fun n hn => ?_, h.teOnce⟩) Ne.symm
      exact (key_ne_of_search h.teWf h.teKinds hk hte hn).symm
    · rw [hempty] at hb
      cases hb

end Calls

/-! ## Runs -/

/-- A policy without rules, with conditionals on the given expressions. -/
def emptyPolicydb (nrules ncond : Nat) (exprs : List (List CondExpr)) : Policydb :=
  { teAvtab := avtabAlloc nrules, teCondAvtab := avtabAlloc ncond, condList := exprs.map fun expr =>
    { expr } }

/-- The policies that accepted calls lead to: first unconditional ones, then calls for conditionals,
each of a rule that is compatible with the policy. The flag says that the latter have begun. -/
inductive TypeRuleRun (nrules ncond : Nat) (exprs : List (List CondExpr)) : Bool → Policydb → Prop
  | start : TypeRuleRun nrules ncond exprs false (emptyPolicydb nrules ncond exprs)
  | unconditional {p p' r} (run : TypeRuleRun nrules ncond exprs false p)
    (h : cilInsertTypeRule p r none = some p') : TypeRuleRun nrules ncond exprs false p'
  | conditional {begun p p' r i flavor} (run : TypeRuleRun nrules ncond exprs begun p)
    (hr : TypeRule.Compatible p r i flavor)
    (h : cilInsertTypeRule p r (some (i, flavor)) = some p') :
    TypeRuleRun nrules ncond exprs true p'

section Run

variable {nrules ncond : Nat} {exprs : List (List CondExpr)}

theorem emptyPolicydb_tables : TypeTables (emptyPolicydb nrules ncond exprs) := by
  have hte : (avtabAlloc nrules).htable ≠ [] → nrules ≠ 0 := by
    rintro hne rfl
    exact hne rfl
  have hcond : (avtabAlloc ncond).htable ≠ [] → ncond ≠ 0 := by
    rintro hne rfl
    exact hne rfl
  refine
    { teWf := avtabAlloc_wf nrules
      teSlots := fun hne => (avtabAlloc_isMap (hte hne)).slots
      teKinds := by simp [emptyPolicydb, avtabAlloc_nodes]
      teOnce := by simp [emptyPolicydb, avtabAlloc_nodes]
      condWf := avtabAlloc_wf ncond
      condPlaced := fun hne => avtabAlloc_placed (hcond hne)
      condKinds := by simp [emptyPolicydb, avtabAlloc_nodes]
      outside := by simp [emptyPolicydb, avtabAlloc_nodes]
      listed := fun c hc addr haddr => ?_ }
  obtain ⟨expr, -, rfl⟩ := mem_map.mp hc
  cases haddr

/-- Without rules in conditionals, each key is there once. -/
theorem TypeTables.unambiguous_of_empty (h : TypeTables p) (hempty : p.teCondAvtab.nodes = []) :
    Unambiguous p := by
  intro state a ha b hb hab
  simp only [Policydb.activeNodes, hempty, filter_nil, append_nil] at ha hb
  have hkeys : (p.teAvtab.nodes.map AvtabNode.key).Nodup := pairwise_map.mpr h.teOnce
  rw [inj_on_of_nodup_map hkeys ha hb hab]

theorem TypeRuleRun.inv {begun : Bool} (run : TypeRuleRun nrules ncond exprs begun p) :
    TypeTables p ∧ Unambiguous p ∧ (begun = false → p.teCondAvtab.nodes = []) := by
  induction run with
  | start =>
    have hempty : (emptyPolicydb nrules ncond exprs).teCondAvtab.nodes = [] :=
      avtabAlloc_nodes ncond
    exact ⟨emptyPolicydb_tables, emptyPolicydb_tables.unambiguous_of_empty hempty, fun _ => hempty⟩
  | unconditional run h ih =>
    obtain ⟨htables, hempty⟩ := ih.1.unconditional (ih.2.2 rfl) h
    exact ⟨htables, htables.unambiguous_of_empty hempty, fun _ => hempty⟩
  | conditional run hr h ih =>
    exact ⟨ih.1.cond h, (ih.1.unambiguous_cond_iff ih.2.1 h).mpr hr, fun hbegun => nomatch hbegun⟩

end Run

/-- As long as every rule for a conditional is compatible, the rules in force for a key have one
result; and the next rule for a conditional that is accepted keeps it so only if it is
compatible. -/
theorem cilInsertTypeRule_unambiguous {nrules ncond : Nat} {exprs : List (List CondExpr)}
    {begun : Bool} {p : Policydb} (run : TypeRuleRun nrules ncond exprs begun p) :
    Unambiguous p ∧ ∀ r i flavor p', cilInsertTypeRule p r (some (i, flavor)) = some p' →
      (Unambiguous p' ↔ TypeRule.Compatible p r i flavor) :=
  ⟨run.inv.2.1, fun _ _ _ _ hins => run.inv.1.unambiguous_cond_iff run.inv.2.1 hins⟩

/-! ### Two results in one branch -/

def transitionTo (res : BitVec 32) : TypeRule :=
  { kind := cilTypeTransition, src := 1, tgt := 2, obj := 3, res }

/-- The policy after the rules, one on the true list and the others on the false list of a
conditional on one Boolean. -/
def oneConditional (results : List (BitVec 32 × Bool)) : Option Policydb :=
  results.foldlM (fun p e => cilInsertTypeRule p (transitionTo e.1) (some (0, e.2)))
    (emptyPolicydb 1 1 [[.bool 1]])

/-- With a rule on the true list, no rule is compared with what is on the false list. -/
theorem cilInsertTypeRule_two_results :
    ∃ p, oneConditional [(4, true), (5, false), (6, false)] = some p ∧ ¬Unambiguous p := by
  have htwo : ((oneConditional [(4, true), (5, false), (6, false)]).any fun p =>
      (p.activeNodes fun _ => false).any fun a => (p.activeNodes fun _ => false).any fun b =>
        a.key == b.key && a.datum.data != b.datum.data) = true := by decide +kernel
  obtain ⟨p, hp, htwo⟩ := (Option.any_eq_true _ _).mp htwo
  refine ⟨p, hp, fun hun => ?_⟩
  obtain ⟨a, ha, htwo⟩ := any_eq_true.mp htwo
  obtain ⟨b, hb, htwo⟩ := any_eq_true.mp htwo
  rw [Bool.and_eq_true, beq_iff_eq, bne_iff_ne] at htwo
  exact htwo.2 (hun _ a ha b hb htwo.1)

/-- The two branches of a conditional may have different results: the rules are never in force
together. -/
theorem cilInsertTypeRule_unambiguous_branches :
    ∃ p, oneConditional [(4, true), (5, false)] = some p ∧ TypeRuleRun 1 1 [[.bool 1]] true p ∧
      Unambiguous p := by
  have hcalls : ((oneConditional [(4, true)]).any fun p => p.teAvtab.nodes.isEmpty &&
      decide (p.condList.map CondNode.falseList = [[]]) &&
        (cilInsertTypeRule p (transitionTo 5) (some (0, false))).isSome) = true := by decide +kernel
  obtain ⟨p, hp, hcalls⟩ := (Option.any_eq_true _ _).mp hcalls
  simp only [Bool.and_eq_true, List.isEmpty_iff, decide_eq_true_eq,
    Option.isSome_iff_exists] at hcalls
  obtain ⟨⟨hte, hlist⟩, p', hp'⟩ := hcalls
  have hfirst : cilInsertTypeRule (emptyPolicydb 1 1 [[.bool 1]]) (transitionTo 4)
      (some (0, true)) = some p := by
    simpa [oneConditional] using hp
  have hcompatible : TypeRule.Compatible (emptyPolicydb 1 1 [[.bool 1]])
      (transitionTo 4) 0 true := by
    intro specified c _ _
    simp [Policydb.activeNodes, emptyPolicydb, avtabAlloc_nodes]
  have hcompatible' : TypeRule.Compatible p (transitionTo 5) 0 false := by
    intro specified c _ hc
    refine .inl fun state heval n hn _ => ?_
    -- the false list is still empty
    obtain ⟨c', hc', hfalse⟩ : ∃ c', p.condList = [c'] ∧ c'.falseList = [] := by
      simpa [map_eq_cons_iff] using hlist
    obtain rfl : c' = c := by simpa [hc'] using hc
    simp [Policydb.activeNodes, hte, hc', activeAddrs, CondNode.activeList, heval, hfalse] at hn
  have run := (TypeRuleRun.start.conditional hcompatible hfirst).conditional hcompatible' hp'
  have hboth : oneConditional [(4, true), (5, false)] = (oneConditional [(4, true)]).bind fun p =>
      cilInsertTypeRule p (transitionTo 5) (some (0, false)) := by simp [oneConditional]
  refine ⟨p', ?_, run, (cilInsertTypeRule_unambiguous run).1⟩
  rw [hboth, hp]
  exact hp'

end SELinux.Cil
