import SELinux.Sepol.ConditionalRead
import SELinux.Sepol.Validate

/-! Switching conditionals (`evaluate_conds` in `conditional.c`). A conditional keeps the
value its expression had, and its rules are switched only if the value changes. Both the
value and the flags of the rules are what the policy file says at first, and nothing
compares them. -/
namespace SELinux.Sepol

open List

/-! ## Model -/

/-- The rule is marked as enabled. -/
def AvtabNode.enabled (n : AvtabNode) : Bool := n.key.specified &&& avtabEnabled != 0

def AvtabNode.setEnabled (on : Bool) (n : AvtabNode) : AvtabNode :=
  let specified :=
    if on then n.key.specified ||| avtabEnabled else n.key.specified &&& ~~~avtabEnabled
  { n with key := { n.key with specified := specified } }

/-- Turn the rules on a list on or off. -/
def switchList (on : Bool) (list : List Nat) (t : Avtab) : Avtab :=
  list.foldl (fun t addr => t.modifyNode addr (AvtabNode.setEnabled on)) t

/-- The value of the expression, as `cond_evaluate_expr` returns it. -/
def CondNode.value (state : Nat → Bool) (c : CondNode) : Int :=
  condValue (condEvaluateExpr state c.expr)

def evaluateCondNode (state : Nat → Bool) (t : Avtab) (c : CondNode) : Avtab × CondNode :=
  let newState := c.value state
  if newState ≠ c.curState then
    let t := switchList (decide (0 < newState)) c.trueList t
    let t := switchList (decide (newState = 0)) c.falseList t
    (t, { c with curState := newState })
  else (t, c)

def evaluateCondNodes (state : Nat → Bool) : List CondNode → Avtab → Avtab × List CondNode
  | [], t => (t, [])
  | c :: next, t =>
    let r := evaluateCondNode state t c
    let rest := evaluateCondNodes state next r.1
    (rest.1, r.2 :: rest.2)

def evaluateConds (p : Policydb) : Policydb :=
  let r := evaluateCondNodes p.boolState p.condList p.teCondAvtab
  { p with teCondAvtab := r.1, condList := r.2 }

/-! ## Switching a list -/

variable (state : Nat → Bool) (on : Bool)

@[simp] theorem AvtabNode.setEnabled_addr (n : AvtabNode) : (n.setEnabled on).addr = n.addr := rfl

@[simp] theorem AvtabNode.setEnabled_enabled (n : AvtabNode) : (n.setEnabled on).enabled = on := by
  have hflag : avtabEnabled = BitVec.twoPow 16 15 := by decide
  rw [Bool.eq_iff_iff]
  simp only [AvtabNode.enabled, bne_iff_ne, AvtabNode.setEnabled]
  rw [hflag, and_twoPow_ne_zero (by decide)]
  cases on <;> simp

@[simp] theorem AvtabNode.setEnabled_setEnabled (n : AvtabNode) :
    (n.setEnabled on).setEnabled on = n.setEnabled on := by
  cases on
  · simp [AvtabNode.setEnabled, BitVec.and_assoc]
  · simp [AvtabNode.setEnabled, BitVec.or_assoc]

theorem switchList_nodes (list : List Nat) (t : Avtab) : (switchList on list t).nodes =
      t.nodes.map fun n => if n.addr ∈ list then n.setEnabled on else n := by
  induction list generalizing t with
  | nil => simp [switchList]
  | cons a list ih =>
    have hstep : switchList on (a :: list) t =
        switchList on list (t.modifyNode a (AvtabNode.setEnabled on)) := rfl
    rw [hstep, ih, Avtab.modifyNode_nodes, map_map]
    refine map_congr_left fun n _ => ?_
    by_cases hn : n.addr = a <;> by_cases hl : n.addr ∈ list <;> simp_all

variable {t : Avtab} {p : Policydb}

/-- Writing the flag leaves a rule where it belongs. -/
theorem Avtab.Wf.setEnabled (h : t.Wf) (addr : Nat) :
    (t.modifyNode addr (AvtabNode.setEnabled on)).Wf := by
  refine h.congr rfl ?_
  simp only [Avtab.modifyNode, map_map, Function.comp_def, apply_ite AvtabNode.place]
  simp [AvtabNode.place, AvtabNode.setEnabled]

/-! ## One conditional -/

/-- The flags of the rules on the two lists are those of a value. -/
def CondNode.Agrees (c : CondNode) (value : Int) (nodes : List AvtabNode) : Prop :=
  ∀ n ∈ nodes, (n.addr ∈ c.trueList → (n.enabled = true ↔ value = 1)) ∧
    (n.addr ∈ c.falseList → (n.enabled = true ↔ value = 0))

/-- What `evaluate_cond_node` does to a rule. -/
def CondNode.switch (state : Nat → Bool) (c : CondNode) (n : AvtabNode) : AvtabNode :=
  if c.value state = c.curState then n
  else if n.addr ∈ c.falseList then n.setEnabled (decide (c.value state = 0))
  else if n.addr ∈ c.trueList then n.setEnabled (decide (0 < c.value state))
  else n

@[simp] theorem CondNode.switch_addr (c : CondNode) (n : AvtabNode) :
    (c.switch state n).addr = n.addr := by
  unfold CondNode.switch
  split_ifs <;> rfl

variable {c : CondNode} {n : AvtabNode}

theorem CondNode.switch_of_not_mem {state} (h : n.addr ∉ c.lists) : c.switch state n = n := by
  rw [CondNode.lists, mem_append, not_or] at h
  simp [CondNode.switch, h.1, h.2]

theorem evaluateCondNode_nodes {state} (hnd : c.lists.Nodup) :
    (evaluateCondNode state t c).1.nodes = t.nodes.map (c.switch state) := by
  have hdisj : ∀ a ∈ c.trueList, a ∉ c.falseList := by
    intro a ha hb
    exact (nodup_append.mp hnd).2.2 a ha a hb rfl
  rw [evaluateCondNode]
  split_ifs with hval
  · rw [switchList_nodes, switchList_nodes, map_map]
    refine map_congr_left fun n _ => ?_
    rw [CondNode.switch, if_neg hval]
    by_cases ht : n.addr ∈ c.trueList
    · simp [ht, hdisj n.addr ht]
    · simp [ht]
  · have hid : ∀ n, c.switch state n = n := fun n => if_pos (not_ne_iff.mp hval)
    simp only [funext hid, map_id']

theorem evaluateCondNode_node (t : Avtab) (c : CondNode) :
    (evaluateCondNode state t c).2 = { c with curState := c.value state } := by
  rw [evaluateCondNode]
  split_ifs with hval
  · rfl
  · rw [not_ne_iff.mp hval]

theorem CondNode.value_cases (c : CondNode) : c.value state = -1 ∨ c.value state = 0 ∨
    c.value state = 1 := by
  unfold CondNode.value condValue
  split <;> simp

/-! ## All conditionals -/

theorem evaluateCondNodes_conds (conds : List CondNode) (t : Avtab) :
    (evaluateCondNodes state conds t).2 =
      conds.map fun c => { c with curState := c.value state } := by
  induction conds generalizing t with
  | nil => rfl
  | cons c conds ih => simp [evaluateCondNodes, evaluateCondNode_node, ih]

variable {conds : List CondNode}

/-- Every rule is switched by each conditional in turn. -/
theorem evaluateCondNodes_nodes {state}
    (hnd : (conds.flatMap CondNode.lists).Nodup) : (evaluateCondNodes state conds t).1.nodes =
      t.nodes.map fun n => conds.foldl (fun n c => c.switch state n) n := by
  induction conds generalizing t with
  | nil => simp [evaluateCondNodes]
  | cons c conds ih =>
    rw [flatMap_cons, nodup_append] at hnd
    simp [evaluateCondNodes, ih hnd.2.1, evaluateCondNode_nodes hnd.1]

theorem foldl_switch_of_not_mem {state} (h : n.addr ∉ conds.flatMap CondNode.lists) :
    conds.foldl (fun n c => c.switch state n) n = n := by
  induction conds with
  | nil => rfl
  | cons c conds ih =>
    rw [flatMap_cons, mem_append, not_or] at h
    rw [foldl_cons, CondNode.switch_of_not_mem h.1]
    exact ih h.2

/-- Only the conditional that lists a rule switches it. -/
theorem foldl_switch {state} (hnd : (conds.flatMap CondNode.lists).Nodup) (hc : c ∈ conds)
    (hn : n.addr ∈ c.lists) : conds.foldl (fun n c => c.switch state n) n = c.switch state n := by
  induction conds with
  | nil => cases hc
  | cons d conds ih =>
    rw [flatMap_cons, nodup_append] at hnd
    rw [foldl_cons]
    rcases mem_cons.mp hc with rfl | hc
    · refine foldl_switch_of_not_mem fun hmem => ?_
      rw [CondNode.switch_addr] at hmem
      exact hnd.2.2 n.addr hn n.addr hmem rfl
    · have hother : n.addr ∉ d.lists := fun hd =>
        hnd.2.2 n.addr hd n.addr (mem_flatMap.mpr ⟨c, hc, hn⟩) rfl
      rw [CondNode.switch_of_not_mem hother]
      exact ih hnd.2.1 hc

/-- The rules of one conditional after the run: if its stored value was the new one they
are as before, otherwise they agree with the new one. -/
theorem CondNode.agrees_foldl_switch {state}
    (hnd : (conds.flatMap CondNode.lists).Nodup) (hc : c ∈ conds) (nodes : List AvtabNode) :
    c.Agrees (c.value state) (nodes.map fun n => conds.foldl (fun n c => c.switch state n) n) ↔
      (c.curState = c.value state → c.Agrees c.curState nodes) := by
  have hrule : ∀ n : AvtabNode, n.addr ∈ c.lists →
      conds.foldl (fun n c => c.switch state n) n = c.switch state n := fun n hn =>
    foldl_switch hnd hc hn
  have haddr : ∀ n : AvtabNode, (conds.foldl (fun n c => c.switch state n) n).addr = n.addr := by
    intro n
    by_cases hn : n.addr ∈ conds.flatMap CondNode.lists
    · obtain ⟨d, hd, hmem⟩ := mem_flatMap.mp hn
      rw [foldl_switch hnd hd hmem, CondNode.switch_addr]
    · rw [foldl_switch_of_not_mem hn]
  have hleft : ∀ {n : AvtabNode}, n.addr ∈ c.trueList → n.addr ∈ c.lists := fun h =>
    mem_append_left _ h
  have hright : ∀ {n : AvtabNode}, n.addr ∈ c.falseList → n.addr ∈ c.lists := fun h =>
    mem_append_right _ h
  by_cases hcur : c.value state = c.curState
  · -- not switched
    have hsame : ∀ n, c.switch state n = n := fun n => if_pos hcur
    simp only [hcur, forall_const, CondNode.Agrees, forall_mem_map, haddr]
    simp_all
  · have hne : c.curState ≠ c.value state := fun h => hcur h.symm
    refine iff_of_true ?_ fun h => absurd h hne
    simp only [CondNode.Agrees, forall_mem_map, haddr]
    intro n _
    have hdisj := (nodup_append.mp ((nodup_flatMap.mp hnd).1 c hc)).2.2
    refine ⟨fun ht => ?_, fun hf => ?_⟩
    · have hf : n.addr ∉ c.falseList := fun hf => hdisj _ ht _ hf rfl
      rw [hrule n (hleft ht), CondNode.switch, if_neg hcur, if_neg hf, if_pos ht,
        AvtabNode.setEnabled_enabled, decide_eq_true_iff]
      have := c.value_cases state
      omega
    · rw [hrule n (hright hf), CondNode.switch, if_neg hcur, if_pos hf,
        AvtabNode.setEnabled_enabled, decide_eq_true_iff]

/-- For the rules of a policy file and every state of the Booleans: after `evaluate_conds`
the flags of all rules agree with the values of their expressions exactly if, for the
conditionals that were stored with the value they have now, the flags in the file agreed
with the stored value. -/
theorem evaluateConds_agrees_iff {vers nb : Nat} {fp fp' : PolicyFile} {p : Policydb}
    (h : readRules vers nb fp = some (fp', p)) (state : Nat → Bool) :
    (∀ c ∈ (evaluateConds { p with boolState := state }).condList,
      c.Agrees (c.value state) (evaluateConds { p with boolState := state }).teCondAvtab.nodes) ↔
    ∀ c ∈ p.condList, c.curState = c.value state → c.Agrees c.curState p.teCondAvtab.nodes := by
  have hnd := (readRules_tables h).2.nodup
  simp only [evaluateConds, evaluateCondNodes_conds, evaluateCondNodes_nodes hnd,
    forall_mem_map]
  exact forall₂_congr fun c hc => CondNode.agrees_foldl_switch hnd hc _

/-- A conditional on the first Boolean, stored as false, with an `allow` rule on its true
list that is stored as enabled. -/
def enabledRuleFile : PolicyFile :=
  [1, 0, 0, 0,
    1, 0, 1, 0, 1, 0, 1, 0, 1, 0, 0, 0,
    1, 0, 0, 0,
    0, 0, 0, 0,
    1, 0, 0, 0, 1, 0, 0, 0, 1, 0, 0, 0,
    1, 0, 0, 0,
    1, 0, 1, 0, 1, 0, 1, 128, 2, 0, 0, 0,
    0, 0, 0, 0]

/-- A policy with one type, one class and one Boolean around a file's rules. -/
def smallPolicydb (p : Policydb) : FullPolicydb where
  toPolicydb := { p with typeValToStruct := [some {}], typeAttrMap := [.ofList [0]] }
  typeValToName := [some "t".toList]
  boolValToName := [some "b".toList]
  classTable := [("c".toList, { value := 1 })]
  classValToName := [some "c".toList]
  classValToStruct := [some { value := 1 }]

/-- The policy is valid and the Boolean is false, but the rule stays enabled. -/
theorem evaluateConds_stays_enabled : ∃ fp p, readRules 33 1 enabledRuleFile = some (fp, p) ∧
      policydbValidate (smallPolicydb p) = true ∧ p.boolState 1 = false ∧
      ∃ c ∈ (evaluateConds p).condList, c.value p.boolState = 0 ∧
        ∃ n ∈ (evaluateConds p).teCondAvtab.nodes, n.addr ∈ c.trueList ∧ n.enabled = true := by
  have hrun : (readRules 33 1 enabledRuleFile).any (fun r =>
      policydbValidate (smallPolicydb r.2) && !r.2.boolState 1 &&
      (evaluateConds r.2).condList.any fun c => c.value r.2.boolState == 0 &&
        (evaluateConds r.2).teCondAvtab.nodes.any fun n =>
          decide (n.addr ∈ c.trueList) && n.enabled) = true := by
    decide +kernel
  cases hread : readRules 33 1 enabledRuleFile with
  | none => simp [hread] at hrun
  | some r =>
    simp only [hread, Option.any_some, Bool.and_eq_true, Bool.not_eq_true', any_eq_true,
      beq_iff_eq, decide_eq_true_eq] at hrun
    exact ⟨r.1, r.2, rfl, hrun.1.1, hrun.1.2, hrun.2⟩

/-- No conditional of this file is stored with the value it has now: all rules are
switched. -/
theorem evaluateConds_agrees_iff_typeRules : ∃ fp p, readRules 33 1 typeRuleFile = some (fp, p) ∧
      ∀ c ∈ (evaluateConds { p with boolState := fun _ => true }).condList,
        c.Agrees (c.value fun _ => true)
          (evaluateConds { p with boolState := fun _ => true }).teCondAvtab.nodes := by
  have hrun : (readRules 33 1 typeRuleFile).any (fun r =>
      r.2.condList.all fun c => c.curState != c.value fun _ => true) = true := by
    decide +kernel
  cases hread : readRules 33 1 typeRuleFile with
  | none => simp [hread] at hrun
  | some r =>
    simp only [hread, Option.any_some, all_eq_true, bne_iff_ne] at hrun
    exact ⟨r.1, r.2, rfl, (evaluateConds_agrees_iff hread _).mpr fun c hc h => absurd h (hrun c hc)⟩

/-! ## Sequences of settings -/

/-- `evaluate_conds` after each of several settings of the Booleans. -/
def evaluateSettings (p : Policydb) (states : List (Nat → Bool)) : Policydb :=
  states.foldl (fun p state => evaluateConds { p with boolState := state }) p

/-- The flags agree with the stored values after a run exactly if they did before it, for the
conditionals whose value never changed. -/
theorem evaluateSettings_agrees (states : List (Nat → Bool))
    (hnd : (p.condList.flatMap CondNode.lists).Nodup) : (∀ c ∈ (evaluateSettings p states).condList,
      c.Agrees c.curState (evaluateSettings p states).teCondAvtab.nodes) ↔
    ∀ c ∈ p.condList, (∀ state ∈ states, c.value state = c.curState) →
      c.Agrees c.curState p.teCondAvtab.nodes := by
  induction states generalizing p with
  | nil => simp [evaluateSettings]
  | cons state states ih =>
    have hnd' : ((evaluateConds { p with boolState := state }).condList.flatMap
        CondNode.lists).Nodup := by
      rw [evaluateConds, evaluateCondNodes_conds, flatMap_map]
      exact hnd
    refine (ih hnd').trans ?_
    simp only [evaluateConds, evaluateCondNodes_conds, evaluateCondNodes_nodes hnd, forall_mem_map,
      forall_mem_cons]
    refine forall₂_congr fun c hc => ?_
    have hone : c.Agrees (c.value state) _ ↔ _ := c.agrees_foldl_switch hnd hc p.teCondAvtab.nodes
    constructor
    · intro h hsame
      exact hone.mp (h fun s hs => (hsame.2 s hs).trans hsame.1.symm) hsame.1.symm
    · intro h hsame
      exact hone.mpr fun hcur => h ⟨hcur.symm, fun s hs => (hsame s hs).trans hcur.symm⟩

/-- After the last setting each conditional has its value. -/
theorem evaluateSettings_conds (states : List (Nat → Bool)) (p : Policydb) :
    (evaluateSettings p (states ++ [state])).condList =
      p.condList.map fun c => { c with curState := c.value state } := by
  induction states generalizing p with
  | nil => exact evaluateCondNodes_conds ..
  | cons s states ih =>
    refine (ih _).trans ?_
    simp only [evaluateConds, evaluateCondNodes_conds, map_map]
    rfl

/-- What a table keeps whichever flag is written, it keeps in every run. -/
theorem evaluateSettings_inv {I : Avtab → Prop}
    (hI : ∀ t addr on, I t → I (t.modifyNode addr (AvtabNode.setEnabled on)))
    (states : List (Nat → Bool)) (h : I p.teCondAvtab) :
    I (evaluateSettings p states).teCondAvtab := by
  have hlist : ∀ on list t, I t → I (switchList on list t) := fun on _ _ ht =>
    Lib.foldl_inv (fun t addr => hI t addr on) ht
  have hnodes : ∀ state conds t, I t → I (evaluateCondNodes state conds t).1 := by
    intro state conds
    induction conds with
    | nil => exact fun t ht => ht
    | cons c conds ih =>
      intro t ht
      apply ih
      unfold evaluateCondNode
      dsimp only
      split_ifs
      · exact hlist _ _ _ (hlist _ _ _ ht)
      · exact ht
  induction states generalizing p with
  | nil => exact h
  | cons state states ih => exact ih (hnodes _ _ _ h)

/-- Where the flags agree with the values, the enabled rules are the active ones. -/
theorem enabled_iff_active {state nodes} (h : ∀ c ∈ conds, c.Agrees (c.value state) nodes)
    (hn : n ∈ nodes) (hlisted : n.addr ∈ conds.flatMap CondNode.lists) :
    n.enabled = true ↔ n.addr ∈ activeAddrs conds state := by
  have hactive : ∀ c : CondNode, n.addr ∈ c.activeList state ↔
      (n.addr ∈ c.trueList ∧ c.value state = 1) ∨ (n.addr ∈ c.falseList ∧ c.value state = 0) := by
    intro c
    unfold CondNode.activeList CondNode.value
    rcases condEvaluateExpr state c.expr with _ | _ | _ <;> simp [condValue]
  simp only [activeAddrs, mem_flatMap, hactive]
  constructor
  · intro hon
    obtain ⟨c, hc, hmem⟩ := mem_flatMap.mp hlisted
    obtain ⟨ht, hf⟩ := h c hc n hn
    exact ⟨c, hc, (mem_append.mp hmem).imp (fun hm => ⟨hm, (ht hm).mp hon⟩) fun hm =>
      ⟨hm, (hf hm).mp hon⟩⟩
  · rintro ⟨c, hc, ⟨hm, hval⟩ | ⟨hm, hval⟩⟩
    · exact ((h c hc n hn).1 hm).mpr hval
    · exact ((h c hc n hn).2 hm).mpr hval

/-- For the rules of a policy file and every sequence of settings: after the last one the flags
agree with the values exactly if, for the conditionals that had the stored value all along, the
flags in the file did. -/
theorem evaluateSettings_agrees_iff {vers nb : Nat} {fp fp' : PolicyFile} {p : Policydb}
    (h : readRules vers nb fp = some (fp', p)) (states : List (Nat → Bool)) (state : Nat → Bool) :
    (∀ c ∈ (evaluateSettings p (states ++ [state])).condList,
      c.Agrees (c.value state) (evaluateSettings p (states ++ [state])).teCondAvtab.nodes) ↔
    ∀ c ∈ p.condList, (∀ s ∈ states ++ [state], c.value s = c.curState) →
      c.Agrees c.curState p.teCondAvtab.nodes := by
  rw [← evaluateSettings_agrees _ (readRules_tables h).2.nodup, evaluateSettings_conds,
    forall_mem_map,
    forall_mem_map]
  rfl

/-- The Boolean of this file is false, as stored, and then true. -/
theorem evaluateSettings_agrees_iff_typeRules : ∃ fp p, readRules 33 1 typeRuleFile = some (fp, p) ∧
    ∀ c ∈ (evaluateSettings p ([fun _ => false] ++ [fun _ => true])).condList,
      c.Agrees (c.value fun _ => true)
        (evaluateSettings p ([fun _ => false] ++ [fun _ => true])).teCondAvtab.nodes := by
  have hrun : (readRules 33 1 typeRuleFile).any (fun r =>
      r.2.condList.all fun c => (c.value fun _ => true) != c.curState) = true := by
    decide +kernel
  simp only [Option.any_eq_true, all_eq_true, bne_iff_ne] at hrun
  obtain ⟨r, hread, hswitched⟩ := hrun
  exact ⟨r.1, r.2, hread, (evaluateSettings_agrees_iff hread _ _).mpr fun c hc h =>
    absurd (h _ (by simp)) (hswitched c hc)⟩

end SELinux.Sepol
