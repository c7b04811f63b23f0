import SELinux.Sepol.ConditionalEqual
import SELinux.Sepol.Validate

/-! Tunables (`discard_tunables` in `expand.c`): a conditional over tunables is decided when a
policy is expanded, and one branch of it joins the unconditional rules. The tunables of an
expression are kept in an array that has a place for each level of the evaluator's stack. -/
namespace SELinux.Sepol

open List

def condBoolFlagsTunable : BitVec 32 := 0x01

/-- What can go wrong: an access outside of the array, or the assertion that tunables and Booleans
are not mixed. -/
inductive TunableFault where
  | outOfBounds (index : Nat)
  | assertion
  deriving DecidableEq

/-- `avrule_decl_t`, as far as tunables are concerned. -/
structure TunableDecl where
  enabled : Bool := true
  avrules : List Avrule := []
  condList : List CondNode := []
  deriving DecidableEq

section

variable (preserve : Bool) (state : Nat → Bool) (flags : Nat → BitVec 32)

def isTunable (v : Nat) : Bool := flags v &&& condBoolFlagsTunable != 0

/-- One round of the loop over an expression, on `tmp[0..tunables]` and `booleans`. -/
def collectTunable (s : List Nat × Nat) : CondExpr → Except TunableFault (List Nat × Nat)
  | .bool v =>
    if isTunable flags v then
      if s.1.length < condExprMaxdepth then .ok (s.1 ++ [v], s.2)
        else .error (.outOfBounds s.1.length)
    else .ok (s.1, s.2 + 1)
  | _ => .ok s

/-- Clear the flag of each tunable of the array. -/
def clearTunables (tmp : List Nat) (flags : Nat → BitVec 32) : Nat → BitVec 32 :=
  tmp.foldl (fun flags v => Function.update flags v (flags v &&& ~~~condBoolFlagsTunable)) flags

/-- The branch that is in effect joins the rules. -/
def appendBranch (avrules : List Avrule) (node : CondNode) : List Avrule × CondNode :=
  let node := { node with flags := node.flags ||| condNodeFlagsTunable }
  match condEvaluateExpr state node.expr with
  | none => (avrules, node)
  | some true => (avrules ++ node.avtrueList, { node with avtrueList := [] })
  | some false => (avrules ++ node.avfalseList, { node with avfalseList := [] })

/-- One conditional. -/
def discardNode (avrules : List Avrule)
    (node : CondNode) : Except TunableFault ((Nat → BitVec 32) × List Avrule × CondNode) := do
  let (tmp, booleans) ← node.expr.foldlM (collectTunable flags) ([], 0)
  if preserve = false ∧ booleans ≠ 0 ∧ tmp ≠ [] then throw .assertion
  else if booleans ≠ 0 ∨ preserve = true then
    pure (clearTunables tmp flags, avrules,
      { node with flags := node.flags &&& ~~~condNodeFlagsTunable })
  else pure (flags, appendBranch state avrules node)

/-- The conditionals of a declaration. -/
def discardNodes : (Nat → BitVec 32) → List Avrule → List CondNode →
      Except TunableFault ((Nat → BitVec 32) × List Avrule × List CondNode)
  | flags, avrules, [] => pure (flags, avrules, [])
  | flags, avrules, node :: next => do
    let (flags, avrules, node) ← discardNode preserve state flags avrules node
    let (flags, avrules, next) ← discardNodes flags avrules next
    pure (flags, avrules, node :: next)

/-- `discard_tunables`, on the flags of the Booleans and on the enabled declaration of each
block. -/
def discardTunables : (Nat → BitVec 32) → List (Option TunableDecl) →
      Except TunableFault ((Nat → BitVec 32) × List (Option TunableDecl))
  | flags, [] => pure (flags, [])
  | flags, none :: global => do
    let (flags, global) ← discardTunables flags global
    pure (flags, none :: global)
  | flags, some decl :: global =>
    if decl.enabled then do
      let (flags, avrules, condList) ← discardNodes preserve state flags decl.avrules decl.condList
      let (flags, global) ← discardTunables flags global
      pure (flags, some { decl with avrules := avrules, condList := condList } :: global)
    else do
      let (flags, global) ← discardTunables flags global
      pure (flags, some decl :: global)

/-! ## The array -/

/-- How many entries of an expression are tunables. -/
def tunableCount (node : CondNode) : Nat :=
  (exprBools node.expr).countP (isTunable flags)

/-- Tunables and other Booleans are mixed. -/
def Mixed (node : CondNode) : Prop :=
  (∃ v ∈ exprBools node.expr, isTunable flags v = true) ∧
    ∃ v ∈ exprBools node.expr, isTunable flags v = false

end

instance (flags : Nat → BitVec 32) (node : CondNode) : Decidable (Mixed flags node) :=
  inferInstanceAs (Decidable (_ ∧ _))

@[simp] theorem exprBools_nil : exprBools [] = [] := rfl

@[simp] theorem exprBools_bool (v : Nat) (expr : List CondExpr) :
    exprBools (.bool v :: expr) = v :: exprBools expr := rfl

variable (preserve : Bool) (flags : Nat → BitVec 32)

/-- The loop over an expression fills the array, if that has the places. -/
theorem foldlM_collectTunable (expr : List CondExpr) (s : List Nat × Nat)
    (hs : s.1.length ≤ condExprMaxdepth) : expr.foldlM (collectTunable flags) s =
      if s.1.length + (exprBools expr).countP (isTunable flags) ≤ condExprMaxdepth then
        .ok (s.1 ++ (exprBools expr).filter (isTunable flags),
          s.2 + (exprBools expr).countP fun v => !isTunable flags v)
      else .error (.outOfBounds condExprMaxdepth) := by
  induction expr generalizing s with
  | nil => simp [hs, pure, Except.pure]
  | cons e expr ih =>
    rw [foldlM_cons]
    cases e with
    | bool v =>
      by_cases hv : isTunable flags v = true
      · simp only [collectTunable, exprBools_bool, countP_cons, filter_cons, hv, if_true,
          Bool.not_true,
          Bool.false_eq_true, if_false, Nat.add_zero]
        by_cases hlt : s.1.length < condExprMaxdepth
        · rw [if_pos hlt]
          refine (ih (s.1 ++ [v], s.2) (by simpa using Nat.succ_le_of_lt hlt)).trans ?_
          simp [Nat.add_assoc, Nat.add_comm 1]
        · have hfull : s.1.length = condExprMaxdepth := by omega
          rw [if_neg hlt, if_neg (by omega), hfull]
          rfl
      · simp only [collectTunable, exprBools_bool, countP_cons, filter_cons, hv, Bool.not_false,
          Bool.false_eq_true, if_true, if_false, Nat.add_zero]
        refine (ih (s.1, s.2 + 1) hs).trans ?_
        simp only [Nat.add_assoc, Nat.add_comm 1]
    | invalid => exact ih s hs
    | not => exact ih s hs
    | or => exact ih s hs
    | and => exact ih s hs
    | xor => exact ih s hs
    | eq => exact ih s hs
    | neq => exact ih s hs

/-! ## The flags -/

/-- What one conditional does to the flags of the Booleans. -/
def nodeFlags (preserve : Bool) (flags : Nat → BitVec 32) (node : CondNode) :
    Except TunableFault (Nat → BitVec 32) :=
  if tunableCount flags node ≤ condExprMaxdepth then
    if preserve = true then
      .ok (clearTunables ((exprBools node.expr).filter (isTunable flags)) flags)
    else if Mixed flags node then .error .assertion
    else .ok flags
  else .error (.outOfBounds condExprMaxdepth)

/-- The conditionals that are looked at. -/
def enabledConds (global : List (Option TunableDecl)) : List CondNode :=
  global.flatMap fun
    | some decl => if decl.enabled then decl.condList else []
    | none => []

theorem mixed_iff_counts (node : CondNode) :
    Mixed flags node ↔ (exprBools node.expr).countP (fun v => !isTunable flags v) ≠ 0 ∧
      (exprBools node.expr).filter (isTunable flags) ≠ [] := by
  rw [Ne, countP_eq_zero, Ne, filter_eq_nil_iff]
  simp only [Mixed, not_forall, not_not, exists_prop, Bool.not_eq_true']
  exact and_comm

theorem discardNode_flags (state : Nat → Bool) (flags : Nat → BitVec 32) (avrules : List Avrule)
    (node : CondNode) :
    (discardNode preserve state flags avrules node).map (·.1) = nodeFlags preserve flags node := by
  unfold discardNode nodeFlags
  rw [foldlM_collectTunable flags node.expr ([], 0) (Nat.zero_le _)]
  by_cases hcount : tunableCount flags node ≤ condExprMaxdepth
  · rw [if_pos (by simpa [tunableCount] using hcount), if_pos hcount]
    have hmixed := mixed_iff_counts flags node
    simp only [bind, Except.bind, nil_append, Nat.zero_add]
    generalize (exprBools node.expr).countP (fun v => !isTunable flags v) = booleans at hmixed ⊢
    generalize (exprBools node.expr).filter (isTunable flags) = tmp at hmixed ⊢
    cases preserve with
    | true =>
      rw [if_neg (by simp), if_pos (by simp), if_pos rfl]
      rfl
    | false =>
      simp only [true_and, ← hmixed, Bool.false_eq_true, if_false, or_false]
      by_cases hm : Mixed flags node
      · rw [if_pos hm, if_pos hm]
        rfl
      · rw [if_neg hm, if_neg hm]
        by_cases hb : booleans ≠ 0
        · -- nothing was collected, so nothing is cleared
          have htmp : tmp = [] := by_contra fun htmp => hm (hmixed.mpr ⟨hb, htmp⟩)
          rw [if_pos hb, htmp]
          rfl
        · rw [if_neg hb]
          rfl
  · rw [if_neg (by simpa [tunableCount] using hcount), if_neg hcount]
    rfl

theorem discardNodes_flags (state : Nat → Bool) (flags : Nat → BitVec 32)
    (avrules : List Avrule) (nodes : List CondNode) :
    (discardNodes preserve state flags avrules nodes).map (·.1) =
      nodes.foldlM (nodeFlags preserve) flags := by
  induction nodes generalizing flags avrules with
  | nil => rfl
  | cons node nodes ih =>
    rw [foldlM_cons, ← discardNode_flags preserve state flags avrules node, discardNodes]
    cases discardNode preserve state flags avrules node with
    | error e => rfl
    | ok r =>
      refine Eq.trans ?_ (ih r.1 r.2.1)
      simp only [bind, Except.bind]
      cases discardNodes preserve state r.1 r.2.1 nodes with
      | error e => rfl
      | ok q => rfl

theorem discardTunables_flags (state : Nat → Bool) (flags : Nat → BitVec 32)
    (global : List (Option TunableDecl)) : (discardTunables preserve state flags global).map (·.1) =
      (enabledConds global).foldlM (nodeFlags preserve) flags := by
  induction global generalizing flags with
  | nil => rfl
  | cons block global ih =>
    -- a block whose declaration is not looked at
    have hskip : ∀ b : Option TunableDecl,
        (do
          let r ← discardTunables preserve state flags global
          pure (r.1, b :: r.2) : Except TunableFault _).map (·.1) =
        (enabledConds global).foldlM (nodeFlags preserve) flags := by
      intro b
      rw [← ih flags]
      cases discardTunables preserve state flags global with
      | error e => rfl
      | ok r => rfl
    cases block with
    | none => exact hskip none
    | some decl =>
      by_cases henabled : decl.enabled = true
      · have hconds :
          enabledConds (some decl :: global) = decl.condList ++ enabledConds global := by
          simp [enabledConds, henabled]
        rw [hconds, foldlM_append, ← discardNodes_flags preserve state flags decl.avrules,
          discardTunables,
          if_pos henabled]
        cases discardNodes preserve state flags decl.avrules decl.condList with
        | error e => rfl
        | ok r =>
          refine Eq.trans ?_ (ih r.1)
          simp only [bind, Except.bind]
          cases discardTunables preserve state r.1 global with
          | error e => rfl
          | ok q => rfl
      · have hconds : enabledConds (some decl :: global) = enabledConds global := by
          simp [enabledConds, henabled]
        rw [hconds, discardTunables, if_neg henabled]
        exact hskip (some decl)

/-! ## When the array is long enough -/

/-- No access is outside of the array. -/
def InBounds {α : Type} (r : Except TunableFault α) : Prop := ∀ i, r ≠ .error (.outOfBounds i)

/-- A conditional that is reached has few tunables. When tunables are preserved, those of the
conditionals before it are Booleans by then; else it is only reached if none of these mixes the
two. -/
def FewTunables (preserve : Bool) (flags : Nat → BitVec 32) (nodes : List CondNode) : Prop :=
  ∀ before node after, nodes = before ++ node :: after →
    (preserve = false → ∀ earlier ∈ before, ¬ Mixed flags earlier) →
    (exprBools node.expr).countP (fun v => isTunable flags v &&
      !(preserve && before.any fun earlier => (exprBools earlier.expr).contains v)) ≤
        condExprMaxdepth

theorem InBounds.map {α β : Type} {f : α → β} {r : Except TunableFault α} : InBounds (r.map f) ↔
    InBounds r := by
  cases r with
  | error e => simp [InBounds, Except.map]
  | ok a => simp [InBounds, Except.map]

theorem isTunable_clearTunables (tmp : List Nat) (flags : Nat → BitVec 32) (v : Nat) :
    isTunable (clearTunables tmp flags) v = (isTunable flags v && !tmp.contains v) := by
  induction tmp generalizing flags with
  | nil => simp [clearTunables]
  | cons x tmp ih =>
    refine (ih _).trans ?_
    by_cases hv : v = x
    · simp [BitVec.and_assoc, isTunable, hv]
    · simp [isTunable, hv]

theorem nodeFlags_ok {preserve flags flags'} {node : CondNode}
    (h : nodeFlags preserve flags node = .ok flags') :
    (preserve = false → flags' = flags ∧ ¬ Mixed flags node) ∧ ∀ v, isTunable flags' v =
        (isTunable flags v && !(preserve && (exprBools node.expr).contains v)) := by
  unfold nodeFlags at h
  split_ifs at h with hcount hpreserve hmixed
  · cases h
    refine ⟨by simp [hpreserve], fun v => ?_⟩
    rw [isTunable_clearTunables, hpreserve]
    cases hv : isTunable flags v with
    | false => simp
    | true => simp [hv]
  · cases h
    simp [hpreserve, hmixed]

theorem nodeFlags_exists {preserve flags node} (hcount : tunableCount flags node ≤ condExprMaxdepth)
    (hmixed : preserve = false → ¬ Mixed flags node) :
      ∃ flags', nodeFlags preserve flags node = .ok flags' := by
  unfold nodeFlags
  rw [if_pos hcount]
  cases preserve with
  | true => exact ⟨_, rfl⟩
  | false => exact ⟨flags, by simp [hmixed rfl]⟩

/-- A place among the later conditionals: what is said of it does not depend on whether the first
one counts as a conditional before it, or its effect on the flags is taken. -/
theorem countP_after {preserve flags flags' node} (h : nodeFlags preserve flags node = .ok flags')
    (before : List CondNode) (bools : List Nat) : bools.countP (fun v => isTunable flags' v &&
        !(preserve && before.any fun earlier => (exprBools earlier.expr).contains v)) =
      bools.countP fun v => isTunable flags v &&
        !(preserve && (node :: before).any fun earlier => (exprBools earlier.expr).contains v) := by
  refine countP_congr fun v _ => ?_
  rw [(nodeFlags_ok h).2 v, any_cons, Bool.and_or_distrib_left, Bool.not_or, Bool.and_assoc]

theorem fewTunables_cons (node : CondNode) (nodes : List CondNode) :
    FewTunables preserve flags (node :: nodes) ↔ tunableCount flags node ≤ condExprMaxdepth ∧
      ∀ flags', nodeFlags preserve flags node = .ok flags' → FewTunables preserve flags' nodes := by
  constructor
  · intro h
    refine ⟨by simpa [tunableCount] using h [] node nodes rfl (by simp),
      fun flags' hnode before n after heq hmixed => ?_⟩
    rw [countP_after hnode]
    refine h (node :: before) n after (by rw [heq, cons_append]) fun hpreserve => ?_
    obtain ⟨rfl, hn⟩ := (nodeFlags_ok hnode).1 hpreserve
    exact forall_mem_cons.mpr ⟨hn, hmixed hpreserve⟩
  · rintro ⟨hcount, h⟩ before n after heq hmixed
    cases before with
    | nil =>
      obtain ⟨rfl, rfl⟩ := cons.inj heq
      simpa [tunableCount] using hcount
    | cons first before =>
      obtain ⟨rfl, hnodes⟩ := cons.inj heq
      obtain ⟨flags', hnode⟩ := nodeFlags_exists hcount fun hpreserve =>
        hmixed hpreserve node (by simp)
      rw [← countP_after hnode]
      refine h flags' hnode before n after hnodes fun hpreserve earlier hearlier => ?_
      obtain ⟨rfl, -⟩ := (nodeFlags_ok hnode).1 hpreserve
      exact hmixed hpreserve earlier (by simp [hearlier])

theorem foldlM_nodeFlags_inBounds (nodes : List CondNode) :
    InBounds (nodes.foldlM (nodeFlags preserve) flags) ↔ FewTunables preserve flags nodes := by
  induction nodes generalizing flags with
  | nil => simp [InBounds, FewTunables, pure, Except.pure]
  | cons node nodes ih =>
    rw [fewTunables_cons, foldlM_cons]
    by_cases hcount : tunableCount flags node ≤ condExprMaxdepth
    · cases hnode : nodeFlags preserve flags node with
      | ok flags' => simpa [hcount, bind, Except.bind] using ih flags'
      | error e =>
        -- the assertion fails
        cases e with
        | assertion => simp [hcount, InBounds, bind, Except.bind]
        | outOfBounds i =>
          unfold nodeFlags at hnode
          split_ifs at hnode
          cases hnode
    · have hnode : nodeFlags preserve flags node = .error (.outOfBounds condExprMaxdepth) :=
        if_neg hcount
      simp [hnode, hcount, InBounds, bind, Except.bind]

/-- Every access is within the array exactly for policies whose conditionals have few tunables: the
number of their occurrences counts, not the depth of the stack. -/
theorem discardTunables_inBounds_iff (preserve : Bool) (state : Nat → Bool)
    (flags : Nat → BitVec 32) (global : List (Option TunableDecl)) :
    InBounds (discardTunables preserve state flags global) ↔
      FewTunables preserve flags (enabledConds global) := by
  rw [← InBounds.map, discardTunables_flags, foldlM_nodeFlags_inBounds]

/-- One tunable, used over and over: the stack never holds more than two values. -/
def repeatedTunable : List CondExpr := .bool 1 :: (replicate 10 [CondExpr.bool 1, .or]).flatten

/-- The expression is valid, and its eleventh entry is stored behind the array. -/
theorem discardTunables_outOfBounds : validateCondExpr repeatedTunable { nprim := 1 } = true ∧
      ∃ i, discardTunables false (fun _ => false) (fun _ => condBoolFlagsTunable)
        [some { condList := [{ expr := repeatedTunable }] }] = .error (.outOfBounds i) ∧
          condExprMaxdepth ≤ i := by
  refine ⟨by decide, 10, rfl, by decide⟩

end SELinux.Sepol
