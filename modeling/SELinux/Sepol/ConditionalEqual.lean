import SELinux.Lib.TruthTable
import SELinux.Sepol.Conditional

/-! Where the comparison of conditional expressions is sound. A normalised
expression of few Booleans is the function of its table, read in the order in which
the Booleans occur in it; the comparison looks at the table and at the set of the
Booleans, but not at their order. -/
namespace SELinux.Sepol

open List

/-! ## Evaluation -/

/-- The Booleans of an expression. -/
def exprBools (expr : List CondExpr) : List Nat :=
  expr.filterMap fun
    | .bool v => some v
    | _ => none

theorem mem_exprBools {expr v} : v ∈ exprBools expr ↔ .bool v ∈ expr := by
  simp only [exprBools, mem_filterMap]
  constructor
  · rintro ⟨e, he, hv⟩
    cases e <;> cases hv
    exact he
  · intro h
    exact ⟨_, h, rfl⟩

theorem condEvaluateStep_congr {state state' e} (h : ∀ v, e = .bool v → state v = state' v)
    (s : List Bool) : condEvaluateStep state s e = condEvaluateStep state' s e := by
  cases e with
  | bool v => simp only [condEvaluateStep, h v rfl]
  | _ => rcases s with _ | ⟨x, _ | ⟨y, s⟩⟩ <;> rfl

theorem condEvaluateLoop_congr {state state' expr} (h : ∀ v ∈ exprBools expr, state v = state' v)
    (s : List Bool) : condEvaluateLoop state s expr = condEvaluateLoop state' s expr := by
  induction expr generalizing s with
  | nil => rfl
  | cons e expr ih =>
    have hstep : ∀ v, e = .bool v → state v = state' v := by
      rintro v rfl
      exact h v (mem_exprBools.mpr (by simp))
    have hrest : ∀ v ∈ exprBools expr, state v = state' v := fun v hv =>
      h v (mem_exprBools.mpr (mem_cons_of_mem _ (mem_exprBools.mp hv)))
    rw [condEvaluateLoop, condEvaluateLoop, condEvaluateStep_congr hstep]
    congr 1
    funext s
    exact ih hrest s

theorem condEvaluateExpr_congr {state state' expr} (h : ∀ v ∈ exprBools expr, state v = state' v) :
    condEvaluateExpr state expr = condEvaluateExpr state' expr := by
  rw [condEvaluateExpr, condEvaluateExpr, condEvaluateLoop_congr h]

/-! ## Collecting Booleans -/

/-- What `nbools` and `bool_ids` say about the Booleans met so far: while there are
few, they have all been recorded, each once. -/
structure Collected (bools : List Nat) (s : Nat × List Nat) : Prop where
  nodup : s.2.Nodup
  few : s.1 ≤ condMaxBools → s.2.length = s.1 ∧ ∀ v, v ∈ bools ↔ v ∈ s.2

theorem Collected.step {bools s} (h : Collected bools s) (v : Nat) :
    Collected (bools ++ [v]) (condCollectBool s (.bool v)) := by
  rw [condCollectBool, boolPresent]
  by_cases hfew : s.1 ≤ condMaxBools
  · obtain ⟨hlen, hmem⟩ := h.few hfew
    have htake : s.2.take s.1 = s.2 := by rw [← hlen, take_length]
    rw [if_neg (Nat.not_lt.mpr hfew), htake]
    split_ifs with hin hlt
    · refine ⟨h.nodup, fun _ => ⟨hlen, fun w => ?_⟩⟩
      simp_all
    · have hnew : v ∉ s.2 := by simpa using hin
      refine ⟨?_, fun _ => ⟨by simp [hlen], fun w => by simp [hmem]⟩⟩
      exact nodup_append'.mpr ⟨h.nodup, by simp, by simpa using hnew⟩
    · exact ⟨h.nodup, fun hle => absurd hle (by omega)⟩
  · rw [if_pos (Nat.lt_of_not_le hfew)]
    simp only [Bool.false_eq_true, if_false]
    rw [if_neg (by omega)]
    exact ⟨h.nodup, fun hle => absurd hle (by omega)⟩

/-- What holds of the Booleans so far and of what has been collected of them, holds at the end. -/
theorem foldl_condCollectBool {I : List Nat → Nat × List Nat → Prop} (hnil : I [] (0, []))
    (hstep : ∀ bools s v, I bools s → I (bools ++ [v]) (condCollectBool s (.bool v)))
    (expr : List CondExpr) : I (exprBools expr) (expr.foldl condCollectBool (0, [])) := by
  have hloop : ∀ (expr : List CondExpr) (bools : List Nat) (s : Nat × List Nat),
      I bools s → I (bools ++ exprBools expr) (expr.foldl condCollectBool s) := by
    intro expr
    induction expr with
    | nil =>
      simp [exprBools]
    | cons e expr ih =>
      intro bools s h
      cases e with
      | bool v => simpa [exprBools] using ih _ _ (hstep bools s v h)
      | _ => exact ih bools s h
  simpa using hloop expr [] (0, []) hnil

theorem collected_exprBools (expr : List CondExpr) :
    Collected (exprBools expr) (expr.foldl condCollectBool (0, [])) :=
  foldl_condCollectBool ⟨by simp, by simp⟩ (fun _ _ v h => h.step v) expr

/-! ## The table -/

theorem setBools_of_not_mem {test j bools state v} (h : v ∉ bools) :
    setBools test j bools state v = state v := by
  induction bools generalizing j state with
  | nil => rfl
  | cons w bools ih =>
    rw [mem_cons, not_or] at h
    rw [setBools, ih h.2, setBool, if_neg h.1]

theorem setBools_of_mem {test j : Nat} {bools : List Nat} (hnd : bools.Nodup) {state v}
    (h : v ∈ bools) : setBools test j bools state v = test.testBit (j + bools.idxOf v) := by
  induction bools generalizing j state with
  | nil => simp at h
  | cons w bools ih =>
    obtain ⟨hw, hnd⟩ := nodup_cons.mp hnd
    rw [setBools]
    by_cases hv : v = w
    · subst hv
      simp [setBools_of_not_mem hw, setBool]
    · rw [ih hnd ((mem_cons.mp h).resolve_left hv), idxOf_cons_ne _ (Ne.symm hv)]
      congr 1
      omega

variable {preComp : BitVec 32} {a b : CondNode}

theorem getLsbD_setRow {test} (htest : test < 32) {k x} :
    (if k then preComp ||| 1#32 <<< test else preComp).getLsbD x =
      (preComp.getLsbD x || decide (x = test ∧ k = true)) := by
  cases k with
  | false => simp
  | true =>
    have hbit : (1#32 <<< test).getLsbD x = decide (x = test) := by
      by_cases hx : x = test
      · simp [hx, htest]
      · by_cases hlt : x < test
        · simp [hx, hlt]
        · have : x - test ≠ 0 := by omega
          simp [hx, this]
    simp [hbit]

/-- The loop over the rows fills in the rows it visits. -/
theorem condPrecompute_spec {boolIds : List Nat} (hnd : boolIds.Nodup) {expr}
    (hbools : ∀ v ∈ exprBools expr, v ∈ boolIds) {tests} (htests : ∀ x ∈ tests, x < 32)
    {state} (hok : (condPrecompute boolIds expr tests preComp state).1 = true) :
    (∀ x ∈ tests, (condEvaluateExpr (Lib.rowState boolIds x) expr).isSome = true) ∧
    ∀ x, (condPrecompute boolIds expr tests preComp state).2.1.getLsbD x = (preComp.getLsbD x ||
      decide (x ∈ tests ∧ condEvaluateExpr (Lib.rowState boolIds x) expr = some true)) := by
  induction tests generalizing preComp state with
  | nil => simp [condPrecompute]
  | cons test tests ih =>
    have hrow : condEvaluateExpr (setBools test 0 boolIds state) expr =
        condEvaluateExpr (Lib.rowState boolIds test) expr := by
      apply condEvaluateExpr_congr
      intro v hv
      rw [setBools_of_mem hnd (hbools v hv), Nat.zero_add, Lib.rowState]
    rw [condPrecompute, hrow] at hok ⊢
    cases hk : condEvaluateExpr (Lib.rowState boolIds test) expr with
    | none => simp [hk] at hok
    | some k =>
      rw [hk] at hok
      obtain ⟨hdef, hbits⟩ := ih (fun x hx => htests x (by simp [hx])) hok
      refine ⟨?_, fun x => ?_⟩
      · simpa [hk] using hdef
      · rw [hbits, getLsbD_setRow (htests test (by simp))]
        by_cases hx : x = test
        · subst hx
          cases k <;> simp [hk]
        · simp [hx]

/-! ## Normalised nodes -/

/-- A node that `cond_normalize_expr` has succeeded on. -/
def CondNode.Normalized (cn : CondNode) : Prop :=
  ∃ state cn0, (condNormalizeExpr state cn0).1 = 0 ∧ (condNormalizeExpr state cn0).2.2 = cn

/-- What normalisation leaves: the Booleans of the expression, each once, and if
they are few, its table. -/
structure CondNode.Tabulated (cn : CondNode) : Prop where
  nodup : cn.boolIds.Nodup
  few : cn.nbools ≤ condMaxBools → cn.boolIds.length = cn.nbools ∧
    ∀ state, condEvaluateExpr state cn.expr =
      some (cn.exprPreComp.getLsbD (Lib.rowIndex cn.boolIds state))

theorem CondNode.Normalized.tabulated {cn : CondNode} (h : cn.Normalized) : cn.Tabulated := by
  obtain ⟨state, cn0, hok, rfl⟩ := h
  unfold condNormalizeExpr at hok ⊢
  dsimp only at hok ⊢
  split_ifs at hok ⊢ with hnot hfew hdef
  · simp at hok
  all_goals generalize condStripNot _ = cn at *
  · have hcollect := collected_exprBools cn.expr
    generalize cn.expr.foldl condCollectBool (0, []) = bools at *
    obtain ⟨hlen, hmem⟩ := hcollect.few hfew
    have hpow : 2 ^ bools.1 ≤ 32 := by
      have hle : bools.1 ≤ 5 := hfew
      calc 2 ^ bools.1 ≤ 2 ^ 5 := Nat.pow_le_pow_right (by decide) hle
        _ = 32 := rfl
    obtain ⟨hsome, hbits⟩ := condPrecompute_spec hcollect.nodup (fun v hv => (hmem v).mp hv)
      (fun x hx => Nat.lt_of_lt_of_le (mem_range.mp hx) hpow) hdef
    refine ⟨hcollect.nodup, fun _ => ⟨hlen, fun state' => ?_⟩⟩
    have hrow : Lib.rowIndex bools.2 state' ∈ List.range (2 ^ bools.1) :=
      mem_range.mpr (hlen ▸ Lib.rowIndex_lt bools.2 state')
    have hagree : condEvaluateExpr state' cn.expr =
        condEvaluateExpr (Lib.rowState bools.2 (Lib.rowIndex bools.2 state')) cn.expr := by
      apply condEvaluateExpr_congr
      intro v hv
      exact (Lib.rowState_rowIndex ((hmem v).mp hv)).symm
    obtain ⟨k, hk⟩ := Option.isSome_iff_exists.mp (hsome _ hrow)
    rw [hagree, hbits, hk]
    simp [hrow]
  · simp at hok
  · exact ⟨(collected_exprBools cn.expr).nodup, fun h => absurd h hfew⟩

/-! ## Comparison -/

theorem condExprLoopEqual_iff {as bs} : condExprLoopEqual as bs = true ↔ as = bs := by
  induction as generalizing bs with
  | nil => cases bs <;> simp [condExprLoopEqual]
  | cons a as ih =>
    cases bs with
    | nil => simp [condExprLoopEqual]
    | cons b bs => simp [condExprLoopEqual, ih]

/-- Two nodes that the comparison takes for equal by their tables: the same few
Booleans, in whatever order, and the same table. -/
structure CondNode.SameTable (a b : CondNode) : Prop where
  nbools : a.nbools = b.nbools
  few : a.nbools ≤ condMaxBools
  bools : ∀ v ∈ a.boolIds, v ∈ b.boolIds
  table : a.exprPreComp = b.exprPreComp

/-- Reordering the Booleans of a row from the order of `b` to that of `a` does not
change the entry. -/
def CondNode.Reorderable (a b : CondNode) : Prop :=
  ∀ row < 2 ^ b.boolIds.length,
    a.exprPreComp.getLsbD (Lib.rowIndex a.boolIds (Lib.rowState b.boolIds row)) =
      a.exprPreComp.getLsbD row

instance (a b : CondNode) : Decidable (a.Reorderable b) :=
  inferInstanceAs (Decidable (∀ row < _, _))

theorem condExprEqual_iff (hb : b.Tabulated) : condExprEqual a b = true ↔
      a.SameTable b ∨ (a.nbools = b.nbools ∧ condMaxBools < a.nbools ∧ a.expr = b.expr) := by
  unfold condExprEqual
  by_cases hn : a.nbools = b.nbools
  · rw [if_neg (not_not.mpr hn)]
    by_cases hfew : a.nbools ≤ condMaxBools
    · have hpresent : ∀ v, boolPresent v b.boolIds a.nbools = true ↔ v ∈ b.boolIds := by
        intro v
        have hlen := (hb.few (hn ▸ hfew)).1
        rw [boolPresent, if_neg (Nat.not_lt.mpr hfew), hn, ← hlen, take_length]
        simp
      have hsame : sameBools a b = true ↔ ∀ v ∈ a.boolIds, v ∈ b.boolIds := by
        simp [sameBools, hn, hn ▸ hpresent]
      rw [if_pos ⟨hfew, hn ▸ hfew⟩]
      constructor
      · intro h
        split_ifs at h with hs
        exact .inl ⟨hn, hfew, hsame.mp (by simpa using hs), beq_iff_eq.mp h⟩
      · rintro (h | ⟨-, hlong, -⟩)
        · rw [hsame.mpr h.bools]
          simpa using h.table
        · omega
    · rw [if_neg fun h => hfew h.1, condExprLoopEqual_iff]
      constructor
      · exact fun h => .inr ⟨hn, Nat.lt_of_not_le hfew, h⟩
      · rintro (h | ⟨-, -, h⟩)
        · exact absurd h.few hfew
        · exact h
  · rw [if_pos hn]
    simp only [Bool.false_eq_true, false_iff, not_or]
    exact ⟨fun h => hn h.nbools, fun h => hn h.1⟩

/-- Two tabulated nodes with the same Booleans and the same table have the same value
in every state, if and only if the table does not depend on the order. -/
theorem CondNode.SameTable.eval_eq_iff (h : a.SameTable b) (ha : a.Tabulated) (hb : b.Tabulated) :
    (∀ state, condEvaluateExpr state a.expr = condEvaluateExpr state b.expr) ↔ a.Reorderable b := by
  have hfew := h.few
  simp only [(ha.few hfew).2, (hb.few (h.nbools ▸ hfew)).2, Option.some_inj, ← h.table]
  exact Lib.rows_eq_iff hb.nodup h.bools

/-- `cond_expr_equal` is right to take two normalised nodes for equal, if and only
if: in case they have the same few Booleans and the same table, the table does not
depend on the order of the Booleans. -/
theorem condExprEqual_sound_iff {a b : CondNode} (ha : a.Normalized) (hb : b.Normalized) :
    (condExprEqual a b = true →
      ∀ state, condEvaluateExpr state a.expr = condEvaluateExpr state b.expr) ↔
      (a.SameTable b → a.Reorderable b) := by
  rw [condExprEqual_iff hb.tabulated]
  constructor
  · intro hsound h
    exact (h.eval_eq_iff ha.tabulated hb.tabulated).mp (hsound (.inl h))
  · rintro hreorder (h | ⟨-, -, hexpr⟩)
    · exact (h.eval_eq_iff ha.tabulated hb.tabulated).mpr (hreorder h)
    · intro state
      rw [hexpr]

/-- A normalised node with a given expression. -/
def normalizedNode (expr : List CondExpr) : CondNode :=
  (condNormalizeExpr (fun _ => false) { expr := expr }).2.2

/-- `x && y` and `y && x` are rightly taken for equal. -/
theorem condExprEqual_sound_and : condExprEqual (normalizedNode [.bool 1, .bool 2, .and])
      (normalizedNode [.bool 2, .bool 1, .and]) = true ∧
    ∀ state, condEvaluateExpr state [.bool 1, .bool 2, .and] =
      condEvaluateExpr state [.bool 2, .bool 1, .and] := by
  have hequal : condExprEqual (normalizedNode [.bool 1, .bool 2, .and])
      (normalizedNode [.bool 2, .bool 1, .and]) = true := by decide
  refine ⟨hequal, (condExprEqual_sound_iff ⟨_, _, ?_, rfl⟩ ⟨_, _, ?_, rfl⟩).mpr ?_ hequal⟩
  · decide
  · decide
  · exact fun _ => by decide

/-- `x && !y` and `y && !x` are taken for equal as well. -/
theorem condExprEqual_and_not : (normalizedNode [.bool 1, .bool 2, .not, .and]).Normalized ∧
    (normalizedNode [.bool 2, .bool 1, .not, .and]).Normalized ∧
    condExprEqual (normalizedNode [.bool 1, .bool 2, .not, .and])
      (normalizedNode [.bool 2, .bool 1, .not, .and]) = true ∧ condEvaluateExpr (fun v => v == 1)
      (normalizedNode [.bool 1, .bool 2, .not, .and]).expr = some true ∧
    condEvaluateExpr (fun v => v == 1)
      (normalizedNode [.bool 2, .bool 1, .not, .and]).expr = some false :=
  ⟨⟨_, _, by decide, rfl⟩, ⟨_, _, by decide, rfl⟩, by decide, by decide, by decide⟩

end SELinux.Sepol
