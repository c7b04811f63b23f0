import Mathlib.Data.Finset.Card
import SELinux.Sepol.ConditionalEqual
import SELinux.Sepol.ConditionalTree

/-! The states of the Booleans under `cond_normalize_expr`, which overwrites them to fill in its
table. Whether an expression has a value does not depend on the states, so an expression without one
fails in the first row already, with all of its Booleans set to false; nothing restores them
then. -/
namespace SELinux.Sepol

open List

/-! ## Expressions without a value -/

variable (state state' : Nat → Bool)

theorem length_condEvaluateStep {s s' : List Bool} (h : s.length = s'.length) (e : CondExpr) :
    (condEvaluateStep state s e).map length = (condEvaluateStep state' s' e).map length := by
  cases e with
  | bool v =>
    simp only [condEvaluateStep, h]
    split_ifs
    · rfl
    · exact congrArg (fun n => some (n + 1)) h
  | _ =>
    rcases s with _ | ⟨x, _ | ⟨y, s⟩⟩ <;> rcases s' with _ | ⟨x', _ | ⟨y', s'⟩⟩ <;>
      simp_all [condEvaluateStep]

theorem length_condEvaluateLoop {s s' : List Bool} (h : s.length = s'.length)
    (expr : List CondExpr) : (condEvaluateLoop state s expr).map length =
      (condEvaluateLoop state' s' expr).map length := by
  induction expr generalizing s s' with
  | nil => exact congrArg some h
  | cons e expr ih =>
    have hstep := length_condEvaluateStep state state' h e
    rw [condEvaluateLoop, condEvaluateLoop]
    cases hs : condEvaluateStep state s e with
    | none =>
      simp_all
    | some t =>
      rw [hs, Option.map_some, eq_comm, Option.map_eq_some_iff] at hstep
      obtain ⟨t', ht', hlen⟩ := hstep
      rw [ht']
      exact ih hlen.symm

theorem isSome_getLast (o : Option (List Bool)) :
    (o.bind getLast?).isSome = (o.map length).any (0 < ·) := by
  cases o with
  | none => rfl
  | some s => cases s <;> simp

/-- An expression has a value in every state or in none. -/
theorem isSome_condEvaluateExpr (expr : List CondExpr) :
    (condEvaluateExpr state expr).isSome = (condEvaluateExpr state' expr).isSome := by
  simp [condEvaluateExpr, isSome_getLast, length_condEvaluateLoop state state' (s := []) rfl]

theorem condEvaluateLoop_append (state : Nat → Bool) (s : List Bool) (xs ys : List CondExpr) :
    condEvaluateLoop state s (xs ++ ys) = (condEvaluateLoop state s xs).bind fun s =>
      condEvaluateLoop state s ys := by
  induction xs generalizing s with
  | nil => rfl
  | cons e xs ih =>
    rw [cons_append, condEvaluateLoop, condEvaluateLoop, Option.bind_assoc]
    congr 1
    funext t
    exact ih t

theorem isSome_condEvaluateExpr_not (state : Nat → Bool) (expr : List CondExpr) :
    (condEvaluateExpr state (expr ++ [.not])).isSome = (condEvaluateExpr state expr).isSome := by
  rw [condEvaluateExpr, condEvaluateExpr, condEvaluateLoop_append]
  cases condEvaluateLoop state [] expr with
  | none => rfl
  | some s =>
    cases s with
    | nil => rfl
    | cons x s =>
      rfl

theorem condStripNot_cases (cn : CondNode) :
    (condStripNot cn).expr = cn.expr ∨ cn.expr = (condStripNot cn).expr ++ [.not] := by
  rw [condStripNot]
  split
  · rename_i hlast
    obtain ⟨l, hl⟩ := getLast?_eq_some_iff.mp hlast
    right
    rw [hl, dropLast_concat]
  · exact .inl rfl

theorem isSome_condStripNot (state : Nat → Bool) (cn : CondNode) :
    (condEvaluateExpr state (condStripNot cn).expr).isSome =
      (condEvaluateExpr state cn.expr).isSome := by
  rcases condStripNot_cases cn with h | h
  · rw [h]
  · conv_rhs => rw [h, isSome_condEvaluateExpr_not]

theorem exprBools_condStripNot (cn : CondNode) :
    exprBools (condStripNot cn).expr = exprBools cn.expr := by
  rcases condStripNot_cases cn with h | h
  · rw [h]
  · simp [h, exprBools]

/-! ## The number of Booleans -/

theorem many_condCollectBool {bools : List Nat} {s} (h : Collected bools s)
    (hmany : condMaxBools < s.1 → condMaxBools < bools.toFinset.card) (v : Nat) :
    condMaxBools < (condCollectBool s (.bool v)).1 →
      condMaxBools < (bools ++ [v]).toFinset.card := by
  have hmono : bools.toFinset.card ≤ (bools ++ [v]).toFinset.card := by
    rw [toFinset_append]
    exact Finset.card_le_card Finset.subset_union_left
  rw [condCollectBool]
  by_cases hfew : s.1 ≤ condMaxBools
  · obtain ⟨hlen, hmem⟩ := h.few hfew
    have htake : s.2.take s.1 = s.2 := by rw [← hlen, take_length]
    rw [boolPresent, if_neg (Nat.not_lt.mpr hfew), htake]
    split_ifs with hin hlt
    · exact fun hlt => absurd hlt (by omega)
    · omega
    · -- the Boolean is not among the `COND_MAX_BOOLS` that have been recorded
      intro _
      have hnew : v ∉ s.2 := by simpa using hin
      have hset : (bools ++ [v]).toFinset = insert v s.2.toFinset := by
        ext w
        simp [hmem]
      rw [hset, Finset.card_insert_of_notMem (by simpa using hnew), toFinset_card_of_nodup h.nodup,
        hlen]
      omega
  · intro _
    exact Nat.lt_of_lt_of_le (hmany (Nat.lt_of_not_le hfew)) hmono

theorem condMaxBools_lt_iff (expr : List CondExpr) :
    condMaxBools < (expr.foldl condCollectBool (0, [])).1 ↔
      condMaxBools < (exprBools expr).toFinset.card := by
  constructor
  · exact (foldl_condCollectBool
      (I := fun bools s => Collected bools s ∧
        (condMaxBools < s.1 → condMaxBools < bools.toFinset.card))
      ⟨⟨by simp, by simp⟩, by simp⟩ (fun _ _ v h => ⟨h.1.step v, many_condCollectBool h.1 h.2 v⟩)
        expr).2
  · intro hlt
    by_contra hfew
    have hcollect := collected_exprBools expr
    obtain ⟨hlen, hmem⟩ := hcollect.few (Nat.le_of_not_lt hfew)
    have hset : (exprBools expr).toFinset = (expr.foldl condCollectBool (0, [])).2.toFinset := by
      ext v
      simp [hmem]
    rw [hset, toFinset_card_of_nodup hcollect.nodup, hlen] at hlt
    exact hfew hlt

/-! ## The states -/

theorem restoreBools_apply (orig : Nat → Bool) (boolIds : List Nat) (state : Nat → Bool) (v : Nat) :
    restoreBools orig boolIds state v = if v ∈ boolIds then orig v else state v := by
  rw [restoreBools]
  induction boolIds generalizing state with
  | nil => simp
  | cons w boolIds ih =>
    rw [foldl_cons, ih]
    by_cases hv : v ∈ boolIds
    · simp [hv]
    · by_cases hw : v = w
      · simp [setBool, hw]
      · simp [setBool, hv, hw]

/-- An expression with a value gets through all rows, and only its Booleans are touched. -/
theorem condPrecompute_defined (boolIds : List Nat) {expr}
    (hdef : ∀ state, (condEvaluateExpr state expr).isSome = true) (tests : List Nat)
    (preComp : BitVec 32) (state : Nat → Bool) :
    (condPrecompute boolIds expr tests preComp state).1 = true ∧
      ∀ v ∉ boolIds, (condPrecompute boolIds expr tests preComp state).2.2 v = state v := by
  induction tests generalizing preComp state with
  | nil => exact ⟨rfl, fun _ _ => rfl⟩
  | cons test tests ih =>
    obtain ⟨k, hk⟩ := Option.isSome_iff_exists.mp (hdef (setBools test 0 boolIds state))
    rw [condPrecompute, hk]
    obtain ⟨hok, hkept⟩ :=
      ih (if k then preComp ||| 1#32 <<< test else preComp) (setBools test 0 boolIds state)
    refine ⟨hok, fun v hv => (hkept v hv).trans (setBools_of_not_mem hv)⟩

theorem setBools_zero {boolIds : List Nat} (hnd : boolIds.Nodup) (state : Nat → Bool) :
    setBools 0 0 boolIds state = state ↔ ∀ v ∈ boolIds, state v = false := by
  constructor
  · intro h v hv
    rw [← h, setBools_of_mem hnd hv, Nat.zero_testBit]
  · intro h
    funext v
    by_cases hv : v ∈ boolIds
    · rw [setBools_of_mem hnd hv, Nat.zero_testBit, h v hv]
    · exact setBools_of_not_mem hv

/-- The Booleans have the states they had before, if and only if the expression has a value, or more
Booleans than a table is made for, or Booleans that are all false. An expression that the validator
accepts has a value. -/
theorem condNormalizeExpr_restores_iff (state : Nat → Bool) (cn : CondNode) :
    ((condNormalizeExpr state cn).2.1 = state ↔ (condEvaluateExpr state cn.expr).isSome = true ∨
        condMaxBools < (exprBools cn.expr).toFinset.card ∨
        ∀ v ∈ exprBools cn.expr, state v = false) ∧
      ∀ boolean, validateCondExpr cn.expr boolean = true →
        (condNormalizeExpr state cn).2.1 = state := by
  suffices hiff : _ ↔ _ by
    refine ⟨hiff, fun boolean h => hiff.mpr (.inl ?_)⟩
    obtain ⟨t, -, hvalue⟩ := exists_condTree h
    rw [hvalue, Option.isSome_some]
  unfold condNormalizeExpr
  dsimp only
  by_cases hnot : cn.expr = [.not]
  · simp [hnot, exprBools]
  rw [if_neg hnot]
  generalize hcn : ({ cn with nbools := 0, boolIds := [], exprPreComp := 0 } : CondNode) = cn'
  have hexpr : cn.expr = cn'.expr := hcn ▸ rfl
  rw [hexpr, ← isSome_condStripNot state cn', ← exprBools_condStripNot cn']
  generalize (condStripNot cn').expr = expr
  have hcollect := collected_exprBools expr
  rw [← condMaxBools_lt_iff]
  generalize expr.foldl condCollectBool (0, []) = bools at hcollect
  by_cases hfew : bools.1 ≤ condMaxBools
  swap
  · rw [if_neg hfew]
    exact iff_of_true rfl (.inr (.inl (Nat.lt_of_not_le hfew)))
  obtain ⟨-, hmem⟩ := hcollect.few hfew
  rw [if_pos hfew]
  cases hsome : (condEvaluateExpr state expr).isSome with
  | true =>
    have hdef := fun state' => (isSome_condEvaluateExpr state' state expr).trans hsome
    obtain ⟨hok, hkept⟩ := condPrecompute_defined bools.2 hdef (range (2 ^ bools.1)) 0 state
    rw [if_pos hok]
    refine iff_of_true (funext fun v => ?_) (.inl rfl)
    refine (restoreBools_apply ..).trans ?_
    split_ifs with hv
    · rfl
    · exact hkept v hv
  | false =>
    -- the first row is row 0
    have hnone : condEvaluateExpr (setBools 0 0 bools.2 state) expr = none := by
      rw [← Option.not_isSome_iff_eq_none, isSome_condEvaluateExpr _ state, hsome]
      exact Bool.false_ne_true
    have hrange : range (2 ^ bools.1) = 0 :: (range (2 ^ bools.1 - 1)).map Nat.succ := by
      rw [← range_succ_eq_map, Nat.sub_add_cancel Nat.one_le_two_pow]
    rw [hrange, condPrecompute, hnone]
    simp only [Bool.false_eq_true, if_false, false_or, Nat.not_lt.mpr hfew, hmem]
    exact setBools_zero hcollect.nodup state

/-- An expression with an operator that lacks an operand is refused, and its Boolean is left
false. -/
theorem condNormalizeExpr_leaves_false :
    (condNormalizeExpr (fun _ => true) { expr := [.bool 1, .and] }).1 = -1 ∧
      (condNormalizeExpr (fun _ => true) { expr := [.bool 1, .and] }).2.1 1 = false := by
  decide

end SELinux.Sepol
