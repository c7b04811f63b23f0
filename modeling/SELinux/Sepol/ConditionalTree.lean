import SELinux.Lib.Rpn
import SELinux.Sepol.Validate

/-! What a conditional expression means. An expression that the validator accepts is the
notation of one tree of connectives, and the evaluator, whose stack has the depth that the
validator counts up to, returns the value of this tree. -/
namespace SELinux.Sepol

open Lib.Rpn

/-- The connectives of two operands. -/
inductive CondOp where
  | or
  | and
  | xor
  | eq
  | neq
  deriving DecidableEq

def CondOp.apply : CondOp → Bool → Bool → Bool
  | .or, x, y => x || y
  | .and, x, y => x && y
  | .xor, x, y => x ^^ y
  | .eq, x, y => x == y
  | .neq, x, y => x != y

/-- A Boolean expression over the Booleans of a policy. -/
abbrev CondTree := Tree Nat Unit CondOp

def CondTree.eval (state : Nat → Bool) : CondTree → Bool
  | .leaf b => state b
  | .un _ t => !CondTree.eval state t
  | .bin op l r => op.apply (CondTree.eval state l) (CondTree.eval state r)

/-- The entry that stands for a symbol. -/
def condTreeEntry : Sym Nat Unit CondOp → CondExpr
  | .leaf b => .bool b
  | .un _ => .not
  | .bin .or => .or
  | .bin .and => .and
  | .bin .xor => .xor
  | .bin .eq => .eq
  | .bin .neq => .neq

/-- The expression in reverse Polish notation. -/
def CondTree.toExpr (t : CondTree) : List CondExpr := t.rpn.map condTreeEntry

theorem condTreeEntry_injective : Function.Injective condTreeEntry := by
  intro x y h
  cases x with
  | leaf a =>
    cases y with
    | leaf b =>
      cases h
      rfl
    | un u => cases h
    | bin op => cases op <;> cases h
  | un u =>
    cases y with
    | un v => rfl
    | leaf b => cases h
    | bin op => cases op <;> cases h
  | bin op =>
    cases y with
    | bin op' => cases op <;> cases op' <;> first | rfl | cases h
    | leaf b => cases op <;> cases h
    | un u => cases op <;> cases h

theorem CondTree.toExpr_injective {t1 t2 : CondTree} (h : t1.toExpr = t2.toExpr) : t1 = t2 :=
  Tree.rpn_injective (List.map_injective_iff.mpr condTreeEntry_injective h)

/-- The connectives as a reading of the symbols. -/
def condReading (state : Nat → Bool) : Reading Nat Unit CondOp Bool where
  leaf := state
  un := fun _ x => !x
  bin := CondOp.apply

theorem CondTree.value_eq (state : Nat → Bool) (t : CondTree) :
    Tree.value (condReading state) t = t.eval state := by
  induction t with
  | leaf b => rfl
  | un u t ih =>
    rw [Tree.value, ih]
    rfl
  | bin op l r ihl ihr =>
    rw [Tree.value, ihl, ihr]
    rfl

/-! ## The validator counts the depth -/

theorem validateCondDepth_bin {boolean depth expr} (op : CondOp) :
    validateCondDepth boolean depth (condTreeEntry (.bin op) :: expr) =
      if depth < 2 then none else validateCondDepth boolean (depth - 1) expr := by
  cases op <;> rfl

theorem validateCondDepth_eq_some {boolean depth depth' expr}
    (h : validateCondDepth boolean depth expr = some depth') :
    ∃ xs : List (Sym Nat Unit CondOp), xs.map condTreeEntry = expr ∧
      Lib.Rpn.depth condExprMaxdepth depth xs = some depth' := by
  have hbin (op : CondOp) {e : CondExpr} {expr : List CondExpr} {depth : Nat}
      (he : e = condTreeEntry (.bin op))
      (ih : ∀ {depth}, validateCondDepth boolean depth expr = some depth' →
        ∃ xs : List (Sym Nat Unit CondOp), xs.map condTreeEntry = expr ∧
          Lib.Rpn.depth condExprMaxdepth depth xs = some depth')
      (h : validateCondDepth boolean depth (e :: expr) = some depth') :
      ∃ xs : List (Sym Nat Unit CondOp), xs.map condTreeEntry = e :: expr ∧
        Lib.Rpn.depth condExprMaxdepth depth xs = some depth' := by
    rw [he, validateCondDepth_bin] at h
    split_ifs at h with hd
    obtain ⟨xs, hxs, hdepth⟩ := ih h
    refine ⟨.bin op :: xs, by rw [List.map_cons, hxs, he], ?_⟩
    rw [Lib.Rpn.depth, depthStep, if_neg hd]
    exact hdepth
  induction expr generalizing depth with
  | nil =>
    cases h
    exact ⟨[], rfl, rfl⟩
  | cons e expr ih =>
    cases e with
    | bool b =>
      rw [validateCondDepth] at h
      split_ifs at h with hd
      obtain ⟨xs, hxs, hdepth⟩ := ih h
      refine ⟨.leaf b :: xs, by rw [List.map_cons, hxs, condTreeEntry], ?_⟩
      rw [Lib.Rpn.depth, depthStep, if_neg hd.2]
      exact hdepth
    | not =>
      rw [validateCondDepth] at h
      split_ifs at h with hd
      obtain ⟨xs, hxs, hdepth⟩ := ih h
      refine ⟨.un () :: xs, by rw [List.map_cons, hxs, condTreeEntry], ?_⟩
      rw [Lib.Rpn.depth, depthStep, if_neg hd]
      exact hdepth
    | or => exact hbin .or rfl ih h
    | and => exact hbin .and rfl ih h
    | xor => exact hbin .xor rfl ih h
    | eq => exact hbin .eq rfl ih h
    | neq => exact hbin .neq rfl ih h
    | invalid n => cases h

/-! ## The evaluator is the stack machine -/

theorem condEvaluateStep_eq {state} {s : List Bool} {x d}
    (h : depthStep condExprMaxdepth s.length x = some d) :
    condEvaluateStep state s (condTreeEntry x) = step (condReading state) s x := by
  cases x with
  | leaf b =>
    rw [depthStep] at h
    split_ifs at h with hd
    rw [condTreeEntry, condEvaluateStep, if_neg hd]
    rfl
  | un u => rcases s with _ | ⟨x, s⟩ <;> rfl
  | bin op => cases op <;> rcases s with _ | ⟨y, _ | ⟨x, s⟩⟩ <;> rfl

theorem condEvaluateLoop_eq {state} {s : List Bool} {xs : List (Sym Nat Unit CondOp)} {d}
    (h : Lib.Rpn.depth condExprMaxdepth s.length xs = some d) :
    condEvaluateLoop state s (xs.map condTreeEntry) = run (condReading state) s xs := by
  induction xs generalizing s with
  | nil => rfl
  | cons x xs ih =>
    obtain ⟨d1, hd1, hrest⟩ := Option.bind_eq_some_iff.mp h
    obtain ⟨s1, hs1, hlen⟩ := step_of_depth (R := condReading state) hd1
    rw [← hlen] at hrest
    rw [List.map_cons, condEvaluateLoop, condEvaluateStep_eq hd1, run, hs1]
    exact ih hrest

theorem exists_condTree {boolean expr} (h : validateCondExpr expr boolean = true) :
    ∃ t : CondTree, t.toExpr = expr ∧ ∀ state,
      condEvaluateExpr state expr = some (t.eval state) := by
  rw [validateCondExpr, beq_iff_eq] at h
  obtain ⟨xs, hxs, hdepth⟩ := validateCondDepth_eq_some h
  obtain ⟨t, ht⟩ := exists_tree hdepth
  refine ⟨t, by rw [CondTree.toExpr, ht, hxs], fun state => ?_⟩
  rw [condEvaluateExpr, ← hxs, condEvaluateLoop_eq (s := []) hdepth, ← ht, run_rpn,
    CondTree.value_eq]
  rfl

/-- An accepted expression is the notation of one tree, and its value is that of the tree. -/
theorem condEvaluateExpr_tree (boolean : Validate) (expr : List CondExpr)
    (h : validateCondExpr expr boolean = true) :
    ∃ t : CondTree, t.toExpr = expr ∧ (∀ t' : CondTree, t'.toExpr = expr → t' = t) ∧
      ∀ state : Nat → Bool, condEvaluateExpr state expr = some (t.eval state) ∧
        condValue (condEvaluateExpr state expr) ≠ -1 ∧
        condValue (condEvaluateExpr state expr) = if t.eval state then 1 else 0 := by
  obtain ⟨t, hexpr, hvalue⟩ := exists_condTree h
  refine ⟨t, hexpr, fun t' ht' => CondTree.toExpr_injective (ht'.trans hexpr.symm), fun state => ?_⟩
  rw [hvalue]
  cases CondTree.eval state t with
  | false => exact ⟨rfl, by decide, rfl⟩
  | true => exact ⟨rfl, by decide, rfl⟩

/-- A Boolean or its negation. -/
theorem condEvaluateExpr_tree_excluded_middle :
    ∃ t : CondTree, t.toExpr = [.bool 1, .bool 1, .not, .or] ∧
      ∀ state : Nat → Bool, condEvaluateExpr state [.bool 1, .bool 1, .not, .or] =
        some (t.eval state) := by
  obtain ⟨t, ht, -, heval⟩ :=
    condEvaluateExpr_tree ⟨1, ∅⟩ [.bool 1, .bool 1, .not, .or] (by decide)
  exact ⟨t, ht, fun state => (heval state).1⟩

end SELinux.Sepol
