import SELinux.Sepol.Policydb

/-! Conditional expressions (`conditional.c`): evaluation of reverse Polish
notation on a bounded stack, normalisation with its precomputed truth table, and
the comparison that decides whether two conditionals share their rule lists. -/
namespace SELinux.Sepol

def condExprMaxdepth : Nat := 10
def condMaxBools : Nat := 5

/-! ## Evaluation -/

/-- One round of the loop of `cond_evaluate_expr`, on the stack `s[0..sp]` with
its top first; `none` is the early `return -1`. -/
def condEvaluateStep (state : Nat → Bool) : List Bool → CondExpr → Option (List Bool)
  | s, .bool b => if s.length = condExprMaxdepth then none else some (state b :: s)
  | x :: s, .not => some ((!x) :: s)
  | y :: x :: s, .or => some ((x || y) :: s)
  | y :: x :: s, .and => some ((x && y) :: s)
  | y :: x :: s, .xor => some ((x ^^ y) :: s)
  | y :: x :: s, .eq => some ((x == y) :: s)
  | y :: x :: s, .neq => some ((x != y) :: s)
  | _, _ => none

def condEvaluateLoop (state : Nat → Bool) : List Bool → List CondExpr → Option (List Bool)
  | s, [] => some s
  | s, e :: next => (condEvaluateStep state s e).bind fun s => condEvaluateLoop state s next

/-- `cond_evaluate_expr`: the value left at the bottom of the stack, `s[0]`;
`none` is `-1`, also for the empty expression. -/
def condEvaluateExpr (state : Nat → Bool) (expr : List CondExpr) : Option Bool :=
  (condEvaluateLoop state [] expr).bind List.getLast?

/-- The `int` that `cond_evaluate_expr` returns. -/
def condValue : Option Bool → Int
  | none => -1
  | some false => 0
  | some true => 1

/-! ## Normalisation -/

/-- `bool_present`: never found among more than `COND_MAX_BOOLS`. -/
def boolPresent (target : Nat) (bools : List Nat) (numBools : Nat) : Bool :=
  if numBools > condMaxBools then false else (bools.take numBools).contains target

/-- One round of the loop that finds the Booleans of an expression, on `nbools` and
`bool_ids`: all are counted, but only the first `COND_MAX_BOOLS` are recorded. -/
def condCollectBool (s : Nat × List Nat) : CondExpr → Nat × List Nat
  | .bool v =>
    if boolPresent v s.2 s.1 then s
    else if s.1 < condMaxBools then (s.1 + 1, s.2 ++ [v])
    else (s.1 + 1, s.2)
  | _ => s

/-- Write the state of a Boolean. -/
def setBool (state : Nat → Bool) (v : Nat) (b : Bool) : Nat → Bool :=
  fun w => if w = v then b else state w

/-- Set the Booleans of a row of the table: the one at position `j` to bit `j` of
`test`. -/
def setBools (test : Nat) : Nat → List Nat → (Nat → Bool) → Nat → Bool
  | _, [], state => state
  | j, v :: bools, state => setBools test (j + 1) bools (setBool state v (test.testBit j))

/-- The loop over the rows: whether all are defined, and `expr_pre_comp` and the
state of the Booleans at the end. -/
def condPrecompute (boolIds : List Nat) (expr : List CondExpr) :
    List Nat → BitVec 32 → (Nat → Bool) → Bool × BitVec 32 × (Nat → Bool)
  | [], preComp, state => (true, preComp, state)
  | test :: tests, preComp, state =>
    let state := setBools test 0 boolIds state
    match condEvaluateExpr state expr with
    | none => (false, preComp, state)
    | some k =>
      condPrecompute boolIds expr tests (if k then preComp ||| 1#32 <<< test else preComp) state

/-- Restore the Booleans to their original values. -/
def restoreBools (orig : Nat → Bool) (boolIds : List Nat) (state : Nat → Bool) : Nat → Bool :=
  boolIds.foldl (fun state v => setBool state v (orig v)) state

/-- The `!expr` case: strip the operator and swap the lists. -/
def condStripNot (cn : CondNode) : CondNode :=
  match cn.expr.getLast? with
  | some .not =>
    { cn with
      expr := cn.expr.dropLast
      trueList := cn.falseList
      falseList := cn.trueList
      avtrueList := cn.avfalseList
      avfalseList := cn.avtrueList }
  | _ => cn

/-- `cond_normalize_expr`: the result, the state of the policy's Booleans
afterwards, and the node. An undefined expression leaves the Booleans of the row it
failed in. The expression is not empty. -/
def condNormalizeExpr (state : Nat → Bool) (cn : CondNode) : Int × (Nat → Bool) × CondNode :=
  let cn := { cn with nbools := 0, boolIds := [], exprPreComp := 0 }
  if cn.expr = [.not] then (-1, state, cn)
  else
    let cn := condStripNot cn
    let bools := cn.expr.foldl condCollectBool (0, [])
    let cn := { cn with nbools := bools.1, boolIds := bools.2 }
    if cn.nbools ≤ condMaxBools then
      let r := condPrecompute cn.boolIds cn.expr (List.range (2 ^ cn.nbools)) 0 state
      let cn := { cn with exprPreComp := r.2.1 }
      if r.1 then (0, restoreBools state cn.boolIds r.2.2, cn) else (-1, r.2.2, cn)
    else (0, state, cn)

/-! ## Comparison -/

def sameBools (a b : CondNode) : Bool :=
  a.nbools == b.nbools && a.boolIds.all fun v => boolPresent v b.boolIds a.nbools

/-- The loop over two long expressions. -/
def condExprLoopEqual : List CondExpr → List CondExpr → Bool
  | [], [] => true
  | a :: as, b :: bs => a == b && condExprLoopEqual as bs
  | _, _ => false

/-- `cond_expr_equal`, of two nodes that are not `NULL`. -/
def condExprEqual (a b : CondNode) : Bool :=
  if a.nbools ≠ b.nbools then false
  else if a.nbools ≤ condMaxBools ∧ b.nbools ≤ condMaxBools then
    if !sameBools a b then false else a.exprPreComp == b.exprPreComp
  else condExprLoopEqual a.expr b.expr

end SELinux.Sepol
