import SELinux.Sepol.AvtabRead
import SELinux.Sepol.Context
import SELinux.Sepol.Validate

/-! Constraints: how they are read from a policy file (`read_cons_helper` in `policydb.c`)
and how they are evaluated (`constraint_expr_eval_reason` in `services.c`). The evaluator
also writes the expression out as text, first entry by entry and then as one answer.
Allocation is assumed to succeed. -/
namespace SELinux.Sepol

def cexprMaxdepth : Nat := 5

/-! ## Reading -/

/-- The nodes of a bitmap: the bits, and the start bit of the last node. -/
def ebitmapReadNodes (highbit : Nat) :
    Nat → Option Nat → PolicyFile → Option (List Nat × Option Nat × PolicyFile)
  | 0, last, fp => some ([], last, fp)
  | n + 1, last, fp => do
    let (startbit, fp) ← nextLe32 fp
    if startbit.toNat % mapsize ≠ 0 ∨ highbit - mapsize < startbit.toNat then none
    else
      let (low, fp) ← nextLe32 fp
      let (high, fp) ← nextLe32 fp
      let map := high ++ low
      if map = 0 then none
      else if last.any fun l => decide (startbit.toNat ≤ l) then none
      else
        let (bits, last, fp) ← ebitmapReadNodes highbit n (some startbit.toNat) fp
        some (((List.range mapsize).filter map.getLsbD).map (startbit.toNat + ·) ++ bits, last, fp)

/-- `ebitmap_read`. The high bit leaves no room for a bit past the limit. -/
def ebitmapRead (fp : PolicyFile) : Option (Ebitmap × PolicyFile) := do
  let (size, fp) ← nextLe32 fp
  let (highbit, fp) ← nextLe32 fp
  let (count, fp) ← nextLe32 fp
  if size.toNat ≠ mapsize then none
  else if highbit = 0 then some (∅, fp)
  else if highbit.toNat % mapsize ≠ 0 ∨ count = 0 then none
  else
    let (bits, last, fp) ← ebitmapReadNodes highbit.toNat count.toNat none fp
    if last.map (· + mapsize) ≠ some highbit.toNat then none
    else some (Ebitmap.ofList bits, fp)

def typeSetRead (fp : PolicyFile) : Option (TypeSet × PolicyFile) := do
  let (types, fp) ← ebitmapRead fp
  let (negset, fp) ← ebitmapRead fp
  let (flags, fp) ← nextLe32 fp
  some ({ types, negset, flags }, fp)

def policydbVersionConstraintNames : Nat := 29

/-- The operands of an entry: only a comparison with names has some in the file. -/
def readConsNames (p : Policydb) (allowxtarget : Bool) (exprType : Nat) (attr : BitVec 32)
    (fp : PolicyFile) : Option (Ebitmap × TypeSet × PolicyFile) :=
  if exprType = cexprNames then
    if !allowxtarget ∧ attr &&& cexprXtarget ≠ 0 then none
    else do
      let (names, fp) ← ebitmapRead fp
      if p.policyType ≠ .kern ∨ policydbVersionConstraintNames ≤ p.policyvers then
        let (typeNames, fp) ← typeSetRead fp
        some (names, typeNames, fp)
      else some (names, {}, fp)
  else some (∅, {}, fp)

/-- The number of values on the evaluator's stack behind an entry, if there is one. -/
def readConsDepth (exprType depth : Nat) : Option Nat :=
  if exprType = cexprNot then if depth < 1 then none else some depth
  else if exprType = cexprAnd ∨ exprType = cexprOr then
    if depth < 2 then none else some (depth - 1)
  else if exprType = cexprAttr ∨ exprType = cexprNames then
    if depth = cexprMaxdepth then none else some (depth + 1)
  else none

/-- The inner loop of `read_cons_helper`. -/
def readConsExprs (p : Policydb) (allowxtarget : Bool) :
    Nat → Nat → PolicyFile → Option (List ConstraintExpr × PolicyFile)
  | 0, depth, fp => if depth ≠ 1 then none else some ([], fp)
  | n + 1, depth, fp => do
    let (exprType, fp) ← nextLe32 fp
    let (attr, fp) ← nextLe32 fp
    let (op, fp) ← nextLe32 fp
    let depth ← readConsDepth exprType.toNat depth
    let (names, typeNames, fp) ← readConsNames p allowxtarget exprType.toNat attr fp
    let (expr, fp) ← readConsExprs p allowxtarget n depth fp
    some ({ exprType := exprType.toNat, attr, op := op.toNat, names, typeNames } :: expr, fp)

def readConsHelper (p : Policydb) (allowxtarget : Bool) :
    Nat → PolicyFile → Option (List ConstraintNode × PolicyFile)
  | 0, fp => some ([], fp)
  | n + 1, fp => do
    let (permissions, fp) ← nextLe32 fp
    let (nexpr, fp) ← nextLe32 fp
    let (expr, fp) ← readConsExprs p allowxtarget nexpr.toNat 0 fp
    let (nodes, fp) ← readConsHelper p allowxtarget n fp
    some ({ permissions, expr } :: nodes, fp)

/-! ## Text -/

/-- `snprintf` into a buffer of 128 characters. -/
def tmpBuf (text : Name) : Name := text.take 127

def failMark (failed : Bool) : Name := if failed then " -Fail-) ".toList else ") ".toList

def msgcat (src tgt op : Name) (failed : Bool) : Name :=
  tmpBuf ("(".toList ++ src ++ " ".toList ++ op ++ " ".toList ++ tgt ++ failMark failed)

/-- `%s` for an entry of a table of names. -/
def nameText (valToName : List (Option Name)) (i : Nat) : Name :=
  (valToName.getD i none).getD "(null)".toList

section

variable (p : FullPolicydb) (scontext tcontext : Context) (op : Nat)

/-- `get_name_list`: from version 29 on the types are listed as they were written. -/
def getNameList (e : ConstraintExpr) (type : BitVec 32) (src op : Name) (failed : Bool) : Name :=
  let types :=
    if p.policyType = .kern ∧ policydbVersionConstraintNames ≤ p.policyvers ∧ type = cexprType then
      e.typeNames.types
    else e.names
  let valToName :=
    if type = cexprUser then p.users.valToName
    else if type = cexprRole then p.roleValToName
    else p.typeValToName
  let counter := types.bits.length
  tmpBuf ("(".toList ++ src ++ op) ++
    (if counter = 0 then "<empty_set> ".toList else []) ++
    (if 1 < counter then " \x7b".toList else []) ++
    (types.bits.flatMap fun i => tmpBuf (" ".toList ++ nameText valToName i)) ++
    (if 1 < counter then " \x7d".toList else []) ++ failMark failed

/-! ## Evaluation -/

/-- How the evaluator ends before the end of an expression: an entry it does not know, an
operator without operands, a full stack, a role that is not in the table, or an answer
taken from an empty stack. The last two read through a null pointer. -/
inductive EvalFault where
  | bug
  | einval
  | full
  | nullRole
  | nullEntry
  deriving DecidableEq

/-- The two levels that an attribute compares, and how they are written. -/
def cexprLevels (attr : BitVec 32) (scontext tcontext : Context) :
    Option (MlsLevel × MlsLevel × Name × Name) :=
  if attr = cexprL1L2 then some (scontext.range.low, tcontext.range.low, "l1".toList, "l2".toList)
  else if attr = cexprL1H2 then
    some (scontext.range.low, tcontext.range.high, "l1".toList, "h2".toList)
  else if attr = cexprH1L2 then
    some (scontext.range.high, tcontext.range.low, "h1".toList, "l2".toList)
  else if attr = cexprH1H2 then
    some (scontext.range.high, tcontext.range.high, "h1".toList, "h2".toList)
  else if attr = cexprL1H1 then
    some (scontext.range.low, scontext.range.high, "l1".toList, "h1".toList)
  else if attr = cexprL2H2 then
    some (tcontext.range.low, tcontext.range.high, "l2".toList, "h2".toList)
  else none

/-- The value of a comparison, with its text. -/
def cmpResult (src tgt op : Name) (value : Bool) : Except EvalFault (Bool × Name) :=
  .ok (value, msgcat src tgt op (!value))

/-- The label `mls_ops`. -/
def evalLevels (l1 l2 : MlsLevel) (src tgt : Name) : Except EvalFault (Bool × Name) :=
  if op = cexprEq then cmpResult src tgt "eq".toList (mlsLevelEq l1 l2)
  else if op = cexprNeq then cmpResult src tgt "!=".toList (!mlsLevelEq l1 l2)
  else if op = cexprDom then cmpResult src tgt "dom".toList (mlsLevelDom l1 l2)
  else if op = cexprDomby then cmpResult src tgt "domby".toList (mlsLevelDom l2 l1)
  else if op = cexprIncomp then cmpResult src tgt "incomp".toList (mlsLevelIncomp l2 l1)
  else .error .bug

/-- The comparison of two values at the end of `CEXPR_ATTR`. -/
def evalValues (val1 val2 : Nat) (src tgt : Name) : Except EvalFault (Bool × Name) :=
  if op = cexprEq then cmpResult src tgt "==".toList (val1 == val2)
  else if op = cexprNeq then cmpResult src tgt "!=".toList (val1 != val2)
  else .error .bug

/-- `ebitmap_get_bit(&r->dominates, val - 1)` for an entry of the role table. -/
def roleDominates (role val : Nat) : Except EvalFault Bool :=
  match p.roleStruct (role - 1) with
  | none => .error .nullRole
  | some r => .ok (ebitmapGetBit r.dominates (val - 1))

def evalRoles (val1 val2 : Nat) : Except EvalFault (Bool × Name) :=
  if op = cexprDom then do
    let value ← roleDominates p val1 val2
    cmpResult "r1".toList "r2".toList "dom".toList value
  else if op = cexprDomby then do
    let value ← roleDominates p val2 val1
    cmpResult "r1".toList "r2".toList "domby".toList value
  else if op = cexprIncomp then do
    let dom ← roleDominates p val1 val2
    -- the second operand of && is only evaluated if the first is true
    let domby ← if dom then .ok true else roleDominates p val2 val1
    cmpResult "r1".toList "r2".toList "incomp".toList (!dom && !domby)
  else evalValues op val1 val2 "r1".toList "r2".toList

/-- A `CEXPR_ATTR` entry. -/
def evalAttr (e : ConstraintExpr) : Except EvalFault (Bool × Name) :=
  if e.attr = cexprUser then evalValues e.op scontext.user tcontext.user "u1".toList "u2".toList
  else if e.attr = cexprType then
    evalValues e.op scontext.type tcontext.type "t1".toList "t2".toList
  else if e.attr = cexprRole then evalRoles p e.op scontext.role tcontext.role
  else
    match cexprLevels e.attr scontext tcontext with
    | some (l1, l2, src, tgt) => evalLevels e.op l1 l2 src tgt
    | none => .error .bug

/-- The context whose names a `CEXPR_NAMES` entry looks at, and its number. -/
def namesContext (xcontext : Option Context) (attr : BitVec 32) : Option Context × Name :=
  if attr &&& cexprTarget ≠ 0 then (some tcontext, "2".toList)
  else if attr &&& cexprXtarget ≠ 0 then (xcontext, "3".toList)
  else (some scontext, "1".toList)

/-- The attribute of the context, its kind and its letter. -/
def namesValue (c : Context) (attr : BitVec 32) : Option (Nat × BitVec 32 × Name) :=
  if attr &&& cexprUser ≠ 0 then some (c.user, cexprUser, "u".toList)
  else if attr &&& cexprRole ≠ 0 then some (c.role, cexprRole, "r".toList)
  else if attr &&& cexprType ≠ 0 then some (c.type, cexprType, "t".toList)
  else none

/-- A `CEXPR_NAMES` entry. -/
def evalNames (xcontext : Option Context) (e : ConstraintExpr) : Except EvalFault (Bool × Name) :=
  match namesContext scontext tcontext xcontext e.attr with
  | (none, _) => .error .bug
  | (some c, num) =>
    match namesValue c e.attr with
    | none => .error .bug
    | some (val1, type, letter) =>
      let src := letter ++ num ++ " ".toList
      let found := ebitmapGetBit e.names (val1 - 1)
      if e.op = cexprEq then .ok (found, getNameList p e type src "==".toList (!found))
      else if e.op = cexprNeq then .ok (!found, getNameList p e type src "!=".toList found)
      else .error .bug

end

section Eval

variable (p : FullPolicydb) (scontext tcontext : Context) (xcontext : Option Context)

def evalOperand (e : ConstraintExpr) : Except EvalFault (Bool × Name) :=
  if e.exprType = cexprAttr then evalAttr p scontext tcontext e
  else if e.exprType = cexprNames then evalNames p scontext tcontext xcontext e
  else .error .bug

/-- One round of the loop, on the stack `s[0..sp]` with its top first. -/
def constraintStep (s : List Bool) (e : ConstraintExpr) : Except EvalFault (List Bool) :=
  if e.exprType = cexprNot then
    match s with
    | x :: s => .ok ((!x) :: s)
    | [] => .error .einval
  else if e.exprType = cexprAnd then
    match s with
    | y :: x :: s => .ok ((x && y) :: s)
    | _ => .error .einval
  else if e.exprType = cexprOr then
    match s with
    | y :: x :: s => .ok ((x || y) :: s)
    | _ => .error .einval
  else if (e.exprType = cexprAttr ∨ e.exprType = cexprNames) ∧ s.length = cexprMaxdepth then
    .error .full
  else do
    let (value, _) ← evalOperand p scontext tcontext xcontext e
    return value :: s

/-- The text that the loop leaves for an entry in `expr_list`. -/
def exprText (e : ConstraintExpr) : Name :=
  if e.exprType = cexprNot then "not".toList
  else if e.exprType = cexprAnd then "and".toList
  else if e.exprType = cexprOr then "or".toList
  else
    match evalOperand p scontext tcontext xcontext e with
    | .ok (_, text) => text
    | .error _ => []

/-- One round of the conversion to infix notation, on the stack of answers. -/
def convertStep (stack : List Name) (text : Name) : Except EvalFault (List Name) :=
  if "and".toList.isPrefixOf text ∨ "or".toList.isPrefixOf text then
    match stack with
    | b :: a :: stack => .ok ((a ++ " ".toList ++ text ++ " ".toList ++ b) :: stack)
    | _ => .error .nullEntry
  else if "not".toList.isPrefixOf text then
    match stack with
    | b :: stack =>
      if "not".toList.isPrefixOf b then .ok ((text ++ " (".toList ++ b ++ ")".toList) :: stack)
      else .ok ((text ++ b) :: stack)
    | [] => .error .nullEntry
  else .ok (text :: stack)

/-- `constraint_expr_eval_reason`: the value `s[0]` and the text of the constraint. -/
def constraintExprEvalReason (expr : List ConstraintExpr) : Except EvalFault (Bool × Name) := do
  let s ← expr.foldlM (constraintStep p scontext tcontext xcontext) []
  let stack ← (expr.map (exprText p scontext tcontext xcontext)).foldlM convertStep []
  match stack with
  | a :: _ => return (s.getLast?.getD false, a)
  | [] => .error .nullEntry

end Eval

end SELinux.Sepol
