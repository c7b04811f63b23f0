import SELinux.Sepol.ConditionalState
import SELinux.Sepol.Constraint

/-! Access decisions of the security server (`context_struct_compute_av` in `services.c`):
the rules of the two tables, the constraints, the role check for process transitions, and
the bounds of the source type, for which the function calls itself. A number of calls is
given along, and `running` says that it was not enough. The reason buffer and the sequence
number are left out. -/
namespace SELinux.Sepol

/-- `struct sepol_av_decision`, with the values it is initialised to. -/
structure AvDecision where
  allowed : BitVec 32 := 0
  decided : BitVec 32 := .allOnes 32
  auditallow : BitVec 32 := 0
  auditdeny : BitVec 32 := .allOnes 32
  deriving DecidableEq

/-- How a call ends without a decision: `-EINVAL`, a read through a null pointer, or not
within the given number of calls. -/
inductive ComputeFault where
  | einval
  | null
  | running
  deriving DecidableEq

/-! ## Rules -/

section

variable (p : FullPolicydb) (scontext tcontext : Context) (tclass : Nat)
  (avd : AvDecision) (n : AvtabNode)

/-- The loop body over the nodes of `te_avtab`. -/
def teComputeAv : AvDecision :=
  if n.key.specified = avtabAllowed then { avd with allowed := avd.allowed ||| n.datum.data }
  else if n.key.specified = avtabAuditallow then
    { avd with auditallow := avd.auditallow ||| n.datum.data }
  else if n.key.specified = avtabAuditdeny then
    { avd with auditdeny := avd.auditdeny &&& n.datum.data }
  else avd

/-- The rule is of a kind, and enabled. -/
def AvtabNode.isEnabled (spec : BitVec 16) : Bool :=
  n.key.specified &&& (spec ||| avtabEnabled) == (spec ||| avtabEnabled)

/-- The loop body of `cond_compute_av`. -/
def condComputeAv : AvDecision :=
  let data := n.datum.data
  { avd with
    allowed := if n.isEnabled avtabAllowed then avd.allowed ||| data else avd.allowed
    auditdeny := if n.isEnabled avtabAuditdeny then avd.auditdeny &&& data else avd.auditdeny
    auditallow := if n.isEnabled avtabAuditallow then avd.auditallow ||| data else avd.auditallow }

/-- The rules for one pair of attributes. -/
def pairComputeAv (tclass i j : Nat) (avd : AvDecision) : AvDecision :=
  let avkey := ⟨keyType (i + 1), keyType (j + 1), tclass, avtabAv⟩
  let avd := (avtabSearchNodes p.teAvtab avkey).foldl teComputeAv avd
  (avtabSearchNodes p.teCondAvtab avkey).foldl condComputeAv avd

def rulesComputeAv : AvDecision :=
  (p.typeAttrs (scontext.type - 1)).bits.foldl (fun avd i =>
    (p.typeAttrs (tcontext.type - 1)).bits.foldl (fun avd j => pairComputeAv p tclass i j avd) avd)
    {}

/-! ## Constraints and roles -/

/-- `!constraint_expr_eval_reason(…)`: `-EINVAL` is not zero, the other errors return
`0`. -/
def evalDenies : Except EvalFault (Bool × Name) → Except ComputeFault Bool
  | .ok (value, _) => .ok (!value)
  | .error .einval => .ok false
  | .error .bug | .error .full => .ok true
  | .error .nullRole | .error .nullEntry => .error .null

/-- A constraint is only evaluated if it names a permission that is allowed. -/
def constraintDenies (allowed : BitVec 32)
    (constraint : ConstraintNode) : Except ComputeFault Bool :=
  if constraint.permissions &&& allowed ≠ 0 then
    evalDenies (constraintExprEvalReason p scontext tcontext none constraint.expr)
  else .ok false

/-- The loop over the constraints of the class. -/
def removeConstrained : List ConstraintNode → BitVec 32 → Except ComputeFault (BitVec 32)
  | [], allowed => .ok allowed
  | constraint :: next, allowed => do
    let denied ← constraintDenies p scontext tcontext allowed constraint
    removeConstrained next
      (if denied then allowed &&& ~~~constraint.permissions else allowed)

def roleAllowed : Bool :=
  p.roleAllow.any fun ra => scontext.role == ra.role && tcontext.role == ra.newRole

/-- The role check for process transitions. -/
def removeTransition (allowed : BitVec 32) : BitVec 32 :=
  if tclass = p.processClass ∧ allowed &&& p.processTransDyntrans ≠ 0 ∧
      scontext.role ≠ tcontext.role ∧ !roleAllowed p scontext tcontext then
    allowed &&& ~~~p.processTransDyntrans
  else allowed

/-! ## The function and its recursion -/

def sepolComputeavTe : BitVec 32 := 1
def sepolComputeavCons : BitVec 32 := 2
def sepolComputeavRbac : BitVec 32 := 4
def sepolComputeavBounds : BitVec 32 := 8

/-- What is still requested, and the reasons why the rest is not granted. -/
structure Request where
  requested : BitVec 32
  reason : BitVec 32 := 0

def Request.note (r : Request) (allowed bit : BitVec 32) : Request :=
  if r.requested &&& ~~~allowed ≠ 0 then
    { requested := r.requested &&& allowed, reason := r.reason ||| bit }
  else r

/-- `context_struct_compute_av` up to the call of `type_attribute_bounds_av`. -/
def computeOwn (requested : BitVec 32) : Except ComputeFault (AvDecision × Request) :=
  if tclass = 0 ∨ p.classesNprim < tclass then .error .einval
  else
    match p.classStruct (tclass - 1) with
    | none => .error .null
    | some tclassDatum => do
      let avd := rulesComputeAv p scontext tcontext tclass
      let r := Request.note { requested } avd.allowed sepolComputeavTe
      let allowed ← removeConstrained p scontext tcontext tclassDatum.constraints avd.allowed
      let r := r.note allowed sepolComputeavCons
      let allowed := removeTransition p scontext tcontext tclass allowed
      let r := r.note allowed sepolComputeavRbac
      return ({ avd with allowed := allowed }, r)

/-- The contexts that bound a pair, if the source type is bounded. -/
def boundingPair : Except ComputeFault (Option (Context × Context)) :=
  match p.typeStruct (scontext.type - 1) with
  | none => .error .null
  | some source =>
    if source.bounds = 0 then .ok none
    else
      match p.typeStruct (tcontext.type - 1) with
      | none => .error .null
      | some target =>
        .ok (some ({ scontext with type := source.bounds },
          if target.bounds ≠ 0 then { tcontext with type := target.bounds } else tcontext))

/-- The return value of the inner call is not looked at: after `-EINVAL` the decision is
still all zero. -/
def lowerAllowed : Except ComputeFault (AvDecision × BitVec 32) → Except ComputeFault (BitVec 32)
  | .ok (loAvd, _) => .ok loAvd.allowed
  | .error .einval => .ok 0
  | .error fault => .error fault

/-- `type_attribute_bounds_av` behind the inner call. -/
def maskAv (reason lower : BitVec 32) : AvDecision × BitVec 32 :=
  let masked := ~~~lower &&& avd.allowed
  if masked = 0 then (avd, reason)
  else ({ avd with allowed := avd.allowed &&& ~~~masked }, reason ||| sepolComputeavBounds)

/-- `context_struct_compute_av`, with the reason. -/
def contextStructComputeAv :
    Nat → Context → Context → Nat → BitVec 32 → Except ComputeFault (AvDecision × BitVec 32)
  | 0, _, _, _, _ => .error .running
  | calls + 1, scontext, tcontext, tclass, requested => do
    let (avd, r) ← computeOwn p scontext tcontext tclass requested
    match ← boundingPair p scontext tcontext with
    | none => return (avd, r.reason)
    | some (loScontext, loTcontext) =>
      let lower ← lowerAllowed
        (contextStructComputeAv calls loScontext loTcontext tclass r.requested)
      return maskAv avd r.reason lower

end

end SELinux.Sepol
