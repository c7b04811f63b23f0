import SELinux.Lib.Loop
import SELinux.Sepol.Conditional

/-! What a policy decides. For a Boolean state, a source type, a target type and
a class: the access vectors, the results of the type rules and the extended
permissions, each accumulated over the rules that are active in that state and
whose attribute pair covers the two types. This is the meaning the rule passes
are compared against; it is stated over lists of rules and does not search the
tables. -/
namespace SELinux.Sepol

/-! ## Active rules -/

/-- The rule list of a conditional that a Boolean state selects; an undefined
expression selects none. -/
def CondNode.activeList (c : CondNode) (state : Nat → Bool) : List Nat :=
  match condEvaluateExpr state c.expr with
  | some true => c.trueList
  | some false => c.falseList
  | none => []

/-- The addresses of the conditional rules that a state enables. -/
def activeAddrs (conds : List CondNode) (state : Nat → Bool) : List Nat :=
  conds.flatMap fun c => c.activeList state

/-- The rules in force: the unconditional ones, then the enabled conditional
ones, each in table order. -/
def Policydb.activeNodes (p : Policydb) (state : Nat → Bool) : List AvtabNode :=
  p.teAvtab.nodes ++
    p.teCondAvtab.nodes.filter fun n => decide (n.addr ∈ activeAddrs p.condList state)

/-- A type value in a rule key covers type `t`: it is `t` or one of its
attributes. -/
def Policydb.covers (p : Policydb) (value t : Nat) : Bool :=
  decide (0 < value) && ebitmapGetBit (p.typeAttrs t) (value - 1)

/-- The rule's attribute pair covers `(s, t)` and its class is `c`. -/
def AvtabNode.appliesTo (n : AvtabNode) (p : Policydb) (s t c : Nat) : Bool :=
  p.covers n.key.sourceType s && p.covers n.key.targetType t && n.key.targetClass == c

/-! ## Extended permissions -/

/-- The kinds of extended-permission rules. -/
inductive XpermsKind where
  | allowed
  | auditallow
  | dontaudit
  deriving DecidableEq

def XpermsKind.spec : XpermsKind → BitVec 16
  | .allowed => avtabXpermsAllowed
  | .auditallow => avtabXpermsAuditallow
  | .dontaudit => avtabXpermsDontaudit

/-- An extended-permission datum names the ioctl command `(driver, func)`: a
function datum names commands of its own driver one by one, a driver datum all
commands of the drivers in its bitmap. -/
def ExtendedPerms.grants (x : ExtendedPerms) (driver func : BitVec 8) : Bool :=
  (x.specified == xpermsIoctlfunction && x.driver == driver && xpermTest func x.perms) ||
  (x.specified == xpermsIoctldriver && xpermTest driver x.perms)

theorem ExtendedPerms.grants_function {x : ExtendedPerms} (h : x.specified = xpermsIoctlfunction)
    {driver func} : x.grants driver func = (x.driver == driver && xpermTest func x.perms) := by
  have : xpermsIoctlfunction ≠ xpermsIoctldriver := by decide
  simp [ExtendedPerms.grants, h, this]

theorem ExtendedPerms.grants_driver {x : ExtendedPerms} (h : x.specified = xpermsIoctldriver)
    {driver func} : x.grants driver func = xpermTest driver x.perms := by
  have : xpermsIoctldriver ≠ xpermsIoctlfunction := by decide
  simp [ExtendedPerms.grants, h, this]

/-! ## Decisions -/

structure Decision where
  allowed : BitVec 32
  auditallow : BitVec 32
  auditdeny : BitVec 32
  transition : Option (BitVec 32)
  change : Option (BitVec 32)
  member : Option (BitVec 32)
  xpermsApply : XpermsKind → Bool
  xpermsGrant : XpermsKind → BitVec 8 → BitVec 8 → Bool

/-- The rule is of one of the kinds in `spec`. -/
def AvtabNode.isKind (n : AvtabNode) (spec : BitVec 16) : Bool :=
  (n.key.specified &&& spec) != 0

def orData (l : List AvtabNode) : BitVec 32 := l.foldr (fun n v => n.datum.data ||| v) 0

def andData (l : List AvtabNode) : BitVec 32 :=
  l.foldr (fun n v => n.datum.data &&& v) (.allOnes 32)

/-- The result of the first type rule of a kind for exactly this source, target
and class. -/
def typeResult (nodes : List AvtabNode) (spec : BitVec 16) (s t c : Nat) : Option (BitVec 32) :=
  (nodes.find? fun n => n.isKind spec && n.key.sourceType == s + 1 &&
    n.key.targetType == t + 1 && n.key.targetClass == c).map fun n => n.datum.data

/-- The decision that a list of rules makes, with the attributes of `p`. -/
def decisionOf (p : Policydb) (nodes : List AvtabNode) (s t c : Nat) : Decision :=
  let ofKind (spec : BitVec 16) := nodes.filter fun n => n.appliesTo p s t c && n.isKind spec
  { allowed := orData (ofKind avtabAllowed)
    auditallow := orData (ofKind avtabAuditallow)
    auditdeny := andData (ofKind avtabAuditdeny)
    transition := typeResult nodes avtabTransition s t c
    change := typeResult nodes avtabChange s t c
    member := typeResult nodes avtabMember s t c
    xpermsApply := fun k => (ofKind k.spec).any fun _ => true
    xpermsGrant := fun k driver func =>
      (ofKind k.spec).any fun n => n.datum.xperms.grants driver func }

/-- What the policy decides for `(s, t, c)` when the Booleans are in `state`. -/
def Policydb.decision (p : Policydb) (state : Nat → Bool) (s t c : Nat) : Decision :=
  decisionOf p (p.activeNodes state) s t c

/-! ## Decisions from effects

The vectors and the extended permissions only depend on the set of effects of
the active rules, so a pass that keeps this set, and keeps the type rules in
order, keeps the decision. -/

/-- One thing a rule can contribute to a decision. An `auditdeny` rule clears
the bits it does not hold. -/
inductive Effect where
  | allowed (b : Nat)
  | auditallow (b : Nat)
  | auditdeny (b : Nat)
  | xpermsApply (k : XpermsKind)
  | xpermsGrant (k : XpermsKind) (driver func : BitVec 8)

/-- A datum has the effect, in a rule of the given kind. -/
def datumHas (specified : BitVec 16) (d : AvtabDatum) : Effect → Prop
  | .allowed b => specified &&& avtabAllowed ≠ 0 ∧ d.data.getLsbD b = true
  | .auditallow b => specified &&& avtabAuditallow ≠ 0 ∧ d.data.getLsbD b = true
  | .auditdeny b => specified &&& avtabAuditdeny ≠ 0 ∧ (b < 32 ∧ d.data.getLsbD b = false)
  | .xpermsApply k => specified &&& k.spec ≠ 0
  | .xpermsGrant k driver func => specified &&& k.spec ≠ 0 ∧ d.xperms.grants driver func = true

/-- What a rule contributes to the decision for `(s, t, c)`. -/
def effects (p : Policydb) (s t c : Nat) (n : AvtabNode) : Set Effect :=
  {e | n.appliesTo p s t c = true ∧ datumHas n.key.specified n.datum e}

theorem getLsbD_orData {l b} :
    (orData l).getLsbD b = true ↔ ∃ n ∈ l, n.datum.data.getLsbD b = true :=
  Lib.getLsbD_foldr_or (fun n : AvtabNode => n.datum.data) l b

theorem getLsbD_andData {l b} (hb : b < 32) :
    (andData l).getLsbD b = true ↔ ∀ n ∈ l, n.datum.data.getLsbD b = true := by
  induction l with
  | nil => simp only [andData, List.foldr_nil, BitVec.getLsbD_allOnes, hb]; simp
  | cons n l ih =>
    rw [andData, List.foldr_cons, BitVec.getLsbD_and, Bool.and_eq_true, ← andData, ih]
    simp

section DecisionOfEffects

variable {p : Policydb} {nodes : List AvtabNode} {s t c : Nat}

theorem decisionOf_allowed {b : Nat} : (decisionOf p nodes s t c).allowed.getLsbD b = true ↔
    Effect.allowed b ∈ Lib.pool (effects p s t c) nodes := by
  simp [decisionOf, getLsbD_orData, Lib.mem_pool, effects, datumHas,
    AvtabNode.isKind, and_assoc]

end DecisionOfEffects

/-- A type rule: transition, member or change. -/
def AvtabNode.isTypeRule (n : AvtabNode) : Bool := n.isKind avtabType

end SELinux.Sepol
