import SELinux.Sepol.Conditional
import SELinux.Sepol.Symbols

/-! Validation of a kernel policy (`policydb_validate.c`). Each check is a Boolean that is
`true` where the source returns `0`. A symbol is known by its value: the values in use of
a flavor are those up to `nprim` without the gaps. Parts of the policy that are not
represented (object contexts, file systems, file name transitions, permissive types,
scopes, commons, states of Booleans, the types and bounds of a role) are not walked. -/
namespace SELinux.Sepol

/-! ## Values -/

/-- `validate_t`. -/
structure Validate where
  nprim : Nat := 0
  gaps : Ebitmap := ∅

/-- `validate_t flavors[SYM_NUM]`. -/
structure Flavors where
  classes : Validate := {}
  roles : Validate := {}
  types : Validate := {}
  users : Validate := {}
  bools : Validate := {}
  levels : Validate := {}
  cats : Validate := {}

/-- `create_gap_ebitmap`: the values without a name. -/
def createGapEbitmap (valToName : List (Option Name)) (nprim : Nat) : Option Ebitmap :=
  (List.range nprim).foldlM
    (fun gaps i =>
      if (valToName.getD i none).isNone then (ebitmapSetBit gaps i true).toOption else some gaps)
    ∅

def validateInit (valToName : List (Option Name)) (nprim : Nat) : Option Validate :=
  (createGapEbitmap valToName nprim).map fun gaps => { nprim := nprim, gaps := gaps }

section

variable (p : FullPolicydb) (nperms : Nat) (e : ConstraintExpr) (flavors : Flavors)

/-- In policies of these versions attributes exist in `type_attr_map` only, so gaps among
the types are not errors. -/
def typeGapsUnknown : Bool :=
  decide (policydbVersionAvtab ≤ p.policyvers) && decide (p.policyvers ≤ policydbVersionPermissive)

def validateTypesInit : Option Validate :=
  if typeGapsUnknown p then some { nprim := p.nprim } else validateInit p.typeValToName p.nprim

def validateArrayInit : Option Flavors := do
  let classes ← validateInit p.classValToName p.classesNprim
  let roles ← validateInit p.roleValToName p.rolesNprim
  let types ← validateTypesInit p
  let users ← validateInit p.users.valToName p.users.nprim
  let bools ← validateInit p.boolValToName p.boolValToName.length
  let levels ← validateInit p.mlsDb.sensValToName p.mlsDb.levelsNprim
  let cats ← validateInit p.mlsDb.catValToName p.mlsDb.catsNprim
  some { classes, roles, types, users, bools, levels, cats }

def validateValue (value : Nat) (flavor : Validate) : Bool :=
  decide (0 < value) && decide (value ≤ flavor.nprim) && !ebitmapGetBit flavor.gaps (value - 1)

def validateEbitmap (map : Ebitmap) (flavor : Validate) : Bool :=
  map.bits.all (fun b => decide (b < flavor.nprim)) && !ebitmapMatchAny map flavor.gaps

def validateTypeSet (set : TypeSet) (type : Validate) : Bool :=
  validateEbitmap set.types type && validateEbitmap set.negset type &&
    (set.flags == 0 || set.flags == typeStar || set.flags == typeComp)

def validateEmptyTypeSet (set : TypeSet) : Bool :=
  ebitmapIsEmpty set.types && ebitmapIsEmpty set.negset && set.flags == 0

def validateRoleSet (set : RoleSet) (role : Validate) : Bool :=
  validateEbitmap set.roles role &&
    (set.flags == 0 || set.flags == roleStar || set.flags == roleComp)

/-! ## Constraints -/

def permSymtabSize : Nat := 32

def cexprNot : Nat := 1
def cexprAnd : Nat := 2
def cexprOr : Nat := 3
def cexprAttr : Nat := 4
def cexprNames : Nat := 5

def cexprUser : BitVec 32 := 1
def cexprRole : BitVec 32 := 2
def cexprType : BitVec 32 := 4
def cexprTarget : BitVec 32 := 8
def cexprXtarget : BitVec 32 := 16
def cexprL1L2 : BitVec 32 := 32
def cexprL1H2 : BitVec 32 := 64
def cexprH1L2 : BitVec 32 := 128
def cexprH1H2 : BitVec 32 := 256
def cexprL1H1 : BitVec 32 := 512
def cexprL2H2 : BitVec 32 := 1024

def cexprEq : Nat := 1
def cexprNeq : Nat := 2
def cexprDom : Nat := 3
def cexprDomby : Nat := 4
def cexprIncomp : Nat := 5

/-- A comparison with a set of names. -/
def validateNames : Bool :=
  !(e.attr &&& cexprXtarget != 0 && nperms != 0) &&
  (e.attr &&& cexprType != 0 || validateEmptyTypeSet e.typeNames) &&
  (e.op == cexprEq || e.op == cexprNeq) &&
  (if e.attr ∈ [cexprUser, cexprUser ||| cexprTarget, cexprUser ||| cexprXtarget] then
    validateEbitmap e.names flavors.users
  else if e.attr ∈ [cexprRole, cexprRole ||| cexprTarget, cexprRole ||| cexprXtarget] then
    validateEbitmap e.names flavors.roles
  else if e.attr ∈ [cexprType, cexprType ||| cexprTarget, cexprType ||| cexprXtarget] then
    validateEbitmap e.names flavors.types && validateTypeSet e.typeNames flavors.types
  else false)

/-- The attributes that two contexts can be compared by. -/
def cexprAttrs : List (BitVec 32) :=
  [cexprUser, cexprRole, cexprType, cexprL1L2, cexprL1H2, cexprH1L2, cexprH1H2, cexprL1H1,
    cexprL2H2]

/-- A comparison of an attribute of two contexts. -/
def validateAttr : Bool :=
  ebitmapIsEmpty e.names && validateEmptyTypeSet e.typeNames &&
  (if e.op = cexprEq ∨ e.op = cexprNeq then true
  else if e.op = cexprDom ∨ e.op = cexprDomby ∨ e.op = cexprIncomp then
    !(e.attr &&& cexprUser != 0 || e.attr &&& cexprType != 0)
  else false) &&
  decide (e.attr ∈ cexprAttrs)

def validateOperator : Bool :=
  (e.exprType == cexprNot || e.exprType == cexprAnd || e.exprType == cexprOr) &&
  e.op == 0 && e.attr == 0 && ebitmapIsEmpty e.names && validateEmptyTypeSet e.typeNames

def validateConstraintExpr : Bool :=
  if e.exprType = cexprNames then validateNames nperms e flavors
  else if e.exprType = cexprAttr then validateAttr e
  else validateOperator e

def validateConstraintNodes (cons : List ConstraintNode) (flavors : Flavors) : Bool :=
  cons.all fun c =>
    !(nperms == 0 && c.permissions != 0) &&
    !(decide (0 < nperms) && c.permissions == 0) &&
    !(decide (0 < nperms) && nperms != permSymtabSize &&
      decide (2 ^ nperms ≤ c.permissions.toNat)) &&
    !c.expr.isEmpty && c.expr.all fun e => validateConstraintExpr nperms e flavors

/-! ## Symbols -/

def defaultSource : Nat := 1
def defaultTarget : Nat := 2

def validateClassDatum (c : ClassDatum) (flavors : Flavors) : Bool :=
  validateValue c.value flavors.classes && decide (c.permsNprim ≤ permSymtabSize) &&
  validateConstraintNodes c.permsNprim c.constraints flavors &&
  validateConstraintNodes 0 c.validatetrans flavors &&
  decide (c.defaultUser ∈ [0, defaultSource, defaultTarget]) &&
  decide (c.defaultRole ∈ [0, defaultSource, defaultTarget]) &&
  decide (c.defaultType ∈ [0, defaultSource, defaultTarget]) &&
  decide (c.defaultRange ≤ 7)

def validateRoleDatum (r : RoleDatum) (flavors : Flavors) : Bool :=
  validateValue r.value flavors.roles && validateEbitmap r.dominates flavors.roles

/-- `validate_simpletype`: the value of a type that is not an attribute. -/
def validateSimpletype (value : Nat) (p : FullPolicydb) (flavors : Flavors) : Bool :=
  validateValue value flavors.types && p.isType (value - 1)

def typeFlagsPermissive : BitVec 32 := 0x1
def typeFlagsExpandAttrFalse : BitVec 32 := 0x4
def typeFlagsExpandAttr : BitVec 32 := 0x6

/-- `validate_type_datum`, of the type with index `i`. -/
def validateTypeDatum (i : Nat) (t : TypeDatum) (p : FullPolicydb) (flavors : Flavors) : Bool :=
  validateValue (i + 1) flavors.types &&
  (match t.flavor with
  | .type | .alias =>
    ebitmapIsEmpty t.types && (t.bounds == 0 || validateSimpletype t.bounds p flavors)
  | .attrib => validateEbitmap t.types flavors.types && t.bounds == 0) &&
  decide (t.flags ∈ [0, typeFlagsPermissive, typeFlagsExpandAttrTrue, typeFlagsExpandAttrFalse,
    typeFlagsExpandAttr])

def validateMlsSemanticLevel (l : MlsSemanticLevel) (flavors : Flavors) : Bool :=
  l.sens == 0 || (validateValue l.sens flavors.levels &&
    l.cat.all fun c => validateValue c.1 flavors.cats && validateValue c.2 flavors.cats)

def validateMlsLevel (l : MlsLevel) (flavors : Flavors) : Bool :=
  validateValue l.sens flavors.levels && validateEbitmap l.cat flavors.cats

def validateMlsRange (r : MlsRange) (flavors : Flavors) : Bool :=
  validateMlsLevel r.low flavors && validateMlsLevel r.high flavors

def validateUserDatum (u : UserDatum) (p : FullPolicydb) (flavors : Flavors) : Bool :=
  validateValue u.value flavors.users && validateRoleSet u.roles flavors.roles &&
  validateMlsSemanticLevel u.range.low flavors && validateMlsSemanticLevel u.range.high flavors &&
  validateMlsSemanticLevel u.dfltlevel flavors &&
  (!p.mls || (validateMlsRange u.expRange flavors && validateMlsLevel u.expDfltlevel flavors)) &&
  (u.bounds == 0 || validateValue u.bounds flavors.users)

/-- One loop of `validate_datum_array_gaps`: an entry is null exactly where there is a
gap. -/
def validateGaps {α : Type*} (valToStruct : List (Option α)) (flavor : Validate) : Bool :=
  (List.range flavor.nprim).all fun i =>
    (valToStruct.getD i none).isNone == ebitmapGetBit flavor.gaps i

def validateDatumArrayGaps : Bool :=
  validateGaps p.classValToStruct flavors.classes && validateGaps p.roleValToStruct flavors.roles &&
  (typeGapsUnknown p || validateGaps p.typeValToStruct flavors.types) &&
  validateGaps p.users.valToStruct flavors.users

/-- `validate_datum_array_entries`: the datums behind the symbol tables. -/
def validateDatumArrayEntries : Bool :=
  (p.classTable.all fun c => validateClassDatum c.2 flavors) &&
  (p.roleTable.all fun r => validateRoleDatum r.2 flavors) &&
  (p.typeValToStruct.zipIdx.all fun t =>
    t.1.all fun d => validateTypeDatum t.2 d p flavors) &&
  (p.users.table.all fun u => (p.users.datumAt u.2).all fun d => validateUserDatum d p flavors) &&
  (!p.mls || p.mlsDb.levels.all fun l => validateMlsLevel l.2 flavors)

/-! ## Rules -/

def validateAvtabKey (k : AvtabKey) (conditional : Bool) (p : FullPolicydb) (flavors : Flavors) :
    Bool :=
  (if p.policyType = .kern ∧ k.specified &&& avtabType ≠ 0 then
    validateSimpletype k.sourceType p flavors && validateSimpletype k.targetType p flavors
  else validateValue k.sourceType flavors.types && validateValue k.targetType flavors.types) &&
  validateValue k.targetClass flavors.classes &&
  (if 0xFFF &&& k.specified ∈
      [avtabAllowed, avtabAuditallow, avtabAuditdeny, avtabTransition, avtabMember,
        avtabChange] then
    true
  else if 0xFFF &&& k.specified ∈
    [avtabXpermsAllowed, avtabXpermsAuditallow, avtabXpermsDontaudit] then
    !conditional
  else false)

def validateXperms (x : ExtendedPerms) : Bool :=
  x.specified == xpermsIoctldriver || x.specified == xpermsIoctlfunction

def validateAvtabKeyAndDatum (k : AvtabKey) (d : AvtabDatum) (p : FullPolicydb)
    (flavors : Flavors) : Bool :=
  validateAvtabKey k false p flavors &&
  (k.specified &&& avtabType == 0 || validateSimpletype d.data.toNat p flavors) &&
  (k.specified &&& avtabXperms == 0 || validateXperms d.xperms)

/-- `validate_avtab`: `avtab_map` stops at the first node that is refused. -/
def validateAvtab (t : Avtab) (p : FullPolicydb) (flavors : Flavors) : Bool :=
  t.nodes.all fun n => validateAvtabKeyAndDatum n.key n.datum p flavors

/-- The rest of a chain from the node at an address on. -/
def Avtab.chainFrom (t : Avtab) (addr : Nat) : List AvtabNode :=
  (t.htable.map fun c => c.dropWhile fun n => n.addr != addr).flatten

/-- `validate_cond_av_list`: from each rule on the list on, the keys of its chain. -/
def validateCondAvList (list : List Nat) (p : FullPolicydb) (flavors : Flavors) : Bool :=
  list.all fun a => (p.teCondAvtab.chainFrom a).all fun n => validateAvtabKey n.key true p flavors

/-- The kinds of rules as written that may stand in a conditional. -/
def condAvruleKinds : List (BitVec 32) :=
  [avruleAllowed, avruleAuditallow, avruleAuditdeny, avruleDontaudit, avruleTransition,
    avruleMember,
    avruleChange]

def validateAvrules (rules : List Avrule) (conditional : Bool) (p : FullPolicydb)
    (flavors : Flavors) : Bool :=
  rules.all fun r =>
    validateTypeSet r.stypes flavors.types && validateTypeSet r.ttypes flavors.types &&
    (if r.specified ∈ condAvruleKinds then true
    else if r.specified ∈ [avruleNeverallow, avruleXpermsAllowed, avruleXpermsAuditallow,
        avruleXpermsDontaudit, avruleXpermsNeverallow] then !conditional
    else false) &&
    (r.perms.all fun c => validateValue c.tclass flavors.classes &&
      (r.specified &&& avruleType == 0 || validateSimpletype c.data.toNat p flavors)) &&
    (r.specified &&& avruleXperms == 0 || validateXperms r.xperms) &&
    (r.flags == 0 || r.flags == ruleSelf)

def validateBoolIdArray (boolIds : List Nat) (nbools : Nat) (boolean : Validate) : Bool :=
  decide (nbools < condMaxBools) && (boolIds.take nbools).all fun b => validateValue b boolean

/-- The loop of `validate_cond_expr`, on the number of values on the stack. -/
def validateCondDepth (boolean : Validate) : Nat → List CondExpr → Option Nat
  | depth, [] => some depth
  | depth, .bool b :: expr =>
    if validateValue b boolean ∧ depth ≠ condExprMaxdepth then
      validateCondDepth boolean (depth + 1) expr
    else none
  | depth, .not :: expr => if depth < 1 then none else validateCondDepth boolean depth expr
  | depth, .or :: expr | depth, .and :: expr | depth, .xor :: expr | depth, .eq :: expr
  | depth, .neq :: expr => if depth < 2 then none else validateCondDepth boolean (depth - 1) expr
  | _, .invalid _ :: _ => none

def validateCondExpr (expr : List CondExpr) (boolean : Validate) : Bool :=
  validateCondDepth boolean 0 expr == some 1

def validateCondList (conds : List CondNode) (p : FullPolicydb) (flavors : Flavors) : Bool :=
  conds.all fun c =>
    validateCondExpr c.expr flavors.bools &&
    validateCondAvList c.trueList p flavors && validateCondAvList c.falseList p flavors &&
    validateAvrules c.avtrueList true p flavors && validateAvrules c.avfalseList true p flavors &&
    validateBoolIdArray c.boolIds c.nbools flavors.bools &&
    (c.curState == 0 || c.curState == 1) &&
    (c.flags == 0 || c.flags == condNodeFlagsTunable)

def validateRoleTranses (l : List RoleTrans) (flavors : Flavors) : Bool :=
  l.all fun r => validateValue r.role flavors.roles && validateValue r.type flavors.types &&
    validateValue r.tclass flavors.classes && validateValue r.newRole flavors.roles

def validateRoleAllows (l : List RoleAllow) (flavors : Flavors) : Bool :=
  l.all fun r => validateValue r.role flavors.roles && validateValue r.newRole flavors.roles

def validateRangeTransitions : Bool :=
  p.rangeTr.all fun r => validateValue r.1.sourceType flavors.types &&
    validateValue r.1.targetType flavors.types && validateValue r.1.targetClass flavors.classes &&
    validateMlsRange r.2 flavors

def validateTypeattrMap : Bool :=
  (List.range p.nprim).all fun i => validateEbitmap (p.typeAttrs i) flavors.types

def policydbVersionMin : Nat := 15
def policydbVersionMax : Nat := 33
def policydbVersionBool : Nat := 16

/-- `policydb_validate` of a kernel policy. -/
def policydbValidate : Bool :=
  match validateArrayInit p with
  | none => false
  | some flavors =>
    decide (policydbVersionMin ≤ p.policyvers) && decide (p.policyvers ≤ policydbVersionMax) &&
    validateAvtab p.teAvtab p flavors &&
    (decide (p.policyvers < policydbVersionBool) || validateCondList p.condList p flavors) &&
    validateRoleTranses p.roleTr flavors && validateRoleAllows p.roleAllow flavors &&
    validateDatumArrayGaps p flavors && validateDatumArrayEntries p flavors &&
    validateRangeTransitions p flavors &&
    (decide (p.policyvers < policydbVersionAvtab) || validateTypeattrMap p flavors)

end

end SELinux.Sepol
