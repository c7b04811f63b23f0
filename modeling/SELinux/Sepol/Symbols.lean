import SELinux.Sepol.Mls
import SELinux.Sepol.Policydb

/-! The symbol tables of the policy database (`policydb.h`): classes with their
constraints, roles, users, sensitivities and categories, and the role and range rules
that go with them. A hash table is the list of its entries; at most one entry has a
given key, so the order of a chain is not represented. -/
namespace SELinux.Sepol

/-! ## Roles -/

def objectRVal : Nat := 1

def roleStar : BitVec 32 := 1
def roleComp : BitVec 32 := 2

/-- `role_set_t`. -/
structure RoleSet where
  roles : Ebitmap := ∅
  flags : BitVec 32 := 0
  deriving DecidableEq

/-- `role_datum_t`. `cache` is the expanded set of types that contexts are checked
against. -/
structure RoleDatum where
  value : Nat := 0
  dominates : Ebitmap := ∅
  cache : Ebitmap := ∅

structure RoleTrans where
  role : Nat
  type : Nat
  tclass : Nat
  newRole : Nat
  deriving DecidableEq

structure RoleAllow where
  role : Nat
  newRole : Nat
  deriving DecidableEq

/-! ## Users -/

/-- `mls_semantic_level_t`: a sensitivity and its category ranges as written. -/
structure MlsSemanticLevel where
  sens : Nat := 0
  cat : List (Nat × Nat) := []
  deriving DecidableEq

structure MlsSemanticRange where
  low : MlsSemanticLevel := {}
  high : MlsSemanticLevel := {}
  deriving DecidableEq

/-- `user_datum_t`. `cache` is the expanded role set that contexts are checked
against; `expRange` and `expDfltlevel` are the expanded forms of `range` and
`dfltlevel`. The defaults are what `user_datum_init` leaves. -/
structure UserDatum where
  value : Nat := 0
  roles : RoleSet := {}
  range : MlsSemanticRange := {}
  dfltlevel : MlsSemanticLevel := {}
  cache : Ebitmap := ∅
  expRange : MlsRange := {}
  expDfltlevel : MlsLevel := {}
  bounds : Nat := 0
  deriving DecidableEq

/-- `p_users` with the two reverse tables. A datum is an address of `heap`: the table
and `user_val_to_struct` point to the same datum. A freed address holds `none`. -/
structure Users where
  table : List (Name × Nat) := []
  nprim : Nat := 0
  valToName : List (Option Name) := []
  valToStruct : List (Option Nat) := []
  heap : List (Option UserDatum) := []

/-- The datum behind a pointer, if it is allocated. -/
def Users.datumAt (u : Users) (addr : Nat) : Option UserDatum := u.heap.getD addr none

/-- `user_val_to_struct[i]`, dereferenced. -/
def Users.struct (u : Users) (i : Nat) : Option UserDatum :=
  (u.valToStruct.getD i none).bind u.datumAt

/-! ## Constraints and classes -/

/-- `constraint_expr_t`: one entry of a postfix sequence, with the raw numbers of the
policy file. -/
structure ConstraintExpr where
  exprType : Nat
  attr : BitVec 32 := 0
  op : Nat := 0
  names : Ebitmap := ∅
  typeNames : TypeSet := {}
  deriving DecidableEq

structure ConstraintNode where
  permissions : BitVec 32 := 0
  expr : List ConstraintExpr := []
  deriving DecidableEq

/-- A permission table: names and values. -/
abbrev PermTable := List (Name × Nat)

/-- `class_datum_t`. `comdatum` is the permission table of the inherited common,
`permsNprim` is `permissions.nprim`. The defaults for new objects are the raw numbers of
the policy file. -/
structure ClassDatum where
  value : Nat := 0
  comdatum : Option PermTable := none
  permissions : PermTable := []
  permsNprim : Nat := 0
  constraints : List ConstraintNode := []
  validatetrans : List ConstraintNode := []
  defaultUser : Nat := 0
  defaultRole : Nat := 0
  defaultType : Nat := 0
  defaultRange : Nat := 0

/-! ## Sensitivities, categories and range transitions -/

/-- `p_levels` and `p_cats`. -/
structure MlsDb extends MlsSymbols where
  sensValToName : List (Option Name) := []
  catValToName : List (Option Name) := []

/-- `p_levels.nprim`. -/
def MlsDb.levelsNprim (m : MlsDb) : Nat := m.sensValToName.length

/-- `p_cats.nprim`. -/
def MlsDb.catsNprim (m : MlsDb) : Nat := m.catValToName.length

/-- `range_trans_t`: the key of a range transition. -/
structure RangeTrans where
  sourceType : Nat
  targetType : Nat
  targetClass : Nat
  deriving DecidableEq

/-! ## The database -/

/-- `policydb_t` with the tables that the security server and the record functions
read. -/
structure FullPolicydb extends Policydb where
  mls : Bool := false
  mlsDb : MlsDb := {}
  typeTable : List (Name × Nat) := []
  typeValToName : List (Option Name) := []
  roleTable : List (Name × RoleDatum) := []
  roleValToName : List (Option Name) := []
  roleValToStruct : List (Option RoleDatum) := []
  users : Users := {}
  boolValToName : List (Option Name) := []
  classTable : List (Name × ClassDatum) := []
  classValToName : List (Option Name) := []
  classValToStruct : List (Option ClassDatum) := []
  processClass : Nat := 0
  processTransDyntrans : BitVec 32 := 0
  roleTr : List RoleTrans := []
  roleAllow : List RoleAllow := []
  rangeTr : List (RangeTrans × MlsRange) := []

namespace FullPolicydb

/-- `role_val_to_struct[i]`. -/
def roleStruct (p : FullPolicydb) (i : Nat) : Option RoleDatum := p.roleValToStruct.getD i none

/-- `class_val_to_struct[i]`. -/
def classStruct (p : FullPolicydb) (i : Nat) : Option ClassDatum := p.classValToStruct.getD i none

/-- `p_classes.nprim`. -/
def classesNprim (p : FullPolicydb) : Nat := p.classValToStruct.length

/-- `p_roles.nprim`. -/
def rolesNprim (p : FullPolicydb) : Nat := p.roleValToStruct.length

end FullPolicydb

end SELinux.Sepol
