import SELinux.Sepol.KeyEffects

/-!
# Access vector rules of CIL

How the compiler of CIL puts allow, auditallow and dontaudit rules into the rule table of a policy
(`cil_avrule_to_policydb` in `cil_binary.c`). An attribute in a rule is replaced by its types or
left as it is, and the permissions of the rule are collected through sets and map classes. -/

namespace SELinux.Cil

open Sepol (AccessVectors AvtabKey AvtabDatum AvtabNode Avtab Ebitmap keyType avtabAllowed
    avtabAuditallow
  avtabAuditdeny avtabSearch avtabInsert avtabModify)

/-! ## Rules -/

/-- A type, by its value in the CIL database, or an attribute. -/
inductive TypeName where
  | type (value : Nat)
  | attr (id : Nat)
  deriving DecidableEq

inductive AvruleKind where
  | allowed
  | auditallow
  | dontaudit
  deriving DecidableEq

/-- An item of a list of permissions: a class with permissions, permissions of a map class, each of
which is a list again, or a named set. No map class or set leads back to itself
(`__cil_verify_classperms`). -/
inductive ClassPerms where
  | cls (cls : Nat) (perms : List Nat)
  | map (perms : List (List ClassPerms))
  | set (classperms : List ClassPerms)

/-- `struct cil_avrule`; there is no target in a rule for `self`. -/
structure Avrule where
  kind : AvruleKind
  src : TypeName
  tgt : Option TypeName
  classperms : List ClassPerms

/-! ## The two databases -/

/-- The part of the CIL database that is read. -/
structure Db where
  /-- `attr->types`. -/
  attrTypes : Nat → Ebitmap
  /-- `attr->keep`. -/
  keep : Nat → Bool
  attrsExpandSize : Nat
  disableDontaudit : Bool

/-- A class of the policy: its value and the values of its own permissions and of those of its
common. -/
structure SepolClass where
  value : Nat
  permissions : Nat → Option Nat
  common : Option (Nat → Option Nat)

/-- The symbol tables of the policy. The value of a type or of a kept attribute is one more than its
place. -/
structure Tables where
  pTypes : List TypeName
  nodup : pTypes.Nodup
  pClasses : Nat → Option SepolClass

/-- `__cil_get_sepol_type_datum`. -/
def Tables.typeValue (p : Tables) (n : TypeName) : Option Nat := (p.pTypes.idxOf? n).map (· + 1)

/-! ## Permissions -/

def permStrToDatum (perm : Nat) (c : SepolClass) (datum : BitVec 32) : Option (BitVec 32) :=
  match c.permissions perm with
  | some value => some (datum ||| 1#32 <<< (value - 1))
  | none => do
    let common ← c.common
    let value ← common perm
    some (datum ||| 1#32 <<< (value - 1))

def permsToDatum (perms : List Nat) (c : SepolClass) : Option (BitVec 32) :=
  perms.foldlM (fun data perm => permStrToDatum perm c data) 0

/-! ## Insertion -/

def AvruleKind.specified : AvruleKind → BitVec 16
  | .allowed => avtabAllowed
  | .auditallow => avtabAuditallow
  | .dontaudit => avtabAuditdeny

/-- The fields of a key have 16 bits. -/
def ruleKey (kind : AvruleKind) (src tgt obj : Nat) : AvtabKey :=
  ⟨keyType src, keyType tgt, obj % 2 ^ 16, kind.specified⟩

/-- `__cil_insert_avrule`, outside of conditionals. -/
def insertAvrule (t : Avtab) (kind : AvruleKind) (src tgt obj : Nat) (data : BitVec 32) :
    Option Avtab :=
  let key := ruleKey kind src tgt obj
  match avtabSearch t key with
  | none => (avtabInsert t key { data := data }).toOption
  | some _ =>
    some (avtabModify t key fun dup =>
      { dup with data := if kind = .dontaudit then dup.data &&& data else dup.data ||| data })

/-- `__cil_avrule_expand_helper`. -/
def avruleExpandHelper (p : Tables) (kind : AvruleKind) (src tgt : TypeName) (cls : Nat)
    (perms : List Nat) (t : Avtab) : Option Avtab := do
  let sepolClass ← p.pClasses cls
  let data ← permsToDatum perms sepolClass
  if data = 0 then some t
  else
    let data := if kind = .dontaudit then ~~~data else data
    let src ← p.typeValue src
    let tgt ← p.typeValue tgt
    insertAvrule t kind src tgt sepolClass.value data

section Expand

variable (p : Tables) (kind : AvruleKind) (src tgt : TypeName)

mutual

/-- `__cil_avrule_expand`. -/
def avruleExpand : List ClassPerms → Avtab → Option Avtab
  | [], t => some t
  | item :: rest, t => (avruleExpandItem item t).bind (avruleExpand rest)

/-- The body of its loop. -/
def avruleExpandItem : ClassPerms → Avtab → Option Avtab
  | .cls cls perms, t => avruleExpandHelper p kind src tgt cls perms t
  | .map perms, t => avruleExpandMap perms t
  | .set classperms, t => avruleExpand classperms t

/-- The loop over the permissions of a map class. -/
def avruleExpandMap : List (List ClassPerms) → Avtab → Option Avtab
  | [], t => some t
  | classperms :: rest, t => (avruleExpand classperms t).bind (avruleExpandMap rest)

end

end Expand

/-! ## Attributes -/

/-- `__cil_should_expand_attribute`. -/
def Db.shouldExpandAttribute (db : Db) : TypeName → Bool
  | .type _ => false
  | .attr id => !db.keep id || decide ((db.attrTypes id).bits.length < db.attrsExpandSize)

/-- `__cil_expand_type`. -/
def Db.expandType (db : Db) : TypeName → List Nat
  | .type value => [value]
  | .attr id => (db.attrTypes id).bits

/-- What a name in a rule is replaced by. -/
def Db.ruleNames (db : Db) (n : TypeName) : List TypeName :=
  if db.shouldExpandAttribute n then (db.expandType n).map .type else [n]

/-- The pairs that a rule is inserted for, the sources in the outer loop. The four branches of
`__cil_avrule_to_avtab` differ in which of the two names are expanded. -/
def Db.rulePairs (db : Db) (r : Avrule) : List (TypeName × TypeName) :=
  match r.tgt with
  | none => (db.expandType r.src).map fun s => (.type s, .type s)
  | some tgt => (db.ruleNames r.src).flatMap fun s => (db.ruleNames tgt).map fun t => (s, t)

/-- `cil_avrule_to_policydb`. -/
def avruleToPolicydb (db : Db) (p : Tables) (t : Avtab) (r : Avrule) : Option Avtab :=
  if r.kind = .dontaudit ∧ db.disableDontaudit then some t
  else (db.rulePairs r).foldlM (fun t pair => avruleExpand p r.kind pair.1 pair.2 r.classperms t) t

/-- All rules of a database, one after another. -/
def avrulesToPolicydb (db : Db) (p : Tables) (rules : List Avrule) (t : Avtab) : Option Avtab :=
  rules.foldlM (avruleToPolicydb db p) t

/-! ## What rules mean -/

mutual

/-- The classes and permissions of a list, with sets and map classes resolved. -/
def leaves : List ClassPerms → List (Nat × List Nat)
  | [] => []
  | item :: rest => itemLeaves item ++ leaves rest

def itemLeaves : ClassPerms → List (Nat × List Nat)
  | .cls cls perms => [(cls, perms)]
  | .map perms => mapLeaves perms
  | .set classperms => leaves classperms

def mapLeaves : List (List ClassPerms) → List (Nat × List Nat)
  | [] => []
  | classperms :: rest => leaves classperms ++ mapLeaves rest

end

section

variable (db : Db) (p : Tables) (r : Avrule)

/-- What a class with permissions gives for the class with value `c`. -/
def leafPerms (c : Nat) (leaf : Nat × List Nat) : BitVec 32 :=
  match p.pClasses leaf.1 with
  | some cls => if cls.value = c then (permsToDatum leaf.2 cls).getD 0 else 0
  | none => 0

/-- The permissions that a rule names for the class with a given value. -/
def Avrule.perms (c : Nat) : BitVec 32 :=
  (leaves r.classperms).foldr (fun leaf v => leafPerms p c leaf ||| v) 0

/-- The source of the rule contains `s` and its target contains `t`. -/
def Avrule.covers (s t : Nat) : Bool :=
  decide (s ∈ db.expandType r.src) &&
    match r.tgt with
    | none => decide (t = s)
    | some tgt => decide (t ∈ db.expandType tgt)

/-- Dontaudit rules may be switched off. -/
def Db.uses : Bool := !(decide (r.kind = .dontaudit) && db.disableDontaudit)

/-- The permissions of the rules of one kind whose source contains `s` and whose target contains
`t`. -/
def Db.rulePerms (rules : List Avrule) (kind : AvruleKind) (s t c : Nat) : BitVec 32 :=
  (rules.filter fun r => decide (r.kind = kind) && db.uses r && r.covers db s t).foldr
    (fun r v => r.perms p c ||| v) 0

/-- What the rules say about a pair of types and a class. -/
def Db.ruleVectors (rules : List Avrule) (s t c : Nat) : AccessVectors where
  allowed := db.rulePerms p rules .allowed s t c
  auditallow := db.rulePerms p rules .auditallow s t c
  auditdeny := ~~~db.rulePerms p rules .dontaudit s t c

/-- The types that a value in a rule table stands for. -/
def Tables.stands (db : Db) (value s : Nat) : Bool :=
  match value with
  | 0 => false
  | i + 1 =>
    match p.pTypes[i]? with
    | some n => decide (s ∈ db.expandType n)
    | none => false

/-- The source and the target of an entry, read through attributes, contain `s` and `t`. -/
def Tables.reads (db : Db) (s t c : Nat) (n : AvtabNode) : Bool :=
  p.stands db n.key.sourceType s && p.stands db n.key.targetType t && n.key.targetClass == c

end

end SELinux.Cil
