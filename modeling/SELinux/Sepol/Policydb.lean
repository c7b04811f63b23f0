import SELinux.Sepol.Ebitmap
import SELinux.Sepol.Avtab

/-! The policy database (`policydb.h`, `conditional.h`): the types and their
attribute maps, access vector rules as written, conditionals, and the two rule
tables. Symbol names, which only reach messages, are left out: a type, class,
Boolean or role is its value. -/
namespace SELinux.Sepol

/-! ## Types -/

/-- `TYPE_TYPE`, `TYPE_ATTRIB`, `TYPE_ALIAS`. -/
inductive TypeFlavor where
  | type
  | attrib
  | alias
  deriving DecidableEq

def typeFlagsExpandAttrTrue : BitVec 32 := 0x2

/-- `type_datum_t`. `types` is the set of types with this attribute; `bounds` is
the value of the bounding type, `0` if there is none. -/
structure TypeDatum where
  flavor : TypeFlavor := .type
  types : Ebitmap := ∅
  flags : BitVec 32 := 0
  bounds : Nat := 0
  deriving DecidableEq

def typeStar : BitVec 32 := 1
def typeComp : BitVec 32 := 2

/-- `type_set_t`: a type set as written, before expansion. -/
structure TypeSet where
  types : Ebitmap := ∅
  negset : Ebitmap := ∅
  flags : BitVec 32 := 0
  deriving DecidableEq

/-! ## Access vector rules as written -/

def avruleAllowed : BitVec 32 := 0x0001
def avruleAuditallow : BitVec 32 := 0x0002
def avruleAuditdeny : BitVec 32 := 0x0004
def avruleDontaudit : BitVec 32 := 0x0008
def avruleNeverallow : BitVec 32 := 0x0080
def avruleTransition : BitVec 32 := 0x0010
def avruleMember : BitVec 32 := 0x0020
def avruleChange : BitVec 32 := 0x0040
def avruleType : BitVec 32 := 0x0070
def avruleXpermsAllowed : BitVec 32 := 0x0100
def avruleXpermsAuditallow : BitVec 32 := 0x0200
def avruleXpermsDontaudit : BitVec 32 := 0x0400
def avruleXpermsNeverallow : BitVec 32 := 0x0800
def avruleXperms : BitVec 32 := 0x0f00

/-- The one value of `avrule_t.flags`: the rule also relates each source type
to itself. -/
def ruleSelf : BitVec 32 := 1

/-- `class_perm_node_t`: permissions of a class, or the new type of a type
rule. -/
structure ClassPermNode where
  tclass : Nat
  data : BitVec 32
  deriving DecidableEq

/-- `avrule_t`. `xperms` is set in extended-permission rules only. -/
structure Avrule where
  specified : BitVec 32
  flags : BitVec 32 := 0
  stypes : TypeSet := {}
  ttypes : TypeSet := {}
  perms : List ClassPermNode := []
  xperms : ExtendedPerms := {}
  deriving DecidableEq

/-! ## Conditionals -/

/-- `cond_expr_t`: one entry of an expression in reverse Polish notation. Only
a `COND_BOOL` entry has a Boolean; `invalid` is any other `expr_type`. -/
inductive CondExpr where
  | bool (value : Nat)
  | not
  | or
  | and
  | xor
  | eq
  | neq
  | invalid (exprType : Nat)
  deriving DecidableEq

def condNodeFlagsTunable : BitVec 32 := 1

/-- `cond_node_t`. A rule list is the list of the addresses of its nodes in
`te_cond_avtab`. Only the first `min(nbools, COND_MAX_BOOLS)` entries of the
array `bool_ids` are meaningful, and `boolIds` holds those. -/
structure CondNode where
  addr : Nat := 0
  curState : Int := 0
  expr : List CondExpr := []
  trueList : List Nat := []
  falseList : List Nat := []
  avtrueList : List Avrule := []
  avfalseList : List Avrule := []
  nbools : Nat := 0
  boolIds : List Nat := []
  exprPreComp : BitVec 32 := 0
  flags : BitVec 32 := 0
  deriving DecidableEq

/-! ## The database -/

/-- `policy_type`: `POLICY_KERN`, `POLICY_BASE`, `POLICY_MOD`. -/
inductive PolicyType where
  | kern
  | base
  | mod
  deriving DecidableEq

def policydbVersionAvtab : Nat := 20
def policydbVersionPermissive : Nat := 23

/-- The part of `policydb_t` that the rule passes read. Types are indexed from
`0`; a key or a Boolean reference holds the value, which is one more. `boolState`
is `bool_val_to_struct[value - 1]->state`. -/
structure Policydb where
  policyType : PolicyType := .kern
  policyvers : Nat := 33
  typeValToStruct : List (Option TypeDatum) := []
  typeAttrMap : List Ebitmap := []
  attrTypeMap : List Ebitmap := []
  teAvtab : Avtab := {}
  teCondAvtab : Avtab := {}
  condList : List CondNode := []
  boolState : Nat → Bool := fun _ => false

namespace Policydb

section

variable (p : Policydb) (i : Nat)

/-- `p_types.nprim`. -/
def nprim : Nat := p.typeValToStruct.length

/-- `type_val_to_struct[i]`. -/
def typeStruct : Option TypeDatum := p.typeValToStruct.getD i none

/-- `type_attr_map[i]`. -/
def typeAttrs : Ebitmap := p.typeAttrMap.getD i ∅

/-- `attr_type_map[i]`. -/
def attrTypes : Ebitmap := p.attrTypeMap.getD i ∅

def isAttrib : Bool :=
  match p.typeStruct i with
  | some d => d.flavor == .attrib
  | none => false

/-- Index `i` is that of a type, not of an attribute. -/
def isType : Bool :=
  match p.typeStruct i with
  | some d => d.flavor != .attrib
  | none => false

end

variable {p : Policydb}

theorem isAttrib_eq_false {i} (h : p.isType i = true) : p.isAttrib i = false := by
  unfold isType at h
  unfold isAttrib
  cases hd : p.typeStruct i with
  | none => rfl
  | some d => simpa [hd] using h

/-- The attributes of a type and the types of an attribute are the same
relation. The maps also hold every type as an attribute of itself. -/
structure MapsConverse (p : Policydb) : Prop where
  converse : ∀ t, p.isType t = true → ∀ a, t ∈ p.attrTypes a ↔ a ∈ p.typeAttrs t
  own : ∀ t, p.isType t = true → t ∈ p.typeAttrs t

theorem isType_lt {i : Nat} (h : p.isType i = true) : i < p.nprim := by
  by_contra hi
  simp [isType, typeStruct, List.getElem?_eq_none (Nat.le_of_not_lt hi)] at h

theorem mapsConverse_iff : p.MapsConverse ↔ ∀ t < p.nprim, p.isType t = true →
      (∀ a < p.attrTypeMap.length, t ∈ p.attrTypes a ↔ a ∈ p.typeAttrs t) ∧
      (∀ a ∈ (p.typeAttrs t).bits, a < p.attrTypeMap.length) ∧ t ∈ p.typeAttrs t := by
  constructor
  · intro h t _ ht
    refine ⟨fun a _ => h.converse t ht a, fun a ha => ?_, h.own t ht⟩
    have hta := (h.converse t ht a).mpr ha
    by_contra hlt
    simp [attrTypes, List.getElem?_eq_none (Nat.le_of_not_lt hlt)] at hta
  · intro h
    refine ⟨fun t ht a => ?_, fun t ht => (h t (isType_lt ht) ht).2.2⟩
    obtain ⟨hconv, hlt, -⟩ := h t (isType_lt ht) ht
    by_cases ha : a < p.attrTypeMap.length
    · exact hconv a ha
    · have : p.attrTypes a = ∅ := by
        simp [attrTypes, List.getElem?_eq_none (Nat.le_of_not_lt ha)]
      simp only [this, Ebitmap.not_mem_empty, false_iff]
      exact fun h => ha (hlt a h)

instance (p : Policydb) : Decidable p.MapsConverse := decidable_of_iff' _ mapsConverse_iff

end Policydb

end SELinux.Sepol
