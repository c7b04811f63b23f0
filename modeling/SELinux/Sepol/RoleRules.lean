import SELinux.Lib.InsertAgree
import SELinux.Sepol.MlsSemantic
import SELinux.Sepol.TypeSetSemantics

/-! Expansion of role allow, role transition and range transition rules (`expand.c`). A rule stands
for the product of its sets; the products of all enabled declarations are merged into one list or
table, where a second result for a key is an error. `none` is the result `-1` and also a failed
assertion; allocations succeed. -/
namespace SELinux.Sepol

open Option List

/-! ## Model -/

/-- `flavor == ROLE_ATTRIB` and `roles` of a `role_datum_t`. -/
structure BaseRole where
  attrib : Bool := false
  roles : Ebitmap := ∅

/-- What the rules are expanded with: the symbols of the output are complete, `baseRoles` is
`base->role_val_to_struct`. -/
structure ExpandState where
  out : FullPolicydb
  baseRoles : List (Option BaseRole)
  typemap : Nat → Nat
  rolemap : Nat → Nat

section

variable (st : ExpandState) (x : RoleSet)

def ExpandState.baseRole (i : Nat) : Option BaseRole := st.baseRoles.getD i none

structure RoleAllowRule where
  roles : RoleSet
  newRoles : RoleSet

structure RoleTransRule where
  roles : RoleSet
  types : TypeSet
  classes : Ebitmap
  newRole : Nat

structure RangeTransRule where
  stypes : TypeSet
  ttypes : TypeSet
  tclasses : Ebitmap
  trange : MlsSemanticRange

/-- The rules of an `avrule_decl_t`. -/
structure RuleDecl where
  roleAllowRules : List RoleAllowRule := []
  roleTrRules : List RoleTransRule := []
  rangeTrRules : List RangeTransRule := []

/-- The loop of `role_set_expand` that replaces the role attributes. -/
def roleSetRoles : Option Ebitmap :=
  x.roles.bits.foldlM
    (fun roles i =>
      match st.baseRole i with
      | none => none
      | some role =>
        if role.attrib then some (ebitmapUnion roles role.roles)
          else (ebitmapSetBit roles i true).toOption)
    ∅

/-- `role_set_expand` with a role map. -/
def roleSetExpandMap : Option Ebitmap :=
  if x.flags &&& roleStar ≠ 0 then
    (range st.out.rolesNprim).foldlM (fun r i => (ebitmapSetBit r i true).toOption) ∅
  else do
    let roles ← roleSetRoles st x
    let mappedRoles ← mapEbitmap roles st.rolemap
    let r ← mappedRoles.bits.foldlM (fun r i => (ebitmapSetBit r i true).toOption) ∅
    if x.flags &&& roleComp ≠ 0 then
      (range st.out.rolesNprim).foldlM
        (fun r i => (ebitmapSetBit r i (!ebitmapGetBit r i)).toOption) r
    else some r

/-- The innermost loop of `copy_role_allows`. -/
def addRoleAllow (roleAllow : List RoleAllow) (n : RoleAllow) : Option (List RoleAllow) :=
  match roleAllow.find? fun cur => cur.role = n.role ∧ cur.newRole = n.newRole with
  | some _ => some roleAllow
  | none => some (roleAllow ++ [n])

def copyRoleAllows (roleAllow : List RoleAllow) (rules : List RoleAllowRule) :
    Option (List RoleAllow) :=
  rules.foldlM
    (fun roleAllow cur => do
      let roles ← roleSetExpandMap st cur.roles
      let newRoles ← roleSetExpandMap st cur.newRoles
      roles.bits.foldlM
        (fun t i => newRoles.bits.foldlM
          (fun t j => addRoleAllow t { role := i + 1, newRole := j + 1 }) t)
        roleAllow)
    roleAllow

/-- The innermost loop of `copy_role_trans`. -/
def addRoleTrans (roleTr : List RoleTrans) (n : RoleTrans) : Option (List RoleTrans) :=
  match roleTr.find? fun cur => cur.role = n.role ∧ cur.type = n.type ∧ cur.tclass = n.tclass with
  | some cur => if cur.newRole = n.newRole then some roleTr else none
  | none => some (roleTr ++ [n])

def copyRoleTrans (roleTr : List RoleTrans) (rules : List RoleTransRule) :
    Option (List RoleTrans) :=
  rules.foldlM
    (fun roleTr cur => do
      let roles ← roleSetExpandMap st cur.roles
      let types ← expandConvertTypeSet st.out.toPolicydb st.typemap cur.types true
      roles.bits.foldlM
        (fun t i => types.bits.foldlM
          (fun t j => cur.classes.bits.foldlM
            (fun t k => addRoleTrans t
              { role := i + 1, type := j + 1, tclass := k + 1,
                newRole := st.rolemap (cur.newRole - 1) })
            t)
          t)
        roleTr)
    roleTr

def mlsSemanticRangeExpand (p : FullPolicydb) (sr : MlsSemanticRange) : Option MlsRange := do
  let low ← mlsSemanticLevelExpand p sr.low
  let high ← mlsSemanticLevelExpand p sr.high
  if !mlsLevelDom high low then none else some { low := low, high := high }

def mlsRangeEq (r1 r2 : MlsRange) : Bool := mlsLevelEq r1.low r2.low && mlsLevelEq r1.high r2.high

def expRangetrHelper (rangeTr : List (RangeTrans × MlsRange)) (key : RangeTrans)
    (trange : MlsSemanticRange) : Option (List (RangeTrans × MlsRange)) := do
  let expRange ← mlsSemanticRangeExpand st.out trange
  match rangeTr.find? fun e => e.1 = key with
  | some r => if mlsRangeEq r.2 expRange then some rangeTr else none
  | none => some (rangeTr ++ [(key, expRange)])

def expandRangeTrans (rangeTr : List (RangeTrans × MlsRange)) (rules : List RangeTransRule) :
    Option (List (RangeTrans × MlsRange)) :=
  rules.foldlM
    (fun rangeTr rule => do
      let stypes ← expandConvertTypeSet st.out.toPolicydb st.typemap rule.stypes true
      let ttypes ← expandConvertTypeSet st.out.toPolicydb st.typemap rule.ttypes true
      stypes.bits.foldlM
        (fun t i => ttypes.bits.foldlM
          (fun t j => rule.tclasses.bits.foldlM
            (fun t k => expRangetrHelper st t
              { sourceType := i + 1, targetType := j + 1, targetClass := k + 1 }
              rule.trange)
            t)
          t)
        rangeTr)
    rangeTr

/-- `role_allow`, `role_tr` and `range_tr` of the output. -/
structure ExpandedRules where
  roleAllow : List RoleAllow := []
  roleTr : List RoleTrans := []
  rangeTr : List (RangeTrans × MlsRange) := []

def expandDecl (t : ExpandedRules) (decl : RuleDecl) : Option ExpandedRules := do
  let roleAllow ← copyRoleAllows st t.roleAllow decl.roleAllowRules
  let roleTr ← copyRoleTrans st t.roleTr decl.roleTrRules
  let rangeTr ← expandRangeTrans st t.rangeTr decl.rangeTrRules
  some { roleAllow := roleAllow, roleTr := roleTr, rangeTr := rangeTr }

/-- The round for a block with its `enabled` declaration. -/
def forEnabled {σ : Type} (f : σ → RuleDecl → Option σ) (t : σ) : Option RuleDecl → Option σ
  -- nothing was enabled within this block
  | none => some t
  | some decl => f t decl

/-- The loop of `copy_and_expand_avrule_block`, with only the role and range rules of a
declaration. -/
def expandRules (blocks : List (Option RuleDecl)) : Option ExpandedRules :=
  blocks.foldlM (forEnabled (expandDecl st)) {}

/-! ## Meaning -/

/-- What a member of a role set stands for: the roles of an attribute, or itself. -/
def ExpandState.RoleStandsFor (i j : Nat) : Prop :=
  ∃ role, st.baseRole i = some role ∧ if role.attrib then j ∈ role.roles else j = i

/-- The output's numbers of the roles that are written in a role set. -/
def ExpandState.RoleMapped (r : Nat) : Prop :=
  ∃ i ∈ x.roles, ∃ j, st.RoleStandsFor i j ∧ st.rolemap j = r + 1

/-- A role set stands for its roles; `*` is all roles and `~` the complement. -/
def ExpandState.RoleIn (r : Nat) : Prop :=
  r < st.out.rolesNprim ∧
    if x.flags &&& roleStar ≠ 0 then True
    else if x.flags &&& roleComp ≠ 0 then ¬ st.RoleMapped x r
    else st.RoleMapped x r

/-- A type set with the output's numbers for the members that the output has. -/
structure TypeSet.Renumbered (typemap : Nat → Nat) (set set' : TypeSet) : Prop where
  types : ∀ x, x ∈ set'.types ↔ ∃ i ∈ set.types, typemap i = x + 1
  negset : ∀ x, x ∈ set'.negset ↔ ∃ i ∈ set.negset, typemap i = x + 1
  flags : set'.flags = set.flags

def ExpandState.TypeIn (set : TypeSet) (t : Nat) : Prop :=
  ∃ set', set.Renumbered st.typemap set' ∧ set'.StandsFor st.out.toPolicydb t

end

namespace RuleDecl

variable (st : ExpandState) (decl : RuleDecl)

/-- The products of the role allow rules. -/
def GivesAllow (e : RoleAllow) : Prop :=
  ∃ rule ∈ decl.roleAllowRules, ∃ i, st.RoleIn rule.roles i ∧ ∃ j, st.RoleIn rule.newRoles j ∧
    e = { role := i + 1, newRole := j + 1 }

/-- The products of the role transition rules, with the output's number of the new role. -/
def GivesTrans (e : RoleTrans) : Prop :=
  ∃ rule ∈ decl.roleTrRules, ∃ i, st.RoleIn rule.roles i ∧ ∃ j, st.TypeIn rule.types j ∧
    ∃ k ∈ rule.classes,
    e = { role := i + 1, type := j + 1, tclass := k + 1, newRole := st.rolemap (rule.newRole - 1) }

/-- The products of the range transition rules. -/
def GivesRange (e : RangeTrans × MlsRange) : Prop :=
  ∃ rule ∈ decl.rangeTrRules, ∃ i, st.TypeIn rule.stypes i ∧ ∃ j, st.TypeIn rule.ttypes j ∧
    ∃ k ∈ rule.tclasses,
    e.1 = { sourceType := i + 1, targetType := j + 1, targetClass := k + 1 } ∧
      mlsSemanticRangeExpand st.out rule.trange = some e.2

/-- A range transition rule with a product, and without a valid range. -/
def InvalidRange : Prop :=
  ∃ rule ∈ decl.rangeTrRules, ∃ i, st.TypeIn rule.stypes i ∧ ∃ j, st.TypeIn rule.ttypes j ∧
    ∃ _k ∈ rule.tclasses,
    mlsSemanticRangeExpand st.out rule.trange = none

end RuleDecl

/-- The key of a role transition. -/
def RoleTrans.key (n : RoleTrans) : Nat × Nat × Nat := (n.role, n.type, n.tclass)

/-- The maps lead into the tables of the output, which have a bit for every value. -/
structure ExpandState.Wf (st : ExpandState) : Prop where
  types : st.out.toPolicydb.AttribTypes
  typemap : ∀ i, st.typemap i ≠ 0 → (st.out.toPolicydb.typeStruct (st.typemap i - 1)).isSome = true
  rolemap : ∀ i, st.rolemap i ≤ st.out.rolesNprim
  roles : st.out.rolesNprim ≤ ebitmapLimit

/-- The roles of a set are roles of the base module. -/
def ExpandState.Knows (st : ExpandState) (x : RoleSet) : Prop :=
  ∀ i ∈ x.roles, (st.baseRole i).isSome = true

instance (st : ExpandState) (x : RoleSet) : Decidable (st.Knows x) :=
  inferInstanceAs (Decidable (∀ i ∈ x.roles, (st.baseRole i).isSome = true))

/-- The role sets of the rules have roles of the base module. -/
structure RuleDecl.Known (st : ExpandState) (decl : RuleDecl) : Prop where
  allowRoles : ∀ rule ∈ decl.roleAllowRules, st.Knows rule.roles
  allowNewRoles : ∀ rule ∈ decl.roleAllowRules, st.Knows rule.newRoles
  transRoles : ∀ rule ∈ decl.roleTrRules, st.Knows rule.roles

/-! ## Sets -/

section Sets

variable {st : ExpandState}

theorem roleSetRoles_spec {x : RoleSet} (hx : st.Knows x) :
    ∃ roles, roleSetRoles st x = some roles ∧ ∀ j, j ∈ roles ↔
      ∃ i ∈ x.roles, st.RoleStandsFor i j := by
  have hloop : ∃ roles, roleSetRoles st x = some roles ∧
      ∀ j, j ∈ roles ↔ j ∈ (∅ : Ebitmap) ∨ ∃ i ∈ x.roles.bits, st.RoleStandsFor i j := by
    refine Lib.foldlM_adds (fun i hi roles => ?_) ∅
    obtain ⟨role, hrole⟩ := isSome_iff_exists.mp (hx i hi)
    simp only [ExpandState.RoleStandsFor, hrole, some.injEq, exists_eq_left']
    by_cases hattrib : role.attrib = true
    · simp [if_pos hattrib]
    · simp only [if_neg hattrib]
      exact ebitmapSetBit_adds (x.roles.bound i hi)
  simpa using hloop

theorem setBits_spec {l : List Nat} (hl : ∀ i ∈ l, i < ebitmapLimit) :
    ∃ r, l.foldlM (fun r i => (ebitmapSetBit r i true).toOption) ∅ = some r ∧ ∀ x, x ∈ r ↔
      x ∈ l := by
  have hloop : ∃ r, l.foldlM (fun r i => (ebitmapSetBit r i true).toOption) ∅ = some r ∧
      ∀ x, x ∈ r ↔ x ∈ (∅ : Ebitmap) ∨ ∃ i ∈ l, x = i := by
    refine Lib.foldlM_adds (fun i hi r => ?_) ∅
    exact ebitmapSetBit_adds (hl i hi)
  simpa using hloop

theorem ExpandState.RoleMapped.lt (hst : st.Wf) {x r} (h : st.RoleMapped x r) :
    r < st.out.rolesNprim := by
  obtain ⟨_, _, j, _, hj⟩ := h
  have hle := hst.rolemap j
  omega

theorem roleSetExpandMap_spec (hst : st.Wf) {x} (hx : st.Knows x) :
    ∃ r, roleSetExpandMap st x = some r ∧ ∀ i, i ∈ r ↔ st.RoleIn x i := by
  unfold roleSetExpandMap ExpandState.RoleIn
  by_cases hstar : x.flags &&& roleStar ≠ 0
  · simp only [if_pos hstar, and_true]
    obtain ⟨r, hr, hmem⟩ := setBits_spec (l := range st.out.rolesNprim)
      (fun i hi => Nat.lt_of_lt_of_le (mem_range.mp hi) hst.roles)
    exact ⟨r, hr, fun i => (hmem i).trans mem_range⟩
  · simp only [if_neg hstar]
    obtain ⟨roles, hroles, hmem⟩ := roleSetRoles_spec hx
    obtain ⟨mapped, hmapped, hmem'⟩ := mapEbitmap_spec fun i (_ : i ∈ roles) =>
      Nat.le_trans (hst.rolemap i) hst.roles
    obtain ⟨r, hr, hmem''⟩ := setBits_spec (l := mapped.bits) mapped.bound
    have hrole : ∀ i, i ∈ r ↔ st.RoleMapped x i := by
      intro i
      rw [hmem'', Ebitmap.mem_bits, hmem']
      constructor
      · rintro ⟨j, hj, hij⟩
        obtain ⟨k, hk, hkj⟩ := (hmem j).mp hj
        exact ⟨k, hk, j, hkj, hij⟩
      · rintro ⟨k, hk, j, hkj, hij⟩
        exact ⟨j, (hmem j).mpr ⟨k, hk, hkj⟩, hij⟩
    simp only [hroles, hmapped, hr, bind_eq_bind, bind_some]
    by_cases hcomp : x.flags &&& roleComp ≠ 0
    · simp only [if_pos hcomp]
      obtain ⟨r', hr', hflip⟩ := compLoop_spec (fun _ => false) r hst.roles
      refine ⟨r', hr', fun i => ?_⟩
      rw [hflip, ← hrole]
      by_cases hi : i < st.out.rolesNprim
      · simp [hi]
      · simp only [hi, false_and, if_false, iff_false]
        exact fun h => hi (((hrole i).mp h).lt hst)
    · simp only [if_neg hcomp]
      exact ⟨r, rfl, fun i => (hrole i).trans ⟨fun h => ⟨h.lt hst, h⟩, fun h => h.2⟩⟩

theorem Policydb.lt_of_typeStruct {p : Policydb} {i : Nat} (h : (p.typeStruct i).isSome = true) :
    i < p.nprim := by
  by_contra hi
  simp [typeStruct, getElem?_eq_none (Nat.le_of_not_lt hi)] at h

theorem expandConvertTypeSet_spec (hst : st.Wf) (set : TypeSet) :
    ∃ t, expandConvertTypeSet st.out.toPolicydb st.typemap set true = some t ∧ ∀ x, x ∈ t ↔
      st.TypeIn set x := by
  have hbound : ∀ i, st.typemap i ≠ 0 → st.typemap i - 1 < st.out.toPolicydb.nprim := fun i hi =>
    Policydb.lt_of_typeStruct (hst.typemap i hi)
  have hlimit : ∀ i, st.typemap i ≤ ebitmapLimit := by
    intro i
    have hle := hst.types.bits
    by_cases hi : st.typemap i = 0
    · omega
    · have hlt := hbound i hi
      omega
  obtain ⟨types, htypes, hmem⟩ := mapEbitmap_spec fun i (_ : i ∈ set.types) => hlimit i
  obtain ⟨negset, hnegset, hneg⟩ := mapEbitmap_spec fun i (_ : i ∈ set.negset) => hlimit i
  have hwithin :
      TypeSet.Within st.out.toPolicydb
        { types := types, negset := negset, flags := set.flags } := by
    refine ⟨fun x hx => ?_, fun x hx => ?_⟩
    · obtain ⟨i, _, hi⟩ := (hmem x).mp hx
      have hsome := hst.typemap i (by omega)
      rwa [hi] at hsome
    · obtain ⟨i, _, hi⟩ := (hneg x).mp hx
      have hlt := hbound i (by omega)
      rwa [hi] at hlt
  obtain ⟨t, ht, hx⟩ :=
    typeSetExpand_expanded hst.types hwithin (show (true || _ || _) = true from rfl)
  refine ⟨t, ?_, fun x => (hx x).trans ?_⟩
  · simp only [expandConvertTypeSet, htypes, hnegset]
    exact ht
  · constructor
    · intro h
      exact ⟨{ types := types, negset := negset, flags := set.flags }, ⟨hmem, hneg, rfl⟩, h⟩
    · rintro ⟨⟨types', negset', flags'⟩, ⟨htypes', hnegset', hflags⟩, h⟩
      have htypes_eq : types' = types := Ebitmap.ext fun x => (htypes' x).trans (hmem x).symm
      have hnegset_eq : negset' = negset := Ebitmap.ext fun x => (hnegset' x).trans (hneg x).symm
      subst htypes_eq hnegset_eq hflags
      exact h

end Sets

/-! ## Rules -/

section Rules

open Lib (Inserts insertAgree)

theorem addRoleAllow_eq (t : List RoleAllow) (n : RoleAllow) :
    addRoleAllow t n = insertAgree id t n := by
  have hfind : (fun cur : RoleAllow => decide (cur.role = n.role ∧ cur.newRole = n.newRole)) =
      fun cur => decide (id cur = id n) := by
    funext cur
    obtain ⟨role, newRole⟩ := cur
    obtain ⟨role', newRole'⟩ := n
    simp
  rw [addRoleAllow, insertAgree, hfind]
  cases h : t.find? fun cur => decide (id cur = id n) with
  | none => rfl
  | some cur =>
    obtain rfl : cur = n := by simpa using find?_some h
    simp

theorem addRoleTrans_eq (t : List RoleTrans) (n : RoleTrans) :
    addRoleTrans t n = insertAgree RoleTrans.key t n := by
  have hfind :
      (fun cur : RoleTrans =>
        decide (cur.role = n.role ∧ cur.type = n.type ∧ cur.tclass = n.tclass)) =
      fun cur => decide (cur.key = n.key) := by
    simp [RoleTrans.key]
  rw [addRoleTrans, insertAgree, hfind]
  cases h : t.find? fun cur => decide (cur.key = n.key) with
  | none => rfl
  | some cur =>
    have hkey : cur.key = n.key := by simpa using find?_some h
    obtain ⟨role, type, tclass, newRole⟩ := cur
    obtain ⟨role', type', tclass', newRole'⟩ := n
    simp only [RoleTrans.key, Prod.mk.injEq] at hkey
    simp [hkey]

theorem mlsRangeEq_iff {r1 r2} : mlsRangeEq r1 r2 = true ↔ r1 = r2 := by
  obtain ⟨low1, high1⟩ := r1
  obtain ⟨low2, high2⟩ := r2
  simp [mlsRangeEq, mlsLevelEq_iff]

theorem expRangetrHelper_eq (st : ExpandState) (t : List (RangeTrans × MlsRange)) (key : RangeTrans)
    (trange : MlsSemanticRange) : expRangetrHelper st t key trange =
      (mlsSemanticRangeExpand st.out trange).bind fun r => insertAgree Prod.fst t (key, r) := by
  refine congrArg _ (funext fun r => ?_)
  rw [insertAgree]
  cases h : t.find? fun e => decide (e.1 = key) with
  | none => rfl
  | some e =>
    obtain rfl : e.1 = key := by simpa using find?_some h
    obtain ⟨key, range⟩ := e
    simp [mlsRangeEq_iff]

variable {st : ExpandState}

theorem copyRoleAllows_inserts (hst : st.Wf) {decl : RuleDecl} (hdecl : decl.Known st) :
    Inserts id False (decl.GivesAllow st) (copyRoleAllows st · decl.roleAllowRules) := by
  refine Inserts.loop_safe _ fun rule hrule => ?_
  obtain ⟨roles, hroles, hmem⟩ := roleSetExpandMap_spec hst (hdecl.allowRoles rule hrule)
  obtain ⟨newRoles, hnewRoles, hmem'⟩ := roleSetExpandMap_spec hst (hdecl.allowNewRoles rule hrule)
  have hloop := Inserts.loop_safe roles.bits fun i _ =>
    Inserts.loop_safe newRoles.bits fun j _ => Inserts.one id (RoleAllow.mk (i + 1) (j + 1))
  refine hloop.congr Iff.rfl (fun e => by simp [hmem, hmem']) fun t => ?_
  simp [hroles, hnewRoles, addRoleAllow_eq]

theorem copyRoleTrans_inserts (hst : st.Wf) {decl : RuleDecl} (hdecl : decl.Known st) :
    Inserts RoleTrans.key False (decl.GivesTrans st) (copyRoleTrans st · decl.roleTrRules) := by
  refine Inserts.loop_safe _ fun rule hrule => ?_
  obtain ⟨roles, hroles, hmem⟩ := roleSetExpandMap_spec hst (hdecl.transRoles rule hrule)
  obtain ⟨types, htypes, hmem'⟩ := expandConvertTypeSet_spec hst rule.types
  have hloop := Inserts.loop_safe roles.bits fun i _ =>
    Inserts.loop_safe types.bits fun j _ => Inserts.loop_safe rule.classes.bits fun k _ =>
      Inserts.one RoleTrans.key
        (RoleTrans.mk (i + 1) (j + 1) (k + 1) (st.rolemap (rule.newRole - 1)))
  refine hloop.congr Iff.rfl (fun e => by simp [hmem, hmem']) fun t => ?_
  simp [hroles, htypes, addRoleTrans_eq]

theorem expRangetrHelper_inserts (st : ExpandState) (key : RangeTrans) (trange : MlsSemanticRange) :
    Inserts Prod.fst (mlsSemanticRangeExpand st.out trange = none)
      (fun e => e.1 = key ∧ mlsSemanticRangeExpand st.out trange = some e.2)
        (expRangetrHelper st · key trange) := by
  cases h : mlsSemanticRangeExpand st.out trange with
  | none =>
    refine (Inserts.fail Prod.fst (f := fun _ => none) fun t => rfl).congr (by simp)
      (fun e => Iff.rfl) fun t => ?_
    rw [expRangetrHelper_eq, h]
    rfl
  | some r =>
    refine (Inserts.one Prod.fst (key, r)).congr (by simp) (fun e => ?_) fun t => ?_
    · rw [Prod.ext_iff, some.injEq, eq_comm (a := r)]
    · rw [expRangetrHelper_eq, h]
      rfl

theorem expandRangeTrans_inserts (hst : st.Wf) (decl : RuleDecl) :
    Inserts Prod.fst (decl.InvalidRange st) (decl.GivesRange st)
      (expandRangeTrans st · decl.rangeTrRules) := by
  refine Inserts.loop _ fun rule hrule => ?_
  obtain ⟨stypes, hstypes, hmem⟩ := expandConvertTypeSet_spec hst rule.stypes
  obtain ⟨ttypes, httypes, hmem'⟩ := expandConvertTypeSet_spec hst rule.ttypes
  have hloop := Inserts.loop stypes.bits fun i _ =>
    Inserts.loop ttypes.bits fun j _ => Inserts.loop rule.tclasses.bits fun k _ =>
      expRangetrHelper_inserts st (RangeTrans.mk (i + 1) (j + 1) (k + 1)) rule.trange
  simpa [hstypes, hmem, httypes, hmem'] using hloop

end Rules

/-! ## All declarations -/

section Declarations

open Lib (Inserts Conflict)

variable {st : ExpandState}

/-- The three kinds of rules are expanded independently. -/
theorem foldlM_expandDecl (st : ExpandState) (blocks : List (Option RuleDecl)) (t : ExpandedRules) :
    blocks.foldlM (forEnabled (expandDecl st)) t =
      (blocks.foldlM (forEnabled fun t decl => copyRoleAllows st t decl.roleAllowRules)
        t.roleAllow).bind fun allow =>
        (blocks.foldlM (forEnabled fun t decl => copyRoleTrans st t decl.roleTrRules) t.roleTr).bind
          fun trans =>
          (blocks.foldlM (forEnabled fun t decl => expandRangeTrans st t decl.rangeTrRules)
            t.rangeTr).bind fun range =>
            some { roleAllow := allow, roleTr := trans, rangeTr := range } := by
  induction blocks generalizing t with
  | nil => rfl
  | cons block blocks ih =>
    simp only [foldlM_cons]
    cases block with
    | none => exact ih t
    | some decl =>
      simp only [forEnabled, expandDecl]
      cases copyRoleAllows st t.roleAllow decl.roleAllowRules with
      | none => rfl
      | some allow =>
        cases copyRoleTrans st t.roleTr decl.roleTrRules with
        | none => simp
        | some trans =>
          cases expandRangeTrans st t.rangeTr decl.rangeTrRules with
          | none => simp
          | some range => simp [ih]

theorem forEnabled_inserts {ε κ : Type} [DecidableEq κ] [DecidableEq ε] {key : ε → κ}
    {blocks : List (Option RuleDecl)} {bad : RuleDecl → Prop} {P : RuleDecl → ε → Prop}
    {f : List ε → RuleDecl → Option (List ε)}
    (h : ∀ decl, some decl ∈ blocks → Inserts key (bad decl) (P decl) (f · decl)) :
    Inserts key (∃ decl, some decl ∈ blocks ∧ bad decl)
      (fun e => ∃ decl, some decl ∈ blocks ∧ P decl e) (blocks.foldlM (forEnabled f) ·) := by
  have hblock : ∀ block ∈ blocks, Inserts key (∃ decl ∈ block.toList, bad decl)
      (fun e => ∃ decl ∈ block.toList, P decl e)
      (forEnabled f · block) := by
    intro block hmem
    refine (Inserts.loop block.toList fun decl hdecl => h decl ?_).congr Iff.rfl (fun e => Iff.rfl)
      fun t => ?_
    · rwa [← mem_toList.mp hdecl]
    · cases block with
      | none => rfl
      | some decl => simp [forEnabled]
  refine (Inserts.loop blocks hblock).congr ?_ (fun e => ?_) fun t => rfl
  · simp
  · simp

end Declarations

/-- Role and range rules expand exactly. The output has the products of the rules of the enabled
declarations, and one entry for each key. Without invalid levels there is no output exactly if the
rules have two results for a key. -/
theorem expandRules_exact (st : ExpandState) (hst : st.Wf) (blocks : List (Option RuleDecl))
    (hknown : ∀ decl, some decl ∈ blocks → decl.Known st) : (∀ t, expandRules st blocks = some t →
      (t.roleAllow.Nodup ∧ ∀ e, e ∈ t.roleAllow ↔ ∃ decl, some decl ∈ blocks ∧
        decl.GivesAllow st e) ∧ ((t.roleTr.map RoleTrans.key).Nodup ∧
        ∀ e, e ∈ t.roleTr ↔ ∃ decl, some decl ∈ blocks ∧ decl.GivesTrans st e) ∧
      ((t.rangeTr.map Prod.fst).Nodup ∧
        ∀ e, e ∈ t.rangeTr ↔ ∃ decl, some decl ∈ blocks ∧ decl.GivesRange st e)) ∧
    (expandRules st blocks = none ↔ (∃ decl, some decl ∈ blocks ∧ decl.InvalidRange st) ∨
      Lib.Conflict RoleTrans.key (fun e => ∃ decl, some decl ∈ blocks ∧ decl.GivesTrans st e) ∨
      Lib.Conflict Prod.fst (fun e => ∃ decl, some decl ∈ blocks ∧ decl.GivesRange st e)) := by
  obtain ⟨hallow, hallowNone⟩ :=
    (forEnabled_inserts fun decl hdecl => copyRoleAllows_inserts hst (hknown decl hdecl)).from_nil
  obtain ⟨htrans, htransNone⟩ :=
    (forEnabled_inserts fun decl hdecl => copyRoleTrans_inserts hst (hknown decl hdecl)).from_nil
  obtain ⟨hrange, hrangeNone⟩ :=
    (forEnabled_inserts fun decl (_ : some decl ∈ blocks) =>
      expandRangeTrans_inserts hst decl).from_nil
  have hrules := foldlM_expandDecl st blocks {}
  refine ⟨fun t ht => ?_, ?_⟩
  · rw [expandRules, hrules] at ht
    obtain ⟨allow, ha, ht⟩ := bind_eq_some_iff.mp ht
    obtain ⟨trans, hb, ht⟩ := bind_eq_some_iff.mp ht
    obtain ⟨range, hc, ht⟩ := bind_eq_some_iff.mp ht
    cases ht
    simp_all
  · -- a role allow rule is its own key
    have hallowSome :
        ∃ allow, blocks.foldlM (forEnabled fun t decl => copyRoleAllows st t decl.roleAllowRules)
          [] =
        some allow := by
      refine ne_none_iff_exists'.mp fun h => ?_
      rcases hallowNone.mp h with ⟨_, _, hfalse⟩ | ⟨a, b, _, _, hkey, hne⟩
      · exact hfalse
      · exact hne hkey
    obtain ⟨allow, ha⟩ := hallowSome
    simp only [and_false, exists_false, false_or] at htransNone
    rw [expandRules, hrules, ha, bind_some, ← htransNone, or_left_comm, ← hrangeNone]
    cases blocks.foldlM (forEnabled fun t decl => copyRoleTrans st t decl.roleTrRules) [] with
    | none => simp
    | some trans =>
      cases blocks.foldlM (forEnabled fun t decl => expandRangeTrans st t decl.rangeTrRules) [] <;>
        simp

/-- Two roles with an attribute for both, which the output does not have, and one type. -/
def roleRuleState : ExpandState where
  out :=
    { typeValToStruct := [some {}]
      roleValToStruct := [some { value := 1 }, some { value := 2 }] }
  baseRoles := [some {}, some { attrib := true, roles := .ofList [0, 2] }, some {}]
  typemap i := if i = 0 then 1 else 0
  rolemap i := if i = 0 then 1 else if i = 2 then 2 else 0

theorem roleRuleState_wf : roleRuleState.Wf := by
  refine ⟨⟨by decide, fun a d hd hattrib => ?_⟩, fun i hi => ?_, fun i => ?_, by decide⟩
  · rcases a with _ | a
    · cases hd
      cases hattrib
    · cases hd
  · by_cases h : i = 0
    · rw [h]
      rfl
    · exact absurd (if_neg h) hi
  · show (if i = 0 then 1 else if i = 2 then 2 else 0) ≤ 2
    split_ifs <;> omega

/-- A role allow rule and two role transitions that agree where they overlap; in a second block
nothing is enabled. -/
def roleRuleBlocks : List (Option RuleDecl) :=
  [some
    { roleAllowRules :=
      [{ roles := { roles := .ofList [1] }, newRoles := { roles := .ofList [0] } }]
      roleTrRules :=
        [{ roles := { roles := .ofList [1] }, types := { types := .ofList [0] }, classes :=
          .ofList [0], newRole := 1 },
          { roles := { flags := roleStar }, types := { types := .ofList [0] },
            classes := .ofList [0], newRole := 1 }] },
    none]

theorem expandRules_exact_overlap : ∃ t, expandRules roleRuleState roleRuleBlocks = some t ∧
      ∀ e, e ∈ t.roleTr ↔ ∃ decl, some decl ∈ roleRuleBlocks ∧ decl.GivesTrans roleRuleState e := by
  have hknown : ∀ decl, some decl ∈ roleRuleBlocks → decl.Known roleRuleState := by
    intro decl hdecl
    rcases mem_cons.mp hdecl with heq | hmem
    · cases heq
      exact ⟨by decide, by decide, by decide⟩
    · simp at hmem
  obtain ⟨t, ht⟩ : ∃ t, expandRules roleRuleState roleRuleBlocks = some t :=
    isSome_iff_exists.mp (by decide +kernel)
  exact ⟨t, ht,
    ((expandRules_exact roleRuleState roleRuleState_wf roleRuleBlocks hknown).1 t ht).2.1.2⟩

end SELinux.Sepol
