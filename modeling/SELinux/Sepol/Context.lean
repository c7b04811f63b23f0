import SELinux.Sepol.Symbols

/-! Security contexts (`context.h`, `context.c`, and `mls_context_isvalid` of `mls.c`). -/
namespace SELinux.Sepol

/-- `context_struct_t`. -/
structure Context where
  user : Nat := 0
  role : Nat := 0
  type : Nat := 0
  range : MlsRange := {}
  deriving DecidableEq

def mlsContextCmp (c1 c2 : Context) : Bool :=
  mlsLevelEq c1.range.low c2.range.low && mlsLevelEq c1.range.high c2.range.high

def contextCmp (c1 c2 : Context) : Bool :=
  c1.user == c2.user && c1.role == c2.role && c1.type == c2.type && mlsContextCmp c1 c2

theorem contextCmp_iff {c1 c2} : contextCmp c1 c2 = true ↔ c1 = c2 := by
  obtain ⟨u1, r1, t1, l1, h1⟩ := c1
  obtain ⟨u2, r2, t2, l2, h2⟩ := c2
  simp only [contextCmp, mlsContextCmp, Bool.and_eq_true, beq_iff_eq, mlsLevelEq_iff,
    Context.mk.injEq, MlsRange.mk.injEq]
  tauto

/-- One level of a context: its sensitivity has a name, and its categories go with the
sensitivity. A category is compared with `nprim` as an index, so the first index past
the end passes this test. -/
def mlsLevelIsvalid (p : FullPolicydb) (l : MlsLevel) : Bool :=
  decide (l.sens ≠ 0) && decide (l.sens ≤ p.mlsDb.levelsNprim) &&
  match p.mlsDb.sensValToName.getD (l.sens - 1) none with
  | none => false
  | some key =>
    match p.mlsDb.levels.lookup key with
    | none => false
    | some levdatum =>
      l.cat.bits.all fun i => decide (i ≤ p.mlsDb.catsNprim) && ebitmapGetBit levdatum.cat i

def mlsContextIsvalid (p : FullPolicydb) (c : Context) : Bool :=
  !p.mls ||
  (mlsLevelDom c.range.high c.range.low && mlsLevelIsvalid p c.range.low &&
    mlsLevelIsvalid p c.range.high &&
    (c.role == objectRVal ||
      (decide (c.user ≠ 0) && decide (c.user ≤ p.users.nprim) &&
        match p.users.struct (c.user - 1) with
        | none => false
        | some usrdatum => mlsRangeContains usrdatum.expRange c.range)))

/-- `context_is_valid`. A context with role `object_r` may have any user and type. -/
def contextIsValid (p : FullPolicydb) (c : Context) : Bool :=
  decide (c.role ≠ 0) && decide (c.role ≤ p.rolesNprim) &&
  decide (c.user ≠ 0) && decide (c.user ≤ p.users.nprim) &&
  decide (c.type ≠ 0) && decide (c.type ≤ p.nprim) &&
  (c.role == objectRVal ||
    ((match p.roleStruct (c.role - 1) with
      | none => false
      | some role => ebitmapGetBit role.cache (c.type - 1)) &&
    match p.users.struct (c.user - 1) with
    | none => false
    | some usrdatum => ebitmapGetBit usrdatum.cache (c.role - 1))) &&
  mlsContextIsvalid p c

theorem contextIsValid_role {p : FullPolicydb} {c : Context} (h : contextIsValid p c = true)
    (hobject : (p.roleStruct (objectRVal - 1)).isSome = true) :
    (p.roleStruct (c.role - 1)).isSome = true := by
  simp only [contextIsValid, Bool.and_eq_true, Bool.or_eq_true, beq_iff_eq] at h
  rcases h.1.2 with hrole | ⟨hrole, -⟩
  · rwa [hrole]
  · cases hr : p.roleStruct (c.role - 1) with
    | none => simp [hr] at hrole
    | some r => rfl

end SELinux.Sepol
