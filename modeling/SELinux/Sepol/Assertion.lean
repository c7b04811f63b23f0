import SELinux.Sepol.Policydb

/-! Neverallow checking (`assertion.c`). A fast test, `check_assertion`, looks for
one entry that may violate an assertion; if there is one,
`report_assertion_failures` goes over the tables again and counts the violations,
and the count is the result. The messages themselves are not represented, only
that they are counted. -/
namespace SELinux.Sepol

def matchAnyClassPermissions (cp : List ClassPermNode) (cls : Nat) (data : BitVec 32) : Bool :=
  cp.any fun c => c.tclass == cls && (c.data &&& data) != 0

/-! ## Extended permissions -/

/-- Whether `perms1[i] & perms2[i]` is not zero for some word `i`. -/
def extendedPermissionsAnd (perms1 perms2 : XpermBits) : Bool := (perms1 &&& perms2) != 0

def checkExtendedPermissions (neverallow allow : ExtendedPerms) : Bool :=
  if neverallow.specified = xpermsIoctlfunction ∧ allow.specified = xpermsIoctlfunction then
    if neverallow.driver = allow.driver then extendedPermissionsAnd neverallow.perms allow.perms
    else false
  else if neverallow.specified = xpermsIoctlfunction ∧ allow.specified = xpermsIoctldriver then
    xpermTest neverallow.driver allow.perms
  else if neverallow.specified = xpermsIoctldriver ∧ allow.specified = xpermsIoctlfunction then
    xpermTest allow.driver neverallow.perms
  else if neverallow.specified = xpermsIoctldriver ∧ allow.specified = xpermsIoctldriver then
    extendedPermissionsAnd neverallow.perms allow.perms
  else false

section

variable (avrule : Avrule) (avtab : Avtab) (k : AvtabKey) (p : Policydb)

/-- The `allowxperm` entries of one table that the loops over the attributes of
`(stype, ttype)` visit. -/
def xpermsEntries (avtab : Avtab) (stype ttype tclass : Nat) : List ExtendedPerms :=
  let nodes := (p.typeAttrs stype).bits.flatMap fun i => (p.typeAttrs ttype).bits.flatMap fun j =>
    avtabSearchNodes avtab ⟨i + 1, j + 1, tclass, avtabXpermsAllowed⟩
  (nodes.map fun n => n.datum.xperms).filter fun x =>
    x.specified == xpermsIoctlfunction || x.specified == xpermsIoctldriver

/-- `check_assertion_extended_permissions_avtab`: `rc` starts as `1`, is the
result of the last check, and the first failing check returns. -/
def checkAssertionExtendedPermissionsAvtab (stype ttype : Nat)
    (k : AvtabKey) (p : Policydb) : Bool :=
  match xpermsEntries p avtab stype ttype k.targetClass with
  | [] => true
  | xs => xs.any fun x => checkExtendedPermissions avrule.xperms x

/-- `report_assertion_extended_permissions`: the number of complaints. -/
def reportAssertionExtendedPermissions (stype ttype : Nat) (k : AvtabKey) (p : Policydb) : Nat :=
  match xpermsEntries p avtab stype ttype k.targetClass with
  | [] => 1
  | xs => xs.countP fun x => checkExtendedPermissions avrule.xperms x

/-! ## The types of an entry that a rule covers -/

def isAvruleSelf : Bool := (avrule.flags &&& ruleSelf) != 0

def srcMatches : Ebitmap :=
  ebitmapAnd avrule.stypes.types (p.attrTypes (k.sourceType - 1))

/-- `tgt_matches`, with `self_matches` added if the rule uses self. -/
def tgtMatches : Ebitmap :=
  let tgt := ebitmapAnd avrule.ttypes.types (p.attrTypes (k.targetType - 1))
  if isAvruleSelf avrule then
    let self := ebitmapAnd (srcMatches avrule k p) (p.attrTypes (k.targetType - 1))
    if !ebitmapIsEmpty self then ebitmapUnion tgt self else tgt
  else tgt

/-- The pairs `(i, j)` that the nested loops over the matches reach: with self,
`if (is_avrule_self && i != j) continue`. -/
def matchPairs : List (Nat × Nat) :=
  (srcMatches avrule k p).bits.flatMap fun i =>
    ((tgtMatches avrule k p).bits.filter fun j => !(isAvruleSelf avrule && i != j)).map fun j =>
      (i, j)

/-! ## The fast test -/

/-- `check_assertion_extended_permissions`. The early exits for empty matches
leave no pair to look at. -/
def checkAssertionExtendedPermissions : Bool :=
  (matchPairs avrule k p).any fun (i, j) =>
    checkAssertionExtendedPermissionsAvtab avrule avtab i j k p

def checkAssertionSelfMatch (avrule : Avrule) (p : Policydb) : Bool :=
  ebitmapMatchAny (srcMatches avrule k p) (p.attrTypes (k.targetType - 1))

/-- `check_assertion_avtab_match`, for entries of the table `avtab`. -/
def checkAssertionAvtabMatch (k : AvtabKey) (d : AvtabDatum) : Bool :=
  if k.specified &&& avtabAllowed = 0 then false
  else if !matchAnyClassPermissions avrule.perms k.targetClass d.data then false
  else if !ebitmapMatchAny avrule.stypes.types (p.attrTypes (k.sourceType - 1)) then false
  -- neverallow may have tgts even if it uses SELF
  else if !ebitmapMatchAny avrule.ttypes.types (p.attrTypes (k.targetType - 1)) &&
      !(avrule.flags == ruleSelf && checkAssertionSelfMatch k avrule p) then false
  else if avrule.specified = avruleXpermsNeverallow then
    checkAssertionExtendedPermissions avrule avtab k p
  else true

/-- `avtab_map` with the fast test, which returns `1` at the first match. -/
def checkAssertionTable (avtab : Avtab) : Int :=
  (avtabMap (fun k d (_ : Unit) =>
    (if checkAssertionAvtabMatch avrule avtab p k d then 1 else 0, ()))
    avtab.nodes ()).1

def checkAssertion (avrule : Avrule) : Int :=
  let rc := checkAssertionTable avrule p p.teAvtab
  if rc = 0 then checkAssertionTable avrule p p.teCondAvtab else rc

/-! ## The report -/

/-- What one pair of matching types adds to `a->errors`. -/
def pairErrors (k : AvtabKey) (q : Nat × Nat) : Nat :=
  if avrule.specified = avruleXpermsNeverallow then
    reportAssertionExtendedPermissions avrule avtab q.1 q.2 k p
  else 1

/-- `report_assertion_avtab_matches`: what one entry adds to `a->errors`. -/
def entryErrors (k : AvtabKey) (d : AvtabDatum) : Nat :=
  if k.specified &&& avtabAllowed = 0 then 0
  else if !matchAnyClassPermissions avrule.perms k.targetClass d.data then 0
  else
    ((avrule.perms.filter fun cp => cp.tclass == k.targetClass && (cp.data &&& d.data) != 0).map
      fun _ => ((matchPairs avrule k p).map (pairErrors avrule avtab p k)).sum).sum

/-- `avtab_map` with the report; `errors` is an `unsigned long`. -/
def reportTable (avtab : Avtab) (errors : BitVec 64) : Int × BitVec 64 :=
  avtabMap (fun k d errors => (0, errors + BitVec.ofNat 64 (entryErrors avrule avtab p k d)))
    avtab.nodes errors

/-- `report_assertion_failures`: the count, converted to `int` by the return. -/
def reportAssertionFailures (avrule : Avrule) : Int :=
  let r := reportTable avrule p p.teAvtab 0
  let r := reportTable avrule p p.teCondAvtab r.2
  (r.2.setWidth 32).toInt

/-- The loop of `check_assertions`; `errors` is an `unsigned long`. -/
def checkAssertionsLoop : List Avrule → BitVec 64 → Int
  | [], errors => if errors ≠ 0 then -1 else 0
  | a :: next, errors =>
    if a.specified &&& (avruleNeverallow ||| avruleXpermsNeverallow) = 0 then
      checkAssertionsLoop next errors
    else
      let rc := checkAssertion p a
      if rc < 0 then -1
      else if rc ≠ 0 then
        let rc := reportAssertionFailures p a
        if rc < 0 then -1 else checkAssertionsLoop next (errors + BitVec.ofInt 64 rc)
      else checkAssertionsLoop next errors

def checkAssertions (avrules : List Avrule) : Int := checkAssertionsLoop p avrules 0

end

end SELinux.Sepol
