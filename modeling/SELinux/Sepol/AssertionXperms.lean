import Mathlib.Algebra.Order.BigOperators.Group.List
import Mathlib.Algebra.Order.Group.Nat
import SELinux.Sepol.AssertionExact

/-! Where neverallowxperm checking is exact. The code compares an allow entry only
with the allowxperm rules of the entry's own table; the meaning of the assertion
looks at the whole policy. The two agree where an allow rule and the allowxperm
rules for the same types are in one table. -/
namespace SELinux.Sepol

open List Bool

/-! ## What a neverallowxperm rule says -/

section

variable (p : Policydb) (a : Avrule) (avtab : Avtab)

/-- A neverallowxperm rule as `validate_avrules` admits it. -/
structure Avrule.NeverallowXperms : Prop where
  specified : a.specified = avruleXpermsNeverallow
  flags : a.FlagsValid

/-- The allowxperm rules of a table that apply to `(s, t, c)`. -/
def allowxperms (s t c : Nat) : List AvtabNode :=
  avtab.nodes.filter fun x => x.isKind avtabXpermsAllowed && x.appliesTo p s t c

/-- An entry of the table grants the class permission of the rule, ioctl, to a
pair of the rule. -/
def GrantsIoctl (s t c : Nat) : Prop :=
  ∃ n ∈ avtab.nodes, n.key.targetClass = c ∧ (∃ cp ∈ a.perms, n.allows cp = true) ∧
    a.hitsPair p n s t = true

/-- Ioctl is not restricted by any of the allowxperm rules, or one of them grants a
command that the assertion forbids. -/
def ExposedBy (xs : List AvtabNode) : Prop :=
  xs = [] ∨ ∃ x ∈ xs, ∃ driver func,
    x.datum.xperms.grants driver func = true ∧ a.xperms.grants driver func = true

/-- Ioctl on `(s, t, c)` is exposed by the allowxperm rules of the whole policy. -/
def Exposed (s t c : Nat) : Prop :=
  ExposedBy a (allowxperms p p.teAvtab s t c ++ allowxperms p p.teCondAvtab s t c)

def XpermsViolated : Prop :=
  ∃ s t c, (GrantsIoctl p a p.teAvtab s t c ∨ GrantsIoctl p a p.teCondAvtab s t c) ∧
    Exposed p a s t c

/-! ## Rules in one table -/

/-- How many times an entry of the table is compared with an allowxperm rule, or found
to have none: for each permission set of the rule, pair of types and allowxperm rule. -/
def comparisons : Nat :=
  (avtab.nodes.map fun n => a.perms.countP (fun cp => n.allows cp) *
    ((countedPairs p a n).map fun (s, t) =>
      max 1 (allowxperms p avtab s t n.key.targetClass).length).sum).sum

/-- A policy that the assertion is checked exactly on. -/
structure OneTable : Prop where
  /-- Where an unconditional rule grants ioctl, no conditional allowxperm rule applies. -/
  te : ∀ s t c, GrantsIoctl p a p.teAvtab s t c → allowxperms p p.teCondAvtab s t c = []
  /-- Where a conditional rule grants ioctl, no unconditional allowxperm rule applies. -/
  cond : ∀ s t c, GrantsIoctl p a p.teCondAvtab s t c → allowxperms p p.teAvtab s t c = []
  /-- A rule with self is only about types with themselves. -/
  self : isAvruleSelf a = true → ∀ s t c,
    GrantsIoctl p a p.teAvtab s t c ∨ GrantsIoctl p a p.teCondAvtab s t c → s = t
  /-- The assertion and the allowxperm rules name commands. -/
  named : a.xperms.perms ≠ 0 ∧ ∀ n ∈ p.teAvtab.nodes ++ p.teCondAvtab.nodes,
    n.isKind avtabXpermsAllowed = true → n.datum.xperms.perms ≠ 0
  /-- The count of the report does not wrap around. -/
  few : comparisons p a p.teAvtab + comparisons p a p.teCondAvtab < 2 ^ 32

end

/-! ## The entries a search visits -/

section Entries

variable {p : Policydb} {avtab : Avtab}

/-- The keys of the two loops over attributes. -/
def attrKeys (p : Policydb) (s t : Nat) : List (Nat × Nat) :=
  (p.typeAttrs s).bits.flatMap fun i => (p.typeAttrs t).bits.map fun j => (i + 1, j + 1)

theorem attrKeys_nodup (p : Policydb) (s t : Nat) : (attrKeys p s t).Nodup := by
  rw [attrKeys, nodup_flatMap]
  refine ⟨fun i _ => ?_, ?_⟩
  · refine (p.typeAttrs t).nodup.map fun x y h => ?_
    exact Nat.succ.inj (Prod.mk.inj h).2
  · refine (p.typeAttrs s).nodup.imp fun hne => ?_
    intro x hx hy
    obtain ⟨_, -, rfl⟩ := mem_map.mp hx
    simp_all

theorem mem_attrKeys {s t v w : Nat} :
    (v, w) ∈ attrKeys p s t ↔ p.covers v s = true ∧ p.covers w t = true := by
  simp only [attrKeys, mem_flatMap, mem_map, Prod.mk.injEq, Policydb.covers,
    and_eq_true, decide_eq_true_eq, ebitmapGetBit_eq_true]
  constructor
  · rintro ⟨i, hi, j, hj, rfl, rfl⟩
    exact ⟨⟨Nat.succ_pos i, hi⟩, Nat.succ_pos j, hj⟩
  · rintro ⟨⟨hv, hs⟩, hw, ht⟩
    exact ⟨v - 1, hs, w - 1, ht, by omega, by omega⟩

/-- A search for one key of the loops, as a filter. -/
theorem search_eq_filter (hwf : avtab.Wf) (c v w : Nat) :
    avtabSearchNodes avtab ⟨v, w, c, avtabXpermsAllowed⟩ =
      (avtab.nodes.filter fun x => x.isKind avtabXpermsAllowed && x.key.targetClass == c).filter
        fun x => (x.key.sourceType, x.key.targetType) = (v, w) := by
  rw [hwf.searchNodes_eq, filter_filter]
  apply filter_congr
  intro x _
  have hspec : (⟨v, w, c, avtabXpermsAllowed⟩ : AvtabKey).spec = avtabXpermsAllowed := by
    simp only [AvtabKey.spec]
    decide
  rw [Bool.eq_iff_iff, AvtabKey.hits_iff, AvtabKey.same_iff, hspec, BitVec.and_comm]
  simp only [and_eq_true, decide_eq_true_eq, Prod.mk.injEq, AvtabNode.isKind, bne_iff_ne,
    beq_iff_eq]
  constructor
  · simp_all
  · simp_all

variable (hwf : avtab.Wf) (hx : ∀ n ∈ avtab.nodes, n.XpermsValid)
include hwf hx

/-- The two loops over attributes and the search in the table visit the
allowxperm rules that apply. -/
theorem xpermsEntries_perm (s t c : Nat) :
    (xpermsEntries p avtab s t c).Perm
      ((allowxperms p avtab s t c).map fun x => x.datum.xperms) := by
  have hnodes : ((p.typeAttrs s).bits.flatMap fun i => (p.typeAttrs t).bits.flatMap fun j =>
      avtabSearchNodes avtab ⟨i + 1, j + 1, c, avtabXpermsAllowed⟩).Perm
      (allowxperms p avtab s t c) := by
    have hkeys : ((p.typeAttrs s).bits.flatMap fun i => (p.typeAttrs t).bits.flatMap fun j =>
        avtabSearchNodes avtab ⟨i + 1, j + 1, c, avtabXpermsAllowed⟩) =
        (attrKeys p s t).flatMap fun k =>
          (avtab.nodes.filter fun x =>
            x.isKind avtabXpermsAllowed && x.key.targetClass == c).filter
            fun x => (x.key.sourceType, x.key.targetType) = k := by
      simp only [attrKeys, flatMap_assoc, flatMap_map, search_eq_filter hwf]
    rw [hkeys]
    refine (Lib.flatMap_filter_perm (attrKeys_nodup p s t) _).trans (.of_eq ?_)
    rw [filter_filter, allowxperms]
    apply filter_congr
    intro x _
    rw [Bool.eq_iff_iff]
    simp only [and_eq_true, decide_eq_true_eq, mem_attrKeys, AvtabNode.appliesTo]
    tauto
  -- no entry of another kind is skipped
  have hall : ∀ x ∈ (allowxperms p avtab s t c).map fun x => x.datum.xperms,
      (x.specified == xpermsIoctlfunction || x.specified == xpermsIoctldriver) = true := by
    intro x hxmem
    obtain ⟨n, hn, rfl⟩ := mem_map.mp hxmem
    obtain ⟨hn, hkind⟩ := mem_filter.mp hn
    have hxk : n.isKind avtabXperms = true := by
      rw [and_eq_true] at hkind
      have h := hkind.1
      simp only [AvtabNode.isKind, bne_iff_ne, ne_eq] at h ⊢
      intro h0
      apply h
      rw [show avtabXpermsAllowed = avtabXperms &&& avtabXpermsAllowed by decide,
        ← BitVec.and_assoc, h0]
      exact BitVec.zero_and
    simpa using hx n hn hxk
  refine ((hnodes.map _).filter _).trans (.of_eq ?_)
  exact filter_eq_self.mpr hall

theorem length_xpermsEntries (s t c : Nat) :
    (xpermsEntries p avtab s t c).length = (allowxperms p avtab s t c).length := by
  rw [(xpermsEntries_perm hwf hx s t c).length_eq, length_map]

theorem report_le (a : Avrule) (s t : Nat) (k : AvtabKey) :
    reportAssertionExtendedPermissions a avtab s t k p ≤
      max 1 (allowxperms p avtab s t k.targetClass).length := by
  rw [← length_xpermsEntries hwf hx, reportAssertionExtendedPermissions]
  split
  · exact Nat.le_max_left ..
  · exact Nat.le_trans countP_le_length (Nat.le_max_right ..)

end Entries

/-! ## Overlapping permissions -/

theorem exists_xpermTest {perms : XpermBits} (h : perms ≠ 0) : ∃ x, xpermTest x perms = true := by
  by_contra hnone
  refine h (BitVec.zero_iff_eq_false.mpr fun i => ?_)
  by_cases hi : i < 256
  · have hx : (BitVec.ofNat 8 i).toNat = i := by rw [BitVec.toNat_ofNat]; omega
    refine eq_false_iff.mpr fun hbit => hnone ⟨BitVec.ofNat 8 i, ?_⟩
    rwa [xpermTest, hx]
  · exact BitVec.getLsbD_of_ge _ _ (Nat.le_of_not_lt hi)

theorem extendedPermissionsAnd_iff {p1 p2 : XpermBits} :
    extendedPermissionsAnd p1 p2 = true ↔ ∃ x, xpermTest x p1 = true ∧ xpermTest x p2 = true := by
  rw [extendedPermissionsAnd, bne_iff_ne]
  constructor
  · intro h
    obtain ⟨x, hx⟩ := exists_xpermTest h
    rw [xpermTest, BitVec.getLsbD_and, and_eq_true] at hx
    exact ⟨x, hx⟩
  · rintro ⟨x, h1, h2⟩ h0
    have hbit : (p1 &&& p2).getLsbD x.toNat = true := by
      rw [BitVec.getLsbD_and, and_eq_true]
      exact ⟨h1, h2⟩
    rw [BitVec.zero_iff_eq_false.mp h0] at hbit
    cases hbit

/-- The comparison is right about permissions that name commands: two bitmaps of one
kind are compared bit by bit, and of two kinds by the driver of the commands. -/
theorem checkExtendedPermissions_iff {a x : ExtendedPerms} (ha : a.perms ≠ 0) (hx : x.perms ≠ 0) :
    checkExtendedPermissions a x = true ↔
      ∃ driver func, x.grants driver func = true ∧ a.grants driver func = true := by
  obtain ⟨fa, hfa⟩ := exists_xpermTest ha
  obtain ⟨fx, hfx⟩ := exists_xpermTest hx
  unfold checkExtendedPermissions
  split_ifs with hff hdriver hfd hdf hdd
  · simp only [ExtendedPerms.grants_function hff.1, ExtendedPerms.grants_function hff.2,
      extendedPermissionsAnd_iff, and_eq_true, beq_iff_eq]
    constructor
    · rintro ⟨func, ha, hx⟩
      exact ⟨x.driver, func, ⟨rfl, hx⟩, hdriver, ha⟩
    · rintro ⟨driver, func, ⟨-, hx⟩, -, ha⟩
      exact ⟨func, ha, hx⟩
  · simp only [ExtendedPerms.grants_function hff.1, ExtendedPerms.grants_function hff.2,
      and_eq_true, beq_iff_eq, false_iff]
    rintro ⟨driver, func, ⟨hx, -⟩, ha, -⟩
    exact hdriver (ha.trans hx.symm)
  · simp only [ExtendedPerms.grants_function hfd.1, ExtendedPerms.grants_driver hfd.2,
      and_eq_true, beq_iff_eq]
    constructor
    · exact fun h => ⟨a.driver, fa, h, rfl, hfa⟩
    · rintro ⟨driver, func, h, rfl, -⟩
      exact h
  · simp only [ExtendedPerms.grants_driver hdf.1, ExtendedPerms.grants_function hdf.2,
      and_eq_true, beq_iff_eq]
    constructor
    · exact fun h => ⟨x.driver, fx, ⟨rfl, hfx⟩, h⟩
    · rintro ⟨driver, func, ⟨rfl, -⟩, h⟩
      exact h
  · simp only [ExtendedPerms.grants_driver hdd.1, ExtendedPerms.grants_driver hdd.2,
      extendedPermissionsAnd_iff]
    constructor
    · exact fun ⟨driver, ha, hx⟩ => ⟨driver, 0, hx, ha⟩
    · exact fun ⟨driver, _, hx, ha⟩ => ⟨driver, ha, hx⟩
  · -- one of the two is of no kind
    have hkind : ∀ {y : ExtendedPerms} {driver func}, y.grants driver func = true →
        y.specified = xpermsIoctlfunction ∨ y.specified = xpermsIoctldriver := by
      intro y driver func h
      simp only [ExtendedPerms.grants, or_eq_true, and_eq_true, beq_iff_eq] at h
      exact h.imp (fun h => h.1.1) (fun h => h.1)
    rw [false_iff]
    rintro ⟨driver, func, hx, ha⟩
    rcases hkind ha with ha | ha <;> rcases hkind hx with hx | hx
    · exact hff ⟨ha, hx⟩
    · exact hfd ⟨ha, hx⟩
    · exact hdf ⟨ha, hx⟩
    · exact hdd ⟨ha, hx⟩

/-! ## Exactness -/

section Exact

variable {p : Policydb} {a : Avrule} {avtab : Avtab} {s t : Nat} (hwf : avtab.Wf)
  (hx : ∀ n ∈ avtab.nodes, n.XpermsValid) (hname : a.xperms.perms ≠ 0)
  (hnamed : ∀ n ∈ avtab.nodes, n.isKind avtabXpermsAllowed = true → n.datum.xperms.perms ≠ 0)
include hwf hx hname hnamed

theorem report_pos_iff (k : AvtabKey) :
    0 < reportAssertionExtendedPermissions a avtab s t k p ↔
      ExposedBy a (allowxperms p avtab s t k.targetClass) := by
  have hperm := xpermsEntries_perm (p := p) hwf hx s t k.targetClass
  have hcheck : ∀ x ∈ allowxperms p avtab s t k.targetClass,
      checkExtendedPermissions a.xperms x.datum.xperms = true ↔ ∃ driver func,
        x.datum.xperms.grants driver func = true ∧ a.xperms.grants driver func = true := by
    intro x hmem
    obtain ⟨hx, hkind⟩ := mem_filter.mp hmem
    exact checkExtendedPermissions_iff hname (hnamed x hx (and_eq_true_iff.mp hkind).1)
  unfold reportAssertionExtendedPermissions ExposedBy
  split
  · rename_i hnil
    rw [hnil] at hperm
    have hempty := map_eq_nil_iff.mp hperm.nil_eq.symm
    simp [hempty]
  · rename_i xs hcons
    have hne : allowxperms p avtab s t k.targetClass ≠ [] := by
      intro hnil
      rw [hnil, map_nil] at hperm
      exact hcons hperm.eq_nil
    rw [hperm.countP_eq, countP_pos_iff, or_iff_right hne]
    simp only [mem_map, exists_exists_and_eq_and]
    exact exists_congr fun x => and_congr_right fun hmem => hcheck x hmem

/-- An entry adds to the count exactly if it grants ioctl to a pair that is exposed in
its own table. -/
theorem entryErrors_pos_exists (e : ExpandedPolicydb) (ha : a.NeverallowXperms)
    (hkeys : ∀ n ∈ avtab.nodes, n.key.Valid) :
    (∃ n ∈ avtab.nodes, 0 < entryErrors a avtab e.toPolicydb n.key n.datum) ↔
      ∃ s t c, GrantsIoctl e.toPolicydb a avtab s t c ∧ (isAvruleSelf a = true → s = t) ∧
        ExposedBy a (allowxperms e.toPolicydb avtab s t c) := by
  have hpair : ∀ (n : AvtabNode) s t, 0 < pairErrors a avtab e.toPolicydb n.key (s, t) ↔
      ExposedBy a (allowxperms e.toPolicydb avtab s t n.key.targetClass) := by
    intro n s t
    rw [pairErrors, if_pos ha.specified, report_pos_iff hwf hx hname hnamed]
  constructor
  · rintro ⟨n, hn, hpos⟩
    obtain ⟨hperm, ⟨s, t⟩, hq, hpos⟩ := entryErrors_pos_iff.mp hpos
    obtain ⟨hhit, hself⟩ := (mem_matchPairs e (hkeys n hn)).mp hq
    exact ⟨s, t, n.key.targetClass, ⟨n, hn, rfl, hperm, hhit⟩, hself, (hpair n s t).mp hpos⟩
  · rintro ⟨s, t, _, ⟨n, hn, rfl, hperm, hhit⟩, hself, hexp⟩
    refine ⟨n, hn, entryErrors_pos_iff.mpr ⟨hperm, (s, t), ?_, (hpair n s t).mpr hexp⟩⟩
    exact (mem_matchPairs e (hkeys n hn)).mpr ⟨hhit, hself⟩

omit hname hnamed in
theorem entryErrors_le (e : ExpandedPolicydb) (ha : a.NeverallowXperms)
    (hkeys : ∀ n ∈ avtab.nodes, n.key.Valid) :
    (avtab.nodes.map fun n => entryErrors a avtab e.toPolicydb n.key n.datum).sum ≤
      comparisons e.toPolicydb a avtab := by
  refine sum_le_sum fun n hn => ?_
  have hpair : pairErrors a avtab e.toPolicydb n.key =
      fun q => reportAssertionExtendedPermissions a avtab q.1 q.2 n.key e.toPolicydb := by
    funext q
    rw [pairErrors, if_pos ha.specified]
  rw [entryErrors_eq, hpair, ((matchPairs_perm e (hkeys n hn)).map _).sum_nat]
  rw [map_const', sum_replicate_nat, ← countP_eq_length_filter]
  exact Nat.mul_le_mul_left _ (sum_le_sum fun q _ => report_le hwf hx a q.1 q.2 n.key)

end Exact

/-- Types `0` and `1`. Ioctl, permission `1` of class `1`, is allowed from `0` to `1`
by a conditional rule; the commands are restricted to command `1` of driver `0` by
an allowxperm rule in the unconditional table. -/
def condIoctlPolicydb : ExpandedPolicydb where
  typeValToStruct := [some {}, some {}]
  typeAttrMap := [.ofList [0], .ofList [1]]
  attrTypeMap := [.ofList [0], .ofList [1]]
  teAvtab := avtabOf
    [(⟨1, 2, 1, avtabXpermsAllowed⟩,
      { xperms := { specified := xpermsIoctlfunction, perms := 2 } })]
  teCondAvtab := avtabOf [(⟨1, 2, 1, avtabAllowed⟩, { data := 1 })]
  maps := by decide
  typesOnly := by decide
  teKeys := by decide
  condKeys := allowPolicydb.teKeys
  teXperms := by decide
  condXperms := allowPolicydb.teXperms
  teWf := avtabOf_wf _
  condWf := allowPolicydb.teWf
  condAddrs := by decide
  condDefined := allowPolicydb.condDefined

/-- `neverallowxperm 0 1:1 ioctl`, for commands of driver `0`. -/
def neverallowxpermRule (perms : XpermBits) : Avrule where
  specified := avruleXpermsNeverallow
  stypes := { types := .ofList [0] }
  ttypes := { types := .ofList [1] }
  perms := [⟨1, 1⟩]
  xperms := { specified := xpermsIoctlfunction, perms }

/-- The same two rules, both unconditional. -/
def ioctlPolicydb : ExpandedPolicydb :=
  { allowPolicydb with
    teAvtab := avtabOf [(⟨1, 2, 1, avtabXpermsAllowed⟩,
      { xperms := { specified := xpermsIoctlfunction, perms := 2 } }),
      (⟨1, 2, 1, avtabAllowed⟩, { data := 1 })]
    maps := by decide
    typesOnly := by decide
    teKeys := by decide
    teXperms := by decide
    teWf := avtabOf_wf _ }

end SELinux.Sepol
