import Mathlib.Data.List.ProdSigma
import SELinux.Sepol.Assertion
import SELinux.Sepol.Expanded

/-! Where neverallow checking is exact. The meaning of an assertion is stated over
pairs of types; the code's counts are then related to it. -/
namespace SELinux.Sepol

open List

/-! ## What an assertion says -/

/-- The type pairs of a rule: sources and targets, and with self each source
with itself. -/
def Avrule.relates (a : Avrule) (s t : Nat) : Bool :=
  decide (s ∈ a.stypes.types) && (decide (t ∈ a.ttypes.types) || (isAvruleSelf a && s == t))

/-- An entry grants one of the permissions of `cp`. -/
def AvtabNode.allows (n : AvtabNode) (cp : ClassPermNode) : Bool :=
  n.isKind avtabAllowed && cp.tclass == n.key.targetClass && (cp.data &&& n.datum.data) != 0

/-- The entry's attribute pair covers the types `s` and `t`, and the rule relates
them. -/
def Avrule.hitsPair (a : Avrule) (p : Policydb) (n : AvtabNode) (s t : Nat) : Bool :=
  p.isType s && p.isType t && p.covers n.key.sourceType s && p.covers n.key.targetType t &&
    a.relates s t

/-- An allow rule, enabled or not, violates the assertion. -/
def Violated (p : Policydb) (a : Avrule) : Prop :=
  ∃ n ∈ p.teAvtab.nodes ++ p.teCondAvtab.nodes, ∃ cp ∈ a.perms, n.allows cp = true ∧
    ∃ s t, a.hitsPair p n s t = true

/-! ## What the report counts -/

/-- The pairs of an entry that the report goes through: with self, only those of
a type with itself. -/
def countedPairs (p : Policydb) (a : Avrule) (n : AvtabNode) : List (Nat × Nat) :=
  (range p.nprim ×ˢ range p.nprim).filter fun (s, t) =>
    a.hitsPair p n s t && (!isAvruleSelf a || s == t)

/-- The counted violations of a plain neverallow rule. -/
def tally (p : Policydb) (a : Avrule) : Nat :=
  ((p.teAvtab.nodes ++ p.teCondAvtab.nodes).map fun n =>
    a.perms.countP (fun cp => n.allows cp) * (countedPairs p a n).length).sum

/-- A total of counts survives the conversions on its way out: a count is
returned as an `int`, where a negative one is an error by itself, and the counts
are added up in an `unsigned long`. -/
def Noticed (counts : List Nat) : Prop :=
  (∃ n ∈ counts, 2 ^ 31 ≤ n % 2 ^ 32) ∨ (counts.map (· % 2 ^ 32)).sum % 2 ^ 64 ≠ 0

/-! ## The pairs the loops reach -/

variable {a : Avrule} {p : Policydb} {n : AvtabNode}

section Pairs

variable (e : ExpandedPolicydb)

theorem mem_tgtMatches {k : AvtabKey} {j : Nat} :
    j ∈ tgtMatches a k p ↔ j ∈ p.attrTypes (k.targetType - 1) ∧
      (j ∈ a.ttypes.types ∨ (isAvruleSelf a = true ∧ j ∈ srcMatches a k p)) := by
  unfold tgtMatches
  dsimp only
  split_ifs with hself hempty
  · simp only [mem_ebitmapUnion, mem_ebitmapAnd]
    tauto
  · rw [Bool.not_eq_true', Bool.not_eq_false, ebitmapIsEmpty_iff] at hempty
    have := hempty j
    simp only [mem_ebitmapAnd] at this ⊢
    tauto
  · simp only [mem_ebitmapAnd]
    tauto

theorem mem_matchPairs (hn : n.key.Valid) {s t : Nat} : (s, t) ∈ matchPairs a n.key e.toPolicydb ↔
      a.hitsPair e.toPolicydb n s t = true ∧ (isAvruleSelf a = true → s = t) := by
  have hsrc : s ∈ srcMatches a n.key e.toPolicydb ↔
      s ∈ a.stypes.types ∧ e.isType s = true ∧ e.covers n.key.sourceType s = true := by
    rw [srcMatches, mem_ebitmapAnd, e.mem_attrTypes hn.source]
  have htgt : t ∈ tgtMatches a n.key e.toPolicydb ↔
      (e.isType t = true ∧ e.covers n.key.targetType t = true) ∧ (t ∈ a.ttypes.types ∨
        (isAvruleSelf a = true ∧ t ∈ srcMatches a n.key e.toPolicydb)) := by
    rw [mem_tgtMatches, e.mem_attrTypes hn.target]
  have hpair : (s, t) ∈ matchPairs a n.key e.toPolicydb ↔
      s ∈ srcMatches a n.key e.toPolicydb ∧ t ∈ tgtMatches a n.key e.toPolicydb ∧
        (isAvruleSelf a = true → s = t) := by
    simp [matchPairs, imp_iff_not_or]
  rw [hpair, hsrc, htgt]
  simp only [Avrule.hitsPair, Avrule.relates, Bool.and_eq_true, Bool.or_eq_true, decide_eq_true_eq,
    beq_iff_eq]
  constructor
  · rintro ⟨⟨hS, hs, hcs⟩, ⟨⟨ht, hct⟩, hT⟩, hself⟩
    refine ⟨⟨⟨⟨⟨hs, ht⟩, hcs⟩, hct⟩, hS, ?_⟩, hself⟩
    exact hT.imp_right fun h => ⟨h.1, hself h.1⟩
  · rintro ⟨⟨⟨⟨⟨hs, ht⟩, hcs⟩, hct⟩, hS, hT⟩, hself⟩
    refine ⟨⟨hS, hs, hcs⟩, ⟨⟨ht, hct⟩, ?_⟩, hself⟩
    rcases hT with hT | ⟨hr, rfl⟩
    · exact .inl hT
    · exact .inr ⟨hr, hsrc.mpr ⟨hS, hs, hcs⟩⟩

theorem matchPairs_nodup (a : Avrule) (k : AvtabKey) (p : Policydb) : (matchPairs a k p).Nodup := by
  rw [matchPairs, nodup_flatMap]
  refine ⟨fun i _ => ?_, ?_⟩
  · refine ((tgtMatches a k p).nodup.filter _).map fun x y h => ?_
    exact (Prod.mk.inj h).2
  · refine (srcMatches a k p).nodup.imp fun hne => ?_
    intro x hx hy
    obtain ⟨_, -, rfl⟩ := mem_map.mp hx
    simp_all

theorem mem_countedPairs {p} {n s t} : (s, t) ∈ countedPairs p a n ↔
      a.hitsPair p n s t = true ∧ (isAvruleSelf a = true → s = t) := by
  simp only [countedPairs, mem_filter, Bool.and_eq_true]
  constructor
  · rintro ⟨-, hhit, hself⟩
    refine ⟨hhit, fun hr => ?_⟩
    simpa [hr] using hself
  · rintro ⟨hhit, hself⟩
    have htypes : p.isType s = true ∧ p.isType t = true := by
      simp only [Avrule.hitsPair, Bool.and_eq_true] at hhit
      exact hhit.1.1.1
    refine ⟨mem_product.mpr ⟨mem_range.mpr (Policydb.isType_lt htypes.1),
      mem_range.mpr (Policydb.isType_lt htypes.2)⟩, hhit, ?_⟩
    cases hr : isAvruleSelf a with
    | false => rfl
    | true => simpa using hself hr

/-- The loops go through the counted pairs. -/
theorem matchPairs_perm {a} (hn : n.key.Valid) :
    (matchPairs a n.key e.toPolicydb).Perm (countedPairs e.toPolicydb a n) := by
  have hnd : (countedPairs e.toPolicydb a n).Nodup :=
    (nodup_range.product nodup_range).filter _
  rw [perm_ext_iff_of_nodup (matchPairs_nodup _ _ _) hnd]
  rintro ⟨s, t⟩
  rw [mem_matchPairs e hn, mem_countedPairs]

end Pairs

/-! ## From the counts to the result -/

/-- What the report adds up for a rule, before any conversion. -/
def totalErrors (p : Policydb) (a : Avrule) : Nat :=
  (p.teAvtab.nodes.map fun n => entryErrors a p.teAvtab p n.key n.datum).sum +
    (p.teCondAvtab.nodes.map fun n => entryErrors a p.teCondAvtab p n.key n.datum).sum

theorem reportAssertionFailures_eq (p : Policydb) (a : Avrule) :
    reportAssertionFailures p a = (BitVec.ofNat 32 (totalErrors p a)).toInt := by
  have hwidth : ∀ n, (BitVec.ofNat 64 n).setWidth 32 = BitVec.ofNat 32 n := by
    simp
  rw [reportAssertionFailures, reportTable, reportTable]
  simp only [avtabMap_count, BitVec.ofNat_eq_ofNat, BitVec.zero_add]
  rw [← BitVec.ofNat_add, hwidth, totalErrors]

theorem toInt_ofNat_neg_iff {n : Nat} : (BitVec.ofNat 32 n).toInt < 0 ↔ 2 ^ 31 ≤ n % 2 ^ 32 := by
  rw [BitVec.toInt_eq_toNat_cond, BitVec.toNat_ofNat]
  split_ifs <;> omega

theorem toInt_ofNat_of_lt {n : Nat} (h : n % 2 ^ 32 < 2 ^ 31) :
    (BitVec.ofNat 32 n).toInt = (n % 2 ^ 32 : Nat) := by
  rw [BitVec.toInt_eq_toNat_cond, BitVec.toNat_ofNat, if_pos (by omega)]

theorem checkAssertion_eq (p : Policydb) (a : Avrule) : checkAssertion p a =
      if p.teAvtab.nodes.any (fun n => checkAssertionAvtabMatch a p.teAvtab p n.key n.datum) ||
        p.teCondAvtab.nodes.any (fun n => checkAssertionAvtabMatch a p.teCondAvtab p n.key n.datum)
      then 1 else 0 := by
  rw [checkAssertion, checkAssertionTable, checkAssertionTable, avtabMap_test, avtabMap_test]
  cases p.teAvtab.nodes.any fun n => checkAssertionAvtabMatch a p.teAvtab p n.key n.datum <;> simp

/-- The fast test does not overlook a rule with something to report. -/
def Prechecked (p : Policydb) (a : Avrule) : Prop :=
  0 < totalErrors p a → checkAssertion p a ≠ 0

theorem checkAssertionsLoop_ne_zero_iff {p} {rules : List Avrule}
    (hspec : ∀ a ∈ rules, a.specified &&& (avruleNeverallow ||| avruleXpermsNeverallow) ≠ 0)
    (hpre : ∀ a ∈ rules, Prechecked p a) (errors : BitVec 64) :
    checkAssertionsLoop p rules errors ≠ 0 ↔ (∃ a ∈ rules, 2 ^ 31 ≤ totalErrors p a % 2 ^ 32) ∨
      (errors.toNat + (rules.map fun a => totalErrors p a % 2 ^ 32).sum) % 2 ^ 64 ≠ 0 := by
  induction rules generalizing errors with
  | nil =>
    have hlt := errors.isLt
    have hzero : errors = 0 ↔ errors.toNat = 0 := by
      rw [← BitVec.toNat_inj]
      rfl
    by_cases h : errors = 0
    · simp [checkAssertionsLoop, h]
    · have hne : errors.toNat ≠ 0 := fun h0 => h (hzero.mpr h0)
      simp only [checkAssertionsLoop, ne_eq, h, not_false_eq_true, if_true, not_mem_nil,
        false_and, exists_false, map_nil, sum_nil, Nat.add_zero, false_or]
      rw [Nat.mod_eq_of_lt hlt]
      simpa using hne
  | cons a rules ih =>
    have ih := ih (fun b hb => hspec b (by simp [hb])) (fun b hb => hpre b (by simp [hb]))
    have hcheck : checkAssertion p a = 0 ∨ checkAssertion p a = 1 := by
      rw [checkAssertion_eq]
      split_ifs <;> simp
    rw [checkAssertionsLoop, if_neg (hspec a (by simp)), reportAssertionFailures_eq]
    simp only [mem_cons, exists_eq_or_imp, map_cons, sum_cons]
    rcases hcheck with h0 | h1
    · have hnone : totalErrors p a = 0 := by
        by_contra h
        exact hpre a (by simp) (Nat.pos_of_ne_zero h) h0
      simpa [h0, hnone] using ih errors
    · by_cases hneg : 2 ^ 31 ≤ totalErrors p a % 2 ^ 32
      · have := toInt_ofNat_neg_iff.mpr hneg
        omega
      · have hpos := toInt_ofNat_of_lt (Nat.lt_of_not_le hneg)
        have hsum : (errors + BitVec.ofInt 64 ((totalErrors p a % 2 ^ 32 : Nat) : Int)).toNat =
            (errors.toNat + totalErrors p a % 2 ^ 32) % 2 ^ 64 := by
          rw [BitVec.ofInt_natCast, BitVec.toNat_add, BitVec.toNat_ofNat, Nat.add_mod_mod]
        rw [hpos, h1, if_neg (by omega), if_pos (by omega), if_neg (by omega), ih, hsum,
          Nat.mod_add_mod, Nat.add_assoc]
        simp only [hneg, false_or]

/-! ## Entries -/

theorem matchAnyClassPermissions_iff {cps} (hn : n.isKind avtabAllowed = true) :
    matchAnyClassPermissions cps n.key.targetClass n.datum.data = true ↔
      ∃ cp ∈ cps, n.allows cp = true := by
  simp [matchAnyClassPermissions, AvtabNode.allows, hn]

theorem entryErrors_eq (a : Avrule) (avtab : Avtab) (p : Policydb) (n : AvtabNode) :
    entryErrors a avtab p n.key n.datum = ((a.perms.filter fun cp => n.allows cp).map
      fun _ => ((matchPairs a n.key p).map (pairErrors a avtab p n.key)).sum).sum := by
  have hkind : n.isKind avtabAllowed = true ↔ n.key.specified &&& avtabAllowed ≠ 0 := by
    simp [AvtabNode.isKind]
  have hfilter : ∀ {l : List ClassPermNode}, (∀ cp ∈ l, ¬ n.allows cp = true) →
      l.filter (fun cp => n.allows cp) = [] := by
    simp
  unfold entryErrors
  split_ifs with hallow hmatch
  · simp [AvtabNode.allows, AvtabNode.isKind, hallow]
  · rw [hfilter fun cp hcp h => ?_]
    · rfl
    · rw [Bool.not_eq_true', ← Bool.not_eq_true,
        matchAnyClassPermissions_iff (hkind.mpr hallow)] at hmatch
      exact hmatch ⟨cp, hcp, h⟩
  · simp only [AvtabNode.allows, hkind.mpr hallow, Bool.true_and]

theorem entryErrors_pos_iff {avtab p} :
    0 < entryErrors a avtab p n.key n.datum ↔ (∃ cp ∈ a.perms, n.allows cp = true) ∧
      ∃ q ∈ matchPairs a n.key p, 0 < pairErrors a avtab p n.key q := by
  have hpairs : 0 < ((matchPairs a n.key p).map (pairErrors a avtab p n.key)).sum ↔
      ∃ q ∈ matchPairs a n.key p, 0 < pairErrors a avtab p n.key q := by
    simp [List.sum_pos_iff_exists_pos_nat]
  rw [entryErrors_eq, List.sum_pos_iff_exists_pos_nat, ← hpairs]
  simp

/-- The two values `validate_avrules` admits for the flags of a rule. -/
def Avrule.FlagsValid (a : Avrule) : Prop := a.flags = 0 ∨ a.flags = ruleSelf

/-- The pair test of the fast check agrees with the report. -/
theorem checkExtended_iff {a avtab p k i j} :
    checkAssertionExtendedPermissionsAvtab a avtab i j k p = true ↔
      0 < reportAssertionExtendedPermissions a avtab i j k p := by
  unfold checkAssertionExtendedPermissionsAvtab reportAssertionExtendedPermissions
  split <;> simp [countP_pos_iff]

/-- The fast test accepts every entry that adds to the count. -/
theorem checkAssertionAvtabMatch_of_pos (ha : a.FlagsValid) {avtab p}
    (h : 0 < entryErrors a avtab p n.key n.datum) :
    checkAssertionAvtabMatch a avtab p n.key n.datum = true := by
  obtain ⟨⟨cp, hcp, hallows⟩, ⟨i, j⟩, hq, hpos⟩ := entryErrors_pos_iff.mp h
  have hkind : n.isKind avtabAllowed = true := by
    simp only [AvtabNode.allows, Bool.and_eq_true] at hallows
    exact hallows.1.1
  obtain ⟨hi, hj⟩ : i ∈ srcMatches a n.key p ∧ j ∈ tgtMatches a n.key p := by
    simp only [matchPairs, mem_flatMap, mem_map, mem_filter, Prod.mk.injEq] at hq
    simp_all
  obtain ⟨hjt, hj⟩ := mem_tgtMatches.mp hj
  have hsrc := mem_ebitmapAnd.mp hi
  -- the tests of the target set and of self
  have htgt : (!ebitmapMatchAny a.ttypes.types (p.attrTypes (n.key.targetType - 1)) &&
      !(a.flags == ruleSelf && checkAssertionSelfMatch n.key a p)) = false := by
    rcases hj with hj | ⟨hself, hj⟩
    · have : ebitmapMatchAny a.ttypes.types (p.attrTypes (n.key.targetType - 1)) = true :=
        ebitmapMatchAny_iff.mpr ⟨j, hj, hjt⟩
      simp [this]
    · have hflags : a.flags = ruleSelf := by
        rcases ha with h0 | h1
        · simp [isAvruleSelf, h0] at hself
        · exact h1
      have : checkAssertionSelfMatch n.key a p = true := ebitmapMatchAny_iff.mpr ⟨j, hj, hjt⟩
      simp [this, hflags]
  unfold checkAssertionAvtabMatch
  rw [if_neg (by simpa [AvtabNode.isKind] using hkind),
    if_neg (by simpa using (matchAnyClassPermissions_iff hkind).mpr ⟨cp, hcp, hallows⟩),
    if_neg (by simpa using ebitmapMatchAny_iff.mpr ⟨i, hsrc⟩), if_neg (by rw [htgt]; simp)]
  split_ifs with hx
  · rw [checkAssertionExtendedPermissions, any_eq_true]
    rw [pairErrors, if_pos hx] at hpos
    exact ⟨(i, j), hq, checkExtended_iff.mpr hpos⟩
  · rfl

theorem totalErrors_pos_iff {a} : 0 < totalErrors p a ↔
      (∃ n ∈ p.teAvtab.nodes, 0 < entryErrors a p.teAvtab p n.key n.datum) ∨
      ∃ n ∈ p.teCondAvtab.nodes, 0 < entryErrors a p.teCondAvtab p n.key n.datum := by
  have hsum : ∀ (l : List AvtabNode) (f : AvtabNode → Nat),
      0 < (l.map f).sum ↔ ∃ n ∈ l, 0 < f n := by
    simp [List.sum_pos_iff_exists_pos_nat]
  rw [totalErrors, Nat.add_pos_iff_pos_or_pos, hsum, hsum]

theorem prechecked {p} (ha : a.FlagsValid) : Prechecked p a := by
  intro hpos
  have hany : (p.teAvtab.nodes.any
      (fun n => checkAssertionAvtabMatch a p.teAvtab p n.key n.datum) ||
      p.teCondAvtab.nodes.any
        (fun n => checkAssertionAvtabMatch a p.teCondAvtab p n.key n.datum)) = true := by
    rw [Bool.or_eq_true, any_eq_true, any_eq_true]
    refine (totalErrors_pos_iff.mp hpos).imp ?_ ?_
    · exact fun ⟨n, hn, h⟩ => ⟨n, hn, checkAssertionAvtabMatch_of_pos ha h⟩
    · exact fun ⟨n, hn, h⟩ => ⟨n, hn, checkAssertionAvtabMatch_of_pos ha h⟩
  rw [checkAssertion_eq, if_pos hany]
  decide

/-! ## Plain neverallow rules -/

/-- A neverallow rule as `validate_avrules` admits it. -/
structure Avrule.Neverallow (a : Avrule) : Prop where
  specified : a.specified = avruleNeverallow
  flags : a.FlagsValid

theorem totalErrors_eq_tally (e : ExpandedPolicydb) (ha : a.Neverallow) :
    totalErrors e.toPolicydb a = tally e.toPolicydb a := by
  have hentry : ∀ (avtab : Avtab) (n : AvtabNode), n.key.Valid →
      entryErrors a avtab e.toPolicydb n.key n.datum =
        a.perms.countP (fun cp => n.allows cp) * (countedPairs e.toPolicydb a n).length := by
    intro avtab n hn
    have hone : pairErrors a avtab e.toPolicydb n.key = fun _ => 1 := by
      funext q
      rw [pairErrors, if_neg (by rw [ha.specified]; decide)]
    simp [entryErrors_eq, ← (matchPairs_perm e hn).length_eq, hone, countP_eq_length_filter]
  have hte := map_congr_left fun n hn => hentry e.teAvtab n (e.teKeys n hn)
  have hcond := map_congr_left fun n hn => hentry e.teCondAvtab n (e.condKeys n hn)
  simp [totalErrors, hte, hcond, tally]

theorem violated_of_tally_pos {p a} (h : 0 < tally p a) : Violated p a := by
  simp only [tally, List.sum_pos_iff_exists_pos_nat, List.mem_map] at h
  obtain ⟨_, ⟨n, hn, rfl⟩, h⟩ := h
  have hcp := List.countP_pos_iff.mp (Nat.pos_of_mul_pos_right h)
  obtain ⟨⟨s, t⟩, hq⟩ := exists_mem_of_length_pos (Nat.pos_of_mul_pos_left h)
  obtain ⟨cp, hcp, hallows⟩ := hcp
  exact ⟨n, hn, cp, hcp, hallows, s, t, (mem_countedPairs.mp hq).1⟩

theorem Noticed.exists_pos {counts} (h : Noticed counts) : ∃ n ∈ counts, 0 < n := by
  rcases h with ⟨n, hn, hlarge⟩ | hsum
  · refine ⟨n, hn, Nat.pos_of_ne_zero fun h0 => ?_⟩
    subst h0
    simp at hlarge
  · by_contra hno
    apply hsum
    have hzero : (counts.map (· % 2 ^ 32)).sum = 0 := by
      rw [List.sum_eq_zero_iff_forall_eq_nat]
      intro m hm
      obtain ⟨n, hn, rfl⟩ := mem_map.mp hm
      have : n = 0 := Nat.eq_zero_of_not_pos fun hpos => hno ⟨n, hn, hpos⟩
      simp [this]
    rw [hzero, Nat.zero_mod]

/-- `check_assertions` fails on a list of neverallow rules exactly when a rule is
violated, if and only if the violations that the report goes through are noticed
whenever there is a violation at all. -/
theorem checkAssertions_neverallow_iff (e : ExpandedPolicydb) {rules : List Avrule}
    (hrules : ∀ a ∈ rules, a.Neverallow) :
    (checkAssertions e.toPolicydb rules ≠ 0 ↔ ∃ a ∈ rules, Violated e.toPolicydb a) ↔
      ((∃ a ∈ rules, Violated e.toPolicydb a) → Noticed (rules.map (tally e.toPolicydb))) := by
  have hcounts : checkAssertions e.toPolicydb rules ≠ 0 ↔
      Noticed (rules.map (tally e.toPolicydb)) := by
    rw [checkAssertions, checkAssertionsLoop_ne_zero_iff
      (fun a ha => by rw [(hrules a ha).specified]; decide)
      (fun a ha => prechecked (hrules a ha).flags)]
    have hmap : (rules.map fun a => totalErrors e.toPolicydb a % 2 ^ 32) =
        (rules.map (tally e.toPolicydb)).map (· % 2 ^ 32) := by
      rw [map_map]
      exact map_congr_left fun a ha => by
        simp [totalErrors_eq_tally e (hrules a ha)]
    have hlarge : (∃ a ∈ rules, 2 ^ 31 ≤ totalErrors e.toPolicydb a % 2 ^ 32) ↔
        ∃ n ∈ rules.map (tally e.toPolicydb), 2 ^ 31 ≤ n % 2 ^ 32 := by
      constructor
      · rintro ⟨a, ha, h⟩
        exact ⟨_, mem_map_of_mem ha, totalErrors_eq_tally e (hrules a ha) ▸ h⟩
      · rintro ⟨_, hn, h⟩
        obtain ⟨a, ha, rfl⟩ := mem_map.mp hn
        exact ⟨a, ha, (totalErrors_eq_tally e (hrules a ha)).symm ▸ h⟩
    rw [hmap, hlarge, Noticed]
    simp
  rw [hcounts]
  constructor
  · exact fun h => h.mpr
  · intro h
    refine ⟨fun hn => ?_, h⟩
    obtain ⟨_, hmem, hpos⟩ := hn.exists_pos
    obtain ⟨a, ha, rfl⟩ := mem_map.mp hmem
    exact ⟨a, ha, violated_of_tally_pos hpos⟩

/-- Types `0` and `1`, with `allow 0 1:1`. -/
def allowPolicydb : ExpandedPolicydb where
  typeValToStruct := [some {}, some {}]
  typeAttrMap := [.ofList [0], .ofList [1]]
  attrTypeMap := [.ofList [0], .ofList [1]]
  teAvtab := avtabOf [(⟨1, 2, 1, avtabAllowed⟩, { data := 1 })]
  maps := by decide
  typesOnly := by decide
  teKeys := by decide
  condKeys := Avtab.empty_keysValid
  teXperms := by decide
  condXperms := Avtab.empty_xpermsValid
  teWf := avtabOf_wf _
  condWf := Avtab.empty_wf
  condAddrs := by decide
  condDefined := by simp

/-- `neverallow 0 1:1`, and with self `neverallow 0 { 1 self }:1`. -/
def neverallowRule (flags : BitVec 32) : Avrule where
  specified := avruleNeverallow
  flags := flags
  stypes := { types := .ofList [0] }
  ttypes := { types := .ofList [1] }
  perms := [⟨1, 1⟩]

theorem checkAssertions_neverallow_plain :
    checkAssertions allowPolicydb.toPolicydb [neverallowRule 0] = -1 ∧
    (checkAssertions allowPolicydb.toPolicydb [neverallowRule 0] ≠ 0 ↔
      ∃ a ∈ [neverallowRule 0], Violated allowPolicydb.toPolicydb a) := by
  have hrules : ∀ a ∈ [neverallowRule 0], a.Neverallow := by
    intro a ha
    rw [mem_singleton.mp ha]
    exact ⟨rfl, .inl rfl⟩
  refine ⟨by decide, (checkAssertions_neverallow_iff allowPolicydb hrules).mpr fun _ => ?_⟩
  right
  decide

/-- With self, a violation between two different types goes unreported although
the rule names both. -/
theorem checkAssertions_self_target : (neverallowRule ruleSelf).Neverallow ∧
    checkAssertions allowPolicydb.toPolicydb [neverallowRule ruleSelf] = 0 ∧
    Violated allowPolicydb.toPolicydb (neverallowRule ruleSelf) := by
  refine ⟨⟨rfl, .inr rfl⟩, by decide, { key := ⟨1, 2, 1, avtabAllowed⟩, datum := { data := 1 } }, by
    decide,
    ⟨1, 1⟩, by decide, by decide, 0, 1, by decide⟩

end SELinux.Sepol
