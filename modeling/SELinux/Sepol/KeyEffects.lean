import SELinux.Sepol.AvtabNodes
import SELinux.Sepol.Decision

/-! Access vectors as sets of effects. A rule that is merged into another adds its effects to
those of the other, whether the data are or-ed or and-ed, so a table that is built by merging has
the effects of all rules that went into it. -/
namespace SELinux.Sepol

/-- The rule has the source and target types with these indices, and this class. -/
def AvtabNode.isFor (n : AvtabNode) (s t c : Nat) : Bool :=
  n.key.sourceType == s + 1 && n.key.targetType == t + 1 && n.key.targetClass == c

/-- What the rules that pass a test give together: or-ed for allow and auditallow rules, and-ed for
auditdeny rules. -/
structure AccessVectors where
  allowed : BitVec 32
  auditallow : BitVec 32
  auditdeny : BitVec 32
  deriving DecidableEq

def accessVectors (nodes : List AvtabNode) (test : AvtabNode → Bool) : AccessVectors where
  allowed := orData (nodes.filter fun n => test n && n.isKind avtabAllowed)
  auditallow := orData (nodes.filter fun n => test n && n.isKind avtabAuditallow)
  auditdeny := andData (nodes.filter fun n => test n && n.isKind avtabAuditdeny)

/-- The effects of a rule that passes a test. -/
def testEffects (test : AvtabNode → Bool) (n : AvtabNode) : Set Effect :=
  {e | test n = true ∧ datumHas n.key.specified n.datum e}

section BitsOfVectors

variable {l : List AvtabNode} {test : AvtabNode → Bool} {b : Nat}

theorem accessVectors_allowed : (accessVectors l test).allowed.getLsbD b = true ↔
    Effect.allowed b ∈ Lib.pool (testEffects test) l := by
  simp [accessVectors, getLsbD_orData, Lib.mem_pool, testEffects, datumHas, AvtabNode.isKind,
    and_assoc]

theorem accessVectors_auditallow : (accessVectors l test).auditallow.getLsbD b = true ↔
    Effect.auditallow b ∈ Lib.pool (testEffects test) l := by
  simp [accessVectors, getLsbD_orData, Lib.mem_pool, testEffects, datumHas, AvtabNode.isKind,
    and_assoc]

theorem accessVectors_auditdeny (hb : b < 32) : (accessVectors l test).auditdeny.getLsbD b = true ↔
    Effect.auditdeny b ∉ Lib.pool (testEffects test) l := by
  simp only [accessVectors, getLsbD_andData hb]
  simp [Lib.mem_pool, testEffects, datumHas, AvtabNode.isKind, hb]

end BitsOfVectors

/-- Access vectors are told apart by their bits. -/
theorem AccessVectors.ext_bits {v w : AccessVectors}
    (hallowed : ∀ b < 32, v.allowed.getLsbD b = true ↔ w.allowed.getLsbD b = true)
    (hauditallow : ∀ b < 32, v.auditallow.getLsbD b = true ↔ w.auditallow.getLsbD b = true)
    (hauditdeny : ∀ b < 32, v.auditdeny.getLsbD b = true ↔ w.auditdeny.getLsbD b = true) :
      v = w := by
  have heq {x y : BitVec 32} (h : ∀ b < 32, x.getLsbD b = true ↔ y.getLsbD b = true) : x = y :=
    BitVec.eq_of_getLsbD_eq fun b hb => Bool.eq_iff_iff.mpr (h b hb)
  rw [AccessVectors.mk.injEq]
  exact ⟨heq hallowed, heq hauditallow, heq hauditdeny⟩

theorem accessVectors_congr {l l' test test'}
    (h : Lib.pool (testEffects test) l = Lib.pool (testEffects test') l') :
    accessVectors l test = accessVectors l' test' := by
  refine AccessVectors.ext_bits (fun b _ => ?_) (fun b _ => ?_) fun b hb => ?_
  · rw [accessVectors_allowed, accessVectors_allowed, h]
  · rw [accessVectors_auditallow, accessVectors_auditallow, h]
  · simp [accessVectors_auditdeny hb, h]

/-- The kinds of rules whose data are access vectors. -/
def avKinds : List (BitVec 16) := [avtabAllowed, avtabAuditallow, avtabAuditdeny]

/-- What is left of a datum when another is merged into it. -/
def mergeData (spec : BitVec 16) (old new : BitVec 32) : BitVec 32 :=
  if spec = avtabAuditdeny then old &&& new else old ||| new

/-- The enabled flag does not matter to effects. -/
theorem datumHas_specified (k : AvtabKey) (d : AvtabDatum) (e : Effect) :
    datumHas k.specified d e ↔ datumHas k.spec d e := by
  have hspec (x : BitVec 16) (hx : ~~~avtabEnabled &&& x = x) : k.specified &&& x = k.spec &&& x :=
    AvtabKey.specified_and hx
  have hxperms (x : XpermsKind) : k.specified &&& x.spec = k.spec &&& x.spec := by
    cases x <;> exact hspec _ (by decide)
  cases e with
  | allowed b => rw [datumHas, datumHas, hspec _ (by decide)]
  | auditallow b => rw [datumHas, datumHas, hspec _ (by decide)]
  | auditdeny b => rw [datumHas, datumHas, hspec _ (by decide)]
  | xpermsApply x => rw [datumHas, datumHas, hxperms]
  | xpermsGrant x driver func => rw [datumHas, datumHas, hxperms]

/-- A merged datum has the effects of both. -/
theorem datumHas_merge {spec} (hk : spec ∈ avKinds) {old new merged : AvtabDatum}
    (hmerged : merged.data = mergeData spec old.data new.data) (e : Effect) :
    datumHas spec merged e ↔ datumHas spec old e ∨ datumHas spec new e := by
  have hx (x : XpermsKind) : spec &&& x.spec = 0 := by
    have hall : avKinds.all (fun spec => spec &&& avtabXpermsAllowed == 0 &&
        spec &&& avtabXpermsAuditallow == 0 && spec &&& avtabXpermsDontaudit == 0) = true := by
          decide
    have hzero := List.all_eq_true.mp hall spec hk
    simp only [Bool.and_eq_true, beq_iff_eq] at hzero
    cases x with
    | allowed => exact hzero.1.1
    | auditallow => exact hzero.1.2
    | dontaudit => exact hzero.2
  have hor (hne : spec ≠ avtabAuditdeny) (b : Nat) : merged.data.getLsbD b = true ↔
      old.data.getLsbD b = true ∨ new.data.getLsbD b = true := by
    simp [hmerged, mergeData, if_neg hne]
  cases e with
  | allowed b =>
    rw [datumHas, datumHas, datumHas, ← and_or_left]
    refine and_congr_right fun hkind => hor ?_ b
    rintro rfl
    exact hkind (by decide)
  | auditallow b =>
    rw [datumHas, datumHas, datumHas, ← and_or_left]
    refine and_congr_right fun hkind => hor ?_ b
    rintro rfl
    exact hkind (by decide)
  | auditdeny b =>
    rw [datumHas, datumHas, datumHas, ← and_or_left, ← and_or_left]
    refine and_congr_right fun hkind => and_congr_right fun _ => ?_
    have hdeny : spec = avtabAuditdeny := by
      have hall : avKinds.all (fun spec => spec &&& avtabAuditdeny == 0 || spec == avtabAuditdeny) =
          true := by
        decide
      have hcase := List.all_eq_true.mp hall spec hk
      simp_all
    rw [hmerged, mergeData, if_pos hdeny, BitVec.getLsbD_and, Bool.and_eq_false_iff]
  | xpermsApply x => simp [datumHas, hx]
  | xpermsGrant x driver func => simp [datumHas, hx]

/-- A test that only looks at the source, the target and the class of a rule. -/
def KeyTest (test : AvtabNode → Bool) : Prop :=
  ∀ n m : AvtabNode, n.key.same m.key = true → test n = test m

theorem testEffects_merge {test} (htest : KeyTest test) {n node merged : AvtabNode}
    (hkind : n.key.spec ∈ avKinds) (halike : n.key.alike node.key = true)
    (hkey : merged.key = node.key)
    (hdata : merged.datum.data = mergeData n.key.spec node.datum.data n.datum.data) :
    testEffects test merged = testEffects test node ∪ testEffects test n := by
  obtain ⟨hsame, hspec⟩ := AvtabKey.alike_iff.mp halike
  have hrefl : merged.key.same node.key = true := by
    rw [hkey]
    exact (AvtabKey.alike_iff.mp node.key.alike_refl).1
  ext e
  simp only [testEffects, Set.mem_union, Set.mem_ofPred_eq, htest n node hsame,
    htest merged node hrefl,
    ← and_or_left]
  refine and_congr_right fun _ => ?_
  rw [datumHas_specified, datumHas_specified, datumHas_specified, hkey, ← hspec]
  exact datumHas_merge hkind hdata e

theorem isFor_keyTest (s t c : Nat) : KeyTest fun n => n.isFor s t c := by
  intro n m hsame
  obtain ⟨hsource, htarget, hclass⟩ := AvtabKey.same_iff.mp hsame
  simp only [AvtabNode.isFor, hsource, htarget, hclass]

/-- The effects of the rules for a pair of types and a class. -/
def keyEffects (s t c : Nat) : List AvtabNode → Set Effect :=
  Lib.pool (testEffects fun n => n.isFor s t c)

end SELinux.Sepol
