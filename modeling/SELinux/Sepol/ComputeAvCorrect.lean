import Mathlib.Data.Finset.Card
import SELinux.Sepol.ComputeAv
import SELinux.Sepol.ConstraintCorrect
import SELinux.Sepol.ValidateTypes

/-! What the security server allows. A permission is granted if a rule in force gives it,
no false constraint names it, the role check passes, and, where the source type is bounded,
the bounding pair is granted it too. On policies whose bounds have no cycle this is what
`context_struct_compute_av` returns; where the bounds run in a cycle it does not return. -/
namespace SELinux.Sepol

open Policydb List
open BitVec (getLsbD_and getLsbD_not lt_of_getLsbD)
open Bool (and_eq_true)

open Lib.Rpn

/-! ## The reference -/

section

variable (p : FullPolicydb) (s t : Context) (tclass b : Nat)

/-- A rule in force for the two types and the class gives the permission `b`: an
unconditional one, or an enabled conditional one. -/
def RuleGrants : Prop :=
  (∃ n ∈ p.teAvtab.nodes, n.appliesTo p.toPolicydb (s.type - 1) (t.type - 1) tclass = true ∧
    n.key.specified = avtabAllowed ∧ n.datum.data.getLsbD b = true) ∨
  ∃ n ∈ p.teCondAvtab.nodes, n.appliesTo p.toPolicydb (s.type - 1) (t.type - 1) tclass = true ∧
    (n.isKind avtabAllowed = true ∧ n.enabled = true) ∧ n.datum.data.getLsbD b = true

/-- The tree that the expression denotes is true of the two contexts. -/
def ConstraintNode.Holds (c : ConstraintNode) : Prop :=
  ∃ tree : CexprTree, tree.rpn = c.expr.map cexprSym ∧ tree.value (ordinary p s t none)

/-- The permission needs a role allow rule that is not there. -/
def RoleDenies : Prop :=
  tclass = p.processClass ∧ p.processTransDyntrans.getLsbD b = true ∧ s.role ≠ t.role ∧
    ∀ ra ∈ p.roleAllow, ¬ (ra.role = s.role ∧ ra.newRole = t.role)

/-- What is granted without regard to bounds. -/
def OwnGrants : Prop :=
  RuleGrants p s t tclass b ∧
  (∀ d, p.classStruct (tclass - 1) = some d → ∀ c ∈ d.constraints,
    c.permissions.getLsbD b = true → c.Holds p s t) ∧
  ¬ RoleDenies p s t tclass b

/-- The value of the bounding type, `0` if there is none. -/
def Policydb.boundOf (p : Policydb) (value : Nat) : Nat :=
  match p.typeStruct (value - 1) with
  | some d => d.bounds
  | none => 0

/-- The context with the bounding type, if there is one. -/
def Context.bounding (p : Policydb) (c : Context) : Context :=
  if p.boundOf c.type ≠ 0 then { c with type := p.boundOf c.type } else c

/-- Granted: what a bounded source is granted, its bounding pair is granted too. -/
inductive Granted : Context → Context → Prop
  | unbounded {s t : Context} (own : OwnGrants p s t tclass b) (h : p.boundOf s.type = 0) :
    Granted s t
  | bounded {s t : Context} (own : OwnGrants p s t tclass b) (h : p.boundOf s.type ≠ 0)
    (lower : Granted (s.bounding p.toPolicydb) (t.bounding p.toPolicydb)) :
    Granted s t

end

variable {p : FullPolicydb} {tclass i n v : Nat} {s t c : Context}

theorem granted_iff {b : Nat} :
    Granted p tclass b s t ↔ OwnGrants p s t tclass b ∧ (p.boundOf s.type ≠ 0 →
      Granted p tclass b (s.bounding p.toPolicydb) (t.bounding p.toPolicydb)) := by
  constructor
  · intro h
    cases h with
    | unbounded own h0 => exact ⟨own, fun h => absurd h0 h⟩
    | bounded own _ lower => exact ⟨own, fun _ => lower⟩
  · rintro ⟨own, hlower⟩
    by_cases h : p.boundOf s.type = 0
    · exact .unbounded own h
    · exact .bounded own h (hlower h)

/-! ## Rules -/

/-- The attributes of every type fit the fields of a rule key. -/
def Policydb.TypesFit (p : Policydb) : Prop := ∀ e ∈ p.typeAttrMap, ∀ i ∈ e.bits, i + 1 < 2 ^ 16

theorem Policydb.TypesFit.keyType {p : Policydb} (h : p.TypesFit) {t : Nat}
    (hi : i ∈ (p.typeAttrs t).bits) : keyType (i + 1) = i + 1 := by
  refine keyType_of_lt ?_
  rw [typeAttrs, getD_eq_getElem?_getD] at hi
  cases he : p.typeAttrMap[t]? with
  | none => simp [he] at hi
  | some e => exact h e (mem_of_getElem? he) i (by simpa [he] using hi)

theorem teComputeAv_allowed (avd : AvDecision) (n : AvtabNode) (b : Nat) :
    (teComputeAv avd n).allowed.getLsbD b = true ↔ avd.allowed.getLsbD b = true ∨
      (n.key.specified = avtabAllowed ∧ n.datum.data.getLsbD b = true) := by
  unfold teComputeAv
  split_ifs with h <;> simp [h]

theorem isEnabled_allowed (n : AvtabNode) :
    n.isEnabled avtabAllowed = true ↔ n.isKind avtabAllowed = true ∧ n.enabled = true := by
  have hbits : avtabAllowed = BitVec.twoPow 16 0 ∧ avtabEnabled = BitVec.twoPow 16 15 := by decide
  simp only [AvtabNode.isEnabled, AvtabNode.isKind, AvtabNode.enabled, bne_iff_ne, beq_iff_eq,
    hbits]
  rw [and_twoPow_ne_zero (by decide), and_twoPow_ne_zero (by decide)]
  constructor
  · intro h
    have h0 := congrArg (fun v => v.getLsbD 0) h
    have h15 := congrArg (fun v => v.getLsbD 15) h
    simpa using And.intro h0 h15
  · rintro ⟨h0, h15⟩
    refine BitVec.eq_of_getLsbD_eq fun i hi => ?_
    by_cases hi0 : 0 = i
    · subst hi0
      simp [h0]
    · by_cases hi15 : 15 = i
      · subst hi15
        simp [h15]
      · simp [hi0, hi15]

theorem condComputeAv_allowed (avd : AvDecision) (n : AvtabNode) (b : Nat) :
    (condComputeAv avd n).allowed.getLsbD b = true ↔ avd.allowed.getLsbD b = true ∨
      ((n.isKind avtabAllowed = true ∧ n.enabled = true) ∧ n.datum.data.getLsbD b = true) := by
  rw [← isEnabled_allowed]
  simp only [condComputeAv]
  split_ifs with h <;> simp [h]

theorem exists_searchNodes {t : Avtab} (ht : t.Wf) {source target : Nat}
    {P : AvtabNode → Prop} (hP : ∀ n, P n → avtabAv &&& n.key.specified ≠ 0) :
    (∃ n ∈ avtabSearchNodes t ⟨source, target, tclass, avtabAv⟩, P n) ↔
    ∃ n ∈ t.nodes, (n.key.sourceType = source ∧ n.key.targetType = target ∧
      n.key.targetClass = tclass) ∧ P n := by
  have hspec : (⟨source, target, tclass, avtabAv⟩ : AvtabKey).spec = avtabAv :=
    (by decide : avtabAv &&& ~~~avtabEnabled = avtabAv)
  rw [ht.searchNodes_eq, hspec]
  simp only [mem_filter, AvtabKey.hits_iff, AvtabKey.same_iff]
  refine exists_congr fun n => ⟨?_, ?_⟩
  · simp_all
  · simp_all

theorem appliesTo_iff {p : Policydb} {n : AvtabNode} {s t : Nat} :
    n.appliesTo p s t tclass = true ↔ ∃ i ∈ (p.typeAttrs s).bits, ∃ j ∈ (p.typeAttrs t).bits,
      n.key.sourceType = i + 1 ∧ n.key.targetType = j + 1 ∧ n.key.targetClass = tclass := by
  have hcovers : ∀ v t, p.covers v t = true ↔ ∃ i ∈ (p.typeAttrs t).bits, v = i + 1 := by
    intro v t
    simp only [covers, and_eq_true, decide_eq_true_eq, ebitmapGetBit_eq_true]
    constructor
    · rintro ⟨hv, hbit⟩
      exact ⟨v - 1, hbit, by omega⟩
    · simp_all
  simp only [AvtabNode.appliesTo, and_eq_true, hcovers, beq_iff_eq]
  constructor
  · rintro ⟨⟨⟨i, hi, hs⟩, j, hj, ht⟩, hc⟩
    exact ⟨i, hi, j, hj, hs, ht, hc⟩
  · rintro ⟨i, hi, j, hj, hs, ht, hc⟩
    exact ⟨⟨⟨i, hi, hs⟩, j, hj, ht⟩, hc⟩

section Rules

variable (hte : p.teAvtab.Wf) (hcond : p.teCondAvtab.Wf)
include hte hcond

theorem pairComputeAv_allowed (tclass i j : Nat) (avd : AvDecision) (b : Nat) :
    (pairComputeAv p tclass i j avd).allowed.getLsbD b = true ↔ avd.allowed.getLsbD b = true ∨
      ((∃ n ∈ p.teAvtab.nodes, (n.key.sourceType = keyType (i + 1) ∧
        n.key.targetType = keyType (j + 1) ∧ n.key.targetClass = tclass) ∧
        n.key.specified = avtabAllowed ∧ n.datum.data.getLsbD b = true) ∨
      ∃ n ∈ p.teCondAvtab.nodes, (n.key.sourceType = keyType (i + 1) ∧
        n.key.targetType = keyType (j + 1) ∧ n.key.targetClass = tclass) ∧
          (n.isKind avtabAllowed = true ∧ n.enabled = true) ∧ n.datum.data.getLsbD b = true) := by
  have hallowed : avtabAv &&& avtabAllowed ≠ 0 := by decide
  rw [pairComputeAv,
    Lib.foldl_iff_exists (P := fun avd : AvDecision => avd.allowed.getLsbD b = true)
      fun n _ avd => condComputeAv_allowed avd n b,
    Lib.foldl_iff_exists (P := fun avd : AvDecision => avd.allowed.getLsbD b = true)
      fun n _ avd => teComputeAv_allowed avd n b,
    exists_searchNodes hte, exists_searchNodes hcond, or_assoc]
  · rintro n ⟨⟨hkind, -⟩, -⟩ h0
    -- the bit for `allow` is among those searched for
    simp only [AvtabNode.isKind, bne_iff_ne] at hkind
    refine hkind ?_
    have hsub : avtabAllowed = avtabAv &&& avtabAllowed := by decide
    rw [hsub, ← BitVec.and_assoc, BitVec.and_comm n.key.specified, h0]
    simp
  · rintro n ⟨hspec, -⟩
    rwa [hspec]

theorem rulesComputeAv_allowed (hfit : p.TypesFit) (s t : Context) (tclass b : Nat) :
    (rulesComputeAv p s t tclass).allowed.getLsbD b = true ↔ RuleGrants p s t tclass b := by
  rw [rulesComputeAv,
    Lib.foldl_iff_exists (P := fun avd : AvDecision => avd.allowed.getLsbD b = true)
      fun i _ avd =>
        Lib.foldl_iff_exists (P := fun avd : AvDecision => avd.allowed.getLsbD b = true)
        (fun j _ avd => pairComputeAv_allowed hte hcond tclass i j avd b) avd]
  simp only [RuleGrants, appliesTo_iff, show (0 : BitVec 32).getLsbD b = false by simp,
    Bool.false_eq_true, false_or]
  constructor
  · rintro ⟨i, hi, j, hj, h⟩
    rw [hfit.keyType hi, hfit.keyType hj] at h
    rcases h with ⟨n, hn, hkey, hrule⟩ | ⟨n, hn, hkey, hrule⟩
    · exact .inl ⟨n, hn, ⟨i, hi, j, hj, hkey⟩, hrule⟩
    · exact .inr ⟨n, hn, ⟨i, hi, j, hj, hkey⟩, hrule⟩
  · rintro (⟨n, hn, ⟨i, hi, j, hj, hkey⟩, hrule⟩ | ⟨n, hn, ⟨i, hi, j, hj, hkey⟩, hrule⟩)
    all_goals refine ⟨i, hi, j, hj, ?_⟩; rw [hfit.keyType hi, hfit.keyType hj]
    · exact .inl ⟨n, hn, hkey, hrule⟩
    · exact .inr ⟨n, hn, hkey, hrule⟩

end Rules

/-! ## Constraints and roles -/

theorem removeConstrained_ok {p s t cons}
    (hcons : ∀ c ∈ cons, ∃ value text, constraintExprEvalReason p s t none c.expr =
      .ok (value, text) ∧ (value = true ↔ c.Holds p s t)) (allowed : BitVec 32) :
    ∃ allowed', removeConstrained p s t cons allowed = .ok allowed' ∧
      ∀ b, allowed'.getLsbD b = true ↔ allowed.getLsbD b = true ∧
        ∀ c ∈ cons, c.permissions.getLsbD b = true → c.Holds p s t := by
  induction cons generalizing allowed with
  | nil => exact ⟨allowed, rfl, by simp⟩
  | cons c cons ih =>
    obtain ⟨value, text, heval, hvalue⟩ := hcons c (by simp)
    -- the constraint removes its permissions if it is false
    obtain ⟨denied, hdenied, hbit⟩ : ∃ denied, constraintDenies p s t allowed c = .ok denied ∧
        ∀ b, (if denied then allowed &&& ~~~c.permissions else allowed).getLsbD b = true ↔
          allowed.getLsbD b = true ∧ (c.permissions.getLsbD b = true → c.Holds p s t) := by
      unfold constraintDenies
      split_ifs with hoverlap
      · refine ⟨!value, by rw [heval]; rfl, fun b => ?_⟩
        rw [← hvalue]
        cases value with
        | true => simp
        | false =>
          simp only [Bool.not_false, if_true, getLsbD_and, getLsbD_not,
            and_eq_true, decide_eq_true_eq, Bool.not_eq_true', Bool.false_eq_true, imp_false,
            Bool.not_eq_true]
          exact ⟨fun h => ⟨h.1, h.2.2⟩, fun h => ⟨h.1, lt_of_getLsbD h.1, h.2⟩⟩
      · refine ⟨false, rfl, fun b => ?_⟩
        simp only [Bool.false_eq_true, if_false]
        refine ⟨fun ha => ⟨ha, fun hp => absurd ?_ hoverlap⟩, fun h => h.1⟩
        intro h0
        have := congrArg (fun v => v.getLsbD b) h0
        simp [ha, hp] at this
    obtain ⟨allowed', hrest, hbits⟩ := ih (fun c hc => hcons c (by simp [hc]))
      (if denied then allowed &&& ~~~c.permissions else allowed)
    refine ⟨allowed', ?_, fun b => ?_⟩
    · rw [removeConstrained, hdenied]
      exact hrest
    · rw [hbits, hbit]
      simp [and_assoc]

theorem removeTransition_allowed (p : FullPolicydb) (s t : Context) (tclass : Nat)
    (allowed : BitVec 32) (b : Nat) : (removeTransition p s t tclass allowed).getLsbD b = true ↔
      allowed.getLsbD b = true ∧ ¬ RoleDenies p s t tclass b := by
  have hrole : roleAllowed p s t = false ↔
      ∀ ra ∈ p.roleAllow, ¬ (ra.role = s.role ∧ ra.newRole = t.role) := by
    simp only [roleAllowed, any_eq_false, and_eq_true, beq_iff_eq]
    exact forall₂_congr fun ra _ => by rw [eq_comm, @eq_comm _ t.role]
  unfold removeTransition RoleDenies
  rw [← hrole]
  split_ifs with h
  · obtain ⟨hclass, -, hne, hnot⟩ := h
    simp only [Bool.not_eq_true'] at hnot
    simp only [getLsbD_and, getLsbD_not, and_eq_true, decide_eq_true_eq,
      Bool.not_eq_true', hclass, hne, hnot, ne_eq, not_false_eq_true, and_true, true_and,
      Bool.not_eq_true]
    exact ⟨fun h => ⟨h.1, h.2.2⟩, fun h => ⟨h.1, lt_of_getLsbD h.1, h.2⟩⟩
  · refine ⟨fun ha => ⟨ha, ?_⟩, fun ha => ha.1⟩
    rintro ⟨hclass, hp, hne, hnot⟩
    refine h ⟨hclass, fun h0 => ?_, hne, by simp [hnot]⟩
    have := congrArg (fun v => v.getLsbD b) h0
    simp [ha, hp] at this

/-! ## One call -/

/-- What reading a policy promises the security server: the tables are well-formed, the
role `object_r` is there, and the constraints were read and are valid. -/
structure Loaded (p : FullPolicydb) : Prop where
  te : p.teAvtab.Wf
  cond : p.teCondAvtab.Wf
  objectR : (p.roleStruct (objectRVal - 1)).isSome = true
  constraints : ∀ i d, p.classStruct i = some d → ∃ n fp fp' nperms flavors,
    readConsHelper p.toPolicydb false n fp = some (d.constraints, fp') ∧
    validateConstraintNodes nperms d.constraints flavors = true

theorem Loaded.eval (hp : Loaded p) (hs : (p.roleStruct (s.role - 1)).isSome = true)
    (ht : (p.roleStruct (t.role - 1)).isSome = true)
    {d : ClassDatum} (hd : p.classStruct i = some d) :
    ∀ c ∈ d.constraints, ∃ value text, constraintExprEvalReason p s t none c.expr =
      .ok (value, text) ∧ (value = true ↔ c.Holds p s t) := by
  intro c hc
  obtain ⟨n, fp, fp', nperms, flavors, hread, hvalid⟩ := hp.constraints i d hd
  obtain ⟨hdepth, hnox⟩ := readConsHelper_depth hread c hc
  have hsound := sound_of_validNode (x := none) hs ht hvalid hc fun ⟨e, he, hx⟩ => by
    rw [hnox rfl e he] at hx
    cases hx
  obtain ⟨tree, htree, heval⟩ := constraintExprEvalReason_ok hsound hdepth
  refine ⟨_, _, heval, ?_⟩
  rw [computed_iff_ordinary hsound htree]
  constructor
  · exact fun h => ⟨tree, htree, h⟩
  · rintro ⟨other, hother, h⟩
    rwa [Tree.rpn_injective (hother.trans htree.symm)] at h

/-- A call up to the bounds. -/
theorem computeOwn_ok (hp : Loaded p) (hs : (p.roleStruct (s.role - 1)).isSome = true)
    (ht : (p.roleStruct (t.role - 1)).isSome = true)
    (hpos : 0 < tclass) (hclass : (p.classStruct (tclass - 1)).isSome = true)
    (requested : BitVec 32) : ∃ avd r, computeOwn p s t tclass requested = .ok (avd, r) ∧
      (p.TypesFit → ∀ b, avd.allowed.getLsbD b = true ↔ OwnGrants p s t tclass b) := by
  obtain ⟨d, hd⟩ := Option.isSome_iff_exists.mp hclass
  obtain ⟨allowed, hallowed, hbits⟩ := removeConstrained_ok (hp.eval hs ht hd)
    (rulesComputeAv p s t tclass).allowed
  have hrange : ¬ (tclass = 0 ∨ p.classesNprim < tclass) := by
    have hlt : tclass - 1 < p.classValToStruct.length := by
      by_contra hge
      rw [FullPolicydb.classStruct, getD_eq_getElem?_getD,
        getElem?_eq_none (Nat.le_of_not_lt hge)] at hd
      cases hd
    rw [FullPolicydb.classesNprim]
    omega
  obtain ⟨r, hown⟩ : ∃ r, computeOwn p s t tclass requested =
      .ok ({ rulesComputeAv p s t tclass with allowed := removeTransition p s t tclass allowed },
        r) := by
    simp [computeOwn, if_neg hrange, hd, hallowed]
  refine ⟨_, r, hown, fun hfit b => ?_⟩
  rw [removeTransition_allowed, hbits, rulesComputeAv_allowed hp.te hp.cond hfit, OwnGrants,
    and_assoc]
  simp [hd]

/-! ## Bounds -/

/-- The bounding types that a policy names are there. -/
def BoundsDefined (p : Policydb) : Prop :=
  ∀ i d, p.typeStruct i = some d → d.bounds ≠ 0 → (p.typeStruct (d.bounds - 1)).isSome = true

/-- Following the bounds from a type reaches one without bounds. -/
inductive BoundsEnd (p : Policydb) : Nat → Prop
  | top {value : Nat} (h : p.boundOf value = 0) : BoundsEnd p value
  | up {value : Nat} (h : BoundsEnd p (p.boundOf value)) : BoundsEnd p value

theorem boundingPair_eq (hs : (p.typeStruct (s.type - 1)).isSome = true)
    (ht : (p.typeStruct (t.type - 1)).isSome = true) :
    boundingPair p s t = .ok (if p.boundOf s.type = 0 then none
      else some (s.bounding p.toPolicydb, t.bounding p.toPolicydb)) := by
  obtain ⟨source, hsource⟩ := Option.isSome_iff_exists.mp hs
  obtain ⟨target, htarget⟩ := Option.isSome_iff_exists.mp ht
  have hboundS : p.boundOf s.type = source.bounds := by simp [boundOf, hsource]
  have hboundT : p.boundOf t.type = target.bounds := by simp [boundOf, htarget]
  simp only [boundingPair, hsource, htarget, Context.bounding, hboundS, hboundT]
  split_ifs <;> rfl

theorem bounding_defined {p : Policydb} (hdef : BoundsDefined p)
    (hc : (p.typeStruct (c.type - 1)).isSome = true) :
    (p.typeStruct ((c.bounding p).type - 1)).isSome = true := by
  obtain ⟨d, hd⟩ := Option.isSome_iff_exists.mp hc
  have hbound : p.boundOf c.type = d.bounds := by simp [boundOf, hd]
  unfold Context.bounding
  split_ifs with h
  · rw [hbound] at h ⊢
    exact hdef _ d hd h
  · exact hc

@[simp] theorem bounding_role (p : Policydb) (c : Context) : (c.bounding p).role = c.role := by
  unfold Context.bounding
  split_ifs <;> rfl

theorem bounding_type {p : Policydb} (h : p.boundOf c.type ≠ 0) :
    (c.bounding p).type = p.boundOf c.type := by
  rw [Context.bounding, if_pos h]

/-- A pair of contexts whose types and roles are known to the policy. -/
structure Known (p : FullPolicydb) (s t : Context) : Prop where
  sourceType : (p.typeStruct (s.type - 1)).isSome = true
  targetType : (p.typeStruct (t.type - 1)).isSome = true
  sourceRole : (p.roleStruct (s.role - 1)).isSome = true
  targetRole : (p.roleStruct (t.role - 1)).isSome = true

theorem Known.bounding (hdef : BoundsDefined p.toPolicydb)
    (h : Known p s t) : Known p (s.bounding p.toPolicydb) (t.bounding p.toPolicydb) :=
  ⟨bounding_defined hdef h.sourceType, bounding_defined hdef h.targetType,
    by simpa using h.sourceRole, by simpa using h.targetRole⟩

theorem maskAv_allowed (avd : AvDecision) (reason lower : BitVec 32) (b : Nat) :
    (maskAv avd reason lower).1.allowed.getLsbD b = true ↔
      avd.allowed.getLsbD b = true ∧ lower.getLsbD b = true := by
  unfold maskAv
  dsimp only
  split_ifs with h
  · refine ⟨fun ha => ⟨ha, ?_⟩, fun ha => ha.1⟩
    have hbit := congrArg (fun v => v.getLsbD b) h
    simp only [getLsbD_and, getLsbD_not, ha, lt_of_getLsbD ha] at hbit
    simpa using hbit
  · simp only [getLsbD_and, getLsbD_not, and_eq_true, decide_eq_true_eq]
    refine and_congr_right fun ha => ?_
    simp [ha, lt_of_getLsbD ha]

section Calls

variable (hp : Loaded p) (hpos : 0 < tclass) (hclass : (p.classStruct (tclass - 1)).isSome = true)
include hp hpos hclass

theorem contextStructComputeAv_succ (h : Known p s t) (calls : Nat) (requested : BitVec 32) :
    ∃ (avd : AvDecision) (r : Request),
      (p.TypesFit → ∀ b, avd.allowed.getLsbD b = true ↔ OwnGrants p s t tclass b) ∧
      contextStructComputeAv p (calls + 1) s t tclass requested =
        if p.boundOf s.type = 0 then .ok (avd, r.reason)
        else (lowerAllowed (contextStructComputeAv p calls (s.bounding p.toPolicydb)
          (t.bounding p.toPolicydb) tclass r.requested)).map (maskAv avd r.reason) := by
  obtain ⟨avd, r, hown, hbits⟩ := computeOwn_ok hp h.sourceRole h.targetRole hpos hclass requested
  refine ⟨avd, r, hbits, ?_⟩
  rw [contextStructComputeAv, hown, boundingPair_eq h.sourceType h.targetType]
  by_cases h0 : p.boundOf s.type = 0
  · simp only [if_pos h0]
    rfl
  · simp only [if_neg h0]
    rfl

/-- Without bounds one call is enough. -/
theorem contextStructComputeAv_of_unbounded (h0 : p.boundOf s.type = 0)
    (h : Known p s t) (more : Nat) (requested : BitVec 32) :
    ∃ avd reason, contextStructComputeAv p (1 + more) s t tclass requested = .ok (avd, reason) ∧
      (p.TypesFit → ∀ b, avd.allowed.getLsbD b = true ↔ Granted p tclass b s t) := by
  obtain ⟨avd, r, hbits, hcall⟩ := contextStructComputeAv_succ hp hpos hclass h more requested
  rw [if_pos h0] at hcall
  refine ⟨avd, r.reason, by rw [Nat.add_comm]; exact hcall, fun hfit b => ?_⟩
  rw [hbits hfit, granted_iff]
  simp [h0]

/-- Where the bounds end, enough calls give what is granted. -/
theorem contextStructComputeAv_of_end (hdef : BoundsDefined p.toPolicydb)
    (hend : BoundsEnd p.toPolicydb s.type) (h : Known p s t) :
    ∃ calls, ∀ more requested, ∃ avd reason,
      contextStructComputeAv p (calls + more) s t tclass requested = .ok (avd, reason) ∧
      (p.TypesFit → ∀ b, avd.allowed.getLsbD b = true ↔ Granted p tclass b s t) := by
  generalize hv : s.type = v at hend
  induction hend generalizing s t with
  | top h0 => exact ⟨1, contextStructComputeAv_of_unbounded hp hpos hclass (hv ▸ h0) h⟩
  | @up value _ ih =>
    by_cases h0 : p.boundOf s.type = 0
    · exact ⟨1, contextStructComputeAv_of_unbounded hp hpos hclass h0 h⟩
    · obtain ⟨calls, hlower⟩ := ih (h.bounding hdef) (by rw [bounding_type h0, hv])
      refine ⟨calls + 1, fun more requested => ?_⟩
      obtain ⟨avd, r, hbits, hcall⟩ :=
        contextStructComputeAv_succ hp hpos hclass h (calls + more) requested
      obtain ⟨loAvd, loReason, hlo, hlobits⟩ := hlower more r.requested
      rw [if_neg h0, hlo] at hcall
      refine ⟨(maskAv avd r.reason loAvd.allowed).1, (maskAv avd r.reason loAvd.allowed).2,
        by rw [Nat.add_right_comm]; exact hcall, fun hfit b => ?_⟩
      rw [maskAv_allowed, hbits hfit, hlobits hfit, granted_iff (s := s) (t := t)]
      simp [h0]

/-- Where they do not end, no number of calls is enough. -/
theorem contextStructComputeAv_running (hdef : BoundsDefined p.toPolicydb)
    (hend : ¬ BoundsEnd p.toPolicydb s.type) (h : Known p s t) (calls : Nat)
    (requested : BitVec 32) :
    contextStructComputeAv p calls s t tclass requested = .error .running := by
  induction calls generalizing s t requested with
  | zero => rfl
  | succ calls ih =>
    have h0 : p.boundOf s.type ≠ 0 := fun h0 => hend (.top h0)
    have hlower : ¬ BoundsEnd p.toPolicydb (s.bounding p.toPolicydb).type := by
      rw [bounding_type h0]
      exact fun h => hend (.up h)
    obtain ⟨avd, r, -, hcall⟩ := contextStructComputeAv_succ hp hpos hclass h calls requested
    rw [hcall, if_neg h0, ih hlower (h.bounding hdef)]
    rfl

end Calls

/-- The type with value `v` is bounded by that with value `w`. -/
def BoundedBy (p : Policydb) (v w : Nat) : Prop := p.boundOf v = w ∧ w ≠ 0

def BoundsAcyclic (p : Policydb) : Prop := ∀ v, ¬ Relation.TransGen (BoundedBy p) v v

/-- Without a cycle the bounds end: with each step there are fewer types ahead. -/
theorem BoundsAcyclic.boundsEnd {p} (h : BoundsAcyclic p) (v : Nat) : BoundsEnd p v := by
  classical
  generalize hn : ((Finset.range (p.nprim + 1)).filter (Relation.TransGen (BoundedBy p) v)).card = n
  induction n using Nat.strong_induction_on generalizing v with
  | _ n ih =>
    by_cases h0 : p.boundOf v = 0
    · exact .top h0
    · have hstep : BoundedBy p v (p.boundOf v) := ⟨rfl, h0⟩
      refine .up ?_
      by_cases hw : p.boundOf v ∈ Finset.range (p.nprim + 1)
      · refine ih _ ?_ _ rfl
        rw [← hn]
        refine Finset.card_lt_card (Finset.ssubset_iff_of_subset ?_ |>.mpr ⟨p.boundOf v, ?_, ?_⟩)
        · exact Finset.monotone_filter_right _ fun w _ hw => hw.head hstep
        · exact Finset.mem_filter.mpr ⟨hw, .single hstep⟩
        · exact fun hmem => h _ (Finset.mem_filter.mp hmem).2
      · -- a value past the end is that of no type
        refine .top ?_
        rw [Finset.mem_range] at hw
        have hnone : p.typeStruct (p.boundOf v - 1) = none := by
          rw [nprim] at hw
          rw [typeStruct, getD_eq_getElem?_getD, getElem?_eq_none (by omega)]
          rfl
        rw [boundOf, hnone]

theorem Accepted.boundsDefined {flavors} (h : Accepted p flavors) : BoundsDefined p.toPolicydb := by
  intro i d hd hne
  have htypes := h.entries
  simp only [validateDatumArrayEntries, and_eq_true] at htypes
  have hget : p.typeValToStruct[i]? = some (some d) := by
    rw [typeStruct, getD_eq_getElem?_getD] at hd
    cases hc : p.typeValToStruct[i]? with
    | none => simp [hc] at hd
    | some o => simpa [hc] using hd
  have hdatum := all_eq_true.mp htypes.1.1.2 (some d, i) (by
    rw [mk_mem_zipIdx_iff_getElem?]
    exact hget)
  simp only [Option.all_some, validateTypeDatum, and_eq_true] at hdatum
  have hflavor := hdatum.1.2
  have hbounds : validateSimpletype d.bounds p flavors = true := by
    cases hf : d.flavor with
    | attrib => simp [hf, hne] at hflavor
    | type =>
      simp only [hf, and_eq_true, Bool.or_eq_true, beq_iff_eq, hne, false_or] at hflavor
      exact hflavor.2
    | «alias» =>
      simp only [hf, and_eq_true, Bool.or_eq_true, beq_iff_eq, hne, false_or] at hflavor
      exact hflavor.2
  have htype := ((h.simpletype_iff _).mp hbounds).2
  unfold isType at htype
  cases ho : p.typeStruct (d.bounds - 1) with
  | none => simp [ho] at htype
  | some o => rfl

/-! ## Results -/

theorem Known.of_valid (hp : Loaded p)
    (hs : contextIsValid p s = true) (ht : contextIsValid p t = true)
    (hstype : (p.typeStruct (s.type - 1)).isSome = true)
    (httype : (p.typeStruct (t.type - 1)).isSome = true) : Known p s t :=
  ⟨hstype, httype, contextIsValid_role hs hp.objectR, contextIsValid_role ht hp.objectR⟩

/-- On a policy whose types fit the rule keys and whose bounds have no cycle,
`context_struct_compute_av` returns what is granted, and a bounded source gets nothing that
the bounding pair does not get. -/
theorem contextStructComputeAv_grants {p : FullPolicydb} (hp : Loaded p) (hfit : p.TypesFit)
    (hdef : BoundsDefined p.toPolicydb) (hacyclic : BoundsAcyclic p.toPolicydb) {s t : Context}
    (hs : contextIsValid p s = true) (ht : contextIsValid p t = true)
    (hstype : (p.typeStruct (s.type - 1)).isSome = true)
    (httype : (p.typeStruct (t.type - 1)).isSome = true) {tclass : Nat} (hpos : 0 < tclass)
    (hclass : (p.classStruct (tclass - 1)).isSome = true) (requested : BitVec 32) :
    ∃ calls, ∀ more, ∃ avd reason,
      contextStructComputeAv p (calls + more) s t tclass requested = .ok (avd, reason) ∧
      (∀ b, avd.allowed.getLsbD b = true ↔ Granted p tclass b s t) ∧
      (p.boundOf s.type ≠ 0 → ∃ loAvd loReason,
        contextStructComputeAv p (calls + more) (s.bounding p.toPolicydb) (t.bounding p.toPolicydb)
          tclass requested = .ok (loAvd, loReason) ∧
        ∀ b, avd.allowed.getLsbD b = true → loAvd.allowed.getLsbD b = true) := by
  have hknown := Known.of_valid hp hs ht hstype httype
  obtain ⟨calls, hcalls⟩ :=
    contextStructComputeAv_of_end hp hpos hclass hdef (hacyclic.boundsEnd _) hknown
  obtain ⟨loCalls, hloCalls⟩ :=
    contextStructComputeAv_of_end hp hpos hclass hdef (hacyclic.boundsEnd _) (hknown.bounding hdef)
  refine ⟨calls + loCalls, fun more => ?_⟩
  obtain ⟨avd, reason, hcall, hbits⟩ := hcalls (loCalls + more) requested
  obtain ⟨loAvd, loReason, hlo, hlobits⟩ := hloCalls (calls + more) requested
  refine ⟨avd, reason, by rw [Nat.add_assoc]; exact hcall, hbits hfit, fun hbound => ?_⟩
  refine ⟨loAvd, loReason, by rw [Nat.add_comm calls, Nat.add_assoc]; exact hlo, fun b hb => ?_⟩
  exact (hlobits hfit b).mpr ((granted_iff.mp ((hbits hfit b).mp hb)).2 hbound)

/-- A policy whose first type is bounded by the second, which is not given the second
permission. The class has the constraint `not (u1 == u2)` on its first permission. -/
def boundedPolicydb : FullPolicydb where
  typeValToStruct := [some { bounds := 2 }, some {}]
  typeAttrMap := [.ofList [0], .ofList [1]]
  teAvtab := avtabOf
    [(⟨1, 1, 1, avtabAllowed⟩, { data := 3 }), (⟨2, 2, 1, avtabAllowed⟩, { data := 1 })]
  roleValToStruct := [some { value := 1 }]
  users := { nprim := 2 }
  classValToStruct :=
    [some { value := 1, constraints :=
      [{ permissions := 1, expr := [⟨4, 1, 1, ∅, {}⟩, ⟨1, 0, 0, ∅, {}⟩] }] }]

theorem boundedPolicydb_loaded : Loaded boundedPolicydb := by
  refine ⟨avtabOf_wf _, ⟨by simp [boundedPolicydb], by simp [boundedPolicydb]⟩, rfl, fun i d hd =>
    ?_⟩
  refine ⟨1, otherUserFile, [], 1, {}, ?_⟩
  have hd' : d = { value := 1, constraints :=
      [{ permissions := 1, expr := [⟨4, 1, 1, ∅, {}⟩, ⟨1, 0, 0, ∅, {}⟩] }] } := by
    cases i with
    | zero => exact (Option.some_inj.mp hd).symm
    | succ i => simp [FullPolicydb.classStruct, boundedPolicydb] at hd
  subst hd'
  exact ⟨by decide +kernel, by decide⟩

theorem boundedPolicydb_bounds (h : boundedPolicydb.boundOf v ≠ 0) :
    v ≤ 1 ∧ boundedPolicydb.boundOf v = 2 := by
  match v with
  | 0 => exact ⟨by decide, rfl⟩
  | 1 => exact ⟨by decide, rfl⟩
  | 2 => exact absurd rfl h
  | v + 3 => simp [boundOf, typeStruct, boundedPolicydb] at h

theorem contextStructComputeAv_grants_bounded : ∃ calls avd reason,
      contextStructComputeAv boundedPolicydb calls ⟨1, 1, 1, {}⟩ ⟨2, 1, 1, {}⟩ 1 3 =
        .ok (avd, reason) ∧ ∀ b, avd.allowed.getLsbD b = true ↔
        Granted boundedPolicydb 1 b ⟨1, 1, 1, {}⟩ ⟨2, 1, 1, {}⟩ := by
  have hdef : BoundsDefined boundedPolicydb.toPolicydb := by
    intro i d hd hne
    match i with
    | 0 => cases hd; rfl
    | 1 => cases hd; exact absurd rfl hne
    | i + 2 => simp [Policydb.typeStruct, boundedPolicydb] at hd
  have hacyclic : BoundsAcyclic boundedPolicydb.toPolicydb := by
    intro v hv
    -- a type on a cycle is bounded, and it is the bound of another one
    obtain ⟨_, hup, -⟩ := Relation.TransGen.head'_iff.mp hv
    obtain ⟨_, -, hdown⟩ := Relation.TransGen.tail'_iff.mp hv
    have hle := (boundedPolicydb_bounds (hup.1 ▸ hup.2)).1
    have htwo := (boundedPolicydb_bounds (hdown.1 ▸ hdown.2)).2
    rw [hdown.1] at htwo
    omega
  obtain ⟨calls, hcalls⟩ := contextStructComputeAv_grants boundedPolicydb_loaded
    (by unfold Policydb.TypesFit; decide) hdef hacyclic (s := ⟨1, 1, 1, {}⟩) (t := ⟨2, 1, 1, {}⟩)
    (by decide) (by decide) rfl rfl Nat.one_pos rfl 3
  obtain ⟨avd, reason, hcall, hbits, -⟩ := hcalls 0
  exact ⟨calls, avd, reason, hcall, hbits⟩

/-- A policy with `n` types, each its own only attribute. Type `1` is allowed the first
permission on itself. -/
def manyTypePolicydb (n : Nat) : FullPolicydb where
  typeValToStruct := replicate n (some {})
  typeAttrMap := (range n).map fun i => .ofList [i]
  teAvtab := avtabOf [(⟨1, 1, 1, avtabAllowed⟩, { data := 1 })]
  roleValToStruct := [some { value := 1 }]
  users := { nprim := 1 }
  classValToStruct := [some { value := 1 }]

theorem manyTypePolicydb_typeStruct (h : i < n) : (manyTypePolicydb n).typeStruct i = some {} := by
  simp [typeStruct, manyTypePolicydb, h]

theorem manyTypePolicydb_typeAttrs (h : i < n) :
    (manyTypePolicydb n).typeAttrs i = .ofList [i] := by
  simp [typeAttrs, manyTypePolicydb, h]

theorem manyTypePolicydb_boundOf (n v : Nat) : (manyTypePolicydb n).boundOf v = 0 := by
  by_cases h : v - 1 < n
  · simp [boundOf, manyTypePolicydb_typeStruct h]
  · simp [boundOf, typeStruct, manyTypePolicydb, h]

theorem manyTypePolicydb_valid (hpos : 0 < v) (h : v ≤ n) :
    contextIsValid (manyTypePolicydb n) ⟨1, 1, v, {}⟩ = true := by
  have hnprim : (manyTypePolicydb n).nprim = n := length_replicate
  have hv : decide (v ≠ 0) = true := decide_eq_true (Nat.pos_iff_ne_zero.mp hpos)
  simp only [contextIsValid, hnprim, h, hv]
  rfl

theorem manyTypePolicydb_loaded (n : Nat) : Loaded (manyTypePolicydb n) := by
  refine ⟨avtabOf_wf _, avtabAlloc_wf 0, rfl, fun i d hd => ⟨0, [], [], 0, {}, ?_⟩⟩
  cases i with
  | zero => cases hd; exact ⟨rfl, rfl⟩
  | succ i => simp [FullPolicydb.classStruct, manyTypePolicydb] at hd

/-- With more types than a rule key can name, one of them is allowed what the rule gives to
type `1`. -/
theorem contextStructComputeAv_wide_type :
    Loaded (manyTypePolicydb 65537) ∧ BoundsDefined (manyTypePolicydb 65537).toPolicydb ∧
    BoundsAcyclic (manyTypePolicydb 65537).toPolicydb ∧
    contextIsValid (manyTypePolicydb 65537) ⟨1, 1, 65537, {}⟩ = true ∧
    contextIsValid (manyTypePolicydb 65537) ⟨1, 1, 1, {}⟩ = true ∧
    ∃ avd reason, (∀ calls, contextStructComputeAv (manyTypePolicydb 65537) (calls + 1)
        ⟨1, 1, 65537, {}⟩ ⟨1, 1, 1, {}⟩ 1 1 = .ok (avd, reason)) ∧ avd.allowed.getLsbD 0 = true ∧
      ¬ Granted (manyTypePolicydb 65537) 1 0 ⟨1, 1, 65537, {}⟩ ⟨1, 1, 1, {}⟩ := by
  have hwide : (manyTypePolicydb 65537).typeAttrs ((⟨1, 1, 65537, {}⟩ : Context).type - 1) =
      .ofList [65536] := manyTypePolicydb_typeAttrs (by decide)
  have hfirst : (manyTypePolicydb 65537).typeAttrs ((⟨1, 1, 1, {}⟩ : Context).type - 1) =
      .ofList [0] := manyTypePolicydb_typeAttrs (by decide)
  refine ⟨manyTypePolicydb_loaded _, fun i d hd hne => absurd ?_ hne, fun v hv => ?_,
    manyTypePolicydb_valid (by omega) (by omega), manyTypePolicydb_valid (by omega) (by omega),
    { allowed := 1 }, 0, fun calls => ?_, by decide, fun hgranted => ?_⟩
  · have := manyTypePolicydb_boundOf 65537 (i + 1)
    rwa [Policydb.boundOf, Nat.add_sub_cancel, hd] at this
  · obtain ⟨w, h, -⟩ := Relation.TransGen.head'_iff.mp hv
    exact h.2 (h.1 ▸ manyTypePolicydb_boundOf 65537 v)
  · have hrules : rulesComputeAv (manyTypePolicydb 65537) ⟨1, 1, 65537, {}⟩ ⟨1, 1, 1, {}⟩ 1 =
        { allowed := 1 } := by
      rw [rulesComputeAv, hwide, hfirst]
      decide
    have hown : computeOwn (manyTypePolicydb 65537) ⟨1, 1, 65537, {}⟩ ⟨1, 1, 1, {}⟩ 1 1 =
        .ok ({ allowed := 1 }, { requested := 1 }) := by
      rw [computeOwn, if_neg (by decide), hrules]
      rfl
    have hstype : ((manyTypePolicydb 65537).typeStruct 65536).isSome = true := by
      rw [manyTypePolicydb_typeStruct (by omega)]
      rfl
    have httype : ((manyTypePolicydb 65537).typeStruct 0).isSome = true := by
      rfl
    rw [contextStructComputeAv, hown, boundingPair_eq (s := ⟨1, 1, 65537, {}⟩) (t := ⟨1, 1, 1, {}⟩)
      hstype httype, manyTypePolicydb_boundOf]
    rfl
  · -- the only rule is for type 1, and that is not an attribute of the source type
    obtain ⟨⟨⟨n, hn, happ, -⟩ | ⟨n, hn, -⟩, -⟩, -⟩ := granted_iff.mp hgranted
    · obtain ⟨i, hi, j, hj, hsource, -⟩ := appliesTo_iff.mp happ
      rw [hwide] at hi
      have hn' : n.key.sourceType = 1 := by
        have hall : ((manyTypePolicydb 65537).teAvtab.nodes.all fun n => n.key.sourceType == 1) =
          true := by decide
        simpa using all_eq_true.mp hall n hn
      have hi' : i = 65536 := by simpa using (show i ∈ [65536] from hi)
      omega
    · cases hn

/-- On an accepted policy the recursion along the bounds ends exactly if following the
bounds from the source type reaches a type without bounds. -/
theorem contextStructComputeAv_returns_iff {p : FullPolicydb} (hvalid : policydbValidate p = true)
    (hp : Loaded p) {s t : Context} (hs : contextIsValid p s = true)
    (ht : contextIsValid p t = true) (hstype : (p.typeStruct (s.type - 1)).isSome = true)
    (httype : (p.typeStruct (t.type - 1)).isSome = true) {tclass : Nat} (hpos : 0 < tclass)
    (hclass : (p.classStruct (tclass - 1)).isSome = true) (requested : BitVec 32) :
    (∃ calls, contextStructComputeAv p calls s t tclass requested ≠ .error .running) ↔
      BoundsEnd p.toPolicydb s.type := by
  have hknown := Known.of_valid hp hs ht hstype httype
  obtain ⟨flavors, hacc⟩ := Accepted.of_validate hvalid
  constructor
  · rintro ⟨calls, hcalls⟩
    by_contra hend
    exact hcalls (contextStructComputeAv_running hp hpos hclass hacc.boundsDefined hend hknown calls
      requested)
  · intro hend
    obtain ⟨calls, hcalls⟩ :=
      contextStructComputeAv_of_end hp hpos hclass hacc.boundsDefined hend hknown
    obtain ⟨avd, reason, hcall, -⟩ := hcalls 0 requested
    refine ⟨calls, fun h => ?_⟩
    rw [Nat.add_zero, h] at hcall
    cases hcall

/-- A policy with one type, which is bounded by the type with value `bound`. -/
def oneTypePolicydb (bound : Nat) : FullPolicydb where
  typeValToStruct := [some { bounds := bound }]
  typeValToName := [some "t".toList]
  typeAttrMap := [.ofList [0]]
  roleTable := [("object_r".toList, { value := 1 })]
  roleValToName := [some "object_r".toList]
  roleValToStruct := [some { value := 1 }]
  users := { table := [("u".toList, 0)], nprim := 1, valToName := [some "u".toList],
             valToStruct := [some 0], heap := [some { value := 1 }] }
  classTable := [("c".toList, { value := 1 })]
  classValToName := [some "c".toList]
  classValToStruct := [some { value := 1 }]

/-- The types do not matter for what reading promises. -/
theorem oneTypePolicydb_loaded {types names attrs} : Loaded { oneTypePolicydb 0 with
    typeValToStruct := types, typeValToName := names, typeAttrMap := attrs } := by
  refine ⟨⟨by simp [oneTypePolicydb], by simp [oneTypePolicydb]⟩,
    ⟨by simp [oneTypePolicydb], by simp [oneTypePolicydb]⟩, rfl, fun i d hd => ?_⟩
  refine ⟨0, [], [], 0, {}, ?_⟩
  cases i with
  | zero => cases hd; exact ⟨rfl, rfl⟩
  | succ i => simp [FullPolicydb.classStruct, oneTypePolicydb] at hd

/-- A type that is bounded by itself passes the validation, and the recursion does not
end. -/
theorem contextStructComputeAv_self_bounded : policydbValidate (oneTypePolicydb 1) = true ∧
    contextIsValid (oneTypePolicydb 1) ⟨1, 1, 1, {}⟩ = true ∧
    ∀ calls, contextStructComputeAv (oneTypePolicydb 1) calls ⟨1, 1, 1, {}⟩ ⟨1, 1, 1, {}⟩ 1 1 =
      .error .running := by
  have hvalid : policydbValidate (oneTypePolicydb 1) = true := by decide +kernel
  obtain ⟨flavors, hacc⟩ := Accepted.of_validate hvalid
  refine ⟨hvalid, by decide, fun calls => ?_⟩
  have hend : ∀ v, BoundsEnd (oneTypePolicydb 1).toPolicydb v → v ≠ 1 := by
    intro v h hv
    induction h with
    | top h0 => subst hv; cases h0
    | up _ ih => subst hv; exact ih rfl
  exact contextStructComputeAv_running (p := oneTypePolicydb 1) oneTypePolicydb_loaded Nat.one_pos
    rfl hacc.boundsDefined (fun h => hend 1 h rfl) ⟨rfl, rfl, rfl, rfl⟩ calls 1

/-- Two types, the first bounded by the second. -/
def chainPolicydb : FullPolicydb :=
  { oneTypePolicydb 0 with
    typeValToStruct := [some { bounds := 2 }, some {}]
    typeValToName := [some "t".toList, some "v".toList]
    typeAttrMap := [.ofList [0], .ofList [1]] }

/-- The inner call for the bounding type returns, and so does the outer one. -/
theorem contextStructComputeAv_returns_iff_bounded :
    ∃ calls, contextStructComputeAv chainPolicydb calls ⟨1, 1, 1, {}⟩ ⟨1, 1, 2, {}⟩ 1 1 ≠
      .error .running :=
  (contextStructComputeAv_returns_iff (p := chainPolicydb) (by decide +kernel)
    oneTypePolicydb_loaded (s := ⟨1, 1, 1, {}⟩) (t := ⟨1, 1, 2, {}⟩) (by decide) (by decide)
    rfl rfl Nat.one_pos rfl 1).mpr (.up (.top rfl))

/-! ## After settings of the Booleans -/

/-- After the rules of a policy were read and the Booleans set any number of times, the rules of
the server allow what the policy decides in the last state: if the flags in the file were right
for the conditionals that had the stored value all along, no unconditional `allow` rule has another
flag, and the types fit the rule keys. -/
theorem rulesComputeAv_settings {vers nb : Nat} {fp fp' : PolicyFile} {p : Policydb}
    (h : readRules vers nb fp = some (fp', p)) {states : List (Nat → Bool)} {state : Nat → Bool}
    (hstored : ∀ c ∈ p.condList, (∀ s ∈ states ++ [state], c.value s = c.curState) →
      c.Agrees c.curState p.teCondAvtab.nodes)
    (hplain : ∀ n ∈ p.teAvtab.nodes, n.isKind avtabAllowed = true → n.key.specified = avtabAllowed)
    {q : FullPolicydb} (hte : q.teAvtab = p.teAvtab)
    (hcond : q.teCondAvtab = (evaluateSettings p (states ++ [state])).teCondAvtab)
    (hconds : q.condList = (evaluateSettings p (states ++ [state])).condList)
    (hfit : q.TypesFit) (s t : Context) (tclass : Nat) : (rulesComputeAv q s t tclass).allowed =
      (q.decision state (s.type - 1) (t.type - 1) tclass).allowed := by
  obtain ⟨honce, htable⟩ := readRules_tables h
  have hagrees := (evaluateSettings_agrees _ htable.nodup).mpr hstored
  -- no flag that is written moves a rule
  have hinv := evaluateSettings_inv
    (I := fun t => t.Wf ∧ ∀ n ∈ t.nodes, n.addr ∈ p.condList.flatMap CondNode.lists)
    (fun t addr on ht => by
      refine ⟨ht.1.setEnabled on addr, ?_⟩
      rw [Avtab.modifyNode_nodes, forall_mem_map]
      intro n hn
      split_ifs <;> exact ht.2 n hn)
    (states ++ [state]) ⟨by
      by_cases hne : p.teCondAvtab.htable = []
      · constructor <;> simp [hne]
      · exact (htable.placed hne).wf, fun n hn => (htable.listed _).mpr (mem_map_of_mem hn)⟩
  rw [evaluateSettings_conds] at hagrees hconds
  rw [← hcond] at hagrees hinv
  have hactive : ∀ n ∈ q.teCondAvtab.nodes,
      n.enabled = true ↔ n.addr ∈ activeAddrs q.condList state := by
    intro n hn
    rw [forall_mem_map] at hagrees
    refine enabled_iff_active ?_ hn ?_
    · rw [hconds, forall_mem_map]
      exact hagrees
    · rw [hconds, flatMap_map]
      exact hinv.2 n hn
  refine BitVec.eq_of_getLsbD_eq fun b _ => Bool.eq_iff_iff.mpr ?_
  rw [rulesComputeAv_allowed (hte ▸ honce.wf) hinv.1 hfit, decision, decisionOf_allowed,
    Lib.mem_pool]
  simp only [RuleGrants, activeNodes, mem_append, mem_filter, decide_eq_true_eq,
    or_and_right, exists_or, and_assoc]
  refine or_congr (exists_congr fun n => and_congr_right fun hn => ?_)
    (exists_congr fun n => and_congr_right fun hn => ?_)
  · refine and_congr_right fun _ => and_congr_left' ⟨fun h => ?_, fun h => ?_⟩
    · rw [h]
      decide
    · exact hplain n (hte ▸ hn) (bne_iff_ne.mpr h)
  · rw [← hactive n hn, AvtabNode.isKind, bne_iff_ne, effects, Set.mem_ofPred_eq, datumHas]
    tauto

/-- With the Boolean set, the conditional rule of this file adds its permission. -/
theorem rulesComputeAv_settings_enabled : ∃ fp p, readRules 33 1 enabledRuleFile = some (fp, p) ∧
    (rulesComputeAv (smallPolicydb (evaluateSettings p ([] ++ [fun _ => true])))
      ⟨1, 1, 1, {}⟩ ⟨1, 1, 1, {}⟩ 1).allowed = 3 := by
  have hrun : (readRules 33 1 enabledRuleFile).any (fun r =>
      (r.2.condList.all fun c => (c.value fun _ => true) != c.curState) &&
      (r.2.teAvtab.nodes.all fun n => n.key.specified == avtabAllowed) &&
      ((smallPolicydb (evaluateSettings r.2 ([] ++ [fun _ => true]))).decision
        (fun _ => true) 0 0 1).allowed == 3) = true := by
    decide +kernel
  simp only [Option.any_eq_true, and_eq_true, all_eq_true, bne_iff_ne, beq_iff_eq] at hrun
  obtain ⟨r, hread, ⟨hswitched, hplain⟩, hallowed⟩ := hrun
  refine ⟨r.1, r.2, hread, (rulesComputeAv_settings hread
    (fun c hc h => absurd (h _ (by simp)) (hswitched c hc))
    (fun n hn _ => hplain n hn) rfl rfl rfl ?_
    ⟨1, 1, 1, {}⟩ ⟨1, 1, 1, {}⟩ 1).trans hallowed⟩
  exact (by decide : ∀ e ∈ [Ebitmap.ofList [0]], ∀ i ∈ e.bits, i + 1 < 2 ^ 16)

end SELinux.Sepol
