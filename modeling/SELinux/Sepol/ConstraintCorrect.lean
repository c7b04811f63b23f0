import SELinux.Lib.Rpn
import SELinux.Sepol.Constraint

/-! Constraints that the reader and the validation accept. Such an expression is the
notation of one tree; the evaluator goes through it without a fault, on a stack that stays
in its bounds, and returns the value of the tree in the ordinary reading of its operators
and comparisons. -/
namespace SELinux.Sepol

open List Option

open Lib.Rpn

/-! ## The ordinary reading -/

inductive CexprOp where
  | and
  | or

/-- An expression as a tree: the operands are the entries of the two kinds of
comparisons. -/
abbrev CexprTree := Tree ConstraintExpr Unit CexprOp

/-- An entry as a symbol of the notation. -/
def cexprSym (e : ConstraintExpr) : Sym ConstraintExpr Unit CexprOp :=
  if e.exprType = cexprNot then .un ()
  else if e.exprType = cexprAnd then .bin .and
  else if e.exprType = cexprOr then .bin .or
  else .leaf e

/-- The comparison operators over a set with an order of dominance. -/
def CmpHolds {α : Type} (dominates : α → α → Prop) (op : Nat) (a b : α) : Prop :=
  (op = cexprEq ∧ a = b) ∨ (op = cexprNeq ∧ a ≠ b) ∨ (op = cexprDom ∧ dominates a b) ∨
  (op = cexprDomby ∧ dominates b a) ∨ (op = cexprIncomp ∧ ¬ dominates a b ∧ ¬ dominates b a)

def MlsLevel.Dominates (l1 l2 : MlsLevel) : Prop := l2.sens ≤ l1.sens ∧ ∀ c ∈ l2.cat, c ∈ l1.cat

section

variable (p : FullPolicydb) (s t : Context) (x : Option Context)

def RoleDominates (r1 r2 : Nat) : Prop :=
  ∃ d, p.roleStruct (r1 - 1) = some d ∧ r2 - 1 ∈ d.dominates

/-- The levels that are compared, `l` low, `h` high, `1` source, `2` target. -/
def levelPairs : List (BitVec 32 × MlsLevel × MlsLevel) :=
  [(cexprL1L2, s.range.low, t.range.low), (cexprL1H2, s.range.low, t.range.high),
    (cexprH1L2, s.range.high, t.range.low), (cexprH1H2, s.range.high, t.range.high),
    (cexprL1H1, s.range.low, s.range.high), (cexprL2H2, t.range.low, t.range.high)]

/-- A comparison of attributes. Users and types are not ordered. -/
def AttrHolds (e : ConstraintExpr) : Prop :=
  (e.attr = cexprUser ∧ CmpHolds (fun _ _ => False) e.op s.user t.user) ∨
  (e.attr = cexprType ∧ CmpHolds (fun _ _ => False) e.op s.type t.type) ∨
  (e.attr = cexprRole ∧ CmpHolds (RoleDominates p) e.op s.role t.role) ∨
  ∃ l1 l2, (e.attr, l1, l2) ∈ levelPairs s t ∧ CmpHolds MlsLevel.Dominates e.op l1 l2

/-- Which context a comparison with names is about. -/
inductive Which where
  | source
  | target
  | xtarget

def Which.bits : Which → BitVec 32
  | .source => 0
  | .target => cexprTarget
  | .xtarget => cexprXtarget

def Which.context : Which → Option Context
  | .source => some s
  | .target => some t
  | .xtarget => x

inductive Attribute where
  | user
  | role
  | type

def Attribute.bits : Attribute → BitVec 32
  | .user => cexprUser
  | .role => cexprRole
  | .type => cexprType

def Attribute.of : Attribute → Context → Nat
  | .user, c => c.user
  | .role, c => c.role
  | .type, c => c.type

/-- A comparison with names: the attribute is, or is not, one of them. -/
def NamesHolds (e : ConstraintExpr) : Prop :=
  ∃ (a : Attribute) (w : Which) (c : Context), e.attr = a.bits ||| w.bits ∧
    w.context s t x = some c ∧
    ((e.op = cexprEq ∧ a.of c - 1 ∈ e.names) ∨ (e.op = cexprNeq ∧ a.of c - 1 ∉ e.names))

def ordinary : Reading ConstraintExpr Unit CexprOp Prop where
  leaf e :=
    (e.exprType = cexprAttr ∧ AttrHolds p s t e) ∨ (e.exprType = cexprNames ∧ NamesHolds s t x e)
  un _ a := ¬ a
  bin
    | .and, a, b => a ∧ b
    | .or, a, b => a ∨ b

end

/-! ## Operands -/

/-- The operand is evaluated, to whether `P` holds, and its text opens a bracket. -/
def Evaluates (r : Except EvalFault (Bool × Name)) (P : Prop) : Prop :=
  ∃ value text, r = .ok (value, text) ∧ (value = true ↔ P) ∧ text.head? = some '('

theorem cmpResult_evaluates {src tgt op value P} (h : value = true ↔ P) :
    Evaluates (cmpResult src tgt op value) P :=
  ⟨value, _, rfl, h, rfl⟩

theorem cmpHolds_iff {α : Type} (dominates : α → α → Prop) (op : Nat) (a b : α) :
    (op = cexprEq → (CmpHolds dominates op a b ↔ a = b)) ∧
    (op = cexprNeq → (CmpHolds dominates op a b ↔ a ≠ b)) ∧
    (op = cexprDom → (CmpHolds dominates op a b ↔ dominates a b)) ∧
    (op = cexprDomby → (CmpHolds dominates op a b ↔ dominates b a)) ∧
    (op = cexprIncomp → (CmpHolds dominates op a b ↔ ¬ dominates a b ∧ ¬ dominates b a)) := by
  refine ⟨?_, ?_, ?_, ?_, ?_⟩ <;> rintro rfl <;>
    simp [CmpHolds, cexprEq, cexprNeq, cexprDom, cexprDomby, cexprIncomp]

theorem evalValues_evaluates {op val1 val2} (hop : op = cexprEq ∨ op = cexprNeq) {src tgt}
    (dominates : Nat → Nat → Prop) :
    Evaluates (evalValues op val1 val2 src tgt) (CmpHolds dominates op val1 val2) := by
  obtain ⟨heq, hneq, -⟩ := cmpHolds_iff dominates op val1 val2
  rcases hop with rfl | rfl
  · exact cmpResult_evaluates (by simp [heq])
  · exact cmpResult_evaluates (by simp [hneq])

variable {op d : Nat} {p : FullPolicydb} {s t : Context} {x : Option Context}

theorem evalLevels_evaluates
    (hop : op ∈ [cexprEq, cexprNeq, cexprDom, cexprDomby, cexprIncomp]) (l1 l2 : MlsLevel)
    (src tgt : Name) :
    Evaluates (evalLevels op l1 l2 src tgt) (CmpHolds MlsLevel.Dominates op l1 l2) := by
  obtain ⟨heq, hneq, hdom, hdomby, hincomp⟩ :=
    cmpHolds_iff MlsLevel.Dominates op l1 l2
  have hdominates : ∀ {a b : MlsLevel}, mlsLevelDom a b = true ↔ a.Dominates b := mlsLevelDom_iff
  simp only [mem_cons, not_mem_nil, or_false] at hop
  rcases hop with rfl | rfl | rfl | rfl | rfl
  · exact cmpResult_evaluates (by rw [heq rfl, mlsLevelEq_iff])
  · exact cmpResult_evaluates
      (by rw [hneq rfl, Bool.not_eq_true', ← Bool.not_eq_true, mlsLevelEq_iff])
  · exact cmpResult_evaluates (by rw [hdom rfl, hdominates])
  · exact cmpResult_evaluates (by rw [hdomby rfl, hdominates])
  · refine cmpResult_evaluates ?_
    rw [hincomp rfl, mlsLevelIncomp, Bool.and_eq_true, Bool.not_eq_true', Bool.not_eq_true',
      ← Bool.not_eq_true, ← Bool.not_eq_true, hdominates, hdominates, and_comm]

theorem roleDominates_ok {role : Nat} (h : (p.roleStruct (role - 1)).isSome = true) (val : Nat) :
    ∃ value, roleDominates p role val = .ok value ∧ (value = true ↔ RoleDominates p role val) := by
  obtain ⟨d, hd⟩ := isSome_iff_exists.mp h
  simp [roleDominates, hd, RoleDominates]

theorem evalRoles_evaluates {val1 val2 : Nat}
    (h1 : (p.roleStruct (val1 - 1)).isSome = true) (h2 : (p.roleStruct (val2 - 1)).isSome = true)
    (hop : op ∈ [cexprEq, cexprNeq, cexprDom, cexprDomby, cexprIncomp]) :
    Evaluates (evalRoles p op val1 val2) (CmpHolds (RoleDominates p) op val1 val2) := by
  obtain ⟨dom, hdom, hdom_iff⟩ := roleDominates_ok h1 val2
  obtain ⟨domby, hdomby, hdomby_iff⟩ := roleDominates_ok h2 val1
  obtain ⟨-, -, hd, hb, hi⟩ :=
    cmpHolds_iff (RoleDominates p) op val1 val2
  simp only [mem_cons, not_mem_nil, or_false] at hop
  rcases hop with rfl | rfl | rfl | rfl | rfl
  · exact evalValues_evaluates (.inl rfl) _
  · exact evalValues_evaluates (.inr rfl) _
  · rw [hd rfl]
    simp only [evalRoles, hdom]
    exact cmpResult_evaluates hdom_iff
  · rw [hb rfl]
    simp only [evalRoles, hdomby]
    exact cmpResult_evaluates hdomby_iff
  · rw [hi rfl, ← hdom_iff, ← hdomby_iff]
    simp only [evalRoles, hdom, hdomby]
    cases dom
    · exact cmpResult_evaluates (by simp)
    · exact cmpResult_evaluates (by simp)

variable {e : ConstraintExpr}

/-- What the validation leaves of a comparison of attributes. -/
theorem validateAttr_cases (h : validateAttr e = true) :
    e.op ∈ [cexprEq, cexprNeq, cexprDom, cexprDomby, cexprIncomp] ∧
    (e.attr = cexprUser ∨ e.attr = cexprType → e.op = cexprEq ∨ e.op = cexprNeq) ∧
    e.attr ∈ cexprAttrs := by
  simp only [validateAttr, Bool.and_eq_true, decide_eq_true_eq] at h
  obtain ⟨⟨-, hop⟩, hattr⟩ := h
  split_ifs at hop with hplain hordered
  · refine ⟨?_, fun _ => hplain, hattr⟩
    rcases hplain with h | h <;> simp [h]
  · refine ⟨?_, fun hut => ?_, hattr⟩
    · rcases hordered with h | h | h <;> simp [h]
    · rcases hut with h | h <;> rw [h] at hop <;> exact absurd hop (by decide)

theorem evalAttr_evaluates {e} (hs : (p.roleStruct (s.role - 1)).isSome = true)
    (ht : (p.roleStruct (t.role - 1)).isSome = true) (h : validateAttr e = true) :
    Evaluates (evalAttr p s t e) (AttrHolds p s t e) := by
  obtain ⟨hop, hplain, hattr⟩ := validateAttr_cases h
  -- the attribute picks one disjunct
  have hlevels : ∀ {l1 l2 src tgt}, cexprLevels e.attr s t = some (l1, l2, src, tgt) →
      e.attr ≠ cexprUser → e.attr ≠ cexprType → e.attr ≠ cexprRole →
      (∀ l1' l2', (e.attr, l1', l2') ∈ levelPairs s t ↔ l1' = l1 ∧ l2' = l2) →
      Evaluates (evalAttr p s t e) (AttrHolds p s t e) := by
    intro l1 l2 src tgt hl hu hty hr hpairs
    have hiff : AttrHolds p s t e ↔ CmpHolds MlsLevel.Dominates e.op l1 l2 := by
      simp [AttrHolds, hu, hty, hr, hpairs]
    rw [evalAttr, if_neg hu, if_neg hty, if_neg hr, hl, hiff]
    exact evalLevels_evaluates hop l1 l2 src tgt
  have hnone : ∀ {a l1 l2}, a ∈ [cexprUser, cexprType, cexprRole] →
      (a, l1, l2) ∉ levelPairs s t := by
    intro a l1 l2 ha
    simp only [mem_cons, not_mem_nil, or_false] at ha
    rcases ha with rfl | rfl | rfl <;>
      simp [levelPairs, cexprUser, cexprType, cexprRole, cexprL1L2, cexprL1H2, cexprH1L2,
        cexprH1H2, cexprL1H1, cexprL2H2]
  simp only [cexprAttrs, mem_cons, not_mem_nil, or_false] at hattr
  rcases hattr with ha | ha | ha | ha | ha | ha | ha | ha | ha
  · have hiff : AttrHolds p s t e ↔ CmpHolds (fun _ _ => False) e.op s.user t.user := by
      simp [AttrHolds, ha, hnone, show cexprUser ≠ cexprType by decide,
        show cexprUser ≠ cexprRole by decide]
    rw [evalAttr, if_pos ha, hiff]
    exact evalValues_evaluates (hplain (.inl ha)) _
  · have hiff : AttrHolds p s t e ↔ CmpHolds (RoleDominates p) e.op s.role t.role := by
      simp [AttrHolds, ha, hnone, show cexprRole ≠ cexprType by decide,
        show cexprRole ≠ cexprUser by decide]
    rw [evalAttr, if_neg (by rw [ha]; decide), if_neg (by rw [ha]; decide), if_pos ha, hiff]
    exact evalRoles_evaluates hs ht hop
  · have hiff : AttrHolds p s t e ↔ CmpHolds (fun _ _ => False) e.op s.type t.type := by
      simp [AttrHolds, ha, hnone, show cexprType ≠ cexprUser by decide,
        show cexprType ≠ cexprRole by decide]
    rw [evalAttr, if_neg (by rw [ha]; decide), if_pos ha, hiff]
    exact evalValues_evaluates (hplain (.inr ha)) _
  all_goals
    refine hlevels (by rw [ha]; rfl) (by rw [ha]; decide) (by rw [ha]; decide)
      (by rw [ha]; decide) ?_
    simp [ha, levelPairs, cexprL1L2, cexprL1H2, cexprH1L2, cexprH1H2, cexprL1H1, cexprL2H2]

theorem names_decode {a a' : Attribute} {w w' : Which}
    (h : a.bits ||| w.bits = a'.bits ||| w'.bits) : a = a' ∧ w = w' := by
  cases a <;> cases a' <;> cases w <;> cases w' <;>
    first
    | exact ⟨rfl, rfl⟩
    | exact absurd h (by decide)

/-- What the validation leaves of a comparison with names. -/
theorem validateNames_cases {nperms} {flavors}
    (h : validateNames nperms e flavors = true) : (e.op = cexprEq ∨ e.op = cexprNeq) ∧
    ∃ (a : Attribute) (w : Which), e.attr = a.bits ||| w.bits := by
  simp only [validateNames, Bool.and_eq_true, Bool.or_eq_true, beq_iff_eq] at h
  obtain ⟨⟨-, hop⟩, hattr⟩ := h
  refine ⟨hop, ?_⟩
  split_ifs at hattr with hu hr ht
  · simp only [mem_cons, not_mem_nil, or_false] at hu
    rcases hu with h | h | h
    · exact ⟨.user, .source, h⟩
    · exact ⟨.user, .target, h⟩
    · exact ⟨.user, .xtarget, h⟩
  · simp only [mem_cons, not_mem_nil, or_false] at hr
    rcases hr with h | h | h
    · exact ⟨.role, .source, h⟩
    · exact ⟨.role, .target, h⟩
    · exact ⟨.role, .xtarget, h⟩
  · simp only [mem_cons, not_mem_nil, or_false] at ht
    rcases ht with h | h | h
    · exact ⟨.type, .source, h⟩
    · exact ⟨.type, .target, h⟩
    · exact ⟨.type, .xtarget, h⟩

theorem namesContext_bits (s t : Context) (x : Option Context) (a : Attribute) (w : Which) :
    (namesContext s t x (a.bits ||| w.bits)).1 = w.context s t x := by
  cases a <;> cases w <;> rfl

theorem namesValue_bits (c : Context) (a : Attribute) (w : Which) :
    ∃ letter, namesValue c (a.bits ||| w.bits) = some (a.of c, a.bits, letter) := by
  cases a <;> cases w <;> exact ⟨_, rfl⟩

theorem evalNames_evaluates {p s t} {nperms flavors} (h : validateNames nperms e flavors = true)
    (hx : e.attr &&& cexprXtarget ≠ 0 → x.isSome = true) :
    Evaluates (evalNames p s t x e) (NamesHolds s t x e) := by
  obtain ⟨hop, a, w, hattr⟩ := validateNames_cases h
  obtain ⟨c, hc⟩ : ∃ c, w.context s t x = some c := by
    cases w with
    | source => exact ⟨s, rfl⟩
    | target => exact ⟨t, rfl⟩
    | xtarget =>
      refine isSome_iff_exists.mp (hx ?_)
      rw [hattr]
      cases a <;> decide
  have hiff : NamesHolds s t x e ↔
      (e.op = cexprEq ∧ a.of c - 1 ∈ e.names) ∨ (e.op = cexprNeq ∧ a.of c - 1 ∉ e.names) := by
    constructor
    · rintro ⟨a', w', c', hattr', hc', hin⟩
      obtain ⟨rfl, rfl⟩ := names_decode (hattr.symm.trans hattr')
      simp_all
    · exact fun hin => ⟨a, w, c, hattr, hc, hin⟩
  obtain ⟨letter, hvalue⟩ := namesValue_bits c a w
  have hcontext := namesContext_bits s t x a w
  rw [← hattr] at hvalue hcontext
  rw [hc] at hcontext
  rw [evalNames, hiff]
  generalize hn : namesContext s t x e.attr = r at hcontext
  obtain ⟨o, num⟩ := r
  obtain rfl : o = some c := hcontext
  simp only [hvalue]
  rcases hop with h | h
  · simp only [h, if_pos]
    refine ⟨_, _, rfl, ?_, rfl⟩
    simp [cexprEq, cexprNeq]
  · rw [if_neg (by rw [h]; decide), if_pos h]
    refine ⟨_, _, rfl, ?_, rfl⟩
    simp [h, cexprEq, cexprNeq, ebitmapGetBit]

/-! ## What the reader checks -/

theorem readConsDepth_depthStep {d' : Nat} (h : readConsDepth e.exprType d = some d') :
    depthStep cexprMaxdepth d (cexprSym e) = some d' := by
  unfold readConsDepth at h
  by_cases hnot : e.exprType = cexprNot
  · rw [if_pos hnot] at h
    rwa [cexprSym, if_pos hnot]
  · rw [if_neg hnot] at h
    by_cases hop : e.exprType = cexprAnd ∨ e.exprType = cexprOr
    · rw [if_pos hop] at h
      rcases hop with hop | hop
      · rwa [cexprSym, if_neg hnot, if_pos hop]
      · rwa [cexprSym, if_neg hnot, if_neg (by rw [hop]; decide), if_pos hop]
    · rw [if_neg hop] at h
      rw [not_or] at hop
      split_ifs at h with _ hfull
      rwa [cexprSym, if_neg hnot, if_neg hop.1, if_neg hop.2, depthStep, if_neg hfull]

/-- A comparison with the names of the third context. -/
def ConstraintExpr.usesXtarget (e : ConstraintExpr) : Bool :=
  e.exprType == cexprNames && e.attr &&& cexprXtarget != 0

theorem readConsExprs_succ {p allowxtarget n d fp fp' expr}
    (h : readConsExprs p allowxtarget (n + 1) d fp = some (expr, fp')) :
    ∃ e rest d1 fp1, expr = e :: rest ∧ readConsDepth e.exprType d = some d1 ∧
      (allowxtarget = false → e.usesXtarget = false) ∧
      readConsExprs p allowxtarget n d1 fp1 = some (rest, fp') := by
  obtain ⟨⟨exprType, fp1⟩, -, h⟩ := bind_eq_some_iff.mp h
  obtain ⟨⟨attr, fp2⟩, -, h⟩ := bind_eq_some_iff.mp h
  obtain ⟨⟨op, fp3⟩, -, h⟩ := bind_eq_some_iff.mp h
  obtain ⟨d1, hd1, h⟩ := bind_eq_some_iff.mp h
  obtain ⟨⟨names, typeNames, fp4⟩, hnames, h⟩ := bind_eq_some_iff.mp h
  obtain ⟨⟨rest, fp₅⟩, hrest, h⟩ := bind_eq_some_iff.mp h
  cases h
  refine ⟨_, rest, d1, fp4, rfl, hd1, fun hallow => ?_, hrest⟩
  subst hallow
  unfold readConsNames at hnames
  by_cases htype : exprType.toNat = cexprNames
  · have hnox : attr &&& cexprXtarget = 0 := by
      by_contra h0
      rw [if_pos htype, if_pos ⟨rfl, h0⟩] at hnames
      cases hnames
    simp [ConstraintExpr.usesXtarget, hnox]
  · rw [ConstraintExpr.usesXtarget, beq_eq_false_iff_ne.mpr htype, Bool.false_and]

variable {expr : List ConstraintExpr}

theorem readConsExprs_depth {p allowxtarget n d fp fp'}
    (h : readConsExprs p allowxtarget n d fp = some (expr, fp')) :
    depth cexprMaxdepth d (expr.map cexprSym) = some 1 ∧
      (allowxtarget = false → ∀ e ∈ expr, e.usesXtarget = false) := by
  induction n generalizing d fp expr with
  | zero =>
    unfold readConsExprs at h
    split_ifs at h with hd
    cases h
    rw [not_ne_iff.mp hd]
    exact ⟨rfl, by simp⟩
  | succ n ih =>
    obtain ⟨e, rest, d1, fp1, rfl, hd1, hxt, hrest⟩ := readConsExprs_succ h
    obtain ⟨hdepth, hxts⟩ := ih hrest
    refine ⟨?_, fun hallow e' he' => ?_⟩
    · rw [map_cons, depth, readConsDepth_depthStep hd1]
      exact hdepth
    · rcases mem_cons.mp he' with rfl | he'
      · exact hxt hallow
      · exact hxts hallow e' he'

theorem readConsHelper_depth {p allowxtarget n fp fp' cons}
    (h : readConsHelper p allowxtarget n fp = some (cons, fp')) :
    ∀ c ∈ cons, depth cexprMaxdepth 0 (c.expr.map cexprSym) = some 1 ∧
      (allowxtarget = false → ∀ e ∈ c.expr, e.usesXtarget = false) := by
  induction n generalizing fp cons with
  | zero =>
    cases h
    simp
  | succ n ih =>
    obtain ⟨⟨permissions, fp1⟩, -, h⟩ := bind_eq_some_iff.mp h
    obtain ⟨⟨nexpr, fp2⟩, -, h⟩ := bind_eq_some_iff.mp h
    obtain ⟨⟨expr, fp3⟩, hexpr, h⟩ := bind_eq_some_iff.mp h
    obtain ⟨⟨nodes, fp4⟩, hnodes, h⟩ := bind_eq_some_iff.mp h
    cases h
    intro c hc
    rcases mem_cons.mp hc with rfl | hc
    · exact readConsExprs_depth hexpr
    · exact ih hnodes c hc

/-! ## The evaluator -/

section Eval

/-- The reading that the evaluator computes with. -/
def computed (p : FullPolicydb) (s t : Context) (x : Option Context) :
    Reading ConstraintExpr Unit CexprOp Bool where
  leaf e :=
    match evalOperand p s t x e with
    | .ok (value, _) => value
    | .error _ => false
  un _ a := !a
  bin
    | .and, a, b => a && b
    | .or, a, b => a || b

/-- The reading that the conversion to infix notation computes with. -/
def infixText (p : FullPolicydb) (s t : Context) (x : Option Context) :
    Reading ConstraintExpr Unit CexprOp Name where
  leaf e := exprText p s t x e
  un _ b :=
    if "not".toList.isPrefixOf b then "not".toList ++ " (".toList ++ b ++ ")".toList
    else "not".toList ++ b
  bin
    | .and, a, b => a ++ " ".toList ++ "and".toList ++ " ".toList ++ b
    | .or, a, b => a ++ " ".toList ++ "or".toList ++ " ".toList ++ b

/-- The entry is an operator, or an operand that is evaluated as it ordinarily reads. -/
def Sound (p : FullPolicydb) (s t : Context) (x : Option Context) (e : ConstraintExpr) : Prop :=
  (e.exprType = cexprNot ∨ e.exprType = cexprAnd ∨ e.exprType = cexprOr) ∨
  ((e.exprType = cexprAttr ∨ e.exprType = cexprNames) ∧
    Evaluates (evalOperand p s t x e) ((ordinary p s t x).leaf e))

theorem sound_of_valid {nperms flavors} (hs : (p.roleStruct (s.role - 1)).isSome = true)
    (ht : (p.roleStruct (t.role - 1)).isSome = true)
    (h : validateConstraintExpr nperms e flavors = true)
    (hx : e.exprType = cexprNames → e.attr &&& cexprXtarget ≠ 0 → x.isSome = true) :
    Sound p s t x e := by
  unfold validateConstraintExpr at h
  split_ifs at h with hnames hattr
  · refine .inr ⟨.inr hnames, ?_⟩
    have hiff : (ordinary p s t x).leaf e ↔ NamesHolds s t x e := by
      simp [ordinary, hnames, show cexprNames ≠ cexprAttr by decide]
    rw [evalOperand, if_neg (by rw [hnames]; decide), if_pos hnames, hiff]
    exact evalNames_evaluates h (hx hnames)
  · refine .inr ⟨.inl hattr, ?_⟩
    have hiff : (ordinary p s t x).leaf e ↔ AttrHolds p s t e := by
      simp [ordinary, hattr, show cexprAttr ≠ cexprNames by decide]
    rw [evalOperand, if_pos hattr, hiff]
    exact evalAttr_evaluates hs ht h
  · simp only [validateOperator, Bool.and_eq_true, Bool.or_eq_true, beq_iff_eq] at h
    rcases h.1.1.1.1 with (hnot | hand) | hor
    · exact .inl (.inl hnot)
    · exact .inl (.inr (.inl hand))
    · exact .inl (.inr (.inr hor))

/-- An entry with an operand is a leaf. -/
theorem cexprSym_operand (h : e.exprType = cexprAttr ∨ e.exprType = cexprNames) :
    e.exprType ≠ cexprNot ∧ e.exprType ≠ cexprAnd ∧ e.exprType ≠ cexprOr ∧
      cexprSym e = .leaf e := by
  have hne : e.exprType ≠ cexprNot ∧ e.exprType ≠ cexprAnd ∧ e.exprType ≠ cexprOr := by
    rcases h with h | h <;> rw [h] <;> decide
  refine ⟨hne.1, hne.2.1, hne.2.2, ?_⟩
  rw [cexprSym, if_neg hne.1, if_neg hne.2.1, if_neg hne.2.2]

theorem constraintStep_ok {e} (he : Sound p s t x e) {stack : List Bool} {d}
    (hd : depthStep cexprMaxdepth stack.length (cexprSym e) = some d) :
    ∃ stack', step (computed p s t x) stack (cexprSym e) = some stack' ∧
      constraintStep p s t x stack e = .ok stack' := by
  obtain ⟨stack', hstep, -⟩ := step_of_depth (R := computed p s t x) hd
  refine ⟨stack', hstep, ?_⟩
  rcases he with hop | ⟨hcmp, value, text, hvalue, -, -⟩
  · rcases hop with h | h | h
    all_goals
      simp only [cexprSym, h, cexprNot, cexprAnd, cexprOr] at hstep
      simp only [constraintStep, h, cexprNot, cexprAnd, cexprOr]
    · match stack, hstep with
      | a :: stack, hstep =>
        cases hstep
        rfl
    · match stack, hstep with
      | b :: a :: stack, hstep =>
        cases hstep
        rfl
    · match stack, hstep with
      | b :: a :: stack, hstep =>
        cases hstep
        rfl
  · obtain ⟨hnot, hand, hor, hsym⟩ := cexprSym_operand hcmp
    rw [hsym] at hstep hd
    simp only [depthStep] at hd
    split_ifs at hd with hfull
    cases hstep
    simp only [constraintStep, if_neg hnot, if_neg hand, if_neg hor,
      if_neg (fun h : _ ∧ _ => hfull h.2), hvalue, computed]
    rfl

theorem convertStep_ok {e} (he : Sound p s t x e) {stack : List Name} {d}
    (hd : depthStep cexprMaxdepth stack.length (cexprSym e) = some d) :
    ∃ stack', step (infixText p s t x) stack (cexprSym e) = some stack' ∧
      convertStep stack (exprText p s t x e) = .ok stack' := by
  obtain ⟨stack', hstep, -⟩ := step_of_depth (R := infixText p s t x) hd
  refine ⟨stack', hstep, ?_⟩
  rcases he with hop | ⟨hcmp, value, text, hvalue, -, hopen⟩
  · rcases hop with h | h | h
    all_goals
      simp only [cexprSym, h, cexprNot, cexprAnd, cexprOr] at hstep
      simp only [exprText, h, cexprNot, cexprAnd, cexprOr]
    · match stack, hstep with
      | b :: stack, hstep =>
        cases hstep
        unfold convertStep
        rw [if_pos trivial, if_neg (by decide), if_pos (by decide)]
        simp only [infixText]
        split_ifs <;> rfl
    · match stack, hstep with
      | b :: a :: stack, hstep =>
        cases hstep
        rfl
    · match stack, hstep with
      | b :: a :: stack, hstep =>
        cases hstep
        rfl
  · obtain ⟨hne, hand, hor, hsym⟩ := cexprSym_operand hcmp
    rw [hsym] at hstep
    cases hstep
    have htext : exprText p s t x e = text := by
      rw [exprText, if_neg hne, if_neg hand, if_neg hor, hvalue]
    -- the text of an operand is not that of an operator
    obtain ⟨rest, rfl⟩ : ∃ rest, text = '(' :: rest := by
      cases text with
      | nil => cases hopen
      | cons a rest => exact ⟨rest, by rw [some_inj.mp hopen]⟩
    have hother : ∀ c cs, c ≠ '(' → isPrefixOf (c :: cs) ('(' :: rest) = false := by
      intro c cs hc
      simp [isPrefixOf, hc]
    unfold convertStep
    rw [htext, if_neg (by simp [hother]), if_neg (by simp [hother])]
    show _ = Except.ok (exprText p s t x e :: stack)
    rw [htext]

variable (hsound : ∀ e ∈ expr, Sound p s t x e)
include hsound

theorem constraintExprEvalReason_ok (hdepth : depth cexprMaxdepth 0 (expr.map cexprSym) = some 1) :
    ∃ tree : CexprTree, tree.rpn = expr.map cexprSym ∧ constraintExprEvalReason p s t x expr =
        .ok (tree.value (computed p s t x), tree.value (infixText p s t x)) := by
  obtain ⟨tree, htree⟩ := exists_tree hdepth
  refine ⟨tree, htree, ?_⟩
  obtain ⟨stack, hfold, hrun, -⟩ := foldlM_of_depth (R := computed p s t x)
    (fun e he stack d hd => constraintStep_ok (hsound e he) hd) (s := []) hdepth
  obtain ⟨texts, hconv, htexts, -⟩ := foldlM_of_depth (R := infixText p s t x)
    (fun e he stack d hd => convertStep_ok (hsound e he) hd) (s := []) hdepth
  rw [← htree, run_rpn] at hrun htexts
  cases hrun
  cases htexts
  rw [constraintExprEvalReason, hfold, foldlM_map, hconv]
  rfl

theorem constraintStep_bounds
    (hdepth : depth cexprMaxdepth 0 (expr.map cexprSym) = some d) (k : Nat) :
    ∃ stack, (expr.take k).foldlM (constraintStep p s t x) [] = .ok stack ∧
      stack.length ≤ cexprMaxdepth := by
  obtain ⟨d', hd', hle⟩ := depth_take (Nat.zero_le _) hdepth k
  rw [← map_take] at hd'
  obtain ⟨stack, hfold, -, hlen⟩ := foldlM_of_depth (R := computed p s t x)
    (fun e he stack d hd => constraintStep_ok (hsound e (mem_of_mem_take he)) hd) (s := []) hd'
  exact ⟨stack, hfold, by omega⟩

theorem computed_iff_ordinary {tree : CexprTree} (htree : tree.rpn = expr.map cexprSym) :
    tree.value (computed p s t x) = true ↔ tree.value (ordinary p s t x) := by
  refine Tree.value_rel (fun (a : Bool) (b : Prop) => a = true ↔ b) ?_ ?_ ?_
  · intro e he
    rw [htree] at he
    obtain ⟨e', he', hsym⟩ := mem_map.mp he
    rcases hsound e' he' with hop | ⟨hcmp, value, text, hvalue, hiff, -⟩
    · rcases hop with h | h | h <;>
        simp [cexprSym, h, cexprNot, cexprAnd, cexprOr] at hsym
    · rw [(cexprSym_operand hcmp).2.2.2] at hsym
      cases hsym
      rw [← hiff]
      simp [computed, hvalue]
  · simp [computed, ordinary]
  · intro op a b a' b' hab hab'
    cases op <;> simp [computed, ordinary, hab, hab']

end Eval

/-- The entries of a constraint that was validated are sound for contexts with known
roles. -/
theorem sound_of_validNode {nperms cons flavors} (hs : (p.roleStruct (s.role - 1)).isSome = true)
    (ht : (p.roleStruct (t.role - 1)).isSome = true)
    (hvalid : validateConstraintNodes nperms cons flavors = true) {c : ConstraintNode}
    (hc : c ∈ cons) (hx : (∃ e ∈ c.expr, e.usesXtarget = true) → x.isSome = true) :
    ∀ e ∈ c.expr, Sound p s t x e := by
  intro e he
  have hnode := List.all_eq_true.mp hvalid c hc
  simp only [Bool.and_eq_true, List.all_eq_true] at hnode
  refine sound_of_valid hs ht (hnode.2 e he) fun hnames hxt => hx ⟨e, he, ?_⟩
  simpa [ConstraintExpr.usesXtarget, hnames] using hxt

/-- Evaluation of a constraint that was read and validated, for valid contexts. The
expression denotes one tree; behind every entry the stack is in its bounds; and the
evaluation ends with the value of the tree. -/
theorem constraintExprEvalReason_correct {p : FullPolicydb} {allowxtarget : Bool}
    {ncons nperms : Nat} {fp fp' : PolicyFile} {cons : List ConstraintNode} {flavors : Flavors}
    (hread : readConsHelper p.toPolicydb allowxtarget ncons fp = some (cons, fp'))
    (hvalid : validateConstraintNodes nperms cons flavors = true) {c : ConstraintNode}
    (hc : c ∈ cons) (hobject : (p.roleStruct (objectRVal - 1)).isSome = true) {s t : Context}
    (hs : contextIsValid p s = true) (ht : contextIsValid p t = true) {x : Option Context}
    (hx : (∃ e ∈ c.expr, e.usesXtarget = true) → x.isSome = true) :
    (∃ tree : CexprTree, tree.rpn = c.expr.map cexprSym ∧
      (∀ other : CexprTree, other.rpn = c.expr.map cexprSym → other = tree) ∧
      ∃ value text, constraintExprEvalReason p s t x c.expr = .ok (value, text) ∧
        (value = true ↔ tree.value (ordinary p s t x))) ∧
    ∀ k, ∃ stack, (c.expr.take k).foldlM (constraintStep p s t x) [] = .ok stack ∧
      stack.length ≤ cexprMaxdepth := by
  have hdepth := (readConsHelper_depth hread c hc).1
  have hsound :=
    sound_of_validNode (contextIsValid_role hs hobject) (contextIsValid_role ht hobject)
    hvalid hc hx
  refine ⟨?_, constraintStep_bounds hsound hdepth⟩
  obtain ⟨tree, htree, heval⟩ := constraintExprEvalReason_ok hsound hdepth
  refine ⟨tree, htree, fun other hother => Tree.rpn_injective (hother.trans htree.symm), _, _,
    heval, ?_⟩
  exact computed_iff_ordinary hsound htree

/-- One constraint on the first permission: `not (u1 == u2)`. -/
def otherUserFile : PolicyFile :=
  [1, 0, 0, 0, 2, 0, 0, 0,
    4, 0, 0, 0, 1, 0, 0, 0, 1, 0, 0, 0,
    1, 0, 0, 0, 0, 0, 0, 0, 0, 0, 0, 0]

/-- A policy with two users and one type. -/
def twoUserPolicydb : FullPolicydb where
  typeValToStruct := [some {}]
  roleValToStruct := [some { value := 1 }]
  users := { nprim := 2 }

theorem constraintExprEvalReason_correct_otherUser :
    ∃ cons fp, readConsHelper twoUserPolicydb.toPolicydb false 1 otherUserFile = some (cons, fp) ∧
      ∃ c ∈ cons, ∃ (tree : CexprTree) (value : Bool) (text : Name),
        constraintExprEvalReason twoUserPolicydb ⟨1, 1, 1, {}⟩ ⟨2, 1, 1, {}⟩ none c.expr =
          .ok (value, text) ∧ (value = true ↔
          tree.value (ordinary twoUserPolicydb ⟨1, 1, 1, {}⟩ ⟨2, 1, 1, {}⟩ none)) := by
  have hrun : (readConsHelper twoUserPolicydb.toPolicydb false 1 otherUserFile).any (fun r =>
      validateConstraintNodes 1 r.1 {} && r.1.any fun c =>
        c.expr.all fun e => !e.usesXtarget) = true := by
    decide +kernel
  cases hread : readConsHelper twoUserPolicydb.toPolicydb false 1 otherUserFile with
  | none => simp [hread] at hrun
  | some r =>
    simp only [hread, Option.any_some, Bool.and_eq_true, List.any_eq_true, List.all_eq_true,
      Bool.not_eq_true'] at hrun
    obtain ⟨hvalid, c, hc, hnox⟩ := hrun
    have hcorrect := constraintExprEvalReason_correct hread hvalid hc (by decide)
      (s := ⟨1, 1, 1, {}⟩) (t := ⟨2, 1, 1, {}⟩) (by decide) (by decide) (x := none)
      (fun ⟨e, he, huses⟩ => by simp [hnox e he] at huses)
    obtain ⟨⟨tree, -, -, value, text, heval, hiff⟩, -⟩ := hcorrect
    exact ⟨r.1, r.2, rfl, c, hc, tree, value, text, heval, hiff⟩

end SELinux.Sepol
