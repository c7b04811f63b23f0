import SELinux.Lib.Assoc
import SELinux.Sepol.ComputeAvCorrect
import SELinux.Sepol.Sidtab
import SELinux.Sepol.UserRange

/-! Labels of new objects (`sepol_compute_sid` in `services.c`, `mls_compute_sid` in `mls.c`):
the user, role and type that the class and the kind of the request give, a type rule and a
role transition that take precedence, and the range. Copies of levels are taken to succeed. -/
namespace SELinux.Sepol

open List Option

/-! ## Model -/

/-- `cladatum`: the datum of a class, if the value is that of a class. -/
def FullPolicydb.classDatum (p : FullPolicydb) (tclass : Nat) : Option ClassDatum :=
  if tclass ≠ 0 ∧ tclass ≤ p.classesNprim then p.classStruct (tclass - 1) else none

def newUser (cladatum : Option ClassDatum) (specified : BitVec 16) (scontext tcontext : Context) :
    Nat :=
  if specified = avtabTransition ∨ specified = avtabChange then
    if cladatum.any (·.defaultUser == defaultTarget) then tcontext.user else scontext.user
  else if specified = avtabMember then tcontext.user
  else 0

/-- What the class asks for, `unset` if it asks for nothing. -/
def classChoice (choice : Option Nat) (source target unset : Nat) : Nat :=
  if choice = some defaultSource then source
  else if choice = some defaultTarget then target
  else unset

def defaultRole (p : FullPolicydb) (scontext tcontext : Context) (tclass : Nat) : Nat :=
  classChoice ((p.classDatum tclass).map ClassDatum.defaultRole) scontext.role tcontext.role
    (if tclass = p.processClass then scontext.role else objectRVal)

def defaultType (p : FullPolicydb) (scontext tcontext : Context) (tclass : Nat) : Nat :=
  classChoice ((p.classDatum tclass).map ClassDatum.defaultType) scontext.type tcontext.type
    (if tclass = p.processClass then scontext.type else tcontext.type)

/-- The type rule that is found: a permanent one, or the first enabled conditional one. -/
def typeRule (p : FullPolicydb) (scontext tcontext : Context) (tclass : Nat)
    (specified : BitVec 16) : Option AvtabDatum :=
  let avkey := ⟨keyType scontext.type, keyType tcontext.type, tclass, specified⟩
  match avtabSearch p.teAvtab avkey with
  | some avdatum => some avdatum
  | none => ((avtabSearchNodes p.teCondAvtab avkey).find? AvtabNode.enabled).map AvtabNode.datum

/-- The role transition is for the two contexts and the class. -/
def RoleTrans.fits (roletr : RoleTrans) (scontext tcontext : Context) (tclass : Nat) : Bool :=
  roletr.role == scontext.role && roletr.type == tcontext.type && roletr.tclass == tclass

def newRole (p : FullPolicydb) (scontext tcontext : Context) (tclass : Nat)
    (specified : BitVec 16) : Nat :=
  if specified &&& avtabTransition ≠ 0 then
    match p.roleTr.find? fun roletr => roletr.fits scontext tcontext tclass with
    | some roletr => roletr.newRole
    | none => defaultRole p scontext tcontext tclass
  else defaultRole p scontext tcontext tclass

/-- `mls_context_cpy_low` and `mls_scopy_context`. -/
def Context.lowRange (c : Context) : MlsRange := ⟨c.range.low, c.range.low⟩

/-- `mls_context_cpy_high`. -/
def Context.highRange (c : Context) : MlsRange := ⟨c.range.high, c.range.high⟩

/-- The range without a rule or default: the whole one for a process, otherwise the
effective one. -/
def changeRange (p : FullPolicydb) (scontext : Context) (tclass : Nat) : MlsRange :=
  if tclass = p.processClass then scontext.range else scontext.lowRange

/-- `DEFAULT_SOURCE_LOW` to `DEFAULT_GLBLUB`. -/
def defaultRange (p : FullPolicydb) (scontext tcontext : Context) (tclass : Nat) :
    Except SidFault MlsRange :=
  match ((p.classDatum tclass).map ClassDatum.defaultRange).getD 0 with
  | 1 => .ok scontext.lowRange
  | 2 => .ok scontext.highRange
  | 3 => .ok scontext.range
  | 4 => .ok tcontext.lowRange
  | 5 => .ok tcontext.highRange
  | 6 => .ok tcontext.range
  | 7 => (mlsRangeGlblub scontext.range tcontext.range).mapError fun _ => .einval
  | _ => .ok (changeRange p scontext tclass)

def mlsComputeSid (p : FullPolicydb) (scontext tcontext : Context) (tclass : Nat)
    (specified : BitVec 16) : Except SidFault MlsRange :=
  if !p.mls then .ok {}
  else if specified = avtabTransition then
    match p.rangeTr.lookup ⟨scontext.type, tcontext.type, tclass⟩ with
    | some r => .ok r
    | none => defaultRange p scontext tcontext tclass
  else if specified = avtabChange then .ok (changeRange p scontext tclass)
  else if specified = avtabMember then .ok scontext.lowRange
  else .error .einval

/-- The new context. -/
def newContext (p : FullPolicydb) (scontext tcontext : Context) (tclass : Nat)
    (specified : BitVec 16) : Except SidFault Context :=
  (mlsComputeSid p scontext tcontext tclass specified).map fun range =>
    { user := newUser (p.classDatum tclass) specified scontext tcontext
      role := newRole p scontext tcontext tclass specified
      type :=
        match typeRule p scontext tcontext tclass specified with
        | some avdatum => avdatum.data.toNat
        | none => defaultType p scontext tcontext tclass
      range }

def sepolComputeSid (fail : SidAlloc → Bool) (enforcing : Bool) (p : FullPolicydb) (sidtab : Sidtab)
    (ssid tsid tclass : Nat) (specified : BitVec 16) : Except SidFault (Nat × Sidtab) :=
  match sepolSidtabSearch sidtab ssid, sepolSidtabSearch sidtab tsid with
  | some scontext, some tcontext =>
    match newContext p scontext tcontext tclass specified with
    | .error err => .error err
    | .ok newcontext =>
      -- an invalid context is only reported when not enforcing
      if !contextIsValid p newcontext ∧ enforcing then .error .eacces
      else sepolSidtabContextToSid fail sidtab newcontext
  | _, _ => .error .einval

/-! ## The reference -/

/-- The three kinds of requests: `sepol_transition_sid`, `sepol_member_sid` and
`sepol_change_sid`. -/
inductive SidKind where
  | transition
  | member
  | change

def SidKind.specified : SidKind → BitVec 16
  | transition => avtabTransition
  | member => avtabMember
  | change => avtabChange

/-- A type rule for the key is in force: it is permanent, or conditional and enabled. -/
def ActiveRule (p : Policydb) (source target tclass : Nat) (kind : SidKind) (n : AvtabNode) :
    Prop :=
  (n ∈ p.teAvtab.nodes ∨ n ∈ p.teCondAvtab.nodes ∧ n.enabled = true) ∧
  (n.key.sourceType = source ∧ n.key.targetType = target ∧ n.key.targetClass = tclass) ∧
  n.isKind kind.specified = true

/-- At most one type rule is in force for each key. -/
def Unambiguous (p : Policydb) : Prop :=
  ∀ source target tclass kind n1 n2, ActiveRule p source target tclass kind n1 →
    ActiveRule p source target tclass kind n2 → n1 = n2

/-- The first role transition for the two contexts and the class. -/
def FirstTransition (p : FullPolicydb) (s t : Context) (tclass : Nat) (roletr : RoleTrans) : Prop :=
  ∃ before after, p.roleTr = before ++ roletr :: after ∧ roletr.fits s t tclass = true ∧
    ∀ x ∈ before, x.fits s t tclass = false

/-- A part of a label that the class decides: the part of the source or of the target if the class
has a default, and otherwise that of the source for a process and `other` for an object. -/
structure ClassDefault (choice : Option Nat) (process : Prop) (source target other x : Nat) :
    Prop where
  ofSource : choice = some defaultSource → x = source
  ofTarget : choice = some defaultTarget → x = target
  ofProcess : choice ≠ some defaultSource → choice ≠ some defaultTarget → process → x = source
  ofObject : choice ≠ some defaultSource → choice ≠ some defaultTarget → ¬process → x = other

/-- `c` is the label that the policy gives to a new object. -/
structure Labels (p : FullPolicydb) (s t : Context) (tclass : Nat) (kind : SidKind) (c : Context) :
    Prop where
  typeRule : ∀ n, ActiveRule p.toPolicydb s.type t.type tclass kind n → c.type = n.datum.data.toNat
  typeDefault : (¬ ∃ n, ActiveRule p.toPolicydb s.type t.type tclass kind n) →
    ClassDefault ((p.classDatum tclass).map ClassDatum.defaultType) (tclass = p.processClass)
      s.type t.type t.type c.type
  roleTransition : kind = .transition → ∀ roletr, FirstTransition p s t tclass roletr →
    c.role = roletr.newRole
  roleDefault : (kind = .transition → ¬ ∃ roletr, FirstTransition p s t tclass roletr) →
    ClassDefault ((p.classDatum tclass).map ClassDatum.defaultRole) (tclass = p.processClass)
      s.role t.role objectRVal c.role
  userTarget :
    (kind = .member ∨ ∃ d, p.classDatum tclass = some d ∧ d.defaultUser = defaultTarget) →
    c.user = t.user
  userSource : kind ≠ .member →
    (¬ ∃ d, p.classDatum tclass = some d ∧ d.defaultUser = defaultTarget) →
    c.user = s.user
  range : mlsComputeSid p s t tclass kind.specified = .ok c.range

/-! ## Type rules -/

theorem spec_specified (source target tclass : Nat) (kind : SidKind) :
    (⟨source, target, tclass, kind.specified⟩ : AvtabKey).spec = kind.specified := by
  cases kind with
  | transition => exact (by decide : avtabTransition &&& ~~~avtabEnabled = avtabTransition)
  | member => exact (by decide : avtabMember &&& ~~~avtabEnabled = avtabMember)
  | change => exact (by decide : avtabChange &&& ~~~avtabEnabled = avtabChange)

variable {kind : SidKind} {p : FullPolicydb} {s t : Context} {tab : Sidtab} {r : MlsRange}

theorem hits_iff_key {source target tclass : Nat} {n : AvtabNode} :
    (⟨source, target, tclass, kind.specified⟩ : AvtabKey).hits kind.specified n = true ↔
      (n.key.sourceType = source ∧ n.key.targetType = target ∧ n.key.targetClass = tclass) ∧
        n.isKind kind.specified = true := by
  rw [AvtabKey.hits_iff, AvtabKey.same_iff, AvtabNode.isKind, bne_iff_ne, BitVec.and_comm]
  simp only [eq_comm]

section TypeRule

variable (hte : p.teAvtab.Wf) (hcond : p.teCondAvtab.Wf) (hs : s.type < 2 ^ 16)
  (ht : t.type < 2 ^ 16) {tclass : Nat}
include hte hcond hs ht

theorem typeRule_some {d} (h : typeRule p s t tclass kind.specified = some d) :
    ∃ n, ActiveRule p.toPolicydb s.type t.type tclass kind n ∧ n.datum = d := by
  simp only [typeRule, hte.search_eq, hcond.searchNodes_eq, spec_specified, keyType_of_lt hs,
    keyType_of_lt ht] at h
  cases hhead : (p.teAvtab.nodes.filter
      ((⟨s.type, t.type, tclass, kind.specified⟩ : AvtabKey).hits kind.specified)).head? with
  | some n =>
    obtain ⟨hn, hhit⟩ := mem_filter.mp (mem_of_head? hhead)
    simp only [hhead, map_some, some_inj] at h
    exact ⟨n, ⟨.inl hn, hits_iff_key.mp hhit⟩, h⟩
  | none =>
    simp only [hhead, map_none] at h
    obtain ⟨n, hfind, hd⟩ := map_eq_some_iff.mp h
    obtain ⟨hn, hhit⟩ := mem_filter.mp (mem_of_find?_eq_some hfind)
    exact ⟨n, ⟨.inr ⟨hn, find?_some hfind⟩, hits_iff_key.mp hhit⟩, hd⟩

theorem typeRule_none (h : typeRule p s t tclass kind.specified = none) :
    ¬ ∃ n, ActiveRule p.toPolicydb s.type t.type tclass kind n := by
  simp only [typeRule, hte.search_eq, hcond.searchNodes_eq, spec_specified, keyType_of_lt hs,
    keyType_of_lt ht] at h
  rintro ⟨n, hn, hkey⟩
  have hhit := hits_iff_key.mpr hkey
  cases hhead : (p.teAvtab.nodes.filter
      ((⟨s.type, t.type, tclass, kind.specified⟩ : AvtabKey).hits kind.specified)).head? with
  | some n => simp [hhead] at h
  | none =>
    simp only [hhead, map_none, map_eq_none_iff, find?_eq_none] at h
    rcases hn with hn | ⟨hn, henabled⟩
    · rw [head?_eq_none_iff, filter_eq_nil_iff] at hhead
      exact hhead n hn hhit
    · exact h n (mem_filter.mpr ⟨hn, hhit⟩) henabled

end TypeRule

/-! ## The label -/

theorem firstTransition_iff {s t tclass roletr} : FirstTransition p s t tclass roletr ↔
      (p.roleTr.find? fun x => x.fits s t tclass) = some roletr := by
  rw [find?_eq_some_iff_append]
  simp only [FirstTransition, Bool.not_eq_true']
  constructor
  · rintro ⟨before, after, heq, hfits, hbefore⟩
    exact ⟨hfits, before, after, heq, hbefore⟩
  · rintro ⟨hfits, before, after, heq, hbefore⟩
    exact ⟨before, after, heq, hfits, hbefore⟩

theorem newRole_of_first {p s t tclass} {roletr : RoleTrans}
    (h : FirstTransition p s t tclass roletr) :
    newRole p s t tclass SidKind.transition.specified = roletr.newRole := by
  rw [newRole, if_pos (by decide), firstTransition_iff.mp h]

theorem newRole_of_none {p s t tclass}
    (h : kind = .transition → ¬ ∃ roletr, FirstTransition p s t tclass roletr) :
    newRole p s t tclass kind.specified = defaultRole p s t tclass := by
  cases kind with
  | transition =>
    rw [newRole, if_pos (by decide)]
    cases hfind : p.roleTr.find? fun x => x.fits s t tclass with
    | none => rfl
    | some roletr => exact absurd ⟨roletr, firstTransition_iff.mpr hfind⟩ (h rfl)
  | member => rw [newRole, if_neg (by decide)]
  | change => rw [newRole, if_neg (by decide)]

theorem classChoice_classDefault (choice : Option Nat) (process : Prop) [Decidable process]
    (source target other : Nat) : ClassDefault choice process source target other
      (classChoice choice source target (if process then source else other)) where
  ofSource h := if_pos h
  ofTarget h := by
    subst h
    rfl
  ofProcess hs ht hp := by rw [classChoice, if_neg hs, if_neg ht, if_pos hp]
  ofObject hs ht hp := by rw [classChoice, if_neg hs, if_neg ht, if_neg hp]

theorem any_defaultTarget {d? : Option ClassDatum} :
    d?.any (·.defaultUser == defaultTarget) = true ↔
      ∃ d, d? = some d ∧ d.defaultUser = defaultTarget := by
  cases d? <;> simp

/-- The new context is the label of the reference. -/
theorem newContext_labels (hte : p.teAvtab.Wf) (hcond : p.teCondAvtab.Wf)
    (huniq : Unambiguous p.toPolicydb) (hs : s.type < 2 ^ 16) (ht : t.type < 2 ^ 16)
    {tclass} {c} (h : newContext p s t tclass kind.specified = .ok c) :
    Labels p s t tclass kind c := by
  unfold newContext at h
  cases hrange : mlsComputeSid p s t tclass kind.specified with
  | error err => rw [hrange] at h; cases h
  | ok range =>
    rw [hrange] at h
    obtain rfl := Except.ok.inj h
    refine ⟨fun n hn => ?_, fun hnone => ?_, ?_, fun hnone => ?_, fun huser =>
      ?_, fun hkind huser => ?_,
      hrange⟩
    · cases hrule : typeRule p s t tclass kind.specified with
      | none => exact absurd ⟨n, hn⟩ (typeRule_none hte hcond hs ht hrule)
      | some d =>
        obtain ⟨n', hn', rfl⟩ := typeRule_some hte hcond hs ht hrule
        rw [huniq _ _ _ _ _ _ hn hn']
    · cases hrule : typeRule p s t tclass kind.specified with
      | none => exact classChoice_classDefault ..
      | some d =>
        obtain ⟨n, hn, -⟩ := typeRule_some hte hcond hs ht hrule
        exact absurd ⟨n, hn⟩ hnone
    · rintro rfl roletr hfirst
      exact newRole_of_first hfirst
    · show ClassDefault _ _ _ _ _ (newRole p s t tclass kind.specified)
      rw [newRole_of_none hnone]
      exact classChoice_classDefault ..
    · cases kind with
      | member => rfl
      | transition => exact if_pos (any_defaultTarget.mpr (huser.resolve_left (by simp)))
      | change => exact if_pos (any_defaultTarget.mpr (huser.resolve_left (by simp)))
    · cases kind with
      | member => exact absurd rfl hkind
      | transition => exact if_neg fun h => huser (any_defaultTarget.mp h)
      | change => exact if_neg fun h => huser (any_defaultTarget.mp h)

/-! ## Reordered tables -/

/-- The policy with other hash tables. -/
def FullPolicydb.withTables (p : FullPolicydb) (te cond : Avtab)
    (ranges : List (RangeTrans × MlsRange)) (levels : List (Name × MlsLevel)) : FullPolicydb :=
  { p with
    teAvtab := te
    teCondAvtab := cond
    rangeTr := ranges
    mlsDb := { p.mlsDb with levels := levels } }

/-- The tables have the same entries as those of the policy, in some order. -/
structure SameEntries (p : FullPolicydb) (te cond : Avtab) (ranges : List (RangeTrans × MlsRange))
    (levels : List (Name × MlsLevel)) : Prop where
  teWf : te.Wf
  condWf : cond.Wf
  te : ∀ n, n ∈ te.nodes ↔ n ∈ p.teAvtab.nodes
  cond : ∀ n, n ∈ cond.nodes ↔ n ∈ p.teCondAvtab.nodes
  ranges : p.rangeTr.Perm ranges
  rangeKeys : (p.rangeTr.map Prod.fst).Nodup
  levels : p.mlsDb.levels.Perm levels
  levelKeys : (p.mlsDb.levels.map Prod.fst).Nodup

section Reordered

variable {te cond : Avtab} {ranges : List (RangeTrans × MlsRange)} {levels : List (Name × MlsLevel)}
  (h : SameEntries p te cond ranges levels)
include h

theorem activeRule_withTables {source target tclass kind n} :
    ActiveRule (p.withTables te cond ranges levels).toPolicydb source target tclass kind n ↔
      ActiveRule p.toPolicydb source target tclass kind n :=
  and_congr_left fun _ => or_congr (h.te n) (and_congr_left fun _ => h.cond n)

theorem contextIsValid_withTables (c : Context) :
    contextIsValid (p.withTables te cond ranges levels) c = contextIsValid p c := by
  have hlevel :
      ∀ l, mlsLevelIsvalid (p.withTables te cond ranges levels) l = mlsLevelIsvalid p l := by
    intro l
    unfold mlsLevelIsvalid
    simp only [FullPolicydb.withTables, Lib.lookup_perm h.levels h.levelKeys]
    rfl
  unfold contextIsValid mlsContextIsvalid
  rw [hlevel, hlevel]
  rfl

theorem mlsComputeSid_withTables (s t : Context) (tclass : Nat) (specified : BitVec 16) :
    mlsComputeSid (p.withTables te cond ranges levels) s t tclass specified =
      mlsComputeSid p s t tclass specified := by
  unfold mlsComputeSid
  simp only [FullPolicydb.withTables, Lib.lookup_perm h.ranges h.rangeKeys]
  rfl

variable (hte : p.teAvtab.Wf) (hcond : p.teCondAvtab.Wf) (huniq : Unambiguous p.toPolicydb)
  (hs : s.type < 2 ^ 16) (ht : t.type < 2 ^ 16) (tclass : Nat) (kind : SidKind)
include hte hcond huniq hs ht

theorem typeRule_withTables :
    typeRule (p.withTables te cond ranges levels) s t tclass kind.specified =
      typeRule p s t tclass kind.specified := by
  cases hp : typeRule p s t tclass kind.specified with
  | none =>
    cases hq : typeRule (p.withTables te cond ranges levels) s t tclass kind.specified with
    | none => rfl
    | some d =>
      obtain ⟨n, hn, -⟩ := typeRule_some h.teWf h.condWf hs ht hq
      exact absurd ⟨n, (activeRule_withTables h).mp hn⟩ (typeRule_none hte hcond hs ht hp)
  | some d =>
    obtain ⟨n, hn, rfl⟩ := typeRule_some hte hcond hs ht hp
    cases hq : typeRule (p.withTables te cond ranges levels) s t tclass kind.specified with
    | none =>
      exact absurd ⟨n, (activeRule_withTables h).mpr hn⟩ (typeRule_none h.teWf h.condWf hs ht hq)
    | some d' =>
      obtain ⟨n', hn', rfl⟩ := typeRule_some h.teWf h.condWf hs ht hq
      rw [huniq _ _ _ _ _ _ hn ((activeRule_withTables h).mp hn')]

theorem newContext_withTables :
    newContext (p.withTables te cond ranges levels) s t tclass kind.specified =
      newContext p s t tclass kind.specified := by
  unfold newContext
  rw [mlsComputeSid_withTables h, typeRule_withTables h hte hcond huniq hs ht]
  rfl

end Reordered

/-! ## Results -/

theorem sepolComputeSid_ok {fail p} {tab' : Sidtab} {ssid tsid tclass sid specified s t}
    (hs : tab.lookup ssid = some s) (ht : tab.lookup tsid = some t)
    (h : sepolComputeSid fail true p tab ssid tsid tclass specified = .ok (sid, tab')) :
    ∃ c, newContext p s t tclass specified = .ok c ∧ contextIsValid p c = true ∧
      sepolSidtabContextToSid fail tab c = .ok (sid, tab') := by
  unfold sepolComputeSid at h
  rw [sepolSidtabSearch_of_lookup hs, sepolSidtabSearch_of_lookup ht] at h
  cases hc : newContext p s t tclass specified with
  | error err => simp [hc] at h
  | ok c =>
    simp only [hc] at h
    split_ifs at h with hvalid
    exact ⟨c, rfl, by simpa using hvalid, h⟩

/-- Where at most one type rule is in force for each key and the types fit a rule key, a
request for the label of a new object that succeeds returns the SID of a valid context, which
is the label of the reference. Any other policy with the same entries in its hash tables, and
any other SID table that knows the two contexts, comes to the same context. -/
theorem sepolComputeSid_labels {p : FullPolicydb} (hte : p.teAvtab.Wf) (hcond : p.teCondAvtab.Wf)
    (huniq : Unambiguous p.toPolicydb) {fail : SidAlloc → Bool} {tab tab' : Sidtab}
    {ssid tsid tclass sid : Nat} {kind : SidKind} {s t : Context}
    (hssid : tab.lookup ssid = some s) (htsid : tab.lookup tsid = some t)
    (hs : s.type < 2 ^ 16) (ht : t.type < 2 ^ 16)
    (h : sepolComputeSid fail true p tab ssid tsid tclass kind.specified = .ok (sid, tab')) :
    ∃ c, sepolSidtabSearch tab' sid = some c ∧ contextIsValid p c = true ∧
      Labels p s t tclass kind c ∧ ∀ te cond ranges levels, SameEntries p te cond ranges levels →
        ∀ (fail2 : SidAlloc → Bool) (tab2 : Sidtab) (ssid2 tsid2 : Nat),
          tab2.lookup ssid2 = some s → tab2.lookup tsid2 = some t →
          sepolComputeSid fail2 true (p.withTables te cond ranges levels) tab2 ssid2 tsid2 tclass
              kind.specified = sepolSidtabContextToSid fail2 tab2 c ∧
          ∀ sid2 tab2', sepolSidtabContextToSid fail2 tab2 c = .ok (sid2, tab2') →
            sepolSidtabSearch tab2' sid2 = some c := by
  obtain ⟨c, hc, hvalid, htosid⟩ := sepolComputeSid_ok hssid htsid h
  refine ⟨c, sepolSidtabSearch_of_lookup (sepolSidtabContextToSid_ok htosid).1, hvalid,
    newContext_labels hte hcond huniq hs ht hc, ?_⟩
  intro te cond ranges levels hsame fail2 tab2 ssid2 tsid2 hssid2 htsid2
  refine ⟨?_, fun sid2 tab2' h2 => sepolSidtabSearch_of_lookup (sepolSidtabContextToSid_ok h2).1⟩
  unfold sepolComputeSid
  simp [sepolSidtabSearch_of_lookup hssid2, sepolSidtabSearch_of_lookup htsid2,
    newContext_withTables hsame hte hcond huniq hs ht, hc, contextIsValid_withTables hsame, hvalid]

/-- A policy with `n` types and a type transition to type `2` for processes and objects of
type `1`. -/
def transitionPolicydb (n : Nat) : FullPolicydb :=
  { manyTypePolicydb n with teAvtab := avtabOf [(⟨1, 1, 1, avtabTransition⟩, { data := 2 })] }

theorem transitionPolicydb_valid {n v : Nat} (hpos : 0 < v) (h : v ≤ n) :
    contextIsValid (transitionPolicydb n) ⟨1, 1, v, {}⟩ = true := manyTypePolicydb_valid hpos h

theorem transitionPolicydb_rule {n source target tclass kind x}
    (h : ActiveRule (transitionPolicydb n).toPolicydb source target tclass kind x) :
    x = { key := ⟨1, 1, 1, avtabTransition⟩, datum := { data := 2 } } := by
  rcases h.1 with h | h
  · exact mem_singleton.mp h
  · cases h.1

theorem transitionPolicydb_unambiguous (n : Nat) : Unambiguous (transitionPolicydb n).toPolicydb :=
  fun _ _ _ _ _ _ h1 h2 => (transitionPolicydb_rule h1).trans (transitionPolicydb_rule h2).symm

theorem transitionPolicydb_run {n} (hn : 2 ≤ n) {ssid tsid s t}
    (hs : tab.lookup ssid = some s) (ht : tab.lookup tsid = some t)
    (hnew : newContext (transitionPolicydb n) s t 1 SidKind.transition.specified = .ok
      ⟨1, 1, 2, {}⟩) : sepolComputeSid (fun _ => false) true (transitionPolicydb n) tab ssid tsid 1
      SidKind.transition.specified = sepolSidtabContextToSid (fun _ => false) tab
        ⟨1, 1, 2, {}⟩ := by
  unfold sepolComputeSid
  rw [sepolSidtabSearch_of_lookup hs, sepolSidtabSearch_of_lookup ht]
  simp [hnew, transitionPolicydb_valid (Nat.succ_pos 1) hn]

theorem exists_eq_ok {ε α : Type} {x : Except ε α} (h : x.toBool = true) : ∃ r, x = .ok r := by
  cases x with
  | error err => cases h
  | ok r => exact ⟨r, rfl⟩

theorem sepolComputeSid_labels_transition :
    ∃ sid tab' c, sepolComputeSid (fun _ => false) true (transitionPolicydb 2)
        (sidtabOf [⟨1, 1, 1, {}⟩]) 1 1 1 SidKind.transition.specified = .ok (sid, tab') ∧
      sepolSidtabSearch tab' sid = some c ∧
      Labels (transitionPolicydb 2) ⟨1, 1, 1, {}⟩ ⟨1, 1, 1, {}⟩ 1 .transition c := by
  have hlookup : (sidtabOf [⟨1, 1, 1, {}⟩]).lookup 1 = some ⟨1, 1, 1, {}⟩ := by decide
  have hrun := transitionPolicydb_run (n := 2) (Nat.le_refl 2) hlookup hlookup rfl
  obtain ⟨r, htosid⟩ :=
    exists_eq_ok (x := sepolSidtabContextToSid (fun _ => false) (sidtabOf [⟨1, 1, 1, {}⟩])
    ⟨1, 1, 2, {}⟩) (by decide)
  obtain ⟨c, hsearch, -, hlabels, -⟩ := sepolComputeSid_labels (p := transitionPolicydb 2)
    (avtabOf_wf _) (avtabAlloc_wf 0) (transitionPolicydb_unambiguous 2) hlookup hlookup (by decide)
    (by decide) (hrun.trans htosid)
  exact ⟨r.1, r.2, c, hrun.trans htosid, hsearch, hlabels⟩

/-- With more types than a rule key can name, one of them gets the result of the rule for
type `1`, although no rule is for it. -/
theorem sepolComputeSid_wide_type :
    (transitionPolicydb 65537).teAvtab.Wf ∧ (transitionPolicydb 65537).teCondAvtab.Wf ∧
    Unambiguous (transitionPolicydb 65537).toPolicydb ∧
    contextIsValid (transitionPolicydb 65537) ⟨1, 1, 65537, {}⟩ = true ∧
    contextIsValid (transitionPolicydb 65537) ⟨1, 1, 1, {}⟩ = true ∧
    (sidtabOf [⟨1, 1, 65537, {}⟩, ⟨1, 1, 1, {}⟩]).lookup 1 = some ⟨1, 1, 65537, {}⟩ ∧
    (sidtabOf [⟨1, 1, 65537, {}⟩, ⟨1, 1, 1, {}⟩]).lookup 2 = some ⟨1, 1, 1, {}⟩ ∧
    ∃ sid tab' c, sepolComputeSid (fun _ => false) true (transitionPolicydb 65537)
        (sidtabOf [⟨1, 1, 65537, {}⟩, ⟨1, 1, 1, {}⟩]) 1 2 1 SidKind.transition.specified =
          .ok (sid, tab') ∧ sepolSidtabSearch tab' sid = some c ∧
      ¬ Labels (transitionPolicydb 65537) ⟨1, 1, 65537, {}⟩ ⟨1, 1, 1, {}⟩ 1 .transition c := by
  have hs : (sidtabOf [⟨1, 1, 65537, {}⟩, ⟨1, 1, 1, {}⟩]).lookup 1 = some ⟨1, 1, 65537, {}⟩ := by
    decide
  have ht : (sidtabOf [⟨1, 1, 65537, {}⟩, ⟨1, 1, 1, {}⟩]).lookup 2 = some ⟨1, 1, 1, {}⟩ := by decide
  have hrun := transitionPolicydb_run (n := 65537) (by omega) hs ht rfl
  refine ⟨avtabOf_wf _, avtabAlloc_wf 0, transitionPolicydb_unambiguous _,
    transitionPolicydb_valid (by omega) (by omega), transitionPolicydb_valid (by omega) (by omega),
    hs, ht, ?_⟩
  obtain ⟨r, htosid⟩ := exists_eq_ok (x := sepolSidtabContextToSid (fun _ => false)
    (sidtabOf [⟨1, 1, 65537, {}⟩, ⟨1, 1, 1, {}⟩]) ⟨1, 1, 2, {}⟩) (by decide)
  refine ⟨r.1, r.2, _, hrun.trans htosid,
    sepolSidtabSearch_of_lookup (sepolSidtabContextToSid_ok htosid).1, fun hlabels => ?_⟩
  have hdefault := hlabels.typeDefault fun ⟨n, hn⟩ => by
    have hsource := hn.2.1.1
    rw [transitionPolicydb_rule hn] at hsource
    cases hsource
  exact absurd (hdefault.ofObject (by decide) (by decide) (by decide)) (by decide)

/-! ## The range -/

theorem mlsContextIsvalid_dom (hmls : p.mls = true) {c : Context}
    (h : mlsContextIsvalid p c = true) : mlsLevelDom c.range.high c.range.low = true := by
  simp only [mlsContextIsvalid, hmls, Bool.not_true, Bool.false_or, Bool.and_eq_true] at h
  exact h.1.1.1

/-- The common part of two ranges is a range, even if only the sensitivities overlap. -/
theorem mlsRangeGlblub_dom {r1 r2 : MlsRange} (h1 : mlsLevelDom r1.high r1.low = true)
    (h2 : mlsLevelDom r2.high r2.low = true) (h : mlsRangeGlblub r1 r2 = .ok r) :
    mlsLevelDom r.high r.low = true := by
  rw [mlsLevelDom_iff] at h1 h2
  rw [mlsRangeGlblub] at h
  split_ifs at h with hapart
  obtain rfl := Except.ok.inj h
  refine mlsLevelDom_iff.mpr ⟨?_, fun c hc => ?_⟩
  · -- each low sensitivity is below both high ones
    simpa [h1, h2] using hapart
  · simp_all

theorem changeRange_dom (p : FullPolicydb) (hs : mlsLevelDom s.range.high s.range.low = true)
    (tclass : Nat) : mlsLevelDom (changeRange p s tclass).high (changeRange p s tclass).low =
      true := by
  rw [changeRange]
  split_ifs
  · exact hs
  · exact mlsLevelDom_refl _

theorem defaultRange_dom {p} (hs : mlsLevelDom s.range.high s.range.low = true)
    (ht : mlsLevelDom t.range.high t.range.low = true) {tclass}
    (h : defaultRange p s t tclass = .ok r) : mlsLevelDom r.high r.low = true := by
  rw [defaultRange] at h
  split at h
  case h_7 =>
    cases hglblub : mlsRangeGlblub s.range t.range with
    | error err => simp [hglblub, Except.mapError] at h
    | ok range =>
      rw [hglblub] at h
      obtain rfl := Except.ok.inj h
      exact mlsRangeGlblub_dom hs ht hglblub
  case h_3 => exact Except.ok.inj h ▸ hs
  case h_6 => exact Except.ok.inj h ▸ ht
  case h_8 => exact Except.ok.inj h ▸ changeRange_dom p hs tclass
  -- the others have the same level twice
  all_goals exact Except.ok.inj h ▸ mlsLevelDom_refl _

/-- The high level of a computed range dominates the low one, if that holds for the targets of the
range transitions and for the two contexts. -/
theorem mlsComputeSid_dom {p : FullPolicydb} (hmls : p.mls = true)
    (hranges : ∀ e ∈ p.rangeTr, mlsLevelDom e.2.high e.2.low = true) {s t : Context}
    (hs : mlsContextIsvalid p s = true) (ht : mlsContextIsvalid p t = true) {tclass : Nat}
    {specified : BitVec 16} {r : MlsRange} (h : mlsComputeSid p s t tclass specified = .ok r) :
    mlsLevelDom r.high r.low = true := by
  have hs := mlsContextIsvalid_dom hmls hs
  have ht := mlsContextIsvalid_dom hmls ht
  simp only [mlsComputeSid, hmls, Bool.not_true, Bool.false_eq_true, if_false] at h
  split_ifs at h
  · cases hlookup : p.rangeTr.lookup ⟨s.type, t.type, tclass⟩ with
    | some range =>
      simp only [hlookup, Except.ok.injEq] at h
      exact h ▸ hranges _ (Lib.mem_of_lookup hlookup)
    | none =>
      simp only [hlookup] at h
      exact defaultRange_dom hs ht h
  · exact Except.ok.inj h ▸ changeRange_dom p hs tclass
  · exact Except.ok.inj h ▸ mlsLevelDom_refl _

/-- A policy whose class `1` has `DEFAULT_GLBLUB`, with two sensitivities and two categories. -/
def glblubPolicydb : FullPolicydb :=
  { manyTypePolicydb 1 with
    mls := true
    mlsDb :=
      { sensValToName := [some ['s'], some ['t']]
        levels := [(['s'], { sens := 1, cat := .ofList [0, 1] }),
          (['t'], { sens := 2, cat := .ofList [0, 1] })]
        catValToName := [some ['c'], some ['d']]
        cats := [(['c'], 1), (['d'], 2)] }
    classValToStruct := [some { value := 1, defaultRange := 7 }] }

def glblubSource : Context := ⟨1, 1, 1, ⟨⟨1, .ofList [0]⟩, ⟨2, .ofList [0, 1]⟩⟩⟩

def glblubTarget : Context := ⟨1, 1, 1, ⟨⟨1, ∅⟩, ⟨1, .ofList [1]⟩⟩⟩

theorem mlsComputeSid_dom_glblub : ∃ r,
    mlsComputeSid glblubPolicydb glblubSource glblubTarget 1 avtabTransition = .ok r ∧
    r = ⟨⟨1, ∅⟩, ⟨1, .ofList [1]⟩⟩ ∧ mlsLevelDom r.high r.low = true := by
  have hrun : mlsComputeSid glblubPolicydb glblubSource glblubTarget 1 avtabTransition =
      .ok ⟨⟨1, ∅⟩, ⟨1, .ofList [1]⟩⟩ := by decide +kernel
  exact ⟨_, hrun, rfl, mlsComputeSid_dom rfl (fun _ h => absurd h not_mem_nil)
    (by decide +kernel)
    (by decide +kernel) hrun⟩

end SELinux.Sepol
