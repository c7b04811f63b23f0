import SELinux.Sepol.AvtabRead
import SELinux.Sepol.Sidtab

/-! Loading a policy into the security server (`sepol_load_policy` in `services.c`). The
function reads the new policy, compares its classes with those of the active one, copies the
SID table and converts the copy, and only then changes what is active. The reader is
modelled up to the end of the policy's header; what it does with the rest of the file is a
parameter, since nothing here depends on it. -/
namespace SELinux.Sepol

open List Option

/-! ## Reading -/

def policydbMagic : BitVec 32 := 0xf97cff8c
def policydbModMagic : BitVec 32 := 0xf97cff8d
def policydbStringMaxLength : Nat := 32

/-- The bytes of a string literal. -/
def bytesOf (s : String) : List (BitVec 8) := s.toList.map fun c => BitVec.ofNat 8 c.toNat

/-- What `policydb_str` may be. A zero byte ends it, as for every C string. -/
def policydbStrings : PolicyType → List (List (BitVec 8))
  | .kern => [bytesOf "SE Linux", bytesOf "XenFlask"]
  | .base | .mod => [bytesOf "SE Linux Module"]

/-- The magic number and the identifying string of `policydb_read`. Whether a module is a
base module is only read after that. -/
def readHeader (fp : PolicyFile) : Option (PolicyType × PolicyFile) := do
  let (magic, fp) ← nextLe32 fp
  let (len, fp) ← nextLe32 fp
  let type ←
    if magic = policydbMagic then some .kern
    else if magic = policydbModMagic then some .mod else none
  if len = 0 ∨ policydbStringMaxLength < len.toNat ∨ fp.length < len.toNat then none
  else if (fp.take len.toNat).takeWhile (· ≠ 0) ∈ policydbStrings type then
    some (type, fp.drop len.toNat)
  else none

/-- `policydb_read`, with the reader of what follows the header. -/
def policydbRead (readBody : PolicyType → PolicyFile → Option FullPolicydb) (fp : PolicyFile) :
    Option FullPolicydb := do
  let (type, fp) ← readHeader fp
  readBody type fp

/-! ## Classes -/

/-- `validate_perm`: the permission is still there, with the same value. -/
def validatePerm (h : PermTable) (perm : Name × Nat) : Bool := h.lookup perm.1 == some perm.2

/-- The permissions of an inherited common, if both classes have one. -/
def validateCommon : Option PermTable → Option PermTable → Bool
  | some perms, some perms2 => perms.all (validatePerm perms2)
  | none, none => true
  | _, _ => false

/-- `validate_class`: the class is still defined with the same permissions. -/
def validateClass (newp : FullPolicydb) (cls : Name × ClassDatum) : Bool :=
  match newp.classTable.lookup cls.1 with
  | none => false
  | some cladatum2 =>
    cls.2.value == cladatum2.value && validateCommon cls.2.comdatum cladatum2.comdatum &&
      cls.2.permissions.all (validatePerm cladatum2.permissions)

/-! ## Contexts -/

/-- The name of a value; `0` is no index. -/
def nameOf (names : List (Option Name)) (value : Nat) : Option Name :=
  if value = 0 then none else names.getD (value - 1) none

def MlsLevel.named (p : FullPolicydb) (l : MlsLevel) : Bool :=
  (nameOf p.mlsDb.sensValToName l.sens).isSome &&
  l.cat.bits.all fun i => (nameOf p.mlsDb.catValToName (i + 1)).isSome

/-- The values of a context have names in the policy. All of them are read when a context is
converted, or printed because it cannot be. -/
def Context.named (p : FullPolicydb) (c : Context) : Bool :=
  (nameOf p.users.valToName c.user).isSome && (nameOf p.roleValToName c.role).isSome &&
  (nameOf p.typeValToName c.type).isSome &&
  (!p.mls || c.range.low.named p && c.range.high.named p)

/-- `hashtab_search(newp->table, oldp->val_to_name[value - 1])`. -/
def searchName {α : Type*} (names : List (Option Name)) (value : Nat) (table : List (Name × α)) :
    Option α :=
  (nameOf names value).bind fun name => table.lookup name

/-- A failed search is `-EINVAL`. -/
def orEinval {α : Type*} : Option α → Except SidFault α
  | some a => .ok a
  | none => .error .einval

/-- The categories of a level under their values in the new policy. -/
def convertCats (oldp newp : FullPolicydb) (cat : Ebitmap) : Option Ebitmap :=
  cat.bits.foldlM (fun bitmap i => do
    let value ← searchName oldp.mlsDb.catValToName (i + 1) newp.mlsDb.cats
    (ebitmapSetBit bitmap (value - 1) true).toOption) ∅

def convertLevel (oldp newp : FullPolicydb) (l : MlsLevel) : Option MlsLevel := do
  let levdatum ← searchName oldp.mlsDb.sensValToName l.sens newp.mlsDb.levels
  let cat ← convertCats oldp newp l.cat
  some { sens := levdatum.sens, cat }

def mlsConvertContext (oldp newp : FullPolicydb) (range : MlsRange) : Option MlsRange :=
  if !oldp.mls then some range
  else do
    let low ← convertLevel oldp newp range.low
    let high ← convertLevel oldp newp range.high
    some { low, high }

/-- `convert_context`, of a context whose values have names in the old policy. -/
def convertContext (fail : SidAlloc → Bool) (enforcing : Bool) (oldp newp : FullPolicydb)
    (key : Nat) (c : Context) : Except SidFault Context :=
  if fail (.copy key) then .error .enomem
  else do
    let addr ← orEinval (searchName oldp.users.valToName c.user newp.users.table)
    let usrdatum ← orEinval (newp.users.datumAt addr)
    let role ← orEinval (searchName oldp.roleValToName c.role newp.roleTable)
    let type ← orEinval (searchName oldp.typeValToName c.type newp.typeTable)
    let range ← orEinval (mlsConvertContext oldp newp c.range)
    let c := { user := usrdatum.value, role := role.value, type, range }
    if !contextIsValid newp c ∧ enforcing then .error .einval else return c

/-! ## Loading -/

/-- Where `policydb` points: to `mypolicydb`, or to a database that a caller set with
`sepol_set_policydb`. -/
inductive PolicydbPtr where
  | mypolicydb
  | callers
  deriving DecidableEq

/-- The state of the security server. A database that has been destroyed is `none`. -/
structure Server where
  mypolicydb : Option FullPolicydb
  callers : Option FullPolicydb := none
  policydb : PolicydbPtr := .mypolicydb
  sidtab : Sidtab

/-- The active policy. -/
def Server.active (s : Server) : Option FullPolicydb :=
  match s.policydb with
  | .mypolicydb => s.mypolicydb
  | .callers => s.callers

/-- `memcpy(policydb, &newpolicydb, …)`. -/
def Server.install (s : Server) (newp : FullPolicydb) : Server :=
  match s.policydb with
  | .mypolicydb => { s with mypolicydb := some newp }
  | .callers => { s with callers := some newp }

def cloneSid (fail : SidAlloc → Bool) (sid : Nat) (context : Context) (s : Sidtab) :
    Except SidFault Sidtab :=
  sepolSidtabInsert fail s sid context

/-- The places where `sepol_load_policy` needs memory: in `policydb_init`, and for the copy
of the SID table. -/
inductive LoadAlloc where
  | policydb
  | sid (a : SidAlloc)
  deriving DecidableEq

section Load

variable (readBody : PolicyType → PolicyFile → Option FullPolicydb) (fail : LoadAlloc → Bool)
  (enforcing : Bool) (junk : Sidtab)

/-- `sepol_load_policy`: the return value and the state that is left, `none` for a read
through a pointer that is null or dangling. `junk` is what `newsidtab` holds before it is
initialised. -/
def sepolLoadPolicy (s : Server) (data : PolicyFile) : Option (Except SidFault Unit × Server) :=
  if fail .policydb then some (.error .enomem, s)
  else
    match policydbRead readBody data with
    -- it is the library's own database that is destroyed, not the new one
    | none => some (.error .einval, { s with mypolicydb := none })
    | some newp =>
      match s.active with
      | none => none
      | some oldp =>
        if !oldp.classTable.all (validateClass newp) then some (.error .einval, s)
        else
          let newsidtab := sepolSidtabInit (fun a => fail (.sid a)) junk
          let s := { s with sidtab := sepolSidtabShutdown s.sidtab }
          match sepolSidtabMap (cloneSid fun a => fail (.sid a)) s.sidtab newsidtab with
          | .error _ => some (.error .enomem, s)
          | .ok newsidtab =>
            if newsidtab.entries.all fun e => fail (.sid (.copy e.1)) || e.2.named oldp then
              let newsidtab := sepolSidtabMapRemoveOnError
                (convertContext (fun a => fail (.sid a)) enforcing oldp newp) newsidtab
              some (.ok (), { s.install newp with sidtab := sepolSidtabSet newsidtab })
            else none

end Load

/-! ## Copying the table -/

/-- The copy of the SID table cannot be made. -/
def CloneFails (fail : SidAlloc → Bool) (s : Sidtab) : Prop :=
  (fail .table = true ∧ s.entries ≠ []) ∨ ∃ e ∈ s.entries, fail (.node e.1) = true

variable {s : Sidtab}

theorem sepolSidtabInsert_new (fail : SidAlloc → Bool) {h : SidtabHtable}
    (hs : s.htable = some h) {sid : Nat} (hnew : h.find? sid = none) (c : Context) :
    if fail (.node sid) = true then sepolSidtabInsert fail s sid c = .error .enomem
    else ∃ s' h', sepolSidtabInsert fail s sid c = .ok s' ∧ s'.htable = some h' ∧
      ∀ j ≠ sid, h'.find? j = h.find? j := by
  cases hi : h.insert sid c with
  | none =>
    rw [Lib.Buckets.insert_eq_none, hnew] at hi
    cases hi
  | some h' =>
    split_ifs with hf
    · simp [sepolSidtabInsert, hs, hi, hf]
    · refine ⟨_, h', by simp only [sepolSidtabInsert, hs, hi, if_neg hf]; rfl, rfl, fun j hj => ?_⟩
      exact Lib.Buckets.find?_insert_of_ne hi hj

/-- The loop over entries that the new table does not have yet. -/
theorem clone_error_iff {fail} {l : List (Nat × Context)} (hkeys : (l.map Prod.fst).Nodup)
    {h : SidtabHtable} (hs : s.htable = some h) (hnew : ∀ e ∈ l, h.find? e.1 = none) :
    (∃ err, l.foldlM (fun s e => cloneSid fail e.1 e.2 s) s = .error err) ↔
      ∃ e ∈ l, fail (.node e.1) = true := by
  induction l generalizing s h with
  | nil => exact ⟨fun ⟨err, h⟩ => (nomatch h), fun ⟨e, he, _⟩ => (nomatch he)⟩
  | cons e l ih =>
    obtain ⟨hfirst, hrest⟩ := nodup_cons.mp hkeys
    have hstep := sepolSidtabInsert_new fail hs (hnew e (by simp)) e.2
    rw [foldlM_cons]
    split_ifs at hstep with hf
    · refine iff_of_true ⟨.enomem, ?_⟩ ⟨e, by simp, hf⟩
      rw [cloneSid, hstep]
      rfl
    · obtain ⟨s', h', hok, hs', hother⟩ := hstep
      have hnew' : ∀ x ∈ l, h'.find? x.1 = none := by
        intro x hx
        rw [hother x.1 fun heq => hfirst (heq ▸ mem_map_of_mem hx)]
        exact hnew x (by simp [hx])
      rw [cloneSid, hok]
      refine (ih hrest hs' hnew').trans ?_
      simp [hf]

theorem sepolSidtabMap_clone_error_iff (fail : SidAlloc → Bool) (s junk : Sidtab) :
    (∃ err, sepolSidtabMap (cloneSid fail) s (sepolSidtabInit fail junk) = .error err) ↔
      CloneFails fail s := by
  unfold sepolSidtabMap sepolSidtabInit CloneFails
  by_cases htable : fail .table = true
  · -- nothing can be inserted into a table that was not allocated
    rw [if_pos htable]
    cases hl : s.entries with
    | nil => exact iff_of_false (fun ⟨err, h⟩ => (nomatch h)) (by simp)
    | cons e l => exact iff_of_true ⟨.enomem, rfl⟩ (.inl ⟨htable, by simp⟩)
  · simp only [htable, Bool.false_eq_true, false_and, false_or]
    refine clone_error_iff ?_ rfl fun e _ => Lib.Buckets.find?_empty e.1
    unfold Sidtab.entries
    cases s.htable with
    | none => exact nodup_nil
    | some h => exact h.nodup_keys

/-! ## New contexts -/

/-- No new context can get a SID: the table is shut down, there are no SIDs left, or the next
one is taken. -/
def Sidtab.closed (s : Sidtab) : Bool :=
  s.shutdown || s.nextSid == uintMax || (s.lookup s.nextSid).isSome

/-- A context that no SID has. -/
theorem exists_new_context (h : SidtabHtable) : ∃ c, sepolSidtabSearchContext h c = 0 := by
  refine ⟨{ user := (h.entries.map fun e => e.2.user).foldr max 0 + 1 }, ?_⟩
  unfold sepolSidtabSearchContext
  cases hf : h.entries.find? fun e => contextCmp e.2
      { user := (h.entries.map fun e => e.2.user).foldr max 0 + 1 } with
  | none => rfl
  | some e =>
    have hcmp := find?_some hf
    rw [contextCmp_iff] at hcmp
    have hle := le_foldr_max (mem_map_of_mem (f := fun e : Nat × Context => e.2.user)
      (mem_of_find?_eq_some hf))
    rw [hcmp] at hle
    exact absurd hle (Nat.not_succ_le_self _)

theorem sepolSidtabInsert_taken {fail} {sid} (h : (s.lookup sid).isSome = true)
    (c : Context) : sepolSidtabInsert fail s sid c = .error .eexist := by
  unfold Sidtab.lookup at h
  unfold sepolSidtabInsert
  cases ht : s.htable with
  | none => simp [ht] at h
  | some t =>
    have hi : t.insert sid c = none := Lib.Buckets.insert_eq_none.mpr (by simpa [ht] using h)
    simp [hi]

/-- Shutting the table down takes nothing away exactly if it was closed to new contexts. -/
theorem shutdown_maps_iff {h} (hs : s.htable = some h) :
    (∀ fail c, (sepolSidtabContextToSid fail s c).toBool = true →
      (sepolSidtabContextToSid fail (sepolSidtabShutdown s) c).toBool = true) ↔
        s.closed = true := by
  obtain ⟨htable, nel, nextSid, shutdown⟩ := s
  obtain rfl : htable = some h := hs
  have hafter : ∀ fail c, sepolSidtabContextToSid fail
      (sepolSidtabShutdown ⟨some h, nel, nextSid, shutdown⟩) c =
      if sepolSidtabSearchContext h c ≠ 0 then
        .ok (sepolSidtabSearchContext h c, ⟨some h, nel, nextSid, true⟩) else .error .enomem := by
    simp [sepolSidtabContextToSid, sepolSidtabShutdown]
  constructor
  · intro hmaps
    by_contra hclosed
    simp only [Sidtab.closed, Bool.or_eq_true, beq_iff_eq, not_or, Bool.not_eq_true,
      isSome_eq_false_iff, isNone_iff_eq_none] at hclosed
    obtain ⟨⟨rfl, hnext⟩, hfree⟩ := hclosed
    obtain ⟨c, hc⟩ := exists_new_context h
    have hinsert := sepolSidtabInsert_new (fun _ => false)
      (s := ⟨some h, nel, nextSid + 1, false⟩) rfl hfree c
    obtain ⟨s', h', hok, -⟩ := hinsert
    have hbefore :
        (sepolSidtabContextToSid (fun _ => false) ⟨some h, nel, nextSid, false⟩ c).toBool =
        true := by
      simp [sepolSidtabContextToSid, hc, hnext, hok, Except.toBool]
    have := hmaps _ c hbefore
    rw [hafter, if_neg (by simp [hc])] at this
    cases this
  · intro hclosed fail c hbefore
    rw [hafter]
    split_ifs with hc
    · rfl
    · -- a context without a SID did not get one before either
      simp only [sepolSidtabContextToSid, if_neg hc] at hbefore
      split_ifs at hbefore with hstop
      · cases hbefore
      · rw [not_or] at hstop
        have htaken : (h.find? nextSid).isSome = true := by
          simpa [Sidtab.closed, Sidtab.lookup, hstop.1, hstop.2] using hclosed
        rw [sepolSidtabInsert_taken (s := ⟨some h, nel, nextSid + 1, shutdown⟩) htaken] at hbefore
        cases hbefore

/-! ## Results -/

/-- The active policy is the same, known SIDs have their contexts, and new contexts can be
mapped if they could before. -/
structure Unharmed (s s' : Server) : Prop where
  policy : s'.active = s.active
  sids : ∀ sid c, s.sidtab.lookup sid = some c → sepolSidtabSearch s'.sidtab sid = some c
  maps : ∀ fail c, (sepolSidtabContextToSid fail s.sidtab c).toBool = true →
    (sepolSidtabContextToSid fail s'.sidtab c).toBool = true

theorem Unharmed.of_same {s s' : Server} (hpolicy : s'.active = s.active)
    (hsidtab : s'.sidtab = s.sidtab) : Unharmed s s' where
  policy := hpolicy
  sids := fun _ _ h => hsidtab ▸ sepolSidtabSearch_of_lookup h
  maps := fun _ _ h => hsidtab ▸ h

/-- What is left when the copy fails. -/
theorem unharmed_shutdown_iff {fail} {s : Server} (hfails : CloneFails fail s.sidtab) :
    (∀ (err : SidFault) (s' : Server), some ((.error .enomem : Except SidFault Unit),
        { s with sidtab := sepolSidtabShutdown s.sidtab }) = some (.error err, s') →
          Unharmed s s') ↔
      s.sidtab.closed = true := by
  obtain ⟨h, hs⟩ : ∃ h, s.sidtab.htable = some h := by
    cases hs : s.sidtab.htable with
    | none =>
      have hnil : s.sidtab.entries = [] := by rw [Sidtab.entries, hs]
      rcases hfails with ⟨-, hne⟩ | ⟨e, he, -⟩
      · exact absurd hnil hne
      · rw [hnil] at he
        cases he
    | some h => exact ⟨h, rfl⟩
  rw [← shutdown_maps_iff hs]
  constructor
  · exact fun hall => (hall _ _ rfl).maps
  · intro hmaps err s' heq
    obtain ⟨-, rfl⟩ := Prod.mk.inj (some_inj.mp heq)
    exact ⟨rfl, fun _ _ h => sepolSidtabSearch_of_lookup h, hmaps⟩

/-- A failing load does no harm, if and only if: should the new policy not be readable, the
active one is not the library's own; and should the SID table not be copied although no class
has changed, it was closed to new contexts anyway. -/
theorem sepolLoadPolicy_unharmed_iff {readBody : PolicyType → PolicyFile → Option FullPolicydb}
    {fail : LoadAlloc → Bool} {enforcing : Bool} {junk : Sidtab} {s : Server} {oldp : FullPolicydb}
    (hactive : s.active = some oldp) {data : PolicyFile} :
    (∀ err s', sepolLoadPolicy readBody fail enforcing junk s data = some (.error err, s') →
      Unharmed s s') ↔ (fail .policydb = false → match policydbRead readBody data with
      | none => s.policydb ≠ .mypolicydb
      | some newp => oldp.classTable.all (validateClass newp) = true →
          CloneFails (fun a => fail (.sid a)) s.sidtab → s.sidtab.closed = true) := by
  unfold sepolLoadPolicy
  by_cases hinit : fail .policydb = true
  · rw [if_pos hinit]
    refine iff_of_true (fun err s' h => ?_) fun h => absurd (hinit.symm.trans h) (by simp)
    obtain ⟨-, rfl⟩ := Prod.mk.inj (some_inj.mp h)
    exact .of_same rfl rfl
  rw [if_neg hinit, forall_prop_of_true (Bool.not_eq_true _ ▸ hinit)]
  cases hread : policydbRead readBody data with
  | none =>
    constructor
    · intro hall hmine
      have := (hall _ _ rfl).policy
      rw [hactive, Server.active, hmine] at this
      cases this
    · intro hother err s' h
      obtain ⟨-, rfl⟩ := Prod.mk.inj (some_inj.mp h)
      refine .of_same ?_ rfl
      unfold Server.active
      cases hptr : s.policydb with
      | mypolicydb => exact absurd hptr hother
      | callers => rfl
  | some newp =>
    simp only [hactive]
    by_cases hclasses : oldp.classTable.all (validateClass newp) = true
    · rw [if_neg (by simp [hclasses]), forall_prop_of_true hclasses]
      have hclone := sepolSidtabMap_clone_error_iff (fun a => fail (.sid a))
        (sepolSidtabShutdown s.sidtab) junk
      cases hmap : sepolSidtabMap (cloneSid fun a => fail (.sid a)) (sepolSidtabShutdown s.sidtab)
          (sepolSidtabInit (fun a => fail (.sid a)) junk) with
      | error err =>
        have hfails : CloneFails (fun a => fail (.sid a)) s.sidtab := hclone.mp ⟨err, hmap⟩
        rw [forall_prop_of_true hfails]
        exact unharmed_shutdown_iff hfails
      | ok newsidtab =>
        refine iff_of_true (fun err s' h => ?_) fun hfails => ?_
        · dsimp only at h
          split_ifs at h
          cases h
        · obtain ⟨err, herr⟩ := hclone.mpr hfails
          rw [hmap] at herr
          cases herr
    · rw [if_pos (by simp [hclasses])]
      refine iff_of_true (fun err s' h => ?_) fun h => absurd h hclasses
      obtain ⟨-, rfl⟩ := Prod.mk.inj (some_inj.mp h)
      exact .of_same rfl rfl

/-- A policy header, for a reader that takes any body. -/
def headerFile : PolicyFile :=
  [0x8c, 0xff, 0x7c, 0xf9, 0x08, 0, 0, 0] ++ bytesOf "SE Linux"

/-- An empty file makes the server lose its policy, whatever the rest of the reader does. A
failed allocation for the copy of a SID leaves it with a table that takes no new contexts. -/
theorem sepolLoadPolicy_harms : (∀ readBody, ∃ s', sepolLoadPolicy readBody (fun _ => false) true {}
        { mypolicydb := some {}, sidtab := sidtabOf [] } [] = some (.error .einval, s') ∧
      s'.active = none ∧ ¬ Unharmed { mypolicydb := some {}, sidtab := sidtabOf [] } s') ∧
    ∃ s', sepolLoadPolicy (fun _ _ => some {}) (· == .sid (.node 1)) true {}
        { mypolicydb := some {}, sidtab := sidtabOf [{ user := 1 }] } headerFile =
          some (.error .enomem, s') ∧
      (sepolSidtabContextToSid (fun _ => false) (sidtabOf [{ user := 1 }]) { user := 2 }).toBool =
        true ∧
      (sepolSidtabContextToSid (fun _ => false) s'.sidtab { user := 2 }).toBool = false := by
  refine ⟨fun readBody => ⟨_, rfl, rfl, fun h => ?_⟩, _, rfl, by decide, by decide⟩
  cases h.policy

/-- With the active policy elsewhere nothing is lost. -/
theorem sepolLoadPolicy_unharmed_callers :
    let active : FullPolicydb := { typeValToStruct := [some {}] }
    let s : Server :=
      { mypolicydb := none, callers := some active, policydb := .callers
        sidtab := sidtabOf [{ user := 1, role := 1, type := 1 }] }
    ∃ s', sepolLoadPolicy (fun _ _ => none) (fun _ => false) true {} s [] =
      some (.error .einval, s') ∧ Unharmed s s' := by
  intro active s
  have hall := (@sepolLoadPolicy_unharmed_iff (fun _ _ => none) (fun _ => false) true {} s active
    rfl []).mpr fun _ => show PolicydbPtr.callers ≠ .mypolicydb by decide
  exact ⟨_, rfl, hall .einval _ rfl⟩

end SELinux.Sepol
