import SELinux.Lib.Assoc
import SELinux.Sepol.Symbols

/-! Adding and changing a user (`sepol_user_modify` in `users.c`). The function works in
place: an existing datum is reset and filled again, a new one is filled and then hung
into the table and the two reverse tables. Every allocation can fail, so the function
takes the set of failing ones. -/
namespace SELinux.Sepol

open List

/-! ## Model -/

/-- `sepol_user_t`: the record to store. -/
structure SepolUser where
  roles : List Name := []
  mlsLevel : Option Name := none
  mlsRange : Option Name := none

/-- The places where `sepol_user_modify` needs memory, in the order it reaches them.
`roleBit i b` stores dominated role `b` for role number `i` of the record; the two
`rangeCopy` are the levels of a range. -/
inductive UserAlloc where
  | getRoles
  | datum
  | roleBit (i b : Nat)
  | levelText
  | levelCopy
  | rangeText
  | rangeCopy (high : Bool)
  | valToStruct
  | valToName
  | name
  | insert
  | expand
  deriving DecidableEq

/-- The causes of `STATUS_ERR`. -/
inductive UserError where
  | outOfMemory
  | undefinedRole (role : Name)
  | noLevel
  | badLevel
  | copyLevel
  | noRange
  | badRange
  | copyRange
  | mlsDisabled
  | expand
  deriving DecidableEq

/-- `role_set_expand` without a role map. -/
def roleSetExpand (x : RoleSet) (nprim : Nat) : Option Ebitmap :=
  if x.flags &&& roleStar ≠ 0 then
    (range nprim).foldlM (fun r i => (ebitmapSetBit r i true).toOption) ∅
  else if x.flags &&& roleComp ≠ 0 then
    (range nprim).foldlM
      (fun r i => (ebitmapSetBit r i (!ebitmapGetBit r i)).toOption) x.roles
  else some x.roles

section

variable (p : FullPolicydb) (user : SepolUser) (fail : UserAlloc → Bool) (i : Nat)

/-- Set the roles that role number `i` dominates, until one cannot be stored. -/
def setDominated : List Nat → Ebitmap → Ebitmap × Bool
  | [], roles => (roles, true)
  | bit :: bits, roles =>
    if fail (.roleBit i bit) then (roles, false)
    else match ebitmapSetBit roles bit true with
      | .error _ => (roles, false)
      | .ok roles => setDominated bits roles

/-- The loop over the roles of the record. -/
def userRoles : Nat → List Name → Ebitmap → Ebitmap × Option UserError
  | _, [], roles => (roles, none)
  | i, name :: names, roles =>
    match p.roleTable.lookup name with
    | none => (roles, some (.undefinedRole name))
    | some role =>
      match setDominated fail i role.dominates.bits roles with
      | (roles, false) => (roles, some .outOfMemory)
      | (roles, true) => userRoles (i + 1) names roles

/-- `mls_from_string` of a given text. -/
def mlsFromString (fail : Bool) (str : Name) : Option MlsRange :=
  if fail then none else mlsContextToSid p.mlsDb.toMlsSymbols str

/-- `mls_level_cpy`: a failed copy has written the sensitivity. -/
def mlsLevelCpy (fail : Bool) (src : MlsLevel) : MlsLevel × Bool :=
  if fail then ({ sens := src.sens }, false) else (src, true)

/-- `mls_range_cpy`: a failed copy of the high level resets the low one. -/
def mlsRangeCpy (fail : Bool → Bool) (src : MlsRange) : MlsRange × Bool :=
  match mlsLevelCpy (fail false) src.low with
  | (low, false) => ({ low := low }, false)
  | (low, true) =>
    match mlsLevelCpy (fail true) src.high with
    | (high, false) => ({ high := high }, false)
    | (high, true) => ({ low := low, high := high }, true)

/-- The part of `sepol_user_modify` for the range. -/
def userMlsRange (d : UserDatum) : UserDatum × Option UserError :=
  match user.mlsRange with
  | none => (d, some .noRange)
  | some text =>
    match mlsFromString p (fail .rangeText) text with
    | none => (d, some .badRange)
    | some range =>
      match mlsRangeCpy (fun high => fail (.rangeCopy high)) range with
      | (r, false) => ({ d with expRange := r }, some .copyRange)
      | (r, true) => ({ d with expRange := r }, none)

/-- The part of `sepol_user_modify` for the default level and the range. -/
def userMls (d : UserDatum) : UserDatum × Option UserError :=
  if p.mls then
    match user.mlsLevel with
    | none => (d, some .noLevel)
    | some text =>
      match mlsFromString p (fail .levelText) text with
      | none => (d, some .badLevel)
      | some range =>
        match mlsLevelCpy (fail .levelCopy) range.low with
        | (l, false) => ({ d with expDfltlevel := l }, some .copyLevel)
        | (l, true) => userMlsRange p user fail { d with expDfltlevel := l }
  else if user.mlsLevel.isSome || user.mlsRange.isSome then (d, some .mlsDisabled)
  else (d, none)

/-- Fill a datum that `user_datum_init` has reset, up to the first failure. -/
def userFill (value : Nat) : UserDatum × Option UserError :=
  match userRoles p fail 0 user.roles ∅ with
  | (roles, some e) => ({ value := value, roles := { roles := roles } }, some e)
  | (roles, none) => userMls p user fail { value := value, roles := { roles := roles } }

/-- Add a filled datum to the policy. The arrays grow before the counter does, and the
user is in the table before its roles are expanded. -/
def userAdd (cname : Name) (rolesNprim : Nat) (d : UserDatum) (u : Users) :
    Option UserError × Users :=
  if fail .valToStruct then (some .outOfMemory, u)
  else
    let u := { u with valToStruct := u.valToStruct.take u.nprim ++ [none] }
    if fail .valToName then (some .outOfMemory, u)
    else
      let u := { u with valToName := u.valToName.take u.nprim ++ [none] }
      if fail .name then (some .outOfMemory, u)
      else
        let value := u.nprim + 1
        let u := { u with nprim := value }
        if fail .insert then (some .outOfMemory, u)
        else
          let addr := u.heap.length
          let d := { d with value := value }
          let u := { u with
            table := (cname, addr) :: u.table
            valToName := u.valToName.set (value - 1) (some cname)
            valToStruct := u.valToStruct.set (value - 1) (some addr) }
          match if fail .expand then none else roleSetExpand d.roles rolesNprim with
          -- the datum is freed, but stays in the tables
          | none => (some .expand, { u with heap := u.heap ++ [none] })
          | some cache => (none, { u with heap := u.heap ++ [some { d with cache := cache }] })

/-- `sepol_user_modify`: the error, if any, and the users afterwards. -/
def sepolUserModify (cname : Name) (user : SepolUser)
    (fail : UserAlloc → Bool) : Option UserError × Users :=
  let u := p.users
  if fail .getRoles then (some .outOfMemory, u)
  else match u.table.lookup cname with
    | some addr =>
      let r := userFill p user fail ((u.datumAt addr).getD {}).value
      (r.2, { u with heap := u.heap.set addr (some r.1) })
    | none =>
      if fail .datum then (some .outOfMemory, u)
      else match userFill p user fail 0 with
        | (_, some e) => (some e, u)
        | (d, none) => userAdd fail cname p.rolesNprim d u

/-- What `policydb_index_others` establishes of the user tables: a user's value is one
of the values in use, and the reverse tables lead from it back to the user. -/
structure Users.Wf (u : Users) : Prop where
  names : (u.table.map Prod.fst).Nodup
  addrs : (u.table.map Prod.snd).Nodup
  nameLength : u.valToName.length = u.nprim
  structLength : u.valToStruct.length = u.nprim
  indexed : ∀ e ∈ u.table, ∃ d, u.datumAt e.2 = some d ∧ 0 < d.value ∧
    u.valToName[d.value - 1]? = some (some e.1) ∧ u.valToStruct[d.value - 1]? = some (some e.2)

/-! ## The roles that are stored -/

/-- Role number `k` of a record is defined and all it dominates can be stored. -/
def RoleRead (k : Nat) (name : Name) : Prop :=
  ∃ role, p.roleTable.lookup name = some role ∧
    ∀ b ∈ role.dominates, fail (.roleBit k b) = false

/-- Role `r` is stored for one of the roles `names`, numbered from `i` on: it is
dominated by a role that all before it have been read, and is stored before anything
fails. -/
def RoleStored (names : List Name) (r : Nat) : Prop :=
  ∃ k name role, names[k]? = some name ∧ p.roleTable.lookup name = some role ∧
    r ∈ role.dominates ∧ (∀ b ∈ role.dominates, b ≤ r → fail (.roleBit (i + k) b) = false) ∧
    ∀ j < k, ∀ n, names[j]? = some n → RoleRead p fail (i + j) n

theorem setDominated_spec {bits : List Nat} (roles : Ebitmap)
    (hsorted : bits.Pairwise (· < ·)) (hbound : ∀ b ∈ bits, b < ebitmapLimit) :
    ((setDominated fail i bits roles).2 = true ↔ ∀ b ∈ bits, fail (.roleBit i b) = false) ∧
    ∀ r, r ∈ (setDominated fail i bits roles).1 ↔
      r ∈ roles ∨ (r ∈ bits ∧ ∀ b ∈ bits, b ≤ r → fail (.roleBit i b) = false) := by
  induction bits generalizing roles with
  | nil => simp [setDominated]
  | cons bit bits ih =>
    obtain ⟨hlt, hsorted⟩ := pairwise_cons.mp hsorted
    rw [setDominated]
    by_cases hfail : fail (.roleBit i bit) = true
    · rw [if_pos hfail]
      refine ⟨?_, fun r => ?_⟩
      · simp [hfail]
      · refine ⟨Or.inl, ?_⟩
        rintro (h | ⟨hmem, hall⟩)
        · exact h
        · -- the failing bit comes first, so nothing behind it is stored
          have hle : bit ≤ r := by
            rcases mem_cons.mp hmem with rfl | hmem
            · exact Nat.le_refl _
            · exact Nat.le_of_lt (hlt r hmem)
          simp [hfail, hle] at hall
    · rw [if_neg hfail, ebitmapSetBit_true (hbound bit mem_cons_self)]
      obtain ⟨hok, hmem⟩ := ih (roles.set bit (hbound bit mem_cons_self)) hsorted
        fun b hb => hbound b (mem_cons_of_mem _ hb)
      refine ⟨?_, fun r => ?_⟩
      · simp [hok, hfail]
      · rw [hmem, Ebitmap.mem_set, forall_mem_cons, mem_cons]
        simp only [hfail, implies_true, true_and]
        constructor
        · rintro ((rfl | h) | ⟨h, hall⟩)
          · exact .inr ⟨.inl rfl, fun b hb hle => absurd (hlt b hb) (Nat.not_lt.mpr hle)⟩
          · exact Or.inl h
          · exact Or.inr ⟨Or.inr h, hall⟩
        · rintro (h | ⟨rfl | h, hall⟩)
          · exact Or.inl (Or.inr h)
          · exact Or.inl (Or.inl rfl)
          · exact Or.inr ⟨h, hall⟩

end

theorem roleStored_cons {p : FullPolicydb} {fail} {i name names r} :
    RoleStored p fail i (name :: names) r ↔
      (∃ role, p.roleTable.lookup name = some role ∧ r ∈ role.dominates ∧
        ∀ b ∈ role.dominates, b ≤ r → fail (.roleBit i b) = false) ∨
      (RoleRead p fail i name ∧ RoleStored p fail (i + 1) names r) := by
  constructor
  · rintro ⟨k, n, role, hk, hrole, hr, hall, hbefore⟩
    cases k with
    | zero =>
      cases hk
      exact .inl ⟨role, hrole, hr, hall⟩
    | succ k =>
      refine Or.inr ⟨hbefore 0 (Nat.zero_lt_succ k) name rfl, k, n, role, hk, hrole, hr, ?_, ?_⟩
      · rwa [Nat.add_right_comm i 1 k]
      · intro j hj m hm
        rw [Nat.add_right_comm i 1 j]
        exact hbefore (j + 1) (Nat.succ_lt_succ hj) m hm
  · rintro (⟨role, hrole, hr, hall⟩ | ⟨hread, k, n, role, hk, hrole, hr, hall, hbefore⟩)
    · exact ⟨0, name, role, rfl, hrole, hr, hall, fun j hj => absurd hj (Nat.not_lt_zero j)⟩
    · refine ⟨k + 1, n, role, hk, hrole, hr, ?_, ?_⟩
      · rwa [Nat.add_right_comm i 1 k] at hall
      · intro j hj m hm
        cases j with
        | zero =>
          cases hm
          exact hread
        | succ j =>
          have := hbefore j (Nat.lt_of_succ_lt_succ hj) m hm
          rwa [Nat.add_right_comm i 1 j] at this

variable (p : FullPolicydb)

section

variable (user : SepolUser) (fail : UserAlloc → Bool)

theorem userRoles_spec (i : Nat) (names : List Name) (roles : Ebitmap) :
    ((userRoles p fail i names roles).2 = none ↔
      ∀ k n, names[k]? = some n → RoleRead p fail (i + k) n) ∧
    ∀ r, r ∈ (userRoles p fail i names roles).1 ↔ r ∈ roles ∨ RoleStored p fail i names r := by
  induction names generalizing i roles with
  | nil =>
    simp [userRoles, RoleStored]
  | cons name names ih =>
    have hall : (∀ k n, (name :: names)[k]? = some n → RoleRead p fail (i + k) n) ↔
        RoleRead p fail i name ∧
          ∀ k n, names[k]? = some n → RoleRead p fail (i + 1 + k) n := by
      constructor
      · intro h
        refine ⟨h 0 name rfl, fun k n hk => ?_⟩
        rw [Nat.add_right_comm i 1 k]
        exact h (k + 1) n hk
      · rintro ⟨h0, h⟩ k n hk
        cases k with
        | zero =>
          cases hk
          exact h0
        | succ k =>
          have := h k n hk
          rwa [Nat.add_right_comm i 1 k] at this
    rw [hall, userRoles]
    cases hrole : p.roleTable.lookup name with
    | none =>
      simp [RoleRead, hrole, roleStored_cons]
    | some role =>
      obtain ⟨hok, hmem⟩ := setDominated_spec fail i roles
        role.dominates.sorted role.dominates.bound
      simp only [Ebitmap.mem_bits] at hok hmem
      have hread : RoleRead p fail i name ↔
          (setDominated fail i role.dominates.bits roles).2 = true := by
        rw [hok]
        simp [RoleRead, hrole]
      have hfirst : ∀ r, (∃ role', some role = some role' ∧ r ∈ role'.dominates ∧
          ∀ b ∈ role'.dominates, b ≤ r → fail (.roleBit i b) = false) ↔
          r ∈ role.dominates ∧ ∀ b ∈ role.dominates, b ≤ r → fail (.roleBit i b) = false := by
        simp
      simp only [roleStored_cons, hrole, hfirst]
      rw [hread]
      cases hset : setDominated fail i role.dominates.bits roles with
      | mk roles' ok =>
        rw [hset] at hmem
        cases ok with
        | false => simp [hmem]
        | true =>
          obtain ⟨hnone, hmem'⟩ := ih (i + 1) roles'
          refine ⟨by simpa using hnone, fun r => ?_⟩
          simp only [hmem', hmem, true_and, or_assoc]

/-- All roles of the record are defined and can be stored. -/
def RolesRead : Prop :=
  ∀ k n, user.roles[k]? = some n → RoleRead p fail k n

/-! ## The levels that are stored -/

/-- The range that the default level's text denotes, if it is there and can be read. -/
def levelRead : Option MlsRange :=
  user.mlsLevel.bind (mlsFromString p (fail .levelText))

/-- The range that the range's text denotes, if it is there and can be read. -/
def rangeRead : Option MlsRange :=
  user.mlsRange.bind (mlsFromString p (fail .rangeText))

/-- The default level that is left after the roles have been read. -/
def storedLevel : MlsLevel :=
  match p.mls, levelRead p user fail with
  | true, some r => (mlsLevelCpy (fail .levelCopy) r.low).1
  | _, _ => {}

/-- The range that is left after the roles have been read. -/
def storedRange : MlsRange :=
  match p.mls, levelRead p user fail, fail .levelCopy, rangeRead p user fail with
  | true, some _, false, some r => (mlsRangeCpy (fun high => fail (.rangeCopy high)) r).1
  | _, _, _, _ => {}

/-- The level and the range of the record can be stored, or there are none and none are
wanted. -/
def MlsRead : Prop :=
  if p.mls then
    (levelRead p user fail).isSome ∧ fail .levelCopy = false ∧ (rangeRead p user fail).isSome ∧
      fail (.rangeCopy false) = false ∧ fail (.rangeCopy true) = false
  else user.mlsLevel = none ∧ user.mlsRange = none

theorem mlsRangeCpy_ok (fail : Bool → Bool) (r : MlsRange) :
    (mlsRangeCpy fail r).2 = true ↔ fail false = false ∧ fail true = false := by
  cases h1 : fail false <;> cases h2 : fail true <;> simp [mlsRangeCpy, mlsLevelCpy, h1, h2]

theorem userMls_spec (value : Nat) (roles : RoleSet) :
    (userMls p user fail { value := value, roles := roles }).1 =
      { value := value, roles := roles, expDfltlevel := storedLevel p user fail,
        expRange := storedRange p user fail } ∧
    ((userMls p user fail { value := value, roles := roles }).2 = none ↔ MlsRead p user fail) := by
  unfold userMls storedLevel storedRange MlsRead levelRead rangeRead
  cases hmls : p.mls with
  | false =>
    cases user.mlsLevel <;> cases user.mlsRange <;> simp
  | true =>
    cases hl : user.mlsLevel with
    | none => simp
    | some text =>
      cases hr : mlsFromString p (fail .levelText) text with
      | none => simp [hr]
      | some range =>
        cases hc : fail .levelCopy with
        | true => simp [hr, mlsLevelCpy]
        | false =>
          simp only [hr, mlsLevelCpy, Option.bind_some, Bool.false_eq_true, ↓reduceIte,
            Option.isSome_some, true_and]
          unfold userMlsRange
          cases hrt : user.mlsRange with
          | none => simp
          | some rtext =>
            cases hrr : mlsFromString p (fail .rangeText) rtext with
            | none => simp [hrr]
            | some rr =>
              simp only [Option.bind_some, hrr, Option.isSome_some, true_and]
              rw [← mlsRangeCpy_ok (fun high => fail (.rangeCopy high)) rr]
              cases hcpy : mlsRangeCpy (fun high => fail (.rangeCopy high)) rr with
              | mk r ok => cases ok <;> simp

/-- What a datum holds that was reset and filled from the record: the roles up to the
first that fails, and after all of them the levels. -/
theorem userFill_spec (value : Nat) :
    ((userFill p user fail value).2 = none ↔ RolesRead p user fail ∧ MlsRead p user fail) ∧
    ∃ roles : Ebitmap, (∀ r, r ∈ roles ↔ RoleStored p fail 0 user.roles r) ∧
      (RolesRead p user fail → (userFill p user fail value).1 =
        { value := value, roles := { roles := roles }, expDfltlevel := storedLevel p user fail,
          expRange := storedRange p user fail }) ∧
      (¬ RolesRead p user fail →
        (userFill p user fail value).1 = { value := value, roles := { roles := roles } }) := by
  obtain ⟨hnone, hmem⟩ := userRoles_spec p fail 0 user.roles ∅
  simp only [Nat.zero_add] at hnone
  unfold userFill
  cases hroles : userRoles p fail 0 user.roles ∅ with
  | mk roles err =>
    rw [hroles] at hnone hmem
    have hread : err = none ↔ RolesRead p user fail := hnone
    cases err with
    | some e =>
      simp_all
    | none =>
      obtain ⟨hfst, hsnd⟩ := userMls_spec p user fail value { roles := roles }
      simp_all

/-! ## A successful modification -/

/-- Role `r` is one that a role of the record dominates. -/
def Dominated (r : Nat) : Prop :=
  ∃ name ∈ user.roles, ∃ role, p.roleTable.lookup name = some role ∧ r ∈ role.dominates

end

theorem roleStored_iff_dominated {p} {user : SepolUser} {fail} (h : RolesRead p user fail)
    (r : Nat) : RoleStored p fail 0 user.roles r ↔ Dominated p user r := by
  constructor
  · rintro ⟨k, name, role, hk, hrole, hr, -, -⟩
    exact ⟨name, mem_of_getElem? hk, role, hrole, hr⟩
  · rintro ⟨name, hname, role, hrole, hr⟩
    obtain ⟨k, hk⟩ := mem_iff_getElem?.mp hname
    refine ⟨k, name, role, hk, hrole, hr, fun b hb _ => ?_, fun j _ n hn => ?_⟩
    · obtain ⟨role', hrole', hall⟩ := h k name hk
      simp_all
    · simpa using h j n hn

/-- The modified user, at address `addr` with datum `d`, has the roles `R` in both
copies and is where the reverse tables point; the other users, and what the reverse
tables say of the values in use before, are as they were. -/
structure UserStored (u u' : Users) (cname : Name) (R : Nat → Prop) (addr : Nat) (d : UserDatum) :
    Prop where
  entry : u'.table.lookup cname = some addr
  datum : u'.datumAt addr = some d
  roles : ∀ r, r ∈ d.roles.roles ↔ R r
  flags : d.roles.flags = 0
  cache : ∀ r, r ∈ d.cache ↔ R r
  value : 0 < d.value
  valToName : u'.valToName[d.value - 1]? = some (some cname)
  valToStruct : u'.valToStruct[d.value - 1]? = some (some addr)
  otherEntries : ∀ name ≠ cname, u'.table.lookup name = u.table.lookup name
  otherData : ∀ name ≠ cname, ∀ a, u.table.lookup name = some a → u'.datumAt a = u.datumAt a
  otherValues : ∀ i < u.nprim, u'.valToName[i]? = u.valToName[i]? ∧
    u'.valToStruct[i]? = u.valToStruct[i]?

theorem Users.datumAt_eq (u : Users) (a : Nat) : u.datumAt a = (u.heap[a]?).getD none :=
  getD_eq_getElem?_getD ..

variable {u : Users}

theorem Users.lt_of_datumAt {a d} (h : u.datumAt a = some d) : a < u.heap.length := by
  by_contra hlt
  simp [Users.datumAt_eq, getElem?_eq_none (Nat.le_of_not_lt hlt)] at h

/-- Two users with the same address are one. -/
theorem Users.Wf.name_eq (h : u.Wf) {n m a} (hn : u.table.lookup n = some a)
    (hm : u.table.lookup m = some a) : n = m := by
  have := inj_on_of_nodup_map h.addrs (Lib.mem_of_lookup hn) (Lib.mem_of_lookup hm) rfl
  exact congrArg Prod.fst this

theorem Users.Wf.write_stored (h : u.Wf) {cname addr} {old d : UserDatum}
    (hentry : u.table.lookup cname = some addr) (hold : u.datumAt addr = some old)
    (hvalue : d.value = old.value) {R} (hroles : ∀ r, r ∈ d.roles.roles ↔ R r)
    (hflags : d.roles.flags = 0) (hcache : ∀ r, r ∈ d.cache ↔ R r) :
    UserStored u { u with heap := u.heap.set addr (some d) } cname R addr d := by
  obtain ⟨d', hd', hpos, hname, hstruct⟩ := h.indexed _ (Lib.mem_of_lookup hentry)
  rw [hold] at hd'
  cases hd'
  have hlt := Users.lt_of_datumAt hold
  refine ⟨hentry, ?_, hroles, hflags, hcache, hvalue ▸ hpos, hvalue ▸ hname, hvalue ▸ hstruct,
    fun _ _ => rfl, fun name hne a ha => ?_, fun _ _ => ⟨rfl, rfl⟩⟩
  · simp [Users.datumAt_eq, hlt]
  · have hneq : addr ≠ a := by
      rintro rfl
      exact hne (h.name_eq ha hentry)
    simp [Users.datumAt_eq, getElem?_set_ne hneq]

theorem roleSetExpand_plain {x : RoleSet} (h : x.flags = 0) (nprim : Nat) :
    roleSetExpand x nprim = some x.roles := by
  simp [roleSetExpand, h]

/-- The memory that a new user needs before the counter is raised. -/
def ArraysGrown (fail : UserAlloc → Bool) : Prop :=
  fail .valToStruct = false ∧ fail .valToName = false ∧ fail .name = false

/-- The three ways `userAdd` ends: before the counter is raised, behind it but not
completely, or with the user in all tables. -/
theorem userAdd_cases {fail} {cname nprim} {d : UserDatum} {u u' : Users} {err}
    (h : userAdd fail cname nprim d u = (err, u')) (hflags : d.roles.flags = 0) :
    (¬ ArraysGrown fail ∧ err ≠ none ∧ u'.table = u.table ∧ u'.nprim = u.nprim ∧ u'.heap = u.heap ∧
      (u'.valToName = u.valToName ∨ u'.valToName = u.valToName.take u.nprim ++ [none]) ∧
      (u'.valToStruct = u.valToStruct ∨ u'.valToStruct = u.valToStruct.take u.nprim ++ [none])) ∨
    (ArraysGrown fail ∧ err ≠ none ∧ u'.nprim = u.nprim + 1) ∨ (err = none ∧ u' =
      { table := (cname, u.heap.length) :: u.table
        nprim := u.nprim + 1
        valToName := (u.valToName.take u.nprim ++ [none]).set u.nprim (some cname)
        valToStruct := (u.valToStruct.take u.nprim ++ [none]).set u.nprim (some u.heap.length)
        heap := u.heap ++ [some { d with value := u.nprim + 1, cache := d.roles.roles }] }) := by
  unfold userAdd at h
  unfold ArraysGrown
  -- the allocations in their order
  split_ifs at h with h1 h2 h3 h4 h5
  all_goals
    simp only [roleSetExpand_plain hflags, Prod.mk.injEq] at h
    obtain ⟨rfl, rfl⟩ := h
    simp_all

theorem getElem?_take_append {α : Type*} {l : List α} {n i x} (hl : l.length = n) (hi : i < n) :
    (l.take n ++ [x])[i]? = l[i]? := by
  rw [getElem?_append_left (by simp; omega), getElem?_take_of_lt hi]

theorem Users.Wf.add_stored (h : u.Wf) {cname} {d : UserDatum}
    (hflags : d.roles.flags = 0) {R} (hroles : ∀ r, r ∈ d.roles.roles ↔ R r) : UserStored u
      { table := (cname, u.heap.length) :: u.table
        nprim := u.nprim + 1
        valToName := (u.valToName.take u.nprim ++ [none]).set u.nprim (some cname)
        valToStruct := (u.valToStruct.take u.nprim ++ [none]).set u.nprim (some u.heap.length)
        heap := u.heap ++ [some { d with value := u.nprim + 1, cache := d.roles.roles }] }
      cname R u.heap.length { d with value := u.nprim + 1, cache := d.roles.roles } := by
  have hnames := h.nameLength
  have hstructs := h.structLength
  refine ⟨by simp, by simp [Users.datumAt_eq], hroles, hflags, hroles, Nat.succ_pos _, ?_, ?_,
    fun name hne => ?_, fun name hne a ha => ?_, fun i hi => ⟨?_, ?_⟩⟩
  · simp [hnames]
  · simp [hstructs]
  · have : (name == cname) = false := by simpa using hne
    simp [lookup_cons, this]
  · obtain ⟨d', hd', -⟩ := h.indexed _ (Lib.mem_of_lookup ha)
    have hlt := Users.lt_of_datumAt hd'
    simp [Users.datumAt_eq, getElem?_append_left hlt]
  · rw [getElem?_set_ne (Nat.ne_of_gt hi), getElem?_take_append hnames hi]
  · rw [getElem?_set_ne (Nat.ne_of_gt hi), getElem?_take_append hstructs hi]

/-- How a call ends: without having touched anything, with an existing datum written,
or with what adding the filled datum of a new user gives. -/
theorem sepolUserModify_cases {p : FullPolicydb} (hwf : p.users.Wf) {cname user} {fail} {err u'}
    (h : sepolUserModify p cname user fail = (err, u')) :
    (fail .getRoles = true ∧ err ≠ none ∧ u' = p.users) ∨
    (fail .getRoles = false ∧ ∃ addr old, p.users.table.lookup cname = some addr ∧
      p.users.datumAt addr = some old ∧ err = (userFill p user fail old.value).2 ∧
      u' = { p.users with
        heap := p.users.heap.set addr (some (userFill p user fail old.value).1) }) ∨
    (fail .getRoles = false ∧ p.users.table.lookup cname = none ∧
      (fail .datum = true ∨ (userFill p user fail 0).2 ≠ none) ∧ err ≠ none ∧ u' = p.users) ∨
    (fail .getRoles = false ∧ p.users.table.lookup cname = none ∧ fail .datum = false ∧
      (userFill p user fail 0).2 = none ∧
      userAdd fail cname p.rolesNprim (userFill p user fail 0).1 p.users = (err, u')) := by
  unfold sepolUserModify at h
  cases hget : fail .getRoles with
  | true =>
    simp only [hget, ↓reduceIte, Prod.mk.injEq] at h
    exact Or.inl ⟨rfl, by simp [← h.1], h.2.symm⟩
  | false =>
    refine Or.inr ?_
    cases hentry : p.users.table.lookup cname with
    | some addr =>
      obtain ⟨old, hold, -⟩ := hwf.indexed _ (Lib.mem_of_lookup hentry)
      simp_all
    | none =>
      refine Or.inr ?_
      cases hdatum : fail .datum with
      | true =>
        simp only [hget, hentry, hdatum, Bool.false_eq_true, ↓reduceIte, Prod.mk.injEq] at h
        exact Or.inl ⟨rfl, rfl, Or.inl rfl, by simp [← h.1], h.2.symm⟩
      | false =>
        cases hfill : userFill p user fail 0 with
        | mk d e =>
          cases e with
          | some e =>
            simp only [hget, hentry, hdatum, hfill, Bool.false_eq_true, ↓reduceIte,
              Prod.mk.injEq] at h
            exact Or.inl ⟨rfl, rfl, Or.inr (by simp), by simp [← h.1], h.2.symm⟩
          | none =>
            simpa [hget, hentry, hdatum, hfill] using h

/-- After a successful modification the user's role set, its cached role set, the
reverse tables and the other users are as wanted exactly if the user is new or no role
of the record dominates any: the cache of an existing user is reset and not filled. -/
theorem sepolUserModify_authorises_iff {p : FullPolicydb} (hwf : p.users.Wf) {cname : Name}
    {user : SepolUser} {fail : UserAlloc → Bool} {u' : Users}
    (h : sepolUserModify p cname user fail = (none, u')) :
    (∃ addr d, UserStored p.users u' cname (Dominated p user) addr d) ↔
      p.users.table.lookup cname = none ∨ ∀ r, ¬ Dominated p user r := by
  rcases sepolUserModify_cases hwf h with ⟨-, herr, -⟩ | ⟨-, addr, old, hentry, hold, herr, rfl⟩ |
    ⟨-, -, -, herr, -⟩ | ⟨-, hentry, -, hfilled, hadd⟩
  · exact absurd rfl herr
  · obtain ⟨hnone, roles, hmem, hfill, -⟩ := userFill_spec p user fail old.value
    obtain ⟨hread, -⟩ := hnone.mp herr.symm
    have hroles : ∀ r, r ∈ roles ↔ Dominated p user r := fun r =>
      (hmem r).trans (roleStored_iff_dominated hread r)
    rw [hfill hread, hentry]
    simp only [reduceCtorEq, false_or]
    constructor
    · rintro ⟨a, d, hst⟩ r hr
      have ha := hst.entry
      rw [hentry, Option.some_inj] at ha
      subst ha
      have hd := hst.datum
      simp only [Users.datumAt_eq, getElem?_set_self (Users.lt_of_datumAt hold),
        Option.getD_some, Option.some.injEq] at hd
      subst hd
      exact Ebitmap.not_mem_empty r ((hst.cache r).mpr hr)
    · intro hempty
      refine ⟨addr, _, hwf.write_stored hentry hold ?_ hroles rfl fun r => ?_⟩
      · rfl
      · simp [hempty r]
  · exact absurd rfl herr
  · obtain ⟨hnone, roles, hmem, hfill, -⟩ := userFill_spec p user fail 0
    obtain ⟨hread, -⟩ := hnone.mp hfilled
    have hroles : ∀ r, r ∈ roles ↔ Dominated p user r := fun r =>
      (hmem r).trans (roleStored_iff_dominated hread r)
    rw [hfill hread] at hadd
    simp only [hentry, true_or, iff_true]
    rcases userAdd_cases hadd rfl with ⟨-, herr, -⟩ | ⟨-, herr, -⟩ | ⟨-, rfl⟩
    · exact absurd rfl herr
    · exact absurd rfl herr
    · exact ⟨_, _, hwf.add_stored rfl hroles⟩

/-- A policy with role `r`, which dominates itself, and user `u`, who has it. -/
def roleUserPolicydb : FullPolicydb where
  roleTable := [(['r'], { value := 1, dominates := .ofList [0] })]
  users :=
    { table := [(['u'], 0)]
      nprim := 1
      valToName := [some ['u']]
      valToStruct := [some 0]
      heap := [some { value := 1, roles := { roles := .ofList [0] }, cache := .ofList [0] }] }

theorem roleUserPolicydb_wf : roleUserPolicydb.users.Wf := by
  refine ⟨by decide, by decide, rfl, rfl, fun e he => ?_⟩
  rw [show roleUserPolicydb.users.table = [(['u'], 0)] from rfl, mem_singleton] at he
  subst he
  exact ⟨_, rfl, by decide, rfl, rfl⟩

/-- A new user gets its roles in both copies. -/
theorem sepolUserModify_authorises_new :
    let r := sepolUserModify roleUserPolicydb ['v'] { roles := [['r']] } fun _ => false
    r.1 = none ∧ ∃ addr d, UserStored roleUserPolicydb.users r.2 ['v']
      (Dominated roleUserPolicydb { roles := [['r']] }) addr d := by
  intro r
  have hr : r.1 = none := rfl
  exact ⟨hr, (sepolUserModify_authorises_iff roleUserPolicydb_wf (Prod.ext hr rfl)).mpr
    (Or.inl rfl)⟩

/-- Storing an existing user again with the role it has empties its cached role set. -/
theorem sepolUserModify_cache_lost :
    let r := sepolUserModify roleUserPolicydb ['u'] { roles := [['r']] } fun _ => false
    r.1 = none ∧ ¬ ∃ addr d, UserStored roleUserPolicydb.users r.2 ['u']
      (Dominated roleUserPolicydb { roles := [['r']] }) addr d := by
  refine ⟨rfl, ?_⟩
  rintro ⟨addr, d, hst⟩
  have haddr : addr = 0 := (Option.some.inj hst.entry).symm
  subst haddr
  have hd := Option.some.inj hst.datum
  have hcache := (hst.cache 0).mpr ⟨['r'], by decide, _, rfl, by decide⟩
  rw [← hd] at hcache
  exact Ebitmap.not_mem_empty 0 hcache

/-! ## A failed modification -/

/-- The number of users, the table, every user's datum and the reverse tables are the
same in both. -/
structure SameUsers (u u' : Users) : Prop where
  nprim : u'.nprim = u.nprim
  table : u'.table = u.table
  data : ∀ e ∈ u.table, u'.datumAt e.2 = u.datumAt e.2
  reverse : ∀ i < u.nprim, u'.valToName[i]? = u.valToName[i]? ∧
    u'.valToStruct[i]? = u.valToStruct[i]?

theorem SameUsers.refl (u : Users) : SameUsers u u :=
  ⟨rfl, rfl, fun _ _ => rfl, fun _ _ => ⟨rfl, rfl⟩⟩

/-- A new user's record is complete and the memory for the user is there, up to the point
where the counter is raised. -/
structure Prepared (p : FullPolicydb) (user : SepolUser) (fail : UserAlloc → Bool) : Prop where
  datum : fail .datum = false
  roles : RolesRead p user fail
  mls : MlsRead p user fail
  arrays : ArraysGrown fail

/-- An existing user has no cached roles, bounds or levels as written, its roles are
those that the record gives before the failure, and its levels are those that the
record gives before the failure. -/
structure AlreadyStored (p : FullPolicydb) (user : SepolUser) (fail : UserAlloc → Bool)
    (d : UserDatum) : Prop where
  cache : d.cache = ∅
  bounds : d.bounds = 0
  range : d.range = {}
  dfltlevel : d.dfltlevel = {}
  flags : d.roles.flags = 0
  roles : ∀ r, r ∈ d.roles.roles ↔ RoleStored p fail 0 user.roles r
  levels : RolesRead p user fail →
    d.expDfltlevel = storedLevel p user fail ∧ d.expRange = storedRange p user fail
  noLevels : ¬ RolesRead p user fail → d.expDfltlevel = {} ∧ d.expRange = {}

theorem userFill_eq_iff (user : SepolUser) (fail : UserAlloc → Bool)
    (d : UserDatum) : (userFill p user fail d.value).1 = d ↔ AlreadyStored p user fail d := by
  obtain ⟨-, roles, hmem, hread, hunread⟩ := userFill_spec p user fail d.value
  have hext : ∀ e : Ebitmap, (∀ r, r ∈ e ↔ RoleStored p fail 0 user.roles r) → e = roles := by
    intro e he
    ext r
    rw [he, hmem]
  by_cases hall : RolesRead p user fail
  · rw [hread hall]
    constructor
    · intro h
      rw [← h]
      exact ⟨rfl, rfl, rfl, rfl, rfl, hmem, fun _ => ⟨rfl, rfl⟩, fun h => absurd hall h⟩
    · rintro ⟨hcache, hbounds, hrange, hdflt, hflags, hroles, hlevels, -⟩
      obtain ⟨value, ⟨rs, flags⟩, range, dfltlevel, cache, expRange, expDfltlevel, bounds⟩ := d
      simp_all
  · rw [hunread hall]
    constructor
    · intro h
      rw [← h]
      exact ⟨rfl, rfl, rfl, rfl, rfl, hmem, fun h => absurd h hall, fun _ => ⟨rfl, rfl⟩⟩
    · rintro ⟨hcache, hbounds, hrange, hdflt, hflags, hroles, -, hnoLevels⟩
      obtain ⟨value, ⟨rs, flags⟩, range, dfltlevel, cache, expRange, expDfltlevel, bounds⟩ := d
      simp_all

theorem Users.sameUsers_write {cname addr old d}
    (hentry : u.table.lookup cname = some addr) (hold : u.datumAt addr = some old) :
    SameUsers u { u with heap := u.heap.set addr (some d) } ↔ d = old := by
  have hlt := Users.lt_of_datumAt hold
  constructor
  · intro hsame
    have := hsame.data _ (Lib.mem_of_lookup hentry)
    rw [hold] at this
    simpa [Users.datumAt_eq, hlt] using this
  · rintro rfl
    refine ⟨rfl, rfl, fun e he => ?_, fun _ _ => ⟨rfl, rfl⟩⟩
    by_cases hea : addr = e.2
    · rw [← hea, hold]
      simp [Users.datumAt_eq, hlt]
    · simp [Users.datumAt_eq, getElem?_set_ne hea]

/-- A failed modification leaves the users as they were exactly if the roles array could
not be allocated, or the user is new and the failure comes before the counter is raised,
or the user exists and its datum already was what the record gives up to the failure. -/
theorem sepolUserModify_error_iff {p : FullPolicydb} (hwf : p.users.Wf) {cname : Name}
    {user : SepolUser} {fail : UserAlloc → Bool} {e : UserError} {u' : Users}
    (h : sepolUserModify p cname user fail = (some e, u')) : SameUsers p.users u' ↔
      fail .getRoles = true ∨ (p.users.table.lookup cname = none ∧ ¬ Prepared p user fail) ∨
      ∃ addr d, p.users.table.lookup cname = some addr ∧ p.users.datumAt addr = some d ∧
        AlreadyStored p user fail d := by
  rcases sepolUserModify_cases hwf h with ⟨hget, -, rfl⟩ |
    ⟨hget, addr, old, hentry, hold, -, rfl⟩ | ⟨hget, hentry, hearly, -, rfl⟩ |
    ⟨hget, hentry, hdatum, hfilled, hadd⟩
  · simp [hget, SameUsers.refl]
  · rw [Users.sameUsers_write hentry hold, userFill_eq_iff]
    simp [hget, hentry, hold]
  · have hnot : ¬ Prepared p user fail := by
      intro hprep
      rcases hearly with hd | hf
      · rw [hprep.datum] at hd
        cases hd
      · exact hf ((userFill_spec p user fail 0).1.mpr ⟨hprep.roles, hprep.mls⟩)
    simp [hentry, hnot, SameUsers.refl]
  · obtain ⟨hnone, roles, -, hfill, -⟩ := userFill_spec p user fail 0
    obtain ⟨hread, hmls⟩ := hnone.mp hfilled
    have hflags : (userFill p user fail 0).1.roles.flags = 0 := by rw [hfill hread]
    simp only [hget, hentry, Bool.false_eq_true, false_or, true_and, reduceCtorEq, false_and,
      exists_false, or_false]
    rcases userAdd_cases hadd hflags with ⟨hgrown, -, htable, hnprim, hheap, hnames, hstructs⟩ |
      ⟨hgrown, -, hnprim⟩ | ⟨herr, -⟩
    · refine ⟨fun _ hprep => hgrown hprep.arrays, fun _ =>
        ⟨hnprim, htable, ?_, fun i hi => ⟨?_, ?_⟩⟩⟩
      · simp [Users.datumAt, hheap]
      · rcases hnames with hnames | hnames <;> rw [hnames]
        exact getElem?_take_append hwf.nameLength hi
      · rcases hstructs with hstructs | hstructs <;> rw [hstructs]
        exact getElem?_take_append hwf.structLength hi
    · refine ⟨fun hsame => ?_, fun hnot => absurd ⟨hdatum, hread, hmls, hgrown⟩ hnot⟩
      have := hsame.nprim
      omega
    · cases herr

/-- A record with an undefined role for a new user is refused and changes nothing. -/
theorem sepolUserModify_error_new :
    let r := sepolUserModify roleUserPolicydb ['v'] { roles := [['x']] } fun _ => false
    r.1 = some (.undefinedRole ['x']) ∧ SameUsers roleUserPolicydb.users r.2 := by
  intro r
  have hr : r.1 = some (.undefinedRole ['x']) := rfl
  refine ⟨hr, (sepolUserModify_error_iff roleUserPolicydb_wf (Prod.ext hr rfl)).mpr
    (Or.inr (Or.inl ⟨rfl, fun h => ?_⟩))⟩
  obtain ⟨role, hrole, -⟩ := h.roles 0 ['x'] rfl
  cases hrole

/-- A record with an undefined role for an existing user is refused, but the user has
lost its roles. -/
theorem sepolUserModify_error_resets :
    let r := sepolUserModify roleUserPolicydb ['u'] { roles := [['x']] } fun _ => false
    r.1 = some (.undefinedRole ['x']) ∧ ¬ SameUsers roleUserPolicydb.users r.2 := by
  refine ⟨rfl, fun h => ?_⟩
  have hdata := h.data (['u'], 0) (by decide)
  revert hdata
  decide

end SELinux.Sepol
