import SELinux.Lib.Numbering
import SELinux.Lib.Reachability
import SELinux.Sepol.Symbols
import SELinux.Sepol.TypeSetSemantics

/-! Role dominance (`policy_define.c`): definitions nest, and each raises what its role dominates to
all roles that dominate it, so that the bitmaps are always those of the closure. -/
namespace SELinux.Checkpolicy

open List Option Function
open Sepol (Name Ebitmap ebitmapSetBit ebitmapGetBit ebitmapOr ebitmapGetBit_eq_true)
open Lib (Reach)

/-! ## Model -/

/-- A `role_datum_t` of the global scope. The types of a role have no part in dominance. -/
structure DomRole where
  value : Nat
  dominates : Ebitmap

/-- The table of the roles, with its keys. -/
structure DomState where
  roles : Name → Option DomRole
  nprim : Nat
  keys : List Name

/-- The bits of `src` are set in `dst`, one by one. -/
def setBits (dst src : Ebitmap) : Option Ebitmap :=
  src.bits.foldlM (fun dst i => (ebitmapSetBit dst i true).toOption) dst

/-- The value of `roles` in the grammar: a pointer to a role, or a temporary one. -/
inductive RolesDom where
  | role (id : Name)
  | temporary (dominates : Ebitmap)

def RolesDom.dominates (st : DomState) : RolesDom → Option Ebitmap
  | .role id => (st.roles id).map DomRole.dominates
  | .temporary dominates => some dominates

def mergeRolesDom (st : DomState) (r1 r2 : RolesDom) : Option RolesDom := do
  let e1 ← r1.dominates st
  let e2 ← r2.dominates st
  some (.temporary (ebitmapOr e1 e2))

def dominateRoleRecheck (rdp rdatum : DomRole) : Option DomRole :=
  if rdatum.value = rdp.value then some rdatum
  else if ebitmapGetBit rdatum.dominates (rdp.value - 1) then do
    let dominates ← setBits rdatum.dominates rdp.dominates
    some { rdatum with dominates }
  else some rdatum

/-- The callback of `hashtab_map`, for one key. -/
def recheckKey (rdp : DomRole) (st : DomState) (key : Name) : Option DomState := do
  let rdatum ← st.roles key
  let rdatum ← dominateRoleRecheck rdp rdatum
  some { st with
    roles := update st.roles key (some rdatum) }

/-- The role is declared where it is first named, and dominates itself. -/
def declareDomRole (st : DomState) (id : Name) : Option DomState :=
  match st.roles id with
  | some _ => some st
  | none => do
    let dominates ← (ebitmapSetBit ∅ st.nprim true).toOption
    some
      { roles := update st.roles id (some { value := st.nprim + 1, dominates })
        nprim := st.nprim + 1
        keys := id :: st.keys }

/-! ### Definitions -/

mutual

/-- `role_def` in the grammar. -/
inductive RoleDef where
  | leaf (id : Name)
  | nested (id : Name) (roles : Roles)

/-- `roles` in the grammar. -/
inductive Roles where
  | one (role : RoleDef)
  | snoc (roles : Roles) (role : RoleDef)

end

def RoleDef.id : RoleDef → Name
  | .leaf id => id
  | .nested id _ => id

section Definitions

variable (inScope : Name → Bool) (order : List Name → List Name)

/-- The second half of `define_role_dom`: the role gets what `r` dominates, and so do those that
dominate it. -/
def raiseRoleDom (st : DomState) (id : Name) (r : RolesDom) : Option DomState := do
  let role ← st.roles id
  let e ← r.dominates st
  let dominates ← setBits role.dominates e
  let role := { role with dominates }
  (order st.keys).foldlM (recheckKey role) { st with
    roles := update st.roles id (some role) }

/-- `define_role_dom`. The hash table is gone through in the order `order`. -/
def defineRoleDom (st : DomState) (id : Name) (r : Option RolesDom) : Option DomState :=
  if inScope id then do
    let st ← declareDomRole st id
    match r with
    | none => some st
    | some r => raiseRoleDom order st id r
  else none

mutual

def RoleDef.eval (st : DomState) : RoleDef → Option DomState
  | .leaf id => defineRoleDom inScope order st id none
  | .nested id roles => do
    let (r, st) ← roles.eval st
    defineRoleDom inScope order st id (some r)

def Roles.eval (st : DomState) : Roles → Option (RolesDom × DomState)
  | .one role => do
    let st ← role.eval st
    some (.role role.id, st)
  | .snoc roles role => do
    let (r1, st) ← roles.eval st
    let st ← role.eval st
    let r ← mergeRolesDom st r1 (.role role.id)
    some (r, st)

end

/-- `role_dominance` in the grammar: the value of the definition is dropped. -/
def roleDominance (st : DomState) (roles : Roles) : Option DomState :=
  (roles.eval inScope order st).map Prod.snd

end Definitions

/-! ## Edges -/

/-- The roles that a list of definitions is for. -/
def Roles.tops : Roles → List Name
  | .one role => [role.id]
  | .snoc roles role => roles.tops ++ [role.id]

mutual

/-- The declared edges, from each role to those in its braces. -/
def RoleDef.edges : RoleDef → List (Name × Name)
  | .leaf _ => []
  | .nested id roles => roles.edges ++ roles.tops.map (id, ·)

def Roles.edges : Roles → List (Name × Name)
  | .one role => role.edges
  | .snoc roles role => roles.edges ++ role.edges

end

/-! ## Bitmaps of roles -/

/-- The bitmap is that of a set of roles. -/
def Stands (st : DomState) (e : Ebitmap) (roles : Name → Prop) : Prop :=
  ∀ b, b ∈ e ↔ ∃ n d, st.roles n = some d ∧ d.value = b + 1 ∧ roles n

/-- The bitmaps are those of the closure of the edges. -/
structure Dominance (st : DomState) (edges : List (Name × Name)) : Prop where
  numbering : Lib.Numbering (fun n => (st.roles n).map DomRole.value) st.nprim
  keys : ∀ n, n ∈ st.keys ↔ (st.roles n).isSome = true
  known : ∀ p ∈ edges, (st.roles p.1).isSome = true ∧ (st.roles p.2).isSome = true
  closed : ∀ n d, st.roles n = some d → Stands st d.dominates (Reach edges n)

/-- The roles keep their values. -/
def Extends (st st' : DomState) : Prop :=
  ∀ n d, st.roles n = some d → ∃ d', st'.roles n = some d' ∧ d'.value = d.value

variable {st1 st2 st3 st st' : DomState} {n m : Name} {d d' : DomRole} {r : RolesDom}

section Bitmaps

variable {edges : List (Name × Name)}

theorem Extends.refl (st : DomState) : Extends st st := fun _ d hd => ⟨d, hd, rfl⟩

theorem Extends.trans (h : Extends st1 st2) (h' : Extends st2 st3) : Extends st1 st3 := by
  intro n d hd
  obtain ⟨d', hd', hv⟩ := h n d hd
  obtain ⟨d'', hd'', hv'⟩ := h' n d' hd'
  exact ⟨d'', hd'', hv'.trans hv⟩

theorem Extends.isSome (h : Extends st st') (hn : (st.roles n).isSome = true) :
    (st'.roles n).isSome = true := by
  obtain ⟨d, hd⟩ := isSome_iff_exists.mp hn
  obtain ⟨d', hd', _⟩ := h n d hd
  rw [hd']
  rfl

theorem Stands.extends {e roles} (h : Stands st e roles) (hext : Extends st st')
    (hknown : ∀ n, roles n → (st'.roles n).isSome = true → (st.roles n).isSome = true) :
    Stands st' e roles := by
  intro b
  rw [h b]
  constructor
  · rintro ⟨n, d, hd, hv, hn⟩
    obtain ⟨d', hd', hv'⟩ := hext n d hd
    exact ⟨n, d', hd', hv'.trans hv, hn⟩
  · rintro ⟨n, d', hd', hv, hn⟩
    obtain ⟨d, hd⟩ := isSome_iff_exists.mp (hknown n hn (by rw [hd']; rfl))
    obtain ⟨d'', hd'', hv'⟩ := hext n d hd
    rw [hd'] at hd''
    cases hd''
    exact ⟨n, d, hd, hv'.symm.trans hv, hn⟩

theorem Stands.congr {e roles roles'} (h : Stands st e roles) (hroles : ∀ n, roles n ↔ roles' n) :
    Stands st e roles' := by
  intro b
  simp only [h b, hroles]

theorem Stands.union {e e1 e2 roles1 roles2} (h1 : Stands st e1 roles1) (h2 : Stands st e2 roles2)
    (he : ∀ b, b ∈ e ↔ b ∈ e1 ∨ b ∈ e2) : Stands st e fun n => roles1 n ∨ roles2 n := by
  intro b
  rw [he, h1 b, h2 b]
  constructor
  · rintro (⟨n, d, hd, hv, hn⟩ | ⟨n, d, hd, hv, hn⟩)
    · exact ⟨n, d, hd, hv, .inl hn⟩
    · exact ⟨n, d, hd, hv, .inr hn⟩
  · rintro ⟨n, d, hd, hv, hn⟩
    exact hn.imp (fun hn => ⟨n, d, hd, hv, hn⟩) fun hn => ⟨n, d, hd, hv, hn⟩

theorem setBits_spec (dst src : Ebitmap) :
    ∃ e, setBits dst src = some e ∧ ∀ b, b ∈ e ↔ b ∈ dst ∨ b ∈ src := by
  have hloop : ∃ e, setBits dst src = some e ∧ ∀ b, b ∈ e ↔ b ∈ dst ∨ ∃ i ∈ src.bits, b = i := by
    refine Lib.foldlM_adds (fun i hi e => ?_) dst
    exact Sepol.ebitmapSetBit_adds (src.bound i hi)
  simpa using hloop

variable (h : Dominance st edges)
include h

theorem Dominance.value_pos (hd : st.roles n = some d) : 0 < d.value :=
  (h.numbering.bound n d.value (by rw [hd, map_some])).1

theorem Dominance.value_inj (hd : st.roles n = some d)
    (hd' : st.roles m = some d') (hv : d.value = d'.value) : n = m :=
  h.numbering.inj n m d.value (by rw [hd, map_some]) (by rw [hd', map_some, hv])

theorem Dominance.mem_iff (hd : st.roles n = some d)
    (hd' : st.roles m = some d') : d'.value - 1 ∈ d.dominates ↔ Reach edges n m := by
  have hpos := h.value_pos hd'
  rw [h.closed n d hd]
  constructor
  · rintro ⟨k, x, hx, hv, hk⟩
    rwa [h.value_inj hx hd' (by omega)] at hk
  · intro hreach
    exact ⟨m, d', hd', by omega, hreach⟩

theorem Dominance.reach_isSome (hn : (st.roles n).isSome = true)
    (hreach : Reach edges n m) : (st.roles m).isSome = true := by
  rcases hreach.eq_or_target with rfl | ⟨p, hp, rfl⟩
  · exact hn
  · exact (h.known p hp).2

end Bitmaps

/-! ## One definition -/

section Steps

variable {edges : List (Name × Name)} {id : Name}

/-- The table has the same roles with the same values. -/
structure SameRoles (st st' : DomState) : Prop where
  roles : ∀ n, (st'.roles n).map DomRole.value = (st.roles n).map DomRole.value
  nprim : st'.nprim = st.nprim
  keys : st'.keys = st.keys

theorem SameRoles.extends (h : SameRoles st st') : Extends st st' := by
  intro n d hd
  have hmap := h.roles n
  simpa [hd] using hmap

theorem SameRoles.isSome (h : SameRoles st st') (n : Name) :
    (st'.roles n).isSome = (st.roles n).isSome := by
  have hmap := congrArg Option.isSome (h.roles n)
  rwa [isSome_map, isSome_map] at hmap

theorem SameRoles.stands (h : SameRoles st st') {e roles} (hs : Stands st e roles) :
    Stands st' e roles :=
  hs.extends h.extends fun n _ hn => by rwa [h.isSome n] at hn

theorem SameRoles.update (hd : st.roles id = some d) (hv : d'.value = d.value) :
    SameRoles st { st with roles := update st.roles id (some d') } := by
  refine ⟨fun n => ?_, rfl, rfl⟩
  by_cases hn : n = id
  · simp [hn, hd, hv]
  · simp only [update_of_ne hn]

theorem SameRoles.trans (h : SameRoles st1 st2) (h' : SameRoles st2 st3) : SameRoles st1 st3 :=
  ⟨fun n => (h'.roles n).trans (h.roles n), h'.nprim.trans h.nprim, h'.keys.trans h.keys⟩

theorem Dominance.of_same (h : Dominance st edges) (hsame : SameRoles st st') {edges'}
    (hknown : ∀ p ∈ edges', (st.roles p.1).isSome = true ∧ (st.roles p.2).isSome = true)
    (hclosed : ∀ n d, st'.roles n = some d → Stands st d.dominates (Reach edges' n)) :
    Dominance st' edges' where
  numbering := by
    rw [hsame.nprim, funext hsame.roles]
    exact h.numbering
  keys n := by
    rw [hsame.keys, hsame.isSome]
    exact h.keys n
  known p hp := by
    rw [hsame.isSome, hsame.isSome]
    exact hknown p hp
  closed n d hd := hsame.stands (hclosed n d hd)

theorem declareDomRole_spec (h : Dominance st edges) (hdecl : declareDomRole st id = some st') :
    Dominance st' edges ∧ Extends st st' ∧ (st'.roles id).isSome = true := by
  rw [declareDomRole] at hdecl
  cases hid : st.roles id with
  | some d =>
    simp only [hid] at hdecl
    cases hdecl
    exact ⟨h, Extends.refl st, by rw [hid]; rfl⟩
  | none =>
    simp only [hid] at hdecl
    obtain ⟨e, he, hdecl⟩ := bind_eq_some_iff.mp hdecl
    cases hdecl
    have hself : ∀ b, b ∈ e ↔ b = st.nprim := by
      by_cases hbound : st.nprim < Sepol.ebitmapLimit
      · obtain ⟨e', he', hmem⟩ := Sepol.ebitmapSetBit_adds (e := ∅) hbound
        rw [he] at he'
        cases he'
        simpa using hmem
      · simp [ebitmapSetBit, hbound, Except.toOption] at he
    have hne (n : Name) (hn : (st.roles n).isSome = true) : n ≠ id := by
      rintro rfl
      rw [hid] at hn
      cases hn
    have hext : Extends st
        { roles := update st.roles id (some { value := st.nprim + 1, dominates := e })
          nprim := st.nprim + 1
          keys := id :: st.keys } := by
      intro n d hd
      simp [hne, hd]
    refine ⟨⟨?_, fun n => ?_, fun p hp => ?_, fun n d hd => ?_⟩, hext, by simp⟩
    · have hvalue :
        (fun n => (update st.roles id (some { value := st.nprim + 1, dominates := e })
          n).map
          DomRole.value) =
          update (fun n => (st.roles n).map DomRole.value) id (some (st.nprim + 1)) :=
        comp_update (Option.map DomRole.value) st.roles id _
      exact hvalue ▸ h.numbering.insert id
    · by_cases hn : n = id
      · simp [hn]
      · simp [hn, h.keys n]
    · exact ⟨hext.isSome (h.known p hp).1, hext.isSome (h.known p hp).2⟩
    · simp only at hd
      by_cases hn : n = id
      · subst hn
        rw [update_self] at hd
        cases hd
        -- no edge begins or ends at a role that was not there
        have hreach (m : Name) : Reach edges n m ↔ m = n := by
          refine ⟨Reach.eq_of_source fun p hp => hne _ (h.known p hp).1, ?_⟩
          rintro rfl
          exact Reach.refl edges m
        intro b
        constructor
        · simp_all
        · simp_all
      · rw [update_of_ne hn] at hd
        refine (h.closed n d hd).extends hext fun m hm _ => ?_
        exact h.reach_isSome (by rw [hd]; rfl) hm

theorem dominateRoleRecheck_spec (rdp rdatum : DomRole) :
    ∃ d, dominateRoleRecheck rdp rdatum = some d ∧ d.value = rdatum.value ∧ ∀ b, b ∈ d.dominates ↔
      b ∈ rdatum.dominates ∨
        (rdatum.value ≠ rdp.value ∧ rdp.value - 1 ∈ rdatum.dominates ∧ b ∈ rdp.dominates) := by
  rw [dominateRoleRecheck]
  split_ifs with hself hdom
  · simp [hself]
  · obtain ⟨e, he, hmem⟩ := setBits_spec rdatum.dominates rdp.dominates
    rw [he]
    refine ⟨_, rfl, rfl, fun b => ?_⟩
    simp [hmem, hself, ebitmapGetBit_eq_true.mp hdom]
  · rw [ebitmapGetBit_eq_true] at hdom
    exact ⟨rdatum, rfl, rfl, fun b => by simp [hdom]⟩

/-- Going through the table raises what the role dominates to those that dominate it, in any
order. -/
theorem recheckKey_foldlM {rdp : DomRole} {l : List Name}
    (h : l.foldlM (recheckKey rdp) st = some st') :
    SameRoles st st' ∧ ∀ n d d', st.roles n = some d → st'.roles n = some d' →
      ∀ b, b ∈ d'.dominates ↔ b ∈ d.dominates ∨
        (n ∈ l ∧ d.value ≠ rdp.value ∧ rdp.value - 1 ∈ d.dominates ∧ b ∈ rdp.dominates) := by
  refine Lib.foldlM_done (P := fun l st' => SameRoles st st' ∧ ∀ n d d', st.roles n = some d →
    st'.roles n = some d' → ∀ b, b ∈ d'.dominates ↔ b ∈ d.dominates ∨
      (n ∈ l ∧ d.value ≠ rdp.value ∧ rdp.value - 1 ∈ d.dominates ∧ b ∈ rdp.dominates)) ?_ ?_ h
  · intro l1 key l2 s s' _ ⟨hsame, hs⟩ hstep
    obtain ⟨rdatum, hrdatum, hstep⟩ := bind_eq_some_iff.mp hstep
    obtain ⟨x, hx, hv, hmem⟩ := dominateRoleRecheck_spec rdp rdatum
    simp only [hx, bind_eq_bind, bind_some] at hstep
    cases hstep
    refine ⟨hsame.trans (SameRoles.update hrdatum hv), fun n d d' hd hd' b => ?_⟩
    simp only at hd'
    by_cases hn : n = key
    · subst hn
      rw [update_self] at hd'
      cases hd'
      have hold := hs n d rdatum hd hrdatum
      have hvalue : rdatum.value = d.value := by
        have hmap := hsame.roles n
        rw [hd, hrdatum] at hmap
        exact some.inj hmap
      rw [hmem, hold, hold, hvalue]
      simp only [mem_append, mem_singleton, or_true, true_and]
      tauto
    · rw [update_of_ne hn] at hd'
      rw [hs n d d' hd hd']
      simp [hn]
  · refine ⟨⟨fun _ => rfl, rfl, rfl⟩, fun n d d' hd hd' b => ?_⟩
    rw [hd] at hd'
    cases hd'
    simp

theorem raiseRoleDom_spec {order} (horder : ∀ l n, n ∈ order l ↔ n ∈ l) (h : Dominance st edges)
    {cs : List Name} (hcs : ∀ c ∈ cs, (st.roles c).isSome = true) {e}
    (hr : r.dominates st = some e) (he : Stands st e fun m => ∃ c ∈ cs, Reach edges c m)
    (hraise : raiseRoleDom order st id r = some st') :
    Dominance st' (edges ++ cs.map (id, ·)) ∧ Extends st st' := by
  obtain ⟨role, hrole, hraise⟩ := bind_eq_some_iff.mp hraise
  obtain ⟨e', he', hraise⟩ := bind_eq_some_iff.mp hraise
  rw [hr] at he'
  cases he'
  obtain ⟨dominates, hdom, hmem⟩ := setBits_spec role.dominates e
  simp only [hdom, bind_eq_bind, bind_some] at hraise
  obtain ⟨hsame', hraised⟩ := recheckKey_foldlM hraise
  have hsame := SameRoles.update hrole (show { role with dominates }.value = role.value from rfl)
  have hid : (st.roles id).isSome = true := by rw [hrole]; rfl
  -- what the role itself dominates now
  have hself : Stands st dominates (Reach (edges ++ cs.map (id, ·)) id) := by
    refine ((h.closed id role hrole).union he hmem).congr fun n => ?_
    rw [Lib.reach_append_fan]
    simp [Reach.refl edges id]
  refine ⟨h.of_same (hsame.trans hsame') ?_ ?_, (hsame.trans hsame').extends⟩
  · intro p hp
    rcases mem_append.mp hp with hp | hp
    · exact h.known p hp
    · obtain ⟨c, hc, rfl⟩ := mem_map.mp hp
      exact ⟨hid, hcs c hc⟩
  · intro n d' hd'
    by_cases hn : n = id
    · subst hn
      refine fun b => Iff.trans ?_ (hself b)
      rw [hraised n { role with dominates } d' (update_self ..) hd']
      simp
    · obtain ⟨d, hd⟩ : ∃ d, st.roles n = some d := by
        have hsome := (hsame.trans hsame').isSome n
        rw [hd'] at hsome
        exact isSome_iff_exists.mp hsome.symm
      have hne : d.value ≠ role.value := fun hv => hn (h.value_inj hd hrole hv)
      have hvisit : n ∈ order st.keys := by
        rw [horder, h.keys, hd]
        rfl
      have hbits (b : Nat) : b ∈ d'.dominates ↔ b ∈ d.dominates ∨
          (Reach edges n id ∧ b ∈ dominates) := by
        rw [hraised n d d' ((update_of_ne hn ..).trans hd) hd', ← h.mem_iff hd hrole]
        simp [hvisit, hne]
      by_cases hreach : Reach edges n id
      · refine ((h.closed n d hd).union hself (e := d'.dominates)
          (by simpa [hreach] using hbits)).congr fun m => ?_
        rw [Lib.reach_append_fan, Lib.reach_append_fan]
        constructor
        · rintro (hm | hm | ⟨_, hm⟩)
          · exact .inl hm
          · exact .inl (hreach.trans hm)
          · exact .inr ⟨hreach, hm⟩
        · rintro (hm | ⟨_, hm⟩)
          · exact .inl hm
          · exact .inr (.inr ⟨Reach.refl edges id, hm⟩)
      · refine fun b => ((hbits b).trans ?_).trans (h.closed n d hd b) |>.trans ?_
        · simp [hreach]
        · simp [Lib.reach_append_fan, hreach]

end Steps

/-! ## Nested definitions -/

section Nested

variable {inScope : Name → Bool} {order : List Name → List Name}

/-- The value of `roles` in a state: the one role, or the bitmap of what the roles dominate. -/
def Represents (st : DomState) (edges : List (Name × Name)) (tops : List Name) : RolesDom → Prop
  | .role id => tops = [id]
  | .temporary e => Stands st e fun m => ∃ c ∈ tops, Reach edges c m

theorem Represents.dominates {edges} (h : Dominance st edges) {tops}
    (htops : ∀ c ∈ tops, (st.roles c).isSome = true) (hr : Represents st edges tops r) :
    ∃ e, r.dominates st = some e ∧ Stands st e fun m => ∃ c ∈ tops, Reach edges c m := by
  cases r with
  | temporary e => exact ⟨e, rfl, hr⟩
  | role id =>
    subst hr
    obtain ⟨d, hd⟩ := isSome_iff_exists.mp (htops id (by simp))
    refine ⟨d.dominates, by rw [RolesDom.dominates, hd]; rfl, (h.closed id d hd).congr fun m => ?_⟩
    simp

/-- A temporary role of earlier definitions lacks only what is below the role that was defined
since. -/
theorem Represents.later {edges new root} (h : Dominance st edges)
    (h' : Dominance st' (edges ++ new)) (hext : Extends st st')
    (hroot : (st'.roles root).isSome = true) (hbelow : ∀ p ∈ new, Reach (edges ++ new) root p.2)
    {tops} (htops : ∀ c ∈ tops, (st.roles c).isSome = true) {r} (hr : Represents st edges tops r) :
    ∃ m, mergeRolesDom st' r (.role root) = some m ∧
      Represents st' (edges ++ new) (tops ++ [root]) m := by
  obtain ⟨d, hd⟩ := isSome_iff_exists.mp hroot
  have hdom : (RolesDom.role root).dominates st' = some d.dominates := by
    rw [RolesDom.dominates, hd]; rfl
  cases r with
  | role id =>
    subst hr
    obtain ⟨x, hx⟩ := isSome_iff_exists.mp (hext.isSome (htops id (by simp)))
    have hdom' : (RolesDom.role id).dominates st' = some x.dominates := by
      rw [RolesDom.dominates, hx]; rfl
    refine ⟨_, by rw [mergeRolesDom, hdom', hdom]; rfl, ?_⟩
    refine ((h'.closed id x hx).union (h'.closed root d hd) fun b => Sepol.mem_ebitmapOr).congr
      fun m => ?_
    simp
  | temporary e =>
    refine ⟨_, by rw [mergeRolesDom, hdom]; rfl, ?_⟩
    have he : Stands st' e fun m => ∃ c ∈ tops, Reach edges c m :=
      Stands.extends hr hext fun n ⟨c, hc, hn⟩ _ => h.reach_isSome (htops c hc) hn
    refine (he.union (h'.closed root d hd) fun b => Sepol.mem_ebitmapOr).congr fun m => ?_
    simp only [mem_append, mem_singleton]
    constructor
    · rintro (⟨c, hc, hm⟩ | hm)
      · exact ⟨c, .inl hc, hm.append_left⟩
      · exact ⟨root, .inr rfl, hm⟩
    · rintro ⟨c, hc | rfl, hm⟩
      · exact (Reach.append_below hbelow hm).imp (fun hm => ⟨c, hc, hm⟩) id
      · exact .inr hm

theorem defineRoleDom_spec (horder : ∀ l n, n ∈ order l ↔ n ∈ l) {edges id}
    (h : Dominance st edges) {r} {tops : List Name} (htops : ∀ c ∈ tops, (st.roles c).isSome = true)
    (hr : Represents st edges tops r)
    (hdef : defineRoleDom inScope order st id (some r) = some st') :
    Dominance st' (edges ++ tops.map (id, ·)) ∧ Extends st st' ∧ (st'.roles id).isSome = true := by
  rw [defineRoleDom] at hdef
  split_ifs at hdef
  obtain ⟨st1, hdecl, hraise⟩ := bind_eq_some_iff.mp hdef
  obtain ⟨h1, hext, hid⟩ := declareDomRole_spec h hdecl
  have htops1 : ∀ c ∈ tops, (st1.roles c).isSome = true := fun c hc => hext.isSome (htops c hc)
  have hr1 : Represents st1 edges tops r := by
    cases r with
    | role id => exact hr
    | temporary e =>
      exact Stands.extends hr hext fun n ⟨c, hc, hn⟩ _ => h.reach_isSome (htops c hc) hn
  obtain ⟨e, he, hstands⟩ := hr1.dominates h1 htops1
  obtain ⟨h2, hext2⟩ := raiseRoleDom_spec horder h1 htops1 he hstands hraise
  exact ⟨h2, hext.trans hext2, hext2.isSome hid⟩

mutual

theorem RoleDef.eval_spec (horder : ∀ l n, n ∈ order l ↔ n ∈ l) :
    ∀ (role : RoleDef) {st st' : DomState}
    {edges : List (Name × Name)}, Dominance st edges → role.eval inScope order st = some st' →
    Dominance st' (edges ++ role.edges) ∧ Extends st st' ∧ (st'.roles role.id).isSome = true ∧
      ∀ p ∈ role.edges, Reach (edges ++ role.edges) role.id p.2
  | .leaf id, st, st', edges, h, heval => by
    rw [RoleDef.eval, defineRoleDom] at heval
    split_ifs at heval
    obtain ⟨st1, hdecl, heval⟩ := bind_eq_some_iff.mp heval
    cases heval
    obtain ⟨h1, hext, hid⟩ := declareDomRole_spec h hdecl
    refine ⟨?_, hext, hid, by simp [RoleDef.edges]⟩
    rwa [RoleDef.edges, append_nil]
  | .nested id roles, st, st', edges, h, heval => by
    obtain ⟨⟨r, st1⟩, hroles, hdef⟩ := bind_eq_some_iff.mp heval
    obtain ⟨h1, hext1, htops, hr, hbelow⟩ := Roles.eval_spec horder roles h hroles
    obtain ⟨h2, hext2, hid⟩ := defineRoleDom_spec horder h1 htops hr hdef
    rw [append_assoc] at h2
    refine ⟨h2, hext1.trans hext2, hid, fun p hp => ?_⟩
    have htop (c : Name) (hc : c ∈ roles.tops) :
        Reach (edges ++ (roles.edges ++ roles.tops.map (id, ·))) id c :=
      .edge (mem_append_right _ (mem_append_right _ (mem_map_of_mem hc)))
    rw [RoleDef.edges] at hp ⊢
    rcases mem_append.mp hp with hp | hp
    · obtain ⟨c, hc, hreach⟩ := hbelow p hp
      rw [← append_assoc] at htop ⊢
      exact (htop c hc).trans hreach.append_left
    · obtain ⟨c, hc, rfl⟩ := mem_map.mp hp
      exact htop c hc

theorem Roles.eval_spec (horder : ∀ l n, n ∈ order l ↔ n ∈ l) :
    ∀ (roles : Roles) {st st' : DomState} {r : RolesDom}
    {edges : List (Name × Name)}, Dominance st edges → roles.eval inScope order st = some (r, st') →
    Dominance st' (edges ++ roles.edges) ∧ Extends st st' ∧
      (∀ c ∈ roles.tops, (st'.roles c).isSome = true) ∧
      Represents st' (edges ++ roles.edges) roles.tops r ∧
      ∀ p ∈ roles.edges, ∃ c ∈ roles.tops, Reach (edges ++ roles.edges) c p.2
  | .one role, st, st', r, edges, h, heval => by
    obtain ⟨st1, hrole, heval⟩ := bind_eq_some_iff.mp heval
    cases heval
    obtain ⟨h1, hext, hid, hbelow⟩ := RoleDef.eval_spec horder role h hrole
    refine ⟨h1, hext, by simpa [Roles.tops] using hid, rfl, fun p hp => ?_⟩
    exact ⟨role.id, by simp [Roles.tops], hbelow p hp⟩
  | .snoc roles role, st, st', r, edges, h, heval => by
    obtain ⟨⟨r1, st1⟩, hroles, heval⟩ := bind_eq_some_iff.mp heval
    obtain ⟨st2, hrole, heval⟩ := bind_eq_some_iff.mp heval
    obtain ⟨h1, hext1, htops, hr, hbelow1⟩ := Roles.eval_spec horder roles h hroles
    obtain ⟨h2, hext2, hid, hbelow2⟩ := RoleDef.eval_spec horder role h1 hrole
    obtain ⟨m, hm, hrep⟩ := hr.later h1 h2 hext2 hid hbelow2 htops
    simp only [hm, bind_eq_bind, bind_some] at heval
    cases heval
    rw [Roles.edges, Roles.tops, ← append_assoc]
    refine ⟨h2, hext1.trans hext2, fun c hc => ?_, hrep, fun p hp => ?_⟩
    · rcases mem_append.mp hc with hc | hc
      · exact hext2.isSome (htops c hc)
      · rw [mem_singleton.mp hc]
        exact hid
    · rcases mem_append.mp hp with hp | hp
      · obtain ⟨c, hc, hreach⟩ := hbelow1 p hp
        exact ⟨c, mem_append_left _ hc, hreach.append_left⟩
      · exact ⟨role.id, by simp, hbelow2 p hp⟩

end

end Nested

/-! ## Sequences of definitions -/

/-- Each role dominates only itself. -/
structure SelfDominant (st : DomState) : Prop where
  numbering : Lib.Numbering (fun n => (st.roles n).map DomRole.value) st.nprim
  keys : ∀ n, n ∈ st.keys ↔ (st.roles n).isSome = true
  dominates : ∀ n d, st.roles n = some d → ∀ b, b ∈ d.dominates ↔ d.value = b + 1

theorem SelfDominant.dominance {st} (h : SelfDominant st) : Dominance st [] := by
  refine ⟨h.numbering, h.keys, by simp, fun n d hd b => ?_⟩
  have hreach (m : Name) : Reach [] n m ↔ m = n := by
    refine ⟨Reach.eq_of_source (by simp), ?_⟩
    rintro rfl
    exact Reach.refl [] m
  simp [h.dominates n d hd, hreach, hd]

/-- After any definitions, a role dominates those that it reaches through the declared edges. -/
theorem roleDominance_closure {inScope : Name → Bool} {order : List Name → List Name}
    (horder : ∀ l, (order l).Perm l)
    {st st' : DomState} (hst : SelfDominant st) {definitions : List Roles}
    (hrun : definitions.foldlM (roleDominance inScope order) st = some st') {n : Name} {d : DomRole}
    (hd : st'.roles n = some d) :
      Stands st' d.dominates (Reach (definitions.flatMap Roles.edges) n) := by
  have hdom : Dominance st' (definitions.flatMap Roles.edges) := by
    refine Lib.foldlM_done (P := fun l st => Dominance st (l.flatMap Roles.edges)) ?_ hst.dominance
      hrun
    intro l1 roles l2 s s' _ hs hstep
    obtain ⟨⟨r, st1⟩, heval, rfl⟩ := map_eq_some_iff.mp hstep
    rw [flatMap_append, flatMap_singleton]
    exact (Roles.eval_spec (fun l n => (horder l).mem_iff) roles hs heval).1
  exact hdom.closed n d hd

/-- No role yet: each is declared where it is first named. -/
def noRoles : DomState where
  roles _ := none
  nprim := 0
  keys := []

theorem noRoles_selfDominant : SelfDominant noRoles := by
  refine ⟨Lib.Numbering.empty, by simp [noRoles], fun n d hd => ?_⟩
  cases hd

/-- A role above another, and then a cycle with a branch. -/
def cycleDefinitions : List Roles :=
  [.one (.nested ['a'] (.one (.leaf ['b']))),
    .one (.nested ['c'] (.snoc (.one (.nested ['b'] (.one (.leaf ['c'])))) (.leaf ['d'])))]

theorem roleDominance_closure_cycle :
    ∃ st d, cycleDefinitions.foldlM (roleDominance (fun _ => true) id) noRoles = some st ∧
    st.roles ['a'] = some d ∧ d.dominates = Ebitmap.ofList [0, 1, 2, 3] ∧
    Stands st d.dominates (Reach (cycleDefinitions.flatMap Roles.edges) ['a']) := by
  have hrun : ((cycleDefinitions.foldlM (roleDominance (fun _ => true) id) noRoles).bind fun st =>
      (st.roles ['a']).map DomRole.dominates) = some (Ebitmap.ofList [0, 1, 2, 3]) := by
        decide +kernel
  obtain ⟨st, hst, hrun⟩ := bind_eq_some_iff.mp hrun
  obtain ⟨d, hd, hdom⟩ := map_eq_some_iff.mp hrun
  exact ⟨st, d, hst, hd, hdom, roleDominance_closure (fun l => .refl l) noRoles_selfDominant hst hd⟩

end SELinux.Checkpolicy
