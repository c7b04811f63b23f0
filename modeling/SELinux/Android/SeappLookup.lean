import Mathlib.Data.List.Nodup
import SELinux.Android.SeappContexts

/-!
# Looking up the context of an app

`seapp_context_lookup_internal` takes the first entry of the sorted table whose selectors fit. The
result depends on the order of the configuration lines exactly if some query has several first
entries with different outputs: duplicates are refused only where every flag is set, so such lines
are loaded.
-/

namespace SELinux.Android

open List Option
open Lib (CString Orders IsFirst)

/-! ## Queries -/

inductive SeappKind where
  | type | domain
  deriving DecidableEq

/-- The constants and services of the platform. -/
structure Platform where
  aidUserOffset : Nat
  aidAppStart : Nat
  aidSdkSandboxProcessStart : Nat
  aidIsolatedStart : Nat
  bufsiz : Nat
  getpwuid : Nat → Option CString
  enforcing : Bool

structure Query where
  kind : SeappKind
  uid : Nat
  isSystemServer : Bool
  seinfo : Option CString
  pkgname : Option CString

/-- What the lookup makes of a query before it goes through the table. -/
structure Subject where
  kind : SeappKind
  isSystemServer : Bool
  isEphemeralApp : Bool
  username : CString
  seinfo : Option CString
  pkgname : Option CString
  isPrivApp : Bool
  targetSdkVersion : Nat
  fromRunAs : Bool
  isIsolatedComputeApp : Bool
  isSdkSandboxNext : Bool
  userid : Nat
  appid : Nat

def hasStr (seinfo : CString) (flag : String) : Bool :=
  (CString.strstr seinfo.bytes (CString.ofString flag).bytes).isSome

def getAppTargetSdkVersion (seinfo : CString) : Option Nat :=
  let str := (CString.ofString ":targetSdkVersion=").bytes
  match CString.strstr seinfo.bytes str with
  | none => some 0
  | some substr =>
    let (version, rest) := CString.strtol (substr.drop str.length)
    if (rest ≠ [] ∧ rest.head? ≠ some 0x3a) ∨ version < 0 ∨ 2 ^ 31 - 1 < version then none
    else some version.toNat

/-- `seinfo_parse`: the part before the first colon. -/
def seinfoParse (size : Nat) (src : CString) : Option CString :=
  let dest := src.bytes.takeWhile (· ≠ 0x3a)
  if size - 1 < dest.length then none else some (.ofBuffer dest)

section

variable (pl : Platform) (entries : List SeappContext)

/-- The name of the user and the number of the app. -/
def appUser (appid : Nat) : Option (CString × Nat) :=
  if appid < pl.aidAppStart then (pl.getpwuid appid).map (·, appid)
  else if appid < pl.aidSdkSandboxProcessStart then some (.ofString "_app", appid - pl.aidAppStart)
  else if appid < pl.aidIsolatedStart then
    some (.ofString "_sdksandbox", appid - pl.aidSdkSandboxProcessStart)
  else some (.ofString "_isolated", appid - pl.aidIsolatedStart)

def catMappingMaxId : Nat := 0x10000

def prepare (q : Query) : Option Subject := do
  let parsed ← match q.seinfo with
    | none => some none
    | some seinfo => (seinfoParse pl.bufsiz seinfo).map some
  let flag (str : String) : Bool := q.seinfo.any (hasStr · str)
  let targetSdkVersion ← match q.seinfo with
    | none => some 0
    | some seinfo => getAppTargetSdkVersion seinfo
  let userid := q.uid / pl.aidUserOffset
  let (username, appid) ← appUser pl (q.uid % pl.aidUserOffset)
  if catMappingMaxId ≤ appid ∨ catMappingMaxId ≤ userid then none
  some
    { kind := q.kind
      isSystemServer := q.isSystemServer
      isEphemeralApp := flag ":ephemeralapp"
      username
      seinfo := parsed
      pkgname := q.pkgname
      isPrivApp := flag ":privapp"
      targetSdkVersion
      fromRunAs := flag ":fromRunAs"
      isIsolatedComputeApp := flag ":isolatedComputeApp"
      isSdkSandboxNext := flag ":isSdkSandboxNext"
      userid
      appid }

/-! ## The lookup -/

/-- A fixed text or a prefix fits, in any case of the letters. -/
def fitsPrefixStr (selector : Option CString) (value : Option CString) : Bool :=
  match selector with
  | none => true
  | some str =>
    value.any fun v =>
      if isPrefix str then v.eqIgnoreCaseUpTo (str.strlen - 1) str else v.eqIgnoreCase str

/-- The tests of the loop, each of which goes on to the next entry if it fails. -/
def SeappContext.fits (cur : SeappContext) (s : Subject) : Bool :=
  cur.isSystemServer == s.isSystemServer &&
  cur.isEphemeralApp.all (· == s.isEphemeralApp) &&
  fitsPrefixStr cur.user (some s.username) &&
  cur.seinfo.all (fun seinfo => s.seinfo.any (·.eqIgnoreCase seinfo)) &&
  fitsPrefixStr cur.name s.pkgname &&
  cur.isPrivApp.all (· == s.isPrivApp) &&
  decide (cur.minTargetSdkVersion ≤ s.targetSdkVersion) &&
  cur.fromRunAs == s.fromRunAs &&
  cur.isIsolatedComputeApp == s.isIsolatedComputeApp &&
  cur.isSdkSandboxNext == s.isSdkSandboxNext &&
  match s.kind with
  | .type => cur.type.isSome
  | .domain => cur.domain.isSome

/-- The components of a `context_t` that the lookup sets. -/
structure AppContext where
  type : Option CString
  range : Option CString
  deriving DecidableEq

/-- `context_type_set`, which refuses separators. -/
def contextTypeSet (ctx : AppContext) (str : CString) : Option AppContext :=
  if str.bytes.any ([0x09, 0x0a, 0x0d, 0x3a, 0x20].contains ·) then none
  else some { ctx with type := some str }

def contextRangeSet (ctx : AppContext) (str : CString) : Option AppContext :=
  if str.bytes.any ([0x09, 0x0a, 0x0d].contains ·) then none
  else some { ctx with range := some str }

/-- The level text of `set_range_from_level`. -/
def levelText (levelFrom : LevelFrom) (userid appid : Nat) : String :=
  let app := "c" ++ toString (appid % 256) ++ ",c" ++ toString (256 + appid / 256 % 256)
  let user := "c" ++ toString (512 + userid % 256) ++ ",c" ++ toString (768 + userid / 256 % 256)
  match levelFrom with
  | .none => "s0"
  | .app => "s0:" ++ app
  | .user => "s0:" ++ user
  | .all => "s0:" ++ app ++ "," ++ user

def setRangeFromLevel (ctx : AppContext) (levelFrom : LevelFrom) (userid appid : Nat) :
    Int × AppContext :=
  match contextRangeSet ctx (.ofString (levelText levelFrom userid appid)) with
  | none => (-2, ctx)
  | some ctx => (0, ctx)

/-- What the entry that was found does to the context, and the return code. -/
def SeappContext.apply (cur : SeappContext) (s : Subject) (ctx : AppContext) : Int × AppContext :=
  let str := match s.kind with
    | .type => cur.type
    | .domain => cur.domain
  match str.elim (some { ctx with type := none }) (contextTypeSet ctx) with
  | none => (-2, ctx)
  | some ctx =>
    if cur.levelFrom ≠ .none then setRangeFromLevel ctx cur.levelFrom s.userid s.appid
    else
      match cur.level with
      | none => (0, ctx)
      | some level =>
        match contextRangeSet ctx level with
        | none => (-2, ctx)
        | some ctx => (0, ctx)

/-- `seapp_context_lookup_internal`, with its return code and the context it leaves. -/
def seappContextLookup (table : List SeappContext) (q : Query) (ctx : AppContext) :
    Int × AppContext :=
  match prepare pl q with
  | none => (-1, ctx)
  | some s =>
    match table.find? (·.fits s) with
    | some cur => cur.apply s ctx
    | none => if s.kind = .domain ∧ pl.enforcing then (-1, ctx) else (0, ctx)

/-! ## Tables -/

theorem mem_readLines {lines entries} (h : readLines lines = some entries) (e : SeappContext) :
    e ∈ entries ↔ ∃ line ∈ lines, readLine line = some (some e) := by
  obtain ⟨read, hread, rfl⟩ := map_eq_some_iff.mp h
  clear h
  induction lines generalizing read with
  | nil =>
    cases hread
    simp
  | cons line lines ih =>
    rw [mapM_cons, bind_eq_bind, bind_eq_some_iff] at hread
    obtain ⟨first, hfirst, hread⟩ := hread
    obtain ⟨rest, hrest, hread⟩ := bind_eq_some_iff.mp hread
    cases hread
    cases first with
    | none =>
      simpa [hrest, hfirst] using ih
    | some e' =>
      have hcons : filterMap id (some e' :: rest) = e' :: filterMap id rest := rfl
      rw [hcons, mem_cons, ih rest hrest,
        exists_mem_cons_iff, hfirst, some.injEq, some.injEq, eq_comm]

theorem Reload.exists_entries {lines} {table : List SeappContext} (h : Reload lines table) :
    ∃ entries, readLines lines = some entries ∧ table.Perm entries ∧
      table.Pairwise fun a b => seappContextCmp a b ≤ 0 := by
  obtain ⟨entries, hentries, compared, result, hrun, -, rfl⟩ := h
  refine ⟨entries, hentries, ?_, pairwise_map.mpr hrun.sorted⟩
  exact (hrun.perm.map Prod.fst).trans (by rw [zipIdx_map_fst])

/-- Some comparison sort gets by without comparing two duplicates: no group of two or more entries
of the same precedence consists of duplicates of one another. -/
def Loadable : Prop :=
  Lib.Avoidable (fun a b : SeappContext × Nat => seappContextCmp a.1 b.1)
    (fun a b => seappDup a.1 b.1 = true) entries.zipIdx

theorem orders_zipIdx :
    Orders (fun a b : SeappContext × Nat => seappContextCmp a.1 b.1) entries.zipIdx :=
  (orders_seappContextCmp (entries.zipIdx.map Prod.fst)).comap

theorem nodup_zipIdx : entries.zipIdx.Nodup := by
  refine List.Nodup.of_map Prod.snd ?_
  rw [zipIdx_map_snd]
  exact nodup_range'

theorem Reload.loadable {lines table entries} (h : Reload lines table)
    (hentries : readLines lines = some entries) : Loadable entries := by
  obtain ⟨entries', hentries', compared, result, hrun, hdup, -⟩ := h
  rw [hentries, some.injEq] at hentries'
  subst hentries'
  exact hrun.avoidable (avoided_seappDup.comap Prod.fst) (orders_zipIdx entries)
    fun a b hab => by simp [hdup a b hab]

/-- Each of the first entries that fit can be the one that is found. -/
theorem Loadable.exists_reload {lines entries} (h : Loadable entries)
    (hentries : readLines lines = some entries) {fits e}
    (he : IsFirst seappContextCmp entries fits e) :
    ∃ table, Reload lines table ∧ table.find? fits = some e := by
  obtain ⟨hmem, hfits, hfirst⟩ := he
  obtain ⟨i, hi⟩ := mem_iff_getElem?.mp hmem
  have hitem : IsFirst (fun a b : SeappContext × Nat => seappContextCmp a.1 b.1) entries.zipIdx
      (fun a => fits a.1) (e, i) := by
    refine ⟨mem_zipIdx_iff_getElem?.mpr hi, hfits, fun b hb hbfits => ?_⟩
    exact hfirst b.1 (mem_of_getElem? (mem_zipIdx_iff_getElem?.mp hb)) hbfits
  obtain ⟨result, hperm, hsorted, hfind⟩ := hitem.exists_sorted (orders_zipIdx entries)
  refine ⟨result.map Prod.fst, ⟨entries, hentries, _, result,
    Lib.SortRun.of_avoidable (avoided_seappDup.comap Prod.fst) (orders_zipIdx entries)
      (nodup_zipIdx entries) h hperm hsorted, fun a b hab => ?_, rfl⟩, ?_⟩
  · simpa using hab.2.2
  · rw [find?_map]
    exact congrArg (Option.map Prod.fst) hfind

/-! ## Independence of the order of the lines -/

/-- Every order in which the lines are accepted as well gives the same answers. -/
def OrderIndependent (lines : List CString) : Prop :=
  ∀ table, Reload lines table → ∀ lines', lines'.Perm lines → ∀ table', Reload lines' table' →
    ∀ q ctx, seappContextLookup pl table' q ctx = seappContextLookup pl table q ctx

/-- No query has first entries that do different things. -/
def Unambiguous : Prop :=
  ∀ q s, prepare pl q = some s →
    ∀ e1 e2, IsFirst seappContextCmp entries (·.fits s) e1 →
      IsFirst seappContextCmp entries (·.fits s) e2 → ∀ ctx, e1.apply s ctx = e2.apply s ctx

end

theorem isFirst_of_mem_iff {entries entries' fits e} (hmem : ∀ e, e ∈ entries' ↔ e ∈ entries)
    (h : IsFirst seappContextCmp entries' fits e) : IsFirst seappContextCmp entries fits e :=
  ⟨(hmem e).mp h.1, h.2.1, fun b hb => h.2.2 b ((hmem b).mpr hb)⟩

/-- The order of the lines does not matter exactly if they are unambiguous or cannot be loaded. -/
theorem seappContextLookup_orderIndependent_iff (pl : Platform) (lines : List CString) :
    OrderIndependent pl lines ↔
      ∀ entries, readLines lines = some entries → Loadable entries → Unambiguous pl entries := by
  constructor
  · intro h entries hentries hload q s hs e1 e2 he1 he2 ctx
    obtain ⟨table, htable, hfind⟩ := hload.exists_reload hentries he1
    obtain ⟨table', htable', hfind'⟩ := hload.exists_reload hentries he2
    have hsame := h table htable lines (.refl lines) table' htable' q ctx
    simp only [seappContextLookup, hs, hfind, hfind'] at hsame
    exact hsame.symm
  · intro h table htable lines' hlines table' htable' q ctx
    obtain ⟨entries, hentries, hperm, hsorted⟩ := htable.exists_entries
    obtain ⟨entries', hentries', hperm', hsorted'⟩ := htable'.exists_entries
    have hmem : ∀ e, e ∈ entries' ↔ e ∈ entries := fun e => by
      simp only [mem_readLines hentries, mem_readLines hentries', hlines.mem_iff]
    have hunambiguous := h entries hentries (htable.loadable hentries)
    rw [seappContextLookup, seappContextLookup]
    cases hs : prepare pl q with
    | none => rfl
    | some s =>
      dsimp only
      cases hfind : table.find? (·.fits s) with
      | none =>
        have hnone : table'.find? (·.fits s) = none := by
          rw [find?_eq_none] at hfind ⊢
          exact fun e he => hfind e (hperm.mem_iff.mpr ((hmem e).mp (hperm'.mem_iff.mp he)))
        rw [hnone]
      | some e =>
        have he := Lib.isFirst_of_find? (orders_seappContextCmp entries) hperm hsorted hfind
        cases hfind' : table'.find? (·.fits s) with
        | none =>
          have hfits := find?_eq_none.mp hfind' e
            (hperm'.mem_iff.mpr ((hmem e).mpr he.1))
          exact absurd he.2.1 hfits
        | some e' =>
          have he' := Lib.isFirst_of_find? (orders_seappContextCmp entries') hperm' hsorted' hfind'
          exact hunambiguous q s hs e' e (isFirst_of_mem_iff hmem he') he ctx

/-- Entries that are in order already can stay where they are. -/
theorem Loadable.reload_self {lines} {entries : List SeappContext} (h : Loadable entries)
    (hentries : readLines lines = some entries)
    (hsorted : entries.Pairwise fun a b => seappContextCmp a b ≤ 0) : Reload lines entries := by
  have hmap : (entries.zipIdx.map Prod.fst).Pairwise fun a b => seappContextCmp a b ≤ 0 := by
    rwa [zipIdx_map_fst]
  refine ⟨entries, hentries, _, entries.zipIdx,
    Lib.SortRun.of_avoidable (avoided_seappDup.comap Prod.fst) (orders_zipIdx entries)
      (nodup_zipIdx entries) h (.refl _) (pairwise_map.mp hmap), fun a b hab => ?_, ?_⟩
  · simpa using hab.2.2
  · rw [zipIdx_map_fst]

def samplePlatform : Platform where
  aidUserOffset := 100000
  aidAppStart := 10000
  aidSdkSandboxProcessStart := 20000
  aidIsolatedStart := 99000
  bufsiz := 1024
  getpwuid _ := none
  enforcing := true

def appDomainLine (domain : String) : CString := .ofString ("user=_app domain=" ++ domain ++ "\n")

def appDomainEntry (domain : String) : SeappContext :=
  { user := some (.ofString "_app"), domain := some (.ofString domain) }

def appQuery : Query := ⟨.domain, 10001, false, none, none⟩

def appDomainLines : List CString := [appDomainLine "a", appDomainLine "b"]

/-- Two lines for the same user are loaded in either order, and the first one wins. -/
theorem seappContextLookup_orderDependent :
    seappContextLookup samplePlatform [appDomainEntry "a", appDomainEntry "b"] appQuery
      ⟨none, none⟩ = (0, ⟨some (.ofString "a"), none⟩) ∧
    seappContextLookup samplePlatform [appDomainEntry "b", appDomainEntry "a"] appQuery
      ⟨none, none⟩ = (0, ⟨some (.ofString "b"), none⟩) ∧
    Reload appDomainLines [appDomainEntry "a", appDomainEntry "b"] ∧
    Reload appDomainLines.reverse [appDomainEntry "b", appDomainEntry "a"] ∧
    ¬OrderIndependent samplePlatform appDomainLines := by
  have hload : Loadable [appDomainEntry "a", appDomainEntry "b"] := by
    unfold Loadable Lib.Avoidable
    decide +kernel
  have hload' : Loadable [appDomainEntry "b", appDomainEntry "a"] := by
    unfold Loadable Lib.Avoidable
    decide +kernel
  have htable : Reload appDomainLines [appDomainEntry "a", appDomainEntry "b"] :=
    hload.reload_self (by decide +kernel) (by decide +kernel)
  have htable' : Reload appDomainLines.reverse [appDomainEntry "b", appDomainEntry "a"] :=
    hload'.reload_self (by decide +kernel) (by decide +kernel)
  refine ⟨by decide +kernel, by decide +kernel, htable, htable', fun h => ?_⟩
  exact absurd (h _ htable _ (reverse_perm _) _ htable' appQuery ⟨none, none⟩) (by decide +kernel)

end SELinux.Android
