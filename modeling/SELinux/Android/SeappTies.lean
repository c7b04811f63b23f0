import SELinux.Android.SeappLookup

/-!
# Entries of the same precedence

`seapp_context_cmp` looks at the presence, the kind and the length of a selector, and the lookup at
its content. Two entries that tie and fit the same app have the same selectors.
-/

namespace SELinux.Android

open Option List

open Lib (CString Orders)

/-- Both are missing, or both are there and equal up to the case of letters. -/
def SameText (a b : Option CString) : Prop :=
  a.isSome = b.isSome ∧ ∀ s ∈ a, ∀ t ∈ b, s.eqIgnoreCase t = true

/-- The same value for every input selector. -/
structure SameSelectors (s1 s2 : SeappContext) : Prop where
  isSystemServer : s1.isSystemServer = s2.isSystemServer
  isEphemeralApp : s1.isEphemeralApp = s2.isEphemeralApp
  user : SameText s1.user s2.user
  seinfo : SameText s1.seinfo s2.seinfo
  name : SameText s1.name s2.name
  isPrivApp : s1.isPrivApp = s2.isPrivApp
  minTargetSdkVersion : s1.minTargetSdkVersion = s2.minTargetSdkVersion
  fromRunAs : s1.fromRunAs = s2.fromRunAs
  isIsolatedComputeApp : s1.isIsolatedComputeApp = s2.isIsolatedComputeApp
  isSdkSandboxNext : s1.isSdkSandboxNext = s2.isSdkSandboxNext

/-! ## One selector -/

/-- Two prefixes of one length that fit the same text are equal: the star is the last byte of
both. -/
theorem eqIgnoreCase_of_prefix {s t v : CString} (hs : isPrefix s = true) (ht : isPrefix t = true)
    (hlen : s.strlen = t.strlen) (hsv : v.eqIgnoreCaseUpTo (s.strlen - 1) s = true)
    (htv : v.eqIgnoreCaseUpTo (t.strlen - 1) t = true) : s.eqIgnoreCase t = true := by
  have hsplit : ∀ {x : CString}, isPrefix x = true →
      x.bytes = x.bytes.take (x.strlen - 1) ++ [0x2a] := by
    intro x hx
    obtain ⟨ys, hys⟩ := getLast?_eq_some_iff.mp (beq_iff_eq.mp hx)
    rw [CString.strlen, hys]
    simp
  rw [CString.eqIgnoreCaseUpTo, beq_iff_eq] at hsv htv
  rw [hlen] at hsv
  rw [CString.eqIgnoreCase, beq_iff_eq, hsplit hs, hsplit ht, hlen, map_append,
    map_append,
    ← hsv, htv]

theorem sameText_of_fits {a b value} (htie : prefixStrCmp a b = 0)
    (ha : fitsPrefixStr a value = true) (hb : fitsPrefixStr b value = true) : SameText a b := by
  cases a with
  | none =>
    cases b with
    | none => exact ⟨rfl, by simp⟩
    | some t => simp [prefixStrCmp] at htie
  | some s =>
    cases b with
    | none => simp [prefixStrCmp] at htie
    | some t =>
      refine ⟨rfl, ?_⟩
      rintro _ ⟨⟩ _ ⟨⟩
      obtain ⟨v, rfl⟩ : ∃ v, value = some v := by
        cases value with
        | none => simp [fitsPrefixStr] at ha
        | some v => exact ⟨v, rfl⟩
      simp only [fitsPrefixStr, any_some] at ha hb
      rw [prefixStrCmp_eq, Lib.thenCmp_eq_zero, Lib.thenCmp_eq_zero, Lib.keyCmp_eq_zero,
        Lib.keyCmp_eq_zero, Lib.keyCmp_eq_zero] at htie
      obtain ⟨-, hkind, hlen⟩ := htie
      simp only [any_some] at hkind
      cases hs : isPrefix s with
      | true =>
        have ht : isPrefix t = true := hkind ▸ hs
        simp only [prefixLen, any_some, hs, ht, if_true, map_some,
          getD_some] at hlen
        rw [if_pos hs] at ha
        rw [if_pos ht] at hb
        exact eqIgnoreCase_of_prefix hs ht (by omega) ha hb
      | false =>
        rw [if_neg (by simp [hs])] at ha
        rw [if_neg (by simp [← hkind, hs])] at hb
        rw [CString.eqIgnoreCase, beq_iff_eq] at ha hb ⊢
        rw [← ha, hb]

theorem eq_of_fits {a b : Option Bool} {value : Bool} (hsome : a.isSome = b.isSome)
    (ha : a.all (· == value) = true) (hb : b.all (· == value) = true) : a = b := by
  cases a <;> cases b <;> simp_all

theorem sameText_of_seinfo {a b value : Option CString} (hsome : a.isSome = b.isSome)
    (ha : a.all (fun s => value.any (·.eqIgnoreCase s)) = true)
    (hb : b.all (fun s => value.any (·.eqIgnoreCase s)) = true) : SameText a b := by
  refine ⟨hsome, ?_⟩
  rintro s rfl t rfl
  cases value with
  | none => simp at ha
  | some v =>
    simp only [all_some, any_some, CString.eqIgnoreCase, beq_iff_eq] at ha hb ⊢
    rw [← ha, hb]

/-! ## Ties -/

/-- `seapp_context_cmp` is a total preorder, and entries that it ranks equal have the same selectors
if both fit what is looked up by a query. -/
theorem seappContextCmp_ties (pl : Platform) : (∀ l, Orders seappContextCmp l) ∧
    ∀ s1 s2, seappContextCmp s1 s2 = 0 → ∀ q s, prepare pl q = some s → s1.fits s = true →
      s2.fits s = true → SameSelectors s1 s2 := by
  refine ⟨orders_seappContextCmp, fun s1 s2 htie q s _ h1 h2 => ?_⟩
  simp only [SeappContext.fits, Bool.and_eq_true, beq_iff_eq] at h1 h2
  obtain ⟨⟨⟨⟨⟨⟨⟨⟨⟨⟨hserver, heph⟩, huser⟩, hseinfo⟩, hname⟩, hpriv⟩, -⟩, hrun⟩, hiso⟩, hsdk⟩, -⟩ :=
    h1
  obtain ⟨⟨⟨⟨⟨⟨⟨⟨⟨⟨hserver', heph'⟩, huser'⟩, hseinfo'⟩, hname'⟩, hpriv'⟩, -⟩, hrun'⟩, hiso'⟩,
    hsdk'⟩, -⟩ := h2
  obtain ⟨hephSome, -, hseinfoSome, -, hprivSome⟩ := isSome_of_tie htie
  simp only [seappContextCmp, Lib.thenCmp_eq_zero, minTargetSdkVersionCmp_eq_keyCmp,
    Lib.keyCmp_eq_zero] at htie
  obtain ⟨-, -, huserTie, -, hnameTie, -, hversion, -⟩ := htie
  exact
    { isSystemServer := hserver.trans hserver'.symm
      isEphemeralApp := eq_of_fits hephSome heph heph'
      user := sameText_of_fits huserTie huser huser'
      seinfo := sameText_of_seinfo hseinfoSome hseinfo hseinfo'
      name := sameText_of_fits hnameTie hname hname'
      isPrivApp := eq_of_fits hprivSome hpriv hpriv'
      minTargetSdkVersion := by omega
      fromRunAs := hrun.trans hrun'.symm
      isIsolatedComputeApp := hiso.trans hiso'.symm
      isSdkSandboxNext := hsdk.trans hsdk'.symm }

/-- The same prefix in small and capital letters. -/
theorem seappContextCmp_ties_letters :
    let entry (user : String) : SeappContext :=
      { user := some (.ofString user), domain := some (.ofString "d") }
    SameSelectors (entry "_a*") (entry "_A*") := by
  intro entry
  have hfits : ((prepare samplePlatform appQuery).any fun s =>
      (entry "_a*").fits s && (entry "_A*").fits s) = true := by decide +kernel
  obtain ⟨s, hs, hfits⟩ := (any_eq_true _ _).mp hfits
  obtain ⟨h1, h2⟩ := Bool.and_eq_true_iff.mp hfits
  exact (seappContextCmp_ties samplePlatform).2 _ _ (by decide +kernel) appQuery s hs h1 h2

/-! ## Levels per app -/

/-- The classes of user names that the platform gives to apps. -/
inductive AppClass where
  | app | sdksandbox | isolated
  deriving DecidableEq

def appClass (pl : Platform) (uid : Nat) : Option AppClass :=
  let appid := uid % pl.aidUserOffset
  if appid < pl.aidAppStart then none
  else if appid < pl.aidSdkSandboxProcessStart then some .app
  else if appid < pl.aidIsolatedStart then some .sdksandbox
  else some .isolated

def AppClass.start (pl : Platform) : AppClass → Nat
  | app => pl.aidAppStart
  | sdksandbox => pl.aidSdkSandboxProcessStart
  | isolated => pl.aidIsolatedStart

/-- The categories in the text of `set_range_from_level`. -/
def levelCats (levelFrom : LevelFrom) (userid appid : Nat) : List Nat :=
  let app := [appid % 256, 256 + appid / 256 % 256]
  let user := [512 + userid % 256, 768 + userid / 256 % 256]
  match levelFrom with
  | .none => []
  | .app => app
  | .user => user
  | .all => app ++ user

/-- The level `s0` with these categories. -/
def catsText (cats : List Nat) : String :=
  "s0:" ++ ",".intercalate (cats.map fun c => "c" ++ toString c)

theorem levelText_eq {levelFrom} (h : levelFrom ≠ .none) (userid appid : Nat) :
    levelText levelFrom userid appid = catsText (levelCats levelFrom userid appid) := by
  have hsep : ∀ x : String, ",c" ++ x = "," ++ ("c" ++ x) := by
    intro x
    rfl
  have hpair : ∀ a b : String, ",".intercalate [a, b] = a ++ "," ++ b := fun _ _ => rfl
  have hfour : ∀ a b c d : String, ",".intercalate [a, b, c, d] = a ++ "," ++ b ++ "," ++ c ++
      "," ++ d :=
    fun _ _ _ _ => rfl
  cases levelFrom with
  | none => exact absurd rfl h
  | app => simp [levelText, catsText, levelCats, hpair, hsep, String.append_assoc]
  | user => simp [levelText, catsText, levelCats, hpair, hsep, String.append_assoc]
  | all => simp [levelText, catsText, levelCats, hfour, hsep, String.append_assoc]

/-- The entry that a query finds makes the level in this way. -/
def FindsLevelFrom (pl : Platform) (table : List SeappContext) (q : Query) (levelFrom : LevelFrom) :
    Prop :=
  ∃ s cur, prepare pl q = some s ∧ table.find? (·.fits s) = some cur ∧ cur.levelFrom = levelFrom

/-- A lookup that succeeds leaves the text of the level in the context. -/
theorem seappContextLookup_range {pl table q s cur ctx} (hs : prepare pl q = some s)
    (hfind : table.find? (·.fits s) = some cur) (hne : cur.levelFrom ≠ .none)
    (hok : (seappContextLookup pl table q ctx).1 = 0) :
    (seappContextLookup pl table q ctx).2.range =
      some (.ofString (levelText cur.levelFrom s.userid s.appid)) := by
  have hlookup : seappContextLookup pl table q ctx = cur.apply s ctx := by
    simp only [seappContextLookup, hs, hfind]
  rw [hlookup] at hok ⊢
  unfold SeappContext.apply at hok ⊢
  dsimp only at hok ⊢
  split at hok
  · cases hok
  · rw [if_pos hne, setRangeFromLevel, contextRangeSet] at hok ⊢
    split_ifs at hok ⊢ with hsep
    · cases hok
    · rfl

/-- What two uids have in common if levels that are made in this way are equal. -/
def SharedIds (pl : Platform) (levelFrom : LevelFrom) (uid uid' : Nat) : Prop :=
  match levelFrom with
  | .none => True
  | .app => uid % pl.aidUserOffset = uid' % pl.aidUserOffset
  | .user => uid / pl.aidUserOffset = uid' / pl.aidUserOffset
  | .all => uid = uid'

/-- What a lookup of an app of a class works with. -/
theorem prepare_app {pl : Platform} {q : Query} {s : Subject} {c : AppClass}
    (h : prepare pl q = some s) (hc : appClass pl q.uid = some c) :
    q.uid % pl.aidUserOffset = c.start pl + s.appid ∧ s.userid = q.uid / pl.aidUserOffset ∧
      s.appid < 65536 ∧ s.userid < 65536 := by
  obtain ⟨⟨username, appid⟩, hr, hmax, huser, happ⟩ :
    ∃ r, appUser pl (q.uid % pl.aidUserOffset) = some r ∧
      ¬(catMappingMaxId ≤ r.2 ∨ catMappingMaxId ≤ q.uid / pl.aidUserOffset) ∧
      s.userid = q.uid / pl.aidUserOffset ∧ s.appid = r.2 := by
    simp only [prepare, bind_eq_bind] at h
    split at h <;> simp only [bind_eq_some_iff] at h
    all_goals
      obtain ⟨_, _, _, _, r, hr, h⟩ := h
      split_ifs at h with hmax <;> simp at h
      exact ⟨r, hr, hmax, by rw [← h], by rw [← h]⟩
  rw [huser, happ]
  simp only [catMappingMaxId, not_or, Nat.not_le] at hmax
  simp only [appClass, appUser] at hc hr
  split_ifs at hc hr <;> cases hc <;> cases hr <;>
    exact ⟨by simp only [AppClass.start]; omega, rfl, hmax.1, hmax.2⟩

/-- For two uids of the same class whose entries make the level in the same way, the categories that
the lookups write tell the uids, the app ids or the user ids apart. -/
theorem seappContextLookup_isolates (pl : Platform) (table : List SeappContext) {q q' : Query}
    {c : AppClass} (hc : appClass pl q.uid = some c) (hc' : appClass pl q'.uid = some c)
    {levelFrom : LevelFrom} (hne : levelFrom ≠ .none) (h : FindsLevelFrom pl table q levelFrom)
    (h' : FindsLevelFrom pl table q' levelFrom) {ctx ctx' : AppContext}
    (hok : (seappContextLookup pl table q ctx).1 = 0)
    (hok' : (seappContextLookup pl table q' ctx').1 = 0) : ∃ cats cats' : List Nat,
      (seappContextLookup pl table q ctx).2.range = some (.ofString (catsText cats)) ∧
      (seappContextLookup pl table q' ctx').2.range = some (.ofString (catsText cats')) ∧
      ((∀ c, c ∈ cats ↔ c ∈ cats') → SharedIds pl levelFrom q.uid q'.uid) := by
  obtain ⟨s, cur, hs, hfind, rfl⟩ := h
  obtain ⟨s', cur', hs', hfind', hfrom⟩ := h'
  have hrange := seappContextLookup_range hs hfind hne hok
  have hrange' := seappContextLookup_range hs' hfind' (hfrom ▸ hne) hok'
  rw [hfrom] at hrange'
  rw [levelText_eq hne] at hrange hrange'
  refine ⟨_, _, hrange, hrange', fun hmem => ?_⟩
  obtain ⟨happ, huser, hlt, hltu⟩ := prepare_app hs hc
  obtain ⟨happ', huser', hlt', hltu'⟩ := prepare_app hs' hc'
  generalize cur.levelFrom = levelFrom at hmem ⊢
  have happs : levelFrom = .app ∨ levelFrom = .all → s.appid = s'.appid := by
    intro hl
    have hlow := hmem (s.appid % 256)
    have hhigh := hmem (256 + s.appid / 256 % 256)
    rcases hl with rfl | rfl <;>
      simp only [levelCats, cons_append, nil_append, mem_cons, not_mem_nil,
        or_false,
        true_or, or_true, true_iff] at hlow hhigh <;> omega
  have husers : levelFrom = .user ∨ levelFrom = .all → s.userid = s'.userid := by
    intro hl
    have hlow := hmem (512 + s.userid % 256)
    have hhigh := hmem (768 + s.userid / 256 % 256)
    rcases hl with rfl | rfl <;>
      simp only [levelCats, cons_append, nil_append, mem_cons, not_mem_nil,
        or_false,
        true_or, or_true, true_iff] at hlow hhigh <;> omega
  cases levelFrom with
  | none => trivial
  | app =>
    have := happs (.inl rfl)
    rw [SharedIds]
    omega
  | user =>
    have := husers (.inl rfl)
    rw [SharedIds]
    omega
  | all =>
    have happ_eq := happs (.inr rfl)
    have huser_eq := husers (.inr rfl)
    rw [SharedIds, ← Nat.div_add_mod q.uid pl.aidUserOffset,
      ← Nat.div_add_mod q'.uid pl.aidUserOffset, ← huser, ← huser',
      happ, happ', happ_eq, huser_eq]

/-- Two apps with neighbouring uids get different categories. -/
theorem seappContextLookup_isolates_apps :
    let table : List SeappContext := [{ domain := some (.ofString "d"), levelFrom := .all }]
    let q (uid : Nat) : Query := ⟨.domain, uid, false, none, some (.ofString "a")⟩
    ∃ cats cats' : List Nat,
      (seappContextLookup samplePlatform table (q 10300) ⟨none, none⟩).2.range =
        some (.ofString (catsText cats)) ∧
      (seappContextLookup samplePlatform table (q 10301) ⟨none, none⟩).2.range =
        some (.ofString (catsText cats')) ∧ ¬ ∀ c, c ∈ cats ↔ c ∈ cats' := by
  intro table q
  have huids : ∀ uid ∈ [10300, 10301], FindsLevelFrom samplePlatform table (q uid) .all ∧
      (seappContextLookup samplePlatform table (q uid) ⟨none, none⟩).1 = 0 := by
    intro uid huid
    have hfound : ((prepare samplePlatform (q uid)).any fun s =>
          (table.find? (·.fits s)).any fun cur => cur.levelFrom == .all) = true ∧
        (seappContextLookup samplePlatform table (q uid) ⟨none, none⟩).1 = 0 := by
      obtain rfl | rfl : uid = 10300 ∨ uid = 10301 := by simpa using huid
      all_goals decide +kernel
    obtain ⟨s, hs, hcur⟩ := (any_eq_true _ _).mp hfound.1
    obtain ⟨cur, hcur, hfrom⟩ := (any_eq_true _ _).mp hcur
    exact ⟨⟨s, cur, hs, hcur, beq_iff_eq.mp hfrom⟩, hfound.2⟩
  obtain ⟨hfinds, hok⟩ := huids 10300 (by simp)
  obtain ⟨hfinds', hok'⟩ := huids 10301 (by simp)
  obtain ⟨cats, cats', h, h', hsame⟩ := seappContextLookup_isolates samplePlatform table (c := .app)
    (by decide) (by decide) (by decide) hfinds hfinds' hok hok'
  refine ⟨cats, cats', h, h', fun hmem => ?_⟩
  have huid : 10300 = 10301 := hsame hmem
  omega

end SELinux.Android
