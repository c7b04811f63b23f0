import SELinux.Lib.CString
import SELinux.Lib.ComparisonSort

/-!
# The entries of `seapp_contexts`

`android_seapp.c` reads lines of selectors and outputs, sorts the entries by precedence with
`seapp_context_cmp`, and refuses them if that function came across a duplicate while sorting.
-/

namespace SELinux.Android

open Option

open Lib (CString keyCmp thenCmp Orders)

inductive LevelFrom where
  | none | app | user | all
  deriving DecidableEq

/-- `struct seapp_context`. The length of a `user` or `name` and whether it is a prefix follow from
its text, and a flag with a `Set` beside it is an option. -/
structure SeappContext where
  isSystemServer : Bool := false
  isEphemeralApp : Option Bool := none
  user : Option CString := none
  seinfo : Option CString := none
  name : Option CString := none
  isPrivApp : Option Bool := none
  minTargetSdkVersion : Nat := 0
  fromRunAs : Bool := false
  isIsolatedComputeApp : Bool := false
  isSdkSandboxNext : Bool := false
  domain : Option CString := none
  type : Option CString := none
  level : Option CString := none
  levelFrom : LevelFrom := .none
  deriving DecidableEq

/-- A text that ends in `*`. -/
def isPrefix (s : CString) : Bool := s.bytes.getLast? == some 0x2a

/-! ## Reading -/

def parseBool (value : CString) : Option Bool :=
  if value.eqIgnoreCase (.ofString "true") then some true
  else if value.eqIgnoreCase (.ofString "false") then some false
  else none

def getMinTargetSdkVersion (value : CString) : Option Nat :=
  let (version, rest) := CString.strtol value.bytes
  if rest ≠ [] ∨ version < 0 ∨ 2 ^ 31 - 1 < version then none else some version.toNat

/-- A text that may be given once. -/
def setOnce (old : Option CString) (value : CString) : Option (Option CString) :=
  if old.isSome then none else some (some value)

def parseLevelFrom (value : CString) : Option LevelFrom :=
  if value.eqIgnoreCase (.ofString "none") then some .none
  else if value.eqIgnoreCase (.ofString "app") then some .app
  else if value.eqIgnoreCase (.ofString "user") then some .user
  else if value.eqIgnoreCase (.ofString "all") then some .all
  else none

/-- What a `name=value` does to the entry of its line. -/
def applyToken (cur : SeappContext) (name value : CString) : Option SeappContext :=
  if name.eqIgnoreCase (.ofString "isSystemServer") then do
    some { cur with isSystemServer := ← parseBool value }
  else if name.eqIgnoreCase (.ofString "isEphemeralApp") then do
    some { cur with isEphemeralApp := some (← parseBool value) }
  else if name.eqIgnoreCase (.ofString "user") then do
    some { cur with user := ← setOnce cur.user value }
  else if name.eqIgnoreCase (.ofString "seinfo") then do
    let seinfo ← setOnce cur.seinfo value
    if value.bytes.contains 0x3a then none
    some { cur with seinfo := seinfo }
  else if name.eqIgnoreCase (.ofString "name") then do
    some { cur with name := ← setOnce cur.name value }
  else if name.eqIgnoreCase (.ofString "domain") then do
    some { cur with domain := ← setOnce cur.domain value }
  else if name.eqIgnoreCase (.ofString "type") then do
    some { cur with type := ← setOnce cur.type value }
  else if name.eqIgnoreCase (.ofString "levelFromUid") then do
    if cur.levelFrom ≠ .none then none
    some { cur with levelFrom := if ← parseBool value then .app else .none }
  else if name.eqIgnoreCase (.ofString "levelFrom") then do
    if cur.levelFrom ≠ .none then none
    some { cur with levelFrom := ← parseLevelFrom value }
  else if name.eqIgnoreCase (.ofString "level") then do
    some { cur with level := ← setOnce cur.level value }
  else if name.eqIgnoreCase (.ofString "isPrivApp") then do
    some { cur with isPrivApp := some (← parseBool value) }
  else if name.eqIgnoreCase (.ofString "minTargetSdkVersion") then do
    some { cur with minTargetSdkVersion := ← getMinTargetSdkVersion value }
  else if name.eqIgnoreCase (.ofString "fromRunAs") then do
    some { cur with fromRunAs := ← parseBool value }
  else if name.eqIgnoreCase (.ofString "isIsolatedComputeApp") then do
    some { cur with isIsolatedComputeApp := ← parseBool value }
  else if name.eqIgnoreCase (.ofString "isSdkSandboxNext") then do
    some { cur with isSdkSandboxNext := ← parseBool value }
  else none

/-- A token is split at its first `=`. -/
def readToken (cur : SeappContext) (token : List (BitVec 8)) : Option SeappContext := do
  let i ← token.idxOf? 0x3d
  applyToken cur (.ofBuffer (token.take i)) (.ofBuffer (token.drop (i + 1)))

/-- The tokens that `strtok_r` finds between blanks and tabs. -/
def tokens (line : List (BitVec 8)) : List (List (BitVec 8)) :=
  (line.splitOnP fun c => c == 0x20 || c == 0x09).filter (· ≠ [])

/-- An entry for all packages of a name must say who signed them. -/
def insecure (cur : SeappContext) : Bool :=
  !cur.isPrivApp.getD false && cur.name.isSome &&
    (cur.seinfo.isNone || cur.seinfo == some (.ofString "default"))

/-- A line as `fgets` yields it: refused, without an entry, or with one. -/
def readLine (line : CString) : Option (Option SeappContext) :=
  if line.strlen = 0 then none
  else
    let text := if line.bytes.getLast? = some 0x0a then line.bytes.dropLast else line.bytes
    match text.dropWhile CString.isspace with
    | [] => some none
    | c :: rest =>
      if c = 0x23 then some none
      else do
        let cur ← (tokens (c :: rest)).foldlM readToken {}
        if insecure cur then none
        some (some cur)

def readLines (lines : List CString) : Option (List SeappContext) :=
  (lines.mapM readLine).map (·.filterMap id)

/-! ## Precedence -/

/-- An entry with the property comes before one without it. -/
def precedence (has : SeappContext → Bool) (s1 s2 : SeappContext) : Int :=
  if has s1 ≠ has s2 then (if has s1 then -1 else 1) else 0

/-- The comparison of two `user` or `name` selectors: a given one, a fixed one and a longer prefix
come first. -/
def prefixStrCmp (p1 p2 : Option CString) : Int :=
  match p1, p2 with
  | some _, none => -1
  | none, some _ => 1
  | none, none => 0
  | some str1, some str2 =>
    if isPrefix str1 ≠ isPrefix str2 then (if isPrefix str2 then -1 else 1)
    else if isPrefix str1 ∧ str1.strlen ≠ str2.strlen then
      (if str2.strlen < str1.strlen then -1 else 1)
    else 0

def minTargetSdkVersionCmp (s1 s2 : SeappContext) : Int :=
  if s2.minTargetSdkVersion < s1.minTargetSdkVersion then -1
  else if s1.minTargetSdkVersion < s2.minTargetSdkVersion then 1
  else 0

/-- `seapp_context_cmp`, one comparison after another. -/
def seappContextCmp : SeappContext → SeappContext → Int :=
  thenCmp (precedence (·.isSystemServer)) <|
  thenCmp (precedence (·.isEphemeralApp.isSome)) <|
  thenCmp (fun s1 s2 => prefixStrCmp s1.user s2.user) <|
  thenCmp (precedence (·.seinfo.isSome)) <|
  thenCmp (fun s1 s2 => prefixStrCmp s1.name s2.name) <|
  thenCmp (precedence (·.isPrivApp.isSome)) <|
  thenCmp minTargetSdkVersionCmp (precedence (·.fromRunAs))

/-- What `seapp_context_cmp` takes for a duplicate, where it has found no other difference. -/
def seappDup (s1 s2 : SeappContext) : Bool :=
  seappContextCmp s1 s2 == 0 &&
  s1.user.all (some · == s2.user) &&
  s1.seinfo.all (some · == s2.seinfo) &&
  s1.name.all (some · == s2.name) &&
  (s1.isPrivApp.isSome && s1.isPrivApp.getD false == s2.isPrivApp.getD false) &&
  (s1.isSystemServer && s1.isSystemServer == s2.isSystemServer) &&
  (s1.isEphemeralApp.isSome && s1.isEphemeralApp.getD false == s2.isEphemeralApp.getD false) &&
  (s1.isIsolatedComputeApp && s1.isIsolatedComputeApp == s2.isIsolatedComputeApp) &&
  (s1.isSdkSandboxNext && s1.isSdkSandboxNext == s2.isSdkSandboxNext)

/-! ## The order of the entries -/

theorem precedence_eq_keyCmp (has : SeappContext → Bool) :
    precedence has = keyCmp fun s => !has s := by
  funext s1 s2
  rw [precedence, keyCmp]
  cases has s1 <;> cases has s2 <;> decide

theorem minTargetSdkVersionCmp_eq_keyCmp :
    minTargetSdkVersionCmp = keyCmp fun s => -(s.minTargetSdkVersion : Int) := by
  funext s1 s2
  simp [minTargetSdkVersionCmp, keyCmp]

/-- The length counts for prefixes only. -/
def prefixLen (p : Option CString) : Nat :=
  if p.any isPrefix then (p.map CString.strlen).getD 0 else 0

theorem prefixStrCmp_eq : prefixStrCmp = thenCmp (keyCmp isNone)
      (thenCmp (keyCmp fun p => p.any isPrefix) (keyCmp fun p => -(prefixLen p : Int))) := by
  funext p1 p2
  rw [prefixStrCmp.eq_def]
  cases p1 with
  | none =>
    cases p2 with
    | none => rfl
    | some str2 => rfl
  | some str1 =>
    cases p2 with
    | none => rfl
    | some str2 =>
      simp only [thenCmp, keyCmp, prefixLen, isNone_some, any_some, map_some,
        getD_some, lt_irrefl, if_false, ne_eq, not_true_eq_false]
      rcases Bool.eq_false_or_eq_true (isPrefix str1) with h1 | h1 <;>
        rcases Bool.eq_false_or_eq_true (isPrefix str2) with h2 | h2
      · rcases Nat.lt_trichotomy str1.strlen str2.strlen with hlt | heq | hgt
        · simp [h1, h2, hlt.ne, hlt, Nat.lt_asymm hlt]
        · simp [h1, h2, heq]
        · simp [h1, h2, hgt.ne', hgt]
      · have hlt : ¬true < false := by decide
        simp [h1, h2, hlt]
      · simp [h1, h2]
      · simp [h1, h2]

theorem orders_seappContextCmp (l : List SeappContext) : Orders seappContextCmp l := by
  have hprecedence : ∀ has, Orders (precedence has) l := fun has => by
    rw [precedence_eq_keyCmp]
    exact Lib.orders_keyCmp _ l
  have hstrCmp : ∀ key : SeappContext → Option CString,
      Orders (fun s1 s2 => prefixStrCmp (key s1) (key s2)) l := fun key => by
    rw [prefixStrCmp_eq]
    exact (Lib.orders_keyCmp (fun s => (key s).isNone) l).then
      ((Lib.orders_keyCmp (fun s => (key s).any isPrefix) l).then
        (Lib.orders_keyCmp (fun s => -(prefixLen (key s) : Int)) l))
  have hversion : Orders minTargetSdkVersionCmp l := by
    rw [minTargetSdkVersionCmp_eq_keyCmp]
    exact Lib.orders_keyCmp _ l
  exact (hprecedence _).then <| (hprecedence _).then <| (hstrCmp _).then <| (hprecedence _).then <|
    (hstrCmp _).then <| (hprecedence _).then <| hversion.then (hprecedence _)

variable {s1 s2 : SeappContext}

/-- Entries of the same precedence have the same selectors set. -/
theorem isSome_of_tie (h : seappContextCmp s1 s2 = 0) :
    s1.isEphemeralApp.isSome = s2.isEphemeralApp.isSome ∧ s1.user.isNone = s2.user.isNone ∧
    s1.seinfo.isSome = s2.seinfo.isSome ∧ s1.name.isNone = s2.name.isNone ∧
    s1.isPrivApp.isSome = s2.isPrivApp.isSome := by
  simp only [seappContextCmp, Lib.thenCmp_eq_zero, precedence_eq_keyCmp, prefixStrCmp_eq,
    Lib.keyCmp_eq_zero] at h
  obtain ⟨-, hephemeral, huser, hseinfo, hname, hpriv, -⟩ := h
  exact ⟨Bool.not_inj hephemeral, huser.1, Bool.not_inj hseinfo, hname.1, Bool.not_inj hpriv⟩

theorem eq_of_all {a b : Option CString} (h : a.all (some · == b) = true)
    (hnone : a.isNone = b.isNone) : a = b := by
  cases a with
  | none => cases b with
    | none => rfl
    | some v => cases hnone
  | some u => simpa using h

theorem all_self (a : Option CString) : a.all (some · == a) = true := by
  cases a <;> simp

theorem eq_of_getD {a b : Option Bool} (h : a.getD false = b.getD false)
    (hsome : a.isSome = b.isSome) : a = b := by
  cases a <;> cases b <;> simp_all

theorem seappDup_iff : seappDup s1 s2 = true ↔ seappContextCmp s1 s2 = 0 ∧
      (s1.user = s2.user ∧ s1.seinfo = s2.seinfo ∧ s1.name = s2.name ∧ s1.isPrivApp = s2.isPrivApp ∧
        s1.isSystemServer = s2.isSystemServer ∧ s1.isEphemeralApp = s2.isEphemeralApp ∧
        s1.isIsolatedComputeApp = s2.isIsolatedComputeApp ∧
        s1.isSdkSandboxNext = s2.isSdkSandboxNext) ∧
      s1.isPrivApp.isSome = true ∧ s1.isSystemServer = true ∧ s1.isEphemeralApp.isSome = true ∧
        s1.isIsolatedComputeApp = true ∧ s1.isSdkSandboxNext = true := by
  rw [seappDup]
  constructor
  · intro h
    simp only [Bool.and_eq_true, beq_iff_eq] at h
    obtain ⟨⟨⟨⟨⟨⟨⟨⟨htie, huser⟩, hseinfo⟩, hname⟩, hpriv⟩, hserver⟩, hephemeral⟩, hisolated⟩,
      hsdk⟩ := h
    obtain ⟨hephemeral', huser', hseinfo', hname', hpriv'⟩ := isSome_of_tie htie
    refine ⟨htie, ⟨eq_of_all huser huser', eq_of_all hseinfo ?_, eq_of_all hname hname',
      eq_of_getD hpriv.2 hpriv', hserver.2, eq_of_getD hephemeral.2 hephemeral', hisolated.2,
        hsdk.2⟩,
      hpriv.1, hserver.1, hephemeral.1, hisolated.1, hsdk.1⟩
    rw [← not_isSome, ← not_isSome, hseinfo']
  · rintro ⟨htie, ⟨huser, hseinfo, hname, hpriv, hserver, hephemeral, hisolated, hsdk⟩, hset⟩
    simp [htie, huser, hseinfo, hname, all_self, ← hpriv, ← hserver, ← hephemeral, ← hisolated,
      ← hsdk, hset]

theorem avoided_seappDup : Lib.Avoided seappContextCmp fun s1 s2 => seappDup s1 s2 = true := by
  have hcomm : ∀ {s1 s2 : SeappContext}, seappContextCmp s1 s2 = 0 → seappContextCmp s2 s1 = 0 :=
    fun {s1 s2} => (orders_seappContextCmp [s1, s2]).eq_comm (by simp) (by simp)
  have htrans : ∀ {s1 s2 s3 : SeappContext}, seappContextCmp s1 s2 = 0 →
      seappContextCmp s2 s3 = 0 → seappContextCmp s1 s3 = 0 :=
    fun {s1 s2 s3} => (orders_seappContextCmp [s1, s2, s3]).eq_trans (by simp) (by simp) (by simp)
  constructor
  · exact fun h => (seappDup_iff.mp h).1
  · intro s1 s2 h
    obtain ⟨htie, ⟨h1, h2, h3, h4, h5, h6, h7, h8⟩, hset⟩ := seappDup_iff.mp h
    rw [h4, h5, h6, h7, h8] at hset
    exact seappDup_iff.mpr ⟨hcomm htie,
      ⟨h1.symm, h2.symm, h3.symm, h4.symm, h5.symm, h6.symm, h7.symm, h8.symm⟩, hset⟩
  · intro s1 s2 s3 h h'
    obtain ⟨htie, ⟨h1, h2, h3, h4, h5, h6, h7, h8⟩, hset⟩ := seappDup_iff.mp h
    obtain ⟨htie', ⟨h1', h2', h3', h4', h5', h6', h7', h8'⟩, -⟩ := seappDup_iff.mp h'
    exact seappDup_iff.mpr ⟨htrans htie htie', ⟨h1.trans h1', h2.trans h2', h3.trans h3',
      h4.trans h4', h5.trans h5', h6.trans h6', h7.trans h7', h8.trans h8'⟩, hset⟩

/-! ## Loading -/

/-- `seapp_context_reload_internal` accepts the lines and leaves this table: the lines are read,
and some comparison sort brings the entries in this order without comparing duplicates. -/
def Reload (lines : List CString) (table : List SeappContext) : Prop :=
  ∃ entries, readLines lines = some entries ∧
    ∃ compared result, Lib.SortRun (fun a b => seappContextCmp a.1 b.1) entries.zipIdx compared
      result ∧
      (∀ a b, compared a b → seappDup a.1 b.1 = false) ∧ table = result.map Prod.fst

end SELinux.Android
