import Mathlib.Data.List.TakeWhile

/-!
# Commits to the policy store

The sandbox of a transaction becomes the active directory of the store, and its files are installed
(`semanage_store.c`). Each operation on the file system may fail; a run says what came of each. A
rename across file systems is replaced by a copy and a removal, which may stop anywhere. -/

namespace SELinux.Semanage

/-! ## The file system -/

/-- A directory of the store: the commit number file, and the content of the other files. -/
structure StoreDir (P C : Type) where
  commitNum : Option (BitVec 32)
  files : P → Option C

/-- The files of `enum semanage_final_path_defs`, without the top level directory. -/
inductive FinalPath where
  | fc
  | fcBin
  | fcHomedirs
  | fcHomedirsBin
  | fcLocal
  | fcLocalBin
  | kernel
  | nc
  | seusers
  deriving DecidableEq

def finalPaths : List FinalPath :=
  [.fc, .fcBin, .fcHomedirs, .fcHomedirsBin, .fcLocal, .fcLocalBin, .kernel, .nc, .seusers]

/-- The directories of the store, and the files under the final directories. -/
structure StoreFs (P C F : Type) where
  active : Option (StoreDir P C)
  backup : Option (StoreDir P C)
  sandbox : Option (StoreDir P C)
  finalTmp : FinalPath → Option F
  installed : FinalPath → Option F

/-- What a commit reads of the handle and its configuration. -/
structure Conf where
  savePrevious : Bool := false
  disableGenhomedircon : Bool := false
  doReload : Bool := true
  /-- The installed path is short enough. -/
  fits : FinalPath → Bool := fun _ => true
  /-- `strcmp(really_active_store, storepath) == 0`. -/
  samePath : Bool := true

/-! ## What came of the operations -/

inductive StatResult where
  | ok
  | enoent
  | failed

inductive BackupStat where
  | dir
  | notDir
  | enoent
  | failed

/-- The operations of `semanage_install_final_tmp`. -/
structure InstallRun where
  statSrc : FinalPath → Bool := fun _ => true
  mkpath : FinalPath → Bool := fun _ => true
  copy : FinalPath → Bool := fun _ => true
  statActive : StatResult := .ok
  statStore : Bool := true
  sameStore : Bool := true
  reload : Bool := true

/-- Where `semanage_remove_directory` stops. -/
inductive RemoveError where
  | scandir
  | stat
  | remove
  | rmdir

def RemoveError.retval : RemoveError → Int
  | .scandir => -1
  | .stat => -2
  | .remove => -3
  | .rmdir => -4

/-- What came of a removal, and what it has left if it stopped. -/
inductive RemoveRun (P C : Type) where
  | removed
  | stopped (error : RemoveError) (left : StoreDir P C)

/-- What came of `semanage_rename`: of `rename`, and if that failed with `EXDEV`, of copying the
source and removing it. A copy that fails may leave anything at the destination. -/
inductive RenameRun (P C : Type) where
  | renamed
  | failed
  | copyFailed (left : Option (StoreDir P C))
  | copied (removal : RemoveRun P C)

/-- The operations of `semanage_commit_sandbox`. -/
structure CommitRun (P C : Type) where
  serial : BitVec 32
  openCommit : Bool := true
  writeCommit : Bool := true
  openSandbox : Bool := true
  syncfs : Bool := true
  lock : Bool := true
  statBackup : BackupStat := .enoent
  removeBackup : RemoveRun P C := .removed
  renameActive : RenameRun P C := .renamed
  renameSandbox : RenameRun P C := .renamed
  restoreActive : RenameRun P C := .renamed
  install : InstallRun := {}
  undoActive : RenameRun P C := .renamed
  undoBackup : RenameRun P C := .renamed
  reinstall : InstallRun := {}
  removePrevious : RemoveRun P C := .removed

variable {P C F : Type}

/-! ## Installation -/

section Install

variable (conf : Conf) (run : InstallRun)

/-- The file is left out. -/
def skips (finalTmp : FinalPath → Option F) (i : FinalPath) : Bool :=
  !(run.statSrc i && (finalTmp i).isSome) || (conf.disableGenhomedircon && i == .fcHomedirs)

/-- One file of `semanage_install_final_tmp`, if nothing fails. -/
def installFile (fs : StoreFs P C F) (i : FinalPath) : Option (StoreFs P C F) :=
  if skips conf run fs.finalTmp i then some fs
  else if !conf.fits i then none
  else if !run.mkpath i then none
  else if !run.copy i then none
  else some { fs with installed := Function.update fs.installed i (fs.finalTmp i) }

def installFiles : List FinalPath → StoreFs P C F → StoreFs P C F × Bool
  | [], fs => (fs, true)
  | i :: next, fs =>
    match installFile conf run fs i with
    | none => (fs, false)
    | some fs' => installFiles next fs'

/-- The policy is reloaded if the active store is the one that was installed to. -/
def reloadOk : Bool :=
  if !conf.doReload then true
  else
    match run.statActive with
    | .ok => run.statStore && (!run.sameStore || run.reload)
    | .enoent => !conf.samePath || run.reload
    | .failed => run.reload

/-- `semanage_install_final_tmp`. -/
def installFinalTmp (fs : StoreFs P C F) : StoreFs P C F × Bool :=
  let r := installFiles conf run finalPaths fs
  (r.1, r.2 && reloadOk conf run)

end Install

/-! ## The commit -/

/-- `semanage_remove_directory`: what is left of the directory, and the return value. -/
def semanageRemoveDirectory : RemoveRun P C → Option (StoreDir P C) × Int
  | .removed => (none, 0)
  | .stopped error left => (some left, error.retval)

/-- `semanage_copy_dir_flags` that comes to its end: the files of the source stand over those that
are at the destination already. -/
def StoreDir.over (src : StoreDir P C) : Option (StoreDir P C) → StoreDir P C
  | none => src
  | some dst => ⟨src.commitNum.or dst.commitNum, fun p => (src.files p).or (dst.files p)⟩

/-- `semanage_rename`: the source and the destination after it, and the return value. Without a
source `rename` fails. -/
def semanageRename (run : RenameRun P C) (src dst : Option (StoreDir P C)) :
    Option (StoreDir P C) × Option (StoreDir P C) × Int :=
  match src with
  | none => (none, dst, -1)
  | some d =>
    match run with
    | .renamed => (none, some d, 0)
    | .failed => (some d, dst, -1)
    | .copyFailed left => (some d, left, -1)
    | .copied removal =>
      ((semanageRemoveDirectory removal).1, some (d.over dst), (semanageRemoveDirectory removal).2)

/-- What a commit leaves and returns, and whether the renames that were to undo others succeeded. -/
structure CommitResult (P C F : Type) where
  fs : StoreFs P C F
  retval : Int
  undone : Bool := true

section

variable (conf : Conf) (run : CommitRun P C) (fs : StoreFs P C F)

/-- The sandbox with a commit number. -/
def StoreFs.numbered (n : Option (BitVec 32)) : Option (StoreDir P C) :=
  fs.sandbox.map fun d => { d with commitNum := n }

/-- The commit number is written to the sandbox, and the sandbox synced. -/
def writeCommitNumber : StoreFs P C F × Bool :=
  if !run.openCommit then (fs, false)
  else if !run.writeCommit then ({ fs with sandbox := fs.numbered none }, false)
  else ({ fs with sandbox := fs.numbered (some (run.serial + 1)) }, run.openSandbox && run.syncfs)

/-- The previous backup is removed. If there is no directory at its path, there is no backup. -/
def clearBackup : StoreFs P C F × Bool :=
  match run.statBackup with
  | .dir =>
    let r := semanageRemoveDirectory run.removeBackup
    ({ fs with backup := r.1 }, decide (r.2 = 0))
  | .notDir => ({ fs with backup := none }, true)
  | .enoent => ({ fs with backup := none }, true)
  | .failed => (fs, false)

/-- After a failed installation. -/
def rollBack : CommitResult P C F :=
  let r := semanageRename run.undoActive fs.active fs.sandbox
  let fs := { fs with active := r.1, sandbox := r.2.1 }
  if r.2.2 < 0 then ⟨fs, -1, false⟩
  else
    let r := semanageRename run.undoBackup fs.backup fs.active
    let fs := { fs with backup := r.1, active := r.2.1 }
    if r.2.2 < 0 then ⟨fs, -1, false⟩ else ⟨(installFinalTmp conf run.reinstall fs).1, -1, true⟩

/-- The sandbox is the active directory. -/
def installCommitted : CommitResult P C F :=
  let r := installFinalTmp conf run.install fs
  if !r.2 then rollBack conf run r.1
  else if !conf.savePrevious then
    let d := semanageRemoveDirectory run.removePrevious
    ⟨{ r.1 with backup := d.1 }, if d.2 ≠ 0 then -1 else (run.serial + 1).toInt, true⟩
  else ⟨r.1, (run.serial + 1).toInt, true⟩

/-- The renames that make the sandbox the active directory. They are compared with -1, so that a
source that was copied but not removed for another reason does not stop the commit. -/
def switchActive : CommitResult P C F :=
  let r := semanageRename run.renameActive fs.active fs.backup
  let fs := { fs with active := r.1, backup := r.2.1 }
  if r.2.2 = -1 then ⟨fs, -1, true⟩
  else
    let r := semanageRename run.renameSandbox fs.sandbox fs.active
    let fs := { fs with sandbox := r.1, active := r.2.1 }
    if r.2.2 = -1 then
      let r := semanageRename run.restoreActive fs.backup fs.active
      ⟨{ fs with backup := r.1, active := r.2.1 }, -1, decide (0 ≤ r.2.2)⟩
    else installCommitted conf run fs

/-- `semanage_commit_sandbox`. -/
def commitSandbox : CommitResult P C F :=
  if run.serial.toInt < 0 then ⟨fs, -1, true⟩
  else
    let w := writeCommitNumber run fs
    if !w.2 then ⟨w.1, -1, true⟩
    else if !run.lock then ⟨w.1, -1, true⟩
    else
      let c := clearBackup run w.1
      if !c.2 then ⟨c.1, -1, true⟩ else switchActive conf run c.1

end

/-! ## What an installation changes -/

section Install

variable {conf : Conf} {run : InstallRun} {fs : StoreFs P C F}

/-- Nothing fails for the file. -/
def passes (conf : Conf) (run : InstallRun) (finalTmp : FinalPath → Option F) (i : FinalPath) :
    Bool :=
  skips conf run finalTmp i || (conf.fits i && run.mkpath i && run.copy i)

/-- The file is copied: it is not left out, and nothing fails for it or for an earlier one. -/
def Copied (conf : Conf) (run : InstallRun) (finalTmp : FinalPath → Option F) (i : FinalPath) :
    Prop :=
  i ∈ finalPaths.takeWhile (passes conf run finalTmp) ∧ skips conf run finalTmp i = false

instance (finalTmp : FinalPath → Option F) (i : FinalPath) :
    Decidable (Copied conf run finalTmp i) := inferInstanceAs (Decidable (_ ∧ _))

theorem installFile_eq (i : FinalPath) : installFile conf run fs i =
      if passes conf run fs.finalTmp i then some (if skips conf run fs.finalTmp i then fs
          else { fs with installed := Function.update fs.installed i (fs.finalTmp i) })
      else none := by
  rw [installFile, passes]
  cases skips conf run fs.finalTmp i <;> cases conf.fits i <;> cases run.mkpath i <;>
    cases run.copy i <;> rfl

/-- The files up to the first for which something fails. -/
theorem installFiles_eq {l : List FinalPath} : installFiles conf run l fs =
      ({ fs with
        installed := fun i =>
          if i ∈ l.takeWhile (passes conf run fs.finalTmp) ∧
            skips conf run fs.finalTmp i = false then fs.finalTmp i
          else fs.installed i },
        l.all (passes conf run fs.finalTmp)) := by
  induction l generalizing fs with
  | nil => simp [installFiles]
  | cons i next ih =>
    rw [installFiles, installFile_eq]
    by_cases hpass : passes conf run fs.finalTmp i = true
    · rw [if_pos hpass]
      dsimp only
      rw [ih, List.takeWhile_cons_of_pos hpass, List.all_cons, hpass, Bool.true_and]
      cases hskips : skips conf run fs.finalTmp i with
      | true =>
        have hiff (j : FinalPath) :
            (j ∈ i :: next.takeWhile (passes conf run fs.finalTmp) ∧
              skips conf run fs.finalTmp j = false) ↔
            (j ∈ next.takeWhile (passes conf run fs.finalTmp) ∧
              skips conf run fs.finalTmp j = false) := by
          by_cases hj : j = i
          · simp [hj, hskips]
          · simp [hj]
        simp only [if_true, hiff]
      | false =>
        simp only [Bool.false_eq_true, if_false]
        congr 2
        funext j
        by_cases hj : j = i
        · subst hj
          simp [hskips]
        · simp [hj]
    · simp [hpass]

theorem installFinalTmp_eq : installFinalTmp conf run fs =
      ({ fs with installed := fun i => if Copied conf run fs.finalTmp i then
        fs.finalTmp i else fs.installed i },
        finalPaths.all (passes conf run fs.finalTmp) && reloadOk conf run) := by
  rw [installFinalTmp, installFiles_eq]
  rfl

end Install

/-! ## Failed commits -/

section

variable (conf : Conf) (run : CommitRun P C) (fs : StoreFs P C F)

/-- A failed commit has changed nothing: if the renames that were to undo others succeeded, the
active directory and the installed files are those from before. -/
def Restored (r : CommitResult P C F) : Prop :=
  r.retval < 0 → r.undone = true → r.fs.active = fs.active ∧ r.fs.installed = fs.installed

/-- The operations before the renames succeed. -/
def ReachesRenames : Prop :=
  0 ≤ run.serial.toInt ∧ run.openCommit = true ∧ run.writeCommit = true ∧ run.openSandbox = true ∧
    run.syncfs = true ∧ run.lock = true ∧ (clearBackup run fs).2 = true

/-- The installation succeeds. -/
def installOk (run : InstallRun) (finalTmp : FinalPath → Option F) : Bool :=
  finalPaths.all (passes conf run finalTmp) && reloadOk conf run

/-- The directory is moved: it is renamed, or copied and removed. -/
def RenameRun.Succeeds (run : RenameRun P C) : Prop := run = .renamed ∨ run = .copied .removed

/-- The active directory becomes the backup. -/
def CommitRun.first :=
  semanageRename run.renameActive fs.active none

/-- The sandbox becomes the active directory, in the place of what is left of the old one. -/
def CommitRun.second :=
  semanageRename run.renameSandbox (fs.numbered (some (run.serial + 1))) (run.first fs).1

/-- What is asked of the files once `now` is the active directory. -/
def HarmlessInstall (now : Option (StoreDir P C)) : Prop :=
  (installOk conf run.install fs.finalTmp = false → run.undoActive.Succeeds →
    run.undoBackup.Succeeds →
    ∀ i, Copied conf run.install fs.finalTmp i ∨ Copied conf run.reinstall fs.finalTmp i →
      fs.finalTmp i = fs.installed i) ∧
  (installOk conf run.install fs.finalTmp = true →
    run.serial = 0x7fffffff ∨ (conf.savePrevious = false ∧ run.removePrevious ≠ .removed) →
    now = fs.active ∧ ∀ i, Copied conf run.install fs.finalTmp i → fs.finalTmp i = fs.installed i)

/-- A run in which nothing that is active has changed when it fails. -/
structure Harmless : Prop where
  /-- If the old directory is copied and its removal cannot read a directory, nothing is removed. -/
  backup : (run.first fs).2.2 = -1 → (run.first fs).1 = fs.active
  /-- If the backup is copied back, nothing in its way stays. -/
  restore : (run.first fs).2.2 ≠ -1 → (run.second fs).2.2 = -1 →
    run.restoreActive = .copied .removed →
    fs.active.map (·.over (run.second fs).2.1) = fs.active
  install : (run.first fs).2.2 ≠ -1 → (run.second fs).2.2 ≠ -1 →
    HarmlessInstall conf run fs (run.second fs).2.1

end

/-- The only commit number that is followed by a negative one. -/
theorem toInt_succ_neg {serial : BitVec 32} (h : 0 ≤ serial.toInt) :
    (serial + 1).toInt < 0 ↔ serial = 0x7fffffff := by
  rw [BitVec.toInt_eq_toNat_cond] at h
  rw [BitVec.toInt_eq_toNat_cond, BitVec.toNat_add, ← BitVec.toNat_inj]
  have hone : (1 : BitVec 32).toNat = 1 := rfl
  have hmax : (0x7fffffff : BitVec 32).toNat = 0x7fffffff := rfl
  split_ifs at h ⊢ <;> omega

theorem overwrite_eq_iff {p : FinalPath → Prop} [DecidablePred p] {new old : FinalPath → Option F} :
    (fun i => if p i then new i else old i) = old ↔ ∀ i, p i → new i = old i := by
  rw [funext_iff]
  exact forall_congr' fun i => ite_eq_right_iff

/-! ### Renames -/

theorem RemoveError.retval_neg (error : RemoveError) : error.retval < 0 := by
  cases error <;> decide

theorem semanageRemoveDirectory_eq_zero {removal : RemoveRun P C} :
    (semanageRemoveDirectory removal).2 = 0 ↔ removal = .removed := by
  cases removal with
  | removed => simp [semanageRemoveDirectory]
  | stopped error left => simp [semanageRemoveDirectory, Int.ne_of_lt error.retval_neg]

section Rename

variable {run : RenameRun P C} {d : StoreDir P C} {src dst : Option (StoreDir P C)}

/-- A directory is gone where it was exactly if the rename succeeds, and that is not negative. -/
theorem semanageRename_nonneg_iff : 0 ≤ (semanageRename run (some d) dst).2.2 ↔ run.Succeeds := by
  unfold semanageRename RenameRun.Succeeds
  cases run with
  | renamed => simp
  | failed => simp
  | copyFailed left => simp
  | copied removal =>
    cases removal with
    | removed => simp [semanageRemoveDirectory]
    | stopped error left => simpa [semanageRemoveDirectory] using error.retval_neg

theorem RenameRun.Succeeds.rename (h : run.Succeeds) : (semanageRename run (some d) dst).1 = none ∧
      ((semanageRename run (some d) dst).2.1 = some d ∨
        run = .copied .removed ∧ (semanageRename run (some d) dst).2.1 = some (d.over dst)) := by
  rcases h with rfl | rfl
  · exact ⟨rfl, .inl rfl⟩
  · exact ⟨rfl, .inr ⟨rfl, rfl⟩⟩

/-- What is at the destination if the commit goes on. -/
theorem semanageRename_ne_neg_one (h : (semanageRename run src dst).2.2 ≠ -1) :
    ∃ d, src = some d ∧ ((semanageRename run src dst).2.1 = some d ∨
      (semanageRename run src dst).2.1 = some (d.over dst)) := by
  cases src with
  | none => exact absurd rfl h
  | some d =>
    refine ⟨d, rfl, ?_⟩
    cases run with
    | renamed => exact .inl rfl
    | failed => exact absurd rfl h
    | copyFailed left => exact absurd rfl h
    | copied removal => exact .inr rfl

end Rename

/-! ### The stages -/

section

variable (conf : Conf) (run : CommitRun P C) (fs fs' : StoreFs P C F)

theorem rollBack_restored {a d} (hactive : fs'.active = some d) (hbackup : fs'.backup = some a) :
    Restored fs (rollBack conf run fs') ↔
      (run.undoActive.Succeeds → run.undoBackup.Succeeds → some a = fs.active ∧
        (fun i => if Copied conf run.reinstall fs'.finalTmp i then fs'.finalTmp i
          else fs'.installed i) = fs.installed) := by
  rw [rollBack, hactive]
  by_cases hundo : run.undoActive.Succeeds
  · rw [if_neg (Int.not_lt.mpr (semanageRename_nonneg_iff.mpr hundo)), hundo.rename.1, hbackup]
    by_cases hundo' : run.undoBackup.Succeeds
    · have hdst : (semanageRename run.undoBackup (some a) none).2.1 = some a := by
        rcases (@hundo'.rename _ _ _ a none).2 with h | ⟨-, h⟩ <;> exact h
      rw [if_neg (Int.not_lt.mpr (semanageRename_nonneg_iff.mpr hundo'))]
      simp [Restored, installFinalTmp_eq, hdst, hundo, hundo']
    · rw [if_pos (Int.not_le.mp fun h => hundo' (semanageRename_nonneg_iff.mp h))]
      simp [Restored, hundo']
  · rw [if_pos (Int.not_le.mp fun h => hundo (semanageRename_nonneg_iff.mp h))]
    simp [Restored, hundo]

theorem installCommitted_restored
    {a d : StoreDir P C} (ha : fs.active = some a) (hactive : fs'.active = some d)
    (hbackup : fs'.backup = some a) (htmp : fs'.finalTmp = fs.finalTmp)
    (hinst : fs'.installed = fs.installed) (hserial : 0 ≤ run.serial.toInt) :
    Restored fs (installCommitted conf run fs') ↔ HarmlessInstall conf run fs (some d) := by
  rw [installCommitted, installFinalTmp_eq, HarmlessInstall]
  have hok : (finalPaths.all (passes conf run.install fs'.finalTmp) && reloadOk conf run.install) =
      installOk conf run.install fs.finalTmp := by
    rw [installOk, htmp]
  rw [hok]
  cases hinstall : installOk conf run.install fs.finalTmp with
  | false =>
    have hfiles : (fun i => if Copied conf run.reinstall fs.finalTmp i then fs.finalTmp i
          else if Copied conf run.install fs.finalTmp i then fs.finalTmp i else fs.installed i) =
        fun i => if Copied conf run.install fs.finalTmp i ∨
          Copied conf run.reinstall fs.finalTmp i then
          fs.finalTmp i else fs.installed i := by
      funext i
      by_cases hi : Copied conf run.reinstall fs.finalTmp i
      · simp [hi]
      · simp [hi]
    have hroll := rollBack_restored conf run fs { fs' with
      installed := fun i => if Copied conf run.install fs'.finalTmp i then fs'.finalTmp i
        else fs'.installed i } hactive hbackup
    rw [htmp, hinst, hfiles, overwrite_eq_iff] at hroll
    simp [htmp, hinst, hroll, ha]
  | true =>
    have hchange : (fun i => if Copied conf run.install fs'.finalTmp i then fs'.finalTmp i
          else fs'.installed i) = fs.installed ↔
        ∀ i, Copied conf run.install fs.finalTmp i → fs.finalTmp i = fs.installed i := by
      rw [htmp, hinst, overwrite_eq_iff]
    have hneg := toInt_succ_neg hserial
    generalize (run.serial + 1).toInt = commit at hneg
    cases hprev : conf.savePrevious with
    | true => simp [Restored, hneg, hactive, hchange]
    | false =>
      by_cases hremove : run.removePrevious = .removed
      · simp [Restored, semanageRemoveDirectory_eq_zero, hremove, hneg, hactive, hchange]
      · simp [Restored, semanageRemoveDirectory_eq_zero, hremove, hactive, hchange]

theorem writeCommitNumber_eq (fs : StoreFs P C F) : (writeCommitNumber run fs).2 =
      (run.openCommit && run.writeCommit && run.openSandbox && run.syncfs) ∧
      ∃ sandbox, (writeCommitNumber run fs).1 = { fs with sandbox := sandbox } ∧
        ((writeCommitNumber run fs).2 = true → sandbox = fs.numbered (some (run.serial + 1))) := by
  rw [writeCommitNumber]
  cases run.openCommit with
  | false => exact ⟨rfl, fs.sandbox, rfl, nofun⟩
  | true =>
    cases run.writeCommit with
    | false => exact ⟨rfl, _, rfl, nofun⟩
    | true => exact ⟨rfl, _, rfl, fun _ => rfl⟩

/-- Only the backup is touched, and is gone if nothing fails; that does not depend on the rest. -/
theorem clearBackup_eq : (clearBackup run fs).2 = (clearBackup run fs').2 ∧
      ∃ backup, (clearBackup run fs).1 = { fs with backup := backup } ∧
        ((clearBackup run fs).2 = true → backup = none) := by
  rw [clearBackup, clearBackup]
  cases run.statBackup with
  | dir =>
    refine ⟨rfl, _, rfl, fun h => ?_⟩
    rw [semanageRemoveDirectory_eq_zero.mp (of_decide_eq_true h)]
    rfl
  | notDir => exact ⟨rfl, none, rfl, fun _ => rfl⟩
  | enoent => exact ⟨rfl, none, rfl, fun _ => rfl⟩
  | failed => exact ⟨rfl, fs.backup, rfl, nofun⟩

/-- From the renames on. The sandbox has its commit number, and there is no backup. -/
theorem switchActive_restored (fs : StoreFs P C F) (hserial : 0 ≤ run.serial.toInt) :
    Restored fs (switchActive conf run
      { fs with sandbox := fs.numbered (some (run.serial + 1)), backup := none }) ↔
      Harmless conf run fs := by
  rw [switchActive]
  dsimp only
  rw [← CommitRun.first, ← CommitRun.second]
  by_cases hfirst : (run.first fs).2.2 = -1
  · rw [if_pos hfirst]
    constructor
    · exact fun h => ⟨fun _ => (h (show (-1 : Int) < 0 by decide) rfl).1,
        fun hne => absurd hfirst hne, fun hne => absurd hfirst hne⟩
    · exact fun h _ _ => ⟨h.backup hfirst, rfl⟩
  rw [if_neg hfirst]
  obtain ⟨a, ha, hbackup⟩ : ∃ a, fs.active = some a ∧ (run.first fs).2.1 = some a := by
    obtain ⟨a, ha, h | h⟩ := semanageRename_ne_neg_one hfirst
    · exact ⟨a, ha, h⟩
    · exact ⟨a, ha, h⟩
  by_cases hsecond : (run.second fs).2.2 = -1
  · rw [if_pos hsecond, hbackup]
    constructor
    · refine fun h =>
        ⟨fun heq => absurd heq hfirst, fun _ _ hcopied => ?_, fun _ hne => absurd hsecond hne⟩
      have hactive := (h (show (-1 : Int) < 0 by decide) (by rw [hcopied]; rfl)).1
      rw [hcopied] at hactive
      rw [ha] at hactive ⊢
      exact hactive
    · intro h _ hundone
      have hsucceeds := semanageRename_nonneg_iff.mp (of_decide_eq_true hundone)
      refine ⟨?_, rfl⟩
      rcases hsucceeds.rename.2 with hactive | ⟨hcopied, hactive⟩
      · exact hactive.trans ha.symm
      · have hover := h.restore hfirst hsecond hcopied
        rw [ha] at hover ⊢
        exact hactive.trans hover
  · rw [if_neg hsecond]
    obtain ⟨now, hnow⟩ : ∃ now, (run.second fs).2.1 = some now := by
      obtain ⟨d, -, hd | hd⟩ := semanageRename_ne_neg_one hsecond
      · exact ⟨d, hd⟩
      · exact ⟨_, hd⟩
    refine (installCommitted_restored conf run fs { fs with
      active := (run.second fs).2.1, sandbox := (run.second fs).1, backup := (run.first fs).2.1 }
      ha hnow hbackup rfl rfl hserial).trans ?_
    rw [← hnow]
    exact ⟨fun h => ⟨fun heq => absurd heq hfirst, fun _ heq => absurd heq hsecond, fun _ _ => h⟩,
      fun h => h.install hfirst hsecond⟩

end

/-- A commit that fails leaves the active directory and the installed files alone, given that the
renames that undo others succeed, exactly if it does not get to the renames or is harmless from
there on. -/
theorem commitSandbox_restored_iff (conf : Conf) (run : CommitRun P C) (fs : StoreFs P C F) :
    Restored fs (commitSandbox conf run fs) ↔ (ReachesRenames run fs → Harmless conf run fs) := by
  have hunreached (r : CommitResult P C F)
      (hr : r.fs.active = fs.active ∧ r.fs.installed = fs.installed)
      (hnot : ¬ReachesRenames run fs) : Restored fs r ↔
        (ReachesRenames run fs → Harmless conf run fs) :=
    ⟨fun _ hreach => absurd hreach hnot, fun _ _ _ => hr⟩
  rw [commitSandbox]
  by_cases hserial : run.serial.toInt < 0
  · rw [if_pos hserial]
    exact hunreached _ ⟨rfl, rfl⟩ fun hreach => by
      have := hreach.1
      omega
  rw [if_neg hserial]
  obtain ⟨hwok, sandbox, hw, hsandbox⟩ := writeCommitNumber_eq run fs
  dsimp only
  rw [hwok] at hsandbox ⊢
  cases hwritten : run.openCommit && run.writeCommit && run.openSandbox && run.syncfs with
  | false =>
    rw [Bool.not_false, if_pos rfl, hw]
    refine hunreached _ ⟨rfl, rfl⟩ fun hreach => ?_
    obtain ⟨-, h1, h2, h3, h4, -⟩ := hreach
    rw [h1, h2, h3, h4] at hwritten
    cases hwritten
  | true =>
    rw [Bool.not_true, if_neg (by decide), hw]
    cases hlock : run.lock with
    | false =>
      refine hunreached _ ⟨rfl, rfl⟩ fun hreach => ?_
      obtain ⟨-, -, -, -, -, h, -⟩ := hreach
      rw [hlock] at h
      cases h
    | true =>
      obtain ⟨hcok, backup, hc, hbackup⟩ := clearBackup_eq run { fs with sandbox := sandbox } fs
      rw [hcok] at hbackup
      rw [Bool.not_true, if_neg (by decide), hc, hcok]
      cases hclear : (clearBackup run fs).2 with
      | false =>
        refine hunreached _ ⟨rfl, rfl⟩ fun hreach => ?_
        obtain ⟨-, -, -, -, -, -, h⟩ := hreach
        rw [hclear] at h
        cases h
      | true =>
        have hnonneg : 0 ≤ run.serial.toInt := by omega
        have hreach : ReachesRenames run fs := by
          simp only [Bool.and_eq_true] at hwritten
          obtain ⟨⟨⟨h1, h2⟩, h3⟩, h4⟩ := hwritten
          exact ⟨hnonneg, h1, h2, h3, h4, hlock, hclear⟩
        rw [hsandbox hwritten, hbackup hclear, Bool.not_true, if_neg (by decide),
          forall_prop_of_true hreach]
        exact switchActive_restored conf run fs hnonneg

/-- The second file cannot be copied: the first stays installed. -/
theorem commitSandbox_leaves_file :
    let fs : StoreFs Empty Nat Nat :=
      { active := some ⟨some 1, nofun⟩, backup := none, sandbox := some ⟨some 1, nofun⟩,
        finalTmp := fun _ => some 1, installed := fun _ => some 0 }
    let run : CommitRun Empty Nat :=
      { serial := 1, install := { copy := fun i => i == .fc },
        reinstall := { copy := fun i => i == .fc } }
    let r := commitSandbox {} run fs
    r.retval = -1 ∧ r.undone = true ∧ r.fs.active = fs.active ∧
      fs.installed .fc = some 0 ∧ r.fs.installed .fc = some 1 :=
  ⟨rfl, rfl, rfl, rfl, rfl⟩

end SELinux.Semanage
