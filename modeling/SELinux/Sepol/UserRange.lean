import SELinux.Sepol.Context

/-! The range that a user gets when a session starts from another context (`mls_setup_user_range` in
`mls.c`): the level is the user's default if the old context allows it, and the clearance is the
lower one of the two. -/
namespace SELinux.Sepol

/-! ## The order of levels -/

def mlsLevelBetween (l1 l2 l3 : MlsLevel) : Bool := mlsLevelDom l1 l2 && mlsLevelDom l3 l1

@[simp] theorem mlsLevelDom_refl (l : MlsLevel) : mlsLevelDom l l = true :=
  mlsLevelDom_iff.mpr ⟨Nat.le_refl _, fun _ hc => hc⟩

theorem mlsLevelDom_trans {l1 l2 l3} (h1 : mlsLevelDom l1 l2 = true)
    (h2 : mlsLevelDom l2 l3 = true) : mlsLevelDom l1 l3 = true := by
  rw [mlsLevelDom_iff] at *
  exact ⟨Nat.le_trans h2.1 h1.1, fun c hc => h1.2 c (h2.2 c hc)⟩

theorem mlsLevelBetween_iff {l1 l2 l3} :
    mlsLevelBetween l1 l2 l3 = true ↔ mlsLevelDom l1 l2 = true ∧ mlsLevelDom l3 l1 = true := by
  rw [mlsLevelBetween, Bool.and_eq_true]

/-! ## Model -/

/-- `usercon_sen`: the first of the three levels that fits. -/
def userSensitivity (fromcon : Context) (user : UserDatum) : Option MlsLevel :=
  if mlsLevelBetween user.expDfltlevel fromcon.range.low fromcon.range.high then
    some user.expDfltlevel
  else if mlsLevelBetween fromcon.range.low user.expDfltlevel user.expRange.high then
    some fromcon.range.low
  else if mlsLevelBetween fromcon.range.high user.expRange.low user.expDfltlevel then
    some user.expRange.low
  else none

/-- `usercon_clr`: the lower one of the clearances, if they can be compared. -/
def userClearance (fromcon : Context) (user : UserDatum) : Option MlsLevel :=
  if mlsLevelDom user.expRange.high fromcon.range.high then some fromcon.range.high
  else if mlsLevelDom fromcon.range.high user.expRange.high then some user.expRange.high
  else none

/-- `mls_setup_user_range`: the return value and `usercon`, of which the level is set even if there
is no clearance. -/
def mlsSetupUserRange (fromcon : Context) (user : UserDatum) (usercon : Context) (mls : Bool) :
    Int × Context :=
  if mls then
    match userSensitivity fromcon user with
    | none => (einval, usercon)
    | some low =>
      let usercon := { usercon with range := { usercon.range with low := low } }
      match userClearance fromcon user with
      | none => (einval, usercon)
      | some high => (0, { usercon with range := { usercon.range with high := high } })
  else (0, usercon)

/-! ## The bounds -/

theorem mlsSetupUserRange_eq_zero {fromcon user usercon usercon'}
    (h : mlsSetupUserRange fromcon user usercon true = (0, usercon')) :
    ∃ low high, userSensitivity fromcon user = some low ∧ userClearance fromcon user = some high ∧
      usercon' = { usercon with range := { low := low, high := high } } := by
  unfold mlsSetupUserRange at h
  cases hlow : userSensitivity fromcon user with
  | none => simp [hlow, einval] at h
  | some low =>
    cases hhigh : userClearance fromcon user with
    | none => simp [hlow, hhigh, einval] at h
    | some high => simp_all

section Bounds

variable {fromcon : Context} {user : UserDatum}

theorem userClearance_le {high} (h : userClearance fromcon user = some high) :
    mlsLevelDom user.expRange.high high = true ∧ mlsLevelDom fromcon.range.high high = true := by
  unfold userClearance at h
  split_ifs at h with h1 h2
  · cases h
    exact ⟨h1, mlsLevelDom_refl _⟩
  · cases h
    exact ⟨mlsLevelDom_refl _, h2⟩

/-- The clearance is the greatest level under both. -/
theorem userClearance_dom {high l} (h : userClearance fromcon user = some high)
    (hfrom : mlsLevelDom fromcon.range.high l = true)
    (huser : mlsLevelDom user.expRange.high l = true) : mlsLevelDom high l = true := by
  unfold userClearance at h
  split_ifs at h with h1 h2
  · cases h
    exact hfrom
  · cases h
    exact huser

theorem userSensitivity_bounds (hfromcon : mlsLevelDom fromcon.range.high fromcon.range.low = true)
    (hclr : mlsLevelDom user.expRange.high user.expDfltlevel = true)
    (hdef : mlsLevelDom user.expDfltlevel user.expRange.low = true) {low}
    (h : userSensitivity fromcon user = some low) :
    mlsLevelDom low user.expRange.low = true ∧ mlsLevelDom fromcon.range.high low = true ∧
      mlsLevelDom user.expRange.high low = true := by
  unfold userSensitivity at h
  simp only [mlsLevelBetween_iff] at h
  split_ifs at h with h1 h2 h3
  · -- the default level
    cases h
    exact ⟨hdef, h1.2, hclr⟩
  · -- the level of the old context, above the default
    cases h
    exact ⟨mlsLevelDom_trans h2.1 hdef, hfromcon, h2.2⟩
  · -- the old context is cleared for less than the default
    cases h
    exact ⟨mlsLevelDom_refl _, h3.1, mlsLevelDom_trans hclr hdef⟩

end Bounds

/-- The new range lies within the user's and does not go beyond the old context. Without multi-level
security no range is set up. -/
theorem mlsSetupUserRange_bounds (fromcon : Context) (user : UserDatum) (usercon usercon' : Context)
    (mls : Bool) (hfromcon : mlsLevelDom fromcon.range.high fromcon.range.low = true)
    (hclr : mlsLevelDom user.expRange.high user.expDfltlevel = true)
    (hdef : mlsLevelDom user.expDfltlevel user.expRange.low = true)
    (h : mlsSetupUserRange fromcon user usercon mls = (0, usercon')) : if mls then
      mlsLevelDom usercon'.range.high usercon'.range.low = true ∧
        mlsLevelDom usercon'.range.low user.expRange.low = true ∧
        mlsLevelDom user.expRange.high usercon'.range.high = true ∧
        mlsLevelDom fromcon.range.high usercon'.range.high = true else usercon' = usercon := by
  cases mls with
  | false => exact (Prod.mk.inj h).2.symm
  | true =>
    obtain ⟨low, high, hlow, hhigh, rfl⟩ := mlsSetupUserRange_eq_zero h
    obtain ⟨hbound, hfrom, huser⟩ := userSensitivity_bounds hfromcon hclr hdef hlow
    obtain ⟨hhuser, hhfrom⟩ := userClearance_le hhigh
    exact ⟨userClearance_dom hhigh hfrom huser, hbound, hhuser, hhfrom⟩

/-- A user with `s1` to `s3` and the default `s2`, who comes from a context that is cleared for `s1`
only: the session is at `s1`. -/
theorem mlsSetupUserRange_bounds_lowered :
    mlsSetupUserRange { range := { low := { sens := 0 }, high := { sens := 1 } } }
        { expRange := { low := { sens := 1 }, high := { sens := 3 } },
          expDfltlevel := { sens := 2 } } {} true =
      (0, { range := { low := { sens := 1 }, high := { sens := 1 } } }) ∧
    mlsLevelDom { sens := 3 } { sens := 1 } = true :=
  have h : mlsSetupUserRange { range := { low := { sens := 0 }, high := { sens := 1 } } }
      { expRange := { low := { sens := 1 }, high := { sens := 3 } }, expDfltlevel := { sens := 2 } }
        {} true =
    (0, { range := { low := { sens := 1 }, high := { sens := 1 } } }) := by decide
  ⟨h, (mlsSetupUserRange_bounds _ _ _ _ true (by decide) (by decide) (by decide) h).2.2.1⟩

end SELinux.Sepol
