import SELinux.Checkpolicy.IoctlRanges
import SELinux.Sepol.Decision

/-! The rules that an extended-permission statement is compiled to (`define_te_avtab_ioctl` in
`policy_define.c`): one for the drivers all of whose commands are granted, and one for each
driver of which some are. -/
namespace SELinux.Checkpolicy

open List

open SELinux.Sepol

/-! ## Bits of a range -/

def xpermSetbits (x : Nat) : BitVec 32 := 1#32 <<< (x % 32) - 1

/-- The word that `avrule_xperm_setrangebits` sets in `perms[i]`. -/
def rangeWord (low high i : Nat) : BitVec 32 :=
  let h := (high + 1) % 2 ^ 16
  let first := 32 * i
  let last := 32 * (i + 1) - 1
  if low ≤ first ∧ last ≤ high then .allOnes 32
  else if low ≤ first ∧ high < last then xpermSetbits h
  else if first < low ∧ last ≤ high then .allOnes 32 - xpermSetbits low
  else if first < low ∧ high ≤ last then xpermSetbits h - xpermSetbits low
  else 0

def avruleXpermSetrangebits (low high : Nat) (perms : XpermBits) : XpermBits :=
  (range' (low / 32) (high / 32 + 1 - low / 32)).foldl
    (fun perms i => perms ||| (rangeWord low high i).setWidth 256 <<< (32 * i)) perms

theorem toNat_xpermSetbits (x : Nat) : (xpermSetbits x).toNat = 2 ^ (x % 32) - 1 := by
  have hlt : 2 ^ (x % 32) < 2 ^ 32 := Nat.pow_lt_pow_right (by decide) (Nat.mod_lt x (by decide))
  have hshift : (1#32 <<< (x % 32)).toNat = 2 ^ (x % 32) := by
    rw [BitVec.toNat_shiftLeft, Nat.shiftLeft_eq]
    simpa using hlt
  have hle : 1#32 ≤ 1#32 <<< (x % 32) := by
    rw [BitVec.le_def, hshift]
    exact Nat.one_le_two_pow
  exact (BitVec.toNat_sub_of_le hle).trans (congrArg (· - 1) hshift)

theorem getLsbD_xpermSetbits (x j : Nat) : (xpermSetbits x).getLsbD j = decide (j < x % 32) := by
  simp [BitVec.getLsbD, toNat_xpermSetbits]

/-- The bits from one place in a word up to another. -/
theorem getLsbD_xpermSetbits_sub {x y : Nat} (h : y % 32 ≤ x % 32) (j : Nat) :
    (xpermSetbits x - xpermSetbits y).getLsbD j = decide (y % 32 ≤ j ∧ j < x % 32) := by
  have hpow : 2 ^ (y % 32) ≤ 2 ^ (x % 32) := Nat.pow_le_pow_right (by decide) h
  have hle : xpermSetbits y ≤ xpermSetbits x := by
    rw [BitVec.le_def, toNat_xpermSetbits, toNat_xpermSetbits]
    omega
  have hsub : 2 ^ (x % 32) - 1 - (2 ^ (y % 32) - 1) =
      2 ^ (y % 32) * (2 ^ (x % 32 - y % 32) - 1) := by
    rw [Nat.mul_sub_one, ← Nat.pow_add, Nat.add_sub_cancel' h]
    have := Nat.one_le_two_pow (n := y % 32)
    omega
  rw [BitVec.getLsbD, BitVec.toNat_sub_of_le hle, toNat_xpermSetbits, toNat_xpermSetbits, hsub,
    Nat.testBit_two_pow_mul, Nat.testBit_two_pow_sub_one, ← Bool.decide_and]
  exact decide_eq_decide.mpr (by omega)

theorem getLsbD_rangeWord {low high i j : Nat} (hle : low ≤ high) (hhigh : high < 256)
    (hlow : low / 32 ≤ i) (hi : i ≤ high / 32) (hj : j < 32) :
    (rangeWord low high i).getLsbD j = decide (low ≤ 32 * i + j ∧ 32 * i + j ≤ high) := by
  have hh : (high + 1) % 2 ^ 16 = high + 1 := Nat.mod_eq_of_lt (by omega)
  unfold rangeWord
  simp only [hh]
  split_ifs with h1 h2 h3 h4
  · rw [BitVec.getLsbD_allOnes]
    exact decide_eq_decide.mpr (by omega)
  · rw [getLsbD_xpermSetbits]
    exact decide_eq_decide.mpr (by omega)
  · rw [BitVec.allOnes_sub_eq_not, BitVec.getLsbD_not, getLsbD_xpermSetbits, ← decide_not,
      ← Bool.decide_and]
    exact decide_eq_decide.mpr (by omega)
  · rw [getLsbD_xpermSetbits_sub (by omega)]
    exact decide_eq_decide.mpr (by omega)
  · omega

theorem getLsbD_setrangebits {low high b} (hle : low ≤ high) (hhigh : high < 256) (hb : b < 256)
    (perms : XpermBits) : (avruleXpermSetrangebits low high perms).getLsbD b = true ↔
      perms.getLsbD b = true ∨ low ≤ b ∧ b ≤ high := by
  have hstep : ∀ i ∈ range' (low / 32) (high / 32 + 1 - low / 32), ∀ perms : XpermBits,
      (perms ||| (rangeWord low high i).setWidth 256 <<< (32 * i)).getLsbD b = true ↔
        perms.getLsbD b = true ∨ 32 * i ≤ b ∧ b < 32 * i + 32 ∧
          (rangeWord low high i).getLsbD (b - 32 * i) = true := by
    intro i _ perms
    rw [BitVec.getLsbD_or, BitVec.getLsbD_shiftLeft, BitVec.getLsbD_setWidth]
    simp only [Bool.or_eq_true, Bool.and_eq_true, decide_eq_true_eq, Bool.not_eq_true',
      decide_eq_false_iff_not]
    refine or_congr_right ⟨fun ⟨⟨_, h1⟩, _, h2⟩ => ?_, fun ⟨h1, h2, h3⟩ => ?_⟩
    · have := BitVec.lt_of_getLsbD h2
      exact ⟨by omega, by omega, h2⟩
    · exact ⟨⟨hb, by omega⟩, by omega, h3⟩
  rw [avruleXpermSetrangebits,
    Lib.foldl_iff_exists (P := fun perms : XpermBits => perms.getLsbD b = true) hstep]
  refine or_congr_right ⟨?_, fun h => ⟨b / 32, ?_, by omega, by omega, ?_⟩⟩
  · rintro ⟨i, hi, h1, h2, hword⟩
    rw [mem_range'_1] at hi
    rw [getLsbD_rangeWord hle hhigh (by omega) (by omega) (by omega), decide_eq_true_eq] at hword
    omega
  · rw [mem_range'_1]
    omega
  · rw [getLsbD_rangeWord hle hhigh (by omega) (by omega) (by omega), decide_eq_true_eq]
    omega

/-! ## Drivers and functions of a command -/

def iocDriv (cmd : Nat) : Nat := cmd / 256

def iocFunc (cmd : Nat) : Nat := cmd % 256

def iocCmd (driver func : Nat) : Nat := driver * 256 + func

def xpermSet (x : Nat) (perms : XpermBits) : XpermBits := perms ||| 1#256 <<< x

/-- `avrule_ioctl_completedriver`: a range has all commands of a driver if it begins and ends with
the driver, or beyond. -/
def avruleIoctlCompletedriver (rangelist : List IoctlRange) : Option ExtendedPerms :=
  let perms := rangelist.foldl (fun perms r =>
    let high := iocDriv (r.high.toNat + 1)
    let low := if iocFunc r.low.toNat ≠ 0 then iocDriv r.low.toNat + 1 else iocDriv r.low.toNat
    if low < high then avruleXpermSetrangebits low (high - 1) perms else perms) 0
  if perms ≠ 0 then some { specified := xpermsIoctldriver, driver := 0, perms } else none

/-- `avrule_ioctl_partialdriver`: the drivers at the ends of a range that are not complete. -/
def avruleIoctlPartialdriver (rangelist : List IoctlRange) (completeDriver : Option ExtendedPerms) :
    Option XpermBits :=
  let set (x : Nat) (perms : XpermBits) : XpermBits :=
    if completeDriver.any fun c => c.perms.getLsbD x then perms else xpermSet x perms
  let perms :=
    rangelist.foldl (fun perms r => set (iocDriv r.high.toNat) (set (iocDriv r.low.toNat) perms)) 0
  if perms ≠ 0 then some perms else none

/-- The part of a range that is of a driver at one of its ends, as functions. -/
def clipRange (driver : Nat) (r : IoctlRange) : Nat × Nat :=
  let low := r.low.toNat
  let high := r.high.toNat
  if driver = iocDriv low then
    (iocFunc low, iocFunc (if iocCmd driver 0xff < high then iocCmd driver 0xff else high))
  else (iocFunc (if low < iocCmd driver 0 then iocCmd driver 0 else low), iocFunc high)

def avruleIoctlFunc (rangelist : List IoctlRange) (driver : Nat) : Option ExtendedPerms :=
  let perms := rangelist.foldl (fun perms r =>
    if driver ≠ iocDriv r.low.toNat ∧ driver ≠ iocDriv r.high.toNat then perms
    else avruleXpermSetrangebits (clipRange driver r).1 (clipRange driver r).2 perms) 0
  if perms ≠ 0 then some { specified := xpermsIoctlfunction, driver := .ofNat 8 driver, perms }
    else none

def avruleIoctlRanges (omitted : Bool) (ranges : List IoctlRange) : Option (List IoctlRange) :=
  if ranges = [] then none
  else
    let merged := avruleMergeIoctls (avruleSortIoctls ranges)
    some (if omitted then avruleOmitIoctls merged else merged)

/-- The rules for ranges that have been organised. `xperms_for_each_bit` visits the drivers in
order, and clears each. -/
def ioctlRules (template : Avrule) (rangelist : List IoctlRange) : List Avrule :=
  let completeDriver := avruleIoctlCompletedriver rangelist
  let partialDriver := avruleIoctlPartialdriver rangelist completeDriver
  let drivers := (range 256).filter fun i => partialDriver.any fun p => p.getLsbD i
  let xperms := completeDriver.toList ++ drivers.filterMap (avruleIoctlFunc rangelist)
  xperms.map fun x => { template with xperms := x }

/-- `define_te_avtab_ioctl`: the rules it appends. -/
def defineTeAvtabIoctl (template : Avrule) (omitted : Bool) (ranges : List IoctlRange) :
    Option (List Avrule) :=
  (avruleIoctlRanges omitted ranges).map (ioctlRules template)

/-! ## What the passes find -/

variable {x : ExtendedPerms} {perms : XpermBits}

section Passes

variable {rangelist : List IoctlRange} {d : Nat}

/-- Extended permissions that are not used have no bit. -/
theorem exists_used {α : Type} {x : α} (bits : α → XpermBits) (hx : bits x = perms) (d : Nat) :
    (∃ c, (if perms ≠ 0 then some x else none) = some c ∧ (bits c).getLsbD d = true) ↔
      perms.getLsbD d = true := by
  constructor
  · simp [hx]
  · intro hbit
    have hused : perms ≠ 0 := by
      rintro rfl
      simp at hbit
    exact ⟨x, if_pos hused, by rwa [hx]⟩

theorem getLsbD_foldl {f : XpermBits → IoctlRange → XpermBits} {Q : IoctlRange → Prop}
    (hstep : ∀ r ∈ rangelist, ∀ perms, (f perms r).getLsbD d = true ↔ perms.getLsbD d = true ∨
      Q r) : (rangelist.foldl f 0).getLsbD d = true ↔ ∃ r ∈ rangelist, Q r := by
  rw [Lib.foldl_iff_exists (P := fun perms : XpermBits => perms.getLsbD d = true) hstep]
  simp

theorem getLsbD_xpermSet {x b : Nat} (hb : b < 256) :
    (xpermSet x perms).getLsbD b = true ↔ perms.getLsbD b = true ∨ b = x := by
  rw [xpermSet, BitVec.getLsbD_or, Bool.or_eq_true, BitVec.getLsbD_shiftLeft, BitVec.getLsbD_one]
  simp only [Bool.and_eq_true, decide_eq_true_eq, Bool.not_eq_true', decide_eq_false_iff_not]
  refine or_congr_right ?_
  omega

theorem completedriver_iff (hd : d < 256) :
    (∃ c, avruleIoctlCompletedriver rangelist = some c ∧ c.perms.getLsbD d = true) ↔
      ∃ r ∈ rangelist, r.low.toNat ≤ 256 * d ∧ 256 * d + 255 ≤ r.high.toNat := by
  refine (exists_used ExtendedPerms.perms ?_ d).trans (getLsbD_foldl fun r _ perms => ?_)
  · rfl
  have hmax := r.high.isLt
  have hlow : (if iocFunc r.low.toNat ≠ 0 then iocDriv r.low.toNat + 1 else iocDriv r.low.toNat) ≤
      d ↔
      r.low.toNat ≤ 256 * d := by
    unfold iocFunc iocDriv
    split_ifs <;> omega
  have hhigh : d < iocDriv (r.high.toNat + 1) ↔ 256 * d + 255 ≤ r.high.toNat := by
    unfold iocDriv
    omega
  have hle : iocDriv (r.high.toNat + 1) ≤ 256 := by
    unfold iocDriv
    omega
  dsimp only
  generalize (if iocFunc r.low.toNat ≠ 0 then iocDriv r.low.toNat + 1 else iocDriv r.low.toNat) =
    low at hlow
  generalize iocDriv (r.high.toNat + 1) = high at hhigh hle
  split_ifs with hlt
  · rw [getLsbD_setrangebits (by omega) (by omega) hd]
    exact or_congr_right (by omega)
  · rw [← hlow, ← hhigh]
    exact (or_iff_left (by omega)).symm

theorem partialdriver_iff (hd : d < 256) {completeDriver : Option ExtendedPerms} :
    (∃ p, avruleIoctlPartialdriver rangelist completeDriver = some p ∧ p.getLsbD d = true) ↔
      (¬∃ c, completeDriver = some c ∧ c.perms.getLsbD d = true) ∧
        ∃ r ∈ rangelist, d = iocDriv r.low.toNat ∨ d = iocDriv r.high.toNat := by
  have hany : (completeDriver.any fun c => c.perms.getLsbD d) = true ↔
      ∃ c, completeDriver = some c ∧ c.perms.getLsbD d = true := by
    cases completeDriver <;> simp
  have hset : ∀ x perms, (if completeDriver.any fun c => c.perms.getLsbD x then perms
      else xpermSet x perms).getLsbD d = true ↔
        perms.getLsbD d = true ∨ (¬∃ c, completeDriver = some c ∧ c.perms.getLsbD d = true) ∧
          d = x := by
    intro x perms
    by_cases hx : d = x
    · subst hx
      rw [← hany]
      split_ifs with hc
      · simp [hc]
      · simp [hc, getLsbD_xpermSet hd]
    · split_ifs
      · simp [hx]
      · rw [getLsbD_xpermSet hd]
        simp [hx]
  have hbits := @getLsbD_foldl rangelist d _
    (fun r => (¬∃ c, completeDriver = some c ∧ c.perms.getLsbD d = true) ∧
      (d = iocDriv r.low.toNat ∨ d = iocDriv r.high.toNat))
    fun r _ perms => (hset (iocDriv r.high.toNat) _).trans (by rw [hset, or_assoc, ← and_or_left])
  refine (exists_used id ?_ d).trans (hbits.trans ?_)
  · rfl
  · constructor
    · rintro ⟨r, hr, hc, hends⟩
      exact ⟨hc, r, hr, hends⟩
    · rintro ⟨hc, r, hr, hends⟩
      exact ⟨r, hr, hc, hends⟩

/-- The functions of a driver at the ends of the ranges. -/
theorem func_iff (hasc : Ascending rangelist) {f : Nat} (hf : f < 256) :
    (∃ c, avruleIoctlFunc rangelist d = some c ∧ c.perms.getLsbD f = true) ↔
      ∃ r ∈ rangelist, (d = iocDriv r.low.toNat ∨ d = iocDriv r.high.toNat) ∧
        r.low.toNat ≤ 256 * d + f ∧ 256 * d + f ≤ r.high.toNat := by
  refine (exists_used ExtendedPerms.perms ?_ f).trans (getLsbD_foldl fun r hr perms => ?_)
  · rfl
  have hle : r.low.toNat ≤ r.high.toNat := hasc r hr
  split_ifs with hother
  · simp [hother]
  · have hclip : (clipRange d r).1 ≤ (clipRange d r).2 ∧ (clipRange d r).2 < 256 ∧
        ((clipRange d r).1 ≤ f ∧ f ≤ (clipRange d r).2 ↔
          r.low.toNat ≤ 256 * d + f ∧ 256 * d + f ≤ r.high.toNat) := by
      rw [not_and_or, not_not, not_not] at hother
      unfold clipRange iocFunc iocCmd iocDriv at *
      dsimp only
      split_ifs <;> dsimp only <;> omega
    rw [getLsbD_setrangebits hclip.1 hclip.2.1 hf, hclip.2.2]
    exact or_congr_right (and_iff_right (by rwa [not_and_or, not_not, not_not] at hother)).symm

end Passes

/-! ## What the rules grant -/

/-- The command of a function of a driver. -/
def ioctlCmd (driver func : BitVec 8) : BitVec 16 := .ofNat 16 (iocCmd driver.toNat func.toNat)

theorem toNat_ioctlCmd (driver func : BitVec 8) :
    (ioctlCmd driver func).toNat = 256 * driver.toNat + func.toNat := by
  have hdriver := driver.isLt
  have hfunc := func.isLt
  rw [ioctlCmd, BitVec.toNat_ofNat, iocCmd, Nat.mod_eq_of_lt (by omega), Nat.mul_comm]

section Rules

variable {template : Avrule} {rangelist : List IoctlRange}

theorem mem_ioctlRules {rule} :
    rule ∈ ioctlRules template rangelist ↔ ∃ x, { template with xperms := x } = rule ∧
      (avruleIoctlCompletedriver rangelist = some x ∨
        ∃ d < 256, (∃ p, avruleIoctlPartialdriver rangelist (avruleIoctlCompletedriver rangelist) =
          some p ∧
          p.getLsbD d = true) ∧ avruleIoctlFunc rangelist d = some x) := by
  have hany : ∀ (p : Option XpermBits) (d : Nat),
      (p.any fun p => p.getLsbD d) = true ↔ ∃ q, p = some q ∧ q.getLsbD d = true := by
    intro p d
    cases p <;> simp
  simp only [ioctlRules, mem_map, mem_append, Option.mem_toList, mem_filterMap,
    mem_filter, mem_range, hany, and_assoc, and_comm (a := _ ∨ _)]

theorem avruleIoctlCompletedriver_specified
    (h : avruleIoctlCompletedriver rangelist = some x) : x.specified = xpermsIoctldriver := by
  rw [avruleIoctlCompletedriver] at h
  split_ifs at h
  rw [← Option.some.inj h]

theorem avruleIoctlFunc_specified {d : Nat} (h : avruleIoctlFunc rangelist d = some x) :
    x.specified = xpermsIoctlfunction ∧ x.driver = .ofNat 8 d := by
  rw [avruleIoctlFunc] at h
  split_ifs at h
  simp [← Option.some.inj h]

/-- The rules grant the commands of the ranges. -/
theorem ioctlRules_grants (hasc : Ascending rangelist) (driver func : BitVec 8) :
    (∃ rule ∈ ioctlRules template rangelist, rule.xperms.grants driver func = true) ↔
      Listed rangelist (ioctlCmd driver func) := by
  have hdriver := driver.isLt
  have hfunc := func.isLt
  have hrules : (∃ rule ∈ ioctlRules template rangelist, rule.xperms.grants driver func = true) ↔
      (∃ c, avruleIoctlCompletedriver rangelist = some c ∧ c.perms.getLsbD driver.toNat = true) ∨
      ((∃ p, avruleIoctlPartialdriver rangelist (avruleIoctlCompletedriver rangelist) = some p ∧
          p.getLsbD driver.toNat = true) ∧
        ∃ c, avruleIoctlFunc rangelist driver.toNat = some c ∧
          c.perms.getLsbD func.toNat = true) := by
    constructor
    · rintro ⟨rule, hrule, hgrants⟩
      obtain ⟨x, rfl, hcomplete | ⟨d, hd, hdriverPart, hx⟩⟩ := mem_ioctlRules.mp hrule
      · rw [ExtendedPerms.grants_driver (avruleIoctlCompletedriver_specified hcomplete)] at hgrants
        exact .inl ⟨x, hcomplete, hgrants⟩
      · obtain ⟨hspecified, hof⟩ := avruleIoctlFunc_specified hx
        rw [ExtendedPerms.grants_function hspecified, Bool.and_eq_true, beq_iff_eq, hof] at hgrants
        have hd' : driver.toNat = d := by
          rw [← hgrants.1, BitVec.toNat_ofNat, Nat.mod_eq_of_lt hd]
        rw [hd']
        exact .inr ⟨hdriverPart, x, hx, hgrants.2⟩
    · rintro (⟨x, hx, hbit⟩ | ⟨hdriverPart, x, hx, hbit⟩)
      · refine ⟨_, mem_ioctlRules.mpr ⟨x, rfl, .inl hx⟩, ?_⟩
        rw [ExtendedPerms.grants_driver (avruleIoctlCompletedriver_specified hx)]
        exact hbit
      · refine ⟨_, mem_ioctlRules.mpr ⟨x, rfl, .inr ⟨_, hdriver, hdriverPart, hx⟩⟩, ?_⟩
        obtain ⟨hspecified, hof⟩ := avruleIoctlFunc_specified hx
        rw [ExtendedPerms.grants_function hspecified, hof, BitVec.ofNat_toNat, BitVec.setWidth_eq,
          beq_self_eq_true,
          Bool.true_and]
        exact hbit
  rw [hrules, partialdriver_iff hdriver, completedriver_iff hdriver, func_iff hasc hfunc]
  have hmem : ∀ r : IoctlRange, ioctlCmd driver func ∈ r ↔
      r.low.toNat ≤ 256 * driver.toNat + func.toNat ∧
        256 * driver.toNat + func.toNat ≤ r.high.toNat := by
    intro r
    rw [IoctlRange.mem_iff, toNat_ioctlCmd]
  constructor
  · rintro (⟨r, hr, hlow, hhigh⟩ | ⟨-, r, hr, -, hcmd⟩)
    · exact ⟨r, hr, (hmem r).mpr (by omega)⟩
    · exact ⟨r, hr, (hmem r).mpr hcmd⟩
  · rintro ⟨r, hr, hcmd⟩
    rw [hmem] at hcmd
    by_cases hcomplete : ∃ r ∈ rangelist,
        r.low.toNat ≤ 256 * driver.toNat ∧ 256 * driver.toNat + 255 ≤ r.high.toNat
    · exact .inl hcomplete
    -- A range that has a command of a driver and has no end there has all of the driver.
    · have hends : driver.toNat = iocDriv r.low.toNat ∨ driver.toNat = iocDriv r.high.toNat := by
        by_contra hno
        refine hcomplete ⟨r, hr, ?_⟩
        unfold iocDriv at hno
        omega
      exact .inr ⟨⟨hcomplete, r, hr, hends⟩, r, hr, hends, hcmd⟩

/-- Function rules are of different drivers. -/
theorem ioctlRules_pairwise : (ioctlRules template rangelist).Pairwise fun a b =>
    a.xperms.specified = xpermsIoctlfunction → b.xperms.specified = xpermsIoctlfunction →
      a.xperms.driver ≠ b.xperms.driver := by
  rw [ioctlRules, pairwise_map]
  refine pairwise_append.mpr ⟨?_, ?_, ?_⟩
  · simp
  · refine pairwise_filterMap.mpr (List.Pairwise.imp_of_mem ?_ (nodup_range.filter _))
    intro d e hd he hne x hx y hy _ _ heq
    rw [(avruleIoctlFunc_specified hx).2, (avruleIoctlFunc_specified hy).2] at heq
    have hd' := mem_range.mp (mem_filter.mp hd).1
    have he' := mem_range.mp (mem_filter.mp he).1
    have := congrArg BitVec.toNat heq
    rw [BitVec.toNat_ofNat, BitVec.toNat_ofNat, Nat.mod_eq_of_lt hd', Nat.mod_eq_of_lt he'] at this
    exact hne this
  · intro x hx y _ hfunction
    rw [avruleIoctlCompletedriver_specified (Option.mem_toList.mp hx)] at hfunction
    exact absurd hfunction (by decide)

/-- The driver of a function rule is not complete. -/
theorem ioctlRules_apart {a b : Avrule} (ha : a ∈ ioctlRules template rangelist)
    (hb : b ∈ ioctlRules template rangelist) (hdriver : a.xperms.specified = xpermsIoctldriver)
    (hfunction : b.xperms.specified = xpermsIoctlfunction) :
      xpermTest b.xperms.driver a.xperms.perms = false := by
  obtain ⟨x, rfl, hx | ⟨d, -, -, hx⟩⟩ := mem_ioctlRules.mp ha
  · obtain ⟨y, rfl, hy | ⟨d, hd, hdriverPart, hy⟩⟩ := mem_ioctlRules.mp hb
    · rw [avruleIoctlCompletedriver_specified hy] at hfunction
      exact absurd hfunction (by decide)
    · have hno := ((partialdriver_iff hd).mp hdriverPart).1
      rw [xpermTest, (avruleIoctlFunc_specified hy).2, BitVec.toNat_ofNat, Nat.mod_eq_of_lt hd]
      simpa [hx] using hno
  · rw [(avruleIoctlFunc_specified hx).1] at hdriver
    exact absurd hdriver (by decide)

end Rules

/-- The rules of a statement without `~`. There are none for a statement without ranges, which the
grammar does not have. -/
theorem defineTeAvtabIoctl_exact (template : Avrule) {ranges : List IoctlRange}
    (hasc : Ascending ranges) : let rules := (defineTeAvtabIoctl template false ranges).getD []
    (∀ driver func : BitVec 8, (∃ rule ∈ rules, rule.xperms.grants driver func = true) ↔
      Listed ranges (ioctlCmd driver func)) ∧
    (rules.Pairwise fun a b => a.xperms.specified = xpermsIoctlfunction →
      b.xperms.specified = xpermsIoctlfunction → a.xperms.driver ≠ b.xperms.driver) ∧
    ∀ a ∈ rules, ∀ b ∈ rules, a.xperms.specified = xpermsIoctldriver →
      b.xperms.specified = xpermsIoctlfunction →
        xpermTest b.xperms.driver a.xperms.perms = false := by
  intro rules
  by_cases hne : ranges = []
  · simp [rules, defineTeAvtabIoctl, avruleIoctlRanges, hne, Listed]
  · have hrules : rules = ioctlRules template (avruleMergeIoctls (avruleSortIoctls ranges)) := by
      simp [rules, defineTeAvtabIoctl, avruleIoctlRanges, hne]
    obtain ⟨hm, hlisted⟩ := mergeSort_spec hasc
    rw [hrules]
    refine ⟨fun driver func => ?_, ioctlRules_pairwise, fun a ha b hb => ioctlRules_apart ha hb⟩
    rw [ioctlRules_grants hm.ascending, hlisted]

theorem defineTeAvtabIoctl_exact_sample :
    let ranges : List IoctlRange := [⟨0x12f0, 0x1403⟩, ⟨0x0000, 0x00ff⟩]
    let rules := (defineTeAvtabIoctl { specified := avruleXpermsAllowed } false ranges).getD []
    Ascending ranges ∧ ∀ driver func : BitVec 8,
      (∃ rule ∈ rules, rule.xperms.grants driver func = true) ↔
        Listed ranges (ioctlCmd driver func) := by
  have hasc : Ascending [⟨0x12f0, 0x1403⟩, ⟨0x0000, 0x00ff⟩] := by
    intro r hr
    rcases mem_pair.mp hr with rfl | rfl <;> decide
  exact ⟨hasc, (defineTeAvtabIoctl_exact _ hasc).1⟩

/-! ## Omitted ranges -/

/-- `avrule_omit_ioctls` and the rules for `~` have the commands that are not listed if, and only
if, the last command is not listed and some command below a listed one is not. -/
theorem avruleOmitIoctls_iff (template : Avrule) {ranges : List IoctlRange}
    (hasc : Ascending ranges) (hne : ranges ≠ []) :
    let omitted := avruleOmitIoctls (avruleMergeIoctls (avruleSortIoctls ranges))
    (Ascending omitted ∧ (∀ cmd, Listed omitted cmd ↔ ¬Listed ranges cmd) ∧
      ∀ driver func : BitVec 8,
        (∃ rule ∈ (defineTeAvtabIoctl template true ranges).getD [],
          rule.xperms.grants driver func = true) ↔
          ¬Listed ranges (ioctlCmd driver func)) ↔
    ¬Listed ranges 0xffff ∧ ∃ a b, a < b ∧ ¬Listed ranges a ∧ Listed ranges b := by
  intro omitted
  obtain ⟨hm, hlisted⟩ := mergeSort_spec hasc
  have hmerged : avruleMergeIoctls (avruleSortIoctls ranges) ≠ [] := by
    obtain ⟨r, next, rfl⟩ := exists_cons_of_ne_nil hne
    obtain ⟨a, ha, -⟩ :=
      (hlisted r.low).mpr ⟨r, mem_cons_self, BitVec.le_refl _, hasc r mem_cons_self⟩
    exact ne_nil_of_mem ha
  have hrules :
      (defineTeAvtabIoctl template true ranges).getD [] = ioctlRules template omitted := by
    simp [omitted, defineTeAvtabIoctl, avruleIoctlRanges, hne]
  have hcond := not_omitFails_iff hm hmerged
  simp only [hlisted] at hcond
  rw [hrules, ← hcond]
  constructor
  · rintro ⟨homitted, hcmds, -⟩ hfails
    exact avruleOmitIoctls_wrong hm hfails ⟨homitted, fun cmd => by rw [hcmds, hlisted]⟩
  · intro hfails
    rw [OmitFails, not_or, not_exists, not_exists] at hfails
    obtain ⟨homitted, hcmds⟩ := avruleOmitIoctls_spec hm
      (fun r hr => Nat.lt_of_le_of_ne (Nat.le_of_lt_succ r.high.isLt) fun h =>
        hfails.1 r ⟨hr, BitVec.eq_of_toNat_eq h⟩)
      (fun r hr hzero => hfails.2 r ⟨hr, hzero⟩) hmerged
    have hall : ∀ cmd, Listed omitted cmd ↔ ¬Listed ranges cmd := fun cmd => by rw [hcmds, hlisted]
    exact ⟨homitted.ascending, hall, fun driver func => by
      rw [ioctlRules_grants homitted.ascending, hall]⟩

theorem avruleOmitIoctls_iff_sample :
    let ranges : List IoctlRange := [⟨0x3000, 0x3fff⟩, ⟨0x1000, 0x1fff⟩]
    Ascending ranges ∧ ranges ≠ [] ∧
      ∀ cmd, Listed (avruleOmitIoctls (avruleMergeIoctls (avruleSortIoctls ranges))) cmd ↔
        ¬Listed ranges cmd := by
  have hasc : Ascending [⟨0x3000, 0x3fff⟩, ⟨0x1000, 0x1fff⟩] := by
    unfold Ascending
    decide
  refine ⟨hasc, cons_ne_nil _ _,
    ((avruleOmitIoctls_iff { specified := avruleXpermsAllowed } hasc
    (cons_ne_nil _ _)).mpr ⟨?_, 0, 0x1000, by decide, ?_, ?_⟩).2.1⟩
  · simp [Listed, IoctlRange.mem_iff]
  · simp [Listed, IoctlRange.mem_iff]
  · simp [Listed, IoctlRange.mem_iff]

/-- `~0x1000-0xffff`: the end of the range is the last command, so the range after it begins with
the first, and the rules grant every command. `~0x0000-0x00ff`: what follows the only range is not
given an end. -/
theorem avruleOmitIoctls_ends :
    avruleOmitIoctls (avruleMergeIoctls (avruleSortIoctls [⟨0x1000, 0xffff⟩])) =
      [⟨0, 0x0fff⟩, ⟨0, 0xffff⟩] ∧ Listed [⟨0, 0x0fff⟩, ⟨0, 0xffff⟩] 0x1000 ∧
    avruleOmitIoctls (avruleMergeIoctls (avruleSortIoctls [⟨0, 0x00ff⟩])) = [⟨0x0100, 0⟩] := by
  refine ⟨by decide, ⟨_, mem_cons_of_mem _ (mem_singleton_self _), ?_⟩, by decide⟩
  rw [IoctlRange.mem_iff]
  decide

end SELinux.Checkpolicy
