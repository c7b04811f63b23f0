import Mathlib.Data.List.Sort

/-! The command ranges of an extended-permission rule (`policy_define.c`): they are sorted,
merged, and turned into their complement where the rule is written with `~`. Allocation is
assumed to succeed. -/
namespace SELinux.Checkpolicy

open List Nat
open BitVec (le_of_lt le_trans le_def lt_def eq_of_toNat_eq)

/-- `av_ioctl_range_t`. -/
structure IoctlRange where
  low : BitVec 16
  high : BitVec 16
  deriving DecidableEq

instance : Membership (BitVec 16) IoctlRange := ⟨fun r cmd => r.low ≤ cmd ∧ cmd ≤ r.high⟩

variable {r : IoctlRange}

theorem IoctlRange.mem_iff {cmd : BitVec 16} :
    cmd ∈ r ↔ r.low.toNat ≤ cmd.toNat ∧ cmd.toNat ≤ r.high.toNat := Iff.rfl

section

variable (l : List IoctlRange)

/-- The command is in one of the ranges. -/
def Listed (cmd : BitVec 16) : Prop := ∃ r ∈ l, cmd ∈ r

theorem listed_cons {r l cmd} : Listed (r :: l) cmd ↔ cmd ∈ r ∨ Listed l cmd := by
  simp [Listed]

/-! ## Sorting -/

/-- The inner loop of `avrule_sort_ioctls`, with the nodes it has passed. -/
def sortInsert (sorted : IoctlRange) : List IoctlRange → List IoctlRange → List IoctlRange
  | before, [] => before
  | before, r2 :: next =>
    -- the new head, whatever has been passed
    if sorted.low < r2.low then sorted :: r2 :: next
    else match next with
      | [] => before ++ [r2, sorted]
      | r3 :: rest =>
        if sorted.low < r3.low then before ++ r2 :: sorted :: r3 :: rest
        else sortInsert sorted (before ++ [r2]) (r3 :: rest)

def avruleSortIoctls : List IoctlRange :=
  l.foldl (fun sortedhead r => if sortedhead = [] then [r] else sortInsert r [] sortedhead) []

/-- A range is only made the new head at the head, so the loop inserts it in its place. -/
theorem sortInsert_eq {sorted : IoctlRange} {before l : List IoctlRange} (hl : l ≠ [])
    (hhead : before = [] ∨ ∀ r ∈ l.head?, ¬sorted.low < r.low) :
    sortInsert sorted before l = before ++ l.orderedInsert (fun a b => a.low < b.low) sorted := by
  induction l generalizing before with
  | nil => exact absurd rfl hl
  | cons r2 next ih =>
    unfold sortInsert
    rw [orderedInsert_cons]
    by_cases h2 : sorted.low < r2.low
    · have hbefore : before = [] := hhead.resolve_right fun h => h r2 rfl h2
      simp [if_pos h2, hbefore]
    · rw [if_neg h2, if_neg h2]
      cases next with
      | nil => rfl
      | cons r3 rest =>
        by_cases h3 : sorted.low < r3.low
        · simp [if_pos h3]
        · simp [if_neg h3, ih (cons_ne_nil _ _) (.inr (by simpa using h3))]

def ByLow : Prop := l.Pairwise fun a b => a.low ≤ b.low

theorem byLow_orderedInsert {r} {l : List IoctlRange} (h : ByLow l) :
    ByLow (l.orderedInsert (fun a b => a.low < b.low) r) := by
  induction l with
  | nil => exact pairwise_singleton ..
  | cons a l ih =>
    obtain ⟨ha, hl⟩ := pairwise_cons.mp h
    rw [orderedInsert_cons]
    split_ifs with hlt
    · refine pairwise_cons.mpr ⟨fun b hb => ?_, h⟩
      rcases mem_cons.mp hb with rfl | hb
      · exact le_of_lt hlt
      · exact le_trans (le_of_lt hlt) (ha b hb)
    · refine pairwise_cons.mpr ⟨fun b hb => ?_, ih hl⟩
      rcases mem_cons.mp ((perm_orderedInsert _ r l).subset hb) with rfl | hb
      · exact BitVec.not_lt.mp hlt
      · exact ha b hb

theorem avruleSortIoctls_spec : ByLow (avruleSortIoctls l) ∧ (avruleSortIoctls l).Perm l := by
  have hloop : ∀ (l sortedhead : List IoctlRange), ByLow sortedhead →
      ByLow (l.foldl (fun sortedhead r => if sortedhead = [] then
        [r] else sortInsert r [] sortedhead) sortedhead) ∧
      (l.foldl (fun sortedhead r => if sortedhead = [] then [r] else sortInsert r [] sortedhead)
        sortedhead).Perm
        (sortedhead ++ l) := by
    intro l
    induction l with
    | nil => simp
    | cons r l ih =>
      intro sortedhead h
      have hstep : (if sortedhead = [] then [r] else sortInsert r [] sortedhead) =
          sortedhead.orderedInsert (fun a b => a.low < b.low) r := by
        split_ifs with hnil
        · rw [hnil]
          rfl
        · rw [sortInsert_eq hnil (.inl rfl), nil_append]
      obtain ⟨horder, hperm⟩ := ih _ (byLow_orderedInsert h)
      rw [foldl_cons, hstep]
      refine ⟨horder, hperm.trans ?_⟩
      exact ((perm_orderedInsert _ r sortedhead).append_right l).trans perm_middle.symm
  exact hloop l [] .nil

/-! ## Merging -/

/-- The loop of `avrule_merge_ioctls` from the node `r` on. -/
def mergeFrom (r : IoctlRange) : List IoctlRange → List IoctlRange
  | [] => [r]
  | next :: rest =>
    if next.low.toNat ≤ r.high.toNat + 1 then
      -- keep the higher of the two
      mergeFrom (if r.high < next.high then { r with high := next.high } else r) rest
    else r :: mergeFrom next rest

def avruleMergeIoctls : List IoctlRange → List IoctlRange
  | [] => []
  | r :: rest => mergeFrom r rest

def Ascending : Prop := ∀ r ∈ l, r.low ≤ r.high

/-- Ranges in order with a gap between any two of them. -/
structure Merged : Prop where
  ascending : Ascending l
  apart : l.Pairwise fun a b => a.high.toNat + 1 < b.low.toNat

/-- Two ranges that overlap or touch, as one. -/
theorem mem_merge {r next : IoctlRange} (hlow : r.low ≤ next.low)
    (htouch : next.low.toNat ≤ r.high.toNat + 1) {cmd} :
    cmd ∈ (if r.high < next.high then { r with high := next.high } else r) ↔ cmd ∈ r ∨
      cmd ∈ next := by
  rw [le_def] at hlow
  split_ifs with hhigh
  · rw [lt_def] at hhigh
    simp only [IoctlRange.mem_iff]
    omega
  · rw [lt_def] at hhigh
    simp only [IoctlRange.mem_iff]
    omega

theorem mergeFrom_spec {l} (hasc : Ascending (r :: l)) (horder : ByLow (r :: l)) :
    Merged (mergeFrom r l) ∧ (∀ a ∈ mergeFrom r l, r.low ≤ a.low) ∧
      ∀ cmd, Listed (mergeFrom r l) cmd ↔ Listed (r :: l) cmd := by
  induction l generalizing r with
  | nil =>
    refine ⟨⟨hasc, pairwise_singleton ..⟩, fun a ha => ?_, fun cmd => Iff.rfl⟩
    simp [mem_singleton.mp ha]
  | cons next rest ih =>
    obtain ⟨hr, hasc⟩ := forall_mem_cons.mp hasc
    obtain ⟨hlow, horder⟩ := pairwise_cons.mp horder
    rw [mergeFrom]
    by_cases htouch : next.low.toNat ≤ r.high.toNat + 1
    · rw [if_pos htouch]
      have hmem := fun cmd => @mem_merge r next (hlow next mem_cons_self) htouch cmd
      have hsame : (if r.high < next.high then { r with high := next.high } else r).low =
          r.low := by
        split_ifs <;> rfl
      generalize (if r.high < next.high then { r with high := next.high } else r) =
        merged at hmem hsame
      have hstart : r.low ∈ merged := (hmem r.low).mpr (.inl ⟨BitVec.le_refl _, hr⟩)
      have hmerged : merged.low ≤ merged.high := le_trans hstart.1 hstart.2
      obtain ⟨hout, hfirst, hlisted⟩ := ih
        (forall_mem_cons.mpr ⟨hmerged, (forall_mem_cons.mp hasc).2⟩)
        (pairwise_cons.mpr ⟨fun a ha => hsame ▸ hlow a (mem_cons_of_mem _ ha), horder.of_cons⟩)
      refine ⟨hout, hsame ▸ hfirst, fun cmd => ?_⟩
      rw [hlisted cmd, listed_cons, listed_cons, listed_cons, hmem cmd, or_assoc]
    · rw [if_neg htouch]
      obtain ⟨hout, hfirst, hlisted⟩ := ih hasc horder
      refine ⟨⟨forall_mem_cons.mpr ⟨hr, hout.ascending⟩,
        pairwise_cons.mpr ⟨fun a ha => ?_, hout.apart⟩⟩,
        forall_mem_cons.mpr ⟨BitVec.le_refl _, fun a ha => ?_⟩, fun cmd => ?_⟩
      · exact Nat.lt_of_lt_of_le (Nat.lt_of_not_le htouch) (hfirst a ha)
      · exact le_trans (hlow next mem_cons_self) (hfirst a ha)
      · rw [listed_cons, hlisted cmd, ← listed_cons]

/-- Sorting and merging keep the commands. -/
theorem mergeSort_spec {l} (hasc : Ascending l) : Merged (avruleMergeIoctls (avruleSortIoctls l)) ∧
      ∀ cmd, Listed (avruleMergeIoctls (avruleSortIoctls l)) cmd ↔ Listed l cmd := by
  obtain ⟨horder, hperm⟩ := avruleSortIoctls_spec l
  have hlisted : ∀ cmd, Listed (avruleSortIoctls l) cmd ↔ Listed l cmd := fun cmd =>
    exists_congr fun r => and_congr_left fun _ => hperm.mem_iff
  have hsorted : Ascending (avruleSortIoctls l) := fun r hr => hasc r (hperm.subset hr)
  cases hl : avruleSortIoctls l with
  | nil =>
    rw [hl] at hlisted
    exact ⟨⟨fun r hr => absurd hr not_mem_nil, .nil⟩, hlisted⟩
  | cons r rest =>
    rw [hl] at hsorted horder hlisted
    obtain ⟨hout, -, hmerge⟩ := mergeFrom_spec hsorted horder
    exact ⟨hout, fun cmd => (hmerge cmd).trans (hlisted cmd)⟩

/-! ## Omitted ranges -/

/-- The loop of `avrule_omit_ioctls` from the node `r2` on, whose ends are given. -/
def omitLoop (low high : BitVec 16) : List IoctlRange → List IoctlRange
  | [] => [⟨low, high⟩]
  | r :: next => ⟨low, r.low - 1⟩ :: omitLoop (r.high + 1) (if next = [] then 0xffff else 0) next

/-- `avrule_omit_ioctls`. A new node has the ends `0`, from `calloc`. -/
def avruleOmitIoctls : List IoctlRange → List IoctlRange
  | [] => []
  | r :: next => if r.low = 0 then omitLoop (r.high + 1) 0 next else omitLoop 0 0 (r :: next)

/-- Only the last range can go up to the last command. -/
theorem Merged.high_ne {next} (hm : Merged (r :: next)) (hnext : next ≠ []) : r.high ≠ 0xffff := by
  obtain ⟨b, rest, rfl⟩ := exists_cons_of_ne_nil hnext
  intro hr
  have hb : (0xffff : BitVec 16).toNat + 1 < b.low.toNat :=
    hr ▸ (pairwise_cons.mp hm.apart).1 b mem_cons_self
  exact absurd b.low.isLt (not_lt.mpr (le_of_lt hb))

theorem Merged.tail {r next} (hm : Merged (r :: next)) : Merged next :=
  ⟨fun x hx => hm.ascending x (mem_cons_of_mem _ hx), hm.apart.of_cons⟩

theorem toNat_add_one {b : BitVec 16} (h : b < 0xffff) : (b + 1).toNat = b.toNat + 1 := by
  have hlt : b.toNat < 65535 := h
  have hone : (1 : BitVec 16).toNat = 1 := rfl
  rw [BitVec.toNat_add, hone]
  exact mod_eq_of_lt (by omega)

theorem toNat_sub_one {a b : BitVec 16} (h : a < b) : (b - 1).toNat = b.toNat - 1 := by
  have hlt : a.toNat < b.toNat := h
  exact BitVec.toNat_sub_of_le (show (1 : BitVec 16).toNat ≤ b.toNat by exact one_le_of_lt hlt)

/-- From `low` on the loop lists the commands that are in none of the ranges, if the last range
leaves some above it. -/
theorem omitLoop_spec {low high l} (hm : Merged l) (hlow : ∀ r ∈ l, low < r.low)
    (hhigh : ∀ r ∈ l, r.high < 0xffff) (hlast : l = [] → high = 0xffff) :
    Merged (omitLoop low high l) ∧ (∀ a ∈ omitLoop low high l, low ≤ a.low) ∧
      ∀ cmd, Listed (omitLoop low high l) cmd ↔ low ≤ cmd ∧ ¬Listed l cmd := by
  induction l generalizing low high with
  | nil =>
    have hmax : ∀ cmd : BitVec 16, cmd ≤ 0xffff := fun cmd => le_of_lt_succ cmd.isLt
    rw [hlast rfl, omitLoop]
    refine ⟨⟨forall_mem_singleton.mpr (hmax low), pairwise_singleton ..⟩,
      forall_mem_singleton.mpr (BitVec.le_refl _), fun cmd => ?_⟩
    simp only [Listed, mem_singleton, exists_eq_left, not_mem_nil, false_and, exists_false,
      not_false_eq_true, and_true]
    exact and_iff_left (hmax cmd)
  | cons r next ih =>
    have hasc := hm.ascending r mem_cons_self
    have hgap := (pairwise_cons.mp hm.apart).1
    obtain ⟨hrlow, -⟩ := forall_mem_cons.mp hlow
    obtain ⟨hrhigh, hhighs⟩ := forall_mem_cons.mp hhigh
    have hup := toNat_add_one hrhigh
    have hdown := toNat_sub_one hrlow
    obtain ⟨hout, hfirst, hlisted⟩ := @ih (r.high + 1) (if next = [] then 0xffff else 0) hm.tail
      (fun a ha => by rw [lt_def, hup]; exact hgap a ha) hhighs (fun h => if_pos h)
    simp only [le_def, lt_def] at hasc hrlow hfirst hlisted ⊢
    rw [omitLoop]
    refine ⟨⟨forall_mem_cons.mpr ⟨?_, hout.ascending⟩,
      pairwise_cons.mpr ⟨fun a ha => ?_, hout.apart⟩⟩,
      forall_mem_cons.mpr ⟨le_refl _, fun a ha => ?_⟩, fun cmd => ?_⟩
    · have : low.toNat ≤ r.low.toNat - 1 := by omega
      rwa [← hdown] at this
    · have := hfirst a ha
      dsimp only
      omega
    · have := hfirst a ha
      omega
    · have hnext : Listed next cmd → r.high.toNat + 1 < cmd.toNat := fun ⟨a, ha, hcmd⟩ =>
        lt_of_lt_of_le (hgap a ha) hcmd.1
      rw [listed_cons, listed_cons, hlisted cmd, IoctlRange.mem_iff, IoctlRange.mem_iff, hdown, hup,
        not_or]
      by_cases hl : Listed next cmd
      · have := hnext hl
        simp only [hl, not_true_eq_false, and_false, or_false, iff_false]
        omega
      · simp only [hl, not_false_eq_true, and_true]
        omega

theorem omitLoop_wrap {low high l} (hm : Merged l) (hlast : ∃ r ∈ l, r.high = 0xffff) :
    ⟨0, 0xffff⟩ ∈ omitLoop low high l := by
  induction l generalizing low high with
  | nil => simp at hlast
  | cons r next ih =>
    obtain ⟨a, ha, hmax⟩ := hlast
    refine mem_cons_of_mem _ ?_
    by_cases hnext : next = []
    · rw [hnext, mem_singleton] at ha
      rw [hnext, ← ha, hmax]
      exact mem_singleton_self _
    · rcases mem_cons.mp ha with rfl | ha
      · exact absurd hmax (hm.high_ne hnext)
      · exact ih hm.tail ⟨a, ha, hmax⟩

/-- The complement is listed unless the ranges go up to the last command, or are one range from
the first command on. -/
theorem avruleOmitIoctls_spec {l} (hm : Merged l) (hhigh : ∀ r ∈ l, r.high < 0xffff)
    (hone : ∀ r, l = [r] → r.low ≠ 0) (hne : l ≠ []) :
    Merged (avruleOmitIoctls l) ∧ ∀ cmd, Listed (avruleOmitIoctls l) cmd ↔ ¬Listed l cmd := by
  obtain ⟨r, next, rfl⟩ := exists_cons_of_ne_nil hne
  have hgap := (pairwise_cons.mp hm.apart).1
  obtain ⟨hrhigh, hhighs⟩ := forall_mem_cons.mp hhigh
  rw [avruleOmitIoctls]
  split_ifs with hzero
  · have hup := toNat_add_one hrhigh
    obtain ⟨hout, -, hlisted⟩ := @omitLoop_spec (r.high + 1) 0 next hm.tail
      (fun a ha => by rw [lt_def, hup]; exact hgap a ha) hhighs
        (fun h => absurd hzero (hone r (by rw [h])))
    refine ⟨hout, fun cmd => ?_⟩
    have hlow : r.low.toNat = 0 := by rw [hzero]; rfl
    rw [hlisted cmd, listed_cons, not_or, IoctlRange.mem_iff, le_def, hup, hlow]
    exact and_congr_left fun _ => by omega
  · have hpos : 0 < r.low.toNat := Nat.pos_of_ne_zero fun h => hzero (eq_of_toNat_eq h)
    have hlow : ∀ a ∈ r :: next, (0 : BitVec 16) < a.low := by
      refine forall_mem_cons.mpr ⟨hpos, fun a ha => ?_⟩
      exact lt_of_le_of_lt (zero_le _) (hgap a ha)
    obtain ⟨hout, -, hlisted⟩ := @omitLoop_spec 0 0 _ hm hlow hhigh (fun h => absurd h hne)
    exact ⟨hout, fun cmd => (hlisted cmd).trans (and_iff_right (zero_le _))⟩

/-- The ranges go up to the last command, or are one range from the first command on. -/
def OmitFails : Prop := (∃ r ∈ l, r.high = 0xffff) ∨ ∃ r, l = [r] ∧ r.low = 0

end

theorem avruleOmitIoctls_wrong {l} (hm : Merged l) (hfails : OmitFails l) :
    ¬(Ascending (avruleOmitIoctls l) ∧ ∀ cmd, Listed (avruleOmitIoctls l) cmd ↔ ¬Listed l cmd) := by
  rintro ⟨hasc, hlisted⟩
  have hsingle : ∀ r, l = [r] → r.low ≠ 0 := by
    rintro r rfl hzero
    rw [avruleOmitIoctls, if_pos hzero, omitLoop] at hasc hlisted
    have hfirst :=
      (hlisted 0).mp ⟨_, mem_singleton_self _, hasc _ (mem_singleton_self _), BitVec.le_refl _⟩
    exact hfirst ⟨r, mem_singleton_self _, by rw [hzero]; exact BitVec.le_refl _, zero_le _⟩
  rcases hfails with hlast | ⟨r, hl, hzero⟩
  · have hne : l ≠ [] := by
      rintro rfl
      obtain ⟨r, hr, -⟩ := hlast
      cases hr
    obtain ⟨r, next, rfl⟩ := exists_cons_of_ne_nil hne
    have hmem : ⟨0, 0xffff⟩ ∈ avruleOmitIoctls (r :: next) := by
      rw [avruleOmitIoctls]
      split_ifs with hzero
      · have hnext : next ≠ [] := fun h => hsingle r (by rw [h]) hzero
        obtain ⟨a, ha, hmax⟩ := hlast
        rcases mem_cons.mp ha with rfl | ha
        · exact absurd hmax (hm.high_ne hnext)
        · exact omitLoop_wrap hm.tail ⟨a, ha, hmax⟩
      · exact omitLoop_wrap hm hlast
    have hlow : r.low ∈ r := ⟨BitVec.le_refl _, hm.ascending r mem_cons_self⟩
    exact (hlisted r.low).mp ⟨_, hmem, zero_le _, le_of_lt_succ r.low.isLt⟩
      ⟨r, mem_cons_self, hlow⟩
  · exact hsingle r hl hzero

/-- The same, by the commands that are listed. -/
theorem not_omitFails_iff {l} (hm : Merged l) (hne : l ≠ []) :
    ¬OmitFails l ↔ ¬Listed l 0xffff ∧ ∃ a b, a < b ∧ ¬Listed l a ∧ Listed l b := by
  obtain ⟨r, next, rfl⟩ := exists_cons_of_ne_nil hne
  have hfirst : Listed (r :: next) r.low :=
    ⟨r, mem_cons_self, BitVec.le_refl _, hm.ascending r mem_cons_self⟩
  have hgap := (pairwise_cons.mp hm.apart).1
  have hlast : Listed (r :: next) 0xffff ↔ ∃ a ∈ r :: next, a.high = 0xffff := by
    refine exists_congr fun a => and_congr_right fun _ => ⟨fun h => ?_, fun h => ?_⟩
    · exact eq_of_toNat_eq (le_antisymm (le_of_lt_succ a.high.isLt) h.2)
    · exact ⟨le_of_lt_succ a.low.isLt, by rw [h]; exact BitVec.le_refl _⟩
  rw [OmitFails, not_or, hlast]
  refine and_congr_right fun hhigh => ⟨fun hsingle => ?_, ?_⟩
  · by_cases hzero : r.low = 0
    · have hnext : next ≠ [] := fun h => hsingle ⟨r, by rw [h], hzero⟩
      obtain ⟨b, rest, rfl⟩ := exists_cons_of_ne_nil hnext
      have hup := toNat_add_one (lt_of_le_of_ne (le_of_lt_succ r.high.isLt) fun h =>
        hhigh ⟨r, mem_cons_self, eq_of_toNat_eq h⟩)
      have hmem : b ∈ b :: rest := mem_cons_self
      refine ⟨r.high + 1, b.low, ?_, ?_, b, mem_cons_of_mem _ hmem, BitVec.le_refl _,
        hm.ascending b (mem_cons_of_mem _ hmem)⟩
      · rw [lt_def, hup]
        exact hgap b hmem
      · rintro ⟨a, ha, hcmd⟩
        rw [IoctlRange.mem_iff, hup] at hcmd
        rcases mem_cons.mp ha with rfl | ha
        · exact absurd hcmd.2 (not_succ_le_self _)
        · exact absurd hcmd.1 (not_le.mpr (hgap a ha))
    · have hpos : 0 < r.low.toNat := Nat.pos_of_ne_zero fun h => hzero (eq_of_toNat_eq h)
      refine ⟨0, r.low, hpos, ?_, hfirst⟩
      rintro ⟨a, ha, hcmd⟩
      rcases mem_cons.mp ha with rfl | ha
      · exact absurd hcmd.1 (not_le.mpr hpos)
      · exact absurd hcmd.1 (not_le.mpr (lt_of_le_of_lt (zero_le _) (hgap a ha)))
  · rintro ⟨a, b, hab, hna, x, hx, hb⟩ ⟨r', hl, hzero⟩
    rw [hl, mem_singleton] at hx
    subst hx
    refine hna (hl ▸ ⟨x, mem_singleton_self x, ?_, le_trans (le_of_lt hab) hb.2⟩)
    rw [hzero]
    exact zero_le _

end SELinux.Checkpolicy
