import Mathlib.Data.List.Pairwise
import SELinux.Lib.Comparator

/-! Comparison sorts: such an algorithm learns about its elements only by comparing two of them at a
time, so that the order in which it leaves them has to follow from the comparisons it has made.
Which comparisons it can do without, and which element comes first among some, is a matter of the
ties. -/
namespace Lib

open List

variable {α β : Type*} {cmp : α → α → Int} {l result : List α} {compared : α → α → Prop}

/-- The order of two elements that follows from what was compared. -/
def Known (cmp : α → α → Int) (compared : α → α → Prop) : α → α → Prop :=
  Relation.ReflTransGen fun a b => (compared a b ∨ compared b a) ∧ cmp a b ≤ 0

/-- A run of a comparison sort on different elements. -/
structure SortRun (cmp : α → α → Int) (l : List α) (compared : α → α → Prop) (result : List α) :
    Prop where
  among : ∀ a b, compared a b → a ∈ l ∧ b ∈ l
  perm : result.Perm l
  sorted : result.Pairwise fun a b => cmp a b ≤ 0
  known : result.Pairwise (Known cmp compared)

/-! ## Comparisons that are avoided -/

/-- Elements that are not to be compared: a partial equivalence of tied elements. -/
structure Avoided (cmp : α → α → Int) (bad : α → α → Prop) : Prop where
  tie : ∀ {a b}, bad a b → cmp a b = 0
  symm : ∀ {a b}, bad a b → bad b a
  trans : ∀ {a b c}, bad a b → bad b c → bad a c

theorem Avoided.comap {bad : α → α → Prop} (h : Avoided cmp bad) (f : β → α) :
    Avoided (fun a b => cmp (f a) (f b)) fun a b => bad (f a) (f b) :=
  ⟨fun hab => h.tie hab, fun hab => h.symm hab, fun hab hbc => h.trans hab hbc⟩

/-- No tie consists of such elements only. -/
def Avoidable (cmp : α → α → Int) (bad : α → α → Prop) (l : List α) : Prop :=
  ∀ a ∈ l, ∀ b ∈ l, a ≠ b → bad a b → ∃ c ∈ l, cmp a c = 0 ∧ ¬bad a c

variable {a b : α}

section Avoid

variable {bad : α → α → Prop} (havoided : Avoided cmp bad) (horders : Orders cmp l)

include havoided horders

/-- Every order can be found then, through a third element where two are not to be compared. -/
theorem SortRun.of_avoidable (hnodup : l.Nodup) (h : Avoidable cmp bad l) (hperm : result.Perm l)
    (hsorted : result.Pairwise fun a b => cmp a b ≤ 0) :
    SortRun cmp l (fun a b => a ∈ l ∧ b ∈ l ∧ ¬bad a b) result := by
  refine ⟨fun a b hab => ⟨hab.1, hab.2.1⟩, hperm, hsorted, ?_⟩
  have hdiff : result.Pairwise (· ≠ ·) := hperm.nodup_iff.mpr hnodup
  refine (hsorted.and hdiff).imp_of_mem fun {a b} ha hb hab => ?_
  have ha := hperm.mem_iff.mp ha
  have hb := hperm.mem_iff.mp hb
  by_cases hbad : bad a b
  · obtain ⟨c, hc, htie, hac⟩ := h a ha b hb hab.2 hbad
    have hcb : ¬bad c b := fun hcb => hac (havoided.trans hbad (havoided.symm hcb))
    have hca := horders.eq_comm ha hc htie
    exact .tail (.single ⟨.inl ⟨ha, hc, hac⟩, htie.le⟩)
      ⟨.inl ⟨hc, hb, hcb⟩, (horders.eq_trans hc ha hb hca (havoided.tie hbad)).le⟩
  · exact .single ⟨.inl ⟨ha, hb, hbad⟩, hab.1⟩

omit havoided in
theorem SortRun.known_le (h : SortRun cmp l compared result) (ha : a ∈ l)
    (hab : Known cmp compared a b) : b ∈ l ∧ cmp a b ≤ 0 := by
  induction hab with
  | refl => exact ⟨ha, (horders.refl ha).le⟩
  | tail _ hbc ih =>
    have hc := hbc.1.elim (fun h' => (h.among _ _ h').2) fun h' => (h.among _ _ h').1
    exact ⟨hc, horders.trans _ ha _ ih.1 _ hc ih.2 hbc.2⟩

/-- The way from an element to one that it is not to be compared with leads over a third one. -/
theorem SortRun.exists_between (h : SortRun cmp l compared result)
    (hbad : ∀ a b, compared a b → ¬bad a b) (ha : a ∈ l) (hne : a ≠ b) (hab : bad a b)
    (hknown : Known cmp compared a b) : ∃ c ∈ l, cmp a c = 0 ∧ ¬bad a c := by
  obtain heq | ⟨c, ⟨hcompared, hac⟩, hcb⟩ := Relation.ReflTransGen.cases_head hknown
  · exact absurd heq hne
  have hc := hcompared.elim (fun h' => (h.among _ _ h').2) fun h' => (h.among _ _ h').1
  have hb := h.known_le horders ha hknown
  have hba := horders.eq_comm ha hb.1 (havoided.tie hab)
  have hca := horders.trans c hc b hb.1 a ha (h.known_le horders hc hcb).2 hba.le
  have horiented := horders.oriented a ha c hc
  refine ⟨c, hc, by omega, fun hac' => ?_⟩
  exact hcompared.elim (fun h' => hbad a c h' hac') fun h' => hbad c a h' (havoided.symm hac')

/-- And no order can be found otherwise. -/
theorem SortRun.avoidable (h : SortRun cmp l compared result)
    (hbad : ∀ a b, compared a b → ¬bad a b) : Avoidable cmp bad l := by
  intro a ha b hb hne hab
  have hsym : Std.Symm fun a b => Known cmp compared a b ∨ Known cmp compared b a :=
    ⟨fun _ _ => Or.symm⟩
  have hknown : Known cmp compared a b ∨ Known cmp compared b a :=
    List.Pairwise.forall (R := fun a b => Known cmp compared a b ∨ Known cmp compared b a)
      (h.known.imp Or.inl) (h.perm.mem_iff.mpr ha) (h.perm.mem_iff.mpr hb) hne
  rcases hknown with hknown | hknown
  · exact h.exists_between havoided horders hbad ha hne hab hknown
  · obtain ⟨c, hc, hbc, hnbad⟩ :=
      h.exists_between havoided horders hbad hb (Ne.symm hne) (havoided.symm hab) hknown
    exact ⟨c, hc, horders.eq_trans ha hb hc (havoided.tie hab) hbc,
      fun hac => hnbad (havoided.trans (havoided.symm hab) hac)⟩

end Avoid

/-! ## The first of some elements -/

/-- None of these elements is before it. -/
def IsFirst (cmp : α → α → Int) (l : List α) (hit : α → Bool) (a : α) : Prop :=
  a ∈ l ∧ hit a = true ∧ ∀ b ∈ l, hit b = true → cmp a b ≤ 0

variable {hit : α → Bool}

theorem isFirst_of_find? (horders : Orders cmp l) (hperm : result.Perm l)
    (hsorted : result.Pairwise fun a b => cmp a b ≤ 0) (h : result.find? hit = some a) :
    IsFirst cmp l hit a := by
  obtain ⟨ha, before, after, rfl, hbefore⟩ := find?_eq_some_iff_append.mp h
  have hmem : a ∈ l := hperm.mem_iff.mp (by simp)
  refine ⟨hmem, ha, fun b hb hhit => ?_⟩
  rcases mem_append.mp (hperm.mem_iff.mpr hb) with hb' | hb'
  · simpa [hhit] using hbefore b hb'
  · rcases mem_cons.mp hb' with rfl | hb'
    · exact (horders.refl hmem).le
    · exact (pairwise_cons.mp (pairwise_append.mp hsorted).2.1).1 b hb'

/-- Each of the first elements can be the one that a sort leaves in front of the others. -/
theorem IsFirst.exists_sorted (horders : Orders cmp l) (h : IsFirst cmp l hit a) :
    ∃ result : List α, result.Perm l ∧ result.Pairwise (fun a b => cmp a b ≤ 0) ∧
      result.find? hit = some a := by
  obtain ⟨hmem, ha, hfirst⟩ := h
  obtain ⟨before, after, rfl⟩ := append_of_mem hmem
  have hsub : before ++ after ⊆ before ++ a :: after :=
    ((sublist_cons_self a after).append_left before).subset
  have horders' : Orders cmp (before ++ after) := horders.subset hsub
  obtain ⟨rest, hperm, hsorted⟩ := exists_sorts cmp (before ++ after)
  have hsorted := hsorted horders'
  have hrest : ∀ b ∈ rest, b ∈ before ++ a :: after := fun b hb => hsub (hperm.mem_iff.mp hb)
  -- the elements before `a` do not count
  let low := rest.filter fun b => 0 < cmp a b
  let high := rest.filter fun b => !decide (0 < cmp a b)
  have hlow : ∀ b ∈ low, b ∈ rest ∧ 0 < cmp a b := fun b hb => by
    simpa [low] using hb
  have hhigh : ∀ b ∈ high, b ∈ rest ∧ cmp a b ≤ 0 := fun b hb => by
    simpa [high] using hb
  refine ⟨low ++ a :: high, ?_, ?_, ?_⟩
  · have hsplit : (low ++ high).Perm (before ++ after) :=
      (filter_append_perm _ rest).trans hperm
    exact perm_middle.trans ((hsplit.cons a).trans perm_middle.symm)
  · refine pairwise_append.mpr ⟨hsorted.filter _, pairwise_cons.mpr ⟨?_, hsorted.filter _⟩, ?_⟩
    · exact fun b hb => (hhigh b hb).2
    · intro b hb c hc
      have hba : cmp b a < 0 :=
        (horders.oriented b (hrest b (hlow b hb).1) a hmem).mpr (hlow b hb).2
      rcases mem_cons.mp hc with rfl | hc
      · exact hba.le
      · exact horders.trans b (hrest b (hlow b hb).1) a hmem c (hrest c (hhigh c hc).1) hba.le
          (hhigh c hc).2
  · have hnone : low.find? hit = none := find?_eq_none.mpr fun b hb hhit => by
      have := hfirst b (hrest b (hlow b hb).1) hhit
      have := (hlow b hb).2
      omega
    simp [hnone, find?_cons_of_pos ha]

end Lib
