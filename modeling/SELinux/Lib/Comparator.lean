import Mathlib.Data.List.Basic
import Mathlib.Algebra.Order.Ring.Int

/-! Comparison functions of C, which return a number below, equal to or above zero, and what
sorting with them does. -/
namespace Lib

open List BitVec

variable {α β : Type*} {cmp cmp' : α → α → Int} {l : List α}

/-- The function orders the elements of the list: it is a total preorder of them. -/
structure Orders (cmp : α → α → Int) (l : List α) : Prop where
  oriented : ∀ a ∈ l, ∀ b ∈ l, cmp a b < 0 ↔ 0 < cmp b a
  trans : ∀ a ∈ l, ∀ b ∈ l, ∀ c ∈ l, cmp a b ≤ 0 → cmp b c ≤ 0 → cmp a c ≤ 0

namespace Orders

variable {a b : α}

section

variable (h : Orders cmp l)
include h

theorem total (ha : a ∈ l) (hb : b ∈ l) : cmp a b ≤ 0 ∨ cmp b a ≤ 0 := by
  have := h.oriented b hb a ha
  omega

theorem eq_comm (ha : a ∈ l) (hb : b ∈ l) (heq : cmp a b = 0) : cmp b a = 0 := by
  have := h.oriented a ha b hb
  have := h.oriented b hb a ha
  omega

theorem refl (ha : a ∈ l) : cmp a a = 0 := by
  have := h.oriented a ha a ha
  omega

theorem eq_trans {c : α} (ha : a ∈ l) (hb : b ∈ l) (hc : c ∈ l) (hab : cmp a b = 0)
    (hbc : cmp b c = 0) : cmp a c = 0 := by
  have hac := h.trans a ha b hb c hc hab.le hbc.le
  have hca := h.trans c hc b hb a ha (h.eq_comm hb hc hbc).le (h.eq_comm ha hb hab).le
  have := h.oriented a ha c hc
  omega

theorem subset {l' : List α} (hsub : l' ⊆ l) : Orders cmp l' where
  oriented a ha b hb := h.oriented a (hsub ha) b (hsub hb)
  trans a ha b hb c hc := h.trans a (hsub ha) b (hsub hb) c (hsub hc)

end

theorem comap {f : β → α} {l : List β} (h : Orders cmp (l.map f)) :
    Orders (fun a b => cmp (f a) (f b)) l where
  oriented _ ha _ hb := h.oriented _ (mem_map_of_mem ha) _ (mem_map_of_mem hb)
  trans _ ha _ hb _ hc :=
    h.trans _ (mem_map_of_mem ha) _ (mem_map_of_mem hb) _ (mem_map_of_mem hc)

variable (h : Orders cmp l)
include h

theorem congr (hsign : ∀ a ∈ l, ∀ b ∈ l, (cmp' a b).sign = (cmp a b).sign) : Orders cmp' l := by
  have hlt : ∀ a ∈ l, ∀ b ∈ l, cmp' a b < 0 ↔ cmp a b < 0 := fun a ha b hb => by
    rw [← Int.sign_eq_neg_one_iff_neg, hsign a ha b hb, Int.sign_eq_neg_one_iff_neg]
  have hgt : ∀ a ∈ l, ∀ b ∈ l, 0 < cmp' a b ↔ 0 < cmp a b := fun a ha b hb => by
    rw [← Int.sign_eq_one_iff_pos, hsign a ha b hb, Int.sign_eq_one_iff_pos]
  refine ⟨fun a ha b hb => ?_, fun a ha b hb c hc hab hbc => ?_⟩
  · rw [hlt a ha b hb, hgt b hb a ha, h.oriented a ha b hb]
  · rw [← Int.not_lt, hgt a ha c hc, Int.not_lt]
    rw [← Int.not_lt, hgt a ha b hb, Int.not_lt] at hab
    rw [← Int.not_lt, hgt b hb c hc, Int.not_lt] at hbc
    exact h.trans a ha b hb c hc hab hbc

theorem neg : Orders (fun a b => -cmp a b) l := by
  refine ⟨fun a ha b hb => ?_, fun a ha b hb c hc hab hbc => ?_⟩
  · have := h.oriented b hb a ha
    omega
  · have := h.oriented a ha b hb
    have := h.oriented b hb c hc
    have := h.oriented a ha c hc
    have := h.trans c hc b hb a ha
    omega

theorem exists_first (hne : l ≠ []) : ∃ m ∈ l, ∀ a ∈ l, cmp m a ≤ 0 := by
  induction l with
  | nil => exact absurd rfl hne
  | cons x l ih =>
    by_cases hl : l = []
    · subst hl
      refine ⟨x, mem_singleton_self x, fun a ha => ?_⟩
      rw [mem_singleton.mp ha]
      exact (h.refl (mem_singleton_self x)).le
    · obtain ⟨m, hm, hfirst⟩ := ih (h.subset (subset_cons_self x l)) hl
      have hm' := mem_cons_of_mem x hm
      rcases h.total mem_cons_self hm' with hle | hle
      · refine ⟨x, mem_cons_self, forall_mem_cons.mpr ⟨(h.refl mem_cons_self).le, fun a ha => ?_⟩⟩
        exact h.trans _ mem_cons_self _ hm' _ (mem_cons_of_mem x ha) hle (hfirst a ha)
      · exact ⟨m, hm', forall_mem_cons.mpr ⟨hle, hfirst⟩⟩

end Orders

/-! ## Comparisons by a key -/

/-- `a < b ? -1 : b < a ? 1 : 0`, for keys of `a` and `b`. -/
def keyCmp [LinearOrder β] (key : α → β) (a b : α) : Int :=
  if key a < key b then -1 else if key b < key a then 1 else 0

section Key

variable [LinearOrder β] {key : α → β} {a b : α}

theorem keyCmp_neg : keyCmp key a b < 0 ↔ key a < key b := by
  rw [keyCmp]
  split_ifs with h
  · simp [h]
  · simp [h]
  · simp [h]

theorem keyCmp_pos : 0 < keyCmp key a b ↔ key b < key a := by
  rw [keyCmp]
  split_ifs with h h'
  · simp [h.le]
  · simp [h']
  · simp [h']

theorem keyCmp_eq_zero : keyCmp key a b = 0 ↔ key a = key b := by
  have hneg : keyCmp key a b < 0 ↔ key a < key b := keyCmp_neg
  have hpos : 0 < keyCmp key a b ↔ key b < key a := keyCmp_pos
  constructor
  · intro h
    exact le_antisymm (not_lt.mp fun hlt => by have := hpos.mpr hlt; omega)
      (not_lt.mp fun hlt => by have := hneg.mpr hlt; omega)
  · intro h
    rw [h] at hneg hpos
    have := mt hneg.mp (lt_irrefl _)
    have := mt hpos.mp (lt_irrefl _)
    omega

theorem keyCmp_nonpos : keyCmp key a b ≤ 0 ↔ key a ≤ key b := by
  rw [← Int.not_lt, keyCmp_pos, not_lt]

theorem orders_keyCmp (key : α → β) (l : List α) : Orders (keyCmp key) l where
  oriented _ _ _ _ := by rw [keyCmp_neg, keyCmp_pos]
  trans _ _ _ _ _ _ hab hbc :=
    keyCmp_nonpos.mpr ((keyCmp_nonpos.mp hab).trans (keyCmp_nonpos.mp hbc))

end Key

/-! ## Comparisons one after another -/

/-- The second comparison counts where the first has no result. -/
def thenCmp (first second : α → α → Int) (a b : α) : Int :=
  if first a b ≠ 0 then first a b else second a b

section Then

variable {first second : α → α → Int} {a b : α}

theorem thenCmp_of_eq (h : first a b = 0) : thenCmp first second a b = second a b :=
  if_neg (not_not.mpr h)

theorem thenCmp_of_ne (h : first a b ≠ 0) : thenCmp first second a b = first a b := if_pos h

theorem thenCmp_eq_zero : thenCmp first second a b = 0 ↔ first a b = 0 ∧ second a b = 0 := by
  by_cases h : first a b = 0
  · rw [thenCmp_of_eq h, and_iff_right h]
  · rw [thenCmp_of_ne h]
    exact ⟨fun h' => absurd h' h, fun h' => h'.1⟩

/-- Where the first comparison orders the elements, the second has to order those that the first
leaves together. -/
theorem orders_thenCmp_iff (hfirst : Orders first l) :
    Orders (thenCmp first second) l ↔ ∀ x ∈ l, Orders second (l.filter fun a => first x a = 0) := by
  constructor
  · intro h x hx
    have hmem : ∀ a ∈ l.filter fun a => first x a = 0, a ∈ l ∧ first x a = 0 := fun a ha => by
      simpa using mem_filter.mp ha
    have hsame : ∀ a ∈ l.filter fun a => first x a = 0, ∀ b ∈ l.filter fun a => first x a = 0,
        thenCmp first second a b = second a b := fun a ha b hb =>
      thenCmp_of_eq
        (hfirst.eq_trans (hmem a ha).1 hx (hmem b hb).1
          (hfirst.eq_comm hx (hmem a ha).1 (hmem a ha).2)
        (hmem b hb).2)
    exact (h.subset fun a ha => (hmem a ha).1).congr fun a ha b hb => by rw [hsame a ha b hb]
  · intro h
    have hmem : ∀ x ∈ l, ∀ a ∈ l, first x a = 0 → a ∈ l.filter fun a =>
        first x a = 0 := fun x _ a ha heq => by
      simpa using ⟨ha, heq⟩
    refine ⟨fun a ha b hb => ?_, fun a ha b hb c hc hab hbc => ?_⟩
    · by_cases heq : first a b = 0
      · rw [thenCmp_of_eq heq, thenCmp_of_eq (hfirst.eq_comm ha hb heq)]
        exact (h a ha).oriented a (hmem a ha a ha (hfirst.refl ha)) b (hmem a ha b hb heq)
      · rw [thenCmp_of_ne heq, thenCmp_of_ne fun h' => heq (hfirst.eq_comm hb ha h')]
        exact hfirst.oriented a ha b hb
    · have hle : ∀ x ∈ l, ∀ y ∈ l, thenCmp first second x y ≤ 0 → first x y ≤ 0 := by
        intro x _ y _ hxy
        by_cases heq : first x y = 0
        · exact heq.le
        · rwa [thenCmp_of_ne heq] at hxy
      have hac := hfirst.trans a ha b hb c hc (hle a ha b hb hab) (hle b hb c hc hbc)
      by_cases heq : first a c = 0
      · -- then the elements in between are together with the two
        have hca := hfirst.eq_comm ha hc heq
        have hba := hfirst.trans b hb c hc a ha (hle b hb c hc hbc) hca.le
        have hab0 : first a b = 0 := by
          have := hle a ha b hb hab
          have := hfirst.oriented a ha b hb
          omega
        have hbc0 := hfirst.eq_trans hb ha hc (hfirst.eq_comm ha hb hab0) heq
        rw [thenCmp_of_eq heq]
        rw [thenCmp_of_eq hab0] at hab
        rw [thenCmp_of_eq hbc0] at hbc
        exact (h a ha).trans a (hmem a ha a ha (hfirst.refl ha)) b (hmem a ha b hb hab0) c
          (hmem a ha c hc heq)
          hab hbc
      · rwa [thenCmp_of_ne heq]

theorem Orders.then (hfirst : Orders first l) (hsecond : Orders second l) :
    Orders (thenCmp first second) l :=
  (orders_thenCmp_iff hfirst).mpr fun _ _ => hsecond.subset fun _ ha => (mem_filter.mp ha).1

end Then

/-! ## Comparisons by a difference -/

/-- A difference of unsigned numbers, as a signed number of the same width. -/
def diffCmp (key : α → BitVec 32) (a b : α) : Int := (key a - key b).toInt

/-- The numbers are less than `2 ^ 31` above one of them, if one counts on from the largest to
the smallest. -/
def InHalf (key : α → BitVec 32) (l : List α) : Prop :=
  ∃ base : BitVec 32, ∀ a ∈ l, (key a - base).toNat < 2 ^ 31

/-- The low word of a wider difference is the difference of the low words. -/
theorem lowWord_sub (x y : BitVec 64) : (x - y).setWidth 32 = x.setWidth 32 - y.setWidth 32 := by
  apply eq_of_toNat_eq
  simp only [toNat_setWidth, toNat_sub]
  omega

theorem toInt_sub_of_half {x y base : BitVec 32} (hx : (x - base).toNat < 2 ^ 31)
    (hy : (y - base).toNat < 2 ^ 31) : (x - y).toInt = (x - base).toNat - (y - base).toNat := by
  have hsub : x - y = (x - base) - (y - base) := by
    apply eq_of_toNat_eq
    simp only [toNat_sub]
    omega
  rw [hsub]
  generalize x - base = u at hx
  generalize y - base = v at hy
  rw [toInt_eq_toNat_cond, toNat_sub]
  split_ifs <;> omega

/-- A comparison by difference orders numbers that are in one half of the circle, and no others. -/
theorem orders_diffCmp_iff {key : α → BitVec 32} {tie : α → α → Int} (htie : Orders tie l) :
    Orders (thenCmp (diffCmp key) tie) l ↔ InHalf key l := by
  constructor
  · intro h
    by_cases hne : l = []
    · exact ⟨0, by simp [hne]⟩
    · obtain ⟨m, hm, hfirst⟩ := h.exists_first hne
      refine ⟨key m, fun a ha => ?_⟩
      by_cases heq : key a = key m
      · simp [heq]
      · have hne : ∀ x y : BitVec 32, x ≠ y → (x - y).toInt ≠ 0 := fun x y hxy h0 =>
          hxy (BitVec.sub_eq_iff_eq_add.mp (toInt_inj.mp (h0.trans toInt_zero.symm)) |>.trans
            (BitVec.zero_add y))
        have hma : thenCmp (diffCmp key) tie m a = (key m - key a).toInt :=
          thenCmp_of_ne (hne _ _ (Ne.symm heq))
        have ham : thenCmp (diffCmp key) tie a m = (key a - key m).toInt :=
          thenCmp_of_ne (hne _ _ heq)
        have hle := hfirst a ha
        have horiented := h.oriented m hm a ha
        rw [hma] at hle horiented
        rw [ham] at horiented
        have hpos := horiented.mp (lt_of_le_of_ne hle (hne _ _ (Ne.symm heq)))
        rw [toInt_eq_toNat_cond] at hpos
        split_ifs at hpos with hsmall <;> omega
  · rintro ⟨base, hbase⟩
    refine ((orders_keyCmp (fun a => (key a - base).toNat) l).then htie).congr fun a ha b hb => ?_
    have hdiff : diffCmp key a b = (key a - base).toNat - (key b - base).toNat :=
      toInt_sub_of_half (hbase a ha) (hbase b hb)
    rcases Nat.lt_trichotomy (key a - base).toNat (key b - base).toNat with hlt | heq | hgt
    · have hneg : keyCmp (fun a => (key a - base).toNat) a b < 0 := keyCmp_neg.mpr hlt
      rw [thenCmp_of_ne (by omega), thenCmp_of_ne hneg.ne, Int.sign_eq_neg_one_of_neg hneg,
        Int.sign_eq_neg_one_of_neg (by omega)]
    · have hzero : keyCmp (fun a => (key a - base).toNat) a b = 0 := keyCmp_eq_zero.mpr heq
      rw [thenCmp_of_eq (by omega), thenCmp_of_eq hzero]
    · have hpos : 0 < keyCmp (fun a => (key a - base).toNat) a b := keyCmp_pos.mpr hgt
      rw [thenCmp_of_ne (by omega), thenCmp_of_ne hpos.ne', Int.sign_eq_one_of_pos hpos,
        Int.sign_eq_one_of_pos (by omega)]

/-! ## Sorting -/

/-- What `qsort` may do with the list: with a function that does not order the elements, it may
leave them in any order. -/
def Sorts (cmp : α → α → Int) (l sorted : List α) : Prop :=
  sorted.Perm l ∧ (Orders cmp l → sorted.Pairwise fun a b => cmp a b ≤ 0)

theorem exists_sorts (cmp : α → α → Int) (l : List α) : ∃ sorted, Sorts cmp l sorted := by
  by_cases h : Orders cmp l
  · let le (a b : { a // a ∈ l }) : Bool := cmp a b ≤ 0
    have hsorted : (l.attach.mergeSort le).Pairwise fun a b => le a b := pairwise_mergeSort
      (fun a b c hab hbc => by
        simp only [le, decide_eq_true_eq] at hab hbc ⊢
        exact h.trans a a.2 b b.2 c c.2 hab hbc)
      (fun a b => by simpa [le] using h.total a.2 b.2) l.attach
    refine ⟨(l.attach.mergeSort le).map Subtype.val, ?_, fun _ => ?_⟩
    · exact ((mergeSort_perm l.attach le).map _).trans (by rw [attach_map_subtype_val])
    · rw [pairwise_map]
      exact hsorted.imp fun hab => by simpa [le] using hab
  · exact ⟨l, .refl l, fun h' => absurd h' h⟩

end Lib
