import Mathlib.Data.List.Perm.Basic
import Mathlib.Order.Lattice

/-!
# Sets of extended permissions in sepolgen

An `XpermSet` has ranges of numbers and a flag that makes it their complement. `extend` joins the
ranges of two sets, and keeps the flag of the first. -/

namespace SELinux.Sepolgen

open List

abbrev Range := Int × Int

def Covered (ranges : List Range) (x : Int) : Prop := ∃ r ∈ ranges, r.1 ≤ x ∧ x ≤ r.2

/-- The ranges are sorted and disjoint, and no two of them are adjacent. -/
def Separate (ranges : List Range) : Prop :=
  (∀ r ∈ ranges, r.1 ≤ r.2) ∧ ranges.Pairwise fun r s => r.2 + 1 < s.1

structure XpermSet where
  complement : Bool
  ranges : List Range
  separate : Separate ranges

/-- The loops of `__normalize_ranges` from the range `r` on. -/
def mergeRanges (r : Range) : List Range → List Range
  | [] => [r]
  | s :: rest =>
    if s.1 ≤ r.2 + 1 then mergeRanges (r.1, max r.2 s.2) rest else r :: mergeRanges s rest

/-- Tuples are sorted by their first components, and then by the second ones. -/
def tupleLe (r s : Range) : Bool := r.1 < s.1 ∨ r.1 = s.1 ∧ r.2 ≤ s.2

def normalizeRanges (ranges : List Range) : List Range :=
  match ranges.mergeSort tupleLe with
  | [] => []
  | r :: rest => mergeRanges r rest

theorem mergeRanges_spec {r : Range} {l : List Range}
    (hsorted : (r :: l).Pairwise fun r s => r.1 ≤ s.1)
    (hrange : ∀ s ∈ r :: l, s.1 ≤ s.2) : Separate (mergeRanges r l) ∧
      (∀ s ∈ mergeRanges r l, r.1 ≤ s.1) ∧
      ∀ x, Covered (mergeRanges r l) x ↔ Covered (r :: l) x := by
  induction l generalizing r with
  | nil => exact ⟨⟨hrange, pairwise_singleton ..⟩, by simp [mergeRanges], fun _ => Iff.rfl⟩
  | cons s l ih =>
    obtain ⟨hr, hsorted⟩ := pairwise_cons.mp hsorted
    obtain ⟨hs, hl⟩ := pairwise_cons.mp hsorted
    simp only [forall_mem_cons] at hr hrange
    rw [mergeRanges]
    split_ifs with hnext
    · obtain ⟨hsep, hle, hcovered⟩ := @ih (r.1, max r.2 s.2) (pairwise_cons.mpr ⟨hr.2, hl⟩)
        (forall_mem_cons.mpr ⟨hrange.1.trans (le_max_left ..), hrange.2.2⟩)
      refine ⟨hsep, hle, fun x => (hcovered x).trans ?_⟩
      -- the two ranges have no number between them
      simp only [Covered, exists_mem_cons_iff, ← or_assoc]
      refine or_congr_left ?_
      omega
    · obtain ⟨hsep, hle, hcovered⟩ := ih hsorted (forall_mem_cons.mpr hrange.2)
      refine ⟨⟨forall_mem_cons.mpr ⟨hrange.1, hsep.1⟩, pairwise_cons.mpr ⟨fun t ht => ?_, hsep.2⟩⟩,
        forall_mem_cons.mpr ⟨le_rfl, fun t ht => hr.1.trans (hle t ht)⟩, fun x => ?_⟩
      · have := hle t ht
        omega
      · have := hcovered x
        simp only [Covered, exists_mem_cons_iff] at this ⊢
        rw [this]

variable {ranges : List Range}

theorem normalizeRanges_spec (h : ∀ r ∈ ranges, r.1 ≤ r.2) :
    Separate (normalizeRanges ranges) ∧ ∀ x, Covered (normalizeRanges ranges) x ↔
      Covered ranges x := by
  have hperm := mergeSort_perm ranges tupleLe
  have hsorted : (ranges.mergeSort tupleLe).Pairwise fun r s => r.1 ≤ s.1 := by
    refine (pairwise_mergeSort ?_ ?_ ranges).imp ?_ <;>
      simp only [tupleLe, Bool.or_eq_true, decide_eq_true_eq] <;> omega
  rw [normalizeRanges]
  generalize ranges.mergeSort _ = l at hperm hsorted
  have hcovered : ∀ x, Covered l x ↔ Covered ranges x := fun x => exists_congr fun r =>
      and_congr_left' hperm.mem_iff
  cases l with
  | nil => exact ⟨⟨by simp, .nil⟩, hcovered⟩
  | cons r rest =>
    obtain ⟨hsep, -, hmerge⟩ := mergeRanges_spec hsorted
      fun s hs => h s (hperm.subset hs)
    exact ⟨hsep, fun x => (hmerge x).trans (hcovered x)⟩

namespace XpermSet

def empty (complement : Bool) : XpermSet := ⟨complement, [], by simp, .nil⟩

/-- Ranges are appended, and the list is normalized. -/
def append (a : XpermSet) (ranges : List Range) (h : ∀ r ∈ ranges, r.1 ≤ r.2) : XpermSet where
  complement := a.complement
  ranges := normalizeRanges (a.ranges ++ ranges)
  separate := (normalizeRanges_spec (forall_mem_append.mpr ⟨a.separate.1, h⟩)).1

def extend (a b : XpermSet) : XpermSet := a.append b.ranges b.separate.1

def add (a : XpermSet) (minimum : Int) (maximum : Option Int) (h : minimum ≤ maximum.getD minimum) :
    XpermSet :=
  a.append [(minimum, maximum.getD minimum)] (by simpa using h)

/-- The numbers of the ranges, or the other 16-bit values. -/
def Denotes (a : XpermSet) (x : Int) : Prop :=
  if a.complement then (0 ≤ x ∧ x < 65536) ∧ ¬Covered a.ranges x else Covered a.ranges x

/-- What the ranges must be like where a set is a complement. -/
def UnionKept (a b : XpermSet) : Prop :=
  match a.complement, b.complement with
  | false, false => True
  | true, true => ∀ x, 0 ≤ x ∧ x < 65536 → (Covered a.ranges x ↔ Covered b.ranges x)
  | true, false => b.ranges = []
  | false, true => ∀ x, 0 ≤ x ∧ x < 65536 ∨ Covered b.ranges x → Covered a.ranges x

@[simp] theorem complement_append (a : XpermSet) (ranges : List Range) (h) :
    (a.append ranges h).complement = a.complement := rfl

theorem covered_append {a : XpermSet} {h x} :
    Covered (a.append ranges h).ranges x ↔ Covered a.ranges x ∨ Covered ranges x := by
  refine ((normalizeRanges_spec (forall_mem_append.mpr ⟨a.separate.1, h⟩)).2 x).trans ?_
  simp only [Covered, mem_append, or_and_right, exists_or]

/-- The ranges stay separate. The sets are joined if neither is a complement, and otherwise only by
chance. -/
theorem extend_union_iff (a b : XpermSet) :
    (Separate (a.extend b).ranges ∧ ∀ x, (a.extend b).Denotes x ↔ a.Denotes x ∨ b.Denotes x) ↔
      UnionKept a b := by
  rw [and_iff_right (a.extend b).separate]
  simp only [Denotes, UnionKept, extend, covered_append, complement_append]
  cases a.complement <;> cases b.complement <;> simp only [if_true, Bool.false_eq_true, if_false]
  · simp
  · refine forall_congr' fun x => ?_
    tauto
  · have hempty : b.ranges = [] ↔ ∀ x, ¬Covered b.ranges x := by
      rw [eq_nil_iff_forall_not_mem]
      exact ⟨fun h x ⟨r, hr, _⟩ => h r hr, fun h r hr => h r.1 ⟨r, hr, le_rfl, b.separate.1 r hr⟩⟩
    rw [hempty]
    refine forall_congr' fun x => ?_
    tauto
  · refine forall_congr' fun x => ?_
    tauto

/-- Everything but `5` has `7`, but not once it was extended by everything but `7`. -/
theorem extend_complements : ((empty true).add 5 none (Int.le_refl _)).Denotes 7 ∧
      ¬(((empty true).add 5 none (Int.le_refl _)).extend
        ((empty true).add 7 none (Int.le_refl _))).Denotes 7 := by
  simp only [Denotes, extend, add, covered_append, complement_append]
  simp [Covered, empty]

end XpermSet

end SELinux.Sepolgen
