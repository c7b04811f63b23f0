import Mathlib.Algebra.GroupWithZero.Nat
import Mathlib.Data.List.Sort

/-! Finite sets over a linear order, kept as strictly increasing lists. A
strictly increasing list is determined by its members, so the operations are
specified by membership alone and a loop over the list is a loop over the set
in increasing order. -/
namespace Lib

open List

variable {α : Type*} [LinearOrder α]

/-- Insert `a` at its place; a no-op when `a` is already present. -/
def insertSorted (a : α) : List α → List α
  | [] => [a]
  | b :: bs => if a < b then a :: b :: bs else if a = b then b :: bs else b :: insertSorted a bs

variable {a x : α} {l l1 l2 : List α}

@[simp] theorem mem_insertSorted : x ∈ insertSorted a l ↔ x = a ∨ x ∈ l := by
  induction l with
  | nil => simp [insertSorted]
  | cons b bs ih =>
    simp only [insertSorted]
    split
    · simp
    · split
      · rename_i h
        subst h
        simp
      · simp only [mem_cons, ih]
        tauto

theorem pairwise_insertSorted (h : l.Pairwise (· < ·)) : (insertSorted a l).Pairwise (· < ·) := by
  induction l with
  | nil => simp [insertSorted]
  | cons b bs ih =>
    obtain ⟨hb, hbs⟩ := pairwise_cons.mp h
    simp only [insertSorted]
    split
    · rename_i hab
      refine pairwise_cons.mpr ⟨fun x hx => ?_, h⟩
      rcases mem_cons.mp hx with rfl | hx
      · exact hab
      · exact lt_trans hab (hb x hx)
    · split
      · exact h
      · rename_i hnlt hne
        refine pairwise_cons.mpr ⟨fun x hx => ?_, ih hbs⟩
        rcases mem_insertSorted.mp hx with rfl | hx
        · exact lt_of_le_of_ne (not_lt.mp hnlt) (Ne.symm hne)
        · exact hb x hx

/-- The members of either list. -/
def unionSorted (l1 l2 : List α) : List α := l2.foldr insertSorted l1

@[simp] theorem mem_unionSorted : x ∈ unionSorted l1 l2 ↔ x ∈ l1 ∨ x ∈ l2 := by
  induction l2 with
  | nil => simp [unionSorted]
  | cons b bs ih =>
    simp only [unionSorted, foldr_cons, mem_insertSorted, mem_cons] at ih ⊢
    tauto

theorem pairwise_unionSorted (h : l1.Pairwise (· < ·)) : (unionSorted l1 l2).Pairwise (· < ·) := by
  induction l2 with
  | nil => exact h
  | cons b bs ih => exact pairwise_insertSorted ih

end Lib
