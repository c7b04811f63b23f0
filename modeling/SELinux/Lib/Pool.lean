import Mathlib.Data.Set.Lattice

/-! Pools of evidence: what a list of items establishes together. -/
namespace Lib

variable {ι κ φ : Type*}

/-- The facts that some item of the list establishes. -/
def pool (facts : ι → Set φ) (l : List ι) : Set φ := {f | ∃ x ∈ l, f ∈ facts x}

variable {facts : ι → Set φ}

theorem mem_pool {l : List ι} {f : φ} : f ∈ pool facts l ↔ ∃ x ∈ l, f ∈ facts x := Iff.rfl

@[simp] theorem pool_append (facts : ι → Set φ) (l1 l2 : List ι) :
    pool facts (l1 ++ l2) = pool facts l1 ∪ pool facts l2 := by
  ext f
  simp [mem_pool, or_and_right, exists_or]

@[simp] theorem pool_cons (facts : ι → Set φ) (x : ι) (l : List ι) :
    pool facts (x :: l) = facts x ∪ pool facts l := by
  ext f
  simp [mem_pool]

@[simp] theorem pool_nil (facts : ι → Set φ) : pool facts [] = ∅ := by
  ext f
  simp [mem_pool]

theorem pool_perm {l1 l2 : List ι} (h : l1.Perm l2) : pool facts l1 = pool facts l2 := by
  ext f
  simp only [mem_pool, h.mem_iff]

theorem mem_pool_flatMap {f : κ → List ι} {l : List κ} {e : φ} :
    e ∈ pool facts (l.flatMap f) ↔ ∃ k ∈ l, e ∈ pool facts (f k) := by
  simp only [mem_pool, List.mem_flatMap]
  constructor
  · rintro ⟨x, ⟨k, hk, hx⟩, he⟩
    exact ⟨k, hk, x, hx, he⟩
  · rintro ⟨k, hk, x, hx, he⟩
    exact ⟨x, ⟨k, hk, hx⟩, he⟩

end Lib
