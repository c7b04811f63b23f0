import Mathlib.Logic.Function.Basic

/-! Tables that number their keys: each key has a value of its own, and the values are from `1` to
`n`. -/
namespace Lib

open Function

/-- An entry of an updated table is the new one or an old one. -/
theorem update_some_cases {κ α : Type*} [DecidableEq κ] {f : κ → Option α} {k k' v w}
    (h : update f k (some v) k' = some w) : k' = k ∧ v = w ∨ f k' = some w := by
  by_cases hk : k' = k
  · rw [hk, update_self] at h
    exact .inl ⟨hk, Option.some.inj h⟩
  · exact .inr ((update_of_ne hk ..).symm.trans h)

structure Numbering {κ : Type*} (value : κ → Option Nat) (n : Nat) : Prop where
  bound : ∀ k v, value k = some v → 0 < v ∧ v ≤ n
  inj : ∀ k k' v, value k = some v → value k' = some v → k = k'

namespace Numbering

variable {κ : Type*} {value : κ → Option Nat} {n : Nat}

theorem empty : Numbering (fun _ : κ => none) n := by
  refine ⟨fun k v h => ?_, fun k k' v h => ?_⟩ <;> cases h

theorem insert [DecidableEq κ] (h : Numbering value n) (k : κ) :
    Numbering (Function.update value k (some (n + 1))) (n + 1) where
  bound k' v hv := by
    rcases update_some_cases hv with ⟨-, rfl⟩ | hv
    · simp
    · have hb := h.bound k' v hv
      exact ⟨hb.1, Nat.le_succ_of_le hb.2⟩
  inj k1 k2 v h1 h2 := by
    -- the next value is above those of the other keys
    have hnext (k' : κ) (hv : value k' = some (n + 1)) : k1 = k2 := by
      have hb := h.bound k' (n + 1) hv
      omega
    rcases update_some_cases h1 with ⟨hk1, rfl⟩ | hv1
    · rcases update_some_cases h2 with ⟨hk2, -⟩ | hv2
      · rw [hk1, hk2]
      · exact hnext k2 hv2
    · rcases update_some_cases h2 with ⟨-, rfl⟩ | hv2
      · exact hnext k1 hv1
      · exact h.inj k1 k2 v hv1 hv2

end Numbering

end Lib
