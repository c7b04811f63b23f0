import Mathlib.Logic.Basic

/-! Evaluation that keeps results: computations that may fail in some ways, and slots that are
filled once. -/
namespace Lib

/-- A computation fails in an allowed way only, and a result satisfies `Q`. -/
def Ends {ε α : Type*} (allowed : ε → Prop) (Q : α → Prop) : Except ε α → Prop
  | .error e => allowed e
  | .ok a => Q a

section Ends

variable {ε : Type*} {α β : Type _} {allowed : ε → Prop} {Q R : α → Prop}

theorem Ends.bind {S : β → Prop} {r : Except ε α} {f : α → Except ε β} (hr : Ends allowed Q r)
    (hf : ∀ a, Q a → Ends allowed S (f a)) : Ends allowed S (r >>= f) := by
  cases r with
  | error e => exact hr
  | ok a => exact hf a hr

theorem Ends.mono {r : Except ε α} (hr : Ends allowed Q r) (h : ∀ a, Q a → R a) :
    Ends allowed R r := by
  cases r with
  | error e => exact hr
  | ok a => exact h a hr

end Ends

section Fills

variable {α : Type*} {right right' : α → Prop} {o1 o2 o3 : Option α}

/-- A slot that keeps its content, or is filled with something right. -/
def Fills (right : α → Prop) (o o' : Option α) : Prop := o' = o ∨ o = none ∧ ∃ v, o' = some v ∧
    right v

theorem Fills.trans (h : Fills right o1 o2) (h' : Fills right o2 o3) : Fills right o1 o3 := by
  rcases h with rfl | ⟨hnone, v, rfl, hv⟩
  · exact h'
  · rcases h' with rfl | ⟨hsome, _⟩
    · exact .inr ⟨hnone, v, rfl, hv⟩
    · cases hsome

theorem Fills.mono (h : Fills right o1 o2) (himp : ∀ v, right v → right' v) : Fills right' o1 o2 :=
  h.imp_right fun ⟨hnone, v, hv, hright⟩ => ⟨hnone, v, hv, himp v hright⟩

theorem Fills.right_of_eq_some {v : α} (h : Fills right o1 o2) (hold : ∀ v, o1 = some v → right v)
    (hv : o2 = some v) : right v := by
  rcases h with rfl | ⟨_, w, hw, hright⟩
  · exact hold v hv
  · cases hw.symm.trans hv
    exact hright

end Fills

end Lib
