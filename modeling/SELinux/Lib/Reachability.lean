import Mathlib.Logic.Relation

/-! Reachability in a graph that is given by a list of edges, when edges are added. -/
namespace Lib

open List

variable {α : Type*} {l l' : List (α × α)} {a b c x y z : α}

/-- There is a path, of any length. -/
def Reach (l : List (α × α)) : α → α → Prop := Relation.ReflTransGen fun a b => (a, b) ∈ l

namespace Reach

theorem refl (l : List (α × α)) (a : α) : Reach l a a := Relation.ReflTransGen.refl

theorem edge (h : (a, b) ∈ l) : Reach l a b := Relation.ReflTransGen.single h

theorem trans (h : Reach l a b) (h' : Reach l b c) : Reach l a c := Relation.ReflTransGen.trans h h'

theorem mono (hl : l ⊆ l') (h : Reach l a b) : Reach l' a b :=
  Relation.ReflTransGen.mono (fun _ _ hab => hl hab) _ _ h

theorem append_left (h : Reach l a b) : Reach (l ++ l') a b := h.mono (subset_append_left l l')

/-- A node without edges reaches only itself. -/
theorem eq_of_source (hx : ∀ p ∈ l, p.1 ≠ x) (h : Reach l x z) : z = x := by
  induction h with
  | refl => rfl
  | tail _ hedge ih => exact absurd ih (hx _ hedge)

theorem eq_or_target (h : Reach l x z) : z = x ∨ ∃ p ∈ l, p.2 = z := by
  cases h with
  | refl => exact .inl rfl
  | tail _ hedge => exact .inr ⟨_, hedge, rfl⟩

/-- Edges whose ends are all below one node add no more than what is below it. -/
theorem append_below (hbelow : ∀ p ∈ l', Reach (l ++ l') x p.2) (h : Reach (l ++ l') y z) :
    Reach l y z ∨ Reach (l ++ l') x z := by
  induction h with
  | refl => exact .inl (refl l y)
  | tail _ hedge ih =>
    rcases mem_append.mp hedge with hold | hnew
    · exact ih.imp (fun h => h.trans (edge hold)) fun h => h.trans (edge hedge)
    · exact .inr (hbelow _ hnew)

end Reach

/-- Edges from one node: a new path is an old one to that node, and an old one from the end of a new
edge. -/
theorem reach_append_fan {cs : List α} :
    Reach (l ++ cs.map (x, ·)) y z ↔ Reach l y z ∨ (Reach l y x ∧ ∃ c ∈ cs, Reach l c z) := by
  constructor
  · intro h
    induction h with
    | refl => exact .inl (Reach.refl l y)
    | tail _ hedge ih =>
      rcases mem_append.mp hedge with hedge | hedge
      · exact ih.imp (fun h => h.trans (.edge hedge)) fun ⟨hx, c, hc, h⟩ =>
          ⟨hx, c, hc, h.trans (.edge hedge)⟩
      · obtain ⟨c, hc, heq⟩ := mem_map.mp hedge
        cases heq
        exact .inr ⟨ih.elim id fun h => h.1, _, hc, Reach.refl l _⟩
  · rintro (h | ⟨hx, c, hc, h⟩)
    · exact h.append_left
    · have hedge : (x, c) ∈ l ++ cs.map (x, ·) := mem_append_right _ (mem_map_of_mem hc)
      exact (hx.append_left.trans (.edge hedge)).trans h.append_left

end Lib
