import Mathlib.Data.List.Perm.Basic
import Mathlib.Data.List.TakeWhile
import SELinux.Lib.Comparator

/-! Chains of entries that ascend by a comparison function of C. A walk for a key stops at the first
entry that is not below the key; whether the key is in the chain shows there. The chains of a table
are laid end to end, and changing one of them changes the whole by as much. -/
namespace Lib

open List Function

variable {κ α ι : Type*}

/-- The function orders everything: it is a total preorder. -/
structure TotalCmp (cmp : κ → κ → Int) : Prop where
  orders : ∀ l, Orders cmp l

namespace TotalCmp

variable {cmp : κ → κ → Int} (h : TotalCmp cmp) {a b c : κ}
include h

theorem lt_iff : cmp a b < 0 ↔ 0 < cmp b a :=
  (h.orders [a, b]).oriented a (by simp) b (by simp)

theorem eq_comm (hab : cmp a b = 0) : cmp b a = 0 :=
  (h.orders [a, b]).eq_comm (by simp) (by simp) hab

theorem le_trans (hab : cmp a b ≤ 0) (hbc : cmp b c ≤ 0) : cmp a c ≤ 0 :=
  (h.orders [a, b, c]).trans a (by simp) b (by simp) c (by simp) hab hbc

theorem eq_trans (hab : cmp a b = 0) (hbc : cmp b c = 0) : cmp a c = 0 :=
  (h.orders [a, b, c]).eq_trans (by simp) (by simp) (by simp) hab hbc

theorem lt_of_le_of_lt (hab : cmp a b ≤ 0) (hbc : cmp b c < 0) : cmp a c < 0 := by
  rw [h.lt_iff] at hbc ⊢
  by_contra hca
  exact absurd (h.le_trans (not_lt.mp hca) hab) (not_le.mpr hbc)

end TotalCmp

/-! ## Walks -/

/-- The entries below a key, and the entry where the walk stops with those behind it. -/
def cmpWalk (cmp : κ → κ → Int) (k : κ) (c : List (κ × α)) : List (κ × α) × List (κ × α) :=
  (c.takeWhile fun e => 0 < cmp k e.1, c.dropWhile fun e => 0 < cmp k e.1)

/-- The keys ascend along the chain. -/
def CmpAscending (cmp : κ → κ → Int) (c : List (κ × α)) : Prop := c.Pairwise fun a b =>
    cmp a.1 b.1 < 0

variable {e : κ × α} {c : List α}

section Walk

variable {cmp : κ → κ → Int} {k : κ} {c : List (κ × α)}

theorem cmpWalk_append (cmp : κ → κ → Int) (k : κ) (c : List (κ × α)) :
    (cmpWalk cmp k c).1 ++ (cmpWalk cmp k c).2 = c :=
  takeWhile_append_dropWhile

theorem cmpWalk_before (he : e ∈ (cmpWalk cmp k c).1) : 0 < cmp k e.1 := by
  simpa using mem_takeWhile_imp he

theorem cmpWalk_ascending (hc : CmpAscending cmp c) (k : κ) :
    CmpAscending cmp (cmpWalk cmp k c).1 ∧ CmpAscending cmp (cmpWalk cmp k c).2 ∧
      ∀ a ∈ (cmpWalk cmp k c).1, ∀ b ∈ (cmpWalk cmp k c).2, cmp a.1 b.1 < 0 := by
  have hsplit : CmpAscending cmp ((cmpWalk cmp k c).1 ++ (cmpWalk cmp k c).2) := by
    rwa [cmpWalk_append]
  exact pairwise_append.mp hsplit

variable (hcmp : TotalCmp cmp) (hc : CmpAscending cmp c)
include hcmp hc

theorem cmpWalk_rest {rest : List (κ × α)} (h : (cmpWalk cmp k c).2 = e :: rest) :
    cmp k e.1 ≤ 0 ∧ ∀ a ∈ rest, cmp k a.1 < 0 := by
  have hstop : cmp k e.1 ≤ 0 := by
    have hhead := head?_dropWhile_not (fun e : κ × α => decide (0 < cmp k e.1)) c
    rw [show c.dropWhile (fun e => decide (0 < cmp k e.1)) = e :: rest from h] at hhead
    simpa using hhead
  have hascending := (cmpWalk_ascending hc k).2.1
  rw [h] at hascending
  exact ⟨hstop, fun a ha => hcmp.lt_of_le_of_lt hstop ((pairwise_cons.mp hascending).1 a ha)⟩

/-- The key is in the chain if the walk stops at it. -/
theorem cmpWalk_find : ((cmpWalk cmp k c).2.head?.filter fun e => cmp k e.1 == 0) =
    c.find? fun e => cmp k e.1 == 0 := by
  have hbefore : (cmpWalk cmp k c).1.find? (fun e => cmp k e.1 == 0) = none := by
    rw [find?_eq_none]
    intro e he
    have := cmpWalk_before he
    simp only [beq_iff_eq]
    omega
  rw [← congrArg (List.find? fun e => cmp k e.1 == 0) (cmpWalk_append cmp k c), find?_append,
    hbefore,
    Option.none_or]
  cases hrest : (cmpWalk cmp k c).2 with
  | nil => rfl
  | cons e rest =>
    have habove : rest.find? (fun e => cmp k e.1 == 0) = none := by
      rw [find?_eq_none]
      intro a ha
      have := (cmpWalk_rest hcmp hc hrest).2 a ha
      simp only [beq_iff_eq]
      omega
    by_cases heq : cmp k e.1 = 0
    · simp [heq]
    · simp [heq, habove]

theorem cmpWalk_insert (hnew : ∀ e ∈ c, cmp k e.1 ≠ 0) (v : α) :
    CmpAscending cmp ((cmpWalk cmp k c).1 ++ (k, v) :: (cmpWalk cmp k c).2) := by
  obtain ⟨hleft, hright, hacross⟩ := cmpWalk_ascending hc k
  have habove : ∀ b ∈ (cmpWalk cmp k c).2, cmp k b.1 < 0 := by
    cases hrest : (cmpWalk cmp k c).2 with
    | nil => simp
    | cons e rest =>
      obtain ⟨hstop, hbehind⟩ := cmpWalk_rest hcmp hc hrest
      have he : e ∈ c := by
        rw [← cmpWalk_append cmp k c, hrest]
        simp
      exact forall_mem_cons.mpr ⟨lt_of_le_of_ne hstop (hnew e he), hbehind⟩
  refine pairwise_append.mpr ⟨hleft, pairwise_cons.mpr ⟨habove, hright⟩, fun a ha => ?_⟩
  exact forall_mem_cons.mpr ⟨hcmp.lt_iff.mpr (cmpWalk_before ha), hacross a ha⟩

end Walk

/-! ## Tables of chains -/

section Table

variable [DecidableEq ι] {f : ι → List α} {is : List ι} {i : ι}

/-- The chains end to end, with one of them in front. -/
theorem perm_flatMap_erase (hi : i ∈ is) : (is.flatMap f).Perm (f i ++ (is.erase i).flatMap f) :=
  (perm_cons_erase hi).flatMap_right f

theorem flatMap_update_erase (hnodup : is.Nodup) (c : List α) :
    (is.erase i).flatMap (update f i c) = (is.erase i).flatMap f :=
  flatMap_congr fun j hj => by
    rw [update_of_ne fun hji => ?_]
    exact (List.Nodup.mem_erase_iff hnodup).mp hj |>.1 hji

theorem perm_flatMap_insert (hnodup : is.Nodup) (hi : i ∈ is) {e : α} (hc : c.Perm (e :: f i)) :
    (is.flatMap (update f i c)).Perm (e :: is.flatMap f) := by
  refine (perm_flatMap_erase hi).trans ?_
  rw [flatMap_update_erase hnodup, update_self]
  refine (hc.append_right _).trans ?_
  exact (perm_flatMap_erase hi).symm.cons e

theorem perm_flatMap_remove (hnodup : is.Nodup) (hi : i ∈ is) {e : α} (hc : (f i).Perm (e :: c)) :
    (is.flatMap f).Perm (e :: is.flatMap (update f i c)) := by
  have hback := perm_flatMap_insert (f := update f i c) hnodup hi (c := f i) (e := e)
    (by rwa [update_self])
  simpa using hback

end Table

end Lib
