import Mathlib.Data.List.Pairwise
import Mathlib.Order.Lattice

/-! Lists of blocks that ascend by where they start. Two such lists are walked side by side:
an outer merge keeps every block and joins those that start at the same place, an inner merge
keeps the joins only. A merge is described by what it has at each place. -/
namespace Lib

open List

variable {α κ : Type*} [LinearOrder κ] (start : α → κ)

/-- The starts ascend along the list. -/
def StartsAscend (l : List α) : Prop := l.Pairwise fun a b => start a < start b

/-- The block that starts at `k`. -/
def blockAt (k : κ) (l : List α) : Option α := l.find? fun a => start a = k

/-- All blocks of two lists, those with the same start joined. -/
def outerMerge (join : α → α → α) : List α → List α → List α
  | [], l2 => l2
  | a :: l1, [] => a :: l1
  | a :: l1, b :: l2 =>
    if start a = start b then join a b :: outerMerge join l1 l2
    else if start a < start b then a :: outerMerge join l1 (b :: l2)
    else b :: outerMerge join (a :: l1) l2
termination_by l1 l2 => l1.length + l2.length

/-- The joins of the blocks with the same start. -/
def innerMerge (join : α → α → Option α) : List α → List α → List α
  | [], _ => []
  | _ :: _, [] => []
  | a :: l1, b :: l2 =>
    if start a = start b then (join a b).toList ++ innerMerge join l1 l2
    else if start b < start a then innerMerge join (a :: l1) l2
    else innerMerge join l1 (b :: l2)
termination_by l1 l2 => l1.length + l2.length

variable {start} {k : κ} {a b : α} {l l1 l2 : List α}

theorem blockAt_cons :
    blockAt start k (a :: l) = if start a = k then some a else blockAt start k l := by
  unfold blockAt
  by_cases h : start a = k
  · simp [h]
  · simp [h]

@[simp] theorem blockAt_nil : blockAt start k [] = none := rfl

theorem blockAt_eq_none : blockAt start k l = none ↔ ∀ a ∈ l, start a ≠ k := by
  simp [blockAt]

theorem blockAt_eq_none_of_lt (h : ∀ b ∈ l, k < start b) : blockAt start k l = none :=
  blockAt_eq_none.mpr fun b hb => (h b hb).ne'

theorem start_of_blockAt (h : blockAt start k l = some a) : a ∈ l ∧ start a = k :=
  ⟨mem_of_find?_eq_some h, by simpa using find?_some h⟩

theorem StartsAscend.blockAt_eq_some (hl : StartsAscend start l) :
    blockAt start k l = some a ↔ a ∈ l ∧ start a = k := by
  refine ⟨start_of_blockAt, ?_⟩
  rintro ⟨ha, rfl⟩
  induction l with
  | nil => cases ha
  | cons b l ih =>
    obtain ⟨hb, hl⟩ := pairwise_cons.mp hl
    rw [blockAt_cons]
    rcases mem_cons.mp ha with rfl | ha
    · rw [if_pos rfl]
    · rw [if_neg (hb a ha).ne, ih hl ha]

theorem StartsAscend.lt_of_mem (hl : StartsAscend start (b :: l)) (hlt : k < start b)
    (ha : a ∈ b :: l) : k < start a := by
  rcases mem_cons.mp ha with rfl | ha
  · exact hlt
  · exact hlt.trans ((pairwise_cons.mp hl).1 a ha)

/-! ## Outer merge -/

section Outer

variable {join : α → α → α}

theorem mem_outerMerge (h : a ∈ outerMerge start join l1 l2) :
    a ∈ l1 ∨ a ∈ l2 ∨ ∃ b ∈ l1, ∃ c ∈ l2, start b = start c ∧ a = join b c := by
  fun_induction outerMerge start join l1 l2 with
  | case1 l2 => exact .inr (.inl h)
  | case2 b l1 => exact .inl h
  | case3 b l1 c l2 heq ih =>
    rcases mem_cons.mp h with rfl | h
    · exact .inr (.inr ⟨b, mem_cons_self, c, mem_cons_self, heq, rfl⟩)
    · rcases ih h with h | h | ⟨d, hd, e, he, hde, rfl⟩
      · exact .inl (mem_cons_of_mem _ h)
      · exact .inr (.inl (mem_cons_of_mem _ h))
      · exact .inr (.inr ⟨d, mem_cons_of_mem _ hd, e, mem_cons_of_mem _ he, hde, rfl⟩)
  | case4 b l1 c l2 hne hlt ih =>
    rcases mem_cons.mp h with rfl | h
    · exact .inl mem_cons_self
    · rcases ih h with h | h | ⟨d, hd, e, he, hde, rfl⟩
      · exact .inl (mem_cons_of_mem _ h)
      · exact .inr (.inl h)
      · exact .inr (.inr ⟨d, mem_cons_of_mem _ hd, e, he, hde, rfl⟩)
  | case5 b l1 c l2 hne hlt ih =>
    rcases mem_cons.mp h with rfl | h
    · exact .inr (.inl mem_cons_self)
    · rcases ih h with h | h | ⟨d, hd, e, he, hde, rfl⟩
      · exact .inl h
      · exact .inr (.inl (mem_cons_of_mem _ h))
      · exact .inr (.inr ⟨d, hd, e, mem_cons_of_mem _ he, hde, rfl⟩)

variable (hjoin : ∀ a b, start a = start b → start (join a b) = start a)
include hjoin

theorem start_of_mem_outerMerge (h : a ∈ outerMerge start join l1 l2) :
    (∃ b ∈ l1, start b = start a) ∨ ∃ b ∈ l2, start b = start a := by
  rcases mem_outerMerge h with h | h | ⟨b, hb, c, hc, hbc, rfl⟩
  · exact .inl ⟨a, h, rfl⟩
  · exact .inr ⟨a, h, rfl⟩
  · exact .inl ⟨b, hb, (hjoin b c hbc).symm⟩

theorem startsAscend_outerMerge (h1 : StartsAscend start l1) (h2 : StartsAscend start l2) :
    StartsAscend start (outerMerge start join l1 l2) := by
  fun_induction outerMerge start join l1 l2 with
  | case1 l2 => exact h2
  | case2 a l1 => exact h1
  | case3 a l1 b l2 heq ih =>
    obtain ⟨ha, h1⟩ := pairwise_cons.mp h1
    obtain ⟨hb, h2⟩ := pairwise_cons.mp h2
    refine pairwise_cons.mpr ⟨fun c hc => ?_, ih h1 h2⟩
    rw [hjoin a b heq]
    rcases start_of_mem_outerMerge hjoin hc with ⟨d, hd, hs⟩ | ⟨d, hd, hs⟩
    · exact hs ▸ ha d hd
    · exact hs ▸ heq ▸ hb d hd
  | case4 a l1 b l2 hne hlt ih =>
    obtain ⟨ha, h1⟩ := pairwise_cons.mp h1
    refine pairwise_cons.mpr ⟨fun c hc => ?_, ih h1 h2⟩
    rcases start_of_mem_outerMerge hjoin hc with ⟨d, hd, hs⟩ | ⟨d, hd, hs⟩
    · exact hs ▸ ha d hd
    · exact hs ▸ h2.lt_of_mem hlt hd
  | case5 a l1 b l2 hne hlt ih =>
    have hlt : start b < start a := lt_of_le_of_ne (not_lt.mp hlt) (Ne.symm hne)
    obtain ⟨hb, h2⟩ := pairwise_cons.mp h2
    refine pairwise_cons.mpr ⟨fun c hc => ?_, ih h1 h2⟩
    rcases start_of_mem_outerMerge hjoin hc with ⟨d, hd, hs⟩ | ⟨d, hd, hs⟩
    · exact hs ▸ h1.lt_of_mem hlt hd
    · exact hs ▸ hb d hd

theorem blockAt_outerMerge (h1 : StartsAscend start l1) (h2 : StartsAscend start l2) :
    blockAt start k (outerMerge start join l1 l2) =
      Option.merge join (blockAt start k l1) (blockAt start k l2) := by
  fun_induction outerMerge start join l1 l2 with
  | case1 l2 => simp
  | case2 a l1 => simp
  | case3 a l1 b l2 heq ih =>
    rw [blockAt_cons, blockAt_cons, blockAt_cons, hjoin a b heq,
      ih (pairwise_cons.mp h1).2 (pairwise_cons.mp h2).2, ← heq]
    split_ifs
    · rfl
    · rfl
  | case4 a l1 b l2 hne hlt ih =>
    rw [blockAt_cons, ih (pairwise_cons.mp h1).2 h2]
    split_ifs with hk
    · -- the second list starts behind the place
      have hnone : blockAt start k (b :: l2) = none :=
        blockAt_eq_none_of_lt fun c hc => h2.lt_of_mem (hk ▸ hlt) hc
      rw [hnone, blockAt_cons, if_pos hk]
      rfl
    · rw [blockAt_cons (l := l1), if_neg hk]
  | case5 a l1 b l2 hne hlt ih =>
    have hlt : start b < start a := lt_of_le_of_ne (not_lt.mp hlt) (Ne.symm hne)
    rw [blockAt_cons, ih h1 (pairwise_cons.mp h2).2]
    split_ifs with hk
    · have hnone : blockAt start k (a :: l1) = none :=
        blockAt_eq_none_of_lt fun c hc => h1.lt_of_mem (hk ▸ hlt) hc
      rw [hnone, blockAt_cons (l := l2), if_pos hk]
      rfl
    · rw [blockAt_cons (l := l2), if_neg hk]

end Outer

/-! ## Inner merge -/

section Inner

variable {join : α → α → Option α}
  (hjoin : ∀ a b c, start a = start b → join a b = some c → start c = start a)
include hjoin

theorem start_of_mem_innerMerge (h : a ∈ innerMerge start join l1 l2) :
    ∃ b ∈ l1, start b = start a := by
  fun_induction innerMerge start join l1 l2 with
  | case1 l2 => cases h
  | case2 b l1 => cases h
  | case3 b l1 c l2 heq ih =>
    rcases mem_append.mp h with h | h
    · exact ⟨b, mem_cons_self, (hjoin b c a heq (Option.mem_toList.mp h)).symm⟩
    · simp [ih, h]
  | case4 b l1 c l2 hne hlt ih => exact ih h
  | case5 b l1 c l2 hne hlt ih =>
    simp [ih, h]

theorem startsAscend_innerMerge (h1 : StartsAscend start l1) :
    StartsAscend start (innerMerge start join l1 l2) := by
  fun_induction innerMerge start join l1 l2 with
  | case1 l2 => exact .nil
  | case2 a l1 => exact .nil
  | case3 a l1 b l2 heq ih =>
    obtain ⟨ha, h1⟩ := pairwise_cons.mp h1
    cases hj : join a b with
    | none => exact ih h1
    | some c =>
      refine pairwise_cons.mpr ⟨fun d hd => ?_, ih h1⟩
      obtain ⟨e, he, hs⟩ := start_of_mem_innerMerge hjoin hd
      rw [hjoin a b c heq hj, ← hs]
      exact ha e he
  | case4 a l1 b l2 hne hlt ih => exact ih h1
  | case5 a l1 b l2 hne hlt ih => exact ih (pairwise_cons.mp h1).2

theorem blockAt_innerMerge (h1 : StartsAscend start l1) (h2 : StartsAscend start l2) :
    blockAt start k (innerMerge start join l1 l2) =
      (blockAt start k l1).bind fun a => (blockAt start k l2).bind (join a) := by
  fun_induction innerMerge start join l1 l2 with
  | case1 l2 => simp
  | case2 a l1 => simp
  | case3 a l1 b l2 heq ih =>
    obtain ⟨ha, h1'⟩ := pairwise_cons.mp h1
    have hrest := ih h1' (pairwise_cons.mp h2).2
    rw [blockAt_cons (l := l1), blockAt_cons (l := l2), ← heq]
    by_cases hk : start a = k
    · simp only [if_pos hk, Option.bind_some]
      -- nothing behind the two blocks starts at the place
      have hnone : blockAt start k (innerMerge start join l1 l2) = none := by
        refine blockAt_eq_none.mpr fun c hc => ?_
        obtain ⟨d, hd, hs⟩ := start_of_mem_innerMerge hjoin hc
        exact hs ▸ hk ▸ (ha d hd).ne'
      cases hj : join a b with
      | none => exact hnone
      | some c =>
        simp [blockAt_cons, if_pos ((hjoin a b c heq hj).trans hk)]
    · simp only [if_neg hk]
      rw [← hrest]
      cases hj : join a b with
      | none => rfl
      | some c =>
        simp [blockAt_cons, if_neg (hjoin a b c heq hj ▸ hk)]
  | case4 a l1 b l2 hne hlt ih =>
    rw [ih h1 (pairwise_cons.mp h2).2, blockAt_cons (l := l2)]
    split_ifs with hk
    · have hnone : blockAt start k (a :: l1) = none :=
        blockAt_eq_none_of_lt fun c hc => h1.lt_of_mem (hk ▸ hlt) hc
      rw [hnone]
      rfl
    · rfl
  | case5 a l1 b l2 hne hlt ih =>
    have hlt : start a < start b := lt_of_le_of_ne (not_lt.mp hlt) hne
    rw [ih (pairwise_cons.mp h1).2 h2, blockAt_cons (l := l1)]
    split_ifs with hk
    · have hnone : blockAt start k (b :: l2) = none :=
        blockAt_eq_none_of_lt fun c hc => h2.lt_of_mem (hk ▸ hlt) hc
      simp [hnone]
    · rfl

end Inner

end Lib
