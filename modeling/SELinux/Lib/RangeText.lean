import Mathlib.Algebra.BigOperators.Group.List.Basic
import Mathlib.Algebra.GroupWithZero.Nat

/-! Sets of numbers that are printed as ranges: how an ascending list is cut into intervals with one
number of lookahead, how texts are printed one after another into a buffer of fixed size, and how
a hexadecimal number is read back. -/
namespace Lib

open List Option

/-! ## Intervals -/

/-- The intervals of an ascending list. `more` tells of a number whether the next one belongs to the
list too, and an interval may be open from a number on. -/
def intervals (more : Nat → Bool) : Option Nat → List Nat → List (Nat × Nat)
  | _, [] => []
  | start, x :: l =>
    if more x then intervals more (some (start.getD x)) l else (start.getD x, x) ::
      intervals more none l

/-- The number is in one of the intervals. -/
def Covered (rs : List (Nat × Nat)) (v : Nat) : Prop := ∃ r ∈ rs, r.1 ≤ v ∧ v ≤ r.2

/-- The lookahead is right about an ascending list. -/
structure Cuts (more : Nat → Bool) (l : List Nat) : Prop where
  sorted : l.Pairwise (· < ·)
  more : ∀ x ∈ l, more x = true ↔ x + 1 ∈ l

section Intervals

variable {more : Nat → Bool} {start : Option Nat} {l : List Nat} {x : Nat}

theorem covered_cons {r : Nat × Nat} {rs : List (Nat × Nat)} {v : Nat} :
    Covered (r :: rs) v ↔ (r.1 ≤ v ∧ v ≤ r.2) ∨ Covered rs v := exists_mem_cons_iff ..

theorem Cuts.tail (h : Cuts more (x :: l)) : Cuts more l where
  sorted := (pairwise_cons.mp h.sorted).2
  more y hy := by
    have hlt := (pairwise_cons.mp h.sorted).1 y hy
    rw [h.more y (mem_cons_of_mem x hy), mem_cons]
    exact or_iff_right (by omega)

theorem Cuts.head (h : Cuts more (x :: l)) (hmore : more x = true) : ∃ t, l = (x + 1) :: t := by
  obtain ⟨hfirst, hsorted⟩ := pairwise_cons.mp h.sorted
  have hnext : x + 1 ∈ l := by
    rcases mem_cons.mp ((h.more x mem_cons_self).mp hmore) with heq | hmem
    · omega
    · exact hmem
  cases l with
  | nil => exact absurd hnext not_mem_nil
  | cons y t =>
    rcases mem_cons.mp hnext with heq | hmem
    · exact ⟨t, by rw [heq]⟩
    · have := hfirst y mem_cons_self
      have := (pairwise_cons.mp hsorted).1 _ hmem
      omega

theorem Cuts.gap (h : Cuts more (x :: l)) (hmore : more x ≠ true) : ∀ y ∈ l, x + 2 ≤ y := by
  intro y hy
  have hlt := (pairwise_cons.mp h.sorted).1 y hy
  by_contra hle
  obtain rfl : y = x + 1 := by omega
  exact hmore ((h.more x mem_cons_self).mpr (mem_cons_of_mem x hy))

theorem covered_intervals (h : Cuts more l) (hopen : ∀ s ∈ start, ∃ y ∈ l.head?, s ≤ y) {v : Nat} :
    Covered (intervals more start l) v ↔ v ∈ l ∨ ∃ s ∈ start, s ≤ v ∧ ∀ y ∈ l.head?, v < y := by
  induction l generalizing start with
  | nil =>
    have hnone : start = none := eq_none_iff_forall_not_mem.mpr fun s hs => by
      obtain ⟨y, hy, -⟩ := hopen s hs
      cases hy
    simp [intervals, Covered, hnone]
  | cons x l ih =>
    have hstart : start.getD x ≤ x := by
      cases start with
      | none => exact Nat.le_refl x
      | some s => simpa using hopen s rfl
    have hhead : (start.getD x ≤ v ∧ v ≤ x) ↔ v = x ∨ ∃ s ∈ start, s ≤ v ∧ v < x := by
      cases start with
      | none =>
        simp only [getD_none, mem_def, reduceCtorEq, false_and, exists_const, or_false]
        omega
      | some s =>
        simp only [getD_some, mem_def, some.injEq, exists_eq_left'] at hstart ⊢
        omega
    have hgoal : (v ∈ x :: l ∨ ∃ s ∈ start, s ≤ v ∧ ∀ y ∈ (x :: l).head?, v < y) ↔
        (start.getD x ≤ v ∧ v ≤ x) ∨ v ∈ l := by
      rw [hhead, mem_cons]
      simp only [head?_cons, mem_def, some.injEq, forall_eq']
      exact ⟨by rintro ((h | h) | h) <;> simp [h], by rintro ((h | h) | h) <;> simp [h]⟩
    rw [hgoal, intervals]
    split_ifs with hmore
    · obtain ⟨t, rfl⟩ := h.head hmore
      rw [ih h.tail fun s hs => ⟨x + 1, rfl, by obtain rfl := mem_some.mp hs; omega⟩]
      simp only [head?_cons, mem_def, some.injEq, exists_eq_left', forall_eq',
        Nat.lt_succ_iff]
      exact or_comm
    · rw [covered_cons, ih h.tail fun s hs => by cases hs]
      simp

theorem intervals_le (h : Cuts more l) (hopen : ∀ s ∈ start, ∃ y ∈ l.head?, s ≤ y) :
    ∀ r ∈ intervals more start l, r.1 ≤ r.2 ∧ r.2 ∈ l := by
  induction l generalizing start with
  | nil => exact fun r hr => absurd hr not_mem_nil
  | cons x l ih =>
    have hstart : start.getD x ≤ x := by
      cases start with
      | none => exact Nat.le_refl x
      | some s => simpa using hopen s rfl
    rw [intervals]
    split_ifs with hmore
    · obtain ⟨t, rfl⟩ := h.head hmore
      intro r hr
      have hr' := ih h.tail (fun s hs => ⟨x + 1, rfl, by obtain rfl := mem_some.mp hs; omega⟩) r hr
      exact ⟨hr'.1, mem_cons_of_mem x hr'.2⟩
    · rw [forall_mem_cons]
      refine ⟨⟨hstart, mem_cons_self⟩, fun r hr => ?_⟩
      have hr' := ih h.tail (fun s hs => by cases hs) r hr
      exact ⟨hr'.1, mem_cons_of_mem x hr'.2⟩

/-- Every interval has a number behind it that is in none. -/
theorem sum_intervals_le (h : Cuts more l) {n k : Nat} (hn : ∀ x ∈ l, x < n) (hk : ∀ x ∈ l, k ≤ x)
    (hkn : k ≤ n + 1) (hopen : ∀ s ∈ start, s ≤ k) :
    ((intervals more start l).map fun r => r.2 + 2 - r.1).sum + start.getD k ≤ n + 1 := by
  induction l generalizing start k with
  | nil =>
    rw [intervals, map_nil, sum_nil]
    cases start with
    | none => simpa using hkn
    | some s =>
      have := hopen s rfl
      rw [getD_some]
      omega
  | cons x l ih =>
    have hx := hn x mem_cons_self
    have hkx := hk x mem_cons_self
    have hn' : ∀ y ∈ l, y < n := fun y hy => hn y (mem_cons_of_mem x hy)
    have hstart : start.getD k ≤ start.getD x ∧ start.getD x ≤ x := by
      cases start with
      | none => exact ⟨hkx, Nat.le_refl x⟩
      | some s => exact ⟨Nat.le_refl s, Nat.le_trans (hopen s rfl) hkx⟩
    rw [intervals]
    split_ifs with hmore
    · have hopen' : ∀ s ∈ some (start.getD x), s ≤ x + 1 := fun s hs => by
        obtain rfl := mem_some.mp hs
        omega
      have hrest := ih h.tail hn' (fun y hy => (pairwise_cons.mp h.sorted).1 y hy) (by omega) hopen'
      rw [getD_some] at hrest
      omega
    · have hopen' : ∀ s ∈ none, s ≤ x + 2 := fun s hs => by cases hs
      have hrest := ih h.tail hn' (h.gap hmore) (by omega) hopen'
      rw [getD_none] at hrest
      rw [map_cons, sum_cons]
      omega

end Intervals

/-! ## Printing into a buffer -/

/-- A text is printed behind another one, if there is room for both and for the byte that ends
them. -/
def printTo (size : Nat) (text item : List Char) : Option (List Char) :=
  if size ≤ text.length + item.length then none else some (text ++ item)

theorem foldlM_printTo (size : Nat) (items : List (List Char)) {text : List Char}
    (h : text.length < size ∨ items ≠ []) : items.foldlM (printTo size) text =
      if text.length + items.flatten.length < size then some (text ++ items.flatten) else none := by
  induction items generalizing text with
  | nil => simp [h.resolve_right fun hne => hne rfl]
  | cons item items ih =>
    rw [foldlM_cons, printTo, flatten_cons, length_append]
    split_ifs with hfull hfits hfits
    · omega
    · rfl
    · exact (ih (.inl (by rw [length_append]; omega))).trans (by
        rw [length_append, if_pos (by omega), append_assoc])
    · exact (ih (.inl (by rw [length_append]; omega))).trans (by
        rw [length_append, if_neg (by omega)])

/-- Words with blanks between them. -/
theorem intercalate_blank (tokens : List (List Char)) (last : List Char) :
    [' '].intercalate (tokens ++ [last]) = (tokens.map (· ++ [' '])).flatten ++ last := by
  induction tokens with
  | nil => simp [intercalate]
  | cons t tokens ih =>
    cases tokens with
    | nil => simp [intercalate]
    | cons u tokens =>
      simpa using ih

/-! ## Hexadecimal numbers -/

/-- A number as `%x` prints it. -/
def hexText (v : Nat) : List Char := Nat.toDigits 16 v

/-- The value of a digit. -/
def hexDigit (c : Char) : Nat := if c.isDigit then c.toNat - 48 else c.toNat - 87

def hexValue (text : List Char) : Nat := text.foldl (fun n c => 16 * n + hexDigit c) 0

theorem hexDigit_digitChar {d : Nat} (h : d < 16) : hexDigit d.digitChar = d := by
  have hall : ∀ d : Fin 16, hexDigit d.val.digitChar = d.val := by decide
  exact hall ⟨d, h⟩

theorem hexValue_hexText (v : Nat) : hexValue (hexText v) = v := by
  induction v using Nat.strongRecOn with
  | ind v ih =>
    rw [hexText]
    by_cases hv : v < 16
    · rw [Nat.toDigits_of_lt_base hv]
      simpa [hexValue] using hexDigit_digitChar hv
    · have hdiv := ih (v / 16) (by omega)
      rw [hexText] at hdiv
      rw [Nat.toDigits_of_base_le (by decide) (by omega), hexValue, foldl_append]
      rw [hexValue] at hdiv
      simp only [hdiv, foldl_cons, foldl_nil]
      rw [hexDigit_digitChar (Nat.mod_lt v (by decide))]
      omega

theorem mem_hexText {v : Nat} {c : Char} (h : c ∈ hexText v) : ∃ d < 16, c = d.digitChar := by
  induction v using Nat.strongRecOn with
  | ind v ih =>
    rw [hexText] at h
    by_cases hv : v < 16
    · rw [Nat.toDigits_of_lt_base hv, mem_singleton] at h
      exact ⟨v, hv, h⟩
    · rw [Nat.toDigits_of_base_le (by decide) (by omega), mem_append, mem_singleton] at h
      rcases h with h | h
      · exact ih (v / 16) (by omega) h
      · exact ⟨v % 16, Nat.mod_lt v (by decide), h⟩

end Lib
