import Mathlib.Data.List.Nodup
import Mathlib.Data.List.Pairwise

/-! Scanning a chain with an early exit: walk a list, report the elements that
`hit`, and give up at the first element that `stop`s without hitting. On a
chain whose order makes `stop` conclusive nothing is missed. -/
namespace Lib

open List

variable {α : Type*}

/-- The suffix that starts at the first hit; `[]` when there is none. -/
def scan (hit stop : α → Bool) : List α → List α
  | [] => []
  | a :: l => if hit a then a :: l else if stop a then [] else scan hit stop l

/-- All hits up to the first stop. -/
def scanAll (hit stop : α → Bool) : List α → List α
  | [] => []
  | a :: l => if hit a then a :: scanAll hit stop l else if stop a then [] else scanAll hit stop l

/-- Change the first hit. -/
def scanModify (hit stop : α → Bool) (f : α → α) : List α → List α
  | [] => []
  | a :: l => if hit a then f a :: l else if stop a then a :: l else a :: scanModify hit stop f l

variable {hit stop : α → Bool} {l : List α}

theorem scan_cases (hit stop : α → Bool) (l : List α) :
    scan hit stop l = [] ∨ ∃ a rest, scan hit stop l = a :: rest ∧ hit a = true ∧ a ∈ l := by
  induction l with
  | nil => exact .inl rfl
  | cons a l ih =>
    simp only [scan]
    split
    · rename_i h
      exact .inr ⟨a, l, rfl, h, by simp⟩
    · split
      · exact .inl rfl
      · refine ih.imp id ?_
        simp_all

/-- `scanAll` is what repeated scanning visits: the first hit, then the hits
of the rest of the chain behind it. -/
theorem scanAll_eq_scan : scanAll hit stop l = match scan hit stop l with
      | [] => []
      | a :: rest => a :: scanAll hit stop rest := by
  induction l with
  | nil => rfl
  | cons a l ih =>
    simp only [scanAll, scan]
    split
    · rfl
    · split
      · rfl
      · exact ih

/-- When no hit stands behind a stop, the early exit loses nothing. -/
theorem scanAll_eq_filter (h : l.Pairwise fun a b => stop a = true → hit b = false) :
    scanAll hit stop l = l.filter hit := by
  induction l with
  | nil => rfl
  | cons a l ih =>
    obtain ⟨ha, hl⟩ := pairwise_cons.mp h
    by_cases hit_a : hit a = true
    · simp [scanAll, hit_a, ih hl]
    · by_cases stop_a : stop a = true
      · have hnone : l.filter hit = [] := by
          simpa [stop_a] using ha
        simp [scanAll, hit_a, stop_a, hnone]
      · simp [scanAll, hit_a, stop_a, ih hl]

variable {f : α → α} {l1 l2 : List α} {κ β : Type*} {i : Nat} {key : α → κ}

theorem map_ite_eq_self {p : α → Prop} [DecidablePred p] (h : ∀ a ∈ l, ¬p a) :
    (l.map fun a => if p a then f a else a) = l := by
  calc l.map _ = l.map id := map_congr_left fun a ha => if_neg (h a ha)
    _ = l := map_id l

variable {a : α}

theorem map_ite_split [DecidableEq κ] (hnd : ((l1 ++ a :: l2).map key).Nodup) (f : α → α) :
    ((l1 ++ a :: l2).map fun b => if key b = key a then f b else b) = l1 ++ f a :: l2 := by
  have hother : ∀ b ∈ l1 ++ l2, key b ≠ key a := by
    intro b hb heq
    have hnd' := ((perm_middle.map key).nodup_iff).mp hnd
    rw [map_cons, nodup_cons] at hnd'
    exact hnd'.1 (mem_map.mpr ⟨b, hb, heq⟩)
  rw [map_append, map_cons, if_pos rfl, map_ite_eq_self fun b hb => hother b (by simp [hb]),
    map_ite_eq_self fun b hb => hother b (by simp [hb])]

theorem scanModify_eq_map (h : l.Pairwise fun a b => stop a = true → hit b = false)
    (hone : l.Pairwise fun a b => hit a = true → hit b = false) :
    scanModify hit stop f l = l.map fun a => if hit a then f a else a := by
  induction l with
  | nil => rfl
  | cons a l ih =>
    obtain ⟨ha, hl⟩ := pairwise_cons.mp h
    obtain ⟨hone_a, hone⟩ := pairwise_cons.mp hone
    by_cases hit_a : hit a = true
    · have hsame := map_ite_eq_self (p := fun b => hit b = true) (f := f) (l := l) fun b hb => by
        simp [hone_a b hb hit_a]
      simp [scanModify, hit_a, hsame]
    · by_cases stop_a : stop a = true
      · have hsame := map_ite_eq_self (p := fun b => hit b = true) (f := f) (l := l) fun b hb => by
          simp [ha b hb stop_a]
        simp [scanModify, hit_a, stop_a, hsame]
      · simp [scanModify, hit_a, stop_a, ih hl hone]

/-- The first hit is the first of all hits. -/
theorem scan_head?_eq (h : l.Pairwise fun a b => stop a = true → hit b = false) :
    (scan hit stop l).head? = (l.filter hit).head? := by
  rw [← scanAll_eq_filter h, scanAll_eq_scan]
  cases scan hit stop l with
  | nil => rfl
  | cons a rest => rfl

theorem scan_suffix (hit stop : α → Bool) (l : List α) : scan hit stop l <:+ l := by
  induction l with
  | nil => exact suffix_rfl
  | cons a l ih =>
    simp only [scan]
    split
    · exact suffix_rfl
    · split
      · exact nil_suffix
      · exact ih.trans (suffix_cons a l)

theorem scanModify_split {rest : List α} (h : scan hit stop l = a :: rest) :
    ∃ l1, l = l1 ++ a :: rest ∧ scanModify hit stop f l = l1 ++ f a :: rest := by
  induction l with
  | nil => cases h
  | cons b l ih =>
    rw [scan] at h
    rw [scanModify]
    by_cases hb : hit b = true
    · simp_all
    · rw [if_neg hb] at h ⊢
      by_cases hstop : stop b = true
      · rw [if_pos hstop] at h
        cases h
      · rw [if_neg hstop] at h ⊢
        obtain ⟨l1, hl, hmodify⟩ := ih h
        exact ⟨b :: l1, by rw [hl]; rfl, by rw [hmodify]; rfl⟩

/-- What the change leaves alone is the same for all elements. -/
theorem map_scanModify {g : α → β} (hf : ∀ a, g (f a) = g a) (l : List α) :
    (scanModify hit stop f l).map g = l.map g := by
  induction l with
  | nil => rfl
  | cons a l ih =>
    rw [scanModify]
    split_ifs
    · rw [map_cons, map_cons, hf]
    · rfl
    · rw [map_cons, map_cons, ih]

theorem scanModify_of_forall (h : ∀ a ∈ l, hit a = false) : scanModify hit stop f l = l := by
  induction l with
  | nil => rfl
  | cons a l ih =>
    rw [scanModify, h a (by simp), ih fun b hb => h b (mem_cons_of_mem _ hb)]
    simp

theorem scanModify_append (h : ∀ b ∈ l1, hit b = false ∧ stop b = false) (ha : hit a = true) :
    scanModify hit stop f (l1 ++ a :: l2) = l1 ++ f a :: l2 := by
  induction l1 with
  | nil => simp [scanModify, if_pos ha]
  | cons b l1 ih =>
    obtain ⟨hb, hstop⟩ := h b (by simp)
    simp [scanModify, hb, hstop, ih fun c hc => h c (mem_cons_of_mem _ hc)]

theorem filter_eq_singleton (h : l.Pairwise fun a b => ¬(hit a = true ∧ hit b = true)) (ha : a ∈ l)
    (hit_a : hit a = true) : l.filter hit = [a] := by
  induction l with
  | nil => cases ha
  | cons b l ih =>
    obtain ⟨hb, hl⟩ := pairwise_cons.mp h
    rcases mem_cons.mp ha with rfl | ha
    · simp_all
    · rw [filter_cons_of_neg fun hit_b => hb a ha ⟨hit_b, hit_a⟩, ih hl ha]

variable {chains : List (List α)}

theorem flatten_set (hi : i < chains.length) (c : List α) : (chains.set i c).flatten =
      (chains.take i).flatten ++ c ++ (chains.drop (i + 1)).flatten := by
  rw [set_eq_take_append_cons_drop, if_pos hi]
  simp

/-- Adding an element to one chain adds it to the table. -/
theorem flatten_modify_perm (hi : i < chains.length)
    {g : List α → List α} {x : α} (hg : ∀ c, (g c).Perm (x :: c)) :
    (chains.modify i g).flatten.Perm (x :: chains.flatten) := by
  induction chains generalizing i with
  | nil => simp at hi
  | cons c chains ih =>
    cases i with
    | zero =>
      exact (hg c).append_right _
    | succ i =>
      exact ((ih (by simpa using hi)).append_left c).trans perm_middle

theorem flatten_filter_of_slot {h : Nat}
    (hslot : ∀ i, ∀ a ∈ chains.getD i [], hit a = true → i = h) :
    chains.flatten.filter hit = (chains.getD h []).filter hit := by
  induction chains generalizing h with
  | nil => simp
  | cons c chains ih =>
    have hfirst : ∀ a ∈ c, hit a = true → 0 = h := fun a ha => hslot 0 a (by simpa using ha)
    have hrest : ∀ i, ∀ a ∈ chains.getD i [], hit a = true → i + 1 = h := fun i a ha =>
      hslot (i + 1) a (by simpa using ha)
    cases h with
    | zero =>
      have hnone : chains.flatten.filter hit = [] := by
        rw [filter_eq_nil_iff]
        intro a ha hit_a
        obtain ⟨c', hc', hac'⟩ := mem_flatten.mp ha
        obtain ⟨i, hi⟩ := mem_iff_getElem?.mp hc'
        have := hrest i a (by simpa [hi] using hac') hit_a
        omega
      simp [hnone]
    | succ h =>
      have hnone : c.filter hit = [] := by
        rw [filter_eq_nil_iff]
        intro a ha hit_a
        have := hfirst a ha hit_a
        omega
      simp [hnone, ih fun i a ha hit_a => Nat.succ.inj (hrest i a ha hit_a)]

/-- Collecting the elements of one key after another collects those whose key is
among the keys. -/
theorem flatMap_filter_perm [DecidableEq κ] {keys : List κ} (hkeys : keys.Nodup) (l : List α) :
    (keys.flatMap fun k => l.filter fun a => key a = k).Perm
      (l.filter fun a => decide (key a ∈ keys)) := by
  induction keys with
  | nil => simp
  | cons k keys ih =>
    obtain ⟨hk, hkeys⟩ := nodup_cons.mp hkeys
    have hsplit := filter_append_perm (fun a => decide (key a = k))
      (l.filter fun a => decide (key a ∈ k :: keys))
    rw [filter_filter, filter_filter] at hsplit
    have hfirst : (l.filter fun a => decide (key a = k) && decide (key a ∈ k :: keys)) =
        l.filter fun a => key a = k := by
      apply filter_congr
      intro a _
      by_cases h : key a = k <;> simp [h]
    have hrest : (l.filter fun a => !decide (key a = k) && decide (key a ∈ k :: keys)) =
        l.filter fun a => decide (key a ∈ keys) := by
      apply filter_congr
      intro a _
      by_cases h : key a = k
      · simp [h, hk]
      · simp [h]
    rw [hfirst, hrest] at hsplit
    exact ((ih hkeys).append_left _).trans hsplit

/-- If the lists of the elements have nothing in common, an entry tells whose list it is
on. -/
theorem eq_of_mem_flatMap {f : α → List β} (h : (l.flatMap f).Nodup)
    {a b : α} {x : β} (ha : a ∈ l) (hb : b ∈ l) (hxa : x ∈ f a) (hxb : x ∈ f b) : a = b := by
  by_contra hne
  have : Std.Symm (Function.onFun (@List.Disjoint β) f) := ⟨fun _ _ h => disjoint_symm h⟩
  exact (nodup_flatMap.mp h).2.forall ha hb hne hxa hxb

theorem idxOf?_eq_some_iff [BEq α] [LawfulBEq α] :
    l.idxOf? a = some i ↔ ∃ s t, l = s ++ a :: t ∧ a ∉ s ∧ s.length = i := by
  constructor
  · intro h
    obtain ⟨hi, ha, hbefore⟩ := findIdx?_eq_some_iff_getElem.mp h
    refine ⟨l.take i, l.drop (i + 1), ?_, ?_, length_take_of_le (Nat.le_of_lt hi)⟩
    · simp [← eq_of_beq ha]
    · intro hmem
      obtain ⟨j, hj, rfl⟩ := getElem_of_mem hmem
      have hlt : j < i := by
        rw [length_take] at hj
        omega
      exact hbefore j hlt (by simp)
  · rintro ⟨s, t, rfl, ha, rfl⟩
    refine findIdx?_eq_some_iff_getElem.mpr ⟨by simp, by simp, fun j hj => ?_⟩
    rw [getElem_append_left hj, beq_iff_eq]
    intro heq
    exact ha (heq ▸ getElem_mem hj)

end Lib
