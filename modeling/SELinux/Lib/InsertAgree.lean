import Mathlib.Data.List.Nodup

/-! Tables in which a key has one entry: an entry that is there is not added again, and another
entry for its key is a conflict. -/
namespace Lib

open List

variable {ε κ : Type*} (key : ε → κ)

/-- Two entries for one key. -/
def Conflict (P : ε → Prop) : Prop := ∃ a b, P a ∧ P b ∧ key a = key b ∧ a ≠ b

theorem not_conflict {key : ε → κ} {t : List ε} (ht : (t.map key).Nodup) :
    ¬ Conflict key (· ∈ t) := by
  rintro ⟨a, b, ha, hb, hkey, hne⟩
  exact hne (inj_on_of_nodup_map ht ha hb hkey)

variable [DecidableEq κ] [DecidableEq ε]

/-- Insert an entry; `none` if its key has another. -/
def insertAgree (t : List ε) (e : ε) : Option (List ε) :=
  match t.find? fun x => decide (key x = key e) with
  | some x => if x = e then some t else none
  | none => some (t ++ [e])

variable {key} {t t' l : List ε} {e : ε}

theorem insertAgree_eq_some (ht : (t.map key).Nodup) (h : insertAgree key t e = some t') :
    (t'.map key).Nodup ∧ ∀ x, x ∈ t' ↔ x ∈ t ∨ x = e := by
  rw [insertAgree] at h
  cases hfind : t.find? fun x => decide (key x = key e) with
  | some x =>
    simp only [hfind] at h
    split_ifs at h with hxe
    have hmem := mem_of_find?_eq_some hfind
    simp_all
  | none =>
    simp only [hfind] at h
    cases h
    rw [map_append, List.nodup_append]
    simpa [ht] using hfind

theorem insertAgree_eq_none (h : insertAgree key t e = none) : ∃ x ∈ t, key x = key e ∧ x ≠ e := by
  rw [insertAgree] at h
  cases hfind : t.find? fun x => decide (key x = key e) with
  | some x =>
    simp only [hfind] at h
    split_ifs at h with hxe
    exact ⟨x, mem_of_find?_eq_some hfind, by simpa using find?_some hfind, hxe⟩
  | none =>
    simp only [hfind] at h
    cases h

/-- The table holds all entries, once each. -/
theorem foldlM_insertAgree_eq_some (ht : (t.map key).Nodup)
    (h : l.foldlM (insertAgree key) t = some t') :
    (t'.map key).Nodup ∧ ∀ x, x ∈ t' ↔ x ∈ t ∨ x ∈ l := by
  induction l generalizing t with
  | nil =>
    cases h
    exact ⟨ht, by simp⟩
  | cons e l ih =>
    obtain ⟨t1, hone, h⟩ := Option.bind_eq_some_iff.mp h
    obtain ⟨ht1, hmem1⟩ := insertAgree_eq_some ht hone
    obtain ⟨ht', hmem⟩ := ih ht1 h
    refine ⟨ht', fun x => ?_⟩
    rw [hmem, hmem1, mem_cons, or_assoc]

/-- Insertion fails exactly at a conflict. -/
theorem foldlM_insertAgree_eq_none (ht : (t.map key).Nodup) :
    l.foldlM (insertAgree key) t = none ↔ Conflict key fun x => x ∈ t ∨ x ∈ l := by
  constructor
  · intro h
    induction l generalizing t with
    | nil => cases h
    | cons e l ih =>
      rw [foldlM_cons] at h
      cases hone : insertAgree key t e with
      | none =>
        obtain ⟨x, hx, hkey, hne⟩ := insertAgree_eq_none hone
        exact ⟨x, e, .inl hx, .inr mem_cons_self, hkey, hne⟩
      | some t1 =>
        obtain ⟨ht1, hmem1⟩ := insertAgree_eq_some ht hone
        rw [hone] at h
        obtain ⟨a, b, ha, hb, hab⟩ := ih ht1 h
        refine ⟨a, b, ?_, ?_, hab⟩
        · rwa [hmem1, or_assoc, ← mem_cons] at ha
        · rwa [hmem1, or_assoc, ← mem_cons] at hb
  · intro hconflict
    cases h : l.foldlM (insertAgree key) t with
    | none => rfl
    | some t' =>
      obtain ⟨ht', hmem⟩ := foldlM_insertAgree_eq_some ht h
      obtain ⟨a, b, ha, hb, hab⟩ := hconflict
      exact absurd ⟨a, b, (hmem a).mpr ha, (hmem b).mpr hb, hab⟩ (not_conflict ht')

/-! ## Loops that insert -/

/-- A step of a program that inserts the entries with `P`, in some order, and that always fails if
`bad`. -/
structure Inserts (key : ε → κ) (bad : Prop) (P : ε → Prop) (f : List ε → Option (List ε)) :
    Prop where
  fails : bad → ∀ t, f t = none
  adds : ¬ bad → ∃ l : List ε, (∀ t, f t = l.foldlM (insertAgree key) t) ∧ ∀ e, e ∈ l ↔ P e

theorem Inserts.one (key : ε → κ) (e : ε) : Inserts key False (· = e) (insertAgree key · e) :=
  ⟨False.elim, fun _ => ⟨[e], fun t => by simp, by simp⟩⟩

variable {f : List ε → Option (List ε)} {bad : Prop} {α : Type*} {P : α → ε → Prop}
  {step : List ε → α → Option (List ε)}

theorem Inserts.fail (key : ε → κ) {P : ε → Prop} (hf : ∀ t, f t = none) : Inserts key True P f :=
  ⟨fun _ => hf, fun h => absurd trivial h⟩

theorem Inserts.congr {bad' : Prop} {P P' : ε → Prop} {f' : List ε → Option (List ε)}
    (h : Inserts key bad P f) (hbad : bad' ↔ bad) (hP : ∀ e, P' e ↔ P e) (hf : ∀ t, f' t = f t) :
    Inserts key bad' P' f' := by
  refine ⟨fun hb t => (hf t).trans (h.fails (hbad.mp hb) t), fun hb => ?_⟩
  obtain ⟨l, hl, hmem⟩ := h.adds (fun h => hb (hbad.mpr h))
  exact ⟨l, fun t => (hf t).trans (hl t), fun e => (hmem e).trans (hP e).symm⟩

/-- A loop of such steps is one. -/
theorem Inserts.loop (as : List α) {bad : α → Prop}
    (h : ∀ a ∈ as, Inserts key (bad a) (P a) (step · a)) :
    Inserts key (∃ a ∈ as, bad a) (fun e => ∃ a ∈ as, P a e) (as.foldlM step ·) := by
  induction as with
  | nil => exact ⟨by simp, fun _ => ⟨[], fun t => rfl, by simp⟩⟩
  | cons a as ih =>
    have hhead := h a mem_cons_self
    have htail := ih fun b hb => h b (mem_cons_of_mem a hb)
    refine ⟨fun hb t => ?_, fun hb => ?_⟩
    · rw [foldlM_cons]
      rcases exists_mem_cons_iff .. |>.mp hb with hb | hb
      · rw [hhead.fails hb]
        rfl
      · cases hstep : step t a with
        | none => rfl
        | some t1 => exact htail.fails hb t1
    · rw [exists_mem_cons_iff, not_or] at hb
      obtain ⟨l, hl, hmem⟩ := hhead.adds hb.1
      obtain ⟨l', hl', hmem'⟩ := htail.adds hb.2
      refine ⟨l ++ l', fun t => ?_, fun e => ?_⟩
      · simp [hl, hl']
      · simp [hmem, hmem']

theorem Inserts.loop_safe (as : List α) (h : ∀ a ∈ as, Inserts key False (P a) (step · a)) :
    Inserts key False (fun e => ∃ a ∈ as, P a e) (as.foldlM step ·) :=
  (Inserts.loop as h).congr (by simp) (fun _ => Iff.rfl) (fun _ => rfl)

theorem Inserts.from_nil {P : ε → Prop} (h : Inserts key bad P f) :
    (∀ t, f [] = some t → (t.map key).Nodup ∧ ∀ e, e ∈ t ↔ P e) ∧
      (f [] = none ↔ bad ∨ Conflict key P) := by
  by_cases hb : bad
  · have hnone := h.fails hb []
    simp [hb, hnone]
  · obtain ⟨l, hl, hmem⟩ := h.adds hb
    obtain rfl : (· ∈ l) = P := funext fun e => propext (hmem e)
    have hnil : (([] : List ε).map key).Nodup := nodup_nil
    refine ⟨fun t ht => ?_, ?_⟩
    · simpa using foldlM_insertAgree_eq_some hnil ((hl []).symm.trans ht)
    · rw [hl, foldlM_insertAgree_eq_none hnil, or_iff_right hb]
      simp

end Lib
