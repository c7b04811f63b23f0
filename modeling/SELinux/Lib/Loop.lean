import SELinux.Lib.Pool

/-! Rules for loops over a list: loops that can fail and whose steps add facts to
their state, and loops that test every element. -/
namespace Lib

open List

variable {σ α ε φ : Type*} {l : List α}

/-- If every step of the loop succeeds and adds its facts, the loop succeeds and
adds those of all elements. -/
theorem foldlM_pool {f : σ → α → Except ε σ} (ready : σ → Prop) (facts : σ → Set φ)
    {added : α → Set φ} (hstep : ∀ a ∈ l, ∀ s, ready s →
      ∃ s', f s a = .ok s' ∧ ready s' ∧ facts s' = facts s ∪ added a) {s : σ} (hs : ready s) :
    ∃ s', l.foldlM f s = .ok s' ∧ ready s' ∧ facts s' = facts s ∪ pool added l := by
  induction l generalizing s with
  | nil => exact ⟨s, rfl, hs, by simp⟩
  | cons a l ih =>
    obtain ⟨s1, hf, hs1, hfacts1⟩ := hstep a (by simp) s hs
    obtain ⟨s2, hfold, hs2, hfacts2⟩ := ih (fun b hb => hstep b (by simp [hb])) hs1
    refine ⟨s2, ?_, hs2, ?_⟩
    · rw [foldlM_cons, hf]
      exact hfold
    · rw [hfacts2, hfacts1, pool_cons, Set.union_assoc]

variable {P : σ → Prop} {f : σ → α → σ} {Q : α → Prop} {s s' : σ}

/-- If every step keeps `P` exactly when its element passes a test, the loop keeps
`P` exactly when all elements pass. -/
theorem foldl_iff (hstep : ∀ a ∈ l, ∀ s, P (f s a) ↔ P s ∧ Q a) (s : σ) :
    P (l.foldl f s) ↔ P s ∧ ∀ a ∈ l, Q a := by
  induction l generalizing s with
  | nil => simp
  | cons a l ih =>
    simp [ih (fun b hb => hstep b (by simp [hb])), hstep a (by simp), and_assoc]

/-- If every step establishes `P` exactly when its element passes a test, the loop does so
exactly when some element passes. -/
theorem foldl_iff_exists (hstep : ∀ a ∈ l, ∀ s, P (f s a) ↔ P s ∨ Q a) (s : σ) :
    P (l.foldl f s) ↔ P s ∨ ∃ a ∈ l, Q a := by
  induction l generalizing s with
  | nil => simp
  | cons a l ih =>
    simp [ih (fun b hb => hstep b (by simp [hb])), hstep a (by simp), or_assoc]

theorem foldl_inv (hstep : ∀ s a, P s → P (f s a)) (hs : P s) : P (l.foldl f s) := by
  induction l generalizing s with
  | nil => exact hs
  | cons a l ih => exact ih (hstep s a hs)

variable {f : σ → α → Option σ}

/-- If every step that succeeds adds to a record of what was done, a loop that succeeds adds what
all elements do. -/
theorem foldlM_record {β : Type*} {P : List β → σ → Prop} {g : α → List β} {D : α → Prop}
    (hstep : ∀ record s s' a, P record s → f s a = some s' → P (record ++ g a) s' ∧ D a)
    {record : List β} (hs : P record s) (hfold : l.foldlM f s = some s') :
    P (record ++ l.flatMap g) s' ∧ ∀ a ∈ l, D a := by
  induction l generalizing record s with
  | nil =>
    cases hfold
    simpa using hs
  | cons a l ih =>
    obtain ⟨s1, hf, hfold⟩ := Option.bind_eq_some_iff.mp hfold
    obtain ⟨hs1, ha⟩ := hstep record s s1 a hs hf
    obtain ⟨hs', hl⟩ := ih hs1 hfold
    simp_all

/-- An invariant about what has been done so far holds after a loop that succeeds. -/
theorem foldlM_done {P : List α → σ → Prop}
    (hstep : ∀ l1 a l2 s s', l1 ++ a :: l2 = l → P l1 s → f s a = some s' → P (l1 ++ [a]) s')
    (hs : P [] s) (h : l.foldlM f s = some s') : P l s' := by
  have hgen : ∀ (l2 l1 : List α) (s : σ), l1 ++ l2 = l → P l1 s → l2.foldlM f s = some s' →
      P l s' := by
    intro l2
    induction l2 with
    | nil =>
      intro l1 s hl hs h
      cases h
      rwa [← hl, append_nil]
    | cons a l2 ih =>
      intro l1 s hl hs h
      obtain ⟨s1, hf, h⟩ := Option.bind_eq_some_iff.mp h
      have hs1 := hstep l1 a l2 s s1 hl hs hf
      exact ih (l1 ++ [a]) s1 (by rw [append_assoc]; exact hl) hs1 h
  exact hgen l [] s rfl hs h

theorem foldlM_inv (hstep : ∀ a ∈ l, ∀ s s', P s → f s a = some s' → P s') (hs : P s)
    (h : l.foldlM f s = some s') : P s' :=
  foldlM_done (P := fun _ => P) (fun _ a _ s s' hl => hstep a (by simp [← hl]) s s') hs h

/-- If every step succeeds and adds elements, the loop succeeds and adds those of all steps. -/
theorem foldlM_adds {mem : φ → σ → Prop} {added : α → φ → Prop}
    (hstep : ∀ a ∈ l, ∀ s, ∃ s', f s a = some s' ∧ ∀ x, mem x s' ↔ mem x s ∨ added a x) (s : σ) :
    ∃ s', l.foldlM f s = some s' ∧ ∀ x, mem x s' ↔ mem x s ∨ ∃ a ∈ l, added a x := by
  induction l generalizing s with
  | nil => exact ⟨s, rfl, by simp⟩
  | cons a l ih =>
    obtain ⟨s1, hf, hs1⟩ := hstep a (by simp) s
    obtain ⟨s2, hfold, hs2⟩ := ih (fun b hb => hstep b (by simp [hb])) s1
    refine ⟨s2, ?_, fun x => ?_⟩
    · rw [foldlM_cons, hf]
      exact hfold
    · rw [hs2, hs1, or_assoc]
      simp

/-- A bit of a vector that is or-ed together. -/
theorem getLsbD_foldr_or {w : Nat} (f : α → BitVec w) (l : List α) (b : Nat) :
    (l.foldr (fun a v => f a ||| v) 0).getLsbD b = true ↔ ∃ a ∈ l, (f a).getLsbD b = true := by
  induction l with
  | nil => simp
  | cons a l ih =>
    simp_all

/-- If a step keeps `P` just when it meets a condition, all states of a loop have `P` just when all
its steps meet the condition. The invariant `I` may be needed to see it. -/
theorem foldl_prefixes_iff {f : σ → α → σ} {I P : σ → Prop} {Q : σ → α → Prop}
    (hI : ∀ s a, I s → I (f s a)) (hstep : ∀ s a, I s → P s → (P (f s a) ↔ Q s a))
    (hs : I s) (hP : P s) :
    (∀ l1, l1 <+: l → P (l1.foldl f s)) ↔ ∀ l1 a, l1 ++ [a] <+: l → Q (l1.foldl f s) a := by
  induction l generalizing s with
  | nil => simp [hP]
  | cons x l ih =>
    constructor
    · intro h
      have hx : P (f s x) := h [x] (by simp)
      have hrest := (ih (hI s x hs) hx).mp fun l1 hl1 => h (x :: l1) ((prefix_cons_inj x).mpr hl1)
      intro l1 a hl1
      cases l1 with
      | nil =>
        simp_all
      | cons y l1 =>
        simp_all
    · intro h
      have hx : P (f s x) := (hstep s x hs hP).mpr (h [] x (by simp))
      have hrest := (ih (hI s x hs) hx).mpr fun l1 a hl1 =>
        h (x :: l1) a ((prefix_cons_inj x).mpr hl1)
      intro l1 hl1
      cases l1 with
      | nil => exact hP
      | cons y l1 =>
        obtain ⟨hyx, htail⟩ := cons_prefix_cons.mp hl1
        rw [hyx]
        exact hrest l1 htail

end Lib
