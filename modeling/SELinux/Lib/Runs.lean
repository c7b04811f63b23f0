import Mathlib.Data.List.Chain

/-! A list is read from left to right and cut into runs: stretches of neighbours that pass a
test. A run is kept with the element that closed it, the first one that does not pass. -/
namespace Lib

open List

/-- A run and the element that closed it. -/
structure Run (α : Type*) where
  first : α
  rest : List α
  close : α

variable {α : Type*}

def Run.members (r : Run α) : List α := r.first :: r.rest

/-- The open run, if there is one, is closed. -/
def closeRun : Option (α × List α) → α → List (Run α)
  | none, _ => []
  | some (first, rest), close => [{ first, rest, close }]

/-- The open run goes on with an element, or a run starts with it. -/
def extendRun : Option (α × List α) → α → α × List α
  | none, x => (x, [])
  | some (first, rest), x => (first, rest ++ [x])

def openMembers : Option (α × List α) → List α
  | none => []
  | some (first, rest) => first :: rest

/-- The runs of a list, from an open run on; `stop` closes the last one. -/
def runs (p : α → Bool) (stop : α) : Option (α × List α) → List α → List (Run α)
  | o, [] => closeRun o stop
  | o, x :: l =>
    if p x then runs p stop (some (extendRun o x)) l else closeRun o x ++ runs p stop none l

section Runs

variable {p : α → Bool} {stop x : α} {o : Option (α × List α)} {l : List α} {r : Run α}

theorem openMembers_extendRun : openMembers (some (extendRun o x)) = openMembers o ++ [x] := by
  cases o <;> rfl

theorem flatMap_closeRun : (closeRun o x).flatMap Run.members = openMembers o := by
  cases o <;> simp [closeRun, openMembers, Run.members]

/-- The runs have the elements that pass the test. -/
theorem flatMap_runs : (runs p stop o l).flatMap Run.members = openMembers o ++ l.filter p := by
  induction l generalizing o with
  | nil => simp [runs, flatMap_closeRun]
  | cons x l ih =>
    rw [runs]
    split_ifs with hx
    · simp [ih, openMembers_extendRun, filter_cons_of_pos hx]
    · rw [flatMap_append, flatMap_closeRun, ih, filter_cons_of_neg hx]
      rfl

theorem eq_of_mem_closeRun (h : r ∈ closeRun o x) : r.members = openMembers o ∧ r.close = x := by
  cases o with
  | none => cases h
  | some o =>
    obtain rfl := mem_singleton.mp h
    exact ⟨rfl, rfl⟩

/-- A run and what closed it stand side by side in the list. -/
theorem infix_of_mem_runs (h : r ∈ runs p stop o l) :
    r.members ++ [r.close] <:+: openMembers o ++ l ++ [stop] := by
  induction l generalizing o with
  | nil =>
    obtain ⟨hmembers, hclose⟩ := eq_of_mem_closeRun h
    simp [hmembers, hclose]
  | cons x l ih =>
    rw [runs] at h
    split_ifs at h with hx
    · have := ih h
      rwa [openMembers_extendRun, append_assoc (openMembers o), singleton_append] at this
    · rcases mem_append.mp h with h | h
      · obtain ⟨hmembers, hclose⟩ := eq_of_mem_closeRun h
        refine ⟨[], l ++ [stop], ?_⟩
        simp [hmembers, hclose]
      · refine (ih h).trans ⟨openMembers o ++ [x], [], ?_⟩
        simp [openMembers]

theorem close_of_mem_runs (hstop : p stop = false) (h : r ∈ runs p stop o l) :
    p r.close = false := by
  induction l generalizing o with
  | nil => rw [(eq_of_mem_closeRun h).2, hstop]
  | cons x l ih =>
    rw [runs] at h
    split_ifs at h with hx
    · exact ih h
    · rcases mem_append.mp h with h | h
      · rw [(eq_of_mem_closeRun h).2]
        exact Bool.not_eq_true _ ▸ hx
      · exact ih h

end Runs

/-! ## Walks

A walk goes upwards over numbers and misses none that passes the test; `stop` is where it
ends. -/

structure Walk (p : Nat → Bool) (stop : Nat) (l : List Nat) : Prop where
  sorted : (l ++ [stop]).Pairwise (· < ·)
  mem : ∀ x, p x = true → x ∈ l
  stop : p stop = false

/-- The first element of a list that is greater than a number. -/
def next (l : List Nat) (x : Nat) : Nat := (l.find? fun y => x < y).getD (x + 1)

theorem lt_next (l : List Nat) (x : Nat) : x < next l x := by
  unfold next
  cases h : l.find? fun y => x < y with
  | none => exact Nat.lt_succ_self x
  | some y => simpa using find?_some h

variable {l : List Nat} {x y : Nat}

theorem next_le (hl : l.Pairwise (· < ·)) (hy : y ∈ l) (hxy : x < y) : next l x ≤ y := by
  unfold next
  induction l with
  | nil => cases hy
  | cons z l ih =>
    obtain ⟨hz, hl⟩ := pairwise_cons.mp hl
    rcases mem_cons.mp hy with rfl | hy
    · simp [hxy]
    · have := hz y hy
      by_cases hxz : x < z
      · simp [hxz]
        omega
      · simpa [hxz] using ih hl hy

theorem next_mem (hy : y ∈ l) (hxy : x < y) : next l x ∈ l := by
  unfold next
  cases h : l.find? fun y => x < y with
  | none => exact absurd hxy (by simpa using find?_eq_none.mp h y hy)
  | some z => exact mem_of_find?_eq_some h

theorem next_eq (hl : l.Pairwise (· < ·)) (hy : y ∈ l) (hxy : x < y)
    (hleast : ∀ z ∈ l, x < z → y ≤ z) : next l x = y :=
  Nat.le_antisymm (next_le hl hy hxy) (hleast _ (next_mem hy hxy) (lt_next l x))

theorem chain_next (hl : l.Pairwise (· < ·)) : l.IsChain fun x y => y = next l x := by
  suffices h : ∀ m s : List Nat, l = s ++ m → m.IsChain fun x y => y = next l x from h l [] rfl
  intro m
  induction m with
  | nil => exact fun _ _ => .nil
  | cons x m ih =>
    intro s hs
    cases m with
    | nil => exact .singleton x
    | cons y m =>
      refine isChain_cons_cons.mpr ⟨?_, ih (s ++ [x]) (by simpa using hs)⟩
      rw [hs] at hl
      obtain ⟨-, hsuffix, hpre⟩ := pairwise_append.mp hl
      obtain ⟨hx, hy⟩ := pairwise_cons.mp hsuffix
      rw [hs]
      symm
      refine next_eq hl (by simp) (hx y mem_cons_self) fun z hz hxz => ?_
      rcases mem_append.mp hz with hz | hz
      · have := hpre z hz x mem_cons_self
        omega
      · rcases mem_cons.mp hz with rfl | hz
        · omega
        · rcases mem_cons.mp hz with rfl | hz
          · exact Nat.le_refl _
          · exact Nat.le_of_lt ((pairwise_cons.mp hy).1 z hz)

section Walk

variable {p : Nat → Bool} {stop : Nat} {r : Run Nat}

theorem Walk.not_between (w : Walk p stop l) {a : Nat} (hax : a < x)
    (hx : x < next (l ++ [stop]) a) : p x = false := by
  by_contra hp
  have hmem := w.mem x (Bool.of_not_eq_false hp)
  have := next_le w.sorted (mem_append_left _ hmem) hax
  omega

variable (w : Walk p stop l) (hr : r ∈ runs p stop none l)

include w in
theorem Walk.exists_run (hx : p x = true) : ∃ r ∈ runs p stop none l, x ∈ r.members := by
  have : x ∈ (runs p stop none l).flatMap Run.members := by
    rw [flatMap_runs]
    exact mem_append_right _ (mem_filter.mpr ⟨w.mem x hx, hx⟩)
  exact mem_flatMap.mp this

include hr in
theorem pass_of_mem_run (hx : x ∈ r.members) : p x = true := by
  have : x ∈ (runs p stop none l).flatMap Run.members := mem_flatMap.mpr ⟨r, hr, hx⟩
  rw [flatMap_runs] at this
  exact (mem_filter.mp this).2

include w hr

theorem Walk.chain_run : (r.members ++ [r.close]).IsChain fun x y => y = next (l ++ [stop]) x :=
  List.IsChain.infix (chain_next w.sorted) (infix_of_mem_runs hr)

theorem Walk.pairwise_run : (r.members ++ [r.close]).Pairwise (· < ·) :=
  w.sorted.sublist (infix_of_mem_runs hr).sublist

/-- A run goes on while the next element passes the test. -/
theorem Walk.next_mem_run (hx : x ∈ r.members) (hp : p (next (l ++ [stop]) x) = true) :
    next (l ++ [stop]) x ∈ r.members := by
  have hchain := w.chain_run hr
  have hclose := close_of_mem_runs w.stop hr
  obtain ⟨s, t, hst⟩ := append_of_mem hx
  rw [hst] at hchain ⊢
  rw [append_assoc, cons_append] at hchain
  cases t with
  | nil =>
    rw [← (isChain_append_cons_cons.mp hchain).2.1, hclose] at hp
    cases hp
  | cons b t =>
    rw [← (isChain_append_cons_cons.mp hchain).2.1]
    simp

theorem Walk.next_le_close (hx : x ∈ r.members) : next (l ++ [stop]) x ≤ r.close := by
  have hchain := w.chain_run hr
  have hsorted := w.pairwise_run hr
  obtain ⟨s, t, hst⟩ := append_of_mem hx
  rw [hst, append_assoc, cons_append] at hchain hsorted
  cases t with
  | nil => exact (isChain_append_cons_cons.mp hchain).2.1.ge
  | cons b t =>
    have hb : b = next (l ++ [stop]) x := (isChain_append_cons_cons.mp hchain).2.1
    have htail := (pairwise_cons.mp (pairwise_cons.mp (pairwise_append.mp hsorted).2.1).2).1
    have := htail r.close (by simp)
    omega

theorem Walk.first_le (hx : x ∈ r.members) : r.first ≤ x := by
  rcases mem_cons.mp hx with rfl | hx
  · exact Nat.le_refl _
  · exact Nat.le_of_lt ((pairwise_cons.mp (w.pairwise_run hr)).1 x (mem_append_left _ hx))

theorem Walk.exists_prev (hx : x ∈ r.rest) : ∃ z ∈ r.members, next (l ++ [stop]) z = x := by
  have hchain := w.chain_run hr
  obtain ⟨s, t, hst⟩ := append_of_mem hx
  rw [Run.members, hst] at hchain ⊢
  rcases eq_nil_or_concat s with rfl | ⟨s, z, rfl⟩
  · exact ⟨r.first, mem_cons_self, (isChain_cons_cons.mp hchain).1.symm⟩
  · refine ⟨z, by simp, ?_⟩
    simp only [concat_eq_append, append_assoc, cons_append, nil_append] at hchain
    exact (isChain_append_cons_cons.mp (isChain_cons.mp hchain).2).2.1.symm

theorem Walk.lt_close (hx : x ∈ r.members) : x < r.close :=
  Nat.lt_of_lt_of_le (lt_next _ x) (w.next_le_close hr hx)

end Walk

/-- Without gaps a chain has every number from its first one to its end. -/
theorem mem_of_chain {next : Nat → Nat} {first close : Nat} {rest : List Nat}
    (hchain : (first :: rest ++ [close]).IsChain fun x y => y = next x)
    (hnext : ∀ a ∈ first :: rest, next a = a + 1) (hfirst : first ≤ x) (hclose : x < close) :
    x ∈ first :: rest := by
  induction rest generalizing first with
  | nil =>
    have : close = next first := (isChain_cons_cons.mp hchain).1
    rw [hnext first mem_cons_self] at this
    rw [mem_singleton]
    omega
  | cons g rest ih =>
    obtain ⟨hg, hchain⟩ := isChain_cons_cons.mp hchain
    rw [hnext first mem_cons_self] at hg
    by_cases hx : x = first
    · exact hx ▸ mem_cons_self
    · exact mem_cons_of_mem _
        (ih hchain (fun a ha => hnext a (mem_cons_of_mem _ ha)) (by omega))

/-- The intervals from the start of a run to its close hold nothing else, if and only if no
element that passes is followed by a gap. -/
theorem Walk.intervals_iff {p : Nat → Bool} {stop : Nat} (w : Walk p stop l) :
    (∀ r ∈ runs p stop none l, ∀ x, r.first ≤ x → x < r.close → p x = true) ↔
      ∀ a, p a = true → next (l ++ [stop]) a = a + 1 := by
  constructor
  · intro h a ha
    obtain ⟨r, hr, hmem⟩ := w.exists_run ha
    have hle := w.next_le_close hr hmem
    have hfirst := w.first_le hr hmem
    have hlt := lt_next (l ++ [stop]) a
    by_contra hgap
    have hp := h r hr (a + 1) (by omega) (by omega)
    rw [w.not_between (Nat.lt_succ_self a) (by omega)] at hp
    cases hp
  · intro h r hr x hfirst hclose
    have hmem :=
      mem_of_chain (w.chain_run hr) (fun a ha => h a (pass_of_mem_run hr ha)) hfirst hclose
    exact pass_of_mem_run hr hmem

end Lib
