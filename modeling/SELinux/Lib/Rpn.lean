import Mathlib.Data.List.Basic

/-! Expressions in reverse Polish notation. A sequence whose running depth stays in range
and ends at one is the notation of exactly one tree, and every machine that works through
it on a stack computes the value of that tree. -/
namespace Lib.Rpn

open List Option

variable {α υ β ν : Type*}

inductive Sym (α υ β : Type*) where
  | leaf (a : α)
  | un (u : υ)
  | bin (b : β)

inductive Tree (α υ β : Type*) where
  | leaf (a : α)
  | un (u : υ) (t : Tree α υ β)
  | bin (b : β) (l r : Tree α υ β)

/-- The sequence that denotes a tree. -/
def Tree.rpn : Tree α υ β → List (Sym α υ β)
  | .leaf a => [.leaf a]
  | .un u t => t.rpn ++ [.un u]
  | .bin b l r => l.rpn ++ r.rpn ++ [.bin b]

/-- What the symbols mean. -/
structure Reading (α υ β ν : Type*) where
  leaf : α → ν
  un : υ → ν → ν
  bin : β → ν → ν → ν

def Tree.value (R : Reading α υ β ν) : Tree α υ β → ν
  | .leaf a => R.leaf a
  | .un u t => R.un u (t.value R)
  | .bin b l r => R.bin b (l.value R) (r.value R)

/-! ## The stack machine -/

/-- One symbol, on a stack with its top first. -/
def step (R : Reading α υ β ν) : List ν → Sym α υ β → Option (List ν)
  | s, .leaf a => some (R.leaf a :: s)
  | x :: s, .un u => some (R.un u x :: s)
  | y :: x :: s, .bin b => some (R.bin b x y :: s)
  | _, _ => none

def run (R : Reading α υ β ν) : List ν → List (Sym α υ β) → Option (List ν)
  | s, [] => some s
  | s, x :: xs => (step R s x).bind fun s => run R s xs

/-- The depth of the stack after one symbol, if it stays between `0` and the limit. -/
def depthStep (limit d : Nat) : Sym α υ β → Option Nat
  | .leaf _ => if d = limit then none else some (d + 1)
  | .un _ => if d < 1 then none else some d
  | .bin _ => if d < 2 then none else some (d - 1)

def depth (limit : Nat) : Nat → List (Sym α υ β) → Option Nat
  | d, [] => some d
  | d, x :: xs => (depthStep limit d x).bind fun d => depth limit d xs

variable {R : Reading α υ β ν} {limit d : Nat} {s : List ν} {x : Sym α υ β}
  {ts ts' : List (Tree α υ β)}

/-- The machine takes every symbol that the depth allows. -/
theorem step_of_depth
    (h : depthStep limit s.length x = some d) : ∃ s', step R s x = some s' ∧ s'.length = d := by
  cases x with
  | leaf a =>
    simp only [depthStep] at h
    split_ifs at h
    cases h
    exact ⟨_, rfl, rfl⟩
  | un u =>
    simp only [depthStep] at h
    split_ifs at h with hd
    cases h
    match s, hd with
    | x :: s, _ => exact ⟨_, rfl, rfl⟩
    | [], hd => exact absurd Nat.zero_lt_one hd
  | bin b =>
    simp only [depthStep] at h
    split_ifs at h with hd
    cases h
    match s, hd with
    | y :: x :: s, _ => exact ⟨_, rfl, rfl⟩
    | [x], hd => exact absurd Nat.one_lt_two hd
    | [], hd => exact absurd Nat.zero_lt_two hd

theorem foldlM_of_depth {ε φ : Type*} {sym : ε → Sym α υ β}
    {f : List ν → ε → Except φ (List ν)} {es : List ε}
    (hstep : ∀ e ∈ es, ∀ s d, depthStep limit s.length (sym e) = some d →
      ∃ s', step R s (sym e) = some s' ∧ f s e = .ok s')
    (h : depth limit s.length (es.map sym) = some d) :
    ∃ s', es.foldlM f s = .ok s' ∧ run R s (es.map sym) = some s' ∧ s'.length = d := by
  induction es generalizing s with
  | nil =>
    cases h
    exact ⟨s, rfl, rfl, rfl⟩
  | cons e es ih =>
    obtain ⟨d1, hd1, hrest⟩ := bind_eq_some_iff.mp h
    obtain ⟨s1, hs1, hf⟩ := hstep e (by simp) s d1 hd1
    obtain ⟨s1', hs1', hlen⟩ := step_of_depth (R := R) hd1
    obtain rfl : s1 = s1' := some_inj.mp (hs1.symm.trans hs1')
    rw [← hlen] at hrest
    obtain ⟨s2, hfold, hrun, hlen2⟩ := ih (fun e he => hstep e (by simp [he])) hrest
    refine ⟨s2, ?_, ?_, hlen2⟩
    · rw [foldlM_cons, hf]
      exact hfold
    · rw [map_cons, run, hs1]
      exact hrun

variable {xs : List (Sym α υ β)}

/-- The depth is in range behind every part of the sequence. -/
theorem depth_take {d' : Nat} (hd : d ≤ limit) (h : depth limit d xs = some d') (k : Nat) :
    ∃ e, depth limit d (xs.take k) = some e ∧ e ≤ limit := by
  induction xs generalizing d k with
  | nil => exact ⟨d, by simp [depth], hd⟩
  | cons x xs ih =>
    cases k with
    | zero => exact ⟨d, rfl, hd⟩
    | succ k =>
      obtain ⟨d1, hd1, hrest⟩ := bind_eq_some_iff.mp h
      have hle : d1 ≤ limit := by
        cases x <;> simp only [depthStep] at hd1 <;> split_ifs at hd1 <;> cases hd1 <;> omega
      obtain ⟨e, he, hbound⟩ := ih hle hrest k
      exact ⟨e, by rw [take_succ_cons, depth, hd1]; exact he, hbound⟩

/-! ## Trees -/

theorem run_append (R : Reading α υ β ν) (s : List ν) (xs ys : List (Sym α υ β)) :
    run R s (xs ++ ys) = (run R s xs).bind fun s => run R s ys := by
  induction xs generalizing s with
  | nil => rfl
  | cons x xs ih =>
    rw [cons_append, run, run]
    cases step R s x with
    | none => rfl
    | some s => exact ih s

/-- The notation of a tree leaves its value on the stack. -/
theorem run_rpn (R : Reading α υ β ν) (t : Tree α υ β) (s : List ν) :
    run R s t.rpn = some (t.value R :: s) := by
  induction t generalizing s with
  | leaf a => rfl
  | un u t ih =>
    rw [Tree.rpn, run_append, ih]
    rfl
  | bin b l r ihl ihr =>
    rw [Tree.rpn, run_append, run_append, ihl, bind_some, ihr]
    rfl

/-- Two readings that agree on the leaves of a tree, and on operators where they agree on
the operands, agree on the tree. -/
theorem Tree.value_rel {μ : Type*} {S : Reading α υ β μ} (rel : ν → μ → Prop)
    {t : Tree α υ β} (hleaf : ∀ a, .leaf a ∈ t.rpn → rel (R.leaf a) (S.leaf a))
    (hun : ∀ u x y, rel x y → rel (R.un u x) (S.un u y))
    (hbin : ∀ b x y x' y', rel x y → rel x' y' → rel (R.bin b x x') (S.bin b y y')) :
    rel (t.value R) (t.value S) := by
  induction t with
  | leaf a => exact hleaf a (by simp [Tree.rpn])
  | un u t ih => exact hun u _ _ (ih fun a ha => hleaf a (by simp [Tree.rpn, ha]))
  | bin b l r ihl ihr =>
    exact hbin b _ _ _ _ (ihl fun a ha => hleaf a (by simp [Tree.rpn, ha]))
      (ihr fun a ha => hleaf a (by simp [Tree.rpn, ha]))

/-- The reading that builds the tree itself. -/
def Reading.tree : Reading α υ β (Tree α υ β) where
  leaf := .leaf
  un := .un
  bin := .bin

@[simp] theorem Tree.value_tree (t : Tree α υ β) : t.value .tree = t := by
  induction t with
  | leaf a => rfl
  | un u t ih => rw [Tree.value, ih]; rfl
  | bin b l r ihl ihr => rw [Tree.value, ihl, ihr]; rfl

theorem Tree.rpn_injective {t1 t2 : Tree α υ β} (h : t1.rpn = t2.rpn) : t1 = t2 := by
  have h1 := run_rpn .tree t1 []
  rw [h, run_rpn, Tree.value_tree, Tree.value_tree] at h1
  simpa using h1.symm

/-- The notation of a stack of trees, the one at the bottom first. -/
def stackRpn : List (Tree α υ β) → List (Sym α υ β)
  | [] => []
  | t :: ts => stackRpn ts ++ t.rpn

theorem stackRpn_step (h : step .tree ts x = some ts') : stackRpn ts' = stackRpn ts ++ [x] := by
  match ts, x, h with
  | ts, .leaf a, h =>
    cases h
    rfl
  | t :: ts, .un u, h =>
    cases h
    exact (append_assoc ..).symm
  | r :: l :: ts, .bin b, h =>
    cases h
    simp [stackRpn, Reading.tree, Tree.rpn]

theorem stackRpn_run (h : run .tree ts xs = some ts') : stackRpn ts' = stackRpn ts ++ xs := by
  induction xs generalizing ts with
  | nil =>
    cases h
    exact (append_nil _).symm
  | cons x xs ih =>
    obtain ⟨ts1, hstep, hrest⟩ := bind_eq_some_iff.mp h
    simp [ih hrest, stackRpn_step hstep]

/-- The machine runs through a sequence with good depths. -/
theorem run_of_depth
    (h : depth limit s.length xs = some d) : ∃ s', run R s xs = some s' ∧ s'.length = d := by
  induction xs generalizing s with
  | nil =>
    cases h
    exact ⟨s, rfl, rfl⟩
  | cons x xs ih =>
    obtain ⟨d1, hd1, hrest⟩ := bind_eq_some_iff.mp h
    obtain ⟨s1, hs1, hlen⟩ := step_of_depth (R := R) hd1
    rw [← hlen] at hrest
    obtain ⟨s2, hrun, hlen2⟩ := ih hrest
    exact ⟨s2, by rw [run, hs1]; exact hrun, hlen2⟩

/-- A sequence whose depth stays in range and ends at one is that of a tree. -/
theorem exists_tree (h : depth limit 0 xs = some 1) : ∃ t : Tree α υ β, t.rpn = xs := by
  obtain ⟨ts, hrun, hlen⟩ := run_of_depth (R := .tree) (s := []) h
  obtain ⟨t, rfl⟩ := length_eq_one_iff.mp hlen
  exact ⟨t, by simpa [stackRpn] using stackRpn_run hrun⟩

end Lib.Rpn
