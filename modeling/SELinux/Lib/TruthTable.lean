import Mathlib.Algebra.GroupWithZero.Nat
import Mathlib.Data.List.Nodup

/-! Truth tables of Boolean functions of finitely many variables. The variables
are listed, and row `r` of the table is the assignment that gives the variable at
position `j` the bit `j` of `r`. -/
namespace Lib

variable {α : Type*}

/-- The row of an assignment. -/
def rowIndex : List α → (α → Bool) → Nat
  | [], _ => 0
  | v :: vars, state => (state v).toNat + 2 * rowIndex vars state

/-- The assignment of a row. -/
def rowState [DecidableEq α] (vars : List α) (row : Nat) : α → Bool :=
  fun v => row.testBit (vars.idxOf v)

theorem rowIndex_lt (vars : List α) (state : α → Bool) : rowIndex vars state < 2 ^ vars.length := by
  induction vars with
  | nil => simp [rowIndex]
  | cons v vars ih =>
    have hbit : (state v).toNat ≤ 1 := Bool.toNat_le _
    rw [rowIndex, List.length_cons, Nat.pow_succ]
    omega

variable {vars : List α} {state : α → Bool}

theorem testBit_rowIndex {j : Nat} (hj : j < vars.length) :
    (rowIndex vars state).testBit j = state vars[j] := by
  induction vars generalizing j with
  | nil => simp at hj
  | cons v vars ih =>
    rw [rowIndex]
    cases j with
    | zero => cases hv : state v <;> simp [Nat.testBit_zero, hv]
    | succ j =>
      have hhalf : ((state v).toNat + 2 * rowIndex vars state) / 2 = rowIndex vars state := by
        have hbit : (state v).toNat ≤ 1 := Bool.toNat_le _
        omega
      rw [Nat.testBit_succ, hhalf]
      exact ih (Nat.lt_of_succ_lt_succ hj)

theorem rowIndex_congr {state' : α → Bool}
    (h : ∀ v ∈ vars, state v = state' v) : rowIndex vars state = rowIndex vars state' := by
  induction vars with
  | nil => rfl
  | cons v vars ih =>
    rw [rowIndex, rowIndex, h v (by simp), ih fun w hw => h w (by simp [hw])]

variable [DecidableEq α]

theorem rowState_rowIndex {v : α} (hv : v ∈ vars) :
    rowState vars (rowIndex vars state) v = state v := by
  have hlt : vars.idxOf v < vars.length := List.idxOf_lt_length_of_mem hv
  rw [rowState, testBit_rowIndex hlt, List.getElem_idxOf]

theorem rowIndex_rowState (hnd : vars.Nodup) {row : Nat}
    (hrow : row < 2 ^ vars.length) : rowIndex vars (rowState vars row) = row := by
  apply Nat.eq_of_testBit_eq
  intro j
  by_cases hj : j < vars.length
  · rw [testBit_rowIndex hj, rowState, hnd.idxOf_getElem j hj]
  · have hpow : 2 ^ vars.length ≤ 2 ^ j := Nat.pow_le_pow_right (by decide) (Nat.le_of_not_lt hj)
    rw [Nat.testBit_lt_two_pow (Nat.lt_of_lt_of_le (rowIndex_lt ..) hpow),
      Nat.testBit_lt_two_pow (Nat.lt_of_lt_of_le hrow hpow)]

/-- The same table, read with its variables in two orders, is the same function
exactly if reordering the variables of a row does not change the entry. -/
theorem rows_eq_iff {β : Type*} {table : Nat → β} {vars vars' : List α} (hnd : vars'.Nodup)
    (hmem : ∀ v ∈ vars, v ∈ vars') :
    (∀ state, table (rowIndex vars state) = table (rowIndex vars' state)) ↔
      ∀ row < 2 ^ vars'.length, table (rowIndex vars (rowState vars' row)) = table row := by
  constructor
  · intro h row hrow
    rw [h, rowIndex_rowState hnd hrow]
  · intro h state
    rw [← h _ (rowIndex_lt vars' state)]
    congr 1
    apply rowIndex_congr
    intro v hv
    exact (rowState_rowIndex (hmem v hv)).symm

end Lib
