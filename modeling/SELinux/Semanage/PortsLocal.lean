import Mathlib.Data.List.Perm.Basic
import Mathlib.Order.Basic

/-!
# Validation of local ports

`semanage_port_validate_local` sorts the records of all protocols together, and compares each of
them with the next one of its protocol. -/

namespace SELinux.Semanage

open List

/-- A port record whose range is not empty. -/
structure PortRecord where
  low : Int
  high : Int
  proto : Int
  range : low ≤ high

/-- `sepol_port_compare2`. -/
def portCompare2 (port port2 : PortRecord) : Int :=
  if port.low = port2.low ∧ port.high = port2.high ∧ port.proto = port2.proto then 0
  else if port.low < port2.low then -1
  else if port2.low < port.low then 1
  else if port.high < port2.high then -1
  else if port2.high < port.high then 1
  else if port.proto < port2.proto then -1
  else 1

/-- The loop over the sorted records. The inner loop goes to the next record of the protocol, if
there is one. -/
def portOverlapLoop : List PortRecord → Bool
  | [] => true
  | port :: rest =>
    match rest.find? (·.proto == port.proto) with
    | none => portOverlapLoop rest
    | some port2 => if port2.low ≤ port.high then false else portOverlapLoop rest

/-- `true` is `STATUS_SUCCESS`. Records that compare as equal have the same fields, so that every
sort leaves them in this order. -/
def semanagePortValidateLocal (ports : List PortRecord) : Bool :=
  portOverlapLoop (ports.mergeSort fun a b => portCompare2 a b ≤ 0)

/-- The ranges have no port in common, or are for different protocols. -/
def PortRecord.Apart (p q : PortRecord) : Prop := p.proto = q.proto → p.high < q.low ∨
    q.high < p.low

theorem PortRecord.Apart.symm {p q : PortRecord} (h : p.Apart q) : q.Apart p := fun heq =>
    (h heq.symm).symm

theorem portCompare2_nonpos_iff {a b : PortRecord} : portCompare2 a b ≤ 0 ↔
    a.low < b.low ∨ a.low = b.low ∧ (a.high < b.high ∨ a.high = b.high ∧ a.proto ≤ b.proto) := by
  rw [portCompare2]
  split_ifs <;> omega

theorem portOverlapLoop_iff {l : List PortRecord} (hsorted : l.Pairwise fun p q => p.low ≤ q.low) :
    portOverlapLoop l = true ↔ l.Pairwise PortRecord.Apart := by
  induction l with
  | nil => exact iff_of_true rfl .nil
  | cons port rest ih =>
    obtain ⟨hport, hrest⟩ := pairwise_cons.mp hsorted
    rw [portOverlapLoop, pairwise_cons]
    cases hfind : rest.find? (·.proto == port.proto) with
    | none =>
      have hother : ∀ q ∈ rest, port.Apart q := by
        intro q hq heq
        rw [find?_eq_none] at hfind
        exact absurd (beq_iff_eq.mpr heq.symm) (hfind q hq)
      exact (ih hrest).trans (and_iff_right hother).symm
    | some port2 =>
      obtain ⟨hproto, as, bs, rfl, has⟩ := find?_eq_some_iff_append.mp hfind
      show (if port2.low ≤ port.high then false else portOverlapLoop (as ++ port2 :: bs)) = true ↔ _
      split_ifs with hlow
      · refine iff_of_false not_false fun ⟨hapart, _⟩ => ?_
        have hmem : port2 ∈ as ++ port2 :: bs := by simp
        have := hapart port2 hmem (beq_iff_eq.mp hproto).symm
        have := hport port2 hmem
        have := port2.range
        omega
      · -- the records behind the next one begin no earlier than that
        refine (ih hrest).trans (and_iff_right fun q hq heq => .inl ?_).symm
        rcases mem_append.mp hq with hq | hq
        · have := has q hq
          simp [heq] at this
        · have hfirst := (pairwise_append.mp hrest).2.1
          rcases mem_cons.mp hq with rfl | hq
          · omega
          · have := (pairwise_cons.mp hfirst).1 q hq
            omega

/-- The validation succeeds if, and only if, no two records of a protocol overlap. -/
theorem semanagePortValidateLocal_iff (ports : List PortRecord) :
    semanagePortValidateLocal ports = true ↔ ports.Pairwise PortRecord.Apart := by
  have hsorted : (ports.mergeSort fun a b => portCompare2 a b ≤ 0).Pairwise fun p q =>
      p.low ≤ q.low := by
    refine (pairwise_mergeSort (fun a b c hab hbc => ?_) (fun a b => ?_) ports).imp fun h => ?_
    · simp only [decide_eq_true_eq, portCompare2_nonpos_iff] at hab hbc ⊢
      omega
    · simp only [Bool.or_eq_true, decide_eq_true_eq, portCompare2_nonpos_iff]
      omega
    · rw [decide_eq_true_eq, portCompare2_nonpos_iff] at h
      omega
  rw [semanagePortValidateLocal, portOverlapLoop_iff hsorted]
  exact (mergeSort_perm ports _).pairwise_iff PortRecord.Apart.symm

end SELinux.Semanage
