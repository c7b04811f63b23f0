import SELinux.Lib.ComparisonSort
import SELinux.Sepol.OcontextSort

/-!
# Labels of ports

`sepol_port_sid` takes the first entry that matches, so that the order of the entries counts.
`sort_ocontexts` puts the narrower ranges first.
-/

namespace SELinux.Sepol

open Lib (Orders IsFirst)
open List

variable {C : Type}

/-- A port entry with its context. -/
abbrev PortEntry (C : Type) := PortOcon × C

def PortOcon.matches (c : PortOcon) (protocol : BitVec 8) (port : BitVec 16) : Bool :=
  c.protocol == protocol && (c.lowPort ≤ port && port ≤ c.highPort)

/-- How many ports are behind the first one of a range. -/
def PortOcon.width (c : PortOcon) : Nat := c.highPort.toNat - c.lowPort.toNat

section

variable (ports : List (PortEntry C))

/-- The context that `sepol_port_sid` finds. Without one the port has the initial SID. -/
def portContext (protocol : BitVec 8) (port : BitVec 16) : Option C :=
  (ports.find? (·.1.matches protocol port)).map Prod.snd

/-- `define_port_context` in its second pass. It compares the numbers of the statement with the
ports of the entries, and keeps the low half of the numbers. -/
def definePortContext (protocol : BitVec 8) (low high : BitVec 32) (context : C) :
    Option (List (PortEntry C)) :=
  if high < low then none
  else if ports.any fun (c, _) => c.protocol == protocol &&
      (low == c.lowPort.setWidth 32 && high == c.highPort.setWidth 32 ||
        c.lowPort.setWidth 32 ≤ low && high ≤ c.highPort.setWidth 32) then none
  else some (ports ++ [(⟨protocol, low.setWidth 16, high.setWidth 16⟩, context)])

/-- No entry is hidden by an earlier one. -/
def NotHidden : Prop :=
  ports.Pairwise fun a b =>
    ¬(a.1.protocol = b.1.protocol ∧ a.1.lowPort ≤ b.1.lowPort ∧ b.1.highPort ≤ a.1.highPort)

/-- Whatever order `qsort` may leave, every port keeps its context. -/
def LabelsKept : Prop :=
  ∀ sorted rc, SortOcontextData (fun a b => portconDataCmp a.1 b.1) ports sorted rc →
    ∀ protocol port, portContext sorted protocol port = portContext ports protocol port

/-- The entry has the narrowest range of those that hold the port, and among ranges of its width the
one that begins first. -/
def IsNarrowest (protocol : BitVec 8) (port : BitVec 16) (b : PortEntry C) : Prop :=
  b ∈ ports ∧ b.1.matches protocol port = true ∧
    ∀ c ∈ ports, c.1.matches protocol port = true →
      b.1.width < c.1.width ∨ b.1.width = c.1.width ∧ b.1.lowPort ≤ c.1.lowPort

/-- The first entry for a port has the context of the narrowest one. -/
def NarrowestFirst : Prop :=
  ∀ protocol port a b, ports.find? (·.1.matches protocol port) = some a →
    IsNarrowest ports protocol port b → a.2 = b.2

theorem orders_portEntries : Orders (fun a b => portconDataCmp a.1 b.1) ports :=
  ((orders_compareRanges _ _ (ports.map Prod.fst)).then (Lib.orders_keyCmp _ _)).comap

end

/-- Ranges that hold the same port are compared by their widths and then by their ends. -/
theorem portconDataCmp_nonpos_iff {a b : PortOcon} {protocol port}
    (ha : a.matches protocol port = true) (hb : b.matches protocol port = true) :
    portconDataCmp a b ≤ 0 ↔ a.width < b.width ∨ a.width = b.width ∧ a.lowPort ≤ b.lowPort := by
  simp only [PortOcon.matches, Bool.and_eq_true, beq_iff_eq, decide_eq_true_eq, BitVec.le_def]
    at ha hb
  simp only [portconDataCmp, Lib.thenCmp, compareRanges, Lib.keyCmp, ha.1, hb.1, PortOcon.width,
    BitVec.lt_def, BitVec.le_def, BitVec.toNat_sub, BitVec.toNat_setWidth]
  split_ifs <;> omega

theorem isNarrowest_iff {ports : List (PortEntry C)} {protocol port b} :
    IsNarrowest ports protocol port b ↔
      IsFirst (fun a b => portconDataCmp a.1 b.1) ports (·.1.matches protocol port) b :=
  and_congr_right fun _ => and_congr_right fun hb => forall_congr' fun _ => imp_congr_right fun _ =>
    forall_congr' fun hc => (portconDataCmp_nonpos_iff hb hc).symm

theorem eq_of_portconDataCmp {a b} (h : portconDataCmp a b = 0) : a = b := by
  have hcmp := (congrFun (congrFun (compareRanges_eq (fun o : PortOcon => o.lowPort.setWidth 64)
    fun o => o.highPort.setWidth 64) a) b).symm
  obtain ⟨hranges, hprotocol⟩ := Lib.thenCmp_eq_zero.mp h
  rw [← hcmp] at hranges
  obtain ⟨hsize, hlow⟩ := Lib.thenCmp_eq_zero.mp hranges
  rw [Lib.keyCmp_eq_zero] at hsize hlow hprotocol
  obtain ⟨protocol, low, high⟩ := a
  obtain ⟨protocol', low', high'⟩ := b
  simp only [PortOcon.mk.injEq, ← BitVec.toNat_inj] at *
  simp only [BitVec.toNat_sub, BitVec.toNat_setWidth] at hsize hlow
  omega

theorem NotHidden.eq_of_fst {ports : List (PortEntry C)} (h : NotHidden ports) {a b : PortEntry C}
    (ha : a ∈ ports) (hb : b ∈ ports) (heq : a.1 = b.1) : a = b := by
  by_contra hne
  have hsym : Std.Symm fun a b : PortEntry C => a.1 ≠ b.1 := ⟨fun _ _ => Ne.symm⟩
  refine List.Pairwise.forall (R := fun a b : PortEntry C => a.1 ≠ b.1)
    (h.imp fun {x y} hxy hfst => ?_) ha hb hne heq
  exact hxy (by simp [hfst])

/-- Sorting keeps the labels of entries that are not hidden exactly if the first entry for each port
has the context of the narrowest one. -/
theorem sortPorts_labelsKept_iff (ports : List (PortEntry C)) (h : NotHidden ports) :
    LabelsKept ports ↔ NarrowestFirst ports := by
  constructor
  · intro hkept protocol port a b hfind hb
    rw [isNarrowest_iff] at hb
    obtain ⟨sorted, hsorts⟩ := Lib.exists_sorts (fun a b => portconDataCmp a.1 b.1) ports
    have hne : ports ≠ [] := ne_nil_of_mem hb.1
    have hlabel := hkept sorted 0 (.sorted hne hsorts) protocol port
    cases hfind' : sorted.find? (·.1.matches protocol port) with
    | none => exact absurd hb.2.1 (find?_eq_none.mp hfind' b (hsorts.1.mem_iff.mpr hb.1))
    | some c =>
      have hc := Lib.isFirst_of_find? (orders_portEntries ports) hsorts.1
        (hsorts.2 (orders_portEntries ports)) hfind'
      -- the first entry after sorting is the one that the comparison puts first
      have hle := hc.2.2 b hb.1 hb.2.1
      have hge := hb.2.2 c hc.1 hc.2.1
      have horiented := (orders_portEntries ports).oriented c hc.1 b hb.1
      dsimp only at hle hge horiented
      obtain rfl := h.eq_of_fst hc.1 hb.1 (eq_of_portconDataCmp (by omega))
      simpa [portContext, hfind, hfind'] using hlabel.symm
  · intro hnarrow sorted rc hsort protocol port
    cases hsort with
    | empty => rfl
    | outOfMemory => rfl
    | sorted _ hsorts =>
      rw [portContext, portContext]
      cases hfind : ports.find? (·.1.matches protocol port) with
      | none =>
        have hnone : sorted.find? (·.1.matches protocol port) = none := by
          rw [find?_eq_none] at hfind ⊢
          exact fun c hc => hfind c (hsorts.1.mem_iff.mp hc)
        rw [hnone]
      | some a =>
        cases hfind' : sorted.find? (·.1.matches protocol port) with
        | none =>
          have ha := hsorts.1.mem_iff.mpr (mem_of_find?_eq_some hfind)
          exact absurd (find?_some hfind) (find?_eq_none.mp hfind' a ha)
        | some b =>
          have hb := Lib.isFirst_of_find? (orders_portEntries ports) hsorts.1
            (hsorts.2 (orders_portEntries ports)) hfind'
          exact congrArg some (hnarrow protocol port a b hfind (isNarrowest_iff.mpr hb)).symm

/-- Two ranges of TCP ports that overlap, the wider one first. -/
def overlappingPorts : List (PortEntry Nat) := [(⟨6, 1, 20⟩, 1), (⟨6, 15, 25⟩, 2)]

def nestedPorts : List (PortEntry Nat) := [(⟨6, 15, 18⟩, 1), (⟨6, 1, 20⟩, 2)]

/-- With one range inside the other, the narrower one has to come first anyway. -/
theorem sortPorts_labelsKept_nested :
    NotHidden nestedPorts ∧ (LabelsKept nestedPorts ↔ NarrowestFirst nestedPorts) := by
  have h : NotHidden nestedPorts := by simp [NotHidden, nestedPorts]
  exact ⟨h, sortPorts_labelsKept_iff _ h⟩

/-- Both statements are accepted, and port 17 changes its label. -/
theorem sortPorts_changes_label :
    (definePortContext [] 6 1 20 1 >>= fun ports => definePortContext ports 6 15 25 2) =
      some overlappingPorts ∧ portContext overlappingPorts 6 17 = some 1 ∧
        portContext overlappingPorts.reverse 6 17 = some 2 ∧
      NotHidden overlappingPorts ∧ ¬LabelsKept overlappingPorts := by
  have hhidden : NotHidden overlappingPorts := by simp [NotHidden, overlappingPorts]
  refine ⟨rfl, rfl, rfl, hhidden, fun h => ?_⟩
  have hsorts :
      Lib.Sorts (fun a b => portconDataCmp a.1 b.1) overlappingPorts overlappingPorts.reverse :=
    ⟨reverse_perm _, fun _ => by decide⟩
  have hlabel := h _ 0 (.sorted (by simp [overlappingPorts]) hsorts) 6 17
  exact absurd hlabel (by decide)

end SELinux.Sepol
