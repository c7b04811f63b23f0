import SELinux.Lib.CString
import SELinux.Lib.Comparator

/-! The order in which `sort_ocontexts` puts the object contexts of a kernel policy before they are
written out as source (`kernel_to_common.c`). -/
namespace SELinux.Sepol

open Lib (CString keyCmp thenCmp diffCmp Orders InHalf Sorts orders_keyCmp)

/-! ## Entries

Of an `ocontext` a comparison reads its part of the union only. -/

structure FsuseOcon where
  name : CString
  behavior : BitVec 32

structure PortOcon where
  protocol : BitVec 8
  lowPort : BitVec 16
  highPort : BitVec 16

/-- An entry that is known by a name: an interface, or a node of the device tree. -/
structure NameOcon where
  name : CString

/-- The numbers are in network order, so that `memcmp` compares them. -/
structure NodeOcon (w : Nat) where
  addr : BitVec w
  mask : BitVec w

structure IbpkeyOcon where
  subnetPrefix : BitVec 64
  lowPkey : BitVec 16
  highPkey : BitVec 16

structure IbendportOcon where
  devName : CString
  port : BitVec 8

structure PirqOcon where
  pirq : BitVec 16

structure IoportOcon where
  lowIoport : BitVec 32
  highIoport : BitVec 32

structure IomemOcon where
  lowIomem : BitVec 64
  highIomem : BitVec 64

structure PcidOcon where
  device : BitVec 32

/-! ## Comparisons -/

/-- `compare_ranges`: the smaller range first, then the one that begins first. -/
def compareRanges (l1 h1 l2 h2 : BitVec 64) : Int :=
  if h1 - l1 < h2 - l2 then -1
  else if h2 - l2 < h1 - l1 then 1
  else if l1 < l2 then -1
  else if l2 < l1 then 1
  else 0

def fsuseDataCmp : FsuseOcon → FsuseOcon → Int :=
  thenCmp (keyCmp fun o => o.behavior.toNat) (keyCmp FsuseOcon.name)

def portconDataCmp : PortOcon → PortOcon → Int :=
  thenCmp (fun a b => compareRanges (a.lowPort.setWidth 64) (a.highPort.setWidth 64)
    (b.lowPort.setWidth 64)
    (b.highPort.setWidth 64)) (keyCmp fun o => o.protocol.toNat)

def netifDataCmp : NameOcon → NameOcon → Int := keyCmp NameOcon.name

/-- `node_data_cmp` and `node6_data_cmp`: the larger mask first. -/
def nodeDataCmp {w : Nat} : NodeOcon w → NodeOcon w → Int :=
  thenCmp (fun a b => -keyCmp (fun o : NodeOcon w => o.mask.toNat) a b)
    (keyCmp fun o => o.addr.toNat)

/-- `ibpkey_data_cmp`: the difference of the prefixes has 64 bits, and is stored in an `int`. -/
def ibpkeyDataCmp : IbpkeyOcon → IbpkeyOcon → Int :=
  thenCmp (fun a b => ((a.subnetPrefix - b.subnetPrefix).setWidth 32).toInt) fun a b =>
    compareRanges (a.lowPkey.setWidth 64) (a.highPkey.setWidth 64) (b.lowPkey.setWidth 64)
      (b.highPkey.setWidth 64)

/-- `ibendport_data_cmp`: the ports are promoted to `int`, where their difference fits. -/
def ibendportDataCmp : IbendportOcon → IbendportOcon → Int :=
  thenCmp (keyCmp IbendportOcon.devName) fun a b => (a.port.toNat : Int) - b.port.toNat

def pirqDataCmp : PirqOcon → PirqOcon → Int := keyCmp fun o => o.pirq.toNat

def ioportDataCmp (a b : IoportOcon) : Int :=
  compareRanges (a.lowIoport.setWidth 64) (a.highIoport.setWidth 64) (b.lowIoport.setWidth 64)
    (b.highIoport.setWidth 64)

def iomemDataCmp (a b : IomemOcon) : Int :=
  compareRanges a.lowIomem a.highIomem b.lowIomem b.highIomem

def pcidDataCmp : PcidOcon → PcidOcon → Int := keyCmp fun o => o.device.toNat

def dtreeDataCmp : NameOcon → NameOcon → Int := keyCmp NameOcon.name

/-! ## Lists -/

/-- The lists of `ocontexts` that are sorted. -/
inductive OconKind where
  | fsuse
  | port
  | netif
  | node
  | node6
  | ibpkey
  | ibendport
  | pirq
  | ioport
  | iomem
  | pcid
  | dtree
  deriving DecidableEq

namespace OconKind

def Entry : OconKind → Type
  | fsuse => FsuseOcon
  | port => PortOcon
  | netif => NameOcon
  | node => NodeOcon 32
  | node6 => NodeOcon 128
  | ibpkey => IbpkeyOcon
  | ibendport => IbendportOcon
  | pirq => PirqOcon
  | ioport => IoportOcon
  | iomem => IomemOcon
  | pcid => PcidOcon
  | dtree => NameOcon

/-- The comparison that `sort_ocontexts` passes for a list. -/
def dataCmp : (k : OconKind) → k.Entry → k.Entry → Int
  | fsuse => fsuseDataCmp
  | port => portconDataCmp
  | netif => netifDataCmp
  | node => nodeDataCmp
  | node6 => nodeDataCmp
  | ibpkey => ibpkeyDataCmp
  | ibendport => ibendportDataCmp
  | pirq => pirqDataCmp
  | ioport => ioportDataCmp
  | iomem => iomemDataCmp
  | pcid => pcidDataCmp
  | dtree => dtreeDataCmp

/-- The low words of the prefixes are in one half of the 32-bit numbers. -/
def Comparable : (k : OconKind) → List k.Entry → Prop
  | ibpkey, (l : List IbpkeyOcon) => InHalf (fun o => o.subnetPrefix.setWidth 32) l
  | _, _ => True

end OconKind

/-- `sort_ocontext_data`: the list before and after, and what is returned. Without memory for the
array the list stays as it is. An `unsigned` counts the entries. -/
inductive SortOcontextData {α : Type} (cmp : α → α → Int) : List α → List α → Int → Prop where
  | empty : SortOcontextData cmp [] [] 0
  | outOfMemory {ocons : List α} : ocons ≠ [] → SortOcontextData cmp ocons ocons (-1)
  | sorted {ocons data : List α} : ocons ≠ [] → Sorts cmp ocons data →
    SortOcontextData cmp ocons data 0

variable {α : Type} {ocons result : List α}

theorem SortOcontextData.perm {cmp} {rc}
    (h : SortOcontextData cmp ocons result rc) : result.Perm ocons := by
  cases h with
  | empty => exact .refl _
  | outOfMemory _ => exact .refl _
  | sorted _ hsorts => exact hsorts.1

theorem SortOcontextData.pairwise {cmp}
    (h : SortOcontextData cmp ocons result 0) (horders : Orders cmp ocons) :
    result.Pairwise fun a b => cmp a b ≤ 0 := by
  cases h with
  | empty => exact .nil
  | sorted _ hsorts => exact hsorts.2 horders

/-! ## The comparisons are orders -/

/-- Ranges are ordered by their sizes first. -/
theorem compareRanges_eq (low high : α → BitVec 64) :
    (fun a b => compareRanges (low a) (high a) (low b) (high b)) =
      thenCmp (keyCmp fun o => (high o - low o).toNat) (keyCmp fun o => (low o).toNat) := by
  funext a b
  simp only [compareRanges, thenCmp, keyCmp, BitVec.lt_def]
  split_ifs <;> simp_all

theorem orders_compareRanges (low high : α → BitVec 64) (l : List α) :
    Orders (fun a b => compareRanges (low a) (high a) (low b) (high b)) l := by
  rw [compareRanges_eq]
  exact (orders_keyCmp _ l).then (orders_keyCmp _ l)

theorem orders_nodeDataCmp {w : Nat} (l : List (NodeOcon w)) : Orders nodeDataCmp l :=
  (orders_keyCmp _ l).neg.then (orders_keyCmp _ l)

theorem orders_portDiff (l : List IbendportOcon) :
    Orders (fun a b => (a.port.toNat : Int) - b.port.toNat) l where
  oriented a _ b _ := by omega
  trans a _ b _ c _ := by omega

theorem subnetPrefix_diff :
    (fun a b : IbpkeyOcon => ((a.subnetPrefix - b.subnetPrefix).setWidth 32).toInt) =
      diffCmp fun o => o.subnetPrefix.setWidth 32 := by
  funext a b
  rw [diffCmp, Lib.lowWord_sub]

theorem orders_ibpkeyDataCmp_iff {l} : Orders ibpkeyDataCmp l ↔ OconKind.ibpkey.Comparable l := by
  rw [ibpkeyDataCmp, subnetPrefix_diff]
  exact Lib.orders_diffCmp_iff (orders_compareRanges _ _ l)

theorem orders_dataCmp_iff (k : OconKind) (l : List k.Entry) : Orders k.dataCmp l ↔
    k.Comparable l := by
  cases k with
  | fsuse => exact iff_of_true ((orders_keyCmp _ l).then (orders_keyCmp _ l)) trivial
  | port => exact iff_of_true ((orders_compareRanges _ _ l).then (orders_keyCmp _ l)) trivial
  | netif => exact iff_of_true (orders_keyCmp _ l) trivial
  | node => exact iff_of_true (orders_nodeDataCmp l) trivial
  | node6 => exact iff_of_true (orders_nodeDataCmp l) trivial
  | ibpkey => exact orders_ibpkeyDataCmp_iff
  | ibendport => exact iff_of_true ((orders_keyCmp _ l).then (orders_portDiff l)) trivial
  | pirq => exact iff_of_true (orders_keyCmp _ l) trivial
  | ioport => exact iff_of_true (orders_compareRanges _ _ l) trivial
  | iomem => exact iff_of_true (orders_compareRanges _ _ l) trivial
  | pcid => exact iff_of_true (orders_keyCmp _ l) trivial
  | dtree => exact iff_of_true (orders_keyCmp _ l) trivial

/-- The signs of the two comparisons of a pair are opposite. -/
theorem oriented_iff_sign {cmp : α → α → Int} {l : List α} :
    (∀ a ∈ l, ∀ b ∈ l, (cmp b a).sign = -(cmp a b).sign) ↔ ∀ a ∈ l, ∀ b ∈ l, cmp a b < 0 ↔
      0 < cmp b a := by
  constructor
  · intro h a ha b hb
    rw [← Int.sign_eq_neg_one_iff_neg, ← Int.sign_eq_one_iff_pos, h a ha b hb]
    omega
  · intro h a ha b hb
    have hab := h a ha b hb
    have hba := h b hb a ha
    rcases Int.lt_trichotomy (cmp a b) 0 with hlt | heq | hgt
    · rw [Int.sign_eq_neg_one_of_neg hlt, Int.sign_eq_one_of_pos (hab.mp hlt)]
      rfl
    · rw [heq, show cmp b a = 0 by omega]
      rfl
    · rw [Int.sign_eq_one_of_pos hgt, Int.sign_eq_neg_one_of_neg (hba.mpr hgt)]

/-- The comparison of a list's entries is an order of them, and sorts them, if and only if the
entries are comparable. -/
theorem dataCmp_sorts_iff (k : OconKind) (l : List k.Entry) :
    ((∀ a ∈ l, ∀ b ∈ l, (k.dataCmp b a).sign = -(k.dataCmp a b).sign) ∧
      (∀ a ∈ l, ∀ b ∈ l, ∀ c ∈ l, k.dataCmp a b ≤ 0 → k.dataCmp b c ≤ 0 → k.dataCmp a c ≤ 0) ∧
      ∀ result, SortOcontextData k.dataCmp l result 0 →
        result.Perm l ∧ result.Pairwise fun a b => k.dataCmp a b ≤ 0) ↔ k.Comparable l := by
  rw [oriented_iff_sign, ← orders_dataCmp_iff]
  constructor
  · intro ⟨horiented, htrans, _⟩
    exact ⟨horiented, htrans⟩
  · intro horders
    exact ⟨horders.oriented, horders.trans, fun result h => ⟨h.perm, h.pairwise horders⟩⟩

/-- Of two prefixes whose low words are `2 ^ 31` apart each is before the other, and three prefixes
can be in a circle. -/
theorem ibpkeyDataCmp_not_order :
    let ocon (p : BitVec 64) : IbpkeyOcon := ⟨p, 1, 1⟩
    ibpkeyDataCmp (ocon 0) (ocon 0x80000000) < 0 ∧ ibpkeyDataCmp (ocon 0x80000000) (ocon 0) < 0 ∧
      ibpkeyDataCmp (ocon 0) (ocon 0x60000000) < 0 ∧
        ibpkeyDataCmp (ocon 0x60000000) (ocon 0xc0000000) < 0 ∧
      0 < ibpkeyDataCmp (ocon 0) (ocon 0xc0000000) := by
  decide

end SELinux.Sepol
