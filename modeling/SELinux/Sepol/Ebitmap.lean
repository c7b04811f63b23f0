import SELinux.Lib.SortedList

/-! Extensible bitmaps (`ebitmap.c`), at the level the policy database uses
them: the increasing list of positive bits, which is what
`ebitmap_for_each_positive_bit` visits. The node list behind it (start bits
and 64-bit maps) is not represented here. Allocation is assumed to succeed;
the overflow error of `ebitmap_set_bit` is kept. -/
namespace SELinux.Sepol

def mapsize : Nat := 64

/-- First bit whose node would end past `UINT32_MAX`: `ebitmap_set_bit`
refuses it ("bitmap overflow"). -/
def ebitmapLimit : Nat := 2 ^ 32 - 64

/-- A bitmap: its positive bits in increasing order, all of them settable. -/
structure Ebitmap where
  bits : List Nat
  sorted : bits.Pairwise (· < ·)
  bound : ∀ b ∈ bits, b < ebitmapLimit
  deriving DecidableEq

namespace Ebitmap

instance : Membership Nat Ebitmap := ⟨fun e b => b ∈ e.bits⟩

instance (b : Nat) (e : Ebitmap) : Decidable (b ∈ e) := inferInstanceAs (Decidable (b ∈ e.bits))

instance : EmptyCollection Ebitmap := ⟨⟨[], .nil, by simp⟩⟩

variable {e : Ebitmap} {b : Nat}

theorem mem_def : b ∈ e ↔ b ∈ e.bits := Iff.rfl

@[simp] theorem mem_bits : b ∈ e.bits ↔ b ∈ e := Iff.rfl

@[simp] theorem not_mem_empty (b : Nat) : b ∉ (∅ : Ebitmap) := List.not_mem_nil

theorem nodup (e : Ebitmap) : e.bits.Nodup := e.sorted.imp fun h => Nat.ne_of_lt h

@[ext] theorem ext {e1 e2 : Ebitmap} (h : ∀ b, b ∈ e1 ↔ b ∈ e2) : e1 = e2 := by
  obtain ⟨l1, s1, _⟩ := e1
  obtain ⟨l2, s2, _⟩ := e2
  have hl : l1 = l2 := s1.eq_of_mem_iff s2 h
  subst hl
  rfl

/-- Set a bit known to be settable. -/
def set (e : Ebitmap) (b : Nat) (hb : b < ebitmapLimit) : Ebitmap where
  bits := Lib.insertSorted b e.bits
  sorted := Lib.pairwise_insertSorted e.sorted
  bound := by
    intro x hx
    rcases Lib.mem_insertSorted.mp hx with rfl | hx
    · exact hb
    · exact e.bound x hx

@[simp] theorem mem_set {b x hb} : x ∈ e.set b hb ↔ x = b ∨ x ∈ e := Lib.mem_insertSorted

/-- Keep the bits that satisfy `f`. -/
def filter (f : Nat → Bool) (e : Ebitmap) : Ebitmap where
  bits := e.bits.filter f
  sorted := e.sorted.filter f
  bound := fun x hx => e.bound x (List.mem_filter.mp hx).1

@[simp] theorem mem_filter {f} {x} : x ∈ e.filter f ↔ x ∈ e ∧ f x = true := List.mem_filter

/-- The bitmap of a list of bits, for writing bitmaps down. -/
def ofList (l : List Nat) : Ebitmap where
  bits := Lib.unionSorted [] (l.filter (· < ebitmapLimit))
  sorted := Lib.pairwise_unionSorted .nil
  bound := by
    simp

end Ebitmap

def ebitmapGetBit (e : Ebitmap) (bit : Nat) : Bool := decide (bit ∈ e)

/-- `-EINVAL`. -/
def einval : Int := -22

/-- `-EOVERFLOW`. -/
def eoverflow : Int := -75

def ebitmapSetBit (e : Ebitmap) (bit : Nat) (value : Bool) : Except Int Ebitmap :=
  if h : bit < ebitmapLimit then
    .ok (if value then e.set bit h else e.filter (· != bit))
  else .error einval

def ebitmapOr (e1 e2 : Ebitmap) : Ebitmap where
  bits := Lib.unionSorted e1.bits e2.bits
  sorted := Lib.pairwise_unionSorted e1.sorted
  bound := by
    intro x hx
    rcases Lib.mem_unionSorted.mp hx with hx | hx
    · exact e1.bound x hx
    · exact e2.bound x hx

/-- `ebitmap_union(dst, e)` is `ebitmap_or` into its first operand. -/
def ebitmapUnion (dst e : Ebitmap) : Ebitmap := ebitmapOr dst e

def ebitmapAnd (e1 e2 : Ebitmap) : Ebitmap := e1.filter (ebitmapGetBit e2)

def ebitmapIsEmpty (e : Ebitmap) : Bool := e.bits.isEmpty

def ebitmapMatchAny (e1 e2 : Ebitmap) : Bool := e1.bits.any (ebitmapGetBit e2)

/-- Whether `e1` contains every bit of `e2`. -/
def ebitmapContains (e1 e2 : Ebitmap) : Bool := e2.bits.all (ebitmapGetBit e1)

@[simp] theorem ebitmapGetBit_eq_true {e b} : ebitmapGetBit e b = true ↔ b ∈ e := decide_eq_true_iff

@[simp] theorem mem_ebitmapOr {e1 e2 x} :
    x ∈ ebitmapOr e1 e2 ↔ x ∈ e1 ∨ x ∈ e2 := Lib.mem_unionSorted

@[simp] theorem mem_ebitmapUnion {e1 e2 x} :
    x ∈ ebitmapUnion e1 e2 ↔ x ∈ e1 ∨ x ∈ e2 := Lib.mem_unionSorted

@[simp] theorem mem_ebitmapAnd {e1 e2 x} : x ∈ ebitmapAnd e1 e2 ↔ x ∈ e1 ∧ x ∈ e2 := by
  simp [ebitmapAnd]

theorem ebitmapIsEmpty_iff {e} : ebitmapIsEmpty e = true ↔ ∀ x, x ∉ e := by
  rw [ebitmapIsEmpty, List.isEmpty_iff]
  exact List.eq_nil_iff_forall_not_mem

theorem ebitmapMatchAny_iff {e1 e2} : ebitmapMatchAny e1 e2 = true ↔ ∃ x, x ∈ e1 ∧ x ∈ e2 := by
  simp [ebitmapMatchAny]

theorem ebitmapContains_iff {e1 e2} : ebitmapContains e1 e2 = true ↔ ∀ x ∈ e2, x ∈ e1 := by
  simp [ebitmapContains]

theorem ebitmapSetBit_true (hb : b < ebitmapLimit) : ebitmapSetBit e b true = .ok (e.set b hb) := by
  simp [ebitmapSetBit, hb]

theorem ebitmapSetBit_false (hb : b < ebitmapLimit) :
    ebitmapSetBit e b false = .ok (e.filter (· != b)) := by
  simp [ebitmapSetBit, hb]

theorem mem_of_ebitmapSetBit_true {e e' b x} (h : ebitmapSetBit e b true = .ok e') :
    x ∈ e' ↔ x = b ∨ x ∈ e := by
  by_cases hb : b < ebitmapLimit
  · rw [ebitmapSetBit_true hb] at h
    cases h
    simp
  · simp [ebitmapSetBit, hb] at h

end SELinux.Sepol
