import Mathlib.Data.Nat.Bitwise
import Mathlib.Data.List.Basic

/-!
# Masks of `nodecon` statements

`define_ipv4_node_context` and `define_ipv6_node_context` warn about a mask that is not contiguous.
For IPv4 the mask is the number that the host reads from the four bytes; for IPv6 the bytes are
looked at one by one. -/

namespace SELinux.Checkpolicy

/-- `struct in6_addr`. -/
abbrev In6Addr := Vector (BitVec 8) 16

def In6Addr.bytes (a : In6Addr) : List (BitVec 8) := a.toList

open List Nat

inductive ByteOrder where
  | little | big

/-- `struct in_addr`, with the bytes as they are sent. -/
structure InAddr where
  b0 : BitVec 8
  b1 : BitVec 8
  b2 : BitVec 8
  b3 : BitVec 8

def InAddr.bytes (a : InAddr) : List (BitVec 8) := [a.b0, a.b1, a.b2, a.b3]

/-- The number that a host has in `s_addr`. -/
def InAddr.sAddr (host : ByteOrder) (a : InAddr) : BitVec 32 :=
  match host with
  | .little => a.b3 ++ a.b2 ++ a.b1 ++ a.b0
  | .big => a.b0 ++ a.b1 ++ a.b2 ++ a.b3

/-- `define_ipv4_node_context` warns that the mask is not contiguous. -/
def warnsIpv4 (host : ByteOrder) (mask : InAddr) : Bool :=
  let m := mask.sAddr host
  m != 0 && ((~~~m + 1) &&& ~~~m) != 0

/-- The loop of `ipv6_is_mask_contiguous`. The bytes are promoted, so that nothing overflows. -/
def maskLoop (filled : Bool) : List (BitVec 8) → Bool
  | [] => true
  | b :: bs =>
    if ((~~~b).toNat + 1) &&& (~~~b).toNat ≠ 0 then false
    else if !filled && b != 0 then false
    else maskLoop (filled && b == 0xff) bs

def ipv6IsMaskContiguous (mask : In6Addr) : Bool := maskLoop true (In6Addr.bytes mask)

def warnsIpv6 (mask : In6Addr) : Bool := !ipv6IsMaskContiguous mask

/-! ## Bit strings -/

/-- The bits of a number, the highest one first. -/
def bitString {w : Nat} (x : BitVec w) : List Bool := (range w).map x.getMsbD

/-- The bits in the order in which they are sent. -/
def maskBits (bytes : List (BitVec 8)) : List Bool := bytes.flatMap bitString

/-- A run of ones followed only by zeros. -/
def Contiguous (bits : List Bool) : Prop := ∃ n m, bits = replicate n true ++ replicate m false

theorem contiguous_cons_true {bits} : Contiguous (true :: bits) ↔ Contiguous bits := by
  constructor
  · rintro ⟨n, m, h⟩
    cases n with
    | zero => cases m <;> simp [replicate_succ] at h
    | succ n => exact ⟨n, m, by simpa [replicate_succ] using h⟩
  · rintro ⟨n, m, rfl⟩
    exact ⟨n + 1, m, rfl⟩

theorem contiguous_cons_false {bits} : Contiguous (false :: bits) ↔ ∀ b ∈ bits, b = false := by
  constructor
  · rintro ⟨n, m, h⟩
    cases n with
    | zero =>
      have : ∀ b ∈ false :: bits, b = false := fun b hb => by
        rw [h] at hb
        exact eq_of_mem_replicate (by simpa using hb)
      exact fun b hb => this b (mem_cons_of_mem _ hb)
    | succ n => simp [replicate_succ] at h
  · intro h
    exact ⟨0, bits.length + 1, by simp [replicate_succ, ← eq_replicate_of_mem h]⟩

/-- Read from the other end and inverted, it is a run of ones followed only by zeros again. -/
theorem contiguous_reverse_not {bits : List Bool} : Contiguous (bits.map not).reverse ↔
    Contiguous bits := by
  have hflip : ∀ {bits : List Bool}, Contiguous bits → Contiguous (bits.map not).reverse := by
    rintro _ ⟨n, m, rfl⟩
    exact ⟨m, n, by simp⟩
  refine ⟨fun h => ?_, hflip⟩
  simpa [Function.comp_def] using hflip h

/-- The number with these bits, the lowest one first. -/
def value : List Bool → Nat
  | [] => 0
  | b :: bs => Nat.bit b (value bs)

theorem value_eq_zero {bits} : value bits = 0 ↔ ∀ b ∈ bits, b = false := by
  induction bits with
  | nil => simp [value]
  | cons b bits ih => simp [value, bit_eq_zero_iff, ih, and_comm]

/-- A number has no bit in common with its successor exactly if its ones are at the low end. -/
theorem land_succ_eq_zero (bits : List Bool) :
    (value bits + 1) &&& value bits = 0 ↔ Contiguous bits := by
  induction bits with
  | nil => exact ⟨fun _ => ⟨0, 0, rfl⟩, fun _ => rfl⟩
  | cons b bits ih =>
    cases b with
    | true =>
      have hsucc : bit true (value bits) + 1 = bit false (value bits + 1) := by
        simp only [bit_val, Bool.toNat_true, Bool.toNat_false]
        omega
      rw [contiguous_cons_true, ← ih, value, hsucc, land_bit]
      simp
    | false =>
      have hsucc : bit false (value bits) + 1 = bit true (value bits) := by
        simp only [bit_val, Bool.toNat_true, Bool.toNat_false]
      rw [contiguous_cons_false, ← value_eq_zero, value, hsucc, land_bit]
      simp

theorem testBit_value (bits : List Bool) (i : Nat) :
    (value bits).testBit i = bits.getD i false := by
  induction bits generalizing i with
  | nil => simp [value]
  | cons b bits ih =>
    cases i with
    | zero => simp [value]
    | succ i => simp [value, testBit_bit_succ, ih]

variable {w : Nat}

/-- The complement of a number in terms of its bits. -/
theorem value_not (x : BitVec w) : value ((bitString x).map not).reverse = (~~~x).toNat := by
  refine eq_of_testBit_eq fun i => ?_
  rw [testBit_value, BitVec.testBit_toNat, BitVec.getLsbD_not]
  by_cases hi : i < w
  · have hlt : w - 1 - (w - 1 - i) = i := by omega
    simp [bitString, hi, BitVec.getMsbD, hlt, show w - 1 - i < w by omega]
  · simp [bitString, hi]

theorem land_succ_not_eq_zero (x : BitVec w) :
    ((~~~x).toNat + 1) &&& (~~~x).toNat = 0 ↔ Contiguous (bitString x) := by
  rw [← value_not, land_succ_eq_zero, contiguous_reverse_not]

/-- The sum may wrap around, to a zero. -/
theorem not_succ_and_not_eq_zero (x : BitVec w) :
    (~~~x + 1) &&& ~~~x = 0 ↔ Contiguous (bitString x) := by
  rw [← land_succ_not_eq_zero, ← BitVec.toNat_inj, BitVec.toNat_and]
  have hlt := (~~~x).isLt
  cases w with
  | zero => simp [BitVec.eq_nil x]
  | succ w =>
    have hone : (1 : BitVec (w + 1)).toNat = 1 := by simp
    have hzero : (0 : BitVec (w + 1)).toNat = 0 := by simp
    rw [BitVec.toNat_add, hone, hzero]
    rcases lt_or_ge ((~~~x).toNat + 1) (2 ^ (w + 1)) with hsmall | hlarge
    · rw [mod_eq_of_lt hsmall]
    · have hwrap : (~~~x).toNat + 1 = 2 ^ (w + 1) := by omega
      rw [hwrap, Nat.mod_self, Nat.zero_and, Nat.and_comm, Nat.and_two_pow,
        testBit_lt_two_pow hlt]
      simp

theorem bitString_append {v : Nat} (x : BitVec v) (y : BitVec w) :
    bitString (x ++ y) = bitString x ++ bitString y := by
  refine ext_getElem (by simp [bitString]) fun i h h' => ?_
  simp only [bitString, getElem_map, getElem_range, getElem_append, length_map, length_range,
    BitVec.getMsbD_append]
  split_ifs <;> first | rfl | omega

/-! ## The warnings -/

theorem warnsIpv4_iff (host : ByteOrder) (mask : InAddr) :
    warnsIpv4 host mask = true ↔ ¬Contiguous (bitString (mask.sAddr host)) := by
  rw [← not_succ_and_not_eq_zero, warnsIpv4]
  simp only [Bool.and_eq_true, bne_iff_ne, ne_eq, and_iff_right_iff_imp]
  intro h hzero
  exact h (by rw [hzero]; decide)

theorem bitString_sAddr (host : ByteOrder) (mask : InAddr) : bitString (mask.sAddr host) =
      maskBits (match host with | .big => mask.bytes | .little => mask.bytes.reverse) := by
  have happend : ∀ a b c d : BitVec 8, bitString (a ++ b ++ c ++ d) = maskBits [a, b, c, d] :=
    fun a b c d => by
    rw [bitString_append, bitString_append, bitString_append]
    simp [maskBits]
  cases host with
  | little => exact happend mask.b3 mask.b2 mask.b1 mask.b0
  | big => exact happend mask.b0 mask.b1 mask.b2 mask.b3

/-- The bits of a byte and those behind it. -/
theorem contiguous_append (b : BitVec 8) (bits : List Bool) : Contiguous (bitString b ++ bits) ↔
      if b = 0xff then Contiguous bits else Contiguous (bitString b) ∧ ∀ x ∈ bits, x = false := by
  have hsplit : ∀ as : List Bool, Contiguous (as ++ bits) ↔
      if as.all id then Contiguous bits else Contiguous as ∧ ∀ x ∈ bits, x = false := by
    intro as
    induction as with
    | nil => simp
    | cons a as ih =>
      cases a with
      | true => simpa [contiguous_cons_true] using ih
      | false => simp [contiguous_cons_false, or_imp, forall_and]
  have hall : (bitString b).all id = true ↔ b = 0xff := by
    revert b
    decide +kernel
  simp only [hsplit, hall]

theorem bitString_eq_zero {b : BitVec 8} : (∀ x ∈ bitString b, x = false) ↔ b = 0 := by
  revert b
  decide +kernel

theorem maskBits_eq_zero {bytes : List (BitVec 8)} :
    (∀ x ∈ maskBits bytes, x = false) ↔ ∀ b ∈ bytes, b = 0 := by
  simp only [maskBits, mem_flatMap, ← bitString_eq_zero]
  exact ⟨fun h b hb x hx => h x ⟨b, hb, hx⟩, fun h x ⟨b, hb, hx⟩ => h b hb x hx⟩

theorem maskLoop_cons (filled : Bool) (b : BitVec 8) (bytes : List (BitVec 8)) :
    maskLoop filled (b :: bytes) = true ↔ Contiguous (bitString b) ∧ (filled = true ∨ b = 0) ∧
        maskLoop (filled && b == 0xff) bytes = true := by
  rw [maskLoop, ← land_succ_not_eq_zero]
  split_ifs with hbits hzero
  · exact ⟨False.elim, fun h => absurd h.1 hbits⟩
  · simp_all
  · simp_all [or_iff_not_imp_left]

/-- Once a byte was not filled, only zeros may follow. -/
theorem maskLoop_iff (filled : Bool) (bytes : List (BitVec 8)) :
    maskLoop filled bytes = true ↔ if filled then Contiguous (maskBits bytes) else ∀ b ∈ bytes,
      b = 0 := by
  induction bytes generalizing filled with
  | nil =>
    have : Contiguous [] := ⟨0, 0, rfl⟩
    simp [maskLoop, maskBits, this]
  | cons b bytes ih =>
    have hzero : Contiguous (bitString (0 : BitVec 8)) := ⟨0, 8, by decide⟩
    have hones : Contiguous (bitString (0xff : BitVec 8)) := ⟨8, 0, by decide⟩
    rw [maskLoop_cons, ih]
    cases filled with
    | false =>
      have hb : b = 0 → Contiguous (bitString b) := fun h => h ▸ hzero
      simp only [Bool.false_and, Bool.false_eq_true, if_false, false_or, forall_mem_cons]
      tauto
    | true =>
      have hcons : maskBits (b :: bytes) = bitString b ++ maskBits bytes := rfl
      rw [hcons, if_pos rfl, contiguous_append, maskBits_eq_zero]
      by_cases hb : b = 0xff
      · subst hb
        simp only [hones, beq_self_eq_true, Bool.and_self, if_true, true_or, true_and]
      · simp only [Bool.true_and, beq_iff_eq, hb, if_false, true_or, true_and]

/-- On a host with this byte order the IPv4 warning is right for the mask. -/
def WarnsExactly (host : ByteOrder) (mask : InAddr) : Prop :=
  warnsIpv4 host mask = true ↔ ¬Contiguous (maskBits mask.bytes)

/-- A mask that is contiguous from both ends. -/
theorem contiguous_both (mask : InAddr) (h : Contiguous (maskBits mask.bytes))
    (h' : Contiguous (maskBits mask.bytes.reverse)) :
    (∀ b ∈ mask.bytes, b = 0) ∨ ∀ b ∈ mask.bytes, b = 0xff := by
  obtain ⟨b0, b1, b2, b3⟩ := mask
  simp only [InAddr.bytes, reverse_cons, reverse_nil, nil_append, cons_append, maskBits,
    flatMap_cons,
    contiguous_append, flatMap_nil, append_nil, mem_append, or_imp, forall_and, bitString_eq_zero,
      mem_cons,
    not_mem_nil, false_implies, and_true, forall_eq] at h h' ⊢
  grind

/-- The IPv6 warning is exact. The IPv4 warning is exact on a big-endian host; on a little-endian
host it is so for the masks without ones or without zeros and for those that are contiguous from
neither end. -/
theorem maskWarnings_exact_iff (host : ByteOrder) : (∀ mask : InAddr, WarnsExactly host mask ↔
      match host with
      | .big => True
      | .little => (∀ b ∈ mask.bytes, b = 0) ∨ (∀ b ∈ mask.bytes, b = 0xff) ∨
          ¬Contiguous (maskBits mask.bytes) ∧ ¬Contiguous (maskBits mask.bytes.reverse)) ∧
    ∀ mask : In6Addr, warnsIpv6 mask = true ↔ ¬Contiguous (maskBits (In6Addr.bytes mask)) := by
  refine ⟨fun mask => ?_, fun mask => ?_⟩
  · rw [WarnsExactly, warnsIpv4_iff, bitString_sAddr]
    cases host with
    | big => simp
    | little =>
      constructor
      · intro h
        by_cases hcont : Contiguous (maskBits mask.bytes)
        · have := contiguous_both mask hcont (not_not.mp fun hnot => h.mp hnot hcont)
          tauto
        · exact .inr (.inr ⟨hcont, h.mpr hcont⟩)
      · rintro (hzero | hones | hneither)
        · have hall : ∀ bytes : List (BitVec 8), (∀ b ∈ bytes, b = 0) →
            Contiguous (maskBits bytes) :=
            fun bytes hb =>
              ⟨0, (maskBits bytes).length, eq_replicate_of_mem (maskBits_eq_zero.mpr hb)⟩
          have h' := hall mask.bytes.reverse (by simpa using hzero)
          tauto
        · obtain ⟨b0, b1, b2, b3⟩ := mask
          simp only [InAddr.bytes, mem_cons, not_mem_nil, or_false, forall_eq_or_imp,
            forall_eq] at hones
          obtain ⟨rfl, rfl, rfl, rfl⟩ := hones
          rfl
        · tauto
  · rw [warnsIpv6, Bool.not_eq_true', ← Bool.not_eq_true, ipv6IsMaskContiguous, maskLoop_iff,
      if_pos rfl]

/-- A little-endian host warns about the mask of a network of 4096 hosts. -/
theorem warnsIpv4_contiguous :
    warnsIpv4 .little ⟨255, 255, 240, 0⟩ = true ∧ ¬WarnsExactly .little ⟨255, 255, 240, 0⟩ := by
  have hcont : Contiguous (maskBits (InAddr.bytes ⟨255, 255, 240, 0⟩)) := ⟨20, 12, by decide⟩
  have hwarns : warnsIpv4 .little ⟨255, 255, 240, 0⟩ = true := by decide
  exact ⟨hwarns, fun h => h.mp hwarns hcont⟩

end SELinux.Checkpolicy
