import Mathlib.Data.List.Lex
import Mathlib.Data.List.TakeWhile
import Mathlib.Order.Fin.Basic

/-! The strings of C: bytes without a zero byte, compared as unsigned characters. -/
namespace Lib

@[ext] structure CString where
  bytes : List (BitVec 8)
  nonzero : 0 ∉ bytes
  deriving DecidableEq

namespace CString

/-- The string in a buffer ends at the first zero byte. -/
def ofBuffer (buf : List (BitVec 8)) : CString where
  bytes := buf.takeWhile (· ≠ 0)
  nonzero h := by simpa using List.mem_takeWhile_imp h

theorem bytes_ofBuffer {buf : List (BitVec 8)} (h : 0 ∉ buf) : (ofBuffer buf).bytes = buf :=
  List.takeWhile_eq_self_iff.mpr fun _ hc => decide_eq_true fun h0 => h (h0 ▸ hc)

def ofString (s : String) : CString := ofBuffer (s.toList.map fun c => .ofNat 8 c.toNat)

def strlen (s : CString) : Nat := s.bytes.length

theorem toFin_injective : Function.Injective fun s : CString => s.bytes.map BitVec.toFin := by
  rintro ⟨a, ha⟩ ⟨b, hb⟩ h
  have hab : a = b := (List.map_injective_iff.mpr fun x y => BitVec.eq_of_toFin_eq) h
  subst hab
  rfl

/-- The order that `strcmp` decides. -/
instance : LinearOrder CString := LinearOrder.lift' _ toFin_injective

/-- `strncmp(a, b, n) == 0`. -/
def eqUpTo (n : Nat) (a b : CString) : Bool := a.bytes.take n == b.bytes.take n

def isspace (c : BitVec 8) : Bool := c == 0x20 || (0x09 ≤ c && c ≤ 0x0d)

def tolower (c : BitVec 8) : BitVec 8 := if 0x41 ≤ c && c ≤ 0x5a then c + 0x20 else c

/-- `strcasecmp(a, b) == 0`. -/
def eqIgnoreCase (a b : CString) : Bool := a.bytes.map tolower == b.bytes.map tolower

/-- `strncasecmp(a, b, n) == 0`. -/
def eqIgnoreCaseUpTo (n : Nat) (a b : CString) : Bool :=
  (a.bytes.take n).map tolower == (b.bytes.take n).map tolower

/-- What `strstr` finds: the text from the first occurrence on. -/
def strstr (text needle : List (BitVec 8)) : Option (List (BitVec 8)) :=
  if needle.isPrefixOf text then some text
  else
    match text with
    | [] => none
    | _ :: rest => strstr rest needle

/-- The number in front of the text and what is behind it, as `strtol` with base 10 finds them;
without digits the number is 0 and nothing is consumed. -/
def strtol (text : List (BitVec 8)) : Int × List (BitVec 8) :=
  let digit (c : BitVec 8) : Bool := 0x30 ≤ c && c ≤ 0x39
  let trimmed := text.dropWhile isspace
  let negative := trimmed.head? == some 0x2d
  let unsigned := if negative || trimmed.head? == some 0x2b then trimmed.drop 1 else trimmed
  match unsigned.takeWhile digit with
  | [] => (0, text)
  | digits =>
    let value : Nat := digits.foldl (fun n c => n * 10 + (c.toNat - 0x30)) 0
    (if negative then -value else value, unsigned.dropWhile digit)

theorem eqUpTo_strlen {a b : CString} : eqUpTo a.strlen a b = true ↔ a.bytes <+: b.bytes := by
  rw [eqUpTo, strlen, List.take_length, beq_iff_eq, List.prefix_iff_eq_take]

end CString

end Lib
