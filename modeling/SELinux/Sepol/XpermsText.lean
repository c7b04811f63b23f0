import SELinux.Lib.RangeText
import SELinux.Sepol.Decision
import SELinux.Sepol.Mls

/-! Extended permissions as text: `sepol_extended_perms_to_string` (`util.c`) writes them in the
words of a policy source. It has a buffer of fixed size, and looks one bit ahead to find out where a
range ends. -/
namespace SELinux.Sepol

open List BitVec Nat
open Lib (intervals Covered Cuts printTo hexText hexValue)

/-! ## Model -/

/-- `sizeof(xpermsbuf)`. -/
def xpermsbufSize : Nat := 2048

/-- The bits of `perms`. -/
def xpermsBits : Nat := 256

section

variable (x : ExtendedPerms) (p : XpermBits)

/-- `xperm_test`, for a bit that an `unsigned int` counts. -/
def bitTest (bit : Nat) : Bool := xpermTest (.ofNat 8 bit) p

def nextBitInRange (i : Nat) : Bool :=
  decide (i + 1 < xpermsBits) && bitTest p (i + 1)

/-- `0x%hx`. -/
def hx (v : BitVec 16) : Name := '0' :: 'x' :: hexText v.toNat

/-- `0x%hx-0x%hx`. -/
def hxRange (low high : BitVec 16) : Name := hx low ++ '-' :: hx high

/-- What is printed where a range, or a bit alone, ends; a blank is printed behind it. -/
def xpermsItem (inRange : Bool) (lowBit bit : Nat) : Name :=
  if x.specified &&& xpermsIoctlfunction ≠ 0 then
    let value := x.driver.setWidth 16 <<< 8 ||| .ofNat 16 bit
    (if inRange then hxRange (x.driver.setWidth 16 <<< 8 ||| .ofNat 16 lowBit) value
      else hx value) ++ [' ']
  else if x.specified &&& xpermsIoctldriver ≠ 0 then
    let value := BitVec.ofNat 16 bit <<< 8
    hxRange (if inRange then BitVec.ofNat 16 lowBit <<< 8 else value) (value ||| 0xff) ++ [' ']
  else []

/-- The state of the loop over the bits: what has been written, `in_range` and `low_bit`. -/
structure XpermsLoop where
  text : Name
  inRange : Bool := false
  lowBit : Nat := 0

/-- One round of the loop; `none` is the return of a null pointer, where there is no room. -/
def xpermsStep (s : XpermsLoop) (bit : Nat) : Option XpermsLoop :=
  if !bitTest x.perms bit then some s
  else if s.inRange && nextBitInRange x.perms bit then some s
  else if nextBitInRange x.perms bit then some { s with lowBit := bit, inRange := true }
  else (printTo xpermsbufSize s.text (xpermsItem x s.inRange s.lowBit bit)).map fun text =>
    { s with text, inRange := false }

def sepolExtendedPermsToString : Option Name :=
  if x.specified ≠ xpermsIoctlfunction ∧ x.specified ≠ xpermsIoctldriver then none
  else do
    let s ← (range xpermsBits).foldlM (xpermsStep x) { text := "ioctl \x7b ".toList }
    printTo xpermsbufSize s.text ['\x7d']

/-! ## The loop -/

/-- The values between which an interval of bits is printed. -/
def xpermsRange (r : Nat × Nat) : BitVec 16 × BitVec 16 :=
  if x.specified = xpermsIoctlfunction then
    (x.driver.setWidth 16 <<< 8 ||| .ofNat 16 r.1, x.driver.setWidth 16 <<< 8 ||| .ofNat 16 r.2)
  else (BitVec.ofNat 16 r.1 <<< 8, BitVec.ofNat 16 r.2 <<< 8 ||| 0xff)

/-- The word for an interval of bits. -/
def xpermsToken (r : Nat × Nat) : Name :=
  if x.specified = xpermsIoctlfunction ∧ r.1 = r.2 then hx (xpermsRange x r).2
  else hxRange (xpermsRange x r).1 (xpermsRange x r).2

/-- The bits that are set. -/
def xpermsSet : List Nat := (range xpermsBits).filter (bitTest p)

def xpermsIntervals : List (Nat × Nat) :=
  intervals (nextBitInRange p) none (xpermsSet p)

end

variable {bit : Nat}

section Loop

variable {x : ExtendedPerms}
  (hspec : x.specified = xpermsIoctlfunction ∨ x.specified = xpermsIoctldriver)
include hspec

theorem xpermsItem_alone (lowBit bit : Nat) :
    xpermsItem x false lowBit bit = xpermsToken x (bit, bit) ++ [' '] := by
  rcases hspec with hspec | hspec <;>
    simp [xpermsItem, xpermsToken, xpermsRange, hspec, xpermsIoctlfunction, xpermsIoctldriver]

theorem xpermsItem_range {lowBit : Nat} (hlt : lowBit < bit) :
    xpermsItem x true lowBit bit = xpermsToken x (lowBit, bit) ++ [' '] := by
  rcases hspec with hspec | hspec <;>
    simp [xpermsItem, xpermsToken, xpermsRange, hspec, xpermsIoctlfunction, xpermsIoctldriver,
      hlt.ne]

/-- Where an interval begins, while one is open. -/
def XpermsLoop.start (s : XpermsLoop) : Option Nat := if s.inRange then some s.lowBit else none

theorem xpermsLoop_eq {l : List Nat} (hl : l.Pairwise (· < ·)) {s : XpermsLoop}
    (hs : ∀ low ∈ s.start, ∀ bit ∈ l, low < bit) : (l.foldlM (xpermsStep x) s).map XpermsLoop.text =
      ((intervals (nextBitInRange x.perms) s.start (l.filter (bitTest x.perms))).map
        (xpermsToken x · ++ [' '])).foldlM (printTo xpermsbufSize) s.text := by
  induction l generalizing s with
  | nil => rfl
  | cons bit l ih =>
    obtain ⟨hfirst, hl⟩ := pairwise_cons.mp hl
    have hrest : ∀ low ∈ s.start, ∀ bit ∈ l, low < bit := fun low hlow b hb =>
      hs low hlow b (mem_cons_of_mem bit hb)
    rw [foldlM_cons, xpermsStep]
    by_cases htest : bitTest x.perms bit = true
    · rw [if_neg (by simp [htest]), filter_cons_of_pos htest, intervals]
      by_cases hnext : nextBitInRange x.perms bit = true
      · rw [if_pos hnext, hnext, Bool.and_true, if_pos rfl]
        cases hrange : s.inRange with
        | true =>
          have hstart : s.start = some s.lowBit := if_pos hrange
          rw [if_pos rfl, hstart, Option.getD_some, ← hstart]
          exact ih hl hrest
        | false =>
          have hstart : s.start = none := if_neg (by simp [hrange])
          rw [if_neg Bool.false_ne_true, hstart, Option.getD_none]
          exact ih (s := { s with lowBit := bit, inRange := true }) hl fun low hlow => by
            obtain rfl := Option.mem_some.mp hlow
            exact hfirst
      · have hitem : xpermsItem x s.inRange s.lowBit bit =
            xpermsToken x (s.start.getD bit, bit) ++ [' '] := by
          cases hrange : s.inRange with
          | true =>
            have hstart : s.start = some s.lowBit := if_pos hrange
            rw [hstart]
            exact xpermsItem_range hspec (hs _ hstart bit mem_cons_self)
          | false =>
            rw [show s.start = none from if_neg (by simp [hrange])]
            exact xpermsItem_alone hspec s.lowBit bit
        rw [if_neg hnext, if_neg (by simp [hnext]), if_neg hnext, map_cons, foldlM_cons, hitem]
        cases hprint :
          printTo xpermsbufSize s.text (xpermsToken x (s.start.getD bit, bit) ++ [' ']) with
        | none => rfl
        | some text =>
          exact ih (s := { s with text, inRange := false }) hl fun low hlow => by cases hlow
    · rw [if_pos (by simp [htest]), filter_cons_of_neg htest]
      exact ih hl hrest

end Loop

theorem mem_xpermsSet {p bit} : bit ∈ xpermsSet p ↔ bit < xpermsBits ∧ bitTest p bit = true := by
  simp [xpermsSet]

theorem cuts_xpermsSet (p : XpermBits) : Cuts (nextBitInRange p) (xpermsSet p) where
  sorted := pairwise_lt_range.filter _
  more bit _ := by rw [nextBitInRange, Bool.and_eq_true, decide_eq_true_eq, mem_xpermsSet]

theorem covered_xpermsIntervals {p bit} :
    Covered (xpermsIntervals p) bit ↔ bit < xpermsBits ∧ bitTest p bit = true := by
  rw [xpermsIntervals, Lib.covered_intervals (cuts_xpermsSet p) (fun s hs => by cases hs),
    mem_xpermsSet]
  simp

theorem xpermsIntervals_le {p r} (hr : r ∈ xpermsIntervals p) : r.1 ≤ r.2 ∧ r.2 < xpermsBits := by
  have h := Lib.intervals_le (cuts_xpermsSet p) (fun s hs => by cases hs) r hr
  exact ⟨h.1, (mem_xpermsSet.mp h.2).1⟩

theorem sum_xpermsIntervals (p : XpermBits) :
    ((xpermsIntervals p).map fun r => r.2 + 2 - r.1).sum ≤ xpermsBits + 1 := by
  have hopen : ∀ s ∈ (none : Option Nat), s ≤ 0 := fun s hs => by cases hs
  have h := Lib.sum_intervals_le (cuts_xpermsSet p) (fun bit hbit => (mem_xpermsSet.mp hbit).1)
    (fun bit _ => zero_le bit) (zero_le _) hopen
  exact le_trans (le_add_right _ _) h

/-! ## Values -/

theorem toNat_command (driver : BitVec 8) (h : bit < xpermsBits) :
    (driver.setWidth 16 <<< 8 ||| BitVec.ofNat 16 bit).toNat = driver.toNat * 256 + bit := by
  have hbit : bit < 2 ^ 8 := h
  have hdriver := driver.isLt
  rw [toNat_or, toNat_shiftLeft, toNat_setWidth, toNat_ofNat,
    mod_eq_of_lt (show driver.toNat < 2 ^ 16 by omega),
      Nat.mod_eq_of_lt (show bit < 2 ^ 16 by omega),
    Nat.mod_eq_of_lt (by rw [Nat.shiftLeft_eq]; omega), ← Nat.shiftLeft_add_eq_or_of_lt hbit,
      Nat.shiftLeft_eq]

theorem toNat_driverLow (h : bit < xpermsBits) : (BitVec.ofNat 16 bit <<< 8).toNat = bit * 256 := by
  have hbit : bit < 2 ^ 8 := h
  rw [toNat_shiftLeft, toNat_ofNat, Nat.mod_eq_of_lt (show bit < 2 ^ 16 by omega), Nat.shiftLeft_eq,
    mod_eq_of_lt (by omega)]

theorem toNat_driverHigh (h : bit < xpermsBits) :
    (BitVec.ofNat 16 bit <<< 8 ||| 0xff).toNat = bit * 256 + 255 := by
  have hbit : bit < 2 ^ 8 := h
  rw [toNat_or, toNat_shiftLeft, toNat_ofNat, mod_eq_of_lt (show bit < 2 ^ 16 by omega),
    Nat.mod_eq_of_lt (by rw [Nat.shiftLeft_eq]; omega)]
  exact (shiftLeft_add_eq_or_of_lt (show 255 < 2 ^ 8 by decide) bit).symm.trans
    (by rw [Nat.shiftLeft_eq])

section Values

variable {x : ExtendedPerms} {v : Nat}

theorem xpermsRange_function (hspec : x.specified = xpermsIoctlfunction) {r}
    (hr : r ∈ xpermsIntervals x.perms) : (xpermsRange x r).1.toNat = x.driver.toNat * 256 + r.1 ∧
      (xpermsRange x r).2.toNat = x.driver.toNat * 256 + r.2 := by
  have hle := xpermsIntervals_le hr
  rw [xpermsRange, if_pos hspec]
  exact ⟨toNat_command _ (by omega), toNat_command _ hle.2⟩

theorem xpermsRange_driver (hspec : x.specified = xpermsIoctldriver) {r}
    (hr : r ∈ xpermsIntervals x.perms) :
    (xpermsRange x r).1.toNat = r.1 * 256 ∧ (xpermsRange x r).2.toNat = r.2 * 256 + 255 := by
  have hle := xpermsIntervals_le hr
  have hne : x.specified ≠ xpermsIoctlfunction := by
    rw [hspec]
    decide
  rw [xpermsRange, if_neg hne]
  exact ⟨toNat_driverLow (by omega), toNat_driverHigh hle.2⟩

theorem bitTest_toNat (p : XpermBits) (b : BitVec 8) : bitTest p b.toNat = xpermTest b p := by
  simp [bitTest]

/-- The commands of the intervals. -/
def XpermsCovered (x : ExtendedPerms) (v : Nat) : Prop :=
  ∃ r ∈ xpermsIntervals x.perms, (xpermsRange x r).1.toNat ≤ v ∧ v ≤ (xpermsRange x r).2.toNat

theorem xpermsCovered_function (hspec : x.specified = xpermsIoctlfunction) :
    XpermsCovered x v ↔ ∃ driver func : BitVec 8, v = driver.toNat * 256 + func.toNat ∧
      x.grants driver func = true := by
  constructor
  · rintro ⟨r, hr, hlow, hhigh⟩
    rw [(xpermsRange_function hspec hr).1] at hlow
    rw [(xpermsRange_function hspec hr).2] at hhigh
    have hcovered : Covered (xpermsIntervals x.perms) (v - x.driver.toNat * 256) :=
      ⟨r, hr, by omega, by omega⟩
    obtain ⟨hbit, htest⟩ := covered_xpermsIntervals.mp hcovered
    refine ⟨x.driver, .ofNat 8 (v - x.driver.toNat * 256), ?_, ?_⟩
    · rw [toNat_ofNat, mod_eq_of_lt (show _ < 2 ^ 8 from hbit)]
      omega
    · rw [ExtendedPerms.grants_function hspec, Bool.and_eq_true]
      exact ⟨beq_self_eq_true _, htest⟩
  · rintro ⟨driver, func, rfl, hgrants⟩
    rw [ExtendedPerms.grants_function hspec, Bool.and_eq_true, beq_iff_eq] at hgrants
    obtain ⟨rfl, htest⟩ := hgrants
    rw [← bitTest_toNat] at htest
    obtain ⟨r, hr, hlow, hhigh⟩ := covered_xpermsIntervals.mpr ⟨func.isLt, htest⟩
    refine ⟨r, hr, ?_, ?_⟩
    · rw [(xpermsRange_function hspec hr).1]
      omega
    · rw [(xpermsRange_function hspec hr).2]
      omega

theorem xpermsCovered_driver (hspec : x.specified = xpermsIoctldriver) :
    XpermsCovered x v ↔ ∃ driver func : BitVec 8, v = driver.toNat * 256 + func.toNat ∧
      x.grants driver func = true := by
  constructor
  · rintro ⟨r, hr, hlow, hhigh⟩
    rw [(xpermsRange_driver hspec hr).1] at hlow
    rw [(xpermsRange_driver hspec hr).2] at hhigh
    have hcovered : Covered (xpermsIntervals x.perms) (v / 256) := ⟨r, hr, by omega, by omega⟩
    obtain ⟨hbit, htest⟩ := covered_xpermsIntervals.mp hcovered
    refine ⟨.ofNat 8 (v / 256), .ofNat 8 (v % 256), ?_, ?_⟩
    · rw [toNat_ofNat, toNat_ofNat, mod_eq_of_lt (show _ < 2 ^ 8 from hbit)]
      omega
    · rw [ExtendedPerms.grants_driver hspec]
      exact htest
  · rintro ⟨driver, func, rfl, hgrants⟩
    rw [ExtendedPerms.grants_driver hspec, ← bitTest_toNat] at hgrants
    have hfunc := func.isLt
    obtain ⟨r, hr, hlow, hhigh⟩ := covered_xpermsIntervals.mpr ⟨driver.isLt, hgrants⟩
    refine ⟨r, hr, ?_, ?_⟩
    · rw [(xpermsRange_driver hspec hr).1]
      omega
    · rw [(xpermsRange_driver hspec hr).2]
      omega

/-- The values of the intervals are the commands that the set names. -/
theorem xpermsCovered_iff
    (hspec : x.specified = xpermsIoctlfunction ∨ x.specified = xpermsIoctldriver) :
    XpermsCovered x v ↔ ∃ driver func : BitVec 8, v = driver.toNat * 256 + func.toNat ∧
      x.grants driver func = true := by
  rcases hspec with hspec | hspec
  · exact xpermsCovered_function hspec
  · exact xpermsCovered_driver hspec

end Values

/-! ## Reading the text -/

def isHexDigit (c : Char) : Bool := c.isDigit || ('a' ≤ c && c ≤ 'f')

def readNumber : Name → Option Nat
  | '0' :: 'x' :: digits =>
    if !digits.isEmpty && digits.all isHexDigit then some (hexValue digits) else none
  | _ => none

/-- A value, or a range of values. -/
def readRange (token : Name) : Option (Nat × Nat) :=
  match token.splitOn '-' with
  | [v] => (readNumber v).map fun v => (v, v)
  | [low, high] => do
    let low ← readNumber low
    let high ← readNumber high
    some (low, high)
  | _ => none

/-- The ranges up to the closing brace. -/
def readRanges : List Name → Option (List (Nat × Nat))
  | [] => none
  | [closing] => if closing = ['\x7d'] then some [] else none
  | token :: rest => do
    let r ← readRange token
    let rs ← readRanges rest
    some (r :: rs)

/-- The words of `ioctl { ... }`. -/
def readXperms (text : Name) : Option (List (Nat × Nat)) :=
  match text.splitOn ' ' with
  | keyword :: opening :: rest =>
    if keyword = "ioctl".toList ∧ opening = ['\x7b'] then readRanges rest else none
  | _ => none

theorem isHexDigit_digitChar {d : Nat} (h : d < 16) : isHexDigit d.digitChar = true := by
  have hall : ∀ d : Fin 16, isHexDigit d.val.digitChar = true := by decide
  exact hall ⟨d, h⟩

theorem readNumber_hx (v : BitVec 16) : readNumber (hx v) = some v.toNat := by
  have hdigits : (hexText v.toNat).all isHexDigit = true := by
    rw [all_eq_true]
    intro c hc
    obtain ⟨d, hd, rfl⟩ := Lib.mem_hexText hc
    exact isHexDigit_digitChar hd
  have hne : (hexText v.toNat).isEmpty = false := by
    rw [isEmpty_eq_false_iff]
    exact toDigits_ne_nil
  rw [hx, readNumber, hdigits, hne, Lib.hexValue_hexText]
  rfl

theorem not_mem_hx {v c} (hc : isHexDigit c = false) (hx' : c ≠ 'x') : c ∉ hx v := by
  intro hmem
  rcases mem_cons.mp hmem with rfl | hmem
  · cases hc
  · rcases mem_cons.mp hmem with rfl | hmem
    · exact hx' rfl
    · obtain ⟨d, hd, rfl⟩ := Lib.mem_hexText hmem
      rw [isHexDigit_digitChar hd] at hc
      cases hc

variable (x : ExtendedPerms)

theorem readRange_value {v : Name} (hdash : '-' ∉ v) : readRange v = (readNumber v).map fun v =>
    (v, v) := by
  have hsplit : ['-'].intercalate [v] = v := by simp
  have := @splitOn_intercalate Char [v] _ _ '-' (by simpa using hdash) (by simp)
  rw [hsplit] at this
  rw [readRange, this]

theorem readRange_range {low high : Name} (hlow : '-' ∉ low) (hhigh : '-' ∉ high) :
    readRange (low ++ '-' :: high) =
      (readNumber low).bind fun low => (readNumber high).bind fun high => some (low, high) := by
  have hsplit : ['-'].intercalate [low, high] = low ++ '-' :: high := by simp [intercalate]
  have := @splitOn_intercalate Char [low, high] _ _ '-' (by simpa using ⟨hlow, hhigh⟩)
    (by simp)
  rw [hsplit] at this
  rw [readRange, this]
  rfl

theorem readRange_xpermsToken (r : Nat × Nat) :
    readRange (xpermsToken x r) = some ((xpermsRange x r).1.toNat, (xpermsRange x r).2.toNat) := by
  have hdash : ∀ v : BitVec 16, '-' ∉ hx v := fun v => not_mem_hx (by decide) (by decide)
  rw [xpermsToken]
  split_ifs with h
  · simp [xpermsRange, if_pos h.1, h.2, readRange_value (hdash _), readNumber_hx]
  · simp [hxRange, readRange_range (hdash _) (hdash _), readNumber_hx]

theorem blank_not_mem_xpermsToken (r : Nat × Nat) : ' ' ∉ xpermsToken x r := by
  have hblank : ∀ v : BitVec 16, ' ' ∉ hx v := fun v => not_mem_hx (by decide) (by decide)
  rw [xpermsToken]
  split_ifs
  · exact hblank _
  · simp [hxRange, hblank]

theorem readRanges_tokens (rs : List (Nat × Nat)) :
    readRanges (rs.map (xpermsToken x) ++ [['\x7d']]) =
      some (rs.map fun r => ((xpermsRange x r).1.toNat, (xpermsRange x r).2.toNat)) := by
  induction rs with
  | nil => rfl
  | cons r rs ih =>
    have hcons : ∀ (t : Name) (ts : List Name), readRanges (t :: (ts ++ [['\x7d']])) =
        (readRange t).bind fun r => (readRanges (ts ++ [['\x7d']])).bind fun rs =>
          some (r :: rs) := by
      intro t ts
      cases ts <;> rfl
    simp [hcons, readRange_xpermsToken, ih]

theorem readXperms_tokens (rs : List (Nat × Nat)) :
    readXperms ("ioctl \x7b ".toList ++ (rs.map (xpermsToken x · ++ [' '])).flatten ++ ['\x7d']) =
      some (rs.map fun r => ((xpermsRange x r).1.toNat, (xpermsRange x r).2.toNat)) := by
  have hwords : "ioctl \x7b ".toList ++ (rs.map (xpermsToken x · ++ [' '])).flatten ++ ['\x7d'] =
      [' '].intercalate ("ioctl".toList :: ['\x7b'] :: rs.map (xpermsToken x) ++ [['\x7d']]) := by
    rw [Lib.intercalate_blank, map_cons, map_cons, map_map]
    rfl
  have hblank : ∀ word ∈ "ioctl".toList :: ['\x7b'] :: rs.map (xpermsToken x) ++ [['\x7d']],
      ' ' ∉ word := by
    intro word hword
    simp only [List.cons_append, mem_cons, mem_append, mem_map, not_mem_nil, or_false] at hword
    rcases hword with rfl | rfl | ⟨r, -, rfl⟩ | rfl
    · decide
    · decide
    · exact blank_not_mem_xpermsToken x r
    · decide
  rw [readXperms, hwords, splitOn_intercalate ' ' hblank (by simp)]
  exact (if_pos ⟨rfl, rfl⟩).trans (readRanges_tokens x rs)

/-! ## The room that is needed -/

theorem length_hx_le (v : BitVec 16) : (hx v).length ≤ 6 := by
  have h : (hexText v.toNat).length ≤ 4 :=
    (length_toDigits_le_iff (by decide) (by decide)).mpr v.isLt
  rw [hx, length_cons, length_cons]
  omega

theorem length_xpermsToken_le (r : Nat × Nat) : (xpermsToken x r).length ≤ 13 := by
  have hlow := length_hx_le (xpermsRange x r).1
  have hhigh := length_hx_le (xpermsRange x r).2
  rw [xpermsToken]
  split_ifs
  · omega
  · rw [hxRange, length_append, length_cons]
    omega

/-- The text of a whole set. -/
def xpermsText : Name := ((xpermsIntervals x.perms).map (xpermsToken x · ++ [' '])).flatten

/-- A word and its blank take seven characters at most for each bit of the interval and the bit
behind it. -/
theorem length_flatten_le {rs : List (Nat × Nat)} (hrs : ∀ r ∈ rs, r.1 ≤ r.2) :
    (rs.map (xpermsToken x · ++ [' '])).flatten.length ≤
      7 * (rs.map fun r => r.2 + 2 - r.1).sum := by
  induction rs with
  | nil => simp
  | cons r rs ih =>
    obtain ⟨hr, hrs⟩ := forall_mem_cons.mp hrs
    have hrest := ih hrs
    have htoken := length_xpermsToken_le x r
    rw [map_cons, flatten_cons, length_append, length_append, length_singleton, map_cons, sum_cons]
    omega

theorem length_xpermsText_le : (xpermsText x).length ≤ 1799 := by
  have hlength := length_flatten_le x fun r hr => (xpermsIntervals_le (p := x.perms) hr).1
  have hsum := sum_xpermsIntervals x.perms
  rw [xpermsBits] at hsum
  rw [xpermsText]
  omega

/-! ## The results -/

section Results

variable {x : ExtendedPerms}
    (hspec : x.specified = xpermsIoctlfunction ∨ x.specified = xpermsIoctldriver)
include hspec

/-- What the loop leaves in the buffer. -/
theorem xpermsLoop_text (text : Name) (htext : text.length < xpermsbufSize) :
    ((range xpermsBits).foldlM (xpermsStep x) { text }).map XpermsLoop.text =
      if text.length + (xpermsText x).length < xpermsbufSize then some (text ++ xpermsText x)
      else none := by
  have hnone : ∀ low ∈ XpermsLoop.start { text }, ∀ bit ∈ range xpermsBits, low < bit :=
    fun low hlow => by
    cases hlow
  rw [xpermsLoop_eq hspec pairwise_lt_range hnone]
  exact Lib.foldlM_printTo xpermsbufSize _ (.inl htext)

theorem sepolExtendedPermsToString_eq : sepolExtendedPermsToString x =
      some ("ioctl \x7b ".toList ++ xpermsText x ++ ['\x7d']) := by
  have hlength := length_xpermsText_le x
  have hhead : "ioctl \x7b ".toList.length = 8 := by decide
  have hloop := xpermsLoop_text hspec "ioctl \x7b ".toList (by decide)
  rw [if_pos (by rw [hhead, xpermsbufSize]; omega)] at hloop
  obtain ⟨s, hs, htext⟩ := Option.map_eq_some_iff.mp hloop
  rw [sepolExtendedPermsToString, if_neg fun h => hspec.elim h.1 h.2, hs, Option.bind_eq_bind,
    Option.bind_some, htext,
    printTo, if_neg]
  rw [length_append, hhead, length_singleton, xpermsbufSize]
  omega

/-- The text that `sepol_extended_perms_to_string` returns fits into its buffer, and its values and
ranges are the commands of the set. -/
theorem sepolExtendedPermsToString_exact : ∃ text items, sepolExtendedPermsToString x = some text ∧
    text.length < xpermsbufSize ∧ readXperms text = some items ∧ ∀ v, Covered items v ↔
      ∃ driver func : BitVec 8, v = driver.toNat * 256 + func.toNat ∧
        x.grants driver func = true := by
  refine ⟨_, _, sepolExtendedPermsToString_eq hspec, ?_, readXperms_tokens x _, fun v => ?_⟩
  · have hlength := length_xpermsText_le x
    have hhead : "ioctl \x7b ".toList.length = 8 := by decide
    rw [length_append, length_append, hhead, length_singleton, xpermsbufSize]
    omega
  · rw [← xpermsCovered_iff hspec]
    simp only [Covered, mem_map, exists_exists_and_eq_and]
    rfl

end Results

/-- Some commands of a terminal. -/
theorem sepolExtendedPermsToString_exact_tty : ∃ text items,
    sepolExtendedPermsToString ⟨xpermsIoctlfunction, 0x54, 0x80e⟩ = some text ∧
      text.length < xpermsbufSize ∧
    readXperms text = some items ∧ ∀ v, Covered items v ↔ ∃ driver func : BitVec 8,
      v = driver.toNat * 256 + func.toNat ∧
        ExtendedPerms.grants ⟨xpermsIoctlfunction, 0x54, 0x80e⟩ driver func = true :=
  sepolExtendedPermsToString_exact (.inl rfl)

end SELinux.Sepol
