import SELinux.Lib.CString

/-!
# File-label specifications

The stored configuration of a file-label handle (`struct saved_data` of `label_file.h`): the
specifications in file order, the table of stems they refer to, and `sort_specs`, which moves the
exact pathnames behind the regular expressions.
-/

namespace SELinux.Label

open List
open Lib (CString)

def charByte (c : Char) : BitVec 8 := .ofNat 8 c.toNat

/-- `struct stem`: `len` is the stored length, which for a stem of a compiled file need not be
the length of the text. -/
structure Stem where
  buf : CString
  len : Nat
  deriving DecidableEq

/-- `struct spec`, over the type of the compiled form of a pattern; a `stem_id` of -1 is
`none`. -/
structure Spec (ρ : Type) where
  ctxRaw : CString
  validated : Bool
  regexStr : CString
  regex : Option ρ
  mode : BitVec 32
  stemId : Option Nat
  hasMetaChars : Bool
  prefixLen : Nat
  deriving DecidableEq

structure SavedData (ρ : Type) where
  specArr : List (Spec ρ)
  stemArr : List Stem
  stemId_lt : ∀ s ∈ specArr, ∀ k ∈ s.stemId, k < stemArr.length

variable {ρ : Type}

/-- The stem that a specification refers to. -/
def SavedData.stem (d : SavedData ρ) (s : Spec ρ) : Option Stem :=
  s.stemId.bind fun k => d.stemArr[k]?

variable (d : SavedData ρ)

section

variable (buf : CString) (s : Spec ρ)

theorem addSpec_stemId_lt (stem : Option (Fin d.stemArr.length)) :
    ∀ t ∈ d.specArr ++ [{ s with stemId := stem.map Fin.val }], ∀ k ∈ t.stemId,
      k < d.stemArr.length := by
  intro t ht k hk
  rcases mem_append.mp ht with ht | ht
  · exact d.stemId_lt t ht k hk
  · rw [mem_singleton.mp ht, Option.mem_def, Option.map_eq_some_iff] at hk
    obtain ⟨i, -, rfl⟩ := hk
    exact i.isLt

/-- A specification at the end of the array, with its stem. -/
def SavedData.addSpec (stem : Option (Fin d.stemArr.length)) : SavedData ρ :=
  ⟨d.specArr ++ [{ s with stemId := stem.map Fin.val }], d.stemArr, addSpec_stemId_lt d s stem⟩

/-! ## Patterns and their stems -/

/-- The characters `.^$?*+|[({`. -/
def metaChars : List (BitVec 8) := ['.', '^', '$', '?', '*', '+', '|', '[', '(', '{'].map charByte

/-- The place of the first meta character that no backslash precedes. -/
def metaPos : List (BitVec 8) → Option Nat
  | [] => none
  | c :: rest =>
    if c ∈ metaChars then some 0
    else if c = charByte '\\' then
      match rest with
      | [] => none
      | _ :: rest => (metaPos rest).map (· + 2)
    else (metaPos rest).map (· + 1)

/-- `spec_hasMetaChars`. -/
def Spec.withMetaChars : Spec ρ :=
  { s with
    hasMetaChars := (metaPos s.regexStr.bytes).isSome
    prefixLen := (metaPos s.regexStr.bytes).getD s.regexStr.strlen }

/-- The length of the text before the second slash, if there is one and no meta character stands
before it. -/
def getStemFromSpec : Nat :=
  match (buf.bytes.drop 1).idxOf? (charByte '/') with
  | none => 0
  | some i => if (buf.bytes.take (i + 1)).any (· ∈ metaChars) then 0 else i + 1

def SavedData.findStem (stemLen : Nat) : Option (Fin d.stemArr.length) :=
  d.stemArr.findFinIdx? fun t => stemLen == t.len && CString.eqUpTo stemLen buf t.buf

theorem storeStem_stemId_lt (t : Stem) :
    ∀ s ∈ d.specArr, ∀ k ∈ s.stemId, k < (d.stemArr ++ [t]).length := by
  intro s hs k hk
  have hlt := d.stemId_lt s hs k hk
  rw [length_append]
  omega

def SavedData.storeStem (t : Stem) : SavedData ρ :=
  ⟨d.specArr, d.stemArr ++ [t], storeStem_stemId_lt d t⟩

theorem length_lt_storeStem (t : Stem) : d.stemArr.length < (d.storeStem t).stemArr.length := by
  simp [SavedData.storeStem]

/-- The stem is looked up and stored if it is new. -/
def SavedData.internStem (stemLen : Nat) : (d' : SavedData ρ) × Fin d'.stemArr.length :=
  match d.findStem buf stemLen with
  | some k => ⟨d, k⟩
  | none =>
    let t : Stem := ⟨.ofBuffer (buf.bytes.take stemLen), stemLen⟩
    ⟨d.storeStem t, ⟨d.stemArr.length, length_lt_storeStem d t⟩⟩

def findStemFromSpec : (d' : SavedData ρ) × Option (Fin d'.stemArr.length) :=
  let stemLen := getStemFromSpec buf
  if stemLen = 0 then ⟨d, none⟩
  else
    let found := d.internStem buf stemLen
    ⟨found.1, some found.2⟩

/-! ## `sort_specs` -/

/-- The first loop of `sort_specs`: regular expressions fill the copy from the front, exact
pathnames from the back. -/
def moveExact : List (Spec ρ) → List (Spec ρ) → List (Spec ρ) → List (Spec ρ) × List (Spec ρ)
  | [], front, back => (front, back)
  | s :: rest, front, back =>
    if s.hasMetaChars then moveExact rest (front ++ [s]) back
    else moveExact rest front (s :: back)

/-- The second loop: the front and the back element change places until the two meet. -/
def switchEnds {α : Type} (l : List α) : List α :=
  match l with
  | [] => []
  | [x] => [x]
  | x :: y :: rest =>
    (y :: rest).getLast (cons_ne_nil y rest) :: switchEnds (y :: rest).dropLast ++ [x]
termination_by l.length
decreasing_by simp only [length_dropLast, length_cons]; omega

def sortedSpecs (l : List (Spec ρ)) : List (Spec ρ) :=
  let moved := moveExact l [] []
  moved.1 ++ switchEnds moved.2

theorem moveExact_eq (l front back : List (Spec ρ)) : moveExact l front back =
      (front ++ l.filter (·.hasMetaChars), (l.filter (!·.hasMetaChars)).reverse ++ back) := by
  induction l generalizing front back with
  | nil => simp [moveExact]
  | cons s rest ih =>
    rw [moveExact]
    cases hs : s.hasMetaChars with
    | true => simp [ih, hs]
    | false => simp [ih, hs]

theorem switchEnds_eq_reverse {α : Type} (l : List α) : switchEnds l = l.reverse := by
  induction l using switchEnds.induct with
  | case1 => simp [switchEnds]
  | case2 x => simp [switchEnds]
  | case3 x y rest ih =>
    have hlast := dropLast_concat_getLast (cons_ne_nil y rest)
    calc switchEnds (x :: y :: rest)
        = (y :: rest).getLast (cons_ne_nil y rest) :: (y :: rest).dropLast.reverse ++ [x] := by
          rw [switchEnds, ih]
      _ = ((y :: rest).dropLast ++ [(y :: rest).getLast (cons_ne_nil y rest)]).reverse ++ [x] := by
          simp
      _ = (y :: rest).reverse ++ [x] := by rw [hlast]
      _ = (x :: y :: rest).reverse := reverse_cons.symm

/-- The regular expressions come first and the exact pathnames last, each in their own order. -/
theorem sortedSpecs_eq (l : List (Spec ρ)) :
    sortedSpecs l = l.filter (·.hasMetaChars) ++ l.filter (!·.hasMetaChars) := by
  simp [sortedSpecs, moveExact_eq, switchEnds_eq_reverse]

theorem mem_sortedSpecs {l : List (Spec ρ)} {s : Spec ρ} : s ∈ sortedSpecs l ↔ s ∈ l := by
  rw [sortedSpecs_eq]
  cases hs : s.hasMetaChars <;> simp [hs]

theorem sortedSpecs_stemId_lt : ∀ s ∈ sortedSpecs d.specArr, ∀ k ∈ s.stemId, k < d.stemArr.length :=
  fun s hs => d.stemId_lt s (mem_sortedSpecs.mp hs)

def sortSpecs : SavedData ρ :=
  ⟨sortedSpecs d.specArr, d.stemArr, sortedSpecs_stemId_lt d⟩

end

end SELinux.Label
