import Mathlib.Data.List.Chain
import SELinux.Label.FileLoad

/-!
# Looking up a file

`lookup_all` of `label_file.c` tries the specifications from the last one to the first one. A
specification with a stem is only tried on the paths below that stem, unless partial matches are
asked for.
-/

namespace SELinux.Label

open List
open Lib (CString)

variable {ρ : Type}

/-! ## The key -/

abbrev slash : BitVec 8 := charByte '/'

/-- `Remove duplicate slashes`: of each `//` that `strstr` finds, the first slash is left out. -/
def removeDuplicateSlashes : List (BitVec 8) → List (BitVec 8)
  | [] => []
  | [c] => [c]
  | c :: d :: rest =>
    if c = slash ∧ d = slash then removeDuplicateSlashes (d :: rest)
    else c :: removeDuplicateSlashes (d :: rest)

def removeTrailingSlash (key : List (BitVec 8)) : List (BitVec 8) :=
  if 1 < key.length ∧ key.getLast? = some slash then key.dropLast else key

/-- The key without superfluous slashes; there is none for the empty string. -/
def cleanKey (key : CString) : Option CString :=
  let key := removeDuplicateSlashes key.bytes
  if key = [] then none else some (.ofBuffer (removeTrailingSlash key))

/-- `struct selabel_sub`. -/
structure SelabelSub where
  src : CString
  dst : CString
  deriving DecidableEq

def selabelSub : List SelabelSub → CString → Option CString
  | [], _ => none
  | sub :: rest, src =>
    let next := src.bytes[sub.src.strlen]?
    if CString.eqUpTo sub.src.strlen sub.src src ∧ (next = some slash ∨ next = none) then
      let len := if next = some slash ∧ sub.dst.bytes = [slash] then sub.src.strlen + 1
        else sub.src.strlen
      some (.ofBuffer (sub.dst.bytes ++ src.bytes.drop len))
    else selabelSub rest src

/-- The substitutions of a handle, local ones and those of the distribution. -/
structure Subs where
  subs : List SelabelSub
  distSubs : List SelabelSub

def selabelSubKey (s : Subs) (key : CString) : Option CString :=
  match selabelSub s.subs key with
  | some ptr => some ((selabelSub s.distSubs ptr).getD ptr)
  | none => selabelSub s.distSubs key

/-- The key that the specifications are tried on. -/
def lookupKey (s : Subs) (key : CString) : Option CString :=
  (cleanKey key).map fun key => (selabelSubKey s key).getD key

/-- No two slashes in a row, and none at the end of a longer key. -/
structure Normal (key : List (BitVec 8)) : Prop where
  ne_nil : key ≠ []
  single : key.IsChain fun c d => ¬(c = slash ∧ d = slash)
  getLast : key = [slash] ∨ key.getLast? ≠ some slash

theorem Normal.cons {key} (hkey : Normal key) (hroot : key ≠ [slash]) {c} (hc : c ≠ slash) :
    Normal (c :: key) := by
  obtain ⟨d, l, rfl⟩ := exists_cons_of_ne_nil hkey.ne_nil
  refine ⟨cons_ne_nil _ _, .cons_cons (fun h => hc h.1) hkey.single, .inr ?_⟩
  exact hkey.getLast.resolve_left hroot

variable {key : CString} {r : Request}

/-! ## The lookup -/

def getStemFromFileName (buf : CString) : Nat :=
  match (buf.bytes.drop 1).idxOf? slash with
  | none => 0
  | some i => i + 1

def findStemFromFile (d : SavedData ρ) (key : CString) : Option (Fin d.stemArr.length) :=
  let stemLen := getStemFromFileName key
  if stemLen = 0 then none else d.findStem key stemLen

inductive RegexResult where
  | isMatch | partialMatch | noMatch | error
  deriving DecidableEq

/-- `compile_regex`: a pattern that is not compiled yet is compiled between anchors. -/
def compileRegex (lib : Library ρ) (s : Spec ρ) : Option ρ :=
  s.regex <|> lib.regexPrepareData (anchoredRegex s.regexStr)

/-- `regex_match`, of a key and with or without partial matches. -/
abbrev RegexMatch (ρ : Type) := ρ → List (BitVec 8) → Bool → RegexResult

/-- What a lookup asks for: whether partial matches count, whether all matches are wanted or the
first one found, and the type of the file. -/
structure Request where
  isPartial : Bool
  matchCount : Bool
  mode : BitVec 32

section

variable (lib : Library ρ) (regexMatch : RegexMatch ρ)

/-- The loop of `lookup_all` over the specifications that are left, with the test of the stem as a
parameter: the matches in the order in which they are found, which is empty for a null pointer. -/
def lookupSpecs (stemMatches : Spec ρ → Bool) (key : CString) (r : Request) :
    List (Spec ρ) → List (Spec ρ)
  | [] => []
  | spec :: rest =>
    let mode := r.mode &&& 0xf000
    if (r.isPartial ∨ stemMatches spec) ∧ (mode = 0 ∨ spec.mode = 0 ∨ mode = spec.mode) then
      match compileRegex lib spec with
      | none => []
      | some regex =>
        let rc := regexMatch regex key.bytes r.isPartial
        if rc = .isMatch ∨ (r.isPartial ∧ rc = .partialMatch) then
          if spec.ctxRaw = noneContext then []
          else if r.matchCount then spec :: lookupSpecs stemMatches key r rest
          else [spec]
        else if rc = .noMatch then lookupSpecs stemMatches key r rest
        else []
    else lookupSpecs stemMatches key r rest

/-- A specification without a stem, or with that of the file. -/
def stemMatches (d : SavedData ρ) (key : CString) (spec : Spec ρ) : Bool :=
  spec.stemId == none || spec.stemId == (findStemFromFile d key).map Fin.val

/-- `lookup_all`. Compiling a pattern for the first time and `any_matches` do not show in its
result, so the specifications stay as they are. -/
def lookupAll (d : SavedData ρ) (subs : Subs) (key : CString) (r : Request) : List (Spec ρ) :=
  match lookupKey subs key with
  | none => []
  | some key => lookupSpecs lib regexMatch (stemMatches d key) key r d.specArr.reverse

/-- The same lookup, but without a look at the stems. -/
def lookupAllIgnoringStems (d : SavedData ρ) (subs : Subs) (key : CString) (r : Request) :
    List (Spec ρ) :=
  match lookupKey subs key with
  | none => []
  | some key => lookupSpecs lib regexMatch (fun _ => true) key r d.specArr.reverse

theorem lookupSpecs_congr {p q} (hwhole : r.isPartial = false) {l} (h : ∀ s ∈ l, p s = q s ∨
      ∃ regex, compileRegex lib s = some regex ∧ regexMatch regex key.bytes false = .noMatch) :
    lookupSpecs lib regexMatch p key r l = lookupSpecs lib regexMatch q key r l := by
  induction l with
  | nil => rfl
  | cons s l ih =>
    have ih := ih fun t ht => h t (mem_cons_of_mem s ht)
    rw [lookupSpecs, lookupSpecs, ih]
    rcases h s mem_cons_self with hs | ⟨regex, hregex, hno⟩
    · rw [hs]
    · simp [hregex, hwhole, hno]

/-! ## Precedence -/

/-- A specification that is tried on the key: its stem and its mode allow it. -/
def Tried (stemMatches : Spec ρ → Bool) (r : Request) (spec : Spec ρ) : Prop :=
  (r.isPartial ∨ stemMatches spec) ∧
    (r.mode &&& 0xf000 = 0 ∨ spec.mode = 0 ∨ r.mode &&& 0xf000 = spec.mode)

instance (p : Spec ρ → Bool) (r : Request) (spec : Spec ρ) : Decidable (Tried p r spec) :=
  inferInstanceAs (Decidable (_ ∧ _))

/-- What comes of trying a specification. -/
def tryResult (key : CString) (r : Request) (spec : Spec ρ) : RegexResult :=
  match compileRegex lib spec with
  | none => .error
  | some regex => regexMatch regex key.bytes r.isPartial

/-- The specification matches the key. -/
def specMatches (stemMatches : Spec ρ → Bool) (key : CString) (r : Request) (spec : Spec ρ) :
    Bool :=
  decide (Tried stemMatches r spec) &&
    (tryResult lib regexMatch key r spec == .isMatch ||
      (r.isPartial && tryResult lib regexMatch key r spec == .partialMatch))

/-- The lookup does not go on behind this specification: it matches, or trying it is an error. -/
def specEnds (stemMatches : Spec ρ → Bool) (key : CString) (r : Request) (spec : Spec ρ) : Bool :=
  decide (Tried stemMatches r spec) && tryResult lib regexMatch key r spec != .noMatch

/-- Of some specifications in file order, the last one without meta characters for which `p` holds,
or else the last one with meta characters. -/
def lastPreferred (p : Spec ρ → Bool) (specs : List (Spec ρ)) : Option (Spec ρ) :=
  (specs.filter fun s => p s && !s.hasMetaChars).getLast?.or
    (specs.filter fun s => p s && s.hasMetaChars).getLast?

theorem lookupSpecs_cons {p key} (hr : r.matchCount = false) (s : Spec ρ)
    (l : List (Spec ρ)) : lookupSpecs lib regexMatch p key r (s :: l) =
      if specEnds lib regexMatch p key r s then
        if specMatches lib regexMatch p key r s && s.ctxRaw != noneContext then [s] else []
      else lookupSpecs lib regexMatch p key r l := by
  rw [lookupSpecs, specEnds, specMatches, tryResult]
  by_cases htried : Tried p r s
  · simp only [decide_eq_true htried, Bool.true_and]
    rw [Tried] at htried
    rw [if_pos htried]
    cases compileRegex lib s with
    | none => simp
    | some regex =>
      by_cases hnone : s.ctxRaw = noneContext
      · cases hrc : regexMatch regex key.bytes r.isPartial <;> simp [hrc, hnone]
      · cases hrc : regexMatch regex key.bytes r.isPartial <;> simp [hrc, hnone, hr]
  · simp only [decide_eq_false htried, Bool.false_and, Bool.false_eq_true, if_false]
    rw [Tried] at htried
    rw [if_neg htried]

theorem lookupSpecs_eq_find {p key} (hr : r.matchCount = false) (l : List (Spec ρ)) :
    lookupSpecs lib regexMatch p key r l =
      ((l.find? (specEnds lib regexMatch p key r)).filter fun s =>
        specMatches lib regexMatch p key r s && s.ctxRaw != noneContext).toList := by
  induction l with
  | nil => rfl
  | cons s l ih =>
    rw [lookupSpecs_cons lib regexMatch hr, find?_cons]
    cases specEnds lib regexMatch p key r s with
    | true =>
      simp only [if_true, Option.filter_some]
      split_ifs <;> rfl
    | false => exact ih

theorem find_reverse {α : Type} (p : α → Bool) (l : List α) :
    l.reverse.find? p = (l.filter p).getLast? := by
  simp

/-- After `sort_specs`, specifications without meta characters come before those with meta
characters, and later ones before earlier ones. -/
theorem find_sortedSpecs (p : Spec ρ → Bool) (l : List (Spec ρ)) :
    (sortedSpecs l).reverse.find? p = lastPreferred p l := by
  rw [sortedSpecs_eq, reverse_append, find?_append, find_reverse, find_reverse, filter_filter,
    filter_filter]
  rfl

theorem sortedSpecs_perm (l : List (Spec ρ)) : (sortedSpecs l).Perm l := by
  rw [sortedSpecs_eq]
  exact filter_append_perm (·.hasMetaChars) l

/-- Which specification decides: the last one without meta characters at which the lookup ends, or
else the last one with meta characters. It is returned if it matches and labels anything at all. -/
theorem lookupAll_sortSpecs (d : SavedData ρ) (subs : Subs) (key : CString) (isPartial : Bool)
    (mode : BitVec 32) : lookupAll lib regexMatch (sortSpecs d) subs key ⟨isPartial, false, mode⟩ =
      ((lookupKey subs key).bind fun k =>
        (lastPreferred (specEnds lib regexMatch (stemMatches d k) k ⟨isPartial, false, mode⟩)
          d.specArr).filter
          fun s => specMatches lib regexMatch (stemMatches d k) k ⟨isPartial, false, mode⟩ s &&
            s.ctxRaw != noneContext).toList ∧ (sortSpecs d).specArr.Perm d.specArr ∧
    (sortSpecs d).specArr = d.specArr.filter (·.hasMetaChars) ++ d.specArr.filter
      (!·.hasMetaChars) := by
  refine ⟨?_, sortedSpecs_perm d.specArr, sortedSpecs_eq d.specArr⟩
  rw [lookupAll]
  cases lookupKey subs key with
  | none => rfl
  | some k =>
    show lookupSpecs lib regexMatch (stemMatches d k) k _ (sortedSpecs d.specArr).reverse = _
    rw [lookupSpecs_eq_find lib regexMatch rfl, find_sortedSpecs]
    rfl

end

/-- A library in which every pattern matches every key. -/
def anyLibrary : Library Unit where
  validating := false
  regexPrepareData _ := some ()
  regexDecode _ := none
  regexVersion := none
  regexArchString := none
  selinuxValidate := some
  compatCallback := none

def anyMatch : RegexMatch Unit := fun _ _ _ => .isMatch

/-- What the line `/a <<none>>` is loaded as. -/
def noneSpec : Spec Unit :=
  { (Spec.blank : Spec Unit) with
    ctxRaw := noneContext
    regexStr := .ofString "/a"
    stemId := none
    prefixLen := 2 }

def noneData : SavedData Unit := ⟨[noneSpec], [], by simp [noneSpec]⟩

/-- The specification `/a <<none>>` is the last one that matches `/a`, and nothing is returned. -/
theorem lookupAll_none_context : lookupKey ⟨[], []⟩ (.ofString "/a") = some (.ofString "/a") ∧
    lastPreferred (specMatches anyLibrary anyMatch (stemMatches noneData (.ofString "/a"))
      (.ofString "/a") ⟨false, false, 0⟩) noneData.specArr = some noneSpec ∧
    lookupAll anyLibrary anyMatch (sortSpecs noneData) ⟨[], []⟩ (.ofString "/a") ⟨false, false, 0⟩ =
      [] := by
  decide +kernel

end SELinux.Label
