import SELinux.Sepol.Ebitmap

/-! Multi-level security (`mls_types.h`, `mls.c`): levels and ranges with their
orders, and the reader of the text form of a range. Strings of the policy language
are lists of characters; a pointer into a string is the suffix that starts there. -/
namespace SELinux.Sepol

/-- A C string. -/
abbrev Name := List Char

/-! ## Levels and ranges -/

structure MlsLevel where
  sens : Nat := 0
  cat : Ebitmap := ∅
  deriving DecidableEq

/-- `mls_range_t`: `level[0]` and `level[1]`. -/
structure MlsRange where
  low : MlsLevel := {}
  high : MlsLevel := {}
  deriving DecidableEq

def mlsLevelEq (l1 l2 : MlsLevel) : Bool := l1.sens == l2.sens && l1.cat == l2.cat

def mlsLevelDom (l1 l2 : MlsLevel) : Bool :=
  decide (l2.sens ≤ l1.sens) && ebitmapContains l1.cat l2.cat

def mlsLevelIncomp (l1 l2 : MlsLevel) : Bool := !mlsLevelDom l1 l2 && !mlsLevelDom l2 l1

def mlsRangeContains (r1 r2 : MlsRange) : Bool :=
  mlsLevelDom r2.low r1.low && mlsLevelDom r1.high r2.high

def mlsRangeGlblub (r1 r2 : MlsRange) : Except Int MlsRange :=
  if r1.high.sens < r2.low.sens ∨ r2.high.sens < r1.low.sens then .error einval
  else
    .ok
      { low := { sens := max r1.low.sens r2.low.sens, cat := ebitmapAnd r1.low.cat r2.low.cat }
        high := { sens := min r1.high.sens r2.high.sens, cat := ebitmapAnd r1.high.cat r2.high.cat }
          }

theorem mlsLevelEq_iff {l1 l2} : mlsLevelEq l1 l2 = true ↔ l1 = l2 := by
  obtain ⟨s1, c1⟩ := l1
  obtain ⟨s2, c2⟩ := l2
  simp [mlsLevelEq]

theorem mlsLevelDom_iff {l1 l2 : MlsLevel} :
    mlsLevelDom l1 l2 = true ↔ l2.sens ≤ l1.sens ∧ ∀ c ∈ l2.cat, c ∈ l1.cat := by
  simp [mlsLevelDom, ebitmapContains_iff]

/-! ## The text of a range -/

/-- What the reader looks names up in: `p_levels.table`, with the level of each
sensitivity, and `p_cats.table`, with the value of each category. -/
structure MlsSymbols where
  levels : List (Name × MlsLevel) := []
  cats : List (Name × Nat) := []

/-- `while (*p && !stop(*p)) p++; delim = *p; if (delim != 0) *p++ = 0;`: the token, the
delimiter if there is one, and the rest. -/
def mlsToken (stop : Char → Bool) (p : Name) : Name × Option Char × Name :=
  match p.span fun c => !stop c with
  | (token, []) => (token, none, [])
  | (token, c :: rest) => (token, some c, rest)

/-- `ebitmap_set_bit(cat, value - 1, 1)`. For the value 0 the bit is `UINT32_MAX`, which no bitmap
holds. -/
def mlsSetCat (cat : Ebitmap) (value : Nat) : Option Ebitmap :=
  if value = 0 then none else (ebitmapSetBit cat (value - 1) true).toOption

/-- `for (i = value; i < limit; i++) ebitmap_set_bit(cat, i, 1)`. -/
def mlsSetCats (cat : Ebitmap) (value : Nat) : Nat → Option Ebitmap
  | 0 => some cat
  | n + 1 => do
    let cat ← (ebitmapSetBit cat value true).toOption
    mlsSetCats cat (value + 1) n

/-- One entry of a category set: `c` or `c.d`. -/
def mlsReadCats (syms : MlsSymbols) (cat : Ebitmap) (token : Name) : Option Ebitmap := do
  let (first, range) := match token.span fun c => c != '.' with
    | (first, []) => (first, none)
    | (first, _ :: last) => (first, some last)
  let value ← syms.cats.lookup first
  let cat ← mlsSetCat cat value
  match range with
  | none => some cat
  | some last => do
    let limit ← syms.cats.lookup last
    -- the range has to go upwards
    if limit ≤ value then none else mlsSetCats cat value (limit - value)

/-- The loop over a category set: the set, the delimiter that ended it and the rest.
Every round uses up a character, so the length of the text bounds the rounds. -/
def mlsCategories (syms : MlsSymbols) : Nat → Ebitmap → Name → Option (Ebitmap × Option Char × Name)
  | 0, _, _ => none
  | fuel + 1, cat, p => do
    let (token, delim, rest) := mlsToken (fun c => c == ',' || c == '-') p
    let cat ← mlsReadCats syms cat token
    if delim = some ',' then mlsCategories syms fuel cat rest else some (cat, delim, rest)

/-- A sensitivity whose name has been cut off, with its categories if a colon follows:
the level, the delimiter behind it and the rest. -/
def mlsReadLevel (syms : MlsSymbols) (token : Name) (delim : Option Char) (p : Name) :
    Option (MlsLevel × Option Char × Name) := do
  let level ← syms.levels.lookup token
  if delim = some ':' then
    let (cat, delim, rest) ← mlsCategories syms (p.length + 1) ∅ p
    some ({ sens := level.sens, cat := cat }, delim, rest)
  else some ({ sens := level.sens }, delim, p)

/-- `mls_context_to_sid` on a string that follows a delimiter. A third level after a
second `-` is cut off and ignored. -/
def mlsContextToSid (syms : MlsSymbols) (scontext : Name) : Option MlsRange := do
  let (token, delim, p) := mlsToken (fun c => c == ':' || c == '-') scontext
  let (low, delim, p) ← mlsReadLevel syms token delim p
  if delim = some '-' then
    let (token, delim, p) := mlsToken (fun c => c == ':') p
    let (high, _, _) ← mlsReadLevel syms token delim p
    some { low := low, high := high }
  else some { low := low, high := low }

end SELinux.Sepol
