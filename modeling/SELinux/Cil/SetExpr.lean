import SELinux.Sepol.Ebitmap

/-! Set expressions (`cil_post.c`, `cil_verify.c`): the bitmaps of type, role and user attributes
and of category sets are computed on demand, and kept with the attribute or the set;
`cil_verify_no_self_reference` has excluded cycles before. A datum is named by a number that stands
for its address. Names are resolved before: `cil_resolve_name` puts the `actual` of an alias in its
place, so no expression holds an alias. Permission expressions are left out, and so are allocation
failures. -/
namespace SELinux.Sepol

theorem Ebitmap.mem_ofList {l x} : x ∈ Ebitmap.ofList l ↔ x ∈ l ∧ x < ebitmapLimit := by
  rw [Ebitmap.mem_def, Ebitmap.ofList, Lib.mem_unionSorted]
  simp

/-- `ebitmap_not`, for a `maxbit` that bitmaps can hold. -/
def ebitmapNot (e : Ebitmap) (maxbit : Nat) : Ebitmap :=
  .ofList ((List.range maxbit).filter fun i => !ebitmapGetBit e i)

def ebitmapXor (e1 e2 : Ebitmap) : Ebitmap :=
  ebitmapOr (e1.filter fun i => !ebitmapGetBit e2 i) (e2.filter fun i => !ebitmapGetBit e1 i)

def ebitmapInitRange (minbit maxbit : Nat) : Except Int Ebitmap :=
  if maxbit < minbit then .error einval
  else if ebitmapLimit ≤ maxbit then .error eoverflow
  else .ok (.ofList (List.range' minbit (maxbit + 1 - minbit)))

end SELinux.Sepol

namespace SELinux.Cil

open Sepol

/-! ## Expressions -/

inductive SetOp where
  | and
  | or
  | xor
  | not
  | all
  | range
  deriving DecidableEq

/-- An item of a `cil_list`: `CIL_OP`, `CIL_DATUM` or `CIL_LIST`. -/
inductive SetItem where
  | op (op : SetOp)
  | datum (d : Nat)
  | list (items : List SetItem)

abbrev SetExpr := List SetItem

/-- The flavor of an expression. -/
inductive SetFlavor where
  | type
  | role
  | user
  | cat
  deriving DecidableEq

/-- What a name of an expression can be: `CIL_TYPE`, `CIL_ROLE`, `CIL_USER` or `CIL_CAT` with its
value, `CIL_TYPEALIAS` or `CIL_CATALIAS` with its `actual`, `CIL_TYPEATTRIBUTE`, `CIL_ROLEATTRIBUTE`
or `CIL_USERATTRIBUTE` with its `expr_list`, or `CIL_CATSET` with `cats->datum_expr`. -/
inductive SetDatum where
  | plain (flavor : SetFlavor) (value : Nat)
  | aliasOf (flavor : SetFlavor) (actual : Nat)
  | attrib (flavor : SetFlavor) (exprList : List SetExpr)
  | catset (datumExpr : SetExpr)

/-- The parts of `struct cil_db` that sets are evaluated with. `num` is `num_types`, `num_roles`,
`num_users` and `num_cats`. `stray` is what memory holds where a datum would have its `value`, if it
is of a flavor without one. -/
structure SetDb where
  datum : Nat → SetDatum
  num : SetFlavor → Nat
  catorder : List Nat
  stray : Nat → Nat

/-- `((struct cil_type *)datum)->value`, and the same for roles, users and categories. -/
def SetDb.value (db : SetDb) (d : Nat) : Nat :=
  match db.datum d with
  | .plain _ value => value
  | _ => db.stray d

/-! ## Self-reference -/

/-- Why there is no result: `SEPOL_ERR`, or a recursion that is deeper than the fuel. -/
inductive SetError where
  | failed
  | fuel
  deriving DecidableEq

section Verify

variable (verify : Nat → Except SetError Unit)

mutual

def verifyItem : SetItem → Except SetError Unit
  | .datum d => verify d
  | .list l => verifyNoSelfReferenceInExpr l
  | .op _ => .ok ()

def verifyNoSelfReferenceInExpr : SetExpr → Except SetError Unit
  | [] => .ok ()
  | item :: expr => do
    verifyItem item
    verifyNoSelfReferenceInExpr expr

end

end Verify

/-- `cil_verify_no_self_reference`; the fuel bounds the depth of references. -/
def verifyNoSelfReference (db : SetDb) : Nat → Nat → List Nat → Except SetError Unit
  | 0, _, _ => .error .fuel
  | fuel + 1, d, stack =>
    if d ∈ stack then .error .failed
    else
      match db.datum d with
      | .attrib _ exprList =>
        verifyNoSelfReferenceInExpr (fun d' => verifyNoSelfReference db fuel d' (d :: stack))
          (exprList.map .list)
      | .catset datumExpr =>
        verifyNoSelfReferenceInExpr (fun d' => verifyNoSelfReference db fuel d' (d :: stack))
          datumExpr
      | _ => .ok ()

/-! ## Evaluation -/

/-- What is kept with the data: `attr->types`, `attr->roles` or `attr->users` of an attribute, and
the categories of a set that has been evaluated. -/
structure SetState where
  bitmap : Nat → Option Ebitmap := fun _ => none
  evaluated : Nat → Option (List Nat) := fun _ => none

abbrev SetEval := Except SetError (Ebitmap × SetState)

/-- A loop of `ebitmap_set_bit(bitmap, value, 1)`. -/
def setValues : Ebitmap → List Nat → Except SetError Ebitmap
  | bitmap, [] => .ok bitmap
  | bitmap, value :: values =>
    match ebitmapSetBit bitmap value true with
    | .ok bitmap => setValues bitmap values
    | .error _ => .error .failed

/-- The bitmap of one value. -/
def valueToBitmap (value : Nat) (st : SetState) : SetEval := do
  let bitmap ← setValues ∅ [value]
  .ok (bitmap, st)

/-- `ebitmap_or`, `ebitmap_and` or `ebitmap_xor`. -/
def applyOp : SetOp → Ebitmap → Ebitmap → Except SetError Ebitmap
  | .or, b1, b2 => .ok (ebitmapOr b1 b2)
  | .and, b1, b2 => .ok (ebitmapAnd b1 b2)
  | .xor, b1, b2 => .ok (ebitmapXor b1 b2)
  | _, _, _ => .error .failed

/-- `ebitmap_init_range` into `tmp`. -/
def initRange (minbit maxbit : Nat) (st : SetState) : SetEval :=
  match ebitmapInitRange minbit maxbit with
  | .ok tmp => .ok (tmp, st)
  | .error _ => .error .failed

/-- The value of an end of a category range. -/
def rangeEnd (db : SetDb) (d : Nat) : Option Nat :=
  match db.datum d with
  | .catset _ => none
  | .aliasOf .cat actual => some (db.value actual)
  | _ => some (db.value d)

/-- `__cil_cat_expr_range_to_bitmap_helper`. -/
def catExprRangeToBitmap (db : SetDb) (d1 d2 : Nat) (st : SetState) : SetEval :=
  match rangeEnd db d1, rangeEnd db d2 with
  | some c1, some c2 => if c2 < c1 then .error .failed else initRange c1 c2 st
  | _, _ => .error .failed

section Expr

variable (db : SetDb) (flavor : SetFlavor) (toBitmap : Nat → SetState → SetEval)

mutual

/-- `__cil_expr_to_bitmap_helper`. -/
def exprToBitmapHelper : SetItem → SetState → SetEval
  | .datum d, st => toBitmap d st
  | .list l, st => exprToBitmap l st
  | .op _, _ => .error .failed
termination_by structural item => item

/-- `__cil_expr_to_bitmap`, into an empty bitmap. The missing operands that the last case of the
operators refuses are excluded by `cil_verify_expr_syntax`. -/
def exprToBitmap : SetExpr → SetState → SetEval
  | [], st => .ok (∅, st)
  | .op .all :: _, st =>
    initRange 0 (if db.num flavor = 0 then 2 ^ 32 - 1 else db.num flavor - 1) st
  | .op .range :: .datum d1 :: .datum d2 :: _, st =>
    -- ranges are only supported for categories
    if flavor = .cat then catExprRangeToBitmap db d1 d2 st else .error .failed
  | .op .range :: _, _ => .error .failed
  | .op .not :: a :: _, st => do
    let (b1, st) ← exprToBitmapHelper a st
    .ok (ebitmapNot b1 (db.num flavor), st)
  | .op op :: a :: b :: _, st => do
    let (b1, st) ← exprToBitmapHelper a st
    let (b2, st) ← exprToBitmapHelper b st
    let tmp ← applyOp op b1 b2
    .ok (tmp, st)
  | .op _ :: _, _ => .error .failed
  | curr :: rest, st => do
    let (b2, st) ← exprToBitmapHelper curr st
    exprItemsToBitmap rest (ebitmapOr ∅ b2) st
termination_by structural expr => expr

/-- The loop over an item list. -/
def exprItemsToBitmap : SetExpr → Ebitmap → SetState → SetEval
  | [], tmp, st => .ok (tmp, st)
  | curr :: rest, tmp, st => do
    let (b2, st) ← exprToBitmapHelper curr st
    exprItemsToBitmap rest (ebitmapOr tmp b2) st
termination_by structural expr => expr

end

/-- `__cil_expr_list_to_bitmap` into the bitmap of attribute `a`. -/
def exprListToBitmap (a : Nat) : List SetExpr → SetState → Except SetError SetState
  | [], st => .ok st
  | expr :: exprList, st => do
    let (bitmap, st) ← exprToBitmap db flavor toBitmap expr st
    exprListToBitmap a exprList
      { st with
        bitmap := Function.update st.bitmap a (some (ebitmapUnion ((st.bitmap a).getD ∅) bitmap)) }

/-- `__evaluate_type_expression`, `__evaluate_role_expression` and `__evaluate_user_expression`. -/
def evaluateExpression (a : Nat) (exprList : List SetExpr) (st : SetState) :
    Except SetError SetState :=
  exprListToBitmap db flavor toBitmap a exprList
    { st with
      bitmap := Function.update st.bitmap a (some ∅) }

/-- An attribute is evaluated if `attr->types == NULL`. -/
def evaluateIfNull (a : Nat) (exprList : List SetExpr) (st : SetState) : Except SetError SetState :=
  match st.bitmap a with
  | none => evaluateExpression db flavor toBitmap a exprList st
  | some _ => .ok st

/-- The case of an attribute in `__cil_type_to_bitmap` and its likes. -/
def attributeToBitmap (a : Nat) (exprList : List SetExpr) (st : SetState) : SetEval := do
  let st ← evaluateIfNull db flavor toBitmap a exprList st
  .ok (ebitmapUnion ∅ ((st.bitmap a).getD ∅), st)

end Expr

section Data

variable (db : SetDb) (toBitmap : Nat → SetState → SetEval)

section

variable (c : Nat) (datumExpr : SetExpr) (d : Nat) (st : SetState)

/-- `__cil_type_to_bitmap`. -/
def typeToBitmap : SetEval :=
  match db.datum d with
  | .attrib .type exprList => attributeToBitmap db .type toBitmap d exprList st
  | .aliasOf .type actual => valueToBitmap (db.value actual) st
  | _ => valueToBitmap (db.value d) st

/-- `__cil_role_to_bitmap`. -/
def roleToBitmap : SetEval :=
  match db.datum d with
  | .attrib .role exprList => attributeToBitmap db .role toBitmap d exprList st
  | _ => valueToBitmap (db.value d) st

/-- `__cil_user_to_bitmap`. -/
def userToBitmap : SetEval :=
  match db.datum d with
  | .attrib .user exprList => attributeToBitmap db .user toBitmap d exprList st
  | _ => valueToBitmap (db.value d) st

/-- `cil_verify_is_list` for `CIL_CAT`. -/
def verifyIsList : SetExpr → Bool
  | [] => true
  | .datum d :: list =>
    match db.datum d with
    | .catset _ => false
    | _ => verifyIsList list
  | _ :: _ => false

/-- `__evaluate_cat_expression` for the set `c`. -/
def evaluateCatExpression : Except SetError SetState :=
  if (st.evaluated c).isSome = true then .ok st
  else if verifyIsList db datumExpr = true then .ok st
  else do
    let (bitmap, st) ← exprToBitmap db .cat toBitmap datumExpr st
    let new := db.catorder.filter fun cat => ebitmapGetBit bitmap (db.value cat)
    .ok
      { st with
        evaluated := Function.update st.evaluated c (some new) }

/-- The data of the items of a list without operators and sublists. -/
def exprData : SetExpr → List Nat
  | [] => []
  | .datum d :: list => d :: exprData list
  | _ :: list => exprData list

/-- `catset->cats->datum_expr`, which evaluation replaces. -/
def currentCats : List Nat :=
  (st.evaluated c).getD (exprData datumExpr)

/-- A category set is evaluated if `evaluated == CIL_FALSE`. -/
def evaluateIfFalse : Except SetError SetState :=
  match st.evaluated c with
  | none => evaluateCatExpression db toBitmap c datumExpr st
  | some _ => .ok st

/-- `__cil_cat_to_bitmap`. In the loop over a set every item is taken for a category. -/
def catToBitmap : SetEval :=
  match db.datum d with
  | .catset datumExpr => do
    let st ← evaluateIfFalse db toBitmap d datumExpr st
    let bitmap ← setValues ∅ ((currentCats d datumExpr st).map db.value)
    .ok (bitmap, st)
  | .aliasOf .cat actual => valueToBitmap (db.value actual) st
  | _ => valueToBitmap (db.value d) st

end

end Data

/-- The bitmap of a datum in an expression of a flavor; the fuel bounds the depth of references. -/
def datumToBitmap (db : SetDb) : Nat → SetFlavor → Nat → SetState → SetEval
  | 0, _, _, _ => .error .fuel
  | fuel + 1, .type, d, st => typeToBitmap db (datumToBitmap db fuel .type) d st
  | fuel + 1, .role, d, st => roleToBitmap db (datumToBitmap db fuel .role) d st
  | fuel + 1, .user, d, st => userToBitmap db (datumToBitmap db fuel .user) d st
  | fuel + 1, .cat, d, st => catToBitmap db (datumToBitmap db fuel .cat) d st

/-- The flavor of the expressions that a datum may occur in. -/
def SetDatum.flavor : SetDatum → SetFlavor
  | .plain flavor _ => flavor
  | .aliasOf flavor _ => flavor
  | .attrib flavor _ => flavor
  | .catset _ => .cat

/-- The bitmaps of several data, one after the other. -/
def dataToBitmaps (db : SetDb) (fuel : Nat) : List Nat → SetState →
    Except SetError (List Ebitmap × SetState)
  | [], st => .ok ([], st)
  | d :: ds, st => do
    let (bitmap, st) ← datumToBitmap db fuel (db.datum d).flavor d st
    let (bitmaps, st) ← dataToBitmaps db fuel ds st
    .ok (bitmap :: bitmaps, st)

end SELinux.Cil
