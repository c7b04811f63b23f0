import SELinux.Sepol.Policydb

/-! Type sets (`expand.c`): from types, attributes, exclusions and flags as written
to the bitmap of types they stand for. `none` is the result `-1`. -/
namespace SELinux.Sepol

/-- `map_ebitmap`: bits that the map sends to `0` are left out. -/
def mapEbitmap (src : Ebitmap) (map : Nat → Nat) : Option Ebitmap :=
  src.bits.foldlM
    (fun dst i => if map i = 0 then some dst else (ebitmapSetBit dst (map i - 1) true).toOption) ∅

/-- The first loop of `type_set_expand`: the attributes among the types are replaced
by their types if `expand` is set or the attribute asks for it. -/
def typeSetTypes (set : TypeSet) (p : Policydb) (expand : Bool) : Option Ebitmap :=
  set.types.bits.foldlM
    (fun types i =>
      -- also `none` for an index past `p_types.nprim`
      match p.typeStruct i with
      | none => none
      | some type =>
        if type.flavor = .attrib ∧ (expand = true ∨ type.flags &&& typeFlagsExpandAttrTrue ≠ 0) then
          some (ebitmapUnion types type.types)
        else (ebitmapSetBit types i true).toOption)
    ∅

/-- The loop over the exclusions, where attributes are always replaced. -/
def typeSetNegTypes (set : TypeSet) (p : Policydb) : Option Ebitmap :=
  set.negset.bits.foldlM
    (fun negTypes i =>
      match p.typeStruct i with
      | some type =>
        if type.flavor = .attrib then some (ebitmapUnion negTypes type.types)
        else (ebitmapSetBit negTypes i true).toOption
      | none => (ebitmapSetBit negTypes i true).toOption)
    ∅

def typeSetExpand (set : TypeSet) (p : Policydb) (alwaysexpand : Bool) : Option Ebitmap := do
  let expand := alwaysexpand || !ebitmapIsEmpty set.negset || set.flags != 0
  let types ← typeSetTypes set p expand
  let negTypes ← typeSetNegTypes set p
  if set.flags &&& typeStar ≠ 0 then
    -- all types not in the exclusions
    (List.range p.nprim).foldlM
      (fun t i =>
        if ebitmapGetBit negTypes i then some t
        else if p.isAttrib i then some t
        else (ebitmapSetBit t i true).toOption)
      ∅
  else
    let t ← types.bits.foldlM
      (fun t i => if !ebitmapGetBit negTypes i then (ebitmapSetBit t i true).toOption else some t) ∅
    if set.flags &&& typeComp ≠ 0 then
      (List.range p.nprim).foldlM
        (fun t i =>
          if p.isAttrib i then some t else (ebitmapSetBit t i (!ebitmapGetBit t i)).toOption)
        t
    else some t

def expandConvertTypeSet (p : Policydb) (typemap : Nat → Nat) (set : TypeSet)
    (alwaysexpand : Bool) : Option Ebitmap := do
  let types ← mapEbitmap set.types typemap
  let negset ← mapEbitmap set.negset typemap
  typeSetExpand { types := types, negset := negset, flags := set.flags } p alwaysexpand

end SELinux.Sepol
