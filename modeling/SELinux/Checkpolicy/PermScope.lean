import Mathlib.Data.List.GetD
import SELinux.Sepol.Symbols

/-! Scopes of permissions in a module (`module_compiler.c`): each declaration records the
permissions it requires in an array of bitmaps, and `is_perm_in_scope` looks through the
declarations on the scope stack. -/
namespace SELinux.Checkpolicy

open List Function
open Sepol (Name Ebitmap ebitmapSetBit ebitmapGetBit ebitmapUnion)

/-! ## Model -/

/-- The array `class_perms_map` of a `scope_index_t`, of the length `class_perms_len`. -/
structure ScopeIndex where
  classPermsMap : List Ebitmap := []

/-- The two indices of an `avrule_decl_t`. -/
structure AvruleDecl where
  declId : Nat
  required : ScopeIndex := {}
  declared : ScopeIndex := {}

/-- A class of a module, which has no common permissions. -/
structure ClassDatum where
  value : Nat
  permissions : Name → Option Nat := fun _ => none
  nprim : Nat := 0

/-- A declaration is known by its block in the chain and its branch there. -/
abbrev DeclPos := Nat × Nat

/-- A `scope_stack_t`. No conditional is ever pushed. -/
structure ScopeStack where
  decl : DeclPos
  inElse : Bool := false
  requireGiven : Bool := false

/-- The state of the module compiler. `lastBlock` is the number of `last_block` in the chain. -/
structure ScopeState where
  classes : Name → Option ClassDatum := fun _ => none
  nprim : Nat := 0
  decls : DeclPos → Option AvruleDecl
  lastBlock : Nat := 0
  nextDeclId : Nat := 2
  stackTop : List ScopeStack := [{ decl := (0, 0) }]

inductive Pass where
  | one
  | two
  deriving DecidableEq

/-- `realloc` to `len` bitmaps, the new ones empty, if the array is shorter. -/
def ScopeIndex.grow (scope : ScopeIndex) (len : Nat) : ScopeIndex where
  classPermsMap := scope.classPermsMap ++ List.replicate (len - scope.classPermsMap.length) ∅

/-- `add_perm_to_class`, on the index. -/
def addPermToClass (permValue classValue : Nat) (scope : ScopeIndex) : Option ScopeIndex := do
  let map := (scope.grow classValue).classPermsMap
  let e ← (ebitmapSetBit (map.getD (classValue - 1) ∅) (permValue - 1) true).toOption
  some { classPermsMap := map.set (classValue - 1) e }

section

variable (pass : Pass) (st : ScopeState)

/-- `add_perm_to_class`, for the declaration at `decl`. -/
def ScopeState.addPerm (decl : DeclPos) (permValue classValue : Nat) : Option ScopeState := do
  let d ← st.decls decl
  let required ← addPermToClass permValue classValue d.required
  some { st with
    decls := update st.decls decl (some { d with required }) }

def permSymtabSize : Nat := 32

/-- `hashtab_insert` of a permission, with the next value. -/
def ClassDatum.insertPerm (datum : ClassDatum) (permId : Name) : ClassDatum :=
  { datum with
    permissions := update datum.permissions permId (some (datum.nprim + 1))
    nprim := datum.nprim + 1 }

/-- A round of the loop in `require_class`. -/
def requirePerm (classId : Name) (decl : DeclPos) (st : ScopeState) (permId : Name) :
    Option ScopeState := do
  let datum ← st.classes classId
  match datum.permissions permId with
  | some value => st.addPerm decl value datum.value
  | none =>
    if permSymtabSize ≤ datum.nprim then none
    else
      let classes := update st.classes classId (some (datum.insertPerm permId))
      ScopeState.addPerm { st with classes } decl (datum.nprim + 1) datum.value

/-- `symtab_insert` for a class that is required. -/
def ScopeState.insertClass (classId : Name) : ScopeState :=
  match st.classes classId with
  | some _ => st
  | none =>
    { st with
      classes := update st.classes classId (some { value := st.nprim + 1 })
      nprim := st.nprim + 1 }

/-- `is_creation_allowed`, and the mark that something was required. -/
def requireSymbol : Option ScopeState :=
  match st.stackTop with
  | [] => none
  | top :: parents =>
    if top.inElse then none
    else some { st with
      stackTop := { top with requireGiven := true } :: parents }

def requireClass (classId : Name) (permIds : List Name) (st : ScopeState) : Option ScopeState :=
  match pass with
  | .two => some st
  | .one => do
    let st ← requireSymbol st
    let top ← st.stackTop.head?
    permIds.foldlM (requirePerm classId top.decl) (st.insertClass classId)

/-- A block or branch that begins gets a new declaration in the first pass, and has it in the
second. -/
def nextDecl (decl : DeclPos) : Option (DeclPos → Option AvruleDecl) :=
  match pass with
  | .one => some (update st.decls decl (some { declId := st.nextDeclId }))
  | .two => if (st.decls decl).any (·.declId == st.nextDeclId) then some st.decls else none

def beginOptional : Option ScopeState := do
  let decl := (st.lastBlock + 1, 0)
  let decls ← nextDecl pass st decl
  some { st with
    decls
    stackTop := { decl } :: st.stackTop
    lastBlock := st.lastBlock + 1
    nextDeclId := st.nextDeclId + 1 }

def beginOptionalElse : Option ScopeState :=
  match st.stackTop with
  | [] => none
  | top :: parents =>
    if top.inElse then none
    else do
      let decl := (top.decl.1, top.decl.2 + 1)
      let decls ← nextDecl pass st decl
      some { st with
        decls
        stackTop := { decl, inElse := true } :: parents
        nextDeclId := st.nextDeclId + 1 }

def endOptional : Option ScopeState :=
  match st.stackTop with
  | [] => none
  | _ :: parents => some { st with stackTop := parents }

/-- The class permissions in `copy_requirements`, from one declaration. -/
def copyClassPerms (dest src : ScopeIndex) : ScopeIndex where
  classPermsMap := (dest.grow src.classPermsMap.length).classPermsMap.mapIdx fun i e =>
    if i < src.classPermsMap.length then ebitmapUnion e (src.classPermsMap.getD i ∅) else e

def copyRequirements (decls : DeclPos → Option AvruleDecl) (dest : ScopeIndex) : List ScopeStack →
    ScopeIndex
  | [] => dest
  | stack :: parents =>
    copyRequirements decls
      (copyClassPerms dest (((decls stack.decl).map AvruleDecl.required).getD {})) parents

/-- `end_avrule_block` of a module. -/
def endAvruleBlock : Option ScopeState :=
  match st.stackTop with
  | [] => none
  | top :: parents =>
    match pass with
    | .two => do
      let d ← st.decls top.decl
      some { st with
        decls := update st.decls top.decl
          (some { d with required := copyRequirements st.decls d.required parents }) }
    | .one => if !top.inElse && !top.requireGiven then none else some st

/-- What the grammar calls for a module. -/
inductive ScopeAction where
  | requireClass (classId : Name) (permIds : List Name)
  | requireSymbol
  | beginOptional
  | beginOptionalElse
  | endAvruleBlock
  | endOptional

def scopeStep : ScopeAction → Option ScopeState
  | .requireClass classId permIds => requireClass pass classId permIds st
  | .requireSymbol => if pass = .one then requireSymbol st else some st
  | .beginOptional => beginOptional pass st
  | .beginOptionalElse => beginOptionalElse pass st
  | .endAvruleBlock => endAvruleBlock pass st
  | .endOptional => endOptional st

/-- `define_policy`, which starts each pass. -/
def definePolicy : ScopeState :=
  { st with
    nextDeclId := 2
    stackTop := [{ decl := (0, 0) }]
    lastBlock := 0 }

/-- A module whose global block has its declaration. -/
def emptyModule : ScopeState where
  decls := update (fun _ => none) (0, 0) (some { declId := 1 })

def isPermInScopeIndex (permValue classValue : Nat) (scope : ScopeIndex) : Bool :=
  if scope.classPermsMap.length < classValue then true
  else ebitmapGetBit (scope.classPermsMap.getD (classValue - 1) ∅) (permValue - 1)

def isPermInStack (decls : DeclPos → Option AvruleDecl) (permValue classValue : Nat) :
    List ScopeStack → Bool
  | [] => false
  | stack :: parents =>
    ((decls stack.decl).any fun decl =>
      isPermInScopeIndex permValue classValue decl.required ||
        isPermInScopeIndex permValue classValue decl.declared) ||
    isPermInStack decls permValue classValue parents

def isPermInScope (permId classId : Name) : Bool :=
  match st.classes classId with
  | none => true
  | some cladatum =>
    match cladatum.permissions permId with
    | none => true
    | some value => isPermInStack st.decls value cladatum.value st.stackTop

/-! ## Requirements -/

/-- What was required so far: a permission of a class, in a declaration. -/
abbrev Requirements := List (DeclPos × Name × Name)

/-- The requirements that an action adds. -/
def requirementsOf : ScopeAction → Requirements
  | .requireClass classId permIds =>
    match pass, st.stackTop with
    | .one, top :: _ => permIds.map fun permId => (top.decl, classId, permId)
    | _, _ => []
  | _ => []

def requireStep (s : ScopeState × Requirements) (a : ScopeAction) :
    Option (ScopeState × Requirements) :=
  (scopeStep pass s.1 a).map fun st => (st, s.2 ++ requirementsOf pass s.1 a)

end

/-- The states of the compiler with what was required, in the first pass and in the second. -/
inductive Reached : ScopeState × Requirements → Prop
  | first {actions : List ScopeAction} {s : ScopeState × Requirements}
      (h : actions.foldlM (requireStep .one) (definePolicy emptyModule, []) = some s) : Reached s
  | second {actions actions' : List ScopeAction} {s s' : ScopeState × Requirements}
      (h : actions.foldlM (requireStep .one) (definePolicy emptyModule, []) = some s)
      (h' : actions'.foldlM (requireStep .two) (definePolicy s.1, s.2) = some s') : Reached s'

/-! ## Arrays of bitmaps -/

namespace ScopeIndex

/-- The bit of a permission is set for a class; both are one less than the values. -/
def Has (scope : ScopeIndex) (i b : Nat) : Prop := b ∈ scope.classPermsMap.getD i ∅

theorem not_has_empty (i b : Nat) : ¬ ({} : ScopeIndex).Has i b := by
  simp [Has]

theorem has_grow (scope : ScopeIndex) (len i b : Nat) : (scope.grow len).Has i b ↔
    scope.Has i b := by
  rw [Has, Has, grow]
  by_cases hi : i < scope.classPermsMap.length
  · rw [getD_append _ _ _ _ hi]
  · rw [getD_append_right _ _ _ _ (Nat.le_of_not_lt hi), getD_eq_default _ _ (Nat.le_of_not_lt hi),
      getD_eq_getElem?_getD, getElem?_replicate]
    split_ifs <;> rfl

theorem length_grow (scope : ScopeIndex) (len : Nat) :
    len ≤ (scope.grow len).classPermsMap.length := by
  simp only [grow, length_append, length_replicate]
  omega

end ScopeIndex

theorem addPermToClass_has {permValue classValue : Nat} {scope scope' : ScopeIndex}
    (hclass : 0 < classValue)
    (h : addPermToClass permValue classValue scope = some scope') (i b : Nat) :
    scope'.Has i b ↔ scope.Has i b ∨ (i = classValue - 1 ∧ b = permValue - 1) := by
  obtain ⟨e, he, h⟩ := Option.bind_eq_some_iff.mp h
  cases h
  have hlen : classValue - 1 < (scope.grow classValue).classPermsMap.length := by
    have := scope.length_grow classValue
    omega
  by_cases hbound : permValue - 1 < Sepol.ebitmapLimit
  · rw [Sepol.ebitmapSetBit_true hbound] at he
    cases he
    rw [← scope.has_grow classValue, ScopeIndex.Has, ScopeIndex.Has]
    simp only [getD_eq_getElem?_getD]
    by_cases hi : i = classValue - 1
    · rw [hi, getElem?_set_self hlen, Option.getD_some, Sepol.Ebitmap.mem_set, or_comm]
      simp
    · rw [getElem?_set_ne (Ne.symm hi)]
      simp [hi]
  · simp [ebitmapSetBit, hbound, Except.toOption] at he

theorem copyClassPerms_has (dest src : ScopeIndex) (i b : Nat) :
    (copyClassPerms dest src).Has i b ↔ dest.Has i b ∨ src.Has i b := by
  have hlen := dest.length_grow src.classPermsMap.length
  rw [← dest.has_grow src.classPermsMap.length, copyClassPerms]
  simp only [ScopeIndex.Has, getD_eq_getElem?_getD, getElem?_mapIdx]
  by_cases hi : i < src.classPermsMap.length
  · have hget : (dest.grow src.classPermsMap.length).classPermsMap[i]? =
        some ((dest.grow src.classPermsMap.length).classPermsMap[i]) :=
          getElem?_eq_getElem (by omega)
    simp [hget, if_pos hi]
  · simp [hi]

theorem copyRequirements_has (decls : DeclPos → Option AvruleDecl) (dest : ScopeIndex)
    (stack : List ScopeStack) (i b : Nat) : (copyRequirements decls dest stack).Has i b ↔
      dest.Has i b ∨ ∃ e ∈ stack, ∃ d, decls e.decl = some d ∧ d.required.Has i b := by
  induction stack generalizing dest with
  | nil => simp [copyRequirements]
  | cons e parents ih =>
    rw [copyRequirements, ih, copyClassPerms_has, or_assoc]
    cases hd : decls e.decl with
    | none => simp [hd, ScopeIndex.not_has_empty]
    | some d => simp [hd]

end SELinux.Checkpolicy
