import SELinux.Sepol.Expanded

/-! Type bounds (`hierarchy.c`). The rules of a parent type are expanded into
scratch tables: one for what the parent always has, and two for each conditional,
one per branch. The rules of a child type are then compared with these tables. -/
namespace SELinux.Sepol

def boundsAvtabSize : Nat := 1024

/-! ## Expanding the rules of the parent -/

/-- Add data under a key: to the datum that is found, or as a new entry. -/
def boundsAddData (avtab : Avtab) (k : AvtabKey) (data : BitVec 32) : Except AvtabError Avtab :=
  match avtabSearch avtab k with
  | none => avtabInsert avtab k { data := data }
  | some _ => .ok (avtabModify avtab k fun dup => { dup with data := dup.data ||| data })

/-- The tables that rules are inserted into. `global` is `NULL` in the source, and
not touched, where there is no `other` table. -/
structure BoundsTabs where
  avtab : Avtab
  global : Avtab := {}

section

variable (p : Policydb) (globalAvtab : Option Avtab) (curAvtab : Avtab)
  (other : Option Avtab) (parent : Nat)

/-- `bounds_insert_rule`. What the rule has in common with the `other` branch of
the conditional goes to the global table. -/
def boundsInsertRule (k : AvtabKey) (datum : AvtabDatum)
    (tabs : BoundsTabs) : Except AvtabError BoundsTabs := do
  let avtab ← boundsAddData tabs.avtab k datum.data
  match other.bind fun other => avtabSearch other k with
  | none => return { tabs with avtab := avtab }
  | some dup =>
    let data := dup.data &&& datum.data
    if data = 0 then
      return { tabs with avtab := avtab }
    else
      let global ← boundsAddData tabs.global k data
      return { avtab := avtab, global := global }

def boundsExpandRule (parent src tgt cls : Nat)
    (data : BitVec 32) (tabs : BoundsTabs) : Except AvtabError BoundsTabs :=
  if ebitmapGetBit (p.attrTypes (src - 1)) (parent - 1) then
    (p.attrTypes (tgt - 1)).bits.foldlM
      (fun tabs i => boundsInsertRule other ⟨parent, i + 1, cls, avtabAllowed⟩
        { data := data } tabs)
      tabs
  else .ok tabs

/-- `bounds_expand_cond_rules`. The kind of a rule is not looked at here. -/
def boundsExpandCondRules
    (rules : List AvtabNode) (tabs : BoundsTabs) : Except AvtabError BoundsTabs :=
  rules.foldlM
    (fun tabs n => boundsExpandRule p other parent n.key.sourceType n.key.targetType
      n.key.targetClass n.datum.data tabs)
    tabs

def boundsExpandRuleCallback (tabs : BoundsTabs) (k : AvtabKey)
    (d : AvtabDatum) : Except AvtabError BoundsTabs :=
  if k.specified &&& avtabAllowed = 0 then .ok tabs
  else boundsExpandRule p none parent k.sourceType k.targetType k.targetClass d.data tabs

structure BoundsCondInfo where
  trueAvtab : Avtab := {}
  falseAvtab : Avtab := {}
  condList : CondNode

/-- One branch of a conditional. The table of an empty list is not allocated. -/
def boundsExpandBranch (list : List Nat) (global : Avtab) : Except AvtabError BoundsTabs :=
  if list = [] then .ok { avtab := {}, global := global }
  else boundsExpandCondRules p other parent (p.condRules list)
    { avtab := avtabAlloc boundsAvtabSize, global := global }

/-- The body of the loop over the conditionals. -/
def boundsExpandCond (s : Avtab × List BoundsCondInfo)
    (cur : CondNode) : Except AvtabError (Avtab × List BoundsCondInfo) := do
  let t ← boundsExpandBranch p none parent cur.trueList {}
  let f ← boundsExpandBranch p (some t.avtab) parent cur.falseList s.1
  return (f.global, { trueAvtab := t.avtab, falseAvtab := f.avtab, condList := cur } :: s.2)

/-- `bounds_expand_parent_rules`, with `avtab_map` as a loop that an error leaves. -/
def boundsExpandParentRules : Except AvtabError (Avtab × List BoundsCondInfo) := do
  let tabs ← p.teAvtab.nodes.foldlM
    (fun tabs n => boundsExpandRuleCallback p parent tabs n.key n.datum)
    { avtab := avtabAlloc boundsAvtabSize }
  p.condList.foldlM (boundsExpandCond p parent) (tabs.avtab, [])

/-! ## Checking the rules of the child -/

/-- The bits of `data` that the found datum, if any, does not have. -/
def boundsStrip (avtab : Avtab) (k : AvtabKey) (data : BitVec 32) : BitVec 32 :=
  match avtabSearch avtab k with
  | some datum => data &&& ~~~datum.data
  | none => data

def boundsNotCovered (k : AvtabKey) (data : BitVec 32) : BitVec 32 :=
  let data := boundsStrip curAvtab k data
  match globalAvtab with
  | some avtab => if data = 0 then data else boundsStrip avtab k data
  | none => data

/-- The list `bad` of the rules that exceed the bounds, and their number. -/
structure BoundsBad where
  bad : List AvtabNode := []
  numbad : Nat := 0

def boundsAddBad (src tgt cls : Nat) (data : BitVec 32) (bad : List AvtabNode) : List AvtabNode :=
  { key := ⟨src, tgt, cls, 0⟩, datum := { data := data } } :: bad

/-- The target that the parent needs for target `i` of the child. -/
def boundsTarget (i : Nat) : Nat :=
  match p.typeStruct i with
  | some td => if td.bounds ≠ 0 then td.bounds else i + 1
  | none => i + 1

def boundsCheckRule
    (child parent src tgt cls : Nat) (data : BitVec 32) (b : BoundsBad) : BoundsBad :=
  if ebitmapGetBit (p.attrTypes (src - 1)) (child - 1) then
    (p.attrTypes (tgt - 1)).bits.foldl
      (fun b i =>
        let d := boundsNotCovered globalAvtab curAvtab
          ⟨parent, boundsTarget p i, cls, avtabAllowed⟩ data
        if d ≠ 0 then
          { bad := boundsAddBad child (i + 1) cls d b.bad, numbad := b.numbad + 1 }
        else b)
      b
  else b

/-- `bounds_check_cond_rules`, and with `avtab_map` `bounds_check_rule_callback`:
allow rules only. -/
def boundsCheckRules (child parent : Nat) (rules : List AvtabNode) (b : BoundsBad) : BoundsBad :=
  rules.foldl
    (fun b n =>
      if n.key.specified &&& avtabAllowed = 0 then b
      else boundsCheckRule p globalAvtab curAvtab child parent n.key.sourceType n.key.targetType
        n.key.targetClass n.datum.data b)
    b

/-- `bounds_check_child_rules`; `numbad` is the count so far. -/
def boundsCheckChildRules (globalAvtab : Avtab) (condInfo : List BoundsCondInfo)
    (child parent numbad : Nat) : BoundsBad :=
  let args := boundsCheckRules p none globalAvtab child parent p.teAvtab.nodes {}
  let args := condInfo.foldl
    (fun args cur =>
      let args := boundsCheckRules p (some globalAvtab) cur.trueAvtab child parent
        (p.condRules cur.condList.trueList) args
      boundsCheckRules p (some globalAvtab) cur.falseAvtab child parent
        (p.condRules cur.condList.falseList) args)
    args
  { bad := args.bad, numbad := numbad + args.numbad }

def boundsCheckType (child parent numbad : Nat) : Except AvtabError BoundsBad := do
  let (globalAvtab, condInfo) ← boundsExpandParentRules p parent
  return boundsCheckChildRules p globalAvtab condInfo child parent numbad

end

end SELinux.Sepol
