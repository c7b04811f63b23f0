import SELinux.Sepol.ExpandAvtab
import SELinux.Sepol.PutEntry

/-! Writing a rule table to a policy file (`avtab_write` in `write.c`). The format before
`POLICYDB_VERSION_AVTAB` has one item for all the access vectors, or all the type rules, of a
source, target and class, and no attributes; the later one has an item for each node. -/
namespace SELinux.Sepol

def sepolTargetSelinux : Nat := 0

/-! ## The format from `POLICYDB_VERSION_AVTAB` on -/

/-- `perms[i]` of extended permissions. -/
def xpermWord (perms : XpermBits) (i : Nat) : BitVec 32 := perms.extractLsb' (32 * i) 32

/-- The new format in `avtab_write_item`. -/
def avtabWriteNewItem (policyvers targetPlatform : Nat) (cur : AvtabNode) : Option PolicyFile :=
  let key :=
    putLe16 (.ofNat 16 cur.key.sourceType) ++ putLe16 (.ofNat 16 cur.key.targetType) ++
      putLe16 (.ofNat 16 cur.key.targetClass) ++ putLe16 cur.key.specified
  if cur.key.specified &&& avtabXperms ≠ 0 then
    if policyvers < policydbVersionXpermsIoctl then none
    else if targetPlatform ≠ sepolTargetSelinux then none
    else
      let xperms := cur.datum.xperms
      some (key ++ xperms.specified :: xperms.driver :: putLe32s
        ((List.range 8).map (xpermWord xperms.perms)))
  else some (key ++ putLe32 cur.datum.data)

/-! ## The format before

The marks of merged nodes are kept by the length of the chain from the node on, which tells the
nodes of a chain apart. -/

/-- `spec_order` of `write.c`. -/
def writeSpecOrder : List (BitVec 16) :=
  [avtabAllowed, avtabAuditdeny, avtabAuditallow, avtabTransition, avtabChange, avtabMember]

/-- A specifier as the old format has it. -/
def oldSpecified (specified : BitVec 16) : BitVec 32 :=
  (specified &&& ~~~avtabEnabled).setWidth 32 |||
    if specified &&& avtabEnabled ≠ 0 then avtabEnabledOld else 0

/-- What the loop over `spec_order` collects: the data of the item, the marks of its nodes, and
by how much it lowers `nel`. -/
structure OldData where
  data : List (BitVec 32) := []
  merged : List Nat := []
  fewer : Nat := 0

/-- The loop over `spec_order` in `avtab_write_item`; `none` is "missing node". -/
def oldData (cur : AvtabNode) (next : List AvtabNode) (val : BitVec 32) :
    List (BitVec 16) → Option OldData
  | [] => some {}
  | spec :: specs =>
    if val &&& spec.setWidth 32 ≠ 0 then
      let own := cur.key.specified &&& spec ≠ 0
      match if own then cur :: next else avtabSearchNodeNext spec (cur :: next) with
      | [] => none
      | node :: rest => do
        let r ← oldData cur next val specs
        some { data := node.datum.data :: r.data, merged := (node :: rest).length :: r.merged,
               fewer := (if own then 0 else 1) + r.fewer }
    else oldData cur next val specs

/-- The old format in `avtab_write_item`, for a node that is not merged yet: the words of the
item behind their number, and the loop's results. -/
def avtabWriteOldItem (cur : AvtabNode) (next : List AvtabNode) :
    Option (List (BitVec 32) × OldData) :=
  let val := oldSpecified cur.key.specified
  let av := val &&& avtabAv.setWidth 32 ≠ 0
  if ¬av ∧ val &&& avtabType.setWidth 32 = 0 then none
  else
    let lookup := if av then avtabAv else avtabType
    let similar := avtabSearchRest lookup next.length (avtabSearchNodeNext lookup (cur :: next))
    let val := similar.foldl (fun val node => val ||| oldSpecified node.key.specified) val
    let set := 1 + similar.length
    if val &&& avtabAv.setWidth 32 ≠ 0 ∧ val &&& avtabType.setWidth 32 ≠ 0 then none
    else do
      let r ← oldData cur next val writeSpecOrder
      if set % 2 ^ 32 ≠ r.data.length then none
      else
        some (.ofNat 32 cur.key.sourceType :: .ofNat 32 cur.key.targetType ::
          .ofNat 32 cur.key.targetClass :: val :: r.data, r)

/-- One pass over a chain: the items, and by how much it lowers `nel`. -/
def avtabWriteOldChain : List AvtabNode → List Nat → Option (List (List (BitVec 32)) × Nat)
  | [], _ => some ([], 0)
  | cur :: next, merged =>
    if (cur :: next).length ∈ merged then avtabWriteOldChain next merged
    else do
      let (item, r) ← avtabWriteOldItem cur next
      let (items, fewer) ← avtabWriteOldChain next (r.merged ++ merged)
      some (item :: items, r.fewer + fewer)

/-- One pass over a table, from no marks. -/
def avtabWriteOldPass (a : Avtab) : Option (List (List (BitVec 32)) × Nat) := do
  let chains ← a.htable.mapM fun chain => avtabWriteOldChain chain []
  some ((chains.map Prod.fst).flatten, (chains.map Prod.snd).sum)

def putOldItem (item : List (BitVec 32)) : PolicyFile := putLe32s (.ofNat 32 item.length :: item)

/-! ## The table -/

/-- `avtab_write`. In the old format a first pass finds the number of items, and a second one
writes them. -/
def avtabWrite (p : Policydb) (targetPlatform : Nat) (a : Avtab) : Option PolicyFile :=
  if p.policyType = .kern ∧ p.policyvers < policydbVersionAvtab then do
    let a ← expandAvtab p a
    let (_, fewer) ← avtabWriteOldPass a
    let (items, _) ← avtabWriteOldPass a
    some (putLe32 (.ofNat 32 a.nel - .ofNat 32 fewer) ++ items.flatMap putOldItem)
  else do
    let items ← a.nodes.mapM (avtabWriteNewItem p.policyvers targetPlatform)
    some (putLe32 (.ofNat 32 a.nel) ++ items.flatten)

end SELinux.Sepol
