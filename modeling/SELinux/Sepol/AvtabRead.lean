import SELinux.Sepol.AvtabNodes
import SELinux.Sepol.Policydb

/-! Reading a rule table from a policy file (`avtab_read` in `avtab.c`). A policy file in
memory is the list of its bytes that are left. Keys come from the file as they are: the
reader only checks that exactly one rule kind is among their bits. -/
namespace SELinux.Sepol

open Option

abbrev PolicyFile := List (BitVec 8)

/-! ## Words -/

/-- `next_entry` for one byte. -/
def nextU8 : PolicyFile → Option (BitVec 8 × PolicyFile)
  | b :: fp => some (b, fp)
  | [] => none

/-- `next_entry` and `le16_to_cpu` for one word. -/
def nextLe16 : PolicyFile → Option (BitVec 16 × PolicyFile)
  | b0 :: b1 :: fp => some (b1 ++ b0, fp)
  | _ => none

/-- `next_entry` and `le32_to_cpu` for one word. -/
def nextLe32 : PolicyFile → Option (BitVec 32 × PolicyFile)
  | b0 :: b1 :: b2 :: b3 :: fp => some (b3 ++ b2 ++ b1 ++ b0, fp)
  | _ => none

def nextLe32s : Nat → PolicyFile → Option (List (BitVec 32) × PolicyFile)
  | 0, fp => some ([], fp)
  | n + 1, fp => do
    let (w, fp) ← nextLe32 fp
    let (ws, fp) ← nextLe32s n fp
    some (w :: ws, fp)

/-! ## Items -/

def policydbVersionXpermsIoctl : Nat := 30

def avtabEnabledOld : BitVec 32 := 0x80000000

/-- `(uint16_t) val`, if nothing is lost. -/
def truncate16 (val : BitVec 32) : Option Nat := if val.toNat < 2 ^ 16 then some val.toNat else none

section ReadItem

variable {σ : Type} (insertf : σ → AvtabKey → AvtabDatum → Option σ)

/-- The loop over `spec_order` for an item of the old format: each kind among the bits of
`val` takes the next word of the item. -/
def insertSpecs (key : AvtabKey) (enabled : BitVec 16) (val : BitVec 32) :
    List (BitVec 16) → List (BitVec 32) → σ → Option (List (BitVec 32) × σ)
  | [], items, s => some (items, s)
  | spec :: specs, items, s =>
    if val &&& spec.setWidth 32 ≠ 0 then
      match items with
      | [] => none
      | data :: items => do
        let s ← insertf s { key with specified := spec ||| enabled } { data := data }
        insertSpecs key enabled val specs items s
    else insertSpecs key enabled val specs items s

/-- An item of the format before `POLICYDB_VERSION_AVTAB`: all kinds of one source,
target and class. -/
def avtabReadOldItem (fp : PolicyFile) (s : σ) : Option (PolicyFile × σ) := do
  let (items2, fp) ← nextLe32 fp
  if items2.toNat < 5 ∨ 8 < items2.toNat then none
  else
    let (words, fp) ← nextLe32s items2.toNat fp
    match words with
    | source :: target :: tclass :: val :: items => do
      let sourceType ← truncate16 source
      let targetType ← truncate16 target
      let targetClass ← truncate16 tclass
      let enabled := if val &&& avtabEnabledOld ≠ 0 then avtabEnabled else 0
      let av := val &&& avtabAv.setWidth 32
      let type := val &&& avtabType.setWidth 32
      if av = 0 ∧ type = 0 then none
      else if av ≠ 0 ∧ type ≠ 0 then none
      else
        let key := { sourceType, targetType, targetClass, specified := 0 }
        let (items, s) ← insertSpecs insertf key enabled val specOrder items s
        if items = [] then some (fp, s) else none
    | _ => none

/-- The kinds among the bits of a specifier. -/
def specsOf (specified : BitVec 16) : List (BitVec 16) :=
  specOrder.filter fun spec => (specified &&& spec) != 0

/-- The datum of an item: extended permissions, or one word. -/
def readDatum (vers : Nat) (specified : BitVec 16) (fp : PolicyFile) :
    Option (AvtabDatum × PolicyFile) :=
  if specified &&& avtabXperms ≠ 0 then
    if vers < policydbVersionXpermsIoctl then none
    else do
      let (xspecified, fp) ← nextU8 fp
      let (driver, fp) ← nextU8 fp
      let (words, fp) ← nextLe32s 8 fp
      let perms := words.foldr (fun w (acc : XpermBits) => acc <<< 32 ||| w.setWidth 256) 0
      some ({ xperms := { specified := xspecified, driver := driver, perms := perms } }, fp)
  else do
    let (data, fp) ← nextLe32 fp
    some ({ data := data }, fp)

def avtabReadItem (vers : Nat) (fp : PolicyFile) (s : σ) : Option (PolicyFile × σ) :=
  if vers < policydbVersionAvtab then avtabReadOldItem insertf fp s
  else do
    let (source, fp) ← nextLe16 fp
    let (target, fp) ← nextLe16 fp
    let (tclass, fp) ← nextLe16 fp
    let (specified, fp) ← nextLe16 fp
    if (specsOf specified).length ≠ 1 then none
    else
      let (datum, fp) ← readDatum vers specified fp
      let key :=
        { sourceType := source.toNat, targetType := target.toNat, targetClass := tclass.toNat,
          specified := specified }
      let s ← insertf s key datum
      some (fp, s)

/-- `for (i = 0; i < n; i++) avtab_read_item(…)`. -/
def avtabReadItems (vers : Nat) : Nat → PolicyFile → σ → Option (PolicyFile × σ)
  | 0, fp, s => some (fp, s)
  | n + 1, fp, s => do
    let (fp, s) ← avtabReadItem insertf vers fp s
    avtabReadItems vers n fp s

/-! ## What the reader passes on -/

/-- Exactly one rule kind is among the bits of the key. -/
def AvtabKey.OneSpec (k : AvtabKey) : Prop := (specsOf k.specified).length = 1

variable {insertf}

variable {I : σ → Prop}
  (hins : ∀ s k d s', k.OneSpec → I s → insertf s k d = some s' → I s')
include hins

theorem insertSpecs_inv {key : AvtabKey}
    {enabled : BitVec 16} {val : BitVec 32} {specs : List (BitVec 16)}
    (hspecs : ∀ spec ∈ specs, (specsOf (spec ||| enabled)).length = 1)
    {items rest : List (BitVec 32)} {s s' : σ} (hI : I s)
    (h : insertSpecs insertf key enabled val specs items s = some (rest, s')) : I s' := by
  induction specs generalizing items s with
  | nil =>
    simp only [insertSpecs, some.injEq, Prod.mk.injEq] at h
    exact h.2 ▸ hI
  | cons spec specs ih =>
    have hrest := fun spec h => hspecs spec (List.mem_cons_of_mem _ h)
    unfold insertSpecs at h
    split_ifs at h
    · cases items with
      | nil => cases h
      | cons data items =>
        obtain ⟨s1, hs1, h⟩ := bind_eq_some_iff.mp h
        refine ih hrest (hins s _ _ s1 ?_ hI hs1) h
        exact hspecs spec List.mem_cons_self
    · exact ih hrest hI h

omit hins in
theorem specOrder_enabled {enabled} (h : enabled = avtabEnabled ∨ enabled = 0) :
    ∀ spec ∈ specOrder, (specsOf (spec ||| enabled)).length = 1 := by
  have hall : specOrder.all (fun spec => (specsOf (spec ||| avtabEnabled)).length == 1 &&
      (specsOf (spec ||| 0)).length == 1) = true := by decide
  intro spec hspec
  have := List.all_eq_true.mp hall spec hspec
  simp only [Bool.and_eq_true, beq_iff_eq] at this
  rcases h with rfl | rfl
  · exact this.1
  · exact this.2

theorem avtabReadItem_inv {vers : Nat}
    {fp fp' : PolicyFile} {s s' : σ} (hI : I s)
    (h : avtabReadItem insertf vers fp s = some (fp', s')) : I s' := by
  unfold avtabReadItem at h
  split_ifs at h
  · obtain ⟨⟨items2, fp1⟩, -, h⟩ := bind_eq_some_iff.mp h
    dsimp only at h
    split_ifs at h
    obtain ⟨⟨words, fp2⟩, -, h⟩ := bind_eq_some_iff.mp h
    split at h
    · obtain ⟨source, -, h⟩ := bind_eq_some_iff.mp h
      obtain ⟨target, -, h⟩ := bind_eq_some_iff.mp h
      obtain ⟨tclass, -, h⟩ := bind_eq_some_iff.mp h
      split_ifs at h
      all_goals
        obtain ⟨⟨rest, s1⟩, hspecs, h⟩ := bind_eq_some_iff.mp h
        split_ifs at h
        simp only [some.injEq, Prod.mk.injEq] at h
        rw [← h.2]
        refine insertSpecs_inv hins (specOrder_enabled ?_) hI hspecs
        simp
    · cases h
  · obtain ⟨⟨source, fp1⟩, -, h⟩ := bind_eq_some_iff.mp h
    obtain ⟨⟨target, fp2⟩, -, h⟩ := bind_eq_some_iff.mp h
    obtain ⟨⟨tclass, fp3⟩, -, h⟩ := bind_eq_some_iff.mp h
    obtain ⟨⟨specified, fp4⟩, -, h⟩ := bind_eq_some_iff.mp h
    dsimp only at h
    split_ifs at h with hone
    obtain ⟨⟨datum, fp₅⟩, -, h⟩ := bind_eq_some_iff.mp h
    obtain ⟨s1, hs1, h⟩ := bind_eq_some_iff.mp h
    simp only [some.injEq, Prod.mk.injEq] at h
    rw [← h.2]
    exact hins _ _ _ _ (not_ne_iff.mp hone) hI hs1

theorem avtabReadItems_inv {vers n : Nat}
    {fp fp' : PolicyFile} {s s' : σ} (hI : I s)
    (h : avtabReadItems insertf vers n fp s = some (fp', s')) : I s' := by
  induction n generalizing fp s with
  | zero =>
    simp only [avtabReadItems, some.injEq, Prod.mk.injEq] at h
    exact h.2 ▸ hI
  | succ n ih =>
    obtain ⟨⟨fp1, s1⟩, hitem, h⟩ := bind_eq_some_iff.mp h
    exact ih (avtabReadItem_inv hins hI hitem) h

end ReadItem

/-! ## The unconditional table -/

def avtabInsertf (t : Avtab) (k : AvtabKey) (d : AvtabDatum) : Option Avtab :=
  (avtabInsert t k d).toOption

def avtabRead (vers : Nat) (fp : PolicyFile) : Option (PolicyFile × Avtab) := do
  let (nel, fp) ← nextLe32 fp
  if nel = 0 then none
  else avtabReadItems avtabInsertf vers nel.toNat fp (avtabAlloc nel.toNat)

end SELinux.Sepol
