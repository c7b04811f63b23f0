import Mathlib.Data.List.Basic

/-!
# Merging of ordered lists

The statements `classorder`, `sidorder`, `categoryorder` and `sensitivityorder` each give a list.
The lists are merged into one composite list (`cil_resolve_ast.c`). A list that cannot be merged yet
is tried again after the others. -/

namespace SELinux.Cil

variable {α : Type} [DecidableEq α]

/-- The composite list, and the `ordered` flags of the items. -/
structure Composite (α : Type) where
  list : List α := []
  ordered : α → Bool := fun _ => false

/-- `__cil_ordered_item_insert`: the flags after an item was inserted. -/
def orderedItemInsert (ordered : α → Bool) (item : α) : Option (α → Bool) :=
  if ordered item = true then none else some (Function.update ordered item true)

/-- What came of inserting items at a place: the items that are there now, the flags, and whether
these were all. -/
structure InsertResult (α : Type) where
  items : List α
  ordered : α → Bool
  ok : Bool

/-- `__cil_ordered_list_insert`. Items stay inserted if a later one fails. -/
def orderedListInsert (ordered : α → Bool) : List α → InsertResult α
  | [] => ⟨[], ordered, true⟩
  | ncurr :: next =>
    match orderedItemInsert ordered ncurr with
    | none => ⟨[], ordered, false⟩
    | some ordered' =>
      let r := orderedListInsert ordered' next
      { r with items := ncurr :: r.items }

/-- `__cil_ordered_find_match`: what is before and after the match. -/
def orderedFindMatch (t : α) : List α → Option (List α × List α)
  | [] => none
  | i :: next => if i = t then some ([], next) else (orderedFindMatch t next).map fun r =>
    (i :: r.1, r.2)

variable {t : α} {l : List α}

theorem orderedFindMatch_eq_some {r : List α × List α} (h : orderedFindMatch t l = some r) :
    l = r.1 ++ t :: r.2 := by
  induction l generalizing r with
  | nil => cases h
  | cons i next ih =>
    rw [orderedFindMatch] at h
    split_ifs at h with hi
    · cases h
      rw [hi]
      rfl
    · obtain ⟨r', hr', rfl⟩ := Option.map_eq_some_iff.mp h
      rw [ih hr']
      rfl

theorem orderedFindMatch_eq_none (h : orderedFindMatch t l = none) : t ∉ l := by
  induction l with
  | nil => simp
  | cons i next ih =>
    rw [orderedFindMatch] at h
    split_ifs at h with hi
    rw [List.mem_cons, not_or]
    exact ⟨Ne.symm hi, ih (Option.map_eq_none_iff.mp h)⟩

/-- The loop over the overlapping portion: the old list is split behind `oprev`, before `ocurr`. -/
def mergeOverlap (before : List α) (ordered : α → Bool) (ocurr ncurr : List α) :
    Composite α × Bool :=
  match ocurr, ncurr with
  | ocurr, [] => (⟨before ++ ocurr, ordered⟩, true)
  | [], n :: ns =>
    -- the rest of the new list is added
    let r := orderedListInsert ordered (n :: ns)
    (⟨before ++ r.items, r.ordered⟩, r.ok)
  | o :: os, n :: ns =>
    if n = o then mergeOverlap (before ++ [o]) ordered os ns
    else
      match _h : orderedFindMatch o ns with
      | some gap =>
        -- a gap in the old list
        let r := orderedListInsert ordered (n :: gap.1)
        if r.ok = true then mergeOverlap (before ++ r.items ++ [o]) r.ordered os gap.2
        else (⟨before ++ r.items ++ o :: os, r.ordered⟩, false)
      | none =>
        match orderedFindMatch n os with
        -- a gap in the new list
        | some gap => mergeOverlap (before ++ o :: gap.1 ++ [n]) ordered gap.2 ns
        | none => (⟨before ++ o :: os, ordered⟩, false)
termination_by ncurr.length
decreasing_by
  · exact Nat.lt_succ_self _
  · have hlen := congrArg List.length (orderedFindMatch_eq_some _h)
    grind
  · exact Nat.lt_succ_self _

/-- Where the two lists meet. -/
structure FirstMatch (α : Type) where
  npre : List α
  item : α
  npost : List α
  opre : List α
  opost : List α

/-- The first item of the new list that is in the old one. -/
def firstMatch (old : List α) : List α → Option (FirstMatch α)
  | [] => none
  | n :: ns =>
    match orderedFindMatch n old with
    | some o => some ⟨[], n, ns, o.1, o.2⟩
    | none => (firstMatch old ns).map fun r => { r with npre := n :: r.npre }

/-- `__cil_ordered_lists_merge`. -/
def orderedListsMerge (old : Composite α) (new : List α) : Composite α × Bool :=
  if new = [] then (old, true)
  else if old.list = [] then
    let r := orderedListInsert old.ordered new
    (⟨r.items, r.ordered⟩, r.ok)
  else
    match firstMatch old.list new with
    | none => (old, false)
    | some m =>
      if m.npre ≠ [] ∧ m.opre ≠ [] then (old, false)
      else if m.npre ≠ [] then
        let r := orderedListInsert old.ordered m.npre
        if r.ok = true then mergeOverlap (r.items ++ m.opre ++ [m.item]) r.ordered m.opost m.npost
        else (⟨r.items ++ old.list, r.ordered⟩, false)
      else mergeOverlap (m.opre ++ [m.item]) old.ordered m.opost m.npost

/-! ## All lists -/

/-- `struct cil_ordered_list`. -/
structure OrderedList (α : Type) where
  list : List α
  merged : Bool := false

/-- What came of one pass over the lists. -/
structure PassResult (α : Type) where
  composite : Composite α
  lists : List (OrderedList α)
  changed : Bool
  waiting : Nat

/-- One pass: each list that is not merged is tried. -/
def mergePass (composite : Composite α) : List (OrderedList α) → PassResult α
  | [] => ⟨composite, [], false, 0⟩
  | curr :: next =>
    if curr.merged = false then
      let m := orderedListsMerge composite curr.list
      let r := mergePass m.1 next
      if m.2 = true then
        { r with lists := { curr with merged := true } :: r.lists, changed := true }
      else { r with lists := curr :: r.lists, waiting := r.waiting + 1 }
    else
      let r := mergePass composite next
      { r with lists := curr :: r.lists }

/-- How many lists are not merged. -/
def unmerged (lists : List (OrderedList α)) : Nat := lists.countP fun l => !l.merged

theorem mergePass_unmerged (composite : Composite α) (lists : List (OrderedList α)) :
    unmerged (mergePass composite lists).lists = (mergePass composite lists).waiting ∧
      (mergePass composite lists).waiting ≤ unmerged lists ∧
      ((mergePass composite lists).changed = true →
        (mergePass composite lists).waiting < unmerged lists) := by
  induction lists generalizing composite with
  | nil => exact ⟨rfl, Nat.le_refl _, nofun⟩
  | cons curr next ih =>
    rw [mergePass]
    by_cases hmerged : curr.merged = false
    · obtain ⟨hcount, hle, hlt⟩ := ih (orderedListsMerge composite curr.list).1
      simp only [unmerged] at hcount hle hlt ⊢
      split_ifs with hok
      · simp [hmerged, hcount]
        omega
      · simpa [hmerged, hcount, hle] using hlt
    · obtain ⟨hcount, hle, hlt⟩ := ih composite
      simp only [unmerged] at hcount hle hlt ⊢
      simpa [hmerged, hcount, hle] using hlt

/-- The passes of `__cil_ordered_lists_merge_all`, until all lists are merged or none can be. -/
def mergeLoop (composite : Composite α) (lists : List (OrderedList α)) : Option (Composite α) :=
  let r := mergePass composite lists
  if r.waiting = 0 then some r.composite
  else if _h : r.changed = true then mergeLoop r.composite r.lists
  else none
termination_by unmerged lists
decreasing_by
  obtain ⟨hcount, -, hlt⟩ := mergePass_unmerged composite lists
  rw [hcount]
  exact hlt _h

/-- An item of a list that is not ordered goes to the end, unless it is there. -/
def insertUnorderedItem (merged : Composite α) (item : α) : Option (Composite α) :=
  if merged.list.contains item then some merged
  else (orderedItemInsert merged.ordered item).map fun ordered => ⟨merged.list ++ [item], ordered⟩

def insertUnordered (merged : Composite α) (unordered : List (List α)) : Option (Composite α) :=
  unordered.foldlM (fun merged list => list.foldlM insertUnorderedItem merged) merged

/-- `__cil_ordered_lists_merge_all`. There are lists that are not ordered for classes only. -/
def orderedListsMergeAll (orderedLists : List (List α)) (unorderedLists : Option (List (List α))) :
    Option (List α) :=
  match mergeLoop {} (orderedLists.map fun list => { list := list }) with
  | none => none
  | some composite =>
    match unorderedLists with
    | none => some composite.list
    | some unordered => (insertUnordered composite unordered).map Composite.list

end SELinux.Cil
