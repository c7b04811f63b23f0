import SELinux.Sepol.Avtab

/-!
# Type rules at the front of a conditional list

`cond_optimize` relinks the nodes of a list in place, so that the model has their `next` pointers.
-/

namespace SELinux.Sepol

open List Function

variable {α : Type}

/-- The nodes from a pointer on, up to the null pointer. -/
def Linked (next : α → Option α) : Option α → List α → Prop
  | p, [] => p = none
  | p, x :: xs => p = some x ∧ Linked next (next x) xs

/-- A list of rules: a chain of nodes that ends. -/
structure CondAvList (α : Type) where
  next : α → Option α
  head : Option α
  nodes : List α
  linked : Linked next head nodes

/-- The loop of `cond_optimize`. The kind of a rule is in the key of its node. -/
def condOptimizeLoop [DecidableEq α] (key : α → AvtabKey) :
    Nat → (α → Option α) → α → α → Option α → Option ((α → Option α) × Option α)
  | 0, _, _, _, _ => none
  | _ + 1, next, top, _, none => some (next, some top)
  | fuel + 1, next, top, p, some cur =>
    if (key cur).specified &&& avtabType ≠ 0 ∧ top ≠ cur then
      let next := update next p (next cur)
      let next := update next cur (some top)
      condOptimizeLoop key fuel next cur p (next p)
    else condOptimizeLoop key fuel next top cur (next cur)

def condOptimize [DecidableEq α] (key : α → AvtabKey) (fuel : Nat) (next : α → Option α) :
    Option α → Option ((α → Option α) × Option α)
  | none => some (next, none)
  | some cur => condOptimizeLoop key fuel next cur cur (some cur)

/-- A type rule behind another rule is behind a type rule. -/
def TypesFirst (key : α → AvtabKey) (xs : List α) : Prop :=
  xs.Pairwise fun a b => (key b).specified &&& avtabType ≠ 0 → (key a).specified &&& avtabType ≠ 0

namespace Linked

variable {next next' : α → Option α} {head : Option α} {xs ds : List α}

theorem congr (h : Linked next head xs) (heq : ∀ x ∈ xs, next' x = next x) :
    Linked next' head xs := by
  induction xs generalizing head with
  | nil => exact h
  | cons x xs ih =>
    obtain ⟨hx, hxs⟩ := h
    refine ⟨hx, ih ?_ fun y hy => heq y (mem_cons_of_mem x hy)⟩
    rwa [heq x mem_cons_self]

variable {x : α} {ys : List α}

/-- The list behind one of its nodes is replaced. -/
theorem splice {zs : List α} (h : Linked next head (ds ++ x :: ys))
    (heq : ∀ d ∈ ds, next' d = next d)
    (hx : Linked next' (next' x) zs) : Linked next' head (ds ++ x :: zs) := by
  induction ds generalizing head with
  | nil => exact ⟨h.1, hx⟩
  | cons d ds ih =>
    refine ⟨h.1, ?_⟩
    rw [heq d mem_cons_self]
    exact ih h.2 fun y hy => heq y (mem_cons_of_mem d hy)

theorem behind (h : Linked next head (ds ++ x :: ys)) : Linked next (next x) ys := by
  induction ds generalizing head with
  | nil => exact h.2
  | cons d ds ih => exact ih h.2

theorem unique (h : Linked next head xs) (h' : Linked next head ys) : xs = ys := by
  induction xs generalizing head ys with
  | nil =>
    cases ys with
    | nil => rfl
    | cons y ys => exact absurd (h.symm.trans h'.1) nofun
  | cons x xs ih =>
    cases ys with
    | nil => exact absurd (h'.symm.trans h.1) nofun
    | cons y ys =>
      obtain rfl := Option.some.inj (h.1.symm.trans h'.1)
      rw [ih h.2 h'.2]

/-- A chain that ends has no node twice: it goes on from each of them in one way only. -/
theorem nodup (h : Linked next head xs) : xs.Nodup := by
  induction xs generalizing head with
  | nil => exact nodup_nil
  | cons x xs ih =>
    refine nodup_cons.mpr ⟨fun hx => ?_, ih h.2⟩
    obtain ⟨ds, ys, rfl⟩ := append_of_mem hx
    have hlength := congrArg length (h.2.unique h.2.behind)
    simp at hlength
    omega

/-- A node is taken out of the list. -/
theorem unlink [DecidableEq α] {c : α} (h : Linked next head (ds ++ x :: c :: ys))
    (hc : c ∉ ds ++ x :: ys) (hx : x ∉ ds ++ ys) (t : Option α) :
    Linked (update (update next x (next c)) c t) head (ds ++ x :: ys) := by
  have hsame : ∀ y ∈ ds ++ ys, update (update next x (next c)) c t y = next y := by
    intro y hy
    have hyc : y ≠ c := by
      rintro rfl
      exact hc (perm_middle.mem_iff.mpr (mem_cons_of_mem x hy))
    have hyx : y ≠ x := fun h => hx (h ▸ hy)
    rw [update_of_ne hyc, update_of_ne hyx]
  refine h.splice (fun d hd => hsame d (mem_append_left _ hd)) ?_
  rw [update_of_ne fun hxc => hc (by simp [hxc]), update_self]
  exact h.behind.2.congr fun y hy => hsame y (mem_append_right _ hy)

end Linked

variable [DecidableEq α] {key : α → AvtabKey}

/-- The nodes up to `p` are in order, those behind it are still to be looked at. -/
theorem condOptimizeLoop_spec {next : α → Option α} {top p : α} (ds : List α) {rest : List α}
    (hlinked : Linked next (some top) (ds ++ p :: rest)) (hfirst : TypesFirst key (ds ++ [p])) :
    ∃ l : CondAvList α, condOptimizeLoop key (rest.length + 1) next top p (next p) =
      some (l.next, l.head) ∧ l.nodes.Perm (ds ++ p :: rest) ∧ TypesFirst key l.nodes := by
  induction rest generalizing next top p ds with
  | nil =>
    have hp : next p = none := hlinked.behind
    rw [hp]
    exact ⟨⟨next, some top, _, hlinked⟩, rfl, .refl _, hfirst⟩
  | cons cur rest ih =>
    have hp : next p = some cur := hlinked.behind.1
    rw [hp, length_cons, condOptimizeLoop]
    have hperm : (ds ++ p :: cur :: rest).Perm (cur :: (ds ++ p :: rest)) :=
      (((Perm.swap cur p rest).append_left ds)).trans perm_middle
    obtain ⟨hcur, hnodup'⟩ := nodup_cons.mp (hperm.nodup_iff.mp hlinked.nodup)
    by_cases htype : (key cur).specified &&& avtabType ≠ 0
    · have htop : top ≠ cur := by
        rintro rfl
        cases ds with
        | nil => exact hcur (Option.some.inj hlinked.1 ▸ mem_cons_self)
        | cons d ds => exact hcur (Option.some.inj hlinked.1 ▸ mem_cons_self)
      rw [if_pos ⟨htype, htop⟩]
      -- the node goes to the front
      have hp : p ∉ ds ++ rest := (nodup_cons.mp (perm_middle.nodup_iff.mp hnodup')).1
      have hlinked' : Linked (update (update next p (next cur)) cur (some top)) (some cur)
          (cur :: ds ++ p :: rest) := by
        refine ⟨rfl, ?_⟩
        rw [update_self]
        exact hlinked.unlink hcur hp (some top)
      obtain ⟨l, hl, hpermL, hfirstL⟩ := ih (cur :: ds) hlinked'
        (pairwise_cons.mpr ⟨fun _ _ _ => htype, hfirst⟩)
      exact ⟨l, hl, hpermL.trans hperm.symm, hfirstL⟩
    · rw [if_neg fun h => htype h.1]
      rw [append_cons] at hlinked ⊢
      refine ih (ds ++ [p]) hlinked
        (pairwise_append.mpr ⟨hfirst, pairwise_singleton .., fun a _ b hb h => ?_⟩)
      rw [mem_singleton.mp hb] at h
      exact absurd h htype

/-- `cond_optimize` ends, and leaves a list of the same rules with the type rules at the front. -/
theorem condOptimize_typesFirst (key : α → AvtabKey) (l : CondAvList α) :
    ∃ l' : CondAvList α, condOptimize key (l.nodes.length + 1) l.next l.head =
      some (l'.next, l'.head) ∧ l'.nodes.Perm l.nodes ∧ TypesFirst key l'.nodes := by
  obtain ⟨next, head, nodes, hlinked⟩ := l
  cases nodes with
  | nil =>
    cases hlinked
    exact ⟨⟨next, none, [], rfl⟩, rfl, .refl _, .nil⟩
  | cons cur rest =>
    obtain ⟨rfl, hrest⟩ := hlinked
    have hstep : condOptimizeLoop key (rest.length + 2) next cur cur (some cur) =
        condOptimizeLoop key (rest.length + 1) next cur cur (next cur) := by
      rw [condOptimizeLoop, if_neg fun h => h.2 rfl]
    obtain ⟨l', hl', hperm, hfirst⟩ := condOptimizeLoop_spec [] ⟨rfl, hrest⟩
      (pairwise_singleton _ cur : TypesFirst key [cur])
    exact ⟨l', hstep.trans hl', hperm, hfirst⟩

end SELinux.Sepol
