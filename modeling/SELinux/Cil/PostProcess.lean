import SELinux.Cil.ContextRules

/-! How `cil_post.c` removes rules for objects that have one already
(`__cil_post_process_context_rules`): the rules are sorted by their keys, and of each run of rules
with one key the last is kept, if the contexts agree. -/
namespace SELinux.Cil

open List Option
open Lib (CString keyCmp thenCmp Orders Sorts)

/-! ## Model -/

/-- Why no rules are left: conflicting rules, or a read through a null pointer. -/
inductive PostFault where
  | conflict
  | null
  deriving DecidableEq

/-- The state of the loop: the array up to `i`, with `array[i]` apart. -/
structure PostState (k : Kind) where
  done : List k.Rule
  cur : k.Rule
  conflicting : Nat := 0
  err : Bool := false

/-- One round of the loop, for `array[j]`. -/
def postStep (multipleDecls : Bool) (k : Kind) (s : PostState k) (x : k.Rule) :
    Except PostFault (PostState k) :=
  if k.compar s.cur x ≠ 0 then .ok { s with done := s.done ++ [s.cur], cur := x, conflicting := 0 }
  else if !multipleDecls then .ok { s with conflicting := s.conflicting + 1, err := true }
  else
    match k.concompar s.cur x with
    | none => .error .null
    | some rc =>
      if rc ≠ 0 then .ok { s with conflicting := s.conflicting + 1, err := true }
      else .ok { s with cur := if s.conflicting = 0 then x else s.cur }

/-- `__cil_post_process_context_rules`, after the rules have been sorted. -/
def postProcessContextRules (multipleDecls : Bool) (k : Kind) : List k.Rule →
    Except PostFault (List k.Rule)
  | [] => .ok []
  | x :: array => do
    let s ← array.foldlM (postStep multipleDecls k) { done := [], cur := x }
    if s.err then .error .conflict else .ok (s.done ++ [s.cur])

/-! ## What is kept -/

/-- The rules that are kept, of those that the loop has seen: one for each key. -/
structure OneOfEach (k : Kind) (seen kept : List k.Rule) : Prop where
  subset : ∀ b ∈ kept, b ∈ seen
  covers : ∀ a ∈ seen, ∃ b ∈ kept, k.compar a b = 0
  apart : kept.Pairwise fun a b => k.compar a b ≠ 0

section Kept

variable {multipleDecls : Bool} {k : Kind} {s s' : PostState k} {x : k.Rule} {seen : List k.Rule}

theorem postStep_cases (h : postStep multipleDecls k s x = .ok s') :
    (k.compar s.cur x ≠ 0 ∧ s'.done = s.done ++ [s.cur] ∧ s'.cur = x) ∨
      (k.compar s.cur x = 0 ∧ s'.done = s.done ∧ (s'.cur = x ∨ s'.cur = s.cur)) := by
  unfold postStep at h
  by_cases hne : k.compar s.cur x ≠ 0
  · rw [if_pos hne] at h
    cases h
    exact .inl ⟨hne, rfl, rfl⟩
  · rw [if_neg hne] at h
    refine .inr ⟨not_ne_iff.mp hne, ?_⟩
    by_cases hdecls : (!multipleDecls) = true
    · rw [if_pos hdecls] at h
      cases h
      exact ⟨rfl, .inr rfl⟩
    · rw [if_neg hdecls] at h
      cases hcon : k.concompar s.cur x with
      | none =>
        rw [hcon] at h
        cases h
      | some rc =>
        simp only [hcon] at h
        by_cases hrc : rc ≠ 0
        · rw [if_pos hrc] at h
          cases h
          exact ⟨rfl, .inr rfl⟩
        · rw [if_neg hrc] at h
          cases h
          refine ⟨rfl, ?_⟩
          split_ifs
          · exact .inl rfl
          · exact .inr rfl

/-- What holds between two rounds. -/
structure Kept (seen : List k.Rule) (s : PostState k) : Prop where
  one : OneOfEach k seen (s.done ++ [s.cur])
  last : ∀ a ∈ seen, k.compar a s.cur ≤ 0

/-- The key of the new rule is above all others, unless it is that of the last one. -/
theorem Kept.last_eq (h : Kept seen s) (horders : Orders k.compar (seen ++ [x]))
    (hsorted : ∀ a ∈ seen, k.compar a x ≤ 0) {a} (ha : a ∈ seen) (heq : k.compar a x = 0) :
      k.compar s.cur x = 0 := by
  have hold : ∀ a ∈ seen, a ∈ seen ++ [x] := fun a => mem_append_left _
  have hx : x ∈ seen ++ [x] := mem_append_right _ (mem_singleton_self x)
  have hcur : s.cur ∈ seen := h.one.subset _ (mem_append_right _ (mem_singleton_self _))
  have := horders.trans x hx a (hold a ha) s.cur (hold _ hcur)
    (horders.eq_comm (hold a ha) hx heq).le (h.last a ha)
  have := horders.oriented s.cur (hold _ hcur) x hx
  have := hsorted s.cur hcur
  omega

theorem Kept.step (h : Kept seen s) (horders : Orders k.compar (seen ++ [x]))
    (hsorted : ∀ a ∈ seen, k.compar a x ≤ 0) (hstep : postStep multipleDecls k s x = .ok s') :
    Kept (seen ++ [x]) s' := by
  have hold : ∀ a ∈ seen, a ∈ seen ++ [x] := fun a => mem_append_left _
  have hx : x ∈ seen ++ [x] := mem_append_right _ (mem_singleton_self x)
  have hcur : s.cur ∈ seen := h.one.subset _ (mem_append_right _ (mem_singleton_self _))
  have hxx := horders.refl hx
  rcases postStep_cases hstep with ⟨hne, hdone, hcur'⟩ | ⟨heq, hdone, hcur'⟩
  · refine ⟨⟨?_, ?_, ?_⟩, ?_⟩ <;> rw [hcur'] <;> try rw [hdone]
    · intro b hb
      rcases mem_append.mp hb with hb | hb
      · exact hold b (h.one.subset b hb)
      · exact mem_append_right _ hb
    · intro a ha
      rcases mem_append.mp ha with ha | ha
      · obtain ⟨b, hb, hab⟩ := h.one.covers a ha
        exact ⟨b, mem_append_left _ hb, hab⟩
      · rw [mem_singleton.mp ha]
        exact ⟨x, mem_append_right _ (mem_singleton_self x), hxx⟩
    · refine pairwise_append.mpr ⟨h.one.apart, pairwise_singleton _ _, fun b hb y hy heq => ?_⟩
      rw [mem_singleton.mp hy] at heq
      exact hne (h.last_eq horders hsorted (h.one.subset b hb) heq)
    · intro a ha
      rcases mem_append.mp ha with ha | ha
      · exact hsorted a ha
      · rw [mem_singleton.mp ha]
        exact hxx.le
  · -- the rule that is kept last has the key of the new one
    have hmem : s'.cur ∈ seen ++ [x] := by
      rcases hcur' with hcur' | hcur' <;> rw [hcur']
      · exact hx
      · exact hold _ hcur
    have hsame : k.compar s.cur s'.cur = 0 := by
      rcases hcur' with hcur' | hcur' <;> rw [hcur']
      · exact heq
      · exact horders.refl (hold _ hcur)
    have hxcur : k.compar x s'.cur = 0 :=
      horders.eq_trans hx (hold _ hcur) hmem (horders.eq_comm (hold _ hcur) hx heq) hsame
    refine ⟨⟨?_, ?_, ?_⟩, ?_⟩ <;> try rw [hdone]
    · intro b hb
      rcases mem_append.mp hb with hb | hb
      · exact hold b (h.one.subset b (mem_append_left _ hb))
      · rwa [mem_singleton.mp hb]
    · intro a ha
      rcases mem_append.mp ha with ha | ha
      · obtain ⟨b, hb, hab⟩ := h.one.covers a ha
        rcases mem_append.mp hb with hb | hb
        · exact ⟨b, mem_append_left _ hb, hab⟩
        · rw [mem_singleton.mp hb] at hab
          exact ⟨s'.cur, mem_append_right _ (mem_singleton_self _),
            horders.eq_trans (hold a ha) (hold _ hcur) hmem hab hsame⟩
      · simp_all
    · obtain ⟨hdone', -, hapart⟩ := pairwise_append.mp h.one.apart
      refine pairwise_append.mpr ⟨hdone', pairwise_singleton _ _, fun b hb y hy heq' => ?_⟩
      rw [mem_singleton.mp hy] at heq'
      have hb' := hold b (h.one.subset b (mem_append_left _ hb))
      exact hapart b hb s.cur (mem_singleton_self _)
        (horders.eq_trans hb' hmem (hold _ hcur) heq' (horders.eq_comm (hold _ hcur) hmem hsame))
    · intro a ha
      rcases mem_append.mp ha with ha | ha
      · exact horders.trans a (hold a ha) s.cur (hold _ hcur) _ hmem (h.last a ha) hsame.le
      · rw [mem_singleton.mp ha]
        exact hxcur.le

theorem Kept.loop {rest : List k.Rule} (h : Kept seen s) (horders : Orders k.compar (seen ++ rest))
    (hsorted : (seen ++ rest).Pairwise fun a b => k.compar a b ≤ 0)
    (hloop : rest.foldlM (postStep multipleDecls k) s = .ok s') : Kept (seen ++ rest) s' := by
  induction rest generalizing seen s with
  | nil =>
    cases hloop
    rwa [append_nil]
  | cons x rest ih =>
    rw [foldlM_cons] at hloop
    cases hstep : postStep multipleDecls k s x with
    | error fault =>
      rw [hstep] at hloop
      cases hloop
    | ok s1 =>
      rw [hstep] at hloop
      rw [append_cons] at horders hsorted ⊢
      refine ih (h.step (horders.subset (subset_append_left _ _)) (fun a ha => ?_) hstep) horders
        hsorted hloop
      exact (pairwise_append.mp (pairwise_append.mp hsorted).1).2.2 a ha x (mem_singleton_self x)

theorem Kept.start (horders : Orders k.compar [x]) : Kept [x] { done := [], cur := x } := by
  have hxx := horders.refl (mem_singleton_self x)
  refine ⟨⟨fun b hb => hb, fun a ha => ⟨a, ha, ?_⟩, pairwise_singleton _ _⟩, fun a ha => ?_⟩
  · rwa [mem_singleton.mp ha]
  · rw [mem_singleton.mp ha]
    exact hxx.le

/-- Of the rules with one key, one is kept. -/
theorem postProcessContextRules_oneOfEach {l sorted kept} (horders : Orders k.compar l)
    (hsorts : Sorts k.compar l sorted)
    (h : postProcessContextRules multipleDecls k sorted = .ok kept) : OneOfEach k l kept := by
  obtain ⟨hperm, hsorted⟩ := hsorts
  have hone : OneOfEach k sorted kept := by
    cases sorted with
    | nil =>
      cases h
      exact ⟨by simp, by simp, .nil⟩
    | cons x array =>
      rw [postProcessContextRules] at h
      cases hloop : array.foldlM (postStep multipleDecls k) { done := [], cur := x } with
      | error fault =>
        rw [hloop] at h
        cases h
      | ok s =>
        have hkept := (Kept.start (horders.subset fun a ha => hperm.subset (mem_cons.mpr (.inl
          (mem_singleton.mp ha))))).loop (horders.subset hperm.subset) (hsorted horders) hloop
        rw [hloop] at h
        change (if s.err = true then _ else _) = _ at h
        split_ifs at h
        cases h
        exact hkept.one
  exact ⟨fun b hb => hperm.subset (hone.subset b hb), fun a ha =>
    hone.covers a (hperm.symm.subset ha), hone.apart⟩

end Kept

/-- The comparison of a kind orders the rules, has no result only for rules that label the same
objects, and no object loses all its rules if, and only if, the rules are comparable. -/
theorem compar_sound_iff (k : Kind) (l : List k.Rule) :
    (Orders k.compar l ∧ (∀ a ∈ l, ∀ b ∈ l, k.compar a b = 0 → k.SameObjects a b) ∧
      ∀ multipleDecls sorted kept, Sorts k.compar l sorted →
        postProcessContextRules multipleDecls k sorted = .ok kept →
          ∀ a ∈ l, ∃ b ∈ kept, k.SameObjects a b) ↔ k.Comparable l := by
  rw [← comparable_iff, ← and_assoc]
  refine and_iff_left_of_imp ?_
  rintro ⟨horders, hexact⟩ multipleDecls sorted kept hsorts h a ha
  have hone := postProcessContextRules_oneOfEach horders hsorts h
  obtain ⟨b, hb, hab⟩ := hone.covers a ha
  exact ⟨b, hb, hexact a ha b (hone.subset b hb) hab⟩

/-- A context with one level. -/
def contextAt (cats : Option (List CString)) : Context :=
  let level : Level := { sens := .ofString "s0", cats }
  { user := .ofString "u", role := .ofString "r", type := .ofString "t",
    range := some ⟨some level, some level⟩ }

/-- A rule for files and one for directories have one key, and the first is dropped; so have memory
ranges with high ends `2 ^ 32` apart. Three ranges of ports can be ordered in a circle. -/
theorem compar_unsound :
    let c := contextAt none
    let file : Genfscon :=
      { fs := .ofString "proc", path := .ofString "/", fileType := .file, context := c }
    let dir : Genfscon := { file with fileType := .dir }
    let port (high : BitVec 32) : Portcon :=
      { proto := .tcp, portLow := 0, portHigh := high, context := c }
    (Sorts (Kind.compar .genfscon) [file, dir] [file, dir] ∧
      postProcessContextRules true .genfscon [file, dir] = .ok [dir] ∧
        ¬Kind.SameObjects .genfscon file dir) ∧
    Kind.compar .iomemcon (⟨0, 0, c⟩ : Iomemcon) (⟨0, 0x100000000, c⟩ : Iomemcon) = 0 ∧
    Kind.compar .portcon (port 0) (port 0x60000000) < 0 ∧
    Kind.compar .portcon (port 0x60000000) (port 0xc0000000) < 0 ∧
    Kind.compar .portcon (port 0xc0000000) (port 0) < 0 := by
  refine ⟨⟨⟨.refl _, fun _ => ?_⟩, rfl, ?_⟩, by decide, by decide, by decide, by decide⟩
  · exact pairwise_pair.mpr (by decide)
  · rintro ⟨-, -, h⟩
    cases h

/-! ## Which contexts agree

Of the categories of a level, only whether there are any is compared. -/

def Level.plain (l : Level) : CString × Bool := (l.sens, l.cats.isSome)

def LevelRange.plain (r : LevelRange) : Option (CString × Bool) × Option (CString × Bool) :=
  (r.low.map Level.plain, r.high.map Level.plain)

/-- A context without its categories. -/
def Context.plain (c : Context) :
    CString × CString × CString × Option (Option (CString × Bool) × Option (CString × Bool)) :=
  (c.user, c.role, c.type, c.range.map LevelRange.plain)

theorem pointerCmp_eq_zero {α β : Type} {cmp : α → α → Int} {f : α → β}
    (h : ∀ a b, cmp a b = 0 ↔ f a = f b)
    (a b : Option α) : pointerCmp cmp a b = 0 ↔ a.map f = b.map f := by
  cases a <;> cases b <;> simp [pointerCmp, h]

theorem catsCompare_eq_zero (a b : List CString) : catsCompare a b = 0 := by
  unfold catsCompare
  split
  · rename_i rc h
    obtain ⟨i, -, h⟩ := exists_of_findSome?_eq_some h
    obtain ⟨j, -, h⟩ := exists_of_findSome?_eq_some h
    split_ifs at h with hrc
    rw [← some.inj h, hrc]
  · rfl

theorem levelCompare_eq_zero (a b : Level) : levelCompare a b = 0 ↔ a.plain = b.plain := by
  rw [levelCompare, Lib.thenCmp_eq_zero, Lib.keyCmp_eq_zero,
    pointerCmp_eq_zero (f := fun _ => ()) (fun a b => iff_of_true (catsCompare_eq_zero a b) rfl),
      Level.plain, Level.plain,
    Prod.mk.injEq]
  cases a.cats <;> cases b.cats <;> simp

theorem rangeCompare_eq_zero (a b : LevelRange) : rangeCompare a b = 0 ↔ a.plain = b.plain := by
  rw [rangeCompare, Lib.thenCmp_eq_zero, pointerCmp_eq_zero levelCompare_eq_zero,
    pointerCmp_eq_zero levelCompare_eq_zero, LevelRange.plain, LevelRange.plain, Prod.mk.injEq]

theorem contextCompare_eq_zero (a b : Context) : contextCompare (some a) (some b) = some 0 ↔
    a.plain = b.plain := by
  simp [contextCompare, Lib.thenCmp_eq_zero, Lib.keyCmp_eq_zero,
    pointerCmp_eq_zero rangeCompare_eq_zero, Context.plain]

/-- The rules have contexts that agree, up to the categories. -/
def Kind.Agree (k : Kind) (a b : k.Rule) : Prop :=
  (k.contexts a).mapM (Option.map Context.plain) = (k.contexts b).mapM (Option.map Context.plain) ∧
    ((k.contexts a).mapM (Option.map Context.plain)).isSome = true

theorem Kind.Agree.symm {k : Kind} {a b} (h : k.Agree a b) : k.Agree b a := ⟨h.1.symm, h.1 ▸ h.2⟩

theorem Kind.Agree.trans {k : Kind} {a b c} (hab : k.Agree a b) (hbc : k.Agree b c) : k.Agree a c :=
  ⟨hab.1.trans hbc.1, hab.2⟩

theorem contextsCompare_eq_zero {as bs : List (Option Context)} (hlen : as.length = bs.length) :
    contextsCompare as bs = some 0 ↔
      as.mapM (Option.map Context.plain) = bs.mapM (Option.map Context.plain) ∧
        (as.mapM (Option.map Context.plain)).isSome = true := by
  induction as generalizing bs with
  | nil =>
    rw [eq_nil_of_length_eq_zero hlen.symm]
    simp [contextsCompare]
  | cons a as ih =>
    obtain ⟨b, bs, rfl⟩ := exists_cons_of_length_eq_add_one hlen.symm
    have ih := ih (Nat.succ.inj hlen)
    cases a with
    | none => simp [contextsCompare, contextCompare]
    | some a =>
      cases b with
      | none =>
        simp [contextsCompare, contextCompare]
      | some b =>
        have hcmp := contextCompare_eq_zero a b
        rw [contextCompare, some_inj] at hcmp
        rw [contextsCompare, contextCompare, bind_some]
        split_ifs with hrc
        · refine iff_of_false (fun h => hrc (Option.some.inj h)) ?_
          rintro ⟨heq, hsome⟩
          cases has : as.mapM (Option.map Context.plain) with
          | none => simp [has] at hsome
          | some ps =>
            cases hbs : bs.mapM (Option.map Context.plain) with
            | none => simp [has, hbs] at heq
            | some qs =>
              simp_all
        · have hplain := hcmp.mp (not_ne_iff.mp hrc)
          rw [ih]
          simp only [mapM_cons, map_some, bind_eq_bind, bind_some, hplain]
          cases as.mapM (Option.map Context.plain) <;> cases bs.mapM (Option.map Context.plain) <;>
            simp

theorem concompar_eq_zero {k : Kind} {a b} : k.concompar a b = some 0 ↔ k.Agree a b := by
  refine contextsCompare_eq_zero ?_
  cases k <;> rfl

section Agree

variable {k : Kind} {s s' : PostState k} {x : k.Rule} {seen : List k.Rule}

theorem postStep_agree_iff : (∃ s', postStep true k s x = .ok s' ∧ s'.err = false) ↔
      s.err = false ∧ (k.compar s.cur x = 0 → k.Agree s.cur x) := by
  unfold postStep
  rw [← concompar_eq_zero]
  by_cases hne : k.compar s.cur x ≠ 0
  · simp [hne]
  · rw [if_neg hne, if_neg (by decide)]
    cases hcon : k.concompar s.cur x with
    | none => simp [not_ne_iff.mp hne]
    | some rc =>
      by_cases hrc : rc = 0
      · simp [hrc]
      · simp [hrc, not_ne_iff.mp hne]

theorem foldlM_postStep_err {rest : List k.Rule} (hloop : rest.foldlM (postStep true k) s = .ok s')
    (hs' : s'.err = false) : s.err = false := by
  induction rest generalizing s with
  | nil =>
    cases hloop
    exact hs'
  | cons x rest ih =>
    rw [foldlM_cons] at hloop
    cases hstep : postStep true k s x with
    | error fault =>
      rw [hstep] at hloop
      cases hloop
    | ok s1 =>
      rw [hstep] at hloop
      exact (postStep_agree_iff.mp ⟨s1, hstep, ih hloop⟩).1

/-- The rules with the last key agree with the one that is kept for it. -/
def Agreed (seen : List k.Rule) (s : PostState k) : Prop :=
  ∀ a ∈ seen, k.compar a s.cur = 0 → a = s.cur ∨ k.Agree a s.cur

theorem Agreed.step (h : Agreed seen s) (hkept : Kept seen s)
    (horders : Orders k.compar (seen ++ [x]))
    (hsorted : ∀ a ∈ seen, k.compar a x ≤ 0) (hagree : k.compar s.cur x = 0 → k.Agree s.cur x)
    (hstep : postStep true k s x = .ok s') :
    (∀ a ∈ seen, k.compar a x = 0 → k.Agree a x) ∧ Agreed (seen ++ [x]) s' := by
  have hold : ∀ a ∈ seen, a ∈ seen ++ [x] := fun a => mem_append_left _
  have hx : x ∈ seen ++ [x] := mem_append_right _ (mem_singleton_self x)
  have hcur : s.cur ∈ seen := hkept.one.subset _ (mem_append_right _ (mem_singleton_self _))
  -- a rule with the key of the new one has the key of the last one
  have hsame : ∀ a ∈ seen, k.compar a x = 0 → k.compar s.cur x = 0 ∧ k.compar a s.cur = 0 := by
    intro a ha heq
    have hcurx := hkept.last_eq horders hsorted ha heq
    exact ⟨hcurx, horders.eq_trans (hold a ha) hx (hold _ hcur) heq
      (horders.eq_comm (hold _ hcur) hx hcurx)⟩
  have hnew : ∀ a ∈ seen, k.compar a x = 0 → k.Agree a x := by
    intro a ha heq
    obtain ⟨hcurx, hacur⟩ := hsame a ha heq
    rcases h a ha hacur with rfl | hacur
    · exact hagree hcurx
    · exact hacur.trans (hagree hcurx)
  refine ⟨hnew, fun a ha heq => ?_⟩
  rcases postStep_cases hstep with ⟨-, -, hcur'⟩ | ⟨hcurx, -, hcur' | hcur'⟩ <;> rw [hcur'] at heq ⊢
  · rcases mem_append.mp ha with ha | ha
    · exact .inr (hnew a ha heq)
    · exact .inl (mem_singleton.mp ha)
  · rcases mem_append.mp ha with ha | ha
    · exact .inr (hnew a ha heq)
    · exact .inl (mem_singleton.mp ha)
  · rcases mem_append.mp ha with ha | ha
    · exact h a ha heq
    · rw [mem_singleton.mp ha]
      exact .inr (hagree hcurx).symm

theorem postLoop_agree_iff {rest : List k.Rule} (hkept : Kept seen s) (hagreed : Agreed seen s)
    (hs : s.err = false) (hseen : seen.Pairwise fun a b => k.compar a b = 0 → k.Agree a b)
    (horders : Orders k.compar (seen ++ rest))
    (hsorted : (seen ++ rest).Pairwise fun a b => k.compar a b ≤ 0) :
    (∃ s', rest.foldlM (postStep true k) s = .ok s' ∧ s'.err = false) ↔
      (seen ++ rest).Pairwise fun a b => k.compar a b = 0 → k.Agree a b := by
  induction rest generalizing seen s with
  | nil =>
    rw [append_nil]
    exact iff_of_true ⟨s, rfl, hs⟩ hseen
  | cons x rest ih =>
    rw [append_cons] at horders hsorted ⊢
    have hcur : s.cur ∈ seen := hkept.one.subset _ (mem_append_right _ (mem_singleton_self _))
    have horders1 := horders.subset (subset_append_left _ rest)
    have hle : ∀ a ∈ seen, k.compar a x ≤ 0 := fun a ha =>
      (pairwise_append.mp (pairwise_append.mp hsorted).1).2.2 a ha x (mem_singleton_self x)
    -- both sides say that the rule agrees with the last one
    have hrest : (k.compar s.cur x = 0 → k.Agree s.cur x) →
        ((∃ s', (x :: rest).foldlM (postStep true k) s = .ok s' ∧ s'.err = false) ↔
          (seen ++ [x] ++ rest).Pairwise fun a b => k.compar a b = 0 → k.Agree a b) := by
      intro hagree
      obtain ⟨s1, hstep, hs1⟩ := postStep_agree_iff.mpr ⟨hs, hagree⟩
      obtain ⟨hnew, hagreed1⟩ := hagreed.step hkept horders1 hle hagree hstep
      have hseen1 : (seen ++ [x]).Pairwise fun a b => k.compar a b = 0 → k.Agree a b := by
        refine pairwise_append.mpr ⟨hseen, pairwise_singleton _ _, fun a ha b hb => ?_⟩
        rw [mem_singleton.mp hb]
        exact hnew a ha
      rw [← ih (hkept.step horders1 hle hstep) hagreed1 hs1 hseen1 horders hsorted, foldlM_cons,
        hstep]
      rfl
    refine ⟨fun h => (hrest ?_).mp h, fun h => (hrest ?_).mpr h⟩
    · obtain ⟨s', hloop, hs'⟩ := h
      rw [foldlM_cons] at hloop
      cases hstep : postStep true k s x with
      | error fault =>
        rw [hstep] at hloop
        cases hloop
      | ok s1 =>
        rw [hstep] at hloop
        exact (postStep_agree_iff.mp ⟨s1, hstep, foldlM_postStep_err hloop hs'⟩).2
    · exact (pairwise_append.mp (pairwise_append.mp h).1).2.2 s.cur hcur x (mem_singleton_self x)

end Agree

theorem postProcessContextRules_ok_iff {k : Kind} {l sorted : List k.Rule}
    (horders : Orders k.compar l) (hsorts : Sorts k.compar l sorted) :
    (∃ kept, postProcessContextRules true k sorted = .ok kept) ↔
      sorted.Pairwise fun a b => k.compar a b = 0 → k.Agree a b := by
  obtain ⟨hperm, hsorted⟩ := hsorts
  cases sorted with
  | nil => exact iff_of_true ⟨[], rfl⟩ .nil
  | cons x array =>
    have hstart : Kept [x] { done := [], cur := x } := Kept.start (horders.subset fun a ha =>
      hperm.subset (mem_cons.mpr (.inl (mem_singleton.mp ha))))
    have hloop := postLoop_agree_iff hstart (fun a ha _ => .inl (mem_singleton.mp ha)) rfl
      (pairwise_singleton _ x) (horders.subset hperm.subset) (hsorted horders)
    refine Iff.trans ?_ hloop
    rw [postProcessContextRules]
    cases array.foldlM (postStep true k) { done := [], cur := x } with
    | error fault => exact iff_of_false (fun ⟨_, h⟩ => nomatch h) (fun ⟨_, h, _⟩ => nomatch h)
    | ok s =>
      change (∃ kept, (if s.err = true then _ else _) = _) ↔ _
      cases hs : s.err <;> simp [hs]

/-! ## Which contexts are equal -/

def Level.Same (a b : Level) : Prop := a.sens = b.sens ∧ ∀ c, c ∈ a.cats.getD [] ↔
    c ∈ b.cats.getD []

def LevelRange.Same (a b : LevelRange) : Prop :=
  Option.Rel Level.Same a.low b.low ∧ Option.Rel Level.Same a.high b.high

/-- The contexts are equal: the names are, and the sets of categories. -/
def Context.Same (a b : Context) : Prop :=
  a.user = b.user ∧ a.role = b.role ∧ a.type = b.type ∧ Option.Rel LevelRange.Same a.range b.range

def Kind.SameContexts (k : Kind) (a b : k.Rule) : Prop :=
  List.Forall₂ (Option.Rel Context.Same) (k.contexts a) (k.contexts b)

/-- Rules that the comparison of keys orders are accepted only with equal contexts if, and only if,
two rules with one key disagree in more than categories, or none do in anything. -/
theorem postProcessContextRules_same_iff (k : Kind) {l : List k.Rule}
    (horders : Orders k.compar l) :
    (∀ sorted kept, Sorts k.compar l sorted → postProcessContextRules true k sorted = .ok kept →
      (∀ a ∈ l, ∀ b ∈ l, k.compar a b = 0 → k.SameContexts a b) ∧ OneOfEach k l kept) ↔
    (¬l.Pairwise fun a b => k.compar a b = 0 → k.Agree a b) ∨
      ∀ a ∈ l, ∀ b ∈ l, k.compar a b = 0 → k.SameContexts a b := by
  -- the order of the rules does not matter for agreement
  have hagree : ∀ sorted, Sorts k.compar l sorted →
      ((∃ kept, postProcessContextRules true k sorted = .ok kept) ↔
        l.Pairwise fun a b => k.compar a b = 0 → k.Agree a b) := by
    intro sorted hsorts
    rw [postProcessContextRules_ok_iff horders hsorts, List.Pairwise.imp_mem]
    simp only [hsorts.1.mem_iff]
    rw [hsorts.1.pairwise_iff, ← List.Pairwise.imp_mem]
    exact fun h hb ha heq => (h ha hb (horders.eq_comm hb ha heq)).symm
  constructor
  · intro h
    by_cases hpairs : l.Pairwise fun a b => k.compar a b = 0 → k.Agree a b
    · obtain ⟨sorted, hsorts⟩ := Lib.exists_sorts k.compar l
      obtain ⟨kept, hok⟩ := (hagree sorted hsorts).mpr hpairs
      exact .inr (h sorted kept hsorts hok).1
    · exact .inl hpairs
  · intro h sorted kept hsorts hok
    have hpairs := (hagree sorted hsorts).mp ⟨kept, hok⟩
    exact ⟨h.resolve_left (not_not.mpr hpairs),
      postProcessContextRules_oneOfEach horders hsorts hok⟩

/-- Two rules for one path, with contexts that differ in a category. -/
theorem postProcessContextRules_categories :
    let a : Filecon :=
      { path := .ofString "/a", type := .any, context := some (contextAt (some [.ofString "c0"])) }
    let b : Filecon :=
      { path := .ofString "/a", type := .any, context := some (contextAt (some [.ofString "c1"])) }
    Sorts (Kind.compar .filecon) [a, b] [a, b] ∧ Kind.compar .filecon a b = 0 ∧
      postProcessContextRules true .filecon [a, b] = .ok [b] ∧ ¬Kind.SameContexts .filecon a b := by
  refine ⟨⟨.refl _, fun _ => pairwise_pair.mpr (by decide)⟩, by decide, rfl, fun h => ?_⟩
  cases h with
  | cons h _ =>
    cases h with
    | some h =>
      obtain ⟨-, -, -, h⟩ := h
      cases h with
      | some h =>
        cases h.1 with
        | some h => exact absurd ((h.2 (.ofString "c0")).mp (mem_singleton_self _)) (by decide)

/-- Two rules for one path with one context. -/
theorem postProcessContextRules_same_iff_twice :
    let a : Filecon := { path := .ofString "/a", type := .any, context := some (contextAt none) }
    Orders (Kind.compar .filecon) [a, a] ∧
      ∀ sorted kept, Sorts (Kind.compar .filecon) [a, a] sorted →
        postProcessContextRules true .filecon sorted = .ok kept →
          OneOfEach .filecon [a, a] kept := by
  intro a
  have horders : Orders (Kind.compar .filecon) [a, a] := orders_postFileconCompare _
  refine ⟨horders, fun sorted kept hsorts hok =>
    ((postProcessContextRules_same_iff .filecon horders).mpr (.inr fun x hx y hy _ => ?_) sorted
      kept hsorts hok).2⟩
  have hlevel : ∀ l : Level, l.Same l := fun l => ⟨rfl, fun _ => Iff.rfl⟩
  have hself : Kind.SameContexts .filecon a a :=
    .cons (.some ⟨rfl, rfl, rfl, .some ⟨.some (hlevel _), .some (hlevel _)⟩⟩) .nil
  rcases mem_pair.mp hx with rfl | rfl <;> rcases mem_pair.mp hy with rfl | rfl <;> exact hself

end SELinux.Cil
