import SELinux.Cil.OrderedLists
import SELinux.Lib.Subsequence

/-!
# What merged lists are

A composite list grows by steps. In each step neighbours are neighbours on some list, unless the
list that is being merged contradicts the composite list, and then it can never be merged. So the
composite list of all lists is the only order that they allow. -/

namespace SELinux.Cil

open List

variable {α : Type}

/-- Two items stand next to each other on one of the lists. -/
def Directly (lists : List (List α)) (x y : α) : Prop := ∃ l ∈ lists, [x, y] <:+: l

variable {l new b m zs rest before ns : List α} {lists : List (List α)} {c : Composite α}

theorem isChain_directly {lists} (hl : l ∈ lists) : l.IsChain (Directly lists) := by
  refine isChain_iff_forall_rel_of_append_cons_cons.mpr fun x y l1 l2 heq => ⟨l, hl, l1, l2, ?_⟩
  simp [heq]

/-- No item is there twice, and the flags say which are there. -/
structure Composite.Wf (c : Composite α) : Prop where
  nodup : c.list.Nodup
  flags : ∀ x, c.ordered x = true ↔ x ∈ c.list

/-! ## Steps -/

/-- What the merging of some of the lists does to the composite list. -/
structure MergeStep (lists : List (List α)) (c c' : Composite α) : Prop where
  wf : c'.Wf
  grows : c.list.Sublist c'.list
  mem : ∀ x ∈ c'.list, x ∈ c.list ∨ ∃ l ∈ lists, x ∈ l
  chain : c.list.IsChain (Directly lists) →
    c'.list.IsChain (Directly lists) ∨ ∃ l ∈ lists, Lib.Conflicts l c'.list

namespace MergeStep

variable {c' c'' : Composite α}

theorem refl (h : c.Wf) : MergeStep lists c c :=
  ⟨h, .refl _, fun _ hx => .inl hx, fun hchain => .inl hchain⟩

theorem trans (h : MergeStep lists c c') (h' : MergeStep lists c' c'') : MergeStep lists c c'' where
  wf := h'.wf
  grows := h.grows.trans h'.grows
  mem := by
    intro x hx
    rcases h'.mem x hx with hx | hx
    · exact h.mem x hx
    · exact .inr hx
  chain := by
    intro hchain
    rcases h.chain hchain with hchain | ⟨l, hl, hconflict⟩
    · exact h'.chain hchain
    · exact .inr ⟨l, hl, hconflict.mono h'.grows⟩

end MergeStep

/-- An item that is before `oprev` or behind `ocurr`, but between the two on the new list. -/
theorem conflicts_between {ys : List α} {p x : α} (hnew : new = m ++ p :: (ys ++ x :: zs))
    (hx : x ∈ b ++ [p] ∨ x ∈ rest ∨ x ∈ ys) (hrest : x ∈ rest → ∃ o os, rest = o :: os ∧ o ∈ zs) :
    Lib.Conflicts new (b ++ [p] ++ rest) := by
  have hpx : [p, x].Sublist new := by
    simp [hnew]
  rcases hx with hx | hx | hx
  · rcases mem_append.mp hx with hx | hx
    · refine ⟨p, x, hpx, .inr (List.Sublist.trans ?_ (sublist_append_left _ _))⟩
      exact (singleton_sublist.mpr hx).append (.refl _)
    · exact ⟨p, x, hpx, .inl (mem_singleton.mp hx).symm⟩
  · obtain ⟨o, os, rfl, ho⟩ := hrest hx
    have hxo : [x, o].Sublist new := by
      rw [hnew]
      refine List.Sublist.trans ?_ (sublist_append_right _ _)
      simp [ho]
    refine ⟨x, o, hxo, ?_⟩
    rcases mem_cons.mp hx with rfl | hx
    · exact .inl rfl
    · simp [hx]
  · refine ⟨x, x, ?_, .inl rfl⟩
    rw [hnew]
    refine List.Sublist.trans ?_ (sublist_append_right _ _)
    exact .cons _ ((singleton_sublist.mpr hx).append
      (singleton_sublist.mpr (by simp : x ∈ x :: zs)))

/-! ## Insertion -/

variable [DecidableEq α]

theorem orderedListInsert_spec (ordered : α → Bool) (ns : List α) :
    (orderedListInsert ordered ns).items.Nodup ∧
    (∀ x ∈ (orderedListInsert ordered ns).items, x ∈ ns ∧ ordered x = false) ∧
    (∀ x, (orderedListInsert ordered ns).ordered x = true ↔
      ordered x = true ∨ x ∈ (orderedListInsert ordered ns).items) ∧
    ((orderedListInsert ordered ns).ok = true → (orderedListInsert ordered ns).items = ns) ∧
    ((orderedListInsert ordered ns).ok = false → ∃ x rest,
      ns = (orderedListInsert ordered ns).items ++ x :: rest ∧
        (ordered x = true ∨ x ∈ (orderedListInsert ordered ns).items)) := by
  induction ns generalizing ordered with
  | nil => simp [orderedListInsert]
  | cons n ns ih =>
    rw [orderedListInsert, orderedItemInsert]
    by_cases hn : ordered n = true
    · simp [hn]
    · rw [if_neg hn]
      obtain ⟨hnodup, hnew, hflags, hok, hfail⟩ := ih (Function.update ordered n true)
      dsimp only
      have hupdate (x : α) : Function.update ordered n true x = true ↔ x = n ∨
          ordered x = true := by
        by_cases hx : x = n
        · simp [hx]
        · simp [hx]
      refine ⟨nodup_cons.mpr ⟨fun hmem => ?_, hnodup⟩, fun x hx => ?_, fun x => ?_, fun h =>
        ?_, fun h => ?_⟩
      · have hfalse := (hnew n hmem).2
        rw [Function.update_self] at hfalse
        cases hfalse
      · rcases mem_cons.mp hx with rfl | hx
        · exact ⟨by simp, by simpa using hn⟩
        · obtain ⟨hmem, hfalse⟩ := hnew x hx
          rw [← Bool.not_eq_true, hupdate, not_or, Bool.not_eq_true] at hfalse
          exact ⟨mem_cons_of_mem _ hmem, hfalse.2⟩
      · rw [hflags, hupdate, mem_cons]
        tauto
      · rw [hok h]
      · obtain ⟨x, rest, heq, hx⟩ := hfail h
        refine ⟨x, rest, by rw [cons_append, ← heq], ?_⟩
        rw [hupdate] at hx
        rw [mem_cons]
        tauto

variable {ordered : α → Bool}

/-- Items that were inserted between two parts. -/
theorem Composite.Wf.insert (h : Composite.Wf ⟨before ++ rest, ordered⟩) :
    Composite.Wf ⟨before ++ (orderedListInsert ordered ns).items ++ rest,
      (orderedListInsert ordered ns).ordered⟩ := by
  obtain ⟨hnodup, hnew, hflags, -, -⟩ := orderedListInsert_spec ordered ns
  have hperm : (before ++ (orderedListInsert ordered ns).items ++ rest).Perm
      ((orderedListInsert ordered ns).items ++ (before ++ rest)) := by
    rw [← append_assoc]
    exact perm_append_comm.append_right _
  refine ⟨hperm.nodup_iff.mpr (nodup_append.mpr ⟨hnodup, h.nodup, fun x hx y hy hxy => ?_⟩),
    fun x => ?_⟩
  · have htrue : ordered x = true := (h.flags x).mpr (hxy ▸ hy)
    rw [(hnew x hx).2] at htrue
    cases htrue
  · have hx := h.flags x
    rw [hflags, hx, hperm.mem_iff, mem_append (s := (orderedListInsert ordered ns).items)]
    exact or_comm

theorem MergeStep.insert (before rest ns : List α) (hnew : new ∈ lists) (hns : ns ⊆ new)
    (h : Composite.Wf ⟨before ++ rest, ordered⟩)
    (hok : (orderedListInsert ordered ns).ok = true → (before ++ rest).IsChain (Directly lists) →
      (before ++ ns ++ rest).IsChain (Directly lists))
    (hfail : ∀ x ys zs, ns = ys ++ x :: zs → x ∈ before ∨ x ∈ rest ∨ x ∈ ys →
      Lib.Conflicts new (before ++ rest)) : MergeStep lists ⟨before ++ rest, ordered⟩
      ⟨before ++ (orderedListInsert ordered ns).items ++ rest,
        (orderedListInsert ordered ns).ordered⟩ := by
  obtain ⟨-, hitems, -, hall, hstop⟩ := orderedListInsert_spec ordered ns
  have hgrows : (before ++ rest).Sublist (before ++ (orderedListInsert ordered ns).items ++ rest) :=
    (sublist_append_left _ _).append (.refl _)
  refine ⟨h.insert, hgrows, fun x hx => ?_, fun hchain => ?_⟩
  · rw [mem_append, mem_append] at hx
    rw [mem_append]
    rcases hx with (hx | hx) | hx
    · exact .inl (.inl hx)
    · exact .inr ⟨new, hnew, hns (hitems x hx).1⟩
    · exact .inl (.inr hx)
  · cases hcase : (orderedListInsert ordered ns).ok with
    | true =>
      exact .inl ((hall hcase).symm ▸ hok hcase hchain)
    | false =>
      obtain ⟨x, zs, heq, hx⟩ := hstop hcase
      rw [h.flags] at hx
      refine .inr ⟨new, hnew, (hfail x _ zs heq ?_).mono hgrows⟩
      rwa [mem_append, or_assoc] at hx

/-! ## The overlapping portion -/

section Overlap

/-- Items of the new list are inserted between `oprev` and `ocurr`, which are around them on the new
list. -/
theorem MergeStep.between {p : α} (hlists : new ∈ lists)
    (hwf : Composite.Wf ⟨before ++ rest, ordered⟩) (hb : before = b ++ [p])
    (hnew : new = m ++ p :: (ns ++ zs)) (hrest : ∀ o os, rest = o :: os → ∃ zs', zs = o :: zs') :
    MergeStep lists ⟨before ++ rest, ordered⟩
      ⟨before ++ (orderedListInsert ordered ns).items ++ rest,
        (orderedListInsert ordered ns).ordered⟩ := by
  have hchain : (p :: (ns ++ zs)).IsChain (Directly lists) := by
    have hall := isChain_directly hlists
    rw [hnew] at hall
    exact hall.right_of_append
  refine .insert before rest ns hlists (fun x hx => by simp [hnew, hx]) hwf (fun _ hold => ?_)
    fun x ys xs heq hx => ?_
  · subst hb
    have hlast : (b ++ [p]).IsChain (Directly lists) := hold.left_of_append
    cases rest with
    | nil =>
      rw [append_nil]
      exact hlast.append_overlap hchain.left_of_append (by simp)
    | cons o os =>
      obtain ⟨zs', rfl⟩ := hrest o os rfl
      have hgap : ([p] ++ ns ++ [o]).IsChain (Directly lists) := by
        have hsplit : p :: (ns ++ o :: zs') = [p] ++ ns ++ [o] ++ zs' := by simp
        rw [hsplit] at hchain
        exact hchain.left_of_append
      have hos : ([o] ++ os).IsChain (Directly lists) := hold.right_of_append
      have hnext := hgap.append_overlap hos (by simp)
      have hfull := hlast.append_overlap hnext (by simp)
      simpa using hfull
  · rw [heq] at hnew
    subst hb
    have hnew' : new = m ++ p :: (ys ++ x :: (xs ++ zs)) := by simpa using hnew
    refine conflicts_between hnew' hx fun hxrest => ?_
    cases rest with
    | nil => cases hxrest
    | cons o os =>
      obtain ⟨zs', rfl⟩ := hrest o os rfl
      exact ⟨o, os, rfl, by simp⟩

/-- The loop, from where the lists last met: `p` is `oprev` and stands before `ncurr` on the new
list. -/
theorem mergeOverlap_spec (hlists : new ∈ lists) (before : List α) (ordered : α → Bool)
    (ocurr ncurr : List α) (hwf : Composite.Wf ⟨before ++ ocurr, ordered⟩) {b m p}
    (hb : before = b ++ [p]) (hnew : new = m ++ p :: ncurr) (hsub : (m ++ [p]).Sublist before) :
    MergeStep lists ⟨before ++ ocurr, ordered⟩ (mergeOverlap before ordered ocurr ncurr).1 ∧
      ((mergeOverlap before ordered ocurr ncurr).2 = true →
        new.Sublist (mergeOverlap before ordered ocurr ncurr).1.list) := by
  fun_induction mergeOverlap before ordered ocurr ncurr generalizing b m p with
  | case1 before ordered ocurr =>
    refine ⟨.refl hwf, fun _ => ?_⟩
    rw [hnew]
    exact hsub.trans (sublist_append_left _ _)
  | case2 before ordered n ns r =>
    have hnew' : new = m ++ p :: (n :: ns ++ []) := by rw [append_nil, hnew]
    have hstep : MergeStep lists ⟨before ++ [], ordered⟩ ⟨before ++ r.items ++ [], r.ordered⟩ :=
      .between hlists hwf hb hnew' nofun
    rw [append_nil (before ++ r.items)] at hstep
    refine ⟨hstep, fun hok => ?_⟩
    obtain ⟨-, -, -, hall, -⟩ := orderedListInsert_spec ordered (n :: ns)
    rw [hall hok, hnew, append_cons]
    exact hsub.append (.refl _)
  | case3 before ordered os n ns ih =>
    rw [append_cons] at hwf ⊢
    exact ih hwf rfl (by rw [hnew, append_cons]) (hsub.append (.refl _))
  | case4 before ordered o os n ns hne gap hgap r hok ih =>
    have hns := orderedFindMatch_eq_some hgap
    have hnew' : new = m ++ p :: (n :: gap.1 ++ o :: gap.2) := by rw [hnew, hns, cons_append]
    have hstep :
        MergeStep lists ⟨before ++ o :: os, ordered⟩ ⟨before ++ r.items ++ o :: os, r.ordered⟩ :=
      .between hlists hwf hb hnew' fun o' os' heq => ⟨gap.2, by cases heq; rfl⟩
    rw [append_cons (before ++ r.items)] at hstep
    obtain ⟨-, -, -, hall, -⟩ := orderedListInsert_spec ordered (n :: gap.1)
    obtain ⟨hrun, hsublist⟩ :=
      ih hstep.wf (m := m ++ p :: n :: gap.1) rfl (by simpa using hnew') <| by
      rw [show r.items = n :: gap.1 from hall hok, append_cons m]
      exact (hsub.append (.refl _)).append (.refl _)
    exact ⟨hstep.trans hrun, hsublist⟩
  | case5 before ordered o os n ns hne gap hgap r hfail =>
    have hns := orderedFindMatch_eq_some hgap
    have hnew' : new = m ++ p :: (n :: gap.1 ++ o :: gap.2) := by rw [hnew, hns, cons_append]
    exact ⟨.between hlists hwf hb hnew' fun o' os' heq => ⟨gap.2, by cases heq; rfl⟩, nofun⟩
  | case6 before ordered o os n ns hne hnone gap hgap ih =>
    have hos : before ++ o :: os = before ++ o :: gap.1 ++ [n] ++ gap.2 := by
      rw [orderedFindMatch_eq_some hgap]
      simp
    rw [hos] at hwf ⊢
    refine ih hwf rfl (by rw [hnew, append_cons]) ?_
    exact (hsub.trans (sublist_append_left _ _)).append (.refl _)
  | case7 before ordered o os n ns hne hnone hnone' => exact ⟨.refl hwf, nofun⟩

end Overlap

/-! ## One list -/

theorem firstMatch_eq_some {old new} {r : FirstMatch α} (h : firstMatch old new = some r) :
    new = r.npre ++ r.item :: r.npost ∧ old = r.opre ++ r.item :: r.opost ∧
      ∀ x ∈ r.npre, x ∉ old := by
  induction new generalizing r with
  | nil => cases h
  | cons n ns ih =>
    rw [firstMatch] at h
    cases hfind : orderedFindMatch n old with
    | some o =>
      rw [hfind] at h
      cases h
      exact ⟨rfl, orderedFindMatch_eq_some hfind, by simp⟩
    | none =>
      rw [hfind] at h
      obtain ⟨r', hr', rfl⟩ := Option.map_eq_some_iff.mp h
      obtain ⟨hnew, hold, hpre⟩ := ih hr'
      refine ⟨by rw [hnew]; rfl, hold, fun x hx => ?_⟩
      rcases mem_cons.mp hx with rfl | hx
      · exact orderedFindMatch_eq_none hfind
      · exact hpre x hx

theorem orderedListsMerge_spec {lists} (hlists : new ∈ lists) {old : Composite α}
    (hwf : old.Wf) : MergeStep lists old (orderedListsMerge old new).1 ∧
      ((orderedListsMerge old new).2 = true → new.Sublist (orderedListsMerge old new).1.list) := by
  have hchain := isChain_directly hlists
  rw [orderedListsMerge]
  by_cases hempty : new = []
  · rw [if_pos hempty]
    exact ⟨.refl hwf, fun _ => by rw [hempty]; exact nil_sublist _⟩
  rw [if_neg hempty]
  by_cases hfirst : old.list = []
  · -- the first list
    obtain ⟨list, ordered⟩ := old
    cases hfirst
    have hstep := MergeStep.insert [] [] new hlists (List.Subset.refl new) hwf
      (fun _ _ => by simpa using hchain) fun x ys zs heq hx => ?_
    · simp only [nil_append, append_nil] at hstep
      refine ⟨hstep, fun hok => ?_⟩
      obtain ⟨-, -, -, hall, -⟩ := orderedListInsert_spec ordered new
      simp [hall hok]
    · simp only [not_mem_nil, false_or] at hx
      refine ⟨x, x, ?_, .inl rfl⟩
      rw [heq]
      exact (singleton_sublist.mpr hx).append (singleton_sublist.mpr (by simp : x ∈ x :: zs))
  rw [if_neg hfirst]
  cases hmatch : firstMatch old.list new with
  | none => exact ⟨.refl hwf, nofun⟩
  | some r =>
    obtain ⟨hnew, hold, hpre⟩ := firstMatch_eq_some hmatch
    obtain ⟨list, ordered⟩ := old
    dsimp only at hold hpre ⊢
    by_cases hconflict : r.npre ≠ [] ∧ r.opre ≠ []
    · rw [if_pos hconflict]
      exact ⟨.refl hwf, nofun⟩
    rw [if_neg hconflict]
    by_cases hnpre : r.npre ≠ []
    · -- the lists meet at the first item of the old one
      have hopre : r.opre = [] := by
        by_contra hne
        exact hconflict ⟨hnpre, hne⟩
      rw [hopre, nil_append] at hold
      subst hold
      have hstep := MergeStep.insert [] (r.item :: r.opost) r.npre hlists
        (fun x hx => by rw [hnew]; simp [hx]) hwf (fun _ hrest => ?_) fun x ys zs heq hx => ?_
      · rw [nil_append, nil_append] at hstep
        split_ifs with hok
        · obtain ⟨-, -, -, hall, -⟩ := orderedListInsert_spec ordered r.npre
          have hitems := hall hok
          rw [hitems] at hstep ⊢
          rw [append_cons] at hstep
          rw [hopre, append_nil]
          obtain ⟨hrun, hsublist⟩ := mergeOverlap_spec hlists _ _ _ _ hstep.wf rfl hnew (.refl _)
          exact ⟨hstep.trans hrun, hsublist⟩
        · exact ⟨hstep, nofun⟩
      · rw [hnew, append_cons] at hchain
        rw [append_cons]
        exact hchain.left_of_append.append_overlap hrest (by simp)
      · have hx : x ∈ ys := by
          simpa [hpre, heq] using hx
        refine ⟨x, x, ?_, .inl rfl⟩
        rw [hnew, heq]
        refine List.Sublist.trans ?_ (sublist_append_left _ _)
        exact (singleton_sublist.mpr hx).append (singleton_sublist.mpr (by simp : x ∈ x :: zs))
    · -- they meet at the first item of the new one
      rw [if_neg hnpre]
      rw [not_not.mp hnpre, nil_append] at hnew
      rw [append_cons] at hold
      subst hold
      exact mergeOverlap_spec hlists _ _ _ _ hwf rfl (m := []) hnew (sublist_append_right _ _)

/-! ## All lists -/

theorem mergePass_spec {lists} {ls : List (OrderedList α)} (hls : ∀ l ∈ ls, l.list ∈ lists)
    (hwf : c.Wf) : MergeStep lists c (mergePass c ls).composite ∧
    (mergePass c ls).lists.map OrderedList.list = ls.map OrderedList.list ∧
    ((∀ l ∈ ls, l.merged = true → l.list.Sublist c.list) →
      ∀ l ∈ (mergePass c ls).lists, l.merged = true →
        l.list.Sublist (mergePass c ls).composite.list) := by
  induction ls generalizing c with
  | nil => exact ⟨.refl hwf, rfl, by simp [mergePass]⟩
  | cons curr next ih =>
    obtain ⟨hcurr, hnext⟩ := forall_mem_cons.mp hls
    rw [mergePass]
    by_cases hmerged : curr.merged = false
    · obtain ⟨hstep, hsub⟩ := orderedListsMerge_spec hcurr hwf
      obtain ⟨hrun, hmap, hall⟩ := ih hnext hstep.wf
      dsimp only
      split_ifs with hok
      · refine ⟨hstep.trans hrun, by rw [map_cons, map_cons, hmap], fun hbefore => ?_⟩
        refine forall_mem_cons.mpr ⟨fun _ => (hsub hok).trans hrun.grows, hall fun l hl hl' => ?_⟩
        exact (hbefore l (mem_cons_of_mem _ hl) hl').trans hstep.grows
      · refine ⟨hstep.trans hrun, by rw [map_cons, map_cons, hmap], fun hbefore => ?_⟩
        refine forall_mem_cons.mpr ⟨fun h => ?_, hall fun l hl hl' => ?_⟩
        · rw [hmerged] at h
          cases h
        · exact (hbefore l (mem_cons_of_mem _ hl) hl').trans hstep.grows
    · rw [if_neg hmerged]
      obtain ⟨hrun, hmap, hall⟩ := ih hnext hwf
      refine ⟨hrun, by rw [map_cons, map_cons, hmap], fun hbefore => ?_⟩
      obtain ⟨hfirst, hbefore⟩ := forall_mem_cons.mp hbefore
      exact forall_mem_cons.mpr ⟨fun h => (hfirst h).trans hrun.grows, hall hbefore⟩

/-- When the passes end well, each list is a subsequence. -/
theorem mergeLoop_spec {lists} {c' : Composite α} {ls} (hls : ∀ l ∈ ls, l.list ∈ lists)
    (hwf : c.Wf) (hmerged : ∀ l ∈ ls, l.merged = true → l.list.Sublist c.list)
    (h : mergeLoop c ls = some c') : MergeStep lists c c' ∧ ∀ l ∈ ls, l.list.Sublist c'.list := by
  fun_induction mergeLoop c ls with
  | case1 c ls r hwaiting =>
    cases h
    obtain ⟨hstep, hmap, hall⟩ := mergePass_spec hls hwf
    refine ⟨hstep, fun l hl => ?_⟩
    have hmem : l.list ∈ r.lists.map OrderedList.list := hmap ▸ mem_map_of_mem hl
    obtain ⟨l', hl', heq⟩ := mem_map.mp hmem
    have hdone : unmerged r.lists = 0 := (mergePass_unmerged c ls).1.trans hwaiting
    have hl'merged : l'.merged = true := by simpa using countP_eq_zero.mp hdone l' hl'
    exact heq ▸ hall hmerged l' hl' hl'merged
  | case2 c ls r hwaiting hchanged ih =>
    obtain ⟨hstep, hmap, hall⟩ := mergePass_spec hls hwf
    have hlists : ∀ l ∈ r.lists, l.list ∈ lists := by
      intro l hl
      have hmem : l.list ∈ ls.map OrderedList.list := hmap ▸ mem_map_of_mem hl
      obtain ⟨l', hl', heq⟩ := mem_map.mp hmem
      exact heq ▸ hls l' hl'
    obtain ⟨hrun, hsub⟩ := ih hlists hstep.wf (hall hmerged) h
    refine ⟨hstep.trans hrun, fun l hl => ?_⟩
    have hmem : l.list ∈ r.lists.map OrderedList.list := hmap ▸ mem_map_of_mem hl
    obtain ⟨l', hl', heq⟩ := mem_map.mp hmem
    exact heq ▸ hsub l' hl'
  | case3 => cases h

/-- What the passes make of the ordered lists. -/
structure Merged (lists : List (List α)) (c : Composite α) : Prop where
  wf : c.Wf
  sublist : ∀ l ∈ lists, l.Sublist c.list
  mem : ∀ x, x ∈ c.list ↔ ∃ l ∈ lists, x ∈ l
  chain : c.list.IsChain (Directly lists)

theorem mergeLoop_merged {c}
    (h : mergeLoop {} (lists.map fun list => { list := list }) = some c) : Merged lists c := by
  have hlists : ∀ l ∈ lists.map fun list => ({ list := list } : OrderedList α), l.list ∈ lists := by
    simp
  obtain ⟨hstep, hsub⟩ := mergeLoop_spec hlists ⟨nodup_nil, by simp⟩ (by simp) h
  have hsublist : ∀ l ∈ lists, l.Sublist c.list := fun l hl => hsub _ (mem_map_of_mem hl)
  refine ⟨hstep.wf, hsublist, fun x => ⟨fun hx => ?_, ?_⟩, ?_⟩
  · exact (hstep.mem x hx).resolve_left (by simp)
  · rintro ⟨l, hl, hx⟩
    exact (hsublist l hl).subset hx
  · rcases hstep.chain (by simp) with hchain | ⟨l, hl, hconflict⟩
    · exact hchain
    · exact absurd (hsublist l hl) (hconflict.not_sublist hstep.wf.nodup)

omit [DecidableEq α] in
/-- There is no other order of the items that all lists agree with. -/
theorem Merged.unique {lists} (h : Merged lists c) (hl : l.Nodup)
    (hmem : ∀ x, x ∈ l ↔ ∃ l ∈ lists, x ∈ l) (hsub : ∀ l' ∈ lists, l'.Sublist l) : l = c.list := by
  symm
  refine Lib.eq_of_isChain_pair_sublist h.wf.nodup hl (fun x => (h.mem x).trans (hmem x).symm) ?_
  refine h.chain.imp fun x y hxy => ?_
  obtain ⟨l', hl', hdirect⟩ := hxy
  exact hdirect.sublist.trans (hsub l' hl')

/-! ## Items that are not ordered -/

/-- Items were added at the end. -/
structure Appended (items : List α) (c c' : Composite α) : Prop where
  wf : c'.Wf
  front : c.list <+: c'.list
  mem : ∀ x, x ∈ c'.list ↔ x ∈ c.list ∨ x ∈ items

theorem insertUnorderedItem_spec (h : c.Wf) (item : α) :
    ∃ c', insertUnorderedItem c item = some c' ∧ Appended [item] c c' := by
  rw [insertUnorderedItem]
  by_cases hmem : item ∈ c.list
  · rw [if_pos (by simpa using hmem)]
    refine ⟨c, rfl, h, prefix_rfl, fun x => ?_⟩
    rw [mem_singleton]
    exact ⟨.inl, fun hx => hx.elim id fun hx => hx ▸ hmem⟩
  · have hflag : ¬c.ordered item = true := fun htrue => hmem ((h.flags item).mp htrue)
    rw [if_neg (by simpa using hmem), orderedItemInsert, if_neg hflag]
    refine ⟨_, rfl, ⟨nodup_append.mpr ⟨h.nodup, nodup_singleton _, ?_⟩, fun x => ?_⟩,
      prefix_append .., fun x => mem_append⟩
    · intro x hx y hy hxy
      rw [hxy, mem_singleton.mp hy] at hx
      exact hmem hx
    · by_cases hx : x = item
      · simp [hx]
      · simp [hx, h.flags x]

omit [DecidableEq α] in
theorem foldlM_appended {β : Type} {step items}
    (hstep : ∀ c b, c.Wf → ∃ c', step c b = some c' ∧ Appended (items b) c c') (l : List β)
    (h : c.Wf) : ∃ c', l.foldlM step c = some c' ∧ Appended (l.flatMap items) c c' := by
  induction l generalizing c with
  | nil => exact ⟨c, rfl, h, prefix_rfl, by simp⟩
  | cons b l ih =>
    obtain ⟨c1, hc1, hb⟩ := hstep c b h
    obtain ⟨c2, hc2, hl⟩ := ih hb.wf
    refine ⟨c2, ?_, hl.wf, hb.front.trans hl.front, fun x => ?_⟩
    · rw [foldlM_cons, hc1]
      exact hc2
    · rw [hl.mem, hb.mem, flatMap_cons, mem_append, or_assoc]

theorem insertUnordered_spec (h : c.Wf) (unordered : List (List α)) :
    ∃ c', insertUnordered c unordered = some c' ∧ Appended unordered.flatten c c' := by
  have hlist (c : Composite α) (list : List α) (hc : c.Wf) :
      ∃ c', list.foldlM insertUnorderedItem c = some c' ∧ Appended (id list) c c' := by
    obtain ⟨c', hc', happended⟩ :=
      foldlM_appended (fun c item hc => insertUnorderedItem_spec hc item) list hc
    simpa [hc'] using happended
  obtain ⟨c', hc', happended⟩ := foldlM_appended hlist unordered h
  exact ⟨c', hc', by rwa [flatMap_id] at happended⟩

theorem orderedListsMergeAll_eq_some {orderedLists} {unorderedLists : Option (List (List α))}
    {composite} (h : orderedListsMergeAll orderedLists unorderedLists = some composite) :
    ∃ c c', Merged orderedLists c ∧ insertUnordered c (unorderedLists.getD []) = some c' ∧
      c'.list = composite := by
  rw [orderedListsMergeAll] at h
  cases hloop : mergeLoop {} (orderedLists.map fun list => { list := list }) with
  | none =>
    rw [hloop] at h
    cases h
  | some c =>
    rw [hloop] at h
    refine ⟨c, ?_⟩
    cases unorderedLists with
    | none =>
      cases h
      exact ⟨c, mergeLoop_merged hloop, rfl, rfl⟩
    | some unordered =>
      obtain ⟨c', hc', rfl⟩ := Option.map_eq_some_iff.mp h
      exact ⟨c', mergeLoop_merged hloop, hc', rfl⟩

/-- A composite list has no duplicates and each ordered list as a subsequence. It starts with the
items of the ordered lists, in the only order that these allow, in which each item is next to the
following one on some list. The other items of lists that are not ordered follow. -/
theorem orderedListsMergeAll_respects (orderedLists : List (List α))
    (unorderedLists : Option (List (List α)))
    (composite : List α) (h : orderedListsMergeAll orderedLists unorderedLists = some composite) :
    composite.Nodup ∧ (∀ l ∈ orderedLists, l.Sublist composite) ∧
    ∃ front back, composite = front ++ back ∧ (∀ x, x ∈ front ↔ ∃ l ∈ orderedLists, x ∈ l) ∧
      front.IsChain (Directly orderedLists) ∧
      (∀ order : List α, order.Nodup → (∀ x, x ∈ order ↔ ∃ l ∈ orderedLists, x ∈ l) →
        (∀ l ∈ orderedLists, l.Sublist order) → order = front) ∧
      ∀ x, x ∈ back ↔ (∃ l ∈ unorderedLists.getD [], x ∈ l) ∧ ¬∃ l ∈ orderedLists, x ∈ l := by
  obtain ⟨c, c', hmerged, hunordered, rfl⟩ := orderedListsMergeAll_eq_some h
  obtain ⟨c'', hc'', happended⟩ := insertUnordered_spec hmerged.wf (unorderedLists.getD [])
  rw [hunordered] at hc''
  cases hc''
  obtain ⟨back, hback⟩ := happended.front
  have hnodup := happended.wf.nodup
  refine ⟨hnodup, fun l hl => (hmerged.sublist l hl).trans happended.front.sublist, c.list, back,
    hback.symm,
    hmerged.mem, hmerged.chain, fun order hn hm hs => hmerged.unique hn hm hs, fun x => ?_⟩
  have hx := happended.mem x
  rw [← hback, mem_append, mem_flatten] at hx
  rw [← hback, nodup_append] at hnodup
  rw [← hmerged.mem]
  constructor
  · intro hxback
    have hnot : x ∉ c.list := fun hxc => hnodup.2.2 x hxc x hxback rfl
    exact ⟨(hx.mp (.inr hxback)).resolve_left hnot, hnot⟩
  · rintro ⟨hxun, hnot⟩
    exact (hx.mpr (.inr hxun)).resolve_left hnot

/-- Two lists that overlap, and an item without a place. -/
theorem orderedListsMergeAll_respects_overlap :
    orderedListsMergeAll [[1, 2], [0, 1]] (some [[3, 0]]) = some [0, 1, 2, 3] ∧
      [0, 1, 2, 3].Nodup := by
  have h : orderedListsMergeAll [[1, 2], [0, 1]] (some [[3, 0]]) = some [0, 1, 2, 3] := by
    decide +kernel
  exact ⟨h, (orderedListsMergeAll_respects _ _ _ h).1⟩

/-- Two permutations of the lists that can both be merged give the same composite list. -/
theorem orderedListsMergeAll_perm (orderedLists orderedLists' : List (List α))
    (hperm : orderedLists.Perm orderedLists')
    (unorderedLists : Option (List (List α))) (composite composite' : List α)
    (h : orderedListsMergeAll orderedLists unorderedLists = some composite)
    (h' : orderedListsMergeAll orderedLists' unorderedLists = some composite') :
      composite = composite' := by
  obtain ⟨c, d, hmerged, hunordered, rfl⟩ := orderedListsMergeAll_eq_some h
  obtain ⟨c', d', hmerged', hunordered', rfl⟩ := orderedListsMergeAll_eq_some h'
  have hlist : c'.list = c.list := by
    refine hmerged.unique hmerged'.wf.nodup (fun x => ?_) fun l hl =>
      hmerged'.sublist l (hperm.mem_iff.mp hl)
    simp only [hmerged'.mem, hperm.mem_iff]
  have hflags : c'.ordered = c.ordered := by
    funext x
    rw [Bool.eq_iff_iff, hmerged'.wf.flags, hmerged.wf.flags, hlist]
  obtain ⟨list', ordered'⟩ := c'
  obtain ⟨list, ordered⟩ := c
  subst hlist hflags
  exact congrArg _ (Option.some_inj.mp (hunordered.symm.trans hunordered'))

theorem orderedListsMergeAll_perm_swap :
    orderedListsMergeAll [[0, 1], [1, 2]] none = orderedListsMergeAll [[1, 2], [0, 1]] none := by
  have h : orderedListsMergeAll [[0, 1], [1, 2]] none = some [0, 1, 2] := by decide +kernel
  have h' : orderedListsMergeAll [[1, 2], [0, 1]] none = some [0, 1, 2] := by decide +kernel
  have heq := orderedListsMergeAll_perm _ _ (Perm.swap [1, 2] [0, 1] []) none _ _ h h'
  rw [h, h', heq]

/-- The list that puts 0 before 1 leaves no place for 2, which is to come between them, if it comes
first. -/
theorem orderedListsMergeAll_order_matters :
    [[0, 2], [2, 1], [0, 1]].Perm [[0, 1], [0, 2], [2, 1]] ∧
    orderedListsMergeAll [[0, 2], [2, 1], [0, 1]] none = some [0, 2, 1] ∧
    orderedListsMergeAll [[0, 1], [0, 2], [2, 1]] none = none := by
  decide +kernel

end SELinux.Cil
