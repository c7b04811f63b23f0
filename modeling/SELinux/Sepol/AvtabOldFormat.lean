import Mathlib.Data.List.Dedup
import SELinux.Lib.Loop
import SELinux.Sepol.AvtabRoundTrip

/-! A rule table that was written in the old format is read back. The writer makes one item of
the nodes with the same source, target and class that are all access vectors or all type rules,
at the first of them in a chain; the reader makes a node of each kind in the item again. -/
namespace SELinux.Sepol

open AvtabNode AvtabKey List Option

/-! ## Similar nodes -/

/-- The node is an access vector, and not a type rule. -/
def AvtabNode.isAv (n : AvtabNode) : Bool := n.key.spec &&& avtabAv != 0

/-- Nodes that go into the same item. -/
def AvtabNode.similar (a b : AvtabNode) : Bool := a.key.same b.key && a.isAv == b.isAv

variable {a b : AvtabNode}

theorem AvtabNode.similar_iff : a.similar b = true ↔ a.key.same b.key = true ∧ a.isAv = b.isAv := by
  simp [similar]

theorem AvtabNode.similar_refl (a : AvtabNode) : a.similar a = true := by
  simp [similar_iff, same_iff]

theorem AvtabNode.similar_symm (h : a.similar b = true) : b.similar a = true := by
  rw [similar_iff, same_iff] at *
  simp [h]

theorem AvtabNode.similar_trans {a b c : AvtabNode} (hab : a.similar b = true)
    (hbc : b.similar c = true) : a.similar c = true := by
  rw [similar_iff, same_iff] at *
  simp [hab, hbc]

/-- A chain that can be written: it is in order, its nodes are of the kinds of the old format, and
no two of them are for the same rule. -/
structure OldChain (l : List AvtabNode) : Prop where
  order : l.Pairwise fun a b => ¬b.key.before a.key = true
  kinds : ∀ n ∈ l, n.key.spec ∈ writeSpecOrder
  unique : l.Pairwise fun a b => ¬a.key.alike b.key = true

namespace OldChain

variable {cur : AvtabNode} {next : List AvtabNode}

section

variable (h : OldChain (cur :: next))
include h

theorem tail : OldChain next :=
  ⟨h.order.of_cons, fun n hn => h.kinds n (mem_cons_of_mem _ hn), h.unique.of_cons⟩

theorem stop (spec : BitVec 16) :
    next.Pairwise fun a b => cur.key.before a.key = true → cur.key.hits spec b = false := by
  refine h.tail.order.imp ?_
  intro a b hab hka
  have hkb := before_of_not_before hka hab
  simp [hits, not_same_of_before hkb]

theorem hits_lookup {n} (hn : n ∈ cur :: next) {lookup}
    (hlookup : lookup = if cur.isAv then avtabAv else avtabType) :
    cur.key.hits (lookup &&& ~~~avtabEnabled) n = cur.similar n := by
  have hall : writeSpecOrder.all (fun a => writeSpecOrder.all fun b =>
      ((if (a &&& avtabAv) != 0 then avtabAv else avtabType) &&& b != 0) ==
        ((a &&& avtabAv != 0) == (b &&& avtabAv != 0))) = true := by decide
  have hmask : lookup &&& ~~~avtabEnabled = lookup ∧ ~~~avtabEnabled &&& lookup = lookup := by
    rw [hlookup]
    cases cur.isAv <;> decide
  have hspec := beq_iff_eq.mp (all_eq_true.mp
    (all_eq_true.mp hall _ (h.kinds cur mem_cons_self)) _ (h.kinds n hn))
  rw [hits, similar, hmask.1, BitVec.and_comm, specified_and hmask.2, BitVec.and_comm,
    hlookup]
  exact congrArg _ hspec

theorem similar_eq {lookup} (hlookup : lookup = if cur.isAv then avtabAv else avtabType) :
    avtabSearchRest lookup next.length (avtabSearchNodeNext lookup (cur :: next)) =
      next.filter cur.similar := by
  have hscan :=
    avtabSearchRest_scan (k := { cur.key with specified := lookup }) (Nat.le_refl next.length)
  have hfilter := Lib.scanAll_eq_filter (h.stop (lookup &&& ~~~avtabEnabled))
  calc avtabSearchRest lookup next.length (avtabSearchNodeNext lookup (cur :: next))
      = Lib.scanAll (cur.key.hits (lookup &&& ~~~avtabEnabled))
        (fun n => cur.key.before n.key) next := hscan
    _ = next.filter (cur.key.hits (lookup &&& ~~~avtabEnabled)) := hfilter
    _ = next.filter cur.similar :=
      filter_congr fun n hn => h.hits_lookup (mem_cons_of_mem _ hn) hlookup

end

/-- The nodes of the item that is written at a node. -/
def group (cur : AvtabNode) (next : List AvtabNode) : List AvtabNode :=
  cur :: next.filter cur.similar

theorem mem_group {n} : n ∈ group cur next ↔ n ∈ cur :: next ∧ cur.similar n = true := by
  rw [group, mem_cons, mem_cons, mem_filter, or_and_right]
  refine or_congr_left (iff_self_and.mpr ?_)
  rintro rfl
  exact n.similar_refl

end OldChain

/-! ## Groups -/

/-- The nodes of an item. -/
structure OldGroup (g : List AvtabNode) : Prop where
  kinds : ∀ n ∈ g, n.key.spec ∈ writeSpecOrder
  similar : ∀ a ∈ g, ∀ b ∈ g, a.similar b = true
  unique : g.Pairwise fun a b => a.key.spec ≠ b.key.spec

theorem OldChain.oldGroup {cur next} (h : OldChain (cur :: next)) :
    OldGroup (OldChain.group cur next) := by
  have hsim : ∀ a ∈ OldChain.group cur next, ∀ b ∈ OldChain.group cur next, a.similar b = true :=
    fun a ha b hb =>
    similar_trans (similar_symm (OldChain.mem_group.mp ha).2) (OldChain.mem_group.mp hb).2
  refine ⟨fun n hn => h.kinds n (OldChain.mem_group.mp hn).1, hsim, ?_⟩
  have hsub : (OldChain.group cur next).Sublist (cur :: next) := filter_sublist.cons_cons cur
  refine (h.unique.sublist hsub).imp_of_mem ?_
  intro a b ha hb hab hspec
  exact hab (alike_iff.mpr ⟨(similar_iff.mp (hsim a ha b hb)).1, hspec⟩)

/-- The specifiers of nodes in one word. -/
def oldVal (g : List AvtabNode) : BitVec 32 :=
  g.foldl (fun val n => val ||| oldSpecified n.key.specified) 0

theorem oldVal_and {g x} :
    oldVal g &&& x ≠ 0 ↔ ∃ n ∈ g, oldSpecified n.key.specified &&& x ≠ 0 := by
  have hstep : ∀ n ∈ g, ∀ val : BitVec 32, (val ||| oldSpecified n.key.specified) &&& x ≠ 0 ↔
      val &&& x ≠ 0 ∨ oldSpecified n.key.specified &&& x ≠ 0 := by
    intro n _ val
    rw [BitVec.and_comm, BitVec.and_or_distrib_left, BitVec.and_comm x, BitVec.and_comm x]
    exact (not_congr BitVec.or_eq_zero_iff).trans not_and_or
  rw [oldVal, Lib.foldl_iff_exists (P := fun val => val &&& x ≠ 0) hstep]
  simp

variable {k : AvtabKey}

/-- A test of specifiers that does not see the enabled flag. -/
theorem oldSpecified_and (hk : k.spec ∈ writeSpecOrder) {x} (test : BitVec 16 → Bool)
    (htest : writeSpecOrder.all (fun spec => [0, avtabEnabledOld].all fun e =>
      ((spec.setWidth 32 ||| e) &&& x != 0) == test spec) = true) :
    oldSpecified k.specified &&& x ≠ 0 ↔ test k.spec = true := by
  have hall := all_eq_true.mp (all_eq_true.mp htest _ hk)
  have hflag : ∃ e ∈ [0, avtabEnabledOld], oldSpecified k.specified = k.spec.setWidth 32 ||| e := by
    rw [oldSpecified]
    split_ifs
    · exact ⟨_, by simp, rfl⟩
    · exact ⟨_, by simp, rfl⟩
  obtain ⟨e, he, hk⟩ := hflag
  rw [hk, ← bne_iff_ne, beq_iff_eq.mp (hall e he)]

namespace OldGroup

variable {g : List AvtabNode} (h : OldGroup g)
include h

theorem val_spec {spec : BitVec 16} (hspec : spec ∈ specOrder) :
    oldVal g &&& spec.setWidth 32 ≠ 0 ↔ ∃ n ∈ g, n.key.spec = spec := by
  have hall : specOrder.all (fun b => writeSpecOrder.all fun a => [0, avtabEnabledOld].all fun e =>
      ((a.setWidth 32 ||| e) &&& b.setWidth 32 != 0) == (a == b)) = true := by decide
  rw [oldVal_and]
  refine exists_congr fun n => and_congr_right fun hn => ?_
  rw [oldSpecified_and (h.kinds n hn) (· == spec) (all_eq_true.mp hall spec hspec), beq_iff_eq]

theorem val_test {cur : AvtabNode} (hcur : cur ∈ g) {x} (av : Bool)
    (htest : writeSpecOrder.all (fun spec => [0, avtabEnabledOld].all fun e =>
      ((spec.setWidth 32 ||| e) &&& x != 0) == ((spec &&& avtabAv != 0) == av)) = true) :
    oldVal g &&& x ≠ 0 ↔ cur.isAv = av := by
  have hall : ∀ n ∈ g, oldSpecified n.key.specified &&& x ≠ 0 ↔ cur.isAv = av := by
    intro n hn
    rw [oldSpecified_and (h.kinds n hn) _ htest, (similar_iff.mp (h.similar cur hcur n hn)).2,
      isAv, beq_iff_eq]
  rw [oldVal_and]
  exact ⟨fun ⟨n, hn, hx⟩ => (hall n hn).mp hx, fun hx => ⟨cur, hcur, (hall cur hcur).mpr hx⟩⟩

theorem val_av {cur : AvtabNode} (hcur : cur ∈ g) :
    oldVal g &&& avtabAv.setWidth 32 ≠ 0 ↔ cur.isAv = true := h.val_test hcur true (by decide)

theorem val_type {cur : AvtabNode} (hcur : cur ∈ g) :
    oldVal g &&& avtabType.setWidth 32 ≠ 0 ↔ cur.isAv = false := h.val_test hcur false (by decide)

/-- A group is of access vectors or of type rules, and not of both. -/
theorem val_one (hne : g ≠ []) :
    ¬(oldVal g &&& avtabAv.setWidth 32 = 0 ∧ oldVal g &&& avtabType.setWidth 32 = 0) ∧
      ¬(oldVal g &&& avtabAv.setWidth 32 ≠ 0 ∧ oldVal g &&& avtabType.setWidth 32 ≠ 0) := by
  obtain ⟨cur, hcur⟩ := exists_mem_of_ne_nil g hne
  rw [← not_ne_iff, ← not_ne_iff (b := (0 : BitVec 32)), h.val_av hcur, h.val_type hcur]
  simp

/-- The nodes of a group in the order of a list of kinds. -/
def inOrder (g : List AvtabNode) (specs : List (BitVec 16)) : List AvtabNode :=
  specs.flatMap fun spec => g.filter fun n => n.key.spec = spec

theorem inOrder_perm : (inOrder g writeSpecOrder).Perm g := by
  have hperm :
      (inOrder g writeSpecOrder).Perm (g.filter fun n => decide (n.key.spec ∈ writeSpecOrder)) :=
    Lib.flatMap_filter_perm (by decide) g
  rwa [filter_eq_self.mpr fun n hn => decide_eq_true (h.kinds n hn)] at hperm

theorem filter_spec {n : AvtabNode} (hn : n ∈ g) :
    (g.filter fun m => m.key.spec = n.key.spec) = [n] := by
  refine Lib.filter_eq_singleton (h.unique.imp ?_) hn (by simp)
  intro a b hab hboth
  exact hab ((of_decide_eq_true hboth.1).trans (of_decide_eq_true hboth.2).symm)

omit h in
theorem filter_spec_eq_nil {spec} (h : ¬∃ n ∈ g, n.key.spec = spec) :
    (g.filter fun m => m.key.spec = spec) = [] :=
  filter_eq_nil_iff.mpr fun n hn hspec => h ⟨n, hn, of_decide_eq_true hspec⟩

theorem length_le : g.length ≤ 3 := by
  cases g with
  | nil => exact Nat.zero_le 3
  | cons cur rest =>
    have hlen : ∀ av, (writeSpecOrder.filter fun spec =>
        (spec &&& avtabAv != 0) == av).length = 3 := by decide
    have hnodup : ((cur :: rest).map fun n => n.key.spec).Nodup := pairwise_map.mpr h.unique
    have hsub : ((cur :: rest).map fun n => n.key.spec) ⊆
        writeSpecOrder.filter fun spec => (spec &&& avtabAv != 0) == cur.isAv := by
      intro spec hspec
      obtain ⟨n, hn, rfl⟩ := mem_map.mp hspec
      refine mem_filter.mpr ⟨h.kinds n hn, beq_iff_eq.mpr ?_⟩
      exact (similar_iff.mp (h.similar n hn cur mem_cons_self)).2
    have := (subperm_of_subset hnodup hsub).length_le
    rw [hlen, length_map] at this
    exact this

end OldGroup

/-! ## Items -/

/-- The words of the item of a group, behind their number. -/
def oldItem : List AvtabNode → List (BitVec 32)
  | [] => []
  | cur :: similar =>
    .ofNat 32 cur.key.sourceType :: .ofNat 32 cur.key.targetType :: .ofNat 32 cur.key.targetClass ::
      oldVal (cur :: similar) :: (OldGroup.inOrder (cur :: similar) writeSpecOrder).map fun n =>
        n.datum.data

theorem AvtabKey.specified_and_ne_zero (hk : k.spec ∈ writeSpecOrder) {spec}
    (hspec : spec ∈ writeSpecOrder) : k.specified &&& spec ≠ 0 ↔ k.spec = spec := by
  have hall : writeSpecOrder.all (fun b => ~~~avtabEnabled &&& b == b &&
      writeSpecOrder.all fun a => (a &&& b != 0) == (a == b)) = true := by decide
  have hb := all_eq_true.mp hall spec hspec
  simp only [Bool.and_eq_true, beq_iff_eq] at hb
  rw [specified_and hb.1, ← bne_iff_ne, beq_iff_eq.mp (all_eq_true.mp hb.2 _ hk), beq_iff_eq]

namespace OldChain

variable {cur : AvtabNode} {next : List AvtabNode}

/-- There is one place in a chain for a rule. -/
theorem suffix_eq {l} (h : OldChain l) {r r'} (ha : a :: r <:+ l)
    (hb : b :: r' <:+ l) (hal : a.key.alike b.key = true) : a :: r = b :: r' := by
  have hlater : ∀ {x y : AvtabNode} {u v : List AvtabNode}, y :: v <:+ l → x :: u <:+ v →
      x.key.alike y.key = true → False := by
    intro x y u v hy hx hxy
    have hpair := pairwise_cons.mp (h.unique.sublist hy.sublist)
    exact hpair.1 x (hx.subset mem_cons_self) (alike_symm hxy)
  rcases suffix_or_suffix_of_suffix ha hb with hab | hba
  · rcases suffix_cons_iff.mp hab with heq | hsuf
    · exact heq
    · exact absurd hal fun hal => hlater hb hsuf hal
  · rcases suffix_cons_iff.mp hba with heq | hsuf
    · exact heq.symm
    · exact absurd hal fun hal => hlater ha hsuf (alike_symm hal)

section

variable (h : OldChain (cur :: next))
include h

/-- A search for another kind of the group finds its node. -/
theorem search_spec {n : AvtabNode} (hn : n ∈ next) (hsim : cur.similar n = true) :
    ∃ rest, avtabSearchNodeNext n.key.spec (cur :: next) = n :: rest := by
  have hspec := h.kinds n (mem_cons_of_mem _ hn)
  have hmask : n.key.spec &&& ~~~avtabEnabled = n.key.spec := by
    rw [spec, BitVec.and_assoc, BitVec.and_self]
  have hits : ∀ m ∈ next, cur.key.hits (n.key.spec &&& ~~~avtabEnabled) m = true ↔
      cur.key.same m.key = true ∧ m.key.spec = n.key.spec := by
    intro m hm
    rw [hmask, hits_iff, BitVec.and_comm,
      specified_and_ne_zero (h.kinds m (mem_cons_of_mem _ hm)) hspec]
  have hfilter : next.filter (cur.key.hits (n.key.spec &&& ~~~avtabEnabled)) = [n] := by
    refine Lib.filter_eq_singleton (h.tail.unique.imp_of_mem ?_) hn
      ((hits n hn).mpr ⟨(similar_iff.mp hsim).1, rfl⟩)
    intro a b ha hb hab hboth
    obtain ⟨hsa, hka⟩ := (hits a ha).mp hboth.1
    obtain ⟨hsb, hkb⟩ := (hits b hb).mp hboth.2
    rw [same_iff] at hsa hsb
    refine hab (alike_iff.mpr ⟨same_iff.mpr ?_, hka.trans hkb.symm⟩)
    omega
  have hhead := Lib.scan_head?_eq (h.stop (n.key.spec &&& ~~~avtabEnabled))
  rw [hfilter, head?_cons] at hhead
  obtain ⟨rest, hrest⟩ := head?_eq_some_iff.mp hhead
  exact ⟨rest, hrest⟩

theorem find_spec {n : AvtabNode} (hn : n ∈ group cur next) :
    ∃ rest, (if cur.key.specified &&& n.key.spec ≠ 0 then cur :: next
        else avtabSearchNodeNext n.key.spec (cur :: next)) = n :: rest ∧
          n :: rest <:+ cur :: next := by
  have hown := specified_and_ne_zero (h.kinds cur mem_cons_self) (h.oldGroup.kinds n hn)
  by_cases hcur : cur.key.spec = n.key.spec
  · have hfirst := h.oldGroup.filter_spec (mem_cons_self : cur ∈ group cur next)
    rw [hcur, h.oldGroup.filter_spec hn, cons.injEq] at hfirst
    rw [if_pos (hown.mpr hcur), hfirst.1]
    exact ⟨next, rfl, suffix_rfl⟩
  · obtain ⟨hmem, hsim⟩ := mem_group.mp hn
    have hnext : n ∈ next := (mem_cons.mp hmem).resolve_left fun hc => hcur (by rw [hc])
    obtain ⟨rest, hrest⟩ := h.search_spec hnext hsim
    rw [if_neg fun hc => hcur (hown.mp hc)]
    refine ⟨rest, hrest, ?_⟩
    rw [← hrest]
    exact (Lib.scan_suffix ..).trans (suffix_cons cur next)

/-- The loop over the kinds collects the nodes of the group in their order, marks their places,
and counts those behind the first. -/
theorem oldData_spec {specs : List (BitVec 16)} (hspecs : specs ⊆ writeSpecOrder)
    (hnodup : specs.Nodup) : ∃ r, oldData cur next (oldVal (group cur next)) specs = some r ∧
      r.data = ((OldGroup.inOrder (group cur next) specs).map fun n => n.datum.data) ∧
      r.fewer + (if cur.key.spec ∈ specs then 1 else 0) = r.data.length ∧
      ∀ n rest, n :: rest <:+ cur :: next →
        ((n :: rest).length ∈ r.merged ↔ cur.similar n = true ∧ n.key.spec ∈ specs) := by
  have hg := h.oldGroup
  induction specs with
  | nil => exact ⟨{}, rfl, rfl, rfl, by simp⟩
  | cons spec specs ih =>
    obtain ⟨hspec, hspecs⟩ := cons_subset.mp hspecs
    obtain ⟨hnew, hnodup⟩ := nodup_cons.mp hnodup
    obtain ⟨r, hr, hdata, hfewer, hmerged⟩ := ih hspecs hnodup
    have hsub : spec ∈ specOrder := by
      have : writeSpecOrder ⊆ specOrder := by decide
      exact this hspec
    rw [oldData]
    by_cases hval : oldVal (group cur next) &&& spec.setWidth 32 ≠ 0
    · obtain ⟨n, hn, rfl⟩ := (hg.val_spec hsub).mp hval
      obtain ⟨rest, hfind, hplace⟩ := h.find_spec hn
      have hown := specified_and_ne_zero (h.kinds cur mem_cons_self) hspec
      rw [if_pos hval]
      simp only [hfind, hr]
      refine ⟨_, rfl, ?_, ?_, fun m rest' hsuf => ?_⟩
      · rw [OldGroup.inOrder, flatMap_cons, hg.filter_spec hn]
        exact congrArg _ hdata
      · simp only [hown, mem_cons, length_cons]
        by_cases hcur : cur.key.spec = n.key.spec
        · rw [if_neg (hcur ▸ hnew)] at hfewer
          simp [hcur, ← hfewer]
        · simp only [hcur, if_false, false_or] at hfewer ⊢
          omega
      · rw [mem_cons, hmerged m rest' hsuf, mem_cons, and_or_left]
        refine or_congr_left ⟨fun hlen => ?_, fun ⟨hsim, hkind⟩ => ?_⟩
        · have hsame :=
            (suffix_of_suffix_length_le hsuf hplace (Nat.le_of_eq hlen)).eq_of_length hlen
          obtain ⟨rfl, -⟩ := cons.inj hsame
          exact ⟨(mem_group.mp hn).2, rfl⟩
        · have hmg : m ∈ group cur next := mem_group.mpr ⟨hsuf.subset mem_cons_self, hsim⟩
          have hal : m.key.alike n.key = true :=
            alike_iff.mpr ⟨(similar_iff.mp (hg.similar m hmg n hn)).1, hkind⟩
          rw [h.suffix_eq hsuf hplace hal]
    · have hnone := fun hex => hval ((hg.val_spec hsub).mpr hex)
      rw [if_neg hval]
      refine ⟨r, hr, ?_, ?_, fun n rest hsuf => ?_⟩
      · rw [OldGroup.inOrder, flatMap_cons, OldGroup.filter_spec_eq_nil hnone]
        exact hdata
      · have hcur : cur.key.spec ≠ spec := fun hc => hnone ⟨cur, mem_cons_self, hc⟩
        simpa [hcur] using hfewer
      · rw [hmerged n rest hsuf, mem_cons]
        refine and_congr_right fun hsim => ⟨.inr, fun hor => hor.resolve_left fun hc => ?_⟩
        exact hnone ⟨n, mem_group.mpr ⟨hsuf.subset mem_cons_self, hsim⟩, hc⟩

/-- At the first node of a group its item is written. -/
theorem writeItem : ∃ r, avtabWriteOldItem cur next = some (oldItem (group cur next), r) ∧
      r.fewer + 1 = (group cur next).length ∧ ∀ n rest, n :: rest <:+ cur :: next →
        ((n :: rest).length ∈ r.merged ↔ cur.similar n = true) := by
  have hg := h.oldGroup
  have hcur : cur ∈ group cur next := mem_cons_self
  have hone : OldGroup [cur] :=
    ⟨fun n hn => by rw [mem_singleton.mp hn]; exact hg.kinds cur hcur,
      fun a ha b hb => by rw [mem_singleton.mp ha, mem_singleton.mp hb]; exact cur.similar_refl,
      pairwise_singleton ..⟩
  have hown : oldVal [cur] = oldSpecified cur.key.specified := by simp [oldVal]
  have hav := hown ▸ hone.val_av mem_cons_self
  obtain ⟨r, hr, hdata, hfewer, hmerged⟩ :=
    h.oldData_spec (List.Subset.refl writeSpecOrder) (by decide)
  have hlen : r.data.length = (group cur next).length := by
    rw [hdata, length_map, hg.inOrder_perm.length_eq]
  rw [if_pos (h.kinds cur mem_cons_self), hlen] at hfewer
  refine ⟨r, ?_, hfewer, fun n rest hsuf => ?_⟩
  · have hlookup :
      (if oldSpecified cur.key.specified &&& avtabAv.setWidth 32 ≠ 0 then avtabAv else avtabType) =
        if cur.isAv then avtabAv else avtabType := by simp only [hav]
    have hnull : ¬(¬oldSpecified cur.key.specified &&& avtabAv.setWidth 32 ≠ 0 ∧
        oldSpecified cur.key.specified &&& avtabType.setWidth 32 = 0) := by
      rw [not_ne_iff, ← hown]
      exact (hone.val_one (cons_ne_nil _ _)).1
    have hval : (next.filter cur.similar).foldl
        (fun val node => val ||| oldSpecified node.key.specified)
        (oldSpecified cur.key.specified) = oldVal (group cur next) := by
      simp [oldVal, group]
    have hboth := (hg.val_one (cons_ne_nil _ _)).2
    have hset : (1 + (next.filter cur.similar).length) % 2 ^ 32 = r.data.length := by
      have hle := hg.length_le
      rw [hlen]
      simp only [group, length_cons] at hle ⊢
      omega
    rw [avtabWriteOldItem]
    simp only [hlookup, h.similar_eq rfl, if_neg hnull, hval, if_neg hboth, hr, hset]
    simp only [bind_eq_bind, bind_some, ne_eq, not_true_eq_false, if_false, hdata]
    rfl
  · rw [hmerged n rest hsuf, and_iff_left (h.kinds n (hsuf.subset mem_cons_self))]

end

/-- The nodes that are in no group of nodes before, split by the group of the first of them. -/
theorem filter_similar_perm {before : List AvtabNode} (hcur : before.any (·.similar cur) = false) :
    (group cur next ++ next.filter fun n => !(cur :: before).any (·.similar n)).Perm
      ((cur :: next).filter fun n => !before.any (·.similar n)) := by
  have hsplit := filter_append_perm cur.similar (next.filter fun n => !before.any (·.similar n))
  rw [List.filter_filter, List.filter_filter] at hsplit
  have hfirst : (next.filter fun n => cur.similar n && !before.any (·.similar n)) =
      next.filter cur.similar := by
    refine filter_congr fun n _ => ?_
    cases hn : cur.similar n with
    | false => rfl
    | true =>
      rw [Bool.true_and, Bool.not_eq_true', List.any_eq_false]
      intro m hm hmn
      exact List.any_eq_false.mp hcur m hm (similar_trans hmn (similar_symm hn))
  have hrest : (next.filter fun n => !cur.similar n && !before.any (·.similar n)) =
      next.filter fun n => !(cur :: before).any (·.similar n) := by
    simp
  rw [hfirst, hrest] at hsplit
  rw [filter_cons_of_pos (by simpa using hcur)]
  exact hsplit.cons cur

/-- One pass over a chain writes the items of its groups, apart from those that a node before the
chain belongs to, whose places are marked. -/
theorem writeChain {l : List AvtabNode} (h : OldChain l) (merged : List Nat)
    (before : List AvtabNode) (hmerged : ∀ n rest, n :: rest <:+ l →
      ((n :: rest).length ∈ merged ↔ before.any (·.similar n) = true)) :
    ∃ (groups : List (List AvtabNode)) (fewer : Nat),
      avtabWriteOldChain l merged = some (groups.map oldItem, fewer) ∧
      (∀ g ∈ groups, OldGroup g ∧ g ≠ []) ∧ groups.length + fewer = groups.flatten.length ∧
      groups.flatten.Perm (l.filter fun n => !before.any (·.similar n)) := by
  induction l generalizing merged before with
  | nil => exact ⟨[], 0, rfl, by simp, rfl, .refl _⟩
  | cons cur next ih =>
    have hnext : ∀ {n : AvtabNode} {rest : List AvtabNode}, n :: rest <:+ next →
        n :: rest <:+ cur :: next :=
      fun hsuf => hsuf.trans (suffix_cons cur next)
    have hcur := hmerged cur next suffix_rfl
    rw [avtabWriteOldChain]
    by_cases hdone : (cur :: next).length ∈ merged
    · rw [if_pos hdone, filter_cons_of_neg (by rw [hcur.mp hdone]; simp)]
      exact ih h.tail merged before fun n rest hsuf => hmerged n rest (hnext hsuf)
    · obtain ⟨r, hitem, hfewer, hmarks⟩ := h.writeItem
      have hmerged' : ∀ n rest, n :: rest <:+ next →
          ((n :: rest).length ∈ r.merged ++ merged ↔ (cur :: before).any (·.similar n) = true) := by
        intro n rest hsuf
        rw [mem_append, hmarks n rest (hnext hsuf), hmerged n rest (hnext hsuf), any_cons,
          Bool.or_eq_true]
      obtain ⟨groups, fewer, hchain, hgroups, hcount, hperm⟩ := ih h.tail _ _ hmerged'
      refine ⟨group cur next :: groups, r.fewer + fewer, ?_, ?_, ?_, ?_⟩
      · rw [if_neg hdone, hitem]
        simp only [bind_eq_bind, bind_some, hchain, map_cons]
      · exact forall_mem_cons.mpr ⟨⟨h.oldGroup, cons_ne_nil _ _⟩, hgroups⟩
      · rw [length_cons, flatten_cons, length_append]
        omega
      · refine (hperm.append_left _).trans (filter_similar_perm ?_)
        exact Bool.eq_false_iff.mpr fun hany => hdone (hcur.mpr hany)

end OldChain

theorem avtabWriteOldPass_eq {a : Avtab} (h : ∀ chain ∈ a.htable, OldChain chain) :
    ∃ (groups : List (List AvtabNode)) (fewer : Nat),
      avtabWriteOldPass a = some (groups.map oldItem, fewer) ∧ (∀ g ∈ groups, OldGroup g ∧ g ≠ []) ∧
      groups.length + fewer = a.nodes.length ∧ groups.flatten.Perm a.nodes := by
  have hpass : ∀ chains : List (List AvtabNode), (∀ chain ∈ chains, OldChain chain) →
      ∃ (results : List (List (List (BitVec 32)) × Nat)) (groups : List (List AvtabNode)),
        (chains.mapM fun chain => avtabWriteOldChain chain []) = some results ∧
        (results.map Prod.fst).flatten = groups.map oldItem ∧ (∀ g ∈ groups, OldGroup g ∧ g ≠ []) ∧
        groups.length + (results.map Prod.snd).sum = chains.flatten.length ∧
        groups.flatten.Perm chains.flatten := by
    intro chains
    induction chains with
    | nil => simp
    | cons chain chains ih =>
      intro h
      obtain ⟨hchain, hchains⟩ := forall_mem_cons.mp h
      obtain ⟨results, groups, hresults, hitems, hgroups, hcount, hperm⟩ := ih hchains
      obtain ⟨groups1, fewer, hwrite, hgroups1, hcount1, hperm1⟩ :=
        hchain.writeChain [] [] (by simp)
      have hall : (chain.filter fun n => !([] : List AvtabNode).any (·.similar n)) = chain :=
        filter_eq_self.mpr fun _ _ => rfl
      rw [hall] at hperm1
      refine ⟨(groups1.map oldItem, fewer) :: results, groups1 ++ groups, ?_, ?_, ?_, ?_, ?_⟩
      · simp [hwrite, hresults]
      · simp [hitems]
      · exact forall_mem_append.mpr ⟨hgroups1, hgroups⟩
      · rw [length_append, map_cons, sum_cons, flatten_cons, length_append,
          ← hperm1.length_eq]
        omega
      · rw [flatten_append, flatten_cons]
        exact hperm1.append hperm
  obtain ⟨results, groups, hresults, hitems, hgroups, hcount, hperm⟩ := hpass a.htable h
  refine ⟨groups, (results.map Prod.snd).sum, ?_, hgroups, hcount, hperm⟩
  rw [avtabWriteOldPass, hresults, ← hitems]
  rfl

/-! ## Reading an item -/

/-- The entries that the reader makes of the item of a group. -/
def oldEntries (g : List AvtabNode) : List (AvtabKey × AvtabDatum) :=
  (OldGroup.inOrder g writeSpecOrder).map fun n =>
    ({ n.key with
        specified := n.key.spec ||| if oldVal g &&& avtabEnabledOld ≠ 0 then avtabEnabled else 0 },
      { data := n.datum.data })

section ReadItem

variable {σ : Type} (insertf : σ → AvtabKey → AvtabDatum → Option σ) {g : List AvtabNode}

/-- The loop over `spec_order` of the reader takes the words that the loop of the writer has put
there. -/
theorem insertSpecs_inOrder (hg : OldGroup g) (key : AvtabKey) (enabled : BitVec 16) {specs}
    (hspecs : specs ⊆ specOrder) (s : σ) : insertSpecs insertf key enabled (oldVal g) specs
      ((OldGroup.inOrder g specs).map fun n => n.datum.data) s =
      ((OldGroup.inOrder g specs).foldlM (fun s n =>
        insertf s { key with specified := n.key.spec ||| enabled } { data := n.datum.data }) s).map
          ([], ·) := by
  induction specs generalizing s with
  | nil => rfl
  | cons spec specs ih =>
    obtain ⟨hspec, hrest⟩ := cons_subset.mp hspecs
    unfold insertSpecs
    rw [OldGroup.inOrder, flatMap_cons]
    by_cases hval : oldVal g &&& spec.setWidth 32 ≠ 0
    · obtain ⟨n, hn, rfl⟩ := (hg.val_spec hspec).mp hval
      rw [if_pos hval, hg.filter_spec hn, singleton_append, map_cons, foldlM_cons]
      simp only [bind_eq_bind]
      cases insertf s { key with specified := n.key.spec ||| enabled } { data := n.datum.data } with
      | none => rfl
      | some s' => exact ih hrest s'
    · rw [if_neg hval, OldGroup.filter_spec_eq_nil fun hex => hval ((hg.val_spec hspec).mpr hex)]
      exact ih hrest s

theorem OldGroup.inOrder_specOrder (hg : OldGroup g) :
    inOrder g specOrder = inOrder g writeSpecOrder := by
  have hsplit :
      specOrder = writeSpecOrder ++
        [avtabXpermsAllowed, avtabXpermsAuditallow, avtabXpermsDontaudit] := rfl
  have hnone : inOrder g [avtabXpermsAllowed, avtabXpermsAuditallow, avtabXpermsDontaudit] =
      [] := by
    refine flatMap_eq_nil_iff.mpr fun spec hspec => filter_spec_eq_nil ?_
    rintro ⟨n, hn, rfl⟩
    have hall : [avtabXpermsAllowed, avtabXpermsAuditallow, avtabXpermsDontaudit].all
        (· ∉ writeSpecOrder) = true := by
      decide
    exact of_decide_eq_true (all_eq_true.mp hall _ hspec) (hg.kinds n hn)
  rw [hsplit, inOrder, flatMap_append]
  exact (congrArg _ hnone).trans (append_nil _)

theorem truncate16_ofNat {n : Nat} (h : n < 2 ^ 16) : truncate16 (.ofNat 32 n) = some n := by
  have : (BitVec.ofNat 32 n).toNat = n := by
    rw [BitVec.toNat_ofNat]
    omega
  rw [truncate16, this, if_pos h]

/-- The entries of a group, with the key of its first node. -/
theorem oldEntries_cons {cur similar} (hg : OldGroup (cur :: similar)) :
    oldEntries (cur :: similar) = (OldGroup.inOrder (cur :: similar) writeSpecOrder).map fun n =>
      ({ sourceType := cur.key.sourceType, targetType := cur.key.targetType, targetClass :=
        cur.key.targetClass,
         specified := n.key.spec |||
           if oldVal (cur :: similar) &&& avtabEnabledOld ≠ 0 then avtabEnabled else 0 },
             { data := n.datum.data }) := by
  refine map_congr_left fun n hn => ?_
  have hsim := hg.similar cur mem_cons_self n (hg.inOrder_perm.subset hn)
  obtain ⟨hsrc, htgt, hcls⟩ := same_iff.mp (similar_iff.mp hsim).1
  rw [hsrc, htgt, hcls]

theorem avtabReadOldItem_putOldItem (hg : OldGroup g) (hne : g ≠ []) (hfits : ∀ n ∈ g, n.key.Fits)
    (fp : PolicyFile) (s : σ) : avtabReadOldItem insertf (putOldItem (oldItem g) ++ fp) s =
      ((oldEntries g).foldlM (fun s e => insertf s e.1 e.2) s).map (fp, ·) := by
  obtain ⟨cur, similar, rfl⟩ := exists_cons_of_ne_nil hne
  have hcur : cur ∈ cur :: similar := mem_cons_self
  have hfit := hfits cur hcur
  have hdata := hg.inOrder_perm.length_eq
  have hitem : (oldItem (cur :: similar)).length = 4 + (cur :: similar).length := by
    simp only [oldItem, length_cons, length_map, hdata]
    omega
  have hle := hg.length_le
  have hlen : (BitVec.ofNat 32 (oldItem (cur :: similar)).length).toNat =
      (oldItem (cur :: similar)).length := by
    rw [BitVec.toNat_ofNat]
    omega
  have hsize :
      ¬((oldItem (cur :: similar)).length < 5 ∨ 8 < (oldItem (cur :: similar)).length) := by
    simp only [length_cons] at hitem hle
    omega
  have hput : putOldItem (oldItem (cur :: similar)) ++ fp =
      putLe32 (.ofNat 32 (oldItem (cur :: similar)).length) ++
        (putLe32s (oldItem (cur :: similar)) ++ fp) := by
    simp [putOldItem, putLe32s]
  obtain ⟨hnull, hboth⟩ := hg.val_one hne
  rw [avtabReadOldItem, hput, nextLe32_putLe32]
  simp only [bind_eq_bind, bind_some, hlen, if_neg hsize, nextLe32s_putLe32s]
  simp only [oldItem, truncate16_ofNat hfit.sourceType, truncate16_ofNat hfit.targetType,
    truncate16_ofNat hfit.targetClass, bind_some, if_neg hnull, if_neg hboth]
  rw [← hg.inOrder_specOrder, insertSpecs_inOrder insertf hg _ _ (List.Subset.refl _),
    hg.inOrder_specOrder,
    oldEntries_cons hg, foldlM_map, bind_map, map_eq_bind]
  rfl

end ReadItem

/-! ## Rules -/

/-- A key without the enabled flag. -/
def AvtabKey.plain (k : AvtabKey) : AvtabKey := { k with specified := k.spec }

theorem AvtabKey.alike_iff_plain {k c : AvtabKey} : k.alike c = true ↔ k.plain = c.plain := by
  rw [alike_iff, same_iff, plain, plain, mk.injEq, and_assoc, and_assoc]

/-- A node as a rule: its key without the enabled flag, and its data. -/
def AvtabNode.rule (n : AvtabNode) : AvtabKey × BitVec 32 := (n.key.plain, n.datum.data)

theorem oldEntries_rules {g : List AvtabNode} (hg : OldGroup g) :
    ((oldEntries g).map fun e => (e.1.plain, e.2.data)).Perm (g.map rule) := by
  have hall : writeSpecOrder.all (fun spec => [avtabEnabled, 0].all fun e =>
      (spec ||| e) &&& ~~~avtabEnabled == spec) = true := by decide
  rw [oldEntries, List.map_map]
  refine (List.Perm.of_eq (map_congr_left fun n hn => ?_)).trans (hg.inOrder_perm.map _)
  have hflag :=
    List.all_eq_true.mp (List.all_eq_true.mp hall _ (hg.kinds n (hg.inOrder_perm.subset hn)))
  simp only [Function.comp, plain, rule, spec] at hflag ⊢
  split_ifs
  · rw [beq_iff_eq.mp (hflag avtabEnabled (by simp))]
  · rw [beq_iff_eq.mp (hflag 0 (by simp))]

namespace Avtab.IsMap

variable {t t' : Avtab}

theorem search_data_iff (h : t.IsMap) (hk : k.OneKind) {data} :
    (avtabSearch t k).map AvtabDatum.data = some data ↔ (k.plain, data) ∈ t.nodes.map rule := by
  rw [map_eq_some_iff, List.mem_map]
  constructor
  · rintro ⟨d, hd, rfl⟩
    obtain ⟨n, hn, hal, rfl⟩ := (h.search_iff hk).mp hd
    exact ⟨n, hn, by rw [rule, alike_iff_plain.mp hal]⟩
  · rintro ⟨n, hn, hrule⟩
    obtain ⟨hplain, hdata⟩ := Prod.mk.inj hrule
    exact ⟨n.datum, (h.search_iff hk).mpr ⟨n, hn, alike_iff_plain.mpr hplain.symm, rfl⟩, hdata⟩

/-- Tables of the same rules answer alike. -/
theorem search_data_eq (h : t.IsMap) (h' : t'.IsMap) (hk : k.OneKind)
    (hrules : (t'.nodes.map rule).Perm (t.nodes.map rule)) :
    (avtabSearch t' k).map AvtabDatum.data = (avtabSearch t k).map AvtabDatum.data := by
  apply Option.ext
  intro data
  rw [h.search_data_iff hk, h'.search_data_iff hk, hrules.mem_iff]

theorem nodup_plain (h : t.IsMap) : (t.nodes.map fun n => n.key.plain).Nodup :=
  pairwise_map.mpr (h.unique.imp fun hab heq => hab (alike_iff_plain.mpr heq))

end Avtab.IsMap

/-! ## Tables -/

theorem avtabReadItems_old {σ : Type} (insertf : σ → AvtabKey → AvtabDatum → Option σ) {vers : Nat}
    (hvers : vers < policydbVersionAvtab) {groups : List (List AvtabNode)}
    (hgroups : ∀ g ∈ groups, OldGroup g ∧ g ≠ []) (hfits : ∀ g ∈ groups, ∀ n ∈ g, n.key.Fits)
    (fp : PolicyFile) (s : σ) :
    avtabReadItems insertf vers groups.length ((groups.map oldItem).flatMap putOldItem ++ fp) s =
      ((groups.flatMap oldEntries).foldlM (fun s e => insertf s e.1 e.2) s).map (fp, ·) := by
  induction groups generalizing s with
  | nil => rfl
  | cons g groups ih =>
    obtain ⟨⟨hg, hne⟩, hgroups⟩ := forall_mem_cons.mp hgroups
    obtain ⟨hfit, hfits⟩ := forall_mem_cons.mp hfits
    rw [length_cons, avtabReadItems, map_cons, flatMap_cons, append_assoc, avtabReadItem,
      if_pos hvers, avtabReadOldItem_putOldItem insertf hg hne hfit, flatMap_cons, foldlM_append]
    cases (oldEntries g).foldlM (fun s e => insertf s e.1 e.2) s with
    | none => rfl
    | some s' => exact ih hgroups hfits s'

/-- The chains of a table without attributes can be written. -/
theorem ExpandsTo.oldChain {rules} {a : Avtab} (h : ExpandsTo rules a) (hm : Mergeable rules) :
    ∀ chain ∈ a.htable, OldChain chain := by
  intro chain hchain
  have hsub : chain.Sublist a.nodes := sublist_flatten_of_mem hchain
  refine ⟨h.isMap.wf.order chain hchain, fun n hn => ?_, h.isMap.unique.sublist hsub⟩
  obtain ⟨r, hr, hkey⟩ := (h.keys n.key).mp ⟨n, hsub.subset hn, rfl⟩
  obtain ⟨hkind, hx⟩ := hm.kinds r hr
  have hall : specOrder.all (fun spec => spec &&& avtabXperms != 0 || spec ∈ writeSpecOrder) =
      true := by decide
  have hspec := all_eq_true.mp hall r.1.spec hkind
  rw [← hkey]
  simpa [hx] using hspec

theorem ExpandsTo.length_nodes {rules : List (AvtabKey × AvtabDatum)} {a : Avtab}
    (h : ExpandsTo rules a) : a.nodes.length = (rules.map Prod.fst).dedup.length := by
  have hnodup : (a.nodes.map key).Nodup := by
    refine pairwise_map.mpr (h.isMap.unique.imp ?_)
    intro x y hxy heq
    rw [heq] at hxy
    exact hxy (alike_refl _)
  have hperm : (a.nodes.map key).Perm (rules.map Prod.fst).dedup := by
    refine (perm_ext_iff_of_nodup hnodup (nodup_dedup _)).mpr fun k => ?_
    rw [mem_dedup, List.mem_map, List.mem_map]
    exact h.keys k
  rw [← hperm.length_eq, length_map]

/-- What the reader builds from the items of groups: a table of the rules of their nodes. -/
theorem AvtabRun.oldEntries {a : Avtab} (ha : a.IsMap) {groups : List (List AvtabNode)}
    (hgroups : ∀ g ∈ groups, OldGroup g) (hnodes : groups.flatten.Perm a.nodes) {t : Avtab}
    (run : AvtabRun [] t) :
    ∃ t', (groups.flatMap oldEntries).foldlM (fun t e => avtabInsertf t e.1 e.2) t = some t' ∧
      t'.IsMap ∧ (t'.nodes.map rule).Perm (a.nodes.map rule) := by
  have hrules : ((groups.flatMap SELinux.Sepol.oldEntries).map fun e => (e.1.plain, e.2.data)).Perm
      (a.nodes.map rule) := by
    refine List.Perm.trans ?_ (hnodes.map _)
    clear hnodes
    induction groups with
    | nil => exact .refl _
    | cons g groups ih =>
      obtain ⟨hg, hgroups⟩ := forall_mem_cons.mp hgroups
      rw [flatMap_cons, map_append, flatten_cons, map_append]
      exact (oldEntries_rules hg).append (ih hgroups)
  generalize groups.flatMap SELinux.Sepol.oldEntries = entries at hrules ⊢
  have hplain : (entries.map fun e => e.1.plain).Nodup := by
    have hfst := hrules.map Prod.fst
    rw [List.map_map, List.map_map] at hfst
    exact hfst.nodup_iff.mpr ha.nodup_plain
  have hkinds : ∀ e ∈ entries, e.1.OneKind := by
    intro e he
    obtain ⟨n, hn, hrule⟩ := mem_map.mp (hrules.subset (mem_map_of_mem he))
    exact (ha.kinds n hn).congr (alike_iff_plain.mpr (Prod.mk.inj hrule).1)
  have hclash : entries.Pairwise fun x y => ¬x.1.Clash y.1 :=
    (pairwise_map.mp hplain).imp fun hne hclash => hne (alike_iff_plain.mp hclash.1)
  obtain ⟨t', hfold, run'⟩ :=
    run.insert_all (l := entries) (by simpa using hkinds) (by simpa using hclash)
  have h' := run'.holds
  rw [append_nil] at h'
  have hentries : (t'.nodes.map fun n => (n.key, n.datum)).Perm entries :=
    h'.nodes.trans (reverse_perm _)
  have hrules' : (t'.nodes.map rule).Perm (a.nodes.map rule) := by
    have := hentries.map fun e => (e.1.plain, e.2.data)
    rw [List.map_map] at this
    exact this.trans hrules
  refine ⟨t', hfold, ⟨h'.wf, h'.slots, fun n hn => ?_, ?_⟩, hrules'⟩
  · exact hkinds _ (hentries.subset
      (mem_map_of_mem (f := fun n : AvtabNode => (n.key, n.datum)) hn))
  · have hfst := hentries.map fun e => e.1.plain
    rw [List.map_map] at hfst
    exact (pairwise_map.mp (hfst.nodup_iff.mpr hplain)).imp fun hne hal =>
      hne (alike_iff_plain.mp hal)

/-- A table whose rules fit, can be merged, are not none and can be counted is written in the old
format, with the number of items in front, and read back as a table that answers as its rules do. -/
theorem avtabRead_avtabWrite_old {p : Policydb} {targetPlatform : Nat} {t : Avtab}
    (hkern : p.policyType = .kern)
    (hvers : p.policyvers < policydbVersionAvtab) (hfits : ∀ r ∈ p.rules t, r.1.Fits)
    (hm : Mergeable (p.rules t))
    (hne : p.rules t ≠ []) (hcount : ((p.rules t).map Prod.fst).dedup.length < 2 ^ 32)
    (rest : PolicyFile) : ∃ (count : BitVec 32) (items : List (List (BitVec 32))) (t' : Avtab),
      avtabWrite p targetPlatform t = some (putLe32 count ++ items.flatMap putOldItem) ∧
      count.toNat = items.length ∧
      avtabRead p.policyvers (putLe32 count ++ items.flatMap putOldItem ++ rest) = some (rest, t') ∧
      ∀ source target tclass spec, spec ∈ writeSpecOrder →
        (avtabSearch t' ⟨source, target, tclass, spec⟩).map AvtabDatum.data =
          ruleData (p.rules t) ⟨source, target, tclass, spec⟩ := by
  obtain ⟨a, hexpand, ha⟩ := expandAvtab_expandsTo hfits hm
  obtain ⟨groups, fewer, hpass, hgroups, hfewer, hnodes⟩ := avtabWriteOldPass_eq (ha.oldChain hm)
  have hlen := ha.length_nodes
  have hpos : groups ≠ [] := by
    rintro rfl
    obtain ⟨r, hr⟩ := exists_mem_of_ne_nil _ hne
    obtain ⟨n, hn, -⟩ := (ha.keys r.1).mpr ⟨r, hr, rfl⟩
    exact not_mem_nil (hnodes.mem_iff.mpr hn)
  have hnel : BitVec.ofNat 32 a.nel - BitVec.ofNat 32 fewer = BitVec.ofNat 32 groups.length := by
    rw [ha.nel, Nat.mod_eq_of_lt (hlen ▸ hcount), ← hfewer, BitVec.ofNat_add, BitVec.add_sub_cancel]
  have hcount32 : (BitVec.ofNat 32 groups.length).toNat = groups.length := by
    rw [BitVec.toNat_ofNat]
    omega
  have hlength := length_pos_iff.mpr hpos
  obtain ⟨t', hread, hmap, hrules⟩ := (AvtabRun.alloc (Nat.ne_of_gt hlength)).oldEntries ha.isMap
    (fun g hg => (hgroups g hg).1) hnodes
  have hnodeFits : ∀ g ∈ groups, ∀ n ∈ g, n.key.Fits := by
    intro g hg n hn
    obtain ⟨r, hr, hkey⟩ :=
      (ha.keys n.key).mp ⟨n, hnodes.subset (mem_flatten.mpr ⟨g, hg, hn⟩), rfl⟩
    exact hkey ▸ hfits r hr
  refine ⟨.ofNat 32 groups.length, groups.map oldItem, t', ?_, ?_, ?_, ?_⟩
  · rw [avtabWrite, if_pos ⟨hkern, hvers⟩, hexpand]
    simp [hpass, hnel]
  · rw [hcount32, length_map]
  · have hnel0 : BitVec.ofNat 32 groups.length ≠ 0 := by
      intro h0
      rw [h0] at hcount32
      exact hpos (eq_nil_of_length_eq_zero hcount32.symm)
    rw [avtabRead, append_assoc, nextLe32_putLe32]
    simp only [bind_eq_bind, bind_some, if_neg hnel0, hcount32]
    rw [avtabReadItems_old avtabInsertf hvers hgroups hnodeFits, hread]
    rfl
  · intro source target tclass spec hspec
    have hkind : (⟨source, target, tclass, spec⟩ : AvtabKey).OneKind := by
      have hall : writeSpecOrder.all (fun spec => spec &&& ~~~avtabEnabled ∈ specOrder) = true := by
        decide
      exact of_decide_eq_true (all_eq_true.mp hall spec hspec)
    rw [ha.isMap.search_data_eq hmap hkind hrules, ha.data _ hkind]

/-- Types `1` and `2`, and the attribute `3` of both. -/
def attribPolicydb : Policydb where
  policyvers := 19
  typeValToStruct := [some {}, some {}, some { flavor := .attrib }]
  attrTypeMap := [.ofList [0], .ofList [1], .ofList [0, 1]]

theorem avtabRead_avtabWrite_old_merged :
    ∃ (count : BitVec 32) (items : List (List (BitVec 32))) (t' : Avtab),
      count.toNat = items.length ∧
      avtabRead 19 (putLe32 count ++ items.flatMap putOldItem ++ []) = some ([], t') ∧
      (avtabSearch t' ⟨1, 2, 1, avtabAllowed⟩).map AvtabDatum.data = some 6 := by
  obtain ⟨count, items, t', -, hcount, hread, hdata⟩ :=
    @avtabRead_avtabWrite_old attribPolicydb sepolTargetSelinux
    (avtabOf [(⟨3, 2, 1, avtabAllowed⟩, { data := 2 }), (⟨1, 3, 1, avtabAllowed⟩, { data := 4 }),
      (⟨1, 2, 1, avtabTransition⟩, { data := 1 })])
    rfl (by decide) (by decide) ⟨by decide, by decide, by decide⟩ (by decide) (by decide) []
  exact ⟨count, items, t', hcount, hread, by rw [hdata 1 2 1 avtabAllowed (by decide)]; decide⟩

/-- A type rule for an attribute and one for a type of it are not merged: nothing is written. -/
theorem avtabWrite_old_conflict : avtabWrite attribPolicydb sepolTargetSelinux
      (avtabOf [(⟨3, 2, 1, avtabTransition⟩, { data := 1 }),
      (⟨1, 2, 1, avtabTransition⟩, { data := 2 })]) = none := by
  decide +kernel

end SELinux.Sepol
