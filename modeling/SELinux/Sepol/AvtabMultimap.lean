import SELinux.Sepol.AvtabNodes

/-! Whole runs of `avtab_insert` and `avtab_insert_nonunique` on an allocated table. A call
that is refused leaves the table as it is, so a run is made of the calls that are not. -/
namespace SELinux.Sepol

/-- The tables that insertions make of an allocated table, with the entries inserted. -/
inductive AvtabRun : List (AvtabKey × AvtabDatum) → Avtab → Prop
  | alloc {nrules : Nat} (h : nrules ≠ 0) : AvtabRun [] (avtabAlloc nrules)
  | insert {entries : List (AvtabKey × AvtabDatum)} {t t' : Avtab} (run : AvtabRun entries t)
    {k : AvtabKey}
    {d : AvtabDatum} (h : avtabInsert t k d = .ok t') : AvtabRun ((k, d) :: entries) t'
  | insertNonunique {entries : List (AvtabKey × AvtabDatum)} {t : Avtab} (run : AvtabRun entries t)
    (node : AvtabNode) : AvtabRun ((node.key, node.datum) :: entries) (avtabInsertNonunique t node)

/-- What every call keeps. -/
structure AvtabHolds (entries : List (AvtabKey × AvtabDatum)) (t : Avtab) : Prop where
  wf : t.Wf
  slots : ∀ k, avtabHash k t.mask < t.htable.length
  nel : t.nel = t.nodes.length % 2 ^ 32
  nodes : (t.nodes.map fun n => (n.key, n.datum)).Perm entries

theorem avtabInsertNonunique_inserted {t : Avtab} (node : AvtabNode)
    (hslot : avtabHash node.key t.mask < t.htable.length) :
      t.Inserted node (avtabInsertNonunique t node) :=
  ⟨avtabInsertNonunique_mask t node, by rw [avtabInsertNonunique, List.length_modify], rfl,
    avtabInsertNonunique_nodes hslot⟩

theorem AvtabHolds.inserted {entries} {t t' : Avtab} {node : AvtabNode} (h : AvtabHolds entries t)
    (hins : t.Inserted node t') (hwf : t'.Wf) :
    AvtabHolds ((node.key, node.datum) :: entries) t' where
  wf := hwf
  slots := hins.slots h.slots
  nel := by
    simp [hins.nel, h.nel, hins.nodes.length_eq]
  nodes := (hins.nodes.map _).trans (h.nodes.cons _)

theorem AvtabRun.holds {entries t} (run : AvtabRun entries t) : AvtabHolds entries t := by
  induction run with
  | alloc h =>
    have hmap := avtabAlloc_isMap h
    refine ⟨hmap.wf, hmap.slots, ?_, by simp [avtabAlloc_nodes]⟩
    rw [avtabAlloc_nodes, avtabAlloc, if_neg h]
    rfl
  | insert run hok ih => exact ih.inserted (avtabInsert_ok ih.wf ih.slots hok).1 (ih.wf.insert hok)
  | insertNonunique run node ih =>
    exact ih.inserted (avtabInsertNonunique_inserted node (ih.slots node.key))
      (ih.wf.insertNonunique node)

/-- A table is a multimap of the entries inserted: its shape and its count, what the searches
find, and when an insertion is refused. -/
theorem avtab_multimap {entries : List (AvtabKey × AvtabDatum)} {t : Avtab}
    (run : AvtabRun entries t) : (∀ i, ∀ n ∈ t.htable.getD i [], avtabHash n.key t.mask = i) ∧
    (∀ c ∈ t.htable, c.Pairwise fun a b => ¬b.key.before a.key = true) ∧
    t.nel = t.nodes.length % 2 ^ 32 ∧ (t.nodes.map fun n => (n.key, n.datum)).Perm entries ∧
    (∀ k, avtabSearchNodes t k = t.nodes.filter (k.hits k.spec)) ∧
    (∀ k, avtabSearch t k = ((t.nodes.filter (k.hits k.spec)).head?).map AvtabNode.datum) ∧
    (∀ k d, avtabInsert t k d = .error .eexist ↔ k.spec &&& avtabXperms = 0 ∧
      ∃ n ∈ t.nodes, k.same n.key = true ∧ k.spec &&& n.key.specified ≠ 0) ∧
    ∀ k d, avtabInsert t k d ≠ .error .enomem := by
  have h := run.holds
  refine ⟨h.wf.slot, h.wf.order, h.nel, h.nodes, h.wf.searchNodes_eq, h.wf.search_eq, fun k d => ?_,
    fun k d => ?_⟩
  · simp only [← AvtabKey.hits_iff]
    rcases avtabInsert_cases h.wf h.slots k d with ⟨herr, hx, hit⟩ | ⟨t', hok, -, hmiss⟩
    · exact iff_of_true herr ⟨hx, hit⟩
    · simpa [hok] using hmiss
  · rcases avtabInsert_cases h.wf h.slots k d with ⟨herr, -⟩ | ⟨t', hok, -⟩
    · rw [herr]
      simp
    · rw [hok]
      simp

theorem avtab_multimap_two : ∃ t, AvtabRun
      [(⟨1, 2, 1, avtabAllowed⟩, { data := 4 }), (⟨1, 2, 1, avtabAllowed⟩, { data := 2 })] t ∧
      t.nel = 2 ∧ ∀ d, avtabInsert t ⟨1, 2, 1, avtabAllowed⟩ d = .error .eexist := by
  have run := ((@AvtabRun.alloc 1 (by decide)).insertNonunique
    { key := ⟨1, 2, 1, avtabAllowed⟩, datum := { data := 2 } }).insertNonunique
    { key := ⟨1, 2, 1, avtabAllowed⟩, datum := { data := 4 } }
  obtain ⟨-, -, hnel, hnodes, -, -, hexist, -⟩ := avtab_multimap run
  have hlength := hnodes.length_eq
  rw [List.length_map] at hlength
  obtain ⟨n, hn, hkey⟩ := List.mem_map.mp (hnodes.mem_iff.mpr List.mem_cons_self)
  refine ⟨_, run, by rw [hnel, hlength]; rfl, fun d => (hexist _ d).mpr ⟨by decide, n, hn, ?_⟩⟩
  rw [(Prod.mk.inj hkey).1]
  decide

/-- A key for a rule and for extended permissions at once is not refused. -/
theorem avtabInsert_mixed :
    ∃ t t', avtabInsert (avtabAlloc 1) ⟨1, 2, 1, avtabAllowed⟩ { data := 2 } = .ok t ∧
      avtabInsert t ⟨1, 2, 1, avtabAllowed ||| avtabXpermsAllowed⟩ { data := 2 } = .ok t' ∧
      ∃ n ∈ t.nodes, n.key = ⟨1, 2, 1, avtabAllowed⟩ :=
  ⟨_, _, rfl, rfl, by decide⟩

end SELinux.Sepol
