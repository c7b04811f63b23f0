import SELinux.Sepol.AvtabWrite

/-! A rule table that was written in the new format is read back. The writer goes through the
chains of one table and the reader inserts into another of a different size, so what comes back
is the same entries and not the same table. -/
namespace SELinux.Sepol

open List BitVec

/-- The part of a datum that is used under a key. -/
def AvtabKey.datumOf (k : AvtabKey) (d : AvtabDatum) : AvtabDatum :=
  if k.specified &&& avtabXperms ≠ 0 then { xperms := d.xperms } else { data := d.data }

/-- A node as an entry of the table. -/
def AvtabNode.entry (n : AvtabNode) : AvtabKey × AvtabDatum := (n.key, n.key.datumOf n.datum)

/-! ## Items -/

/-- Shifting a word in below the words above it. -/
theorem xpermWord_shift (perms : XpermBits) (i : Nat) :
    perms >>> (32 * (i + 1)) <<< 32 ||| (xpermWord perms i).setWidth 256 = perms >>> (32 * i) := by
  ext b hb
  simp only [xpermWord, getElem_or, getElem_shiftLeft, getElem_setWidth,
    getLsbD_extractLsb', getElem_ushiftRight]
  by_cases hlow : b < 32
  · simp [hlow]
  · have hpos : 32 * (i + 1) + (b - 32) = 32 * i + b := by omega
    simp [hlow, hpos]

/-- The reader puts the words together again. -/
theorem foldr_xpermWord (perms : XpermBits) : ((range 8).map (xpermWord perms)).foldr
      (fun w (acc : XpermBits) => acc <<< 32 ||| w.setWidth 256) 0 = perms := by
  have hfold : ∀ n i, n + i = 8 → ((range' i n).map (xpermWord perms)).foldr
      (fun w (acc : XpermBits) => acc <<< 32 ||| w.setWidth 256) 0 = perms >>> (32 * i) := by
    intro n
    induction n with
    | zero =>
      intro i hi
      have : i = 8 := by omega
      subst this
      exact (ushiftRight_eq_zero (Nat.le_refl 256)).symm
    | succ n ih =>
      intro i hi
      rw [range'_succ, map_cons, foldr_cons, ih (i + 1) (by omega), xpermWord_shift]
  have h := hfold 8 0 rfl
  rw [← range_eq_range'] at h
  rw [h]
  exact ushiftRight_zero perms

theorem AvtabKey.OneKind.specsOf {k : AvtabKey} (h : k.OneKind) :
    (specsOf k.specified).length = 1 := by
  have hall : specOrder.all (fun spec => (SELinux.Sepol.specsOf spec).length == 1 &&
      (~~~avtabEnabled &&& spec) == spec) = true := by decide
  have hspecs : SELinux.Sepol.specsOf k.specified = SELinux.Sepol.specsOf k.spec := by
    refine filter_congr fun spec hspec => ?_
    have := all_eq_true.mp hall spec hspec
    simp only [Bool.and_eq_true, beq_iff_eq] at this
    rw [AvtabKey.specified_and this.2]
  have := all_eq_true.mp hall k.spec h
  simp_all

/-- The rule kinds of a node can be written at a version for a platform. -/
def AvtabNode.Supported (n : AvtabNode) (policyvers targetPlatform : Nat) : Prop :=
  n.key.specified &&& avtabXperms ≠ 0 →
    policydbVersionXpermsIoctl ≤ policyvers ∧ targetPlatform = sepolTargetSelinux

instance (n : AvtabNode) (policyvers targetPlatform : Nat) :
    Decidable (n.Supported policyvers targetPlatform) := inferInstanceAs (Decidable (_ → _))

section Items

variable {σ : Type} (insertf : σ → AvtabKey → AvtabDatum → Option σ) {vers targetPlatform : Nat}

/-- The datum of an item, as it is written behind the key. -/
theorem avtabWriteNewItem_eq {n : AvtabNode} (hsupp : n.Supported vers targetPlatform) :
    ∃ datum, (∀ fp, readDatum vers n.key.specified (datum ++ fp) = some (n.entry.2, fp)) ∧
      avtabWriteNewItem vers targetPlatform n = some (putLe16 (.ofNat 16 n.key.sourceType) ++
        putLe16 (.ofNat 16 n.key.targetType) ++ putLe16 (.ofNat 16 n.key.targetClass) ++
        putLe16 n.key.specified ++ datum) := by
  by_cases hx : n.key.specified &&& avtabXperms ≠ 0
  · obtain ⟨hvers, hplatform⟩ := hsupp hx
    have hwords :
        ∀ fp, nextLe32s 8 (putLe32s ((List.range 8).map (xpermWord n.datum.xperms.perms)) ++ fp) =
        some ((List.range 8).map (xpermWord n.datum.xperms.perms), fp) := by
      intro fp
      have hlen : ((List.range 8).map (xpermWord n.datum.xperms.perms)).length = 8 := by
        rw [length_map, length_range]
      rw [← nextLe32s_putLe32s, hlen]
    refine ⟨n.datum.xperms.specified :: n.datum.xperms.driver ::
      putLe32s ((List.range 8).map (xpermWord n.datum.xperms.perms)), fun fp => ?_, ?_⟩
    · rw [readDatum, if_pos hx, if_neg (Nat.not_lt.mpr hvers), AvtabNode.entry, AvtabKey.datumOf,
        if_pos hx]
      simp only [List.cons_append, nextU8_cons, Option.bind_eq_bind, Option.bind_some, hwords,
        foldr_xpermWord]
    · rw [avtabWriteNewItem, if_pos hx, if_neg (Nat.not_lt.mpr hvers),
        if_neg (not_not.mpr hplatform)]
  · refine ⟨putLe32 n.datum.data, fun fp => ?_, ?_⟩
    · rw [readDatum, if_neg hx, AvtabNode.entry, AvtabKey.datumOf, if_neg hx]
      simp
    · rw [avtabWriteNewItem, if_neg hx]

theorem avtabReadItem_avtabWriteNewItem (hvers : policydbVersionAvtab ≤ vers) {n : AvtabNode}
    (hkind : n.key.OneKind) (hfits : n.key.Fits) (hsupp : n.Supported vers targetPlatform) :
    ∃ bytes, avtabWriteNewItem vers targetPlatform n = some bytes ∧ ∀ fp s,
      avtabReadItem insertf vers (bytes ++ fp) s = (insertf s n.entry.1 n.entry.2).map (fp, ·) := by
  obtain ⟨datum, hread, hwrite⟩ := avtabWriteNewItem_eq hsupp
  refine ⟨_, hwrite, fun fp s => ?_⟩
  have hkey : ({ sourceType := (BitVec.ofNat 16 n.key.sourceType).toNat,
                 targetType := (BitVec.ofNat 16 n.key.targetType).toNat,
                 targetClass := (BitVec.ofNat 16 n.key.targetClass).toNat,
                 specified := n.key.specified } : AvtabKey) = n.key := by
    simp only [toNat_ofNat, Nat.mod_eq_of_lt hfits.sourceType, Nat.mod_eq_of_lt hfits.targetType,
      Nat.mod_eq_of_lt hfits.targetClass]
  rw [avtabReadItem, if_neg (Nat.not_lt.mpr hvers)]
  simp only [List.append_assoc, nextLe16_putLe16, Option.bind_eq_bind, Option.bind_some,
    hkind.specsOf,
    ne_eq, not_true_eq_false, if_false, hread, hkey]
  have hentry : n.entry.1 = n.key := rfl
  rw [hentry]
  cases insertf s n.key n.entry.2 <;> rfl

theorem avtabReadItems_avtabWriteNewItem (hvers : policydbVersionAvtab ≤ vers) {l : List AvtabNode}
    (hkinds : ∀ n ∈ l, n.key.OneKind) (hfits : ∀ n ∈ l, n.key.Fits)
    (hsupp : ∀ n ∈ l, n.Supported vers targetPlatform) :
    ∃ items, l.mapM (avtabWriteNewItem vers targetPlatform) = some items ∧ ∀ fp s,
      avtabReadItems insertf vers l.length (items.flatten ++ fp) s =
        (l.foldlM (fun s n => insertf s n.entry.1 n.entry.2) s).map (fp, ·) := by
  induction l with
  | nil => exact ⟨[], rfl, fun fp s => rfl⟩
  | cons n l ih =>
    obtain ⟨hkind, hkinds⟩ := forall_mem_cons.mp hkinds
    obtain ⟨hfit, hfits⟩ := forall_mem_cons.mp hfits
    obtain ⟨hsup, hsupp⟩ := forall_mem_cons.mp hsupp
    obtain ⟨bytes, hbytes, hitem⟩ := avtabReadItem_avtabWriteNewItem insertf hvers hkind hfit hsup
    obtain ⟨items, hitems, hrest⟩ := ih hkinds hfits hsupp
    refine ⟨bytes :: items, by simp [mapM_cons, hbytes, hitems], fun fp s => ?_⟩
    rw [length_cons, avtabReadItems, flatten_cons, List.append_assoc, hitem, foldlM_cons]
    cases insertf s n.entry.1 n.entry.2 with
    | none => rfl
    | some s' => simp [hrest]

end Items

/-! ## Tables -/

/-- No table holds both keys if it is built by `avtab_insert`: they are for the same rule, and
not for extended permissions. -/
def AvtabKey.Clash (k c : AvtabKey) : Prop := k.alike c = true ∧ k.spec &&& avtabXperms = 0

instance (k c : AvtabKey) : Decidable (k.Clash c) := inferInstanceAs (Decidable (_ ∧ _))

theorem AvtabKey.Clash.symm {k c : AvtabKey} (h : k.Clash c) : c.Clash k :=
  ⟨AvtabKey.alike_symm h.1, (AvtabKey.alike_iff.mp h.1).2 ▸ h.2⟩

theorem AvtabRun.insert_all {entries l : List (AvtabKey × AvtabDatum)} {t : Avtab}
    (run : AvtabRun entries t) (hkinds : ∀ e ∈ l ++ entries, e.1.OneKind)
    (hclash : (l ++ entries).Pairwise fun a b => ¬a.1.Clash b.1) :
    ∃ t', l.foldlM (fun t e => avtabInsertf t e.1 e.2) t = some t' ∧
      AvtabRun (l.reverse ++ entries) t' := by
  induction l generalizing entries t with
  | nil => exact ⟨t, rfl, run⟩
  | cons e l ih =>
    have h := run.holds
    have hperm : (l ++ e :: entries).Perm (e :: l ++ entries) := perm_middle
    obtain ⟨hnew, -⟩ := pairwise_cons.mp hclash
    rcases avtabInsert_cases h.wf h.slots e.1 e.2 with ⟨-, hx, n, hn, hit⟩ | ⟨t1, hok, -⟩
    · -- a node that is a hit would be the node of a clashing entry
      have hmem : (n.key, n.datum) ∈ entries := h.nodes.subset (mem_map_of_mem hn)
      have hkind := hkinds _ (mem_append_right _ hmem)
      rw [AvtabKey.hits_eq_alike (hkinds e (mem_append_left _ mem_cons_self)) hkind] at hit
      exact absurd ⟨hit, hx⟩ (hnew _ (mem_append_right _ hmem))
    · obtain ⟨t', hfold, run'⟩ := ih (run.insert hok)
        (fun e' he' => hkinds e' (hperm.subset he'))
        (hperm.symm.pairwise hclash fun hab hba => hab hba.symm)
      refine ⟨t', ?_, by simpa using run'⟩
      rw [foldlM_cons, avtabInsertf, hok]
      exact hfold

/-- A table that counts its nodes, whose keys have one kind each that the version supports, and
that has no clashing keys, is written, and read back as a table of the same entries. -/
theorem avtabRead_avtabWrite {p : Policydb} {targetPlatform : Nat} {t : Avtab}
    (hvers : policydbVersionAvtab ≤ p.policyvers) (hne : t.nodes ≠ [])
    (hnel : t.nel = t.nodes.length) (hlt : t.nel < 2 ^ 32) (hkinds : ∀ n ∈ t.nodes, n.key.OneKind)
    (hfits : ∀ n ∈ t.nodes, n.key.Fits)
    (hsupp : ∀ n ∈ t.nodes, n.Supported p.policyvers targetPlatform)
    (hclash : t.nodes.Pairwise fun a b => ¬a.key.Clash b.key) (rest : PolicyFile) :
    ∃ bytes t', avtabWrite p targetPlatform t = some bytes ∧
      avtabRead p.policyvers (bytes ++ rest) = some (rest, t') ∧
      (t'.nodes.map AvtabNode.entry).Perm (t.nodes.map AvtabNode.entry) := by
  obtain ⟨items, hitems, hread⟩ :=
    avtabReadItems_avtabWriteNewItem avtabInsertf hvers hkinds hfits hsupp
  have hpos : t.nel ≠ 0 := by
    simp [hne, hnel]
  obtain ⟨t', hfold, run⟩ := (AvtabRun.alloc hpos).insert_all (l := t.nodes.map AvtabNode.entry)
    (by simpa [AvtabNode.entry] using hkinds)
    (by simpa [AvtabNode.entry, pairwise_map] using hclash)
  have hnel32 : (BitVec.ofNat 32 t.nel).toNat = t.nel := by
    rw [toNat_ofNat, Nat.mod_eq_of_lt hlt]
  refine ⟨putLe32 (.ofNat 32 t.nel) ++ items.flatten, t', ?_, ?_, ?_⟩
  · rw [avtabWrite, if_neg (fun h => Nat.not_lt.mpr hvers h.2), hitems]
    rfl
  · have hnel0 : BitVec.ofNat 32 t.nel ≠ 0 := fun h => hpos (by rw [← hnel32, h]; rfl)
    rw [foldlM_map] at hfold
    rw [avtabRead, List.append_assoc, nextLe32_putLe32]
    simp only [Option.bind_eq_bind, Option.bind_some, if_neg hnel0, hnel32]
    rw [hnel] at hfold ⊢
    rw [hread, hfold]
    rfl
  · -- the reader stores what the entries hold, and an entry holds no more than it needs
    have hnodes := run.holds.nodes
    rw [append_nil] at hnodes
    have hentries := (hnodes.trans (reverse_perm _)).map fun e => (e.1, e.1.datumOf e.2)
    rw [map_map, map_map] at hentries
    refine hentries.trans (.of_eq (map_congr_left fun n _ => ?_))
    simp only [Function.comp, AvtabNode.entry, AvtabKey.datumOf]
    split_ifs <;> rfl

/-- A rule, a type rule and extended permissions for the same types and class. -/
def sampleAvtab : Avtab :=
  avtabOf [(⟨1, 2, 1, avtabAllowed⟩, { data := 6 }), (⟨1, 2, 1, avtabTransition⟩, { data := 3 }),
    (⟨1, 2, 1, avtabXpermsAllowed⟩, { xperms := { specified := 1, driver := 0x54, perms := 5 } })]

theorem avtabRead_avtabWrite_sample :
    ∃ bytes t', avtabWrite {} sepolTargetSelinux sampleAvtab = some bytes ∧
      avtabRead 33 (bytes ++ []) = some ([], t') ∧
      (t'.nodes.map AvtabNode.entry).Perm (sampleAvtab.nodes.map AvtabNode.entry) :=
  avtabRead_avtabWrite (by decide) (by decide) (by decide) (by decide) (by decide) (by decide)
    (by decide)
    (by decide) []

/-- `avtab_insert_nonunique` makes a table with an entry twice. It is written, but the reader
takes the second one as a duplicate. -/
theorem avtabWrite_twice :
    ∃ t bytes, AvtabRun (replicate 2 (⟨1, 2, 1, avtabAllowed⟩, { data := 2 })) t ∧
      (∀ n ∈ t.nodes, n.key.OneKind ∧ n.key.Fits) ∧ t.nodes ≠ [] ∧
      avtabWrite {} sepolTargetSelinux t = some bytes ∧ avtabRead 33 bytes = none :=
  ⟨_, _, ((@AvtabRun.alloc 1 (by decide)).insertNonunique
    { key := ⟨1, 2, 1, avtabAllowed⟩, datum := { data := 2 } }).insertNonunique
    { key := ⟨1, 2, 1, avtabAllowed⟩, datum := { data := 2 } }, by decide, by decide, rfl, rfl⟩

end SELinux.Sepol
