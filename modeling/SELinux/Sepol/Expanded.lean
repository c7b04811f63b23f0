import SELinux.Sepol.Decision

/-! Policy databases as the expander leaves them, on which the checks of a finished
policy run. -/
namespace SELinux.Sepol

open List

/-- `validate_xperms`: an extended-permission entry has one of the two kinds of
bitmaps. -/
def AvtabNode.XpermsValid (n : AvtabNode) : Prop :=
  n.isKind avtabXperms = true →
    n.datum.xperms.specified = xpermsIoctlfunction ∨ n.datum.xperms.specified = xpermsIoctldriver

instance (n : AvtabNode) : Decidable n.XpermsValid := inferInstanceAs (Decidable (_ → _))

/-- A policy database as the expander leaves it: the attribute maps relate types
to attributes, the tables hold valid entries in order, a node has one address, and
conditional expressions have a value in every Boolean state. -/
structure ExpandedPolicydb extends Policydb where
  maps : toPolicydb.MapsConverse
  typesOnly : ∀ types ∈ attrTypeMap, ∀ t ∈ types.bits, toPolicydb.isType t = true
  teKeys : ∀ n ∈ teAvtab.nodes, n.key.Valid
  condKeys : ∀ n ∈ teCondAvtab.nodes, n.key.Valid
  teXperms : ∀ n ∈ teAvtab.nodes, n.XpermsValid
  condXperms : ∀ n ∈ teCondAvtab.nodes, n.XpermsValid
  teWf : teAvtab.Wf
  condWf : teCondAvtab.Wf
  condAddrs : (teCondAvtab.nodes.map AvtabNode.addr).Nodup
  condDefined : ∀ c ∈ condList, ∀ state, (condEvaluateExpr state c.expr).isSome = true

theorem Avtab.empty_wf : ({} : Avtab).Wf := avtabAlloc_wf 0

theorem Avtab.empty_keysValid : ∀ n ∈ ({} : Avtab).nodes, n.key.Valid := by decide

theorem Avtab.empty_xpermsValid : ∀ n ∈ ({} : Avtab).nodes, n.XpermsValid := by decide

theorem ExpandedPolicydb.mem_attrTypes (e : ExpandedPolicydb) {v t : Nat} (hv : 0 < v) :
    t ∈ e.attrTypes (v - 1) ↔ e.isType t = true ∧ e.covers v t = true := by
  constructor
  · intro h
    have ht : e.isType t = true := by
      rw [Policydb.attrTypes, getD_eq_getElem?_getD] at h
      cases hm : e.attrTypeMap[v - 1]? with
      | none => simp [hm] at h
      | some types => exact e.typesOnly types (mem_of_getElem? hm) t (by simpa [hm] using h)
    simp only [Policydb.covers, Bool.and_eq_true, decide_eq_true_eq, ebitmapGetBit_eq_true]
    exact ⟨ht, hv, (e.maps.converse t ht _).mp h⟩
  · rintro ⟨ht, hcov⟩
    simp only [Policydb.covers, Bool.and_eq_true, decide_eq_true_eq, ebitmapGetBit_eq_true] at hcov
    exact (e.maps.converse t ht _).mpr hcov.2

/-- The rules of a list of conditional entries. -/
def Policydb.condRules (p : Policydb) (list : List Nat) : List AvtabNode :=
  list.filterMap p.teCondAvtab.nodeAt

theorem ExpandedPolicydb.mem_condRules (e : ExpandedPolicydb) {list} {n : AvtabNode} :
    n ∈ e.condRules list ↔ n ∈ e.teCondAvtab.nodes ∧ n.addr ∈ list := by
  rw [Policydb.condRules, mem_filterMap]
  constructor
  · rintro ⟨a, ha, hat⟩
    obtain ⟨hn, rfl⟩ := Avtab.mem_nodes_of_nodeAt hat
    exact ⟨hn, ha⟩
  · rintro ⟨hn, ha⟩
    exact ⟨n.addr, ha, Avtab.nodeAt_eq_some e.condAddrs hn⟩

/-- The rules in force, by where they stand. -/
theorem ExpandedPolicydb.mem_activeNodes (e : ExpandedPolicydb) {state n} :
    n ∈ e.activeNodes state ↔
      n ∈ e.teAvtab.nodes ∨ ∃ c ∈ e.condList, n ∈ e.condRules (c.activeList state) := by
  simp only [Policydb.activeNodes, mem_append, mem_filter, decide_eq_true_eq,
    activeAddrs, mem_flatMap, e.mem_condRules]
  constructor
  · rintro (h | ⟨hn, c, hc, ha⟩)
    · exact .inl h
    · exact .inr ⟨c, hc, hn, ha⟩
  · rintro (h | ⟨c, hc, hn, ha⟩)
    · exact .inl h
    · exact .inr ⟨hn, c, hc, ha⟩

end SELinux.Sepol
