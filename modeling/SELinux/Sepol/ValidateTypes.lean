import SELinux.Sepol.ConditionalState

/-! What an accepted policy says about its types: a value that `validate_simpletype`
accepts is that of a type, and so is the result of every unconditional type rule. The
rules of a conditional are walked by `validate_cond_av_list`, which looks at their keys
only. -/
namespace SELinux.Sepol

open Option Bool List

/-! ## What acceptance checks -/

/-- The checks of `policydb_validate`, by what they are about. -/
structure Accepted (p : FullPolicydb) (flavors : Flavors) : Prop where
  init : validateArrayInit p = some flavors
  avtab : validateAvtab p.teAvtab p flavors = true
  conds : policydbVersionBool ≤ p.policyvers → validateCondList p.condList p flavors = true
  gaps : validateDatumArrayGaps p flavors = true
  entries : validateDatumArrayEntries p flavors = true

theorem Accepted.of_validate {p} (h : policydbValidate p = true) :
    ∃ flavors, Accepted p flavors := by
  unfold policydbValidate at h
  cases hinit : validateArrayInit p with
  | none => simp [hinit] at h
  | some flavors =>
    simp only [hinit, and_eq_true, or_eq_true, decide_eq_true_eq] at h
    obtain ⟨⟨⟨⟨⟨⟨⟨-, havtab⟩, hconds⟩, -⟩, -⟩, hgaps⟩, hentries⟩, -⟩ := h.1
    exact ⟨flavors, hinit, havtab, fun hvers => hconds.resolve_left (Nat.not_lt.mpr hvers), hgaps,
      hentries⟩

theorem validateInit_nprim {valToName nprim} {flavor : Validate}
    (h : validateInit valToName nprim = some flavor) : flavor.nprim = nprim := by
  obtain ⟨gaps, -, rfl⟩ := map_eq_some_iff.mp h
  rfl

variable {p : FullPolicydb}

/-- Where gaps among the types are not known, none is recorded. -/
theorem Accepted.types {flavors : Flavors} (h : Accepted p flavors) :
    flavors.types.nprim = p.nprim ∧ (typeGapsUnknown p = true → flavors.types.gaps = ∅) := by
  obtain ⟨classes, -, hinit⟩ := bind_eq_some_iff.mp h.init
  obtain ⟨roles, -, hinit⟩ := bind_eq_some_iff.mp hinit
  obtain ⟨types, htypes, hinit⟩ := bind_eq_some_iff.mp hinit
  obtain ⟨users, -, hinit⟩ := bind_eq_some_iff.mp hinit
  obtain ⟨bools, -, hinit⟩ := bind_eq_some_iff.mp hinit
  obtain ⟨levels, -, hinit⟩ := bind_eq_some_iff.mp hinit
  obtain ⟨cats, -, hinit⟩ := bind_eq_some_iff.mp hinit
  cases hinit
  unfold validateTypesInit at htypes
  split_ifs at htypes with hgaps
  · cases htypes
    exact ⟨rfl, fun _ => rfl⟩
  · exact ⟨validateInit_nprim htypes, fun h => absurd h hgaps⟩

/-- No type stands in a gap. -/
theorem Accepted.not_gap {flavors : Flavors} (h : Accepted p flavors) {i : Nat}
    (hi : p.isType i = true) : ebitmapGetBit flavors.types.gaps i = false := by
  obtain ⟨hnprim, hunknown⟩ := h.types
  have hlt : i < flavors.types.nprim := by
    rw [hnprim]
    exact Policydb.isType_lt hi
  have hgaps := h.gaps
  simp only [validateDatumArrayGaps, and_eq_true, or_eq_true] at hgaps
  rcases hgaps.1.2 with hg | hg
  · rw [hunknown hg]
    simp [ebitmapGetBit]
  · have hbit := all_eq_true.mp hg i (mem_range.mpr hlt)
    rw [← beq_iff_eq.mp hbit]
    unfold Policydb.isType Policydb.typeStruct at hi
    cases hd : p.typeValToStruct.getD i none with
    | none =>
      rw [hd] at hi
      cases hi
    | some d => rfl

theorem Accepted.simpletype_iff {flavors} (h : Accepted p flavors) (value : Nat) :
    validateSimpletype value p flavors = true ↔ 0 < value ∧ p.isType (value - 1) = true := by
  simp only [validateSimpletype, validateValue, and_eq_true, decide_eq_true_eq,
    not_eq_true']
  constructor
  · simp_all
  · rintro ⟨hpos, htype⟩
    have hlt := Policydb.isType_lt htype
    rw [← h.types.1] at hlt
    exact ⟨⟨⟨hpos, by omega⟩, h.not_gap htype⟩, htype⟩

/-! ## Results of type rules -/

/-- The rules that are reachable from a conditional. -/
def condRuleNodes (p : Policydb) : List AvtabNode :=
  p.teCondAvtab.nodes.filter fun n => p.condList.any fun c => decide (n.addr ∈ c.lists)

/-- The result of a type rule is the value of a defined type that is not an attribute. -/
def AvtabNode.ResultIsType (p : Policydb) (n : AvtabNode) : Prop :=
  0 < n.datum.data.toNat ∧ p.isType (n.datum.data.toNat - 1) = true

/-- In an accepted policy the results of all type rules are types exactly if those of the
rules on the conditionals' lists would pass the check that only unconditional rules are
put to. -/
theorem policydbValidate_results_iff {p : FullPolicydb} (h : policydbValidate p = true)
    {flavors : Flavors} (hinit : validateArrayInit p = some flavors) :
    (∀ n ∈ p.teAvtab.nodes ++ condRuleNodes p.toPolicydb, n.isTypeRule = true →
      n.ResultIsType p.toPolicydb) ↔ ∀ n ∈ condRuleNodes p.toPolicydb, n.isTypeRule = true →
      validateSimpletype n.datum.data.toNat p flavors = true := by
  obtain ⟨flavors', hacc⟩ := Accepted.of_validate h
  obtain rfl : flavors = flavors' := some_inj.mp (hinit.symm.trans hacc.init)
  constructor
  · intro hall n hn htype
    exact (hacc.simpletype_iff _).mpr (hall n (mem_append_right _ hn) htype)
  · intro hcond n hn htype
    refine (hacc.simpletype_iff _).mp ?_
    rcases mem_append.mp hn with hn | hn
    · have hnode := all_eq_true.mp hacc.avtab n hn
      simp only [validateAvtabKeyAndDatum, and_eq_true, or_eq_true] at hnode
      refine hnode.1.2.resolve_left fun h0 => ?_
      rw [AvtabNode.isTypeRule, AvtabNode.isKind, beq_iff_eq.mp h0] at htype
      simp at htype
    · exact hcond n hn htype

/-- The rules of a small policy: `allow`, and a conditional on the first Boolean with a
type transition to type `9` on its true list. -/
def wildTransitionFile : PolicyFile :=
  [1, 0, 0, 0,
    1, 0, 1, 0, 1, 0, 1, 0, 1, 0, 0, 0,
    1, 0, 0, 0,
    0, 0, 0, 0,
    1, 0, 0, 0, 1, 0, 0, 0, 1, 0, 0, 0,
    1, 0, 0, 0,
    1, 0, 1, 0, 1, 0, 16, 0, 9, 0, 0, 0,
    0, 0, 0, 0]

/-- A policy with one type is accepted with a rule whose result is the ninth. -/
theorem policydbValidate_wild_result : ∃ fp p, readRules 33 1 wildTransitionFile = some (fp, p) ∧
      policydbValidate (smallPolicydb p) = true ∧
      ∃ c ∈ p.condList, ∃ n ∈ p.teCondAvtab.nodes, n.addr ∈ c.trueList ∧
        n.key.specified = avtabTransition ∧ n.datum.data = 9 ∧ (smallPolicydb p).nprim = 1 := by
  have hrun : (readRules 33 1 wildTransitionFile).any (fun r =>
      policydbValidate (smallPolicydb r.2) &&
      r.2.condList.any fun c => r.2.teCondAvtab.nodes.any fun n =>
        decide (n.addr ∈ c.trueList) && n.key.specified == avtabTransition &&
          n.datum.data == 9) = true := by
    decide +kernel
  cases hread : readRules 33 1 wildTransitionFile with
  | none => simp [hread] at hrun
  | some r =>
    simp only [hread, any_some, and_eq_true, List.any_eq_true, beq_iff_eq,
      decide_eq_true_eq] at hrun
    obtain ⟨hvalid, c, hc, n, hn, ⟨haddr, hspec⟩, hdata⟩ := hrun
    exact ⟨r.1, r.2, rfl, hvalid, c, hc, n, hn, haddr, hspec, hdata, rfl⟩

/-- A policy with two types, for the file whose conditional has a transition to each. -/
def twoTypePolicydb (p : Policydb) : FullPolicydb where
  toPolicydb :=
    { p with
      typeValToStruct := [some {}, some {}]
      typeAttrMap := [.ofList [0], .ofList [1]] }
  typeValToName := [some "t".toList, some "u".toList]
  boolValToName := [some "b".toList]
  classTable := [("c".toList, { value := 1 })]
  classValToName := [some "c".toList]
  classValToStruct := [some { value := 1 }]

theorem policydbValidate_results_iff_twoTypes : ∃ fp p, readRules 33 1 typeRuleFile = some (fp, p) ∧
      ∀ n ∈ p.teAvtab.nodes ++ condRuleNodes (twoTypePolicydb p).toPolicydb, n.isTypeRule = true →
        n.ResultIsType (twoTypePolicydb p).toPolicydb := by
  have hrun : (readRules 33 1 typeRuleFile).any (fun r =>
      policydbValidate (twoTypePolicydb r.2) &&
      (validateArrayInit (twoTypePolicydb r.2)).any fun flavors =>
        (condRuleNodes (twoTypePolicydb r.2).toPolicydb).all fun n => !n.isTypeRule ||
          validateSimpletype n.datum.data.toNat (twoTypePolicydb r.2) flavors) = true := by
    decide +kernel
  cases hread : readRules 33 1 typeRuleFile with
  | none => simp [hread] at hrun
  | some r =>
    simp only [hread, any_some, and_eq_true] at hrun
    obtain ⟨hvalid, hresults⟩ := hrun
    cases hinit : validateArrayInit (twoTypePolicydb r.2) with
    | none => simp [hinit] at hresults
    | some flavors =>
      simp only [hinit, any_some, List.all_eq_true, or_eq_true, not_eq_true'] at hresults
      refine ⟨r.1, r.2, rfl, (policydbValidate_results_iff hvalid hinit).mpr fun n hn htype => ?_⟩
      exact (hresults n hn).resolve_left (by simp [htype])

end SELinux.Sepol
