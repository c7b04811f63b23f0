import SELinux.Lib.Loop
import SELinux.Sepol.TypeSet

/-! What a type set stands for, and that `type_set_expand` computes it: right away if attributes are
always expanded, and otherwise once the attributes that were kept are looked up in
`attr_type_map`. -/
namespace SELinux.Sepol

open Policydb Option List

/-! ## Meaning -/

namespace Policydb

/-- A value of the type table that is not that of an attribute. -/
def NonAttrib (p : Policydb) (t : Nat) : Prop := t < p.nprim ∧ p.isAttrib t = false

/-- What a member of a set stands for: the types of an attribute, or itself. -/
def StandsFor (p : Policydb) (i t : Nat) : Prop :=
  match p.typeStruct i with
  | some d => if d.flavor = .attrib then t ∈ d.types else t = i
  | none => t = i

/-- The members of a bitmap with the attributes expanded. -/
def Expanded (p : Policydb) (e : Ebitmap) (t : Nat) : Prop := ∃ i ∈ e, p.StandsFor i t

/-- The types of attributes are types, and every value has a bit. -/
structure AttribTypes (p : Policydb) : Prop where
  bits : p.nprim ≤ ebitmapLimit
  types : ∀ a d, p.typeStruct a = some d → d.flavor = .attrib → ∀ t ∈ d.types, p.isType t = true

/-- The types of attributes are types, and `attr_type_map` has them for each attribute that is not
marked for expansion; a type has its own entry. Every value has a bit. -/
structure AttrTypeMapCorrect (p : Policydb) : Prop where
  bits : p.nprim ≤ ebitmapLimit
  types : ∀ a d, p.typeStruct a = some d → d.flavor = .attrib → ∀ t ∈ d.types, p.isType t = true
  attrib : ∀ a d, p.typeStruct a = some d → d.flavor = .attrib →
    d.flags &&& typeFlagsExpandAttrTrue = 0 →
    ∀ t, t ∈ p.attrTypes a ↔ t ∈ d.types
  own : ∀ i, p.isAttrib i = false → ∀ t, p.isType t = true → (t ∈ p.attrTypes i ↔ t = i)

theorem AttrTypeMapCorrect.attribTypes {p : Policydb} (h : p.AttrTypeMapCorrect) : p.AttribTypes :=
  ⟨h.bits, h.types⟩

end Policydb

namespace TypeSet

/-- The members are within the type table. -/
structure Within (p : Policydb) (set : TypeSet) : Prop where
  types : ∀ i ∈ set.types, (p.typeStruct i).isSome = true
  negset : ∀ i ∈ set.negset, i < p.nprim

/-- A type set stands for its types without the excluded ones; `*` is all types and `~` the
complement. -/
def StandsFor (p : Policydb) (set : TypeSet) (t : Nat) : Prop :=
  p.NonAttrib t ∧
    if set.flags &&& typeStar ≠ 0 then ¬ p.Expanded set.negset t
    else if set.flags &&& typeComp ≠ 0 then ¬ (p.Expanded set.types t ∧ ¬ p.Expanded set.negset t)
    else p.Expanded set.types t ∧ ¬ p.Expanded set.negset t

end TypeSet

/-! ## The loops -/

theorem ebitmapSetBit_adds {e i} (hi : i < ebitmapLimit) :
    ∃ e', (ebitmapSetBit e i true).toOption = some e' ∧ ∀ x, x ∈ e' ↔ x ∈ e ∨ x = i := by
  refine ⟨e.set i hi, by rw [ebitmapSetBit_true hi]; rfl, fun x => ?_⟩
  rw [Ebitmap.mem_set, or_comm]

theorem ebitmapSetBit_flip {e i} (hi : i < ebitmapLimit) :
    ∃ e', (ebitmapSetBit e i (!ebitmapGetBit e i)).toOption = some e' ∧
      ∀ x, x ∈ e' ↔ if x = i then x ∉ e else x ∈ e := by
  by_cases hmem : i ∈ e
  · have hget : ebitmapGetBit e i = true := decide_eq_true hmem
    refine ⟨_, by rw [hget, Bool.not_true, ebitmapSetBit_false hi]; rfl, fun x => ?_⟩
    by_cases hx : x = i
    · simp [hx, hmem]
    · simp [hx]
  · have hget : ebitmapGetBit e i = false := decide_eq_false hmem
    refine ⟨_, by rw [hget, Bool.not_false, ebitmapSetBit_true hi]; rfl, fun x => ?_⟩
    by_cases hx : x = i
    · simp [hx, hmem]
    · simp [hx]

/-- What a member of the types contributes to the first loop. -/
def Policydb.Kept (p : Policydb) (expand : Bool) (i t : Nat) : Prop :=
  match p.typeStruct i with
  | some d =>
    if d.flavor = .attrib ∧ (expand = true ∨ d.flags &&& typeFlagsExpandAttrTrue ≠ 0) then
      t ∈ d.types else t = i
  | none => False

section Loops

variable {p : Policydb} {set : TypeSet}

theorem typeSetTypes_spec (hset : set.Within p) (expand : Bool) :
    ∃ types, typeSetTypes set p expand = some types ∧ ∀ t, t ∈ types ↔
      ∃ i ∈ set.types, p.Kept expand i t := by
  have hloop : ∃ types, typeSetTypes set p expand = some types ∧
      ∀ t, t ∈ types ↔ t ∈ (∅ : Ebitmap) ∨ ∃ i ∈ set.types.bits, p.Kept expand i t := by
    refine Lib.foldlM_adds (fun i hi types => ?_) ∅
    obtain ⟨d, hd⟩ := isSome_iff_exists.mp (hset.types i hi)
    simp only [Policydb.Kept, hd]
    split_ifs with hattrib
    · simp
    · exact ebitmapSetBit_adds (set.types.bound i hi)
  simpa using hloop

theorem typeSetNegTypes_spec (set : TypeSet) (p : Policydb) :
    ∃ negTypes, typeSetNegTypes set p = some negTypes ∧ ∀ t, t ∈ negTypes ↔
      p.Expanded set.negset t := by
  have hloop : ∃ negTypes, typeSetNegTypes set p = some negTypes ∧
      ∀ t, t ∈ negTypes ↔ t ∈ (∅ : Ebitmap) ∨ ∃ i ∈ set.negset.bits, p.StandsFor i t := by
    refine Lib.foldlM_adds (fun i hi negTypes => ?_) ∅
    unfold Policydb.StandsFor
    cases hd : p.typeStruct i with
    | none => exact ebitmapSetBit_adds (set.negset.bound i hi)
    | some d =>
      simp only
      split_ifs with hattrib
      · simp
      · exact ebitmapSetBit_adds (set.negset.bound i hi)
  obtain ⟨negTypes, hnegTypes, hmem⟩ := hloop
  exact ⟨negTypes, hnegTypes, fun t => by simpa [Policydb.Expanded] using hmem t⟩

/-- A round of the loop for `*`. -/
def starStep (p : Policydb) (negTypes t : Ebitmap) (i : Nat) : Option Ebitmap :=
  if ebitmapGetBit negTypes i then some t
  else if p.isAttrib i then some t
  else (ebitmapSetBit t i true).toOption

/-- A round of the loop that leaves out the exclusions. -/
def diffStep (negTypes t : Ebitmap) (i : Nat) : Option Ebitmap :=
  if !ebitmapGetBit negTypes i then (ebitmapSetBit t i true).toOption else some t

/-- A round of a loop for `~`, which leaves some values alone. -/
def compStep (skip : Nat → Bool) (t : Ebitmap) (i : Nat) : Option Ebitmap :=
  if skip i then some t else (ebitmapSetBit t i (!ebitmapGetBit t i)).toOption

theorem typeSetExpand_eq (set : TypeSet) (p : Policydb) (alwaysexpand : Bool) :
    typeSetExpand set p alwaysexpand =
      (typeSetTypes set p (alwaysexpand || !ebitmapIsEmpty set.negset || set.flags != 0)).bind
        fun types => (typeSetNegTypes set p).bind fun negTypes =>
          if set.flags &&& typeStar ≠ 0 then (range p.nprim).foldlM (starStep p negTypes) ∅
          else (types.bits.foldlM (diffStep negTypes) ∅).bind fun t =>
              if set.flags &&& typeComp ≠ 0 then (range p.nprim).foldlM (compStep p.isAttrib) t
                else some t := rfl

theorem starLoop_spec (hbits : p.nprim ≤ ebitmapLimit) (negTypes : Ebitmap) :
    ∃ t, (range p.nprim).foldlM (starStep p negTypes) ∅ = some t ∧
      ∀ x, x ∈ t ↔ p.NonAttrib x ∧ x ∉ negTypes := by
  have hloop : ∃ t, (range p.nprim).foldlM (starStep p negTypes) ∅ = some t ∧
      ∀ x, x ∈ t ↔ x ∈ (∅ : Ebitmap) ∨
        ∃ i ∈ range p.nprim, i ∉ negTypes ∧ p.isAttrib i = false ∧ x = i := by
    refine Lib.foldlM_adds (fun i hi t => ?_) ∅
    have hlt : i < ebitmapLimit := Nat.lt_of_lt_of_le (mem_range.mp hi) hbits
    by_cases hneg : i ∈ negTypes
    · simp [starStep, hneg]
    · cases hattrib : p.isAttrib i with
      | true => simp [starStep, hattrib]
      | false => simpa [starStep, hneg, hattrib] using ebitmapSetBit_adds (e := t) hlt
  obtain ⟨t, ht, hmem⟩ := hloop
  refine ⟨t, ht, fun x => (hmem x).trans ?_⟩
  simp only [Ebitmap.not_mem_empty, false_or, mem_range, Policydb.NonAttrib]
  constructor
  · simp_all
  · simp_all

theorem diffLoop_spec (types negTypes : Ebitmap) :
    ∃ t, types.bits.foldlM (diffStep negTypes) ∅ = some t ∧ ∀ x, x ∈ t ↔ x ∈ types ∧
      x ∉ negTypes := by
  have hloop : ∃ t, types.bits.foldlM (diffStep negTypes) ∅ = some t ∧
      ∀ x, x ∈ t ↔ x ∈ (∅ : Ebitmap) ∨ ∃ i ∈ types.bits, i ∉ negTypes ∧ x = i := by
    refine Lib.foldlM_adds (fun i hi t => ?_) ∅
    by_cases hneg : i ∈ negTypes
    · exact ⟨t, by simp [diffStep, hneg], by simp [hneg]⟩
    · have hget : ebitmapGetBit negTypes i = false := decide_eq_false hneg
      simpa [diffStep, hneg, hget] using ebitmapSetBit_adds (e := t) (types.bound i hi)
  simpa using hloop

/-- Every round turns around one value, and no later round looks at it again. -/
theorem compLoop_spec (skip : Nat → Bool) (t : Ebitmap) {n : Nat} (hn : n ≤ ebitmapLimit) :
    ∃ t', (range n).foldlM (compStep skip) t = some t' ∧
      ∀ x, x ∈ t' ↔ if x < n ∧ skip x = false then x ∉ t else x ∈ t := by
  induction n with
  | zero => exact ⟨t, rfl, by simp⟩
  | succ n ih =>
    obtain ⟨t1, ht1, hmem⟩ := ih (by omega)
    have hrange : (range (n + 1)).foldlM (compStep skip) t = compStep skip t1 n := by
      simp [range_succ, ht1]
    rw [hrange]
    cases hskip : skip n with
    | true =>
      refine ⟨t1, by simp [compStep, hskip], fun x => (hmem x).trans ?_⟩
      by_cases hx : x = n
      · simp [hx, hskip]
      · simp [show x < n + 1 ↔ x < n by omega]
    | false =>
      obtain ⟨t2, ht2, hflip⟩ := ebitmapSetBit_flip (e := t1) (i := n) (by omega)
      refine ⟨t2, by simpa [compStep, hskip] using ht2, fun x => (hflip x).trans ?_⟩
      rw [hmem]
      by_cases hx : x = n
      · simp [hx, hskip]
      · simp [hx, show x < n + 1 ↔ x < n by omega]

theorem mapEbitmap_spec {src map} (hmap : ∀ i ∈ src, map i ≤ ebitmapLimit) :
    ∃ dst, mapEbitmap src map = some dst ∧ ∀ x, x ∈ dst ↔ ∃ i ∈ src, map i = x + 1 := by
  have hloop : ∃ dst, mapEbitmap src map = some dst ∧
      ∀ x, x ∈ dst ↔ x ∈ (∅ : Ebitmap) ∨ ∃ i ∈ src.bits, map i = x + 1 := by
    refine Lib.foldlM_adds (fun i hi dst => ?_) ∅
    have hle := hmap i hi
    by_cases hzero : map i = 0
    · simp [hzero]
    · obtain ⟨e, he, hx⟩ := ebitmapSetBit_adds (e := dst) (show map i - 1 < ebitmapLimit by omega)
      refine ⟨e, by rw [if_neg hzero, he], fun x => ?_⟩
      rw [hx, show map i = x + 1 ↔ x = map i - 1 by omega]
  simpa using hloop

end Loops

/-! ## Expansion -/

section Expansion

variable {p : Policydb} {set : TypeSet}

theorem kept_true_iff {i t : Nat} (hi : (p.typeStruct i).isSome = true) : p.Kept true i t ↔
    p.StandsFor i t := by
  obtain ⟨d, hd⟩ := isSome_iff_exists.mp hi
  simp [Policydb.Kept, Policydb.StandsFor, hd]

/-- What a member stands for is not an attribute. -/
theorem Policydb.StandsFor.nonAttrib (hp : p.AttribTypes) {i t : Nat}
    (hi : (p.typeStruct i).isSome = true) (h : p.StandsFor i t) : p.NonAttrib t := by
  obtain ⟨d, hd⟩ := isSome_iff_exists.mp hi
  simp only [Policydb.StandsFor, hd] at h
  have htype : p.isType t = true := by
    split_ifs at h with hattrib
    · exact hp.types i d hd hattrib t h
    · rw [h, isType, hd]
      simpa using hattrib
  exact ⟨isType_lt htype, isAttrib_eq_false htype⟩

theorem typeSetExpand_expanded (hp : p.AttribTypes) (hset : set.Within p) {alwaysexpand : Bool}
    (hexpand : (alwaysexpand || !ebitmapIsEmpty set.negset || set.flags != 0) = true) :
    ∃ t, typeSetExpand set p alwaysexpand = some t ∧ ∀ x, x ∈ t ↔ set.StandsFor p x := by
  obtain ⟨types, htypes, hmem⟩ := typeSetTypes_spec hset true
  obtain ⟨negTypes, hnegTypes, hneg⟩ := typeSetNegTypes_spec set p
  have hexpanded : ∀ x, x ∈ types ↔ p.Expanded set.types x := fun x =>
    (hmem x).trans (exists_congr fun i => and_congr_right fun hi => kept_true_iff (hset.types i hi))
  rw [typeSetExpand_eq, hexpand, htypes, bind_some, hnegTypes, bind_some]
  unfold TypeSet.StandsFor
  by_cases hstar : set.flags &&& typeStar ≠ 0
  · obtain ⟨t, ht, hx⟩ := starLoop_spec hp.bits negTypes
    simp_all
  · obtain ⟨t, ht, hx⟩ := diffLoop_spec types negTypes
    simp only [if_neg hstar, ht, bind_some]
    have hnonAttrib : ∀ x ∈ t, p.NonAttrib x := by
      intro x hxt
      obtain ⟨i, hi, hstands⟩ := (hexpanded x).mp ((hx x).mp hxt).1
      exact Policydb.StandsFor.nonAttrib hp (hset.types i hi) hstands
    by_cases hcomp : set.flags &&& typeComp ≠ 0
    · obtain ⟨t', ht', hx'⟩ := compLoop_spec p.isAttrib t hp.bits
      refine ⟨t', by rw [if_pos hcomp]; exact ht', fun x => ?_⟩
      rw [if_pos hcomp, hx', ← hexpanded, ← hneg, ← hx, Policydb.NonAttrib]
      by_cases hxt : x < p.nprim ∧ p.isAttrib x = false
      · rw [if_pos hxt, and_iff_right hxt]
      · rw [if_neg hxt]
        exact ⟨fun h => absurd (hnonAttrib x h) hxt, fun h => absurd h.1 hxt⟩
    · refine ⟨t, by rw [if_neg hcomp], fun x => ?_⟩
      rw [if_neg hcomp, ← hexpanded, ← hneg, ← hx]
      exact ⟨fun h => ⟨hnonAttrib x h, h⟩, fun h => h.2⟩

theorem kept_false_iff (hp : p.AttrTypeMapCorrect) {i c : Nat} (hi : (p.typeStruct i).isSome = true)
    (hc : p.isType c = true) : (∃ x, p.Kept false i x ∧ c ∈ p.attrTypes x) ↔ p.StandsFor i c := by
  obtain ⟨d, hd⟩ := isSome_iff_exists.mp hi
  simp only [Policydb.Kept, Policydb.StandsFor, hd, Bool.false_eq_true, false_or]
  by_cases hattrib : d.flavor = .attrib
  · by_cases hflag : d.flags &&& typeFlagsExpandAttrTrue = 0
    · -- the attribute is kept, and the map has its types
      simp [hattrib, hflag, hp.attrib i d hd hattrib hflag]
    · simp only [hattrib, hflag, ne_eq, not_false_eq_true, and_self, if_true]
      constructor
      · rintro ⟨x, hx, hcx⟩
        have htype := hp.types i d hd hattrib x hx
        rwa [(hp.own x (isAttrib_eq_false htype) c hc).mp hcx]
      · intro hx
        exact ⟨c, hx, (hp.own c (isAttrib_eq_false hc) c hc).mpr rfl⟩
  · have hown : p.isAttrib i = false := by
      rw [isAttrib, hd]
      simpa using hattrib
    simp [hattrib, hp.own i hown c hc]

/-- A result without attributes is read as it is. -/
theorem exists_attrTypes_iff (hp : p.AttrTypeMapCorrect) {t : Ebitmap}
    (ht : ∀ x ∈ t, p.isAttrib x = false) {c : Nat}
    (hc : p.isType c = true) : (∃ x ∈ t, c ∈ p.attrTypes x) ↔ c ∈ t := by
  constructor
  · rintro ⟨x, hx, hcx⟩
    rwa [(hp.own x (ht x hx) c hc).mp hcx]
  · intro hct
    exact ⟨c, hct, (hp.own c (isAttrib_eq_false hc) c hc).mpr rfl⟩

theorem typeSetExpand_kept (hp : p.AttrTypeMapCorrect) (hset : set.Within p)
    (hexpand : (!ebitmapIsEmpty set.negset || set.flags != 0) = false) :
    ∃ t, typeSetExpand set p false = some t ∧
      ∀ c, p.isType c = true → ((∃ x ∈ t, c ∈ p.attrTypes x) ↔ set.StandsFor p c) := by
  obtain ⟨types, htypes, hmem⟩ := typeSetTypes_spec hset false
  obtain ⟨negTypes, hnegTypes, hneg⟩ := typeSetNegTypes_spec set p
  obtain ⟨hnegset, hflags⟩ : ebitmapIsEmpty set.negset = true ∧ set.flags = 0 := by
    simpa using hexpand
  have hnone : ∀ x, ¬ p.Expanded set.negset x := by
    rintro x ⟨i, hi, -⟩
    exact ebitmapIsEmpty_iff.mp hnegset i hi
  obtain ⟨t, ht, hx⟩ := diffLoop_spec types negTypes
  refine ⟨t, ?_, fun c hc => ?_⟩
  · rw [typeSetExpand_eq, Bool.or_assoc, Bool.false_or, hexpand, htypes, bind_some, hnegTypes,
      bind_some,
      ht, hflags]
    rfl
  · rw [TypeSet.StandsFor, and_iff_right ⟨isType_lt hc, isAttrib_eq_false hc⟩]
    have hexpanded : (∃ x ∈ t, c ∈ p.attrTypes x) ↔ p.Expanded set.types c := by
      simp only [hx, hmem, hneg, hnone, not_false_eq_true, and_true]
      constructor
      · rintro ⟨x, ⟨i, hi, hkept⟩, hcx⟩
        exact ⟨i, hi, (kept_false_iff hp (hset.types i hi) hc).mp ⟨x, hkept, hcx⟩⟩
      · rintro ⟨i, hi, hstands⟩
        obtain ⟨x, hkept, hcx⟩ := (kept_false_iff hp (hset.types i hi) hc).mpr hstands
        exact ⟨x, ⟨i, hi, hkept⟩, hcx⟩
    simp [hexpanded, hflags, hnone]

end Expansion

/-- `type_set_expand` has set semantics: it returns the types that the set stands for, or a set that
stands for the same types by way of `attr_type_map`. -/
theorem typeSetExpand_standsFor (p : Policydb) (set : TypeSet) (hp : p.AttrTypeMapCorrect)
    (hset : set.Within p) :
    (∃ t, typeSetExpand set p true = some t ∧ ∀ x, x ∈ t ↔ set.StandsFor p x) ∧
    ∃ t, typeSetExpand set p false = some t ∧
      ∀ c, p.isType c = true → ((∃ x ∈ t, c ∈ p.attrTypes x) ↔ set.StandsFor p c) := by
  refine ⟨typeSetExpand_expanded hp.attribTypes hset rfl, ?_⟩
  by_cases hexpand : (!ebitmapIsEmpty set.negset || set.flags != 0) = true
  · obtain ⟨t, ht, hx⟩ :=
      typeSetExpand_expanded hp.attribTypes hset
        (show (false || _ || _) = true by simpa using hexpand)
    refine ⟨t, ht, fun c hc => ?_⟩
    rw [exists_attrTypes_iff hp (fun x hxt => ((hx x).mp hxt).1.2) hc, hx]
  · exact typeSetExpand_kept hp hset (Bool.eq_false_of_not_eq_true hexpand)

/-- Two types and an attribute with both of them. -/
def attributePolicydb : Policydb where
  typeValToStruct := [some {}, some {}, some { flavor := .attrib, types := .ofList [0, 1] }]
  attrTypeMap := [.ofList [0], .ofList [1], .ofList [0, 1]]

theorem attributePolicydb_correct : attributePolicydb.AttrTypeMapCorrect := by
  have htable : ∀ a < 3, ∀ d ∈ attributePolicydb.typeStruct a, d.flavor = .attrib →
      (∀ t ∈ d.types.bits, attributePolicydb.isType t = true) ∧
        attributePolicydb.attrTypes a = d.types := by decide
  have hown : ∀ i < 3, attributePolicydb.isAttrib i = false →
      ∀ t < 3, t ∈ attributePolicydb.attrTypes i ↔ t = i := by
    decide
  have hlt {a : Nat} {d : TypeDatum} (hd : attributePolicydb.typeStruct a = some d) : a < 3 := by
    by_contra ha
    obtain ⟨k, rfl⟩ := Nat.exists_eq_add_of_le' (show 3 ≤ a by omega)
    cases hd
  refine ⟨by decide, fun a d hd hattrib => (htable a (hlt hd) d hd hattrib).1,
    fun a d hd hattrib _ t => ?_,
    fun i hi t ht => ?_⟩
  · rw [(htable a (hlt hd) d hd hattrib).2]
  · have ht' : t < 3 := isType_lt ht
    by_cases hlt : i < 3
    · exact hown i hlt hi t ht'
    · obtain ⟨k, rfl⟩ := Nat.exists_eq_add_of_le' (show 3 ≤ i by omega)
      exact ⟨fun h => absurd h (Ebitmap.not_mem_empty t), fun h => by omega⟩

/-- The attribute without one of its types. -/
theorem typeSetExpand_standsFor_subtraction :
    ∃ t, typeSetExpand { types := .ofList [2], negset := .ofList [1] } attributePolicydb true =
      some t ∧
      ∀ x, x ∈ t ↔
        TypeSet.StandsFor attributePolicydb { types := .ofList [2], negset := .ofList [1] } x :=
  (typeSetExpand_standsFor attributePolicydb { types := .ofList [2], negset := .ofList [1] }
    attributePolicydb_correct ⟨by decide, by decide⟩).1

end SELinux.Sepol
