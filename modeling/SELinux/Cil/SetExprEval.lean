import SELinux.Cil.SetExprMeaning
import SELinux.Lib.Memo

/-! The evaluation of set expressions computes what they denote if no attribute or category set
refers to itself. The loop over a category set that is a plain list takes every item for a category;
it may, since names are resolved. -/
namespace SELinux.Cil

open Sepol List Function
open Lib (Fills)

/-! ## Evaluation -/

/-- A computation does not run out of fuel, and a result satisfies `Q`. -/
abbrev Ends {α : Type} (Q : α → Prop) : Except SetError α → Prop := Lib.Ends (· = .failed) Q

variable {k' d : Nat} {db : SetDb}

section Evaluation

variable (db : SetDb) (rank : Nat → Nat) (env : Nat → Nat → Prop)

/-- The kept bitmap of a datum below `k` is right. -/
def BitmapRight (k a : Nat) (b : Ebitmap) : Prop := rank a < k ∧ ∀ x, x ∈ b ↔ env a x

/-- The kept categories of a set below `k` are right. -/
def CatsRight (k c : Nat) (cats : List Nat) : Prop :=
  rank c < k ∧ ∀ x, (∃ cat ∈ cats, db.value cat = x) ↔ env c x

/-- What is kept for data below `k` is right. -/
structure Good (k : Nat) (st : SetState) : Prop where
  bitmap : ∀ a b, rank a < k → st.bitmap a = some b → BitmapRight rank env k a b
  evaluated : ∀ c cats, rank c < k → st.evaluated c = some cats → CatsRight db rank env k c cats

/-- Only slots of data below `k` are filled, with what is right. -/
structure Step (k : Nat) (st st' : SetState) : Prop where
  bitmap : ∀ a, Fills (BitmapRight rank env k a) (st.bitmap a) (st'.bitmap a)
  evaluated : ∀ c, Fills (CatsRight db rank env k c) (st.evaluated c) (st'.evaluated c)

/-- A computation that ends with the bitmap of a set and fills slots below `k`. -/
def Yields (k : Nat) (st : SetState) (P : Nat → Prop) (r : SetEval) : Prop :=
  Ends (fun (b, st') => (∀ x, x ∈ b ↔ P x) ∧ Step db rank env k st st') r

/-- The computation yields the set from every good state. -/
def Computes (k : Nat) (P : Nat → Prop) (f : SetState → SetEval) : Prop :=
  ∀ st, Good db rank env k st → Yields db rank env k st P (f st)

variable {db rank env} {k : Nat} {st st' st'' : SetState} {P Q : Nat → Prop}

theorem Step.refl (k : Nat) (st : SetState) : Step db rank env k st st :=
  ⟨fun _ => .inl rfl, fun _ => .inl rfl⟩

theorem Step.trans (h : Step db rank env k st st') (h' : Step db rank env k st' st'') :
    Step db rank env k st st'' :=
  ⟨fun a => (h.bitmap a).trans (h'.bitmap a), fun c => (h.evaluated c).trans (h'.evaluated c)⟩

theorem Good.step (hgood : Good db rank env k st) (h : Step db rank env k st st') :
    Good db rank env k st' :=
  ⟨fun a _ ha hb => (h.bitmap a).right_of_eq_some (fun b hb => hgood.bitmap a b ha hb) hb,
    fun c _ hc hcats =>
      (h.evaluated c).right_of_eq_some (fun cats hcats => hgood.evaluated c cats hc hcats) hcats⟩

theorem Good.mono (hgood : Good db rank env k st) (hk : k' ≤ k) : Good db rank env k' st :=
  ⟨fun a b ha hb => ⟨ha, (hgood.bitmap a b (by omega) hb).2⟩,
    fun c cats hc hcats => ⟨hc, (hgood.evaluated c cats (by omega) hcats).2⟩⟩

/-- Data of rank `k` do not count below `k`. -/
theorem Good.update_bitmap (hgood : Good db rank env k st) {a b} (ha : k ≤ rank a) :
    Good db rank env k { st with bitmap := Function.update st.bitmap a b } := by
  refine ⟨fun a' b' ha' hb' => ?_, hgood.evaluated⟩
  have hne : a' ≠ a := by
    rintro rfl
    omega
  exact hgood.bitmap a' b' ha' ((update_of_ne hne ..).symm.trans hb')

theorem Step.mono (h : Step db rank env k' st st') (hk : k' ≤ k) : Step db rank env k st st' :=
  ⟨fun a => (h.bitmap a).mono fun _ hb => ⟨Nat.lt_of_lt_of_le hb.1 hk, hb.2⟩,
    fun c => (h.evaluated c).mono fun _ hc => ⟨Nat.lt_of_lt_of_le hc.1 hk, hc.2⟩⟩

theorem Yields.bind {r f} (hr : Yields db rank env k st P r) (hgood : Good db rank env k st)
    (hf : ∀ b st', (∀ x, x ∈ b ↔ P x) → Good db rank env k st' →
      Yields db rank env k st' Q (f (b, st'))) : Yields db rank env k st Q (r >>= f) := by
  refine Lib.Ends.bind hr fun a ha => ?_
  obtain ⟨b, st'⟩ := a
  exact (hf b st' ha.1 (hgood.step ha.2)).mono fun c hc => ⟨hc.1, ha.2.trans hc.2⟩

theorem Yields.ok {b} (h : ∀ x, x ∈ b ↔ P x) : Yields db rank env k st P (.ok (b, st)) :=
  ⟨h, Step.refl k st⟩

theorem Yields.congr {r} (h : Yields db rank env k st P r) (hPQ : ∀ x, P x ↔ Q x) :
    Yields db rank env k st Q r :=
  h.mono fun _ hc => ⟨fun x => (hc.1 x).trans (hPQ x), hc.2⟩

theorem setValues_ends (b : Ebitmap) (values : List Nat) :
    Ends (fun b' => ∀ x, x ∈ b' ↔ x ∈ b ∨ x ∈ values) (setValues b values) := by
  induction values generalizing b with
  | nil => exact fun x => by simp
  | cons value values ih =>
    unfold setValues
    cases hset : ebitmapSetBit b value true with
    | error e => exact rfl
    | ok b' =>
      refine (ih b').mono fun b'' hb'' x => ?_
      rw [hb'', mem_of_ebitmapSetBit_true hset, mem_cons]
      tauto

theorem valueToBitmap_yields (value : Nat) :
    Yields db rank env k st (· = value) (valueToBitmap value st) := by
  refine Lib.Ends.bind (setValues_ends ∅ [value]) fun b hb => ?_
  exact ⟨fun x => by simpa using hb x, Step.refl k st⟩

theorem initRange_yields (minbit maxbit : Nat) :
    Yields db rank env k st (fun x => minbit ≤ x ∧ x ≤ maxbit) (initRange minbit maxbit st) := by
  unfold initRange ebitmapInitRange
  split_ifs with hlt hlimit
  · exact rfl
  · exact rfl
  · refine Yields.ok fun x => ?_
    rw [Ebitmap.mem_ofList, mem_range'_1]
    omega

theorem mem_ebitmapNot {b maxbit x} (hmax : maxbit < ebitmapLimit) :
    x ∈ ebitmapNot b maxbit ↔ x < maxbit ∧ x ∉ b := by
  rw [ebitmapNot, Ebitmap.mem_ofList, mem_filter, mem_range]
  simp only [Bool.not_eq_true', ← Bool.not_eq_true, ebitmapGetBit_eq_true]
  constructor
  · exact fun h => h.1
  · exact fun h => ⟨h, by omega⟩

theorem mem_ebitmapXor {b1 b2 x} : x ∈ ebitmapXor b1 b2 ↔ Xor (x ∈ b1) (x ∈ b2) := by
  simp [ebitmapXor, Xor, ebitmapGetBit]

theorem applyOp_ends (op : SetOp) (b1 b2 : Ebitmap) :
    Ends (fun b => ∀ x, x ∈ b ↔ op.Combines (x ∈ b1) (x ∈ b2)) (applyOp op b1 b2) := by
  cases op with
  | and => exact fun x => mem_ebitmapAnd
  | or => exact fun x => mem_ebitmapOr
  | xor => exact fun x => mem_ebitmapXor
  | not => exact rfl
  | all => exact rfl
  | range => exact rfl

section Expressions

variable {flavor : SetFlavor} {toBitmap : Nat → SetState → SetEval} {expr : SetExpr}

theorem exprItemsToBitmap_yields {tmp} (h : ∀ item ∈ expr, Computes db rank env k
      (itemDenotes (db.num flavor) env item) (exprToBitmapHelper db flavor toBitmap item)) :
    Computes db rank env k (fun x => x ∈ tmp ∨ itemsDenote (db.num flavor) env expr x)
      (exprItemsToBitmap db flavor toBitmap expr tmp) := by
  intro st hgood
  induction expr generalizing tmp st with
  | nil =>
    exact Yields.ok fun x => by simp [itemsDenote]
  | cons item expr ih =>
    refine (h item mem_cons_self st hgood).bind hgood fun b st' hb hgood' => ?_
    refine (ih (fun i hi => h i (mem_cons_of_mem item hi)) st' hgood').congr fun x => ?_
    rw [mem_ebitmapOr, hb, itemsDenote, or_assoc]

variable (hres : db.Resolved) (henv : db.Denotation env)
include hres henv

/-- What an end of a category range denotes. -/
theorem rangeEnd_denotes {c : Nat} (hcat : (db.datum d).flavor = .cat)
    (h : rangeEnd db d = some c) (x : Nat) : env d x ↔ x = c := by
  rw [henv d x, SetDb.DatumDenotes]
  unfold rangeEnd at h
  cases hd : db.datum d with
  | plain flavor value =>
    simp only [hd, SetDb.value, Option.some.injEq] at h
    rw [h]
  | aliasOf flavor actual =>
    obtain rfl : flavor = .cat := by simpa [hd, SetDatum.flavor] using hcat
    simp only [hd, Option.some.injEq] at h
    simp only [h]
  | attrib flavor exprList =>
    exact absurd (by simpa [hd, SetDatum.flavor] using hcat) (hres.attribs d flavor exprList hd)
  | catset datumExpr => simp [hd] at h

theorem catExprRangeToBitmap_yields {d1 d2 : Nat} (h1 : (db.datum d1).flavor = .cat)
    (h2 : (db.datum d2).flavor = .cat) :
    Yields db rank env k st (fun x => (∃ u, env d1 u ∧ u ≤ x) ∧ ∃ v, env d2 v ∧ x ≤ v)
      (catExprRangeToBitmap db d1 d2 st) := by
  unfold catExprRangeToBitmap
  cases hc1 : rangeEnd db d1 with
  | none => exact rfl
  | some c1 =>
    cases hc2 : rangeEnd db d2 with
    | none => exact rfl
    | some c2 =>
      simp only
      split_ifs with hlt
      · exact rfl
      · simpa only [rangeEnd_denotes hres henv h1 hc1, rangeEnd_denotes hres henv h2 hc2,
          exists_eq_left] using
          initRange_yields c1 c2

theorem exprToBitmap_yields_items (hflavor : ∀ d ∈ exprRefs expr, (db.datum d).flavor = flavor)
    (h : ∀ item ∈ expr, Computes db rank env k
      (itemDenotes (db.num flavor) env item) (exprToBitmapHelper db flavor toBitmap item)) :
    Computes db rank env k (exprDenotes (db.num flavor) env expr)
      (exprToBitmap db flavor toBitmap expr) := by
  intro st hgood
  have hbits := hres.bits flavor
  fun_cases exprToBitmap db flavor toBitmap expr st with
  | case1 => exact Yields.ok fun x => by simp [exprDenotes]
  | case2 tail =>
    by_cases hzero : db.num flavor = 0
    · rw [if_pos hzero]
      exact rfl
    · rw [if_neg hzero]
      refine (initRange_yields 0 _).congr fun x => ?_
      rw [exprDenotes]
      omega
  | case3 d1 d2 tail =>
    refine (catExprRangeToBitmap_yields hres henv ?_ ?_).congr fun x => by rw [exprDenotes]
    · exact (hflavor d1 (by simp [exprRefs, itemRefs])).trans ‹flavor = .cat›
    · exact (hflavor d2 (by simp [exprRefs, itemRefs])).trans ‹flavor = .cat›
  | case4 => exact rfl
  | case5 => exact rfl
  | case6 a tail =>
    refine (h a (by simp) st hgood).bind hgood fun b st' hb _ => ?_
    refine Yields.ok fun x => ?_
    rw [mem_ebitmapNot hbits, hb, exprDenotes]
  | case7 op a b tail =>
    refine (h a (by simp) st hgood).bind hgood fun b1 st1 hb1 hgood1 => ?_
    refine (h b (by simp) st1 hgood1).bind hgood1 fun b2 st2 hb2 _ => ?_
    refine (applyOp_ends op b1 b2).bind fun tmp htmp => Yields.ok fun x => ?_
    rw [htmp, hb1, hb2, exprDenotes] <;> assumption
  | case8 => exact rfl
  | case9 curr rest =>
    refine (h curr (by simp) st hgood).bind hgood fun b st' hb hgood' => ?_
    refine (exprItemsToBitmap_yields (fun item hitem => h item (mem_cons_of_mem curr hitem))
      st' hgood').congr fun x => ?_
    rw [mem_ebitmapOr, hb, exprDenotes]
    · simp
    all_goals assumption

theorem exprToBitmapHelper_yields {item}
    (hflavor : ∀ d ∈ itemRefs item, (db.datum d).flavor = flavor)
    (h : ∀ d ∈ itemRefs item, Computes db rank env k (env d) (toBitmap d)) :
    Computes db rank env k (itemDenotes (db.num flavor) env item)
      (exprToBitmapHelper db flavor toBitmap item) := by
  intro st hgood
  induction item using SetItem.inductionOn generalizing st with
  | op o => exact rfl
  | datum d =>
    refine (h d (by simp [itemRefs]) st hgood).congr fun x => ?_
    rw [itemDenotes]
  | list l ih =>
    refine (exprToBitmap_yields_items hres henv hflavor (fun item hitem => ?_) st hgood).congr
      fun x => ?_
    · have hsub : ∀ d ∈ itemRefs item, d ∈ itemRefs (.list l) := fun d hd =>
        mem_exprRefs.mpr ⟨item, hitem, hd⟩
      exact ih item hitem (fun d hd => hflavor d (hsub d hd)) fun d hd => h d (hsub d hd)
    · rw [itemDenotes]

theorem exprToBitmap_yields (hflavor : ∀ d ∈ exprRefs expr, (db.datum d).flavor = flavor)
    (h : ∀ d ∈ exprRefs expr, Computes db rank env k (env d) (toBitmap d)) :
    Computes db rank env k (exprDenotes (db.num flavor) env expr)
      (exprToBitmap db flavor toBitmap expr) := by
  refine exprToBitmap_yields_items hres henv hflavor fun item hitem => ?_
  have hsub : ∀ d ∈ itemRefs item, d ∈ exprRefs expr := fun d hd =>
      mem_exprRefs.mpr ⟨item, hitem, hd⟩
  exact exprToBitmapHelper_yields hres henv (fun d hd => hflavor d (hsub d hd))
    fun d hd => h d (hsub d hd)

end Expressions

section Data

variable {flavor : SetFlavor} {toBitmap : Nat → SetState → SetEval}

/-- The loop fills the bitmap of `a`, whose rank is not below `k`, and slots below `k`. -/
theorem exprListToBitmap_ends {a} (ha : k ≤ rank a) {exprList} (h : ∀ expr ∈ exprList,
      Computes db rank env k (exprDenotes (db.num flavor) env expr)
        (exprToBitmap db flavor toBitmap expr))
    (hgood : Good db rank env k st) {b} (hb : st.bitmap a = some b) : Ends (fun st' =>
      (∃ b', st'.bitmap a = some b' ∧
        ∀ x, x ∈ b' ↔ x ∈ b ∨ ∃ expr ∈ exprList, exprDenotes (db.num flavor) env expr x) ∧
      (∀ a' ≠ a, Fills (BitmapRight rank env k a') (st.bitmap a') (st'.bitmap a')) ∧
      ∀ c, Fills (CatsRight db rank env k c) (st.evaluated c) (st'.evaluated c))
      (exprListToBitmap db flavor toBitmap a exprList st) := by
  induction exprList generalizing st b with
  | nil => exact ⟨⟨b, hb, by simp⟩, fun _ _ => .inl rfl, fun _ => .inl rfl⟩
  | cons expr exprList ih =>
    refine Lib.Ends.bind (h expr mem_cons_self st hgood) fun r hr => ?_
    obtain ⟨b1, st1⟩ := r
    obtain ⟨hb1, hstep⟩ := hr
    have hsame : st1.bitmap a = some b := by
      rcases hstep.bitmap a with heq | ⟨hnone, _⟩
      · exact heq.trans hb
      · cases hnone.symm.trans hb
    simp only [hsame, Option.getD_some]
    refine (ih (fun e he => h e (mem_cons_of_mem expr he)) ((hgood.step hstep).update_bitmap ha)
      (update_self ..)).mono fun st' hst' => ?_
    obtain ⟨⟨b', hb', hmem⟩, hbitmap, hevaluated⟩ := hst'
    refine ⟨⟨b', hb', fun x => ?_⟩, fun a' ha' => ?_, fun c =>
      (hstep.evaluated c).trans (hevaluated c)⟩
    · rw [hmem, mem_ebitmapUnion, hb1, exists_mem_cons_iff, or_assoc]
    · have hrest := hbitmap a' ha'
      simp only [update_of_ne ha'] at hrest
      exact (hstep.bitmap a').trans hrest

theorem attributeToBitmap_yields (henv : db.Denotation env) {d exprList}
    (hd : db.datum d = .attrib flavor exprList) (hk : rank d < k) (h : ∀ expr ∈ exprList,
      Computes db rank env (rank d) (exprDenotes (db.num flavor) env expr)
        (exprToBitmap db flavor toBitmap expr)) :
    Computes db rank env k (env d) (attributeToBitmap db flavor toBitmap d exprList) := by
  intro st hgood
  have hdenotes : ∀ x, env d x ↔ ∃ expr ∈ exprList, exprDenotes (db.num flavor) env expr x :=
    fun x => by
    rw [henv d x, SetDb.DatumDenotes, hd]
  have heval :
      Ends (fun st' => (∃ b, st'.bitmap d = some b ∧ ∀ x, x ∈ b ↔ env d x) ∧
        Step db rank env k st st')
      (evaluateIfNull db flavor toBitmap d exprList st) := by
    unfold evaluateIfNull
    cases hb : st.bitmap d with
    | some b => exact ⟨⟨b, hb, (hgood.bitmap d b hk hb).2⟩, Step.refl k st⟩
    | none =>
      refine (exprListToBitmap_ends (Nat.le_refl _) h
        ((hgood.mono (Nat.le_of_lt hk)).update_bitmap (Nat.le_refl _))
        (update_self ..)).mono fun st' hst' => ?_
      obtain ⟨⟨b, hb', hmem⟩, hbitmap, hevaluated⟩ := hst'
      have hright : ∀ x, x ∈ b ↔ env d x := fun x => by rw [hmem, hdenotes]; simp
      refine ⟨⟨b, hb', hright⟩, fun a => ?_, fun c => ?_⟩
      · by_cases ha : a = d
        · exact ha ▸ .inr ⟨hb, b, hb', hk, hright⟩
        · have hfills := hbitmap a ha
          simp only [update_of_ne ha] at hfills
          exact hfills.mono fun _ hb => ⟨hb.1.trans hk, hb.2⟩
      · exact (hevaluated c).mono fun _ hc => ⟨hc.1.trans hk, hc.2⟩
  refine heval.bind fun st' hst' => ?_
  obtain ⟨⟨b, hb, hright⟩, hstep⟩ := hst'
  refine ⟨fun x => ?_, hstep⟩
  simp [hb, hright]

theorem itemsDenote_of_isList {max expr} (hlist : verifyIsList db expr = true) (x : Nat) :
    itemsDenote max env expr x ↔ ∃ d ∈ exprData expr, env d x := by
  fun_induction verifyIsList db expr with
  | case1 => simp [itemsDenote, exprData]
  | case2 => cases hlist
  | case3 d list _ ih => simp [itemsDenote, itemDenotes, ih hlist, exprData]
  | case4 => cases hlist

theorem exprDenotes_of_isList {max expr} (hlist : verifyIsList db expr = true) (x : Nat) :
    exprDenotes max env expr x ↔ ∃ d ∈ exprData expr, env d x := by
  rw [← itemsDenote_of_isList hlist]
  cases expr with
  | nil => simp [itemsDenote, exprDenotes]
  | cons item list =>
    cases item with
    | op o => cases hlist
    | list l => cases hlist
    | datum d =>
      rfl

theorem exprData_of_isList {expr} (hlist : verifyIsList db expr = true) {d}
    (hd : d ∈ exprData expr) : d ∈ exprRefs expr ∧ ∀ e, db.datum d ≠ .catset e := by
  fun_induction verifyIsList db expr with
  | case1 => cases hd
  | case2 => cases hlist
  | case3 d' list hcatset ih =>
    rw [exprData, mem_cons] at hd
    rcases hd with rfl | hd
    · exact ⟨by simp [exprRefs, itemRefs], hcatset⟩
    · exact ⟨by simp [exprRefs, (ih hlist hd).1], (ih hlist hd).2⟩
  | case4 => cases hlist

/-- In a plain list every item is a category. -/
theorem exists_value_of_isList (hres : db.Resolved) (henv : db.Denotation env)
    {c datumExpr} (hc : db.datum c = .catset datumExpr) (hlist : verifyIsList db datumExpr = true)
    (x : Nat) : (∃ d ∈ exprData datumExpr, db.value d = x) ↔ env c x := by
  simp only [henv c x, SetDb.DatumDenotes, hc, exprDenotes_of_isList hlist]
  refine exists_congr fun d => and_congr_right fun hd => ?_
  obtain ⟨hrefs, hcatset⟩ := exprData_of_isList hlist hd
  have hmem : d ∈ db.refs c := by rwa [SetDb.refs, hc]
  have hflavor := hres.refs c d hmem
  rw [henv d x, SetDb.DatumDenotes]
  cases hdatum : db.datum d with
  | plain flavor value => simp [SetDb.value, hdatum, eq_comm]
  | aliasOf flavor actual => exact absurd hdatum (hres.noAlias c d hmem flavor actual)
  | attrib flavor exprList =>
    rw [hdatum, hc] at hflavor
    exact absurd hflavor (hres.attribs d flavor exprList hdatum)
  | catset e => exact absurd hdatum (hcatset e)

end Data

variable (hres : db.Resolved) (henv : db.Denotation env)
    (hrank : ∀ d, ∀ d' ∈ db.refs d, rank d' < rank d)
include hres henv hrank

theorem catsetToBitmap_yields {toBitmap c datumExpr} (hc : db.datum c = .catset datumExpr)
    (hk : rank c < k) (h : Computes db rank env (rank c) (exprDenotes (db.num .cat) env datumExpr)
      (exprToBitmap db .cat toBitmap datumExpr)) :
    Computes db rank env k (env c) (catToBitmap db toBitmap c) := by
  intro st hgood
  have hdenotes : ∀ x, env c x ↔ exprDenotes (db.num .cat) env datumExpr x := fun x => by
    rw [henv c x, SetDb.DatumDenotes, hc]
  have heval :
      Ends (fun st' => (∀ x, (∃ cat ∈ currentCats c datumExpr st', db.value cat = x) ↔ env c x) ∧
      Step db rank env k st st') (evaluateIfFalse db toBitmap c datumExpr st) := by
    unfold evaluateIfFalse currentCats
    cases hcats : st.evaluated c with
    | some cats =>
      refine ⟨?_, Step.refl k st⟩
      rw [hcats]
      exact (hgood.evaluated c cats hk hcats).2
    | none =>
      simp only [evaluateCatExpression, hcats, Option.isSome_none, Bool.false_eq_true, if_false]
      by_cases hlist : verifyIsList db datumExpr = true
      · rw [if_pos hlist]
        refine ⟨?_, Step.refl k st⟩
        rw [hcats]
        exact exists_value_of_isList hres henv hc hlist
      · rw [if_neg hlist]
        refine Lib.Ends.bind (h st (hgood.mono (Nat.le_of_lt hk))) fun r hr => ?_
        obtain ⟨bitmap, st'⟩ := r
        obtain ⟨hbitmap, hstep⟩ := hr
        -- the values of the expression are those of ordered categories
        have hnew : ∀ x, (∃ cat ∈ db.catorder.filter fun cat => ebitmapGetBit bitmap (db.value cat),
            db.value cat = x) ↔
            env c x := by
          intro x
          simp only [mem_filter, ebitmapGetBit_eq_true, hbitmap, ← hdenotes]
          constructor
          · rintro ⟨cat, ⟨_, hcat⟩, rfl⟩
            exact hcat
          · intro hx
            have hlt := henv.lt hres hrank hx
            rw [hc] at hlt
            obtain ⟨cat, hcat, hdatum⟩ := hres.catorder x hlt
            have hvalue : db.value cat = x := by rw [SetDb.value, hdatum]
            exact ⟨cat, ⟨hcat, hvalue.symm ▸ hx⟩, hvalue⟩
        refine ⟨?_, fun a => ((hstep.mono (Nat.le_of_lt hk)).bitmap a), fun c' => ?_⟩
        · simpa using hnew
        · by_cases hc' : c' = c
          · subst hc'
            exact .inr ⟨hcats, _, update_self .., hk, hnew⟩
          · simp only [update_of_ne hc']
            exact (hstep.mono (Nat.le_of_lt hk)).evaluated c'
  unfold catToBitmap
  simp only [hc]
  refine heval.bind fun st' hst' => ?_
  refine (setValues_ends ∅ _).bind fun b hb => ⟨fun x => ?_, hst'.2⟩
  rw [hb, ← hst'.1 x]
  simp

theorem datumToBitmap_yields {fuel : Nat} (hfuel : rank d < fuel) (hk : rank d < k) :
    Computes db rank env k (env d) (datumToBitmap db fuel (db.datum d).flavor d) := by
  intro st hgood
  induction fuel generalizing d k st with
  | zero => omega
  | succ fuel ih =>
    -- an expression of `d` has data of the flavor of `d` and below `d`
    have hexpr : ∀ expr, (∀ d' ∈ exprRefs expr, d' ∈ db.refs d) →
        Computes db rank env (rank d) (exprDenotes (db.num (db.datum d).flavor) env expr)
          (exprToBitmap db (db.datum d).flavor (datumToBitmap db fuel (db.datum d).flavor)
            expr) := by
      intro expr hsub
      refine exprToBitmap_yields hres henv (fun d' hd' => hres.refs d d' (hsub d' hd'))
        fun d' hd' => ?_
      have hlt := hrank d d' (hsub d' hd')
      rw [← hres.refs d d' (hsub d' hd')]
      exact ih (by omega) hlt
    have hdenotes : ∀ x, env d x ↔ db.DatumDenotes env d x := henv d
    unfold SetDb.DatumDenotes at hdenotes
    cases hd : db.datum d with
    | plain flavor value =>
      simp only [hd] at hdenotes
      have heq : datumToBitmap db (fuel + 1) flavor d st = valueToBitmap value st := by
        cases flavor <;>
          simp [datumToBitmap, typeToBitmap, roleToBitmap, userToBitmap, catToBitmap, SetDb.value,
            hd]
      rw [SetDatum.flavor, heq]
      exact (valueToBitmap_yields value).congr fun x => (hdenotes x).symm
    | aliasOf flavor actual =>
      simp only [hd] at hdenotes
      have heq : datumToBitmap db (fuel + 1) flavor d st = valueToBitmap (db.value actual) st := by
        rcases hres.aliases d flavor actual hd with rfl | rfl
        · simp [datumToBitmap, typeToBitmap, hd]
        · simp [datumToBitmap, catToBitmap, hd]
      rw [SetDatum.flavor, heq]
      exact (valueToBitmap_yields (db.value actual)).congr fun x => (hdenotes x).symm
    | attrib flavor exprList =>
      simp only [hd, SetDatum.flavor] at hexpr ⊢
      have heq : datumToBitmap db (fuel + 1) flavor d st =
          attributeToBitmap db flavor (datumToBitmap db fuel flavor) d exprList st := by
        have hne := hres.attribs d flavor exprList hd
        cases flavor with
        | type => simp [datumToBitmap, typeToBitmap, hd]
        | role => simp [datumToBitmap, roleToBitmap, hd]
        | user => simp [datumToBitmap, userToBitmap, hd]
        | cat => exact absurd rfl hne
      rw [heq]
      refine attributeToBitmap_yields henv hd hk (fun expr hmem => hexpr expr fun d' hd' => ?_)
        st hgood
      rw [SetDb.refs, hd]
      exact mem_flatMap.mpr ⟨expr, hmem, hd'⟩
    | catset datumExpr =>
      simp only [hd, SetDatum.flavor] at hexpr ⊢
      refine catsetToBitmap_yields hres henv hrank hd hk (hexpr datumExpr fun d' hd' => ?_) st hgood
      rwa [SetDb.refs, hd]

theorem dataToBitmaps_ends {fuel ds} (hfuel : ∀ d ∈ ds, rank d < fuel)
    (hgood : Good db rank env fuel st) :
    Ends (fun (bs, st') => List.Forall₂ (fun d b => ∀ x, x ∈ b ↔ env d x) ds bs ∧
      Step db rank env fuel st st') (dataToBitmaps db fuel ds st) := by
  induction ds generalizing st with
  | nil => exact ⟨.nil, Step.refl fuel st⟩
  | cons d ds ih =>
    have hd := hfuel d mem_cons_self
    refine Lib.Ends.bind (datumToBitmap_yields hres henv hrank hd hd st hgood) fun r hr => ?_
    obtain ⟨hb, hstep⟩ := hr
    refine (ih (fun d' hd' => hfuel d' (mem_cons_of_mem d hd')) (hgood.step hstep)).bind fun r hr =>
      ?_
    exact ⟨.cons hb hr.1, hstep.trans hr.2⟩

end Evaluation

/-! ## Results -/

/-- Whatever data are evaluated one after the other, the evaluation terminates, and on success every
bitmap that it returns or keeps is the denotation of its datum. -/
def SetDb.EvaluatedAsSets (db : SetDb) : Prop :=
  ∃ env, db.Denotation env ∧ ∀ ds, ∃ n, ∀ fuel, n ≤ fuel →
    Ends (fun (bs, st) => List.Forall₂ (fun d b => ∀ x, x ∈ b ↔ env d x) ds bs ∧
      ∀ a b, st.bitmap a = some b → ∀ x, x ∈ b ↔ env a x) (dataToBitmaps db fuel ds {})

theorem good_init (db : SetDb) (rank : Nat → Nat) (env : Nat → Nat → Prop) (k : Nat) :
    Good db rank env k {} :=
  ⟨fun _ _ _ h => (Option.some_ne_none _ h.symm).elim, fun _ _ _ h =>
    (Option.some_ne_none _ h.symm).elim⟩

/-- Set expressions are evaluated as sets, whatever is in memory next to the data without a
value. -/
theorem evaluatedAsSets (db : SetDb) (hres : db.Resolved) (hself : db.NoSelfReference) :
    db.EvaluatedAsSets := by
  obtain ⟨rank, hrank⟩ := hself.exists_rank
  obtain ⟨env, henv⟩ := SetDb.exists_denotation hrank
  have hbound : ∀ ds : List Nat, ∃ n, ∀ d ∈ ds, rank d < n := by
    intro ds
    induction ds with
    | nil => exact ⟨0, by simp⟩
    | cons d ds ih =>
      obtain ⟨n, hn⟩ := ih
      refine ⟨max n (rank d + 1), forall_mem_cons.mpr ⟨by omega, fun d' hd' => ?_⟩⟩
      have hlt := hn d' hd'
      omega
  refine ⟨env, henv, fun ds => ?_⟩
  obtain ⟨n, hn⟩ := hbound ds
  refine ⟨n, fun fuel hfuel => ?_⟩
  have hlt : ∀ d ∈ ds, rank d < fuel := fun d hd => Nat.lt_of_lt_of_le (hn d hd) hfuel
  refine (dataToBitmaps_ends hres henv hrank hlt (good_init ..)).mono fun r hr => ?_
  refine ⟨hr.1, fun a b hb => ?_⟩
  exact ((hr.2.bitmap a).right_of_eq_some (fun b hb => by cases hb) hb).2

/-- Two categories, an alias of the first, the complement of the first, and what is in exactly one
of the last and the second; other numbers are types. -/
def catsetDb : SetDb where
  datum
    | 0 => .plain .cat 0
    | 1 => .plain .cat 1
    | 2 => .aliasOf .cat 0
    | 3 => .catset [.op .not, .datum 0]
    | 4 => .catset [.op .xor, .datum 3, .list [.datum 0, .datum 1]]
    | _ => .plain .type 0
  num _ := 2
  catorder := [0, 1]
  -- half of the address of a category
  stray _ := 0x5555

theorem catsetDb_refs {d d' : Nat} (h : d' ∈ catsetDb.refs d) : (d = 3 ∨ d = 4) ∧
    (d' = 0 ∨ d' = 1 ∨ d' = 3) := by
  rcases d with _ | _ | _ | _ | _ | d
  case succ.succ.succ.zero =>
    exact ⟨.inl rfl, .inl (by simpa [SetDb.refs, catsetDb, exprRefs, itemRefs] using h)⟩
  case succ.succ.succ.succ.zero =>
    have hrefs : d' = 3 ∨ d' = 0 ∨ d' = 1 := by
      simpa [SetDb.refs, catsetDb, exprRefs, itemRefs] using h
    exact ⟨.inr rfl, by omega⟩
  all_goals cases h

theorem catsetDb_resolved : catsetDb.Resolved where
  refs d d' hd' := by
    obtain ⟨rfl | rfl, rfl | rfl | rfl⟩ := catsetDb_refs hd' <;> rfl
  noAlias d d' hd' := by
    obtain ⟨-, rfl | rfl | rfl⟩ := catsetDb_refs hd' <;> exact nofun
  value d flavor v hd := by
    rcases d with _ | _ | _ | _ | _ | d
    all_goals cases hd
    all_goals simp [catsetDb]
  actual d flavor a hd := by
    rcases d with _ | _ | _ | _ | _ | d
    all_goals cases hd
    exact ⟨0, rfl⟩
  aliases d flavor a hd := by
    rcases d with _ | _ | _ | _ | _ | d
    all_goals cases hd
    exact .inr rfl
  attribs d flavor exprList hd := by
    rcases d with _ | _ | _ | _ | _ | d
    all_goals cases hd
  bits flavor := by
    show 2 < ebitmapLimit
    decide
  catorder v hv := by
    have hv' : v < 2 := hv
    obtain rfl | rfl : v = 0 ∨ v = 1 := by omega
    · exact ⟨0, mem_cons_self, rfl⟩
    · exact ⟨1, mem_cons_of_mem 0 mem_cons_self, rfl⟩

theorem evaluatedAsSets_catsets : catsetDb.EvaluatedAsSets := by
  refine evaluatedAsSets catsetDb catsetDb_resolved fun d => ⟨3, ?_⟩
  rcases d with _ | _ | _ | _ | _ | d
  all_goals rfl

end SELinux.Cil
