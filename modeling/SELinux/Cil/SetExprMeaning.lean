import SELinux.Cil.SetExpr

/-! What set expressions denote. An attribute and a category set denote the union of their
expressions, in which their names stand for them; if `cil_verify_no_self_reference` finds no cycle
this determines a denotation. -/
namespace SELinux.Cil

open Sepol List

/-! ## References -/

/-- Induction on items, with all items of a list at once. -/
theorem SetItem.inductionOn {P : SetItem → Prop} (op : ∀ o, P (.op o)) (datum : ∀ d, P (.datum d))
    (list : ∀ l, (∀ i ∈ l, P i) → P (.list l)) (item : SetItem) : P item :=
  @SetItem.rec P (fun l => ∀ i ∈ l, P i) op datum list (by simp)
    (fun _ _ hhead htail => by simpa using ⟨hhead, htail⟩) item

mutual

/-- The data that occur in an item. -/
def itemRefs : SetItem → List Nat
  | .datum d => [d]
  | .list l => exprRefs l
  | .op _ => []

def exprRefs : SetExpr → List Nat
  | [] => []
  | item :: expr => itemRefs item ++ exprRefs expr

end

theorem mem_exprRefs {expr d} : d ∈ exprRefs expr ↔ ∃ item ∈ expr, d ∈ itemRefs item := by
  induction expr with
  | nil => simp [exprRefs]
  | cons item expr ih => simp [exprRefs, ih]

/-- What an attribute or a category set refers to. -/
def SetDb.refs (db : SetDb) (d : Nat) : List Nat :=
  match db.datum d with
  | .attrib _ exprList => exprList.flatMap exprRefs
  | .catset datumExpr => exprRefs datumExpr
  | _ => []

theorem verifyExpr_eq_ok_iff {verify expr}
    (h : ∀ item ∈ expr, verifyItem verify item = .ok () ↔ ∀ d ∈ itemRefs item, verify d = .ok ()) :
    verifyNoSelfReferenceInExpr verify expr = .ok () ↔ ∀ d ∈ exprRefs expr, verify d = .ok () := by
  induction expr with
  | nil => simp [verifyNoSelfReferenceInExpr, exprRefs]
  | cons item expr ih =>
    have hhead := h item mem_cons_self
    have htail := ih fun i hi => h i (mem_cons_of_mem item hi)
    simp only [exprRefs, forall_mem_append, ← hhead, ← htail, verifyNoSelfReferenceInExpr]
    cases verifyItem verify item with
    | error e => simp [bind, Except.bind]
    | ok u => simp [bind, Except.bind]

theorem verifyItem_eq_ok_iff (verify : Nat → Except SetError Unit) (item : SetItem) :
    verifyItem verify item = .ok () ↔ ∀ d ∈ itemRefs item, verify d = .ok () := by
  induction item using SetItem.inductionOn with
  | op o => simp [verifyItem, itemRefs]
  | datum d => simp [verifyItem, itemRefs]
  | list l ih => simpa only [verifyItem, itemRefs] using verifyExpr_eq_ok_iff ih

theorem verifyNoSelfReference_succ (db : SetDb) (fuel d : Nat) (stack : List Nat) :
    verifyNoSelfReference db (fuel + 1) d stack = .ok () ↔
      d ∉ stack ∧ ∀ d' ∈ db.refs d, verifyNoSelfReference db fuel d' (d :: stack) = .ok () := by
  rw [verifyNoSelfReference, SetDb.refs]
  by_cases hd : d ∈ stack
  · simp [hd]
  · rw [if_neg hd, and_iff_right hd]
    cases db.datum d with
    | plain flavor value => simp
    | aliasOf flavor actual => simp
    | catset datumExpr => exact verifyExpr_eq_ok_iff fun item _ => verifyItem_eq_ok_iff _ item
    | attrib flavor exprList =>
      rw [verifyExpr_eq_ok_iff fun item _ => verifyItem_eq_ok_iff _ item]
      simp [mem_exprRefs, itemRefs]

theorem verifyNoSelfReference_mono {db fuel d stack stack'} (hsub : stack' ⊆ stack)
    (h : verifyNoSelfReference db fuel d stack = .ok ()) :
    verifyNoSelfReference db fuel d stack' = .ok () := by
  induction fuel generalizing d stack stack' with
  | zero => cases h
  | succ fuel ih =>
    rw [verifyNoSelfReference_succ] at h ⊢
    exact ⟨fun hd => h.1 (hsub hd), fun d' hd' => ih (cons_subset_cons d hsub) (h.2 d' hd')⟩

/-- `cil_verify_no_self_reference` succeeds from every attribute and category set. -/
def SetDb.NoSelfReference (db : SetDb) : Prop :=
  ∀ d, ∃ fuel, verifyNoSelfReference db fuel d [] = .ok ()

variable {db : SetDb} {item : SetItem} {d x : Nat}

/-- References go down. -/
theorem SetDb.NoSelfReference.exists_rank (h : db.NoSelfReference) :
    ∃ rank : Nat → Nat, ∀ d, ∀ d' ∈ db.refs d, rank d' < rank d := by
  classical
  refine ⟨fun d => Nat.find (h d), fun d d' hd' => ?_⟩
  have hd := Nat.find_spec (h d)
  show Nat.find (h d') < Nat.find (h d)
  cases hrank : Nat.find (h d) with
  | zero =>
    rw [hrank] at hd
    cases hd
  | succ fuel =>
    rw [hrank, verifyNoSelfReference_succ] at hd
    have hverify := verifyNoSelfReference_mono (nil_subset _) (hd.2 d' hd')
    exact Nat.lt_succ_of_le (Nat.find_min' (h d') hverify)

/-! ## Meaning -/

/-- The set operations; the operators that do not have two operands denote nothing here. -/
def SetOp.Combines : SetOp → Prop → Prop → Prop
  | .or, p, q => p ∨ q
  | .and, p, q => p ∧ q
  | .xor, p, q => Xor p q
  | _, _, _ => False

section Meaning

variable (max : Nat) (env : Nat → Nat → Prop)

mutual

/-- What an item denotes if `env` says what data denote. -/
def itemDenotes : SetItem → Nat → Prop
  | .datum d, x => env d x
  | .list l, x => exprDenotes l x
  | .op _, _ => False
termination_by structural item => item

/-- What an expression denotes, among the values below `max`. -/
def exprDenotes : SetExpr → Nat → Prop
  | [], _ => False
  | .op .all :: _, x => x < max
  | .op .range :: .datum d1 :: .datum d2 :: _, x => (∃ u, env d1 u ∧ u ≤ x) ∧ ∃ v, env d2 v ∧ x ≤ v
  | .op .range :: _, _ => False
  | .op .not :: a :: _, x => x < max ∧ ¬ itemDenotes a x
  | .op op :: a :: b :: _, x => op.Combines (itemDenotes a x) (itemDenotes b x)
  | .op _ :: _, _ => False
  | curr :: rest, x => itemDenotes curr x ∨ itemsDenote rest x
termination_by structural expr => expr

def itemsDenote : SetExpr → Nat → Prop
  | [], _ => False
  | curr :: rest, x => itemDenotes curr x ∨ itemsDenote rest x
termination_by structural expr => expr

end

end Meaning

/-- What a datum denotes: its value, what the alias stands for, or the union of its expressions. -/
def SetDb.DatumDenotes (db : SetDb) (env : Nat → Nat → Prop) (d x : Nat) : Prop :=
  match db.datum d with
  | .plain _ value => x = value
  | .aliasOf _ actual => x = db.value actual
  | .attrib flavor exprList => ∃ expr ∈ exprList, exprDenotes (db.num flavor) env expr x
  | .catset datumExpr => exprDenotes (db.num .cat) env datumExpr x

/-- In the denotation of an expression the name of an attribute denotes what the attribute
denotes. -/
def SetDb.Denotation (db : SetDb) (env : Nat → Nat → Prop) : Prop :=
  ∀ d x, env d x ↔ db.DatumDenotes env d x

section Congruence

variable {max : Nat} {env env' : Nat → Nat → Prop}

theorem itemsDenote_congr {expr : SetExpr}
    (h : ∀ item ∈ expr, ∀ x, itemDenotes max env item x ↔ itemDenotes max env' item x)
    (x : Nat) : itemsDenote max env expr x ↔ itemsDenote max env' expr x := by
  induction expr with
  | nil => rfl
  | cons item expr ih =>
    rw [itemsDenote, itemsDenote, h item mem_cons_self, ih fun i hi =>
      h i (mem_cons_of_mem item hi)]

theorem exprDenotes_congr_items {expr} (hrefs : ∀ d ∈ exprRefs expr, ∀ x, env d x ↔ env' d x)
    (h : ∀ item ∈ expr, ∀ x, itemDenotes max env item x ↔ itemDenotes max env' item x) (x : Nat) :
    exprDenotes max env expr x ↔ exprDenotes max env' expr x := by
  fun_cases exprDenotes max env expr x with
  | case1 => simp [exprDenotes]
  | case2 tail => simp [exprDenotes]
  | case3 d1 d2 tail =>
    have h1 := hrefs d1 (by simp [exprRefs, itemRefs])
    have h2 := hrefs d2 (by simp [exprRefs, itemRefs])
    simp only [exprDenotes, h1, h2]
  | case4 tail => rw [exprDenotes]; assumption
  | case5 a tail => simp [exprDenotes, h a]
  | case6 op a b tail => rw [exprDenotes, h a (by simp), h b (by simp)] <;> assumption
  | case7 op tail => rw [exprDenotes] <;> assumption
  | case8 curr rest =>
    rw [exprDenotes, h curr (by simp), itemsDenote_congr fun item hitem =>
      h item (mem_cons_of_mem curr hitem)] <;>
      assumption

theorem itemDenotes_congr (hrefs : ∀ d ∈ itemRefs item, ∀ x, env d x ↔ env' d x) (x : Nat) :
    itemDenotes max env item x ↔ itemDenotes max env' item x := by
  induction item using SetItem.inductionOn generalizing x with
  | op o => simp [itemDenotes]
  | datum d => simpa [itemDenotes] using hrefs d (by simp [itemRefs]) x
  | list l ih =>
    exact exprDenotes_congr_items hrefs
      (fun item hitem x =>
        ih item hitem (fun d hd => hrefs d (mem_exprRefs.mpr ⟨item, hitem, hd⟩)) x) x

theorem exprDenotes_congr {expr} (hrefs : ∀ d ∈ exprRefs expr, ∀ x, env d x ↔ env' d x) (x : Nat) :
    exprDenotes max env expr x ↔ exprDenotes max env' expr x :=
  exprDenotes_congr_items hrefs
    (fun item hitem => itemDenotes_congr fun d hd => hrefs d (mem_exprRefs.mpr ⟨item, hitem, hd⟩)) x

theorem SetDb.datumDenotes_congr (hrefs : ∀ d' ∈ db.refs d, ∀ x, env d' x ↔ env' d' x) (x : Nat) :
    db.DatumDenotes env d x ↔ db.DatumDenotes env' d x := by
  unfold SetDb.DatumDenotes
  unfold SetDb.refs at hrefs
  cases hd : db.datum d with
  | plain flavor value => rfl
  | aliasOf flavor actual => rfl
  | catset datumExpr =>
    simp only [hd] at hrefs
    exact exprDenotes_congr hrefs x
  | attrib flavor exprList =>
    simp only [hd, mem_flatMap] at hrefs
    exact exists_congr fun expr => and_congr_right fun hexpr =>
      exprDenotes_congr (fun d' hd' => hrefs d' ⟨expr, hexpr, hd'⟩) x

end Congruence

/-- The denotation after some rounds of looking names up. -/
def SetDb.roundDenotes (db : SetDb) : Nat → Nat → Nat → Prop
  | 0 => fun _ _ => False
  | n + 1 => db.DatumDenotes (db.roundDenotes n)

/-- Without self-references the denotation is determined. -/
theorem SetDb.exists_denotation {rank : Nat → Nat}
    (hrank : ∀ d, ∀ d' ∈ db.refs d, rank d' < rank d) : ∃ env, db.Denotation env := by
  have hstable : ∀ k d, rank d < k → ∀ n, rank d < n → ∀ x, db.roundDenotes n d x ↔
      db.roundDenotes (rank d + 1) d x := by
    intro k
    induction k with
    | zero =>
      omega
    | succ k ih =>
      intro d hd n hn x
      obtain ⟨m, rfl⟩ := Nat.exists_eq_add_of_lt hn
      refine SetDb.datumDenotes_congr (fun d' hd' x => ?_) x
      have hlt := hrank d d' hd'
      rw [ih d' (by omega) _ (by omega), ih d' (by omega) (rank d) hlt]
  refine ⟨fun d => db.roundDenotes (rank d + 1) d, fun d x =>
    SetDb.datumDenotes_congr (fun d' hd' x => ?_) x⟩
  exact hstable _ d' (Nat.lt_succ_self _) _ (hrank d d' hd') x

/-! ## Bounds -/

/-- The data are used as the resolver leaves them: a name in an expression has the flavor of the
expression and is no alias, since `cil_resolve_name` returns what an alias stands for; an alias
leads to a value of its flavor, values are below the number of their flavor, which bitmaps can hold,
and all categories are ordered. -/
structure SetDb.Resolved (db : SetDb) : Prop where
  refs : ∀ d, ∀ d' ∈ db.refs d, (db.datum d').flavor = (db.datum d).flavor
  noAlias : ∀ d, ∀ d' ∈ db.refs d, ∀ flavor a, db.datum d' ≠ .aliasOf flavor a
  value : ∀ d flavor v, db.datum d = .plain flavor v → v < db.num flavor
  actual : ∀ d flavor a, db.datum d = .aliasOf flavor a → ∃ v, db.datum a = .plain flavor v
  aliases : ∀ d flavor a, db.datum d = .aliasOf flavor a → flavor = .type ∨ flavor = .cat
  attribs : ∀ d flavor es, db.datum d = .attrib flavor es → flavor ≠ .cat
  bits : ∀ flavor, db.num flavor < ebitmapLimit
  catorder : ∀ v < db.num .cat, ∃ cat ∈ db.catorder, db.datum cat = .plain .cat v

section Bounds

variable {rank : Nat → Nat} {env : Nat → Nat → Prop}

theorem itemsDenote_lt {max expr} (h : ∀ item ∈ expr, ∀ x, itemDenotes max env item x → x < max) {x}
    (hx : itemsDenote max env expr x) : x < max := by
  induction expr with
  | nil => simp [itemsDenote] at hx
  | cons item expr ih =>
    rcases hx with hx | hx
    · exact h item mem_cons_self x hx
    · exact ih (fun i hi => h i (mem_cons_of_mem item hi)) hx

theorem SetOp.Combines.either {op : SetOp} {p q : Prop} (h : op.Combines p q) : p ∨ q := by
  cases op with
  | and => exact .inl h.1
  | or => exact h
  | xor => exact h.imp And.left And.left
  | not => exact h.elim
  | all => exact h.elim
  | range => exact h.elim

theorem exprDenotes_lt_items {max expr} (hrefs : ∀ d ∈ exprRefs expr, ∀ x, env d x → x < max)
    (h : ∀ item ∈ expr, ∀ x, itemDenotes max env item x → x < max) {x}
    (hx : exprDenotes max env expr x) : x < max := by
  fun_cases exprDenotes max env expr x with
  | case1 => simp [exprDenotes] at hx
  | case2 tail => simpa [exprDenotes] using hx
  | case3 d1 d2 tail =>
    obtain ⟨-, v, hv, hle⟩ := hx
    exact Nat.lt_of_le_of_lt hle (hrefs d2 (by simp [exprRefs, itemRefs]) v hv)
  | case4 tail =>
    rw [exprDenotes] at hx
    · exact hx.elim
    · assumption
  | case5 a tail =>
    exact hx.1
  | case6 op a b tail =>
    rw [exprDenotes] at hx
    · exact hx.either.elim (h a (by simp) x) (h b (by simp) x)
    all_goals assumption
  | case7 op tail =>
    rw [exprDenotes] at hx
    · exact hx.elim
    all_goals assumption
  | case8 curr rest =>
    rw [exprDenotes] at hx
    · exact hx.elim (h curr (by simp) x)
        (itemsDenote_lt fun item hitem => h item (mem_cons_of_mem curr hitem))
    all_goals assumption

theorem itemDenotes_lt {max : Nat} (hrefs : ∀ d ∈ itemRefs item, ∀ x, env d x → x < max)
    (hx : itemDenotes max env item x) : x < max := by
  induction item using SetItem.inductionOn generalizing x with
  | op o => simp [itemDenotes] at hx
  | datum d => exact hrefs d (by simp [itemRefs]) x (by simpa [itemDenotes] using hx)
  | list l ih =>
    refine exprDenotes_lt_items hrefs (fun item hitem x => ih item hitem fun d hd => ?_) hx
    exact hrefs d (mem_exprRefs.mpr ⟨item, hitem, hd⟩)

theorem SetDb.Denotation.lt (hres : db.Resolved) (henv : db.Denotation env)
    (hrank : ∀ d, ∀ d' ∈ db.refs d, rank d' < rank d) (hx : env d x) :
      x < db.num (db.datum d).flavor := by
  induction hn : rank d using Nat.strongRecOn generalizing d x with
  | ind n ih =>
    have hrefs : ∀ d' ∈ db.refs d, ∀ x, env d' x → x < db.num (db.datum d).flavor := by
      intro d' hd' y hy
      rw [← hres.refs d d' hd']
      exact ih (rank d') (hn ▸ hrank d d' hd') hy rfl
    have hexpr : ∀ expr, (∀ d' ∈ exprRefs expr, d' ∈ db.refs d) →
        exprDenotes (db.num (db.datum d).flavor) env expr x → x < db.num (db.datum d).flavor := by
      intro expr hsub hx
      refine exprDenotes_lt_items (fun d' hd' => hrefs d' (hsub d' hd')) (fun item hitem y => ?_) hx
      exact itemDenotes_lt fun d' hd' => hrefs d' (hsub d' (mem_exprRefs.mpr ⟨item, hitem, hd'⟩))
    rw [henv d x, SetDb.DatumDenotes] at hx
    cases hd : db.datum d with
    | plain flavor value =>
      simp only [hd] at hx
      exact hx ▸ hres.value d flavor value hd
    | aliasOf flavor actual =>
      obtain ⟨v, hv⟩ := hres.actual d flavor actual hd
      simp only [hd, SetDb.value, hv] at hx
      exact hx ▸ hres.value actual flavor v hv
    | attrib flavor exprList =>
      simp only [hd, SetDatum.flavor, SetDb.refs] at hx hexpr ⊢
      obtain ⟨expr, hexpr_mem, hx⟩ := hx
      exact hexpr expr (fun d' hd' => mem_flatMap.mpr ⟨expr, hexpr_mem, hd'⟩) hx
    | catset datumExpr =>
      simp only [hd, SetDatum.flavor, SetDb.refs] at hx hexpr ⊢
      exact hexpr datumExpr (fun _ hd' => hd') hx

end Bounds

end SELinux.Cil
