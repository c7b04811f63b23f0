import SELinux.Sepol.EbitmapWalk
import SELinux.Sepol.Symbols

/-! Levels as category ranges: `mls_level_to_semantic` (`policydb.c`) writes the categories of a
level as ranges, `mls_semantic_level_expand` (`expand.c`) fills the ranges in. -/
namespace SELinux.Sepol

open List

/-! ## Model -/

/-- `open_cat->high = i`: the open range is the first one of the list. -/
def closeCat (i : Nat) : List (Nat × Nat) → List (Nat × Nat)
  | [] => []
  | (low, _) :: cats => (low, i) :: cats

/-- One round of the loop of `mls_level_to_semantic`: the ranges, and whether the first one
is open. -/
def semanticStep (s : List (Nat × Nat) × Bool) (visit : Nat × Bool) : List (Nat × Nat) × Bool :=
  if visit.2 then
    if s.2 then s else ((visit.1 + 1, 0) :: s.1, true)
  else if !s.2 then s
  else (closeCat visit.1 s.1, false)

/-- The last range ends where the loop ends. -/
def semanticClose (s : List (Nat × Nat) × Bool) (i : Nat) : List (Nat × Nat) :=
  if s.2 then closeCat i s.1 else s.1

def mlsLevelToSemantic (l : MlsLevel) : Option MlsSemanticLevel := do
  let (visits, i) ← l.cat.toT.forEachBit
  some { sens := l.sens, cat := semanticClose (visits.foldl semanticStep ([], false)) i }

section

variable (levdatum : MlsLevel) (cats : List (Nat × Nat))

/-- The loop of `mls_semantic_level_expand` over the categories of a range. -/
def semanticCatExpand : Nat → Nat → Ebitmap → Option Ebitmap
  | 0, _, cat => some cat
  | n + 1, i, cat =>
    if !ebitmapGetBit levdatum.cat i then none
    else do
      let cat ← (ebitmapSetBit cat i true).toOption
      semanticCatExpand n (i + 1) cat

/-- `cat->low - 1` in 32 bits. -/
def firstCat (low : Nat) : Nat := if low = 0 then 2 ^ 32 - 1 else low - 1

/-- The loop over the ranges. -/
def semanticCatsExpand : List (Nat × Nat) → Ebitmap → Option Ebitmap
  | [], cat => some cat
  | (low, high) :: cats, cat =>
    if high < low then none
    else do
      let cat ← semanticCatExpand levdatum (high - firstCat low) (firstCat low) cat
      semanticCatsExpand cats cat

def mlsSemanticLevelExpand (p : FullPolicydb) (sl : MlsSemanticLevel) : Option MlsLevel :=
  if !p.mls then some {}
  -- required, not declared
  else if sl.sens = 0 then some {}
  else if p.mlsDb.levelsNprim < sl.sens then none
  else do
    let name ← p.mlsDb.sensValToName.getD (sl.sens - 1) none
    let levdatum ← p.mlsDb.levels.lookup name
    let cat ← semanticCatsExpand levdatum sl.cat ∅
    some { sens := sl.sens, cat }

/-! ## Ranges as runs -/

/-- The range of a run: the categories from its start to where it was closed. -/
def runRange (r : Lib.Run Nat) : Nat × Nat := (r.first + 1, r.close)

/-- The state of the loop with an open run. -/
def semanticState : Option (Nat × List Nat) → List (Nat × Nat) × Bool
  | none => (cats, false)
  | some (first, _) => ((first + 1, 0) :: cats, true)

theorem semanticStep_true (o : Option (Nat × List Nat)) (x : Nat) :
    semanticStep (semanticState cats o)
      (x, true) = semanticState cats (some (Lib.extendRun o x)) := by
  cases o <;> rfl

theorem semanticStep_false (o : Option (Nat × List Nat)) (x : Nat) :
    semanticStep (semanticState cats o) (x, false) =
      semanticState ((Lib.closeRun o x).map runRange ++ cats) none := by
  cases o <;> rfl

theorem semanticLoop_eq (p : Nat → Bool) (stop : Nat) (l : List Nat) (cats : List (Nat × Nat))
    (o : Option (Nat × List Nat)) :
    semanticClose ((l.map fun x => (x, p x)).foldl semanticStep (semanticState cats o)) stop =
      ((Lib.runs p stop o l).map runRange).reverse ++ cats := by
  induction l generalizing cats o with
  | nil =>
    cases o <;> rfl
  | cons x l ih =>
    rw [map_cons, foldl_cons, Lib.runs]
    cases hx : p x with
    | true => rw [semanticStep_true, ih, if_pos rfl]
    | false =>
      rw [semanticStep_false, ih, if_neg Bool.false_ne_true, map_append, reverse_append,
        append_assoc]
      cases o <;> rfl

/-- The ranges that are written for a category set. -/
def semanticRanges (e : Ebitmap) : List (Nat × Nat) :=
  (e.runs.map runRange).reverse

theorem mlsLevelToSemantic_eq (l : MlsLevel) :
    mlsLevelToSemantic l = some { sens := l.sens, cat := semanticRanges l.cat } := by
  rw [mlsLevelToSemantic, l.cat.forEachBit_toT]
  have h := semanticLoop_eq (ebitmapGetBit l.cat) l.cat.toT.highbit l.cat.walk [] none
  rw [append_nil] at h
  rw [semanticRanges, Ebitmap.runs, ← h]
  rfl

theorem mem_semanticRanges {e : Ebitmap} {c} : c ∈ semanticRanges e ↔
    ∃ r ∈ e.runs, runRange r = c := by
  simp [semanticRanges]

theorem semanticRanges_upwards {e} : ∀ c ∈ semanticRanges e, c.1 ≠ 0 ∧ c.1 ≤ c.2 := by
  intro c hc
  obtain ⟨r, hr, rfl⟩ := mem_semanticRanges.mp hc
  exact ⟨Nat.succ_ne_zero _, e.walk_isWalk.lt_close hr mem_cons_self⟩

theorem semanticRanges_cover {e x} (hx : x ∈ e) :
    ∃ c ∈ semanticRanges e, c.1 ≤ x + 1 ∧ x < c.2 := by
  obtain ⟨r, hr, hmem⟩ := Ebitmap.exists_run hx
  exact ⟨runRange r, mem_semanticRanges.mpr ⟨r, hr, rfl⟩,
    Nat.succ_le_succ (e.walk_isWalk.first_le hr hmem), e.walk_isWalk.lt_close hr hmem⟩

/-- The ranges have nothing but the categories if and only if there is no gap behind a
category. -/
theorem semanticRanges_exact_iff {e : Ebitmap} :
    (∀ c ∈ semanticRanges e, ∀ x, c.1 ≤ x + 1 → x < c.2 → x ∈ e) ↔ ∀ a b, ¬e.Gap a b := by
  have hruns : (∀ c ∈ semanticRanges e, ∀ x, c.1 ≤ x + 1 → x < c.2 → x ∈ e) ↔
      ∀ r ∈ e.runs, ∀ x, r.first ≤ x → x < r.close → ebitmapGetBit e x = true := by
    constructor
    · intro h r hr x hfirst hclose
      exact ebitmapGetBit_eq_true.mpr
        (h (runRange r) (mem_semanticRanges.mpr ⟨r, hr, rfl⟩) x (Nat.succ_le_succ hfirst) hclose)
    · intro h c hc x hfirst hclose
      obtain ⟨r, hr, rfl⟩ := mem_semanticRanges.mp hc
      exact ebitmapGetBit_eq_true.mp (h r hr x (Nat.le_of_succ_le_succ hfirst) hclose)
  rw [hruns, Ebitmap.runs, e.walk_isWalk.intervals_iff]
  constructor
  · intro h a b hgap
    exact (Ebitmap.nextBit_eq_succ_iff hgap.mem).mp (h a (ebitmapGetBit_eq_true.mpr hgap.mem)) b
      hgap
  · intro h a ha
    exact (Ebitmap.nextBit_eq_succ_iff (ebitmapGetBit_eq_true.mp ha)).mpr (h a)

/-! ## Expanding ranges -/

theorem semanticCatExpand_some {levdatum n i cat cat'}
    (h : semanticCatExpand levdatum n i cat = some cat') (x : Nat) :
    x ∈ cat' ↔ x ∈ cat ∨ i ≤ x ∧ x < i + n := by
  induction n generalizing i cat with
  | zero =>
    cases h
    simp
  | succ n ih =>
    rw [semanticCatExpand] at h
    split_ifs at h with hallowed
    obtain ⟨cat1, hset, h⟩ := Option.bind_eq_some_iff.mp h
    cases hbit : ebitmapSetBit cat i true with
    | error e => rw [hbit] at hset; cases hset
    | ok cat2 =>
      rw [hbit] at hset
      cases hset
      have hsplit : i ≤ x ∧ x < i + (n + 1) ↔ x = i ∨ i + 1 ≤ x ∧ x < i + 1 + n := by omega
      rw [ih h, mem_of_ebitmapSetBit_true hbit, hsplit, or_assoc, or_left_comm]

theorem semanticCatExpand_of_allowed {n i : Nat} (cat : Ebitmap)
    (h : ∀ x, i ≤ x → x < i + n → x ∈ levdatum.cat) :
    ∃ cat', semanticCatExpand levdatum n i cat = some cat' := by
  induction n generalizing i cat with
  | zero => exact ⟨cat, rfl⟩
  | succ n ih =>
    have hi := h i (Nat.le_refl i) (by omega)
    obtain ⟨cat', hcat'⟩ := ih (cat.set i (levdatum.cat.bound i hi)) (i := i + 1) fun x _ _ =>
      h x (by omega) (by omega)
    refine ⟨cat', ?_⟩
    rw [semanticCatExpand, if_neg (by simpa using hi), ebitmapSetBit_true (levdatum.cat.bound i hi)]
    exact hcat'

theorem semanticCatsExpand_some {levdatum cats} (hlow : ∀ r ∈ cats, r.1 ≠ 0 ∧ r.1 ≤ r.2) {cat cat'}
    (h : semanticCatsExpand levdatum cats cat = some cat') (x : Nat) :
    x ∈ cat' ↔ x ∈ cat ∨ ∃ r ∈ cats, r.1 ≤ x + 1 ∧ x < r.2 := by
  induction cats generalizing cat with
  | nil =>
    cases h
    simp
  | cons r cats ih =>
    obtain ⟨low, high⟩ := r
    obtain ⟨⟨hr, -⟩, hcats⟩ := forall_mem_cons.mp hlow
    rw [semanticCatsExpand] at h
    split_ifs at h with hle
    have hfirst : firstCat low = low - 1 := if_neg hr
    rw [hfirst] at h
    obtain ⟨cat1, hcat, h⟩ := Option.bind_eq_some_iff.mp h
    rw [ih hcats h, semanticCatExpand_some hcat]
    simp only [mem_cons, exists_eq_or_imp]
    have : low ≠ 0 := hr
    have hrange : low - 1 ≤ x ∧ x < low - 1 + (high - (low - 1)) ↔ low ≤ x + 1 ∧ x < high := by
      omega
    rw [hrange, or_assoc]

theorem semanticCatsExpand_of_allowed {cats}
    (hlow : ∀ r ∈ cats, r.1 ≠ 0 ∧ r.1 ≤ r.2) (cat : Ebitmap)
    (h : ∀ r ∈ cats, ∀ x, r.1 ≤ x + 1 → x < r.2 → x ∈ levdatum.cat) :
    ∃ cat', semanticCatsExpand levdatum cats cat = some cat' := by
  induction cats generalizing cat with
  | nil => exact ⟨cat, rfl⟩
  | cons r cats ih =>
    obtain ⟨low, high⟩ := r
    obtain ⟨⟨hr, hle⟩, hcats⟩ := forall_mem_cons.mp hlow
    obtain ⟨hfirst, hrest⟩ := forall_mem_cons.mp h
    obtain ⟨cat1, hcat1⟩ := semanticCatExpand_of_allowed levdatum (n := high - (low - 1))
      (i := low - 1) cat fun x _ _ => hfirst x (by omega) (by omega)
    obtain ⟨cat', hcat'⟩ := ih hcats cat1 hrest
    refine ⟨cat', ?_⟩
    have hstart : firstCat low = low - 1 := if_neg hr
    rw [semanticCatsExpand, if_neg (Nat.not_lt.mpr hle), hstart, hcat1]
    exact hcat'

end

/-! ## The round trip -/

/-- A level of a database: its sensitivity is declared and allows all its categories. -/
def MlsLevelAllowed (p : FullPolicydb) (l : MlsLevel) : Prop :=
  l.sens ≠ 0 ∧ ∃ name levdatum, p.mlsDb.sensValToName.getD (l.sens - 1) none = some name ∧
    p.mlsDb.levels.lookup name = some levdatum ∧ ∀ c ∈ l.cat, c ∈ levdatum.cat

theorem mlsSemanticLevelExpand_eq {p : FullPolicydb} (hmls : p.mls = true) {sens} (hsens : sens ≠ 0)
    {name} (hname : p.mlsDb.sensValToName.getD (sens - 1) none = some name) {levdatum}
    (hlevel : p.mlsDb.levels.lookup name = some levdatum) (cats : List (Nat × Nat)) :
    mlsSemanticLevelExpand p { sens, cat := cats } =
      (semanticCatsExpand levdatum cats ∅).map fun cat => { sens, cat } := by
  have hnprim : ¬p.mlsDb.levelsNprim < sens := by
    intro hlt
    rw [MlsDb.levelsNprim] at hlt
    rw [getD_eq_getElem?_getD, getElem?_eq_none (by omega)] at hname
    cases hname
  unfold mlsSemanticLevelExpand
  simp only [hmls, Bool.not_true, Bool.false_eq_true, if_false, hsens, hnprim, hname, hlevel,
    Option.bind_eq_bind, Option.bind_some]
  cases semanticCatsExpand levdatum cats ∅ <;> rfl

/-- A level survives the two conversions in a database with MLS, unless one of its
categories is followed by a gap between two nodes: the loop does not see the bits of the gap
and takes them into the range. -/
theorem mlsSemanticLevelExpand_mlsLevelToSemantic (p : FullPolicydb) (l : MlsLevel)
    (hallowed : MlsLevelAllowed p l) :
    (mlsLevelToSemantic l).bind (mlsSemanticLevelExpand p) = some l ↔
      p.mls = true ∧ ∀ a b, ¬l.cat.Gap a b := by
  obtain ⟨hsens, name, levdatum, hname, hlevel, hcats⟩ := hallowed
  rw [mlsLevelToSemantic_eq, Option.bind_some]
  cases hmls : p.mls with
  | false =>
    have hempty : ∀ sl, mlsSemanticLevelExpand p sl = some {} := fun sl =>
        if_pos (by rw [hmls]; rfl)
    rw [hempty]
    simp only [Bool.false_eq_true, false_and, iff_false, Option.some.injEq]
    intro heq
    exact hsens (heq ▸ rfl)
  | true =>
    rw [mlsSemanticLevelExpand_eq hmls hsens hname hlevel, ← semanticRanges_exact_iff]
    simp only [true_and]
    constructor
    · intro h c hc x hfirst hclose
      obtain ⟨cat, hcat, heq⟩ := Option.map_eq_some_iff.mp h
      obtain rfl : cat = l.cat := congrArg MlsLevel.cat heq
      exact (semanticCatsExpand_some semanticRanges_upwards hcat x).mpr
        (.inr ⟨c, hc, hfirst, hclose⟩)
    · intro h
      obtain ⟨cat, hcat⟩ := semanticCatsExpand_of_allowed levdatum semanticRanges_upwards ∅
        fun c hc x hfirst hclose => hcats x (h c hc x hfirst hclose)
      have heq : cat = l.cat := Ebitmap.ext fun x => by
        rw [semanticCatsExpand_some semanticRanges_upwards hcat]
        constructor
        · rintro (hx | ⟨c, hc, hfirst, hclose⟩)
          · exact absurd hx (Ebitmap.not_mem_empty x)
          · exact h c hc x hfirst hclose
        · exact fun hx => .inr (semanticRanges_cover hx)
      rw [hcat, Option.map_some, heq]

/-- A database with one sensitivity, which allows the given categories. -/
def oneSensitivity (cats : List Nat) : FullPolicydb :=
  { mls := true
    mlsDb :=
      { sensValToName := [some ['s', '0']]
        levels := [(['s', '0'], { sens := 1, cat := .ofList cats })] } }

theorem mlsSemanticLevelExpand_mlsLevelToSemantic_block :
    MlsLevelAllowed (oneSensitivity [0, 1, 3]) { sens := 1, cat := .ofList [0, 1, 3] } ∧
    (mlsLevelToSemantic { sens := 1, cat := .ofList [0, 1, 3] }).bind
      (mlsSemanticLevelExpand (oneSensitivity [0, 1, 3])) =
        some { sens := 1, cat := .ofList [0, 1, 3] } := by
  have hallowed :
      MlsLevelAllowed (oneSensitivity [0, 1, 3]) { sens := 1, cat := .ofList [0, 1, 3] } :=
    ⟨by decide, _, _, rfl, rfl, fun _ h => h⟩
  refine ⟨hallowed, (mlsSemanticLevelExpand_mlsLevelToSemantic _ _ hallowed).mpr
    ⟨rfl, fun a b hgap => ?_⟩⟩
  have hall : ∀ a ∈ (Ebitmap.ofList [0, 1, 3]).bits, a % mapsize ≠ mapsize - 1 := by decide
  exact hall a hgap.mem hgap.last

/-- Categories 63 and 128 of a level become the range from 63 to 128. -/
theorem mlsLevelToSemantic_gap :
    MlsLevelAllowed (oneSensitivity [63, 128]) { sens := 1, cat := .ofList [63, 128] } ∧
    mlsLevelToSemantic { sens := 1, cat := .ofList [63, 128] } =
      some { sens := 1, cat := [(64, 129)] } ∧
    mlsSemanticLevelExpand (oneSensitivity [63, 128]) { sens := 1, cat := [(64, 129)] } = none :=
  ⟨⟨by decide, _, _, rfl, rfl, fun _ h => h⟩, by decide +kernel, by decide +kernel⟩

end SELinux.Sepol
