import SELinux.Sepol.Context
import SELinux.Sepol.EbitmapWalk

/-! The text of a range (`mls.c`): `mls_compute_context_len`, `mls_sid_to_context` and
`mls_to_string`. Categories that are visited one after the other are written as one range.
A name that is not in its table is a null pointer; `none` is the crash on it. The length is
taken without its limit of 32 bits. -/
namespace SELinux.Sepol

open Option List

/-! ## Model -/

section

variable (p : FullPolicydb) (r : MlsRange)

/-- `p_sens_val_to_name[sens - 1]`. -/
def sensName (sens : Nat) : Option Name :=
  if sens = 0 then none else p.mlsDb.sensValToName.getD (sens - 1) none

/-- `p_cat_val_to_name[i]`. -/
def catName (i : Nat) : Option Name := p.mlsDb.catValToName.getD i none

/-- One round of the loop of `mls_compute_context_len`, on `len` and `range`. -/
def contextLenStep (s : Nat × Nat) (visit : Nat × Bool) : Option (Nat × Nat) :=
  if visit.2 then
    if s.2 ≠ 0 then some (s.1, s.2 + 1)
    else do
      let name ← catName p visit.1
      some (s.1 + (name.length + 1), 1)
  else if 1 < s.2 then do
    let name ← catName p (visit.1 - 1)
    some (s.1 + (name.length + 1), 0)
  else some (s.1, 0)

/-- One level of `mls_compute_context_len`. -/
def levelLen (l : MlsLevel) (len : Nat) : Option Nat := do
  let name ← sensName p l.sens
  let (visits, i) ← l.cat.toT.forEachBit
  let s ← visits.foldlM (contextLenStep p) (len + name.length, 0)
  -- the last category is the end of a range
  if 1 < s.2 then do
    let name ← catName p (i - 1)
    some (s.1 + (name.length + 1))
  else some s.1

def mlsComputeContextLen : Option Nat :=
  if !p.mls then some 0
  else do
    let len ← levelLen p r.low 1
    if mlsLevelEq r.low r.high then some len else levelLen p r.high (len + 1)

/-- The state of the loop of `mls_sid_to_context`: what has been written, `range` and
`wrote_sep`. -/
structure ContextText where
  text : Name
  range : Nat := 0
  wroteSep : Bool := false

/-- The end of a range: the category before `i`, behind a dot if the range has more than
two categories. -/
def writeRangeEnd (i : Nat) (s : ContextText) : Option ContextText :=
  if 1 < s.range then do
    let name ← catName p (i - 1)
    some { s with text := s.text ++ (if 2 < s.range then '.' else ',') :: name, range := 0 }
  else some { s with range := 0 }

/-- One round of the loop of `mls_sid_to_context`. -/
def contextTextStep (s : ContextText) (visit : Nat × Bool) : Option ContextText :=
  if visit.2 then
    if s.range ≠ 0 then some { s with range := s.range + 1 }
    else do
      let name ← catName p visit.1
      some { text := s.text ++ (if s.wroteSep then ',' else ':') :: name, range := 1, wroteSep :=
        true }
  else writeRangeEnd p visit.1 s

/-- One level of `mls_sid_to_context`. -/
def levelText (l : MlsLevel) (text : Name) : Option Name := do
  let name ← sensName p l.sens
  let (visits, i) ← l.cat.toT.forEachBit
  let s ← visits.foldlM (contextTextStep p) { text := text ++ name }
  let s ← writeRangeEnd p i s
  some s.text

/-- `mls_sid_to_context`: what it writes. -/
def mlsSidToContext : Option Name :=
  if !p.mls then some []
  else do
    let text ← levelText p r.low [':']
    if mlsLevelEq r.low r.high then some text else levelText p r.high (text ++ ['-'])

/-- `mls_to_string`. The pointer behind the text is moved back by the computed length; the
copy leaves the first character out. -/
def mlsToString : Option Name := do
  let len ← mlsComputeContextLen p r
  let text ← mlsSidToContext p r
  some (text.drop (text.length - len + 1))

/-- The checks of `mls_context_isvalid` on the range itself. -/
def mlsRangeIsvalid : Bool :=
  mlsLevelDom r.high r.low && mlsLevelIsvalid p r.low && mlsLevelIsvalid p r.high

end

/-! ## The computed length -/

variable (p : FullPolicydb)

theorem contextLenStep_eq (s : ContextText) (visit : Nat × Bool) :
    contextLenStep p (s.text.length, s.range) visit =
      (contextTextStep p s visit).map fun s => (s.text.length, s.range) := by
  obtain ⟨i, positive⟩ := visit
  unfold contextLenStep contextTextStep writeRangeEnd
  cases positive with
  | true =>
    by_cases hrange : s.range = 0
    · cases catName p i <;> simp [hrange]
    · simp [hrange]
  | false =>
    by_cases hrange : 1 < s.range
    · simp [hrange]
    · simp [hrange]

theorem contextLenLoop_eq (visits : List (Nat × Bool)) (s : ContextText) :
    visits.foldlM (contextLenStep p) (s.text.length, s.range) =
      (visits.foldlM (contextTextStep p) s).map fun s => (s.text.length, s.range) := by
  induction visits generalizing s with
  | nil => rfl
  | cons visit visits ih =>
    rw [foldlM_cons, foldlM_cons, contextLenStep_eq]
    cases hstep : contextTextStep p s visit with
    | none => rfl
    | some s' => exact ih s'

theorem levelLen_eq (l : MlsLevel) (text : Name) :
    levelLen p l text.length = (levelText p l text).map length := by
  unfold levelLen levelText
  cases sensName p l.sens with
  | none => rfl
  | some name =>
    cases l.cat.toT.forEachBit with
    | none => rfl
    | some visits =>
      have hloop := contextLenLoop_eq p visits.1 { text := text ++ name }
      rw [length_append] at hloop
      simp only [bind_eq_bind, bind_some]
      rw [hloop]
      cases visits.1.foldlM (contextTextStep p) { text := text ++ name } with
      | none => rfl
      | some s =>
        simp only [map_some, bind_some, writeRangeEnd]
        by_cases hrange : 1 < s.range
        · cases catName p (visits.2 - 1) <;> simp [hrange]
        · simp [hrange]

theorem mlsComputeContextLen_eq (r : MlsRange) :
    mlsComputeContextLen p r = (mlsSidToContext p r).map length := by
  unfold mlsComputeContextLen mlsSidToContext
  split_ifs with hmls heq
  · rfl
  · have hlow := levelLen_eq p r.low [':']
    simpa using hlow
  · have hlow := levelLen_eq p r.low [':']
    rw [length_singleton] at hlow
    rw [hlow]
    cases hlow : levelText p r.low [':'] with
    | none => rfl
    | some text =>
      have hhigh := levelLen_eq p r.high (text ++ ['-'])
      simpa using hhigh

/-- The text is copied from its second character on. -/
theorem mlsToString_eq (r : MlsRange) : mlsToString p r = (mlsSidToContext p r).map (drop 1) := by
  unfold mlsToString
  rw [mlsComputeContextLen_eq]
  cases mlsSidToContext p r with
  | none => rfl
  | some text => simp

/-! ## The text of the runs -/

/-- The text of a run behind its separator. -/
def runText (p : FullPolicydb) (r : Lib.Run Nat) : Option Name := do
  let first ← catName p r.first
  if r.rest = [] then some first
  else do
    let last ← catName p (r.close - 1)
    some (first ++ (if 1 < r.rest.length then '.' else ',') :: last)

/-- The text of runs; the first separator depends on whether one was written before. -/
def runsText (p : FullPolicydb) : Bool → List (Lib.Run Nat) → Option Name
  | _, [] => some []
  | wroteSep, r :: rs => do
    let text ← runText p r
    let rest ← runsText p true rs
    some ((if wroteSep then ',' else ':') :: text ++ rest)

/-- The state of the loop with an open run, of which the first category is written. -/
def contextTextState (p : FullPolicydb) (text : Name) (wroteSep : Bool) :
    Option (Nat × List Nat) → Option ContextText
  | none => some { text, wroteSep }
  | some (first, rest) => do
    let name ← catName p first
    some { text := text ++ (if wroteSep then ',' else ':') ::
      name, range := rest.length + 1, wroteSep := true }

theorem writeRangeEnd_state (text : Name) (wroteSep : Bool) (first : Nat) (rest : List Nat)
    (i : Nat) : (contextTextState p text wroteSep (some (first, rest))).bind (writeRangeEnd p i) =
      (runText p { first, rest, close := i }).map fun t =>
        { text := text ++ (if wroteSep then ',' else ':') :: t, wroteSep := true } := by
  unfold writeRangeEnd runText
  cases hfirst : catName p first with
  | none => simp [contextTextState, hfirst]
  | some name =>
    cases rest with
    | nil => simp [contextTextState, hfirst]
    | cons x rest => simp [contextTextState, hfirst]

theorem contextTextStep_true (text : Name) (wroteSep : Bool) (o : Option (Nat × List Nat))
    (x : Nat) : ((contextTextState p text wroteSep o).bind fun s => contextTextStep p s (x, true)) =
      contextTextState p text wroteSep (some (Lib.extendRun o x)) := by
  cases o with
  | none => rfl
  | some o =>
    cases hfirst : catName p o.1 <;> simp [contextTextState, contextTextStep, Lib.extendRun, hfirst]

theorem contextTextLoop_eq (test : Nat → Bool) (stop : Nat) (l : List Nat) (text : Name)
    (wroteSep : Bool) (o : Option (Nat × List Nat)) :
    ((contextTextState p text wroteSep o).bind fun s =>
      ((l.map fun x => (x, test x)).foldlM (contextTextStep p) s).bind fun s =>
        (writeRangeEnd p stop s).map ContextText.text) =
      (runsText p wroteSep (Lib.runs test stop o l)).map (text ++ ·) := by
  induction l generalizing text wroteSep o with
  | nil =>
    cases o with
    | none => simp [contextTextState, writeRangeEnd, runsText, Lib.runs, Lib.closeRun]
    | some o =>
      obtain ⟨first, rest⟩ := o
      have hend :=
        congrArg (Option.map ContextText.text) (writeRangeEnd_state p text wroteSep first rest stop)
      rw [Option.map_bind] at hend
      refine hend.trans ?_
      rw [Lib.runs, Lib.closeRun, runsText, runsText]
      cases runText p { first, rest, close := stop } <;> simp
  | cons x l ih =>
    have hstep : ((contextTextState p text wroteSep o).bind fun s =>
        (((x :: l).map fun x => (x, test x)).foldlM (contextTextStep p) s).bind fun s =>
          (writeRangeEnd p stop s).map ContextText.text) =
        ((contextTextState p text wroteSep o).bind fun s => contextTextStep p s (x, test x)).bind
          fun s =>
          ((l.map fun x => (x, test x)).foldlM (contextTextStep p) s).bind fun s =>
            (writeRangeEnd p stop s).map ContextText.text := by
      simp [bind_assoc]
    rw [hstep, Lib.runs]
    cases test x with
    | true => rw [contextTextStep_true, ih, if_pos rfl]
    | false =>
      rw [if_neg Bool.false_ne_true]
      cases o with
      | none => exact ih text wroteSep none
      | some o =>
        obtain ⟨first, rest⟩ := o
        have hend := writeRangeEnd_state p text wroteSep first rest x
        rw [show (fun s => contextTextStep p s (x, false)) = writeRangeEnd p x from rfl, hend,
          Lib.closeRun, singleton_append, runsText]
        cases runText p { first, rest, close := x } with
        | none => rfl
        | some t =>
          refine (ih (text ++ (if wroteSep then ',' else ':') :: t) true none).trans ?_
          cases runsText p true (Lib.runs test stop none l) <;> simp

theorem levelText_eq (l : MlsLevel) (text : Name) :
    levelText p l text = (sensName p l.sens).bind fun name =>
      (runsText p false l.cat.runs).map (text ++ name ++ ·) := by
  unfold levelText Ebitmap.runs
  cases sensName p l.sens with
  | none => rfl
  | some name =>
    have hloop :=
      contextTextLoop_eq p (ebitmapGetBit l.cat) l.cat.toT.highbit l.cat.walk (text ++ name) false
      none
    rw [l.cat.forEachBit_toT, bind_some, ← hloop]
    simp [contextTextState, map_eq_bind]

end SELinux.Sepol
