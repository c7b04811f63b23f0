import SELinux.Android.SeappContexts

/-!
# Loading `seapp_contexts` again

`seapp_context_reload_internal` keeps its table, the count of its entries and the flag for
duplicates in the process. A later call starts with what the earlier ones left. -/

namespace SELinux.Android

open Lib (CString)

/-- What the process keeps between two calls. -/
structure Loaded where
  seappContexts : Option (List SeappContext) := none
  nspec : Nat := 0
  seappContextsDup : Bool := false
  deriving DecidableEq

/-- `qsort` on the entries: the comparisons that it makes and the order in which it leaves them. -/
abbrev Qsort := List SeappContext → List (SeappContext × SeappContext) × List SeappContext

/-- The lines of a file as `fgets` yields them, if it can be opened. -/
abbrev ConfigFile := Option (List CString)

/-- A line that is neither blank nor a comment. -/
def countsLine (line : CString) : Bool :=
  match line.bytes.dropWhile CString.isspace with
  | [] => false
  | c :: _ => c != 0x23

/-- The first pass over the files. It ends at a file that cannot be opened. -/
def countSpecs : List ConfigFile → Nat × Bool
  | [] => (0, true)
  | none :: _ => (0, false)
  | some lines :: files =>
    let (nspec, opened) := countSpecs files
    (lines.countP countsLine + nspec, opened)

section

variable (qsort : Qsort) (files : List ConfigFile) (st : Loaded)

/-- The entries of all files, unless one cannot be opened or has a line that is refused. -/
def readFiles : Option (List SeappContext) :=
  if (countSpecs files).2 then readLines (files.flatMap (·.getD [])) else none

/-- The comparisons of entries come across a duplicate. -/
def meetsDup (entries : List SeappContext) : Bool :=
  (qsort entries).1.any fun p => seappDup p.1 p.2

/-- `seapp_context_reload_internal`, with the return value. -/
def seappContextReload : Int × Loaded :=
  -- nothing is allocated yet when the first pass fails, and the count stays as it is
  if !(countSpecs files).2 then
    (-1, { st with seappContexts := none, nspec := (countSpecs files).1 })
  else match readLines (files.flatMap (·.getD [])) with
    | none => (-1, { st with seappContexts := none, nspec := 0 })
    | some entries =>
      -- `seapp_context_cmp` sets the flag, and nothing clears it
      let dup := st.seappContextsDup || meetsDup qsort entries
      if dup then (-1, { seappContexts := none, nspec := 0, seappContextsDup := dup })
      else (0, { seappContexts := some (qsort entries).2, nspec :=
        entries.length, seappContextsDup := dup })

/-- A process that has made these calls, the first one first. -/
def reloads (calls : List (List ConfigFile)) : Loaded :=
  calls.foldl (fun st files => (seappContextReload qsort files st).2) {}

/-- The return value, the table and the count are those of a first call. -/
def LikeFirst (earlier : List (List ConfigFile)) (files : List ConfigFile) : Prop :=
  let again := seappContextReload qsort files (reloads qsort earlier)
  let first := seappContextReload qsort files {}
  again.1 = first.1 ∧ again.2.seappContexts = first.2.seappContexts ∧ again.2.nspec = first.2.nspec

/-- The files are read to the end, and sorting their entries compares duplicates. -/
def ReadsDup : Prop :=
  ∃ entries, readFiles files = some entries ∧ meetsDup qsort entries = true

theorem seappContextReload_dup : (seappContextReload qsort files st).2.seappContextsDup = true ↔
      st.seappContextsDup = true ∨ ReadsDup qsort files := by
  rw [ReadsDup, seappContextReload, readFiles]
  cases (countSpecs files).2 with
  | false => simp
  | true =>
    cases readLines (files.flatMap (·.getD [])) with
    | none => simp
    | some entries =>
      cases st.seappContextsDup <;> cases hdup : meetsDup qsort entries <;> simp [hdup]

theorem reloads_dup (calls : List (List ConfigFile)) :
    (reloads qsort calls).seappContextsDup = true ↔ ∃ files ∈ calls, ReadsDup qsort files := by
  have hfold : ∀ st : Loaded,
      (calls.foldl (fun st files => (seappContextReload qsort files st).2) st).seappContextsDup =
        true ↔
        st.seappContextsDup = true ∨ ∃ files ∈ calls, ReadsDup qsort files := by
    induction calls with
    | nil => simp
    | cons files calls ih =>
      intro st
      rw [List.foldl_cons, ih, seappContextReload_dup, or_assoc]
      simp
  rw [reloads, hfold]
  simp

/-- What a call does apart from the flag depends on the flag, and only if the files load alone. -/
theorem seappContextReload_like_iff :
    ((seappContextReload qsort files st).1 = (seappContextReload qsort files {}).1 ∧
      (seappContextReload qsort files st).2.seappContexts =
        (seappContextReload qsort files {}).2.seappContexts ∧
      (seappContextReload qsort files st).2.nspec = (seappContextReload qsort files {}).2.nspec) ↔
      st.seappContextsDup = false ∨ readFiles files = none ∨ ReadsDup qsort files := by
  simp only [ReadsDup, seappContextReload, readFiles]
  cases (countSpecs files).2 with
  | false => simp
  | true =>
    cases readLines (files.flatMap (·.getD [])) with
    | none => simp
    | some entries =>
      cases st.seappContextsDup <;> cases hdup : meetsDup qsort entries <;> simp [hdup]

end

/-- A further call is like a first one exactly if no earlier call has compared duplicates, or if the
files cannot be loaded anyway. -/
theorem seappContextReload_likeFirst_iff (qsort : Qsort) (earlier : List (List ConfigFile))
    (files : List ConfigFile) : LikeFirst qsort earlier files ↔
      (∀ calls ∈ earlier, ¬ReadsDup qsort calls) ∨ readFiles files = none ∨
        ReadsDup qsort files := by
  rw [LikeFirst, seappContextReload_like_iff, ← Bool.not_eq_true, reloads_dup]
  simp

/-! ## A mistake that is corrected -/

/-- Insertion, with the comparisons made for it. -/
def insertEntry (e : SeappContext) : List SeappContext →
    List (SeappContext × SeappContext) × List SeappContext
  | [] => ([], [e])
  | x :: xs =>
    if seappContextCmp e x ≤ 0 then ([(e, x)], e :: x :: xs)
    else ((e, x) :: (insertEntry e xs).1, x :: (insertEntry e xs).2)

def insertionSort : Qsort
  | [] => ([], [])
  | e :: es =>
    let (compared, sorted) := insertionSort es
    (compared ++ (insertEntry e sorted).1, (insertEntry e sorted).2)

def serverLine : CString :=
  .ofString
    "isSystemServer=true isEphemeralApp=true isPrivApp=true isIsolatedComputeApp=true isSdkSandboxNext=true domain=d\n"

/-- A file with a line that stands there twice is refused. The file without the second line would be
loaded by a first call, and it is refused as well. -/
theorem seappContextReload_not_like_first :
    (seappContextReload insertionSort [some [serverLine]] {}).1 = 0 ∧
      (seappContextReload insertionSort [some [serverLine]]
        (reloads insertionSort [[some [serverLine, serverLine]]])).1 = -1 ∧
      ¬LikeFirst insertionSort [[some [serverLine, serverLine]]] [some [serverLine]] := by
  have hfirst : (seappContextReload insertionSort [some [serverLine]] {}).1 = 0 := by decide +kernel
  have hagain : (seappContextReload insertionSort [some [serverLine]]
      (reloads insertionSort [[some [serverLine, serverLine]]])).1 = -1 := by decide +kernel
  refine ⟨hfirst, hagain, fun h => ?_⟩
  have hsame := h.1
  rw [hfirst, hagain] at hsame
  exact absurd hsame (by decide)

end SELinux.Android
