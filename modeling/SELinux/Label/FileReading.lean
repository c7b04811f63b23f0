import SELinux.Label.FileLoad
import SELinux.Sepol.PutEntry

/-!
# What loading a file amounts to

The specifications of a candidate file are read here without a handle: a `Reading` is what a file
holds up to its first fault. `loadFile` appends exactly that to the array, and from it follows when
`process_file` is all or nothing.
-/

namespace SELinux.Label

open Option List
open Lib (CString)
open Sepol (nextLe32 putLe32)

variable {ρ : Type}

/-! ## Readings -/

/-- What a file says of a specification; stems and compiled patterns are derived from it. -/
structure Entry where
  ctxRaw : CString
  regexStr : CString
  mode : BitVec 32
  hasMetaChars : Bool
  prefixLen : Nat
  deriving DecidableEq

def Spec.entry (s : Spec ρ) : Entry := ⟨s.ctxRaw, s.regexStr, s.mode, s.hasMetaChars, s.prefixLen⟩

/-- How a reading ends: at the end of the file, at a context that a compiled file's loader takes
for the end, or at a fault. -/
inductive Status where
  | complete | rejected | failed
  deriving DecidableEq

structure Reading (ρ : Type) where
  entries : List Entry
  status : Status
  /-- What is left in the slot behind the last specification. -/
  slot : Spec ρ

def Reading.cons (e : Entry) (r : Reading ρ) : Reading ρ := { r with entries := e :: r.entries }

def readLines (lib : Library ρ) (pfx : Option CString) : Spec ρ → List CString → Reading ρ
  | slot, [] => ⟨[], .complete, slot⟩
  | slot, lineBuf :: rest =>
    match lineFields pfx lineBuf with
    | none => ⟨[], .failed, slot⟩
    | some none => readLines lib pfx slot rest
    | some (some fields) =>
      match fillSpec lib slot fields with
      | (spec, true) => (readLines lib pfx .blank rest).cons spec.entry
      | (spec, false) => ⟨[spec.entry], .failed, .blank⟩

def skipStems : Nat → List (BitVec 8) → Option (List (BitVec 8))
  | 0, fp => some fp
  | n + 1, fp => (nextStem fp).bind fun p => skipStems n p.2

def readRecords (lib : Library ρ) (version : BitVec 32) (archMatches : Bool) :
    Nat → Spec ρ → List (BitVec 8) → Reading ρ
  | 0, slot, _ => ⟨[], .complete, slot⟩
  | n + 1, slot, fp =>
    match readRecord lib version archMatches slot fp with
    | .broken slot => ⟨[], .failed, slot⟩
    | .rejected slot => ⟨[], .rejected, slot⟩
    | .complete spec _ fp => (readRecords lib version archMatches n .blank fp).cons spec.entry

/-- The specifications of a compiled file: version, machine, their number, and where they begin. -/
def compiledSpecs (lib : Library ρ) (fp : List (BitVec 8)) :
    Option (BitVec 32 × Bool × Nat × List (BitVec 8)) := do
  let (version, archMatches, fp) ← compiledHeader lib fp
  let (stemMapLen, fp) ← nextLe32 fp
  let fp ← skipStems stemMapLen.toNat fp
  let (regexArrayLen, fp) ← nextLe32 fp
  if regexArrayLen = 0 then none else some (version, archMatches, regexArrayLen.toNat, fp)

def readFile (lib : Library ρ) (pfx : Option CString) (slot : Spec ρ) (f : File) : Reading ρ :=
  if fcontextIsBinary f then
    match compiledSpecs lib f.bytes with
    | none => ⟨[], .failed, slot⟩
    | some (version, archMatches, n, fp) => readRecords lib version archMatches n slot fp
  else readLines lib pfx slot (textLines f.bytes)

/-! ## Loading appends what is read -/

/-- The loader got from `h` to `h'` what the reading says. -/
structure Loads (h h' : Handle ρ) (ok : Bool) (r : Reading ρ) : Prop where
  specs : ∃ new, h'.data.specArr = h.data.specArr ++ new ∧ new.map Spec.entry = r.entries
  slot : h'.slot = r.slot
  digest : h'.digest = h.digest
  ok : ok = true ↔ r.status ≠ .failed

variable {h h' : Handle ρ} {r : Reading ρ} {d : SavedData ρ} {s t spec : Spec ρ}
  {stemId version : BitVec 32}

theorem Loads.nothing {ok : Bool}
    (hspecs : h'.data.specArr = h.data.specArr) (hentries : r.entries = [])
    (hslot : h'.slot = r.slot)
    (hdigest : h'.digest = h.digest) (hok : ok = true ↔ r.status ≠ .failed) : Loads h h' ok r :=
  ⟨⟨[], by simp [hspecs], by simp [hentries]⟩, hslot, hdigest, hok⟩

theorem Loads.cons {ok} {stem} (hd : d.specArr = h.data.specArr)
    (hrest : Loads ({ h with data := d : Handle ρ }.store s stem) h' ok r) :
    Loads h h' ok (r.cons s.entry) := by
  obtain ⟨⟨new, hnew, hentries⟩, hslot, hdigest, hok⟩ := hrest
  refine ⟨⟨{ s with stemId := stem.map Fin.val } :: new, ?_, ?_⟩, hslot, hdigest, hok⟩
  · have hspecs : h'.data.specArr = d.specArr ++ [{ s with stemId := stem.map Fin.val }] ++ new :=
      hnew
    simp [hspecs, hd]
  · rw [map_cons, hentries]
    rfl

theorem Loads.of_stems {ok r} (hd : d.specArr = h.data.specArr)
    (hloads : Loads { h with data := d } h' ok r) : Loads h h' ok r := by
  obtain ⟨⟨new, hnew, hentries⟩, hslot, hdigest, hok⟩ := hloads
  have hspecs : h'.data.specArr = d.specArr ++ new := hnew
  exact ⟨⟨new, by rw [hspecs, hd], hentries⟩, hslot, hdigest, hok⟩

theorem specArr_internStem (d : SavedData ρ) (buf : CString) (stemLen : Nat) :
    (d.internStem buf stemLen).1.specArr = d.specArr := by
  rw [SavedData.internStem]
  split <;> rfl

theorem specArr_findStemFromSpec (d : SavedData ρ) (buf : CString) :
    (findStemFromSpec d buf).1.specArr = d.specArr := by
  rw [findStemFromSpec]
  split
  · rfl
  · exact specArr_internStem d buf _

variable (lib : Library ρ)

theorem processTextFile_loads (pfx : Option CString) (h : Handle ρ) (lines : List CString) :
    Loads h (processTextFile lib pfx h lines).1 (processTextFile lib pfx h lines).2
      (readLines lib pfx h.slot lines) := by
  induction lines generalizing h with
  | nil => exact .nothing rfl rfl rfl rfl (by simp [processTextFile, readLines])
  | cons lineBuf rest ih =>
    rw [processTextFile, readLines, processLine]
    cases hline : lineFields pfx lineBuf with
    | none => exact .nothing rfl rfl rfl rfl (by simp)
    | some line =>
      cases line with
      | none => exact ih h
      | some fields =>
        have hd := specArr_findStemFromSpec h.data fields.regex
        cases hfill : fillSpec lib h.slot fields with
        | mk spec ok =>
          simp only [hfill]
          cases ok with
          | true => exact .cons hd (ih _)
          | false =>
            -- the line is refused, but its specification is in the array already
            let found := findStemFromSpec h.data fields.regex
            let h' := { h with data := found.1 : Handle ρ }.store spec found.2
            have hfailed : Loads h' h' false ⟨[], .failed, .blank⟩ :=
              .nothing rfl rfl rfl rfl (by simp)
            exact .cons hd hfailed

theorem loadStems_skip (n : Nat) (m : StemMap ρ) (fp : List (BitVec 8)) :
    (loadStems n m fp).1.data.specArr = m.data.specArr ∧ (loadStems n m fp).2 = skipStems n fp := by
  induction n generalizing m fp with
  | zero => exact ⟨rfl, rfl⟩
  | succ n ih =>
    rw [loadStems, skipStems]
    cases nextStem fp with
    | none => exact ⟨rfl, rfl⟩
    | some p =>
      obtain ⟨hspecs, hrest⟩ := ih (m.add p.1.1 p.1.2) p.2
      exact ⟨hspecs.trans (specArr_internStem m.data _ _), hrest⟩

theorem loadSpecs_loads (version : BitVec 32) (archMatches : Bool) (n : Nat)
    (h : Handle ρ) (map : List (Fin h.data.stemArr.length)) (fp : List (BitVec 8)) :
    Loads h (loadSpecs lib version archMatches n h map fp).1
      (loadSpecs lib version archMatches n h map fp).2
      (readRecords lib version archMatches n h.slot fp) := by
  induction n generalizing h fp with
  | zero => exact .nothing rfl rfl rfl rfl (by simp [loadSpecs, readRecords])
  | succ n ih =>
    rw [loadSpecs, readRecords]
    cases readRecord lib version archMatches h.slot fp with
    | broken slot => exact .nothing rfl rfl rfl rfl (by simp)
    | rejected slot => exact .nothing rfl rfl rfl rfl (by simp)
    | complete spec stemId fp => exact .cons rfl (ih (h.store spec (mapStem map stemId)) map fp)

theorem loadMmap_loads (h : Handle ρ) (fp : List (BitVec 8)) :
    Loads h (loadMmap lib h fp).1 (loadMmap lib h fp).2 (match compiledSpecs lib fp with
      | none => ⟨[], .failed, h.slot⟩
      | some (version, archMatches, n, fp) => readRecords lib version archMatches n h.slot fp) := by
  rw [loadMmap, compiledSpecs]
  cases compiledHeader lib fp with
  | none => exact .nothing rfl rfl rfl rfl (by simp)
  | some header =>
    obtain ⟨version, archMatches, fp⟩ := header
    simp only [bind_eq_bind, bind_some]
    cases nextLe32 fp with
    | none => exact .nothing rfl rfl rfl rfl (by simp)
    | some p =>
      obtain ⟨stemMapLen, fp⟩ := p
      obtain ⟨hspecs, hskip⟩ := loadStems_skip stemMapLen.toNat ⟨h.data, []⟩ fp
      simp only [bind_some]
      rw [← hskip]
      cases hstems : loadStems stemMapLen.toNat ⟨h.data, []⟩ fp with
      | mk m rest =>
        rw [hstems] at hspecs
        refine .of_stems (d := m.data) hspecs ?_
        cases rest with
        | none => exact .nothing rfl rfl rfl rfl (by simp)
        | some fp =>
          simp only [bind_some]
          cases nextLe32 fp with
          | none => exact .nothing rfl rfl rfl rfl (by simp)
          | some p =>
            obtain ⟨regexArrayLen, fp⟩ := p
            simp only [bind_some]
            by_cases hzero : regexArrayLen = 0
            · rw [if_pos hzero, if_pos hzero]
              exact .nothing rfl rfl rfl rfl (by simp)
            · rw [if_neg hzero, if_neg hzero]
              exact loadSpecs_loads lib version archMatches _ { h with data := m.data } m.map fp

theorem loadFile_loads (pfx : Option CString) (h : Handle ρ) (f : File) :
    Loads h (loadFile lib pfx h f).1 (loadFile lib pfx h f).2 (readFile lib pfx h.slot f) := by
  rw [loadFile, readFile]
  split
  · exact loadMmap_loads lib h f.bytes
  · exact processTextFile_loads lib pfx h (textLines f.bytes)

/-! ## A slot in use -/

/-- A slot in use can only make the validation be skipped. -/
theorem selabelValidate_accepts {lib} (h : (selabelValidate lib s).isSome = true)
    (hctx : t.ctxRaw = s.ctxRaw) (hs : s.validated = false) :
    (selabelValidate lib t).isSome = true := by
  rw [selabelValidate] at h ⊢
  by_cases ht : (!lib.validating || t.validated) = true
  · rw [if_pos ht]
    rfl
  · have hv : lib.validating = true := by
      by_contra hv
      simp [hv] at ht
    rw [if_neg (by simp [hv, hs]), isSome_map, ← hctx] at h
    rwa [if_neg ht, isSome_map]

theorem compatValidate_accepts {lib} (h : (compatValidate lib s).isSome = true)
    (hctx : t.ctxRaw = s.ctxRaw) (hs : s.validated = false) :
    (compatValidate lib t).isSome = true := by
  rw [compatValidate] at h ⊢
  cases hcall : lib.compatCallback with
  | none =>
    rw [hcall] at h
    exact selabelValidate_accepts h hctx hs
  | some callback =>
    rw [hcall] at h
    simpa [hctx] using h

theorem checkContext_accepts {lib} (h : (checkContext lib s).2 = true)
    (hctx : t.ctxRaw = s.ctxRaw) (hs : s.validated = false) : (checkContext lib t).2 = true := by
  rw [checkContext] at h ⊢
  rw [hctx]
  by_cases hcheck : s.ctxRaw ≠ noneContext ∧ lib.validating = true
  swap
  · rw [if_neg hcheck]
  rw [if_pos hcheck] at h ⊢
  have hsome : (compatValidate lib s).isSome = true := by
    cases hval : compatValidate lib s with
    | none => simp [hval] at h
    | some s' => rfl
  obtain ⟨t', ht⟩ := isSome_iff_exists.mp (compatValidate_accepts hsome hctx hs)
  rw [ht]

theorem fillSpec_accepts {lib fields} (h : (fillSpec lib .blank fields).2 = true) (slot : Spec ρ) :
    (fillSpec lib slot fields).2 = true := by
  rw [fillSpec] at h ⊢
  cases htype : fields.type.elim (some 0) stringToMode with
  | none =>
    simp only [htype] at h
    split at h <;> exact absurd h Bool.false_ne_true
  | some mode =>
    simp only [htype] at h ⊢
    cases hval : lib.validating with
    | false =>
      simp only [hval, Bool.false_eq_true, if_false] at h ⊢
      exact checkContext_accepts h rfl rfl
    | true =>
      simp only [hval, if_true] at h ⊢
      cases hprep : lib.regexPrepareData (anchoredRegex fields.regex) with
      | none =>
        rwa [hprep] at h
      | some regex =>
        simp only [hprep, map_some] at h ⊢
        exact checkContext_accepts h rfl rfl

variable {fp fp' : List (BitVec 8)} {archMatches : Bool} {lib : Library ρ}

theorem readRegex_complete {stemId' : BitVec 32}
    (h : readRegex lib archMatches s stemId fp = .complete spec stemId' fp') :
    ∃ spec', readRegex lib archMatches t stemId fp = .complete spec' stemId' fp' := by
  rw [readRegex] at h ⊢
  cases hregex : regexLoadMmap lib archMatches fp with
  | none => simp [hregex] at h
  | some p =>
    simp only [hregex] at h ⊢
    cases h
    exact ⟨_, rfl⟩

theorem readFields_complete
    (h : readFields lib version archMatches s fp = .complete spec stemId fp') :
    ∃ spec', readFields lib version archMatches t fp = .complete spec' stemId fp' := by
  rw [readFields] at h ⊢
  cases hregex : nextCString fp with
  | none => simp [hregex] at h
  | some p =>
    simp only [hregex] at h ⊢
    cases hmode : nextLe32 p.2 with
    | none => simp [hmode] at h
    | some q =>
      simp only [hmode] at h ⊢
      cases hstem : nextLe32 q.2 with
      | none => simp [hstem] at h
      | some u =>
        simp only [hstem] at h ⊢
        cases hmeta : nextLe32 u.2 with
        | none => simp [hmeta] at h
        | some v =>
          simp only [hmeta] at h ⊢
          by_cases hversion : version < 4
          · rw [if_pos hversion] at h ⊢
            exact readRegex_complete h
          · rw [if_neg hversion] at h ⊢
            cases hprefixLen : nextLe32 v.2 with
            | none => simp [hprefixLen] at h
            | some w =>
              simp only [hprefixLen] at h ⊢
              exact readRegex_complete h

theorem readRecord_complete
    (h : readRecord lib version archMatches .blank fp = .complete spec stemId fp') (slot : Spec ρ) :
    ∃ spec', readRecord lib version archMatches slot fp = .complete spec' stemId fp' := by
  rw [readRecord] at h ⊢
  cases hctx : nextCString fp with
  | none => simp [hctx] at h
  | some p =>
    simp only [hctx] at h ⊢
    by_cases hcheck : p.1 ≠ noneContext ∧ lib.validating = true
    · rw [if_pos hcheck] at h ⊢
      cases hval : selabelValidate lib { (.blank : Spec ρ) with ctxRaw := p.1 } with
      | none => simp [hval] at h
      | some s =>
        simp only [hval] at h
        have hsome := selabelValidate_accepts (t := { slot with ctxRaw := p.1 })
          (isSome_of_eq_some hval) rfl rfl
        obtain ⟨t, ht⟩ := isSome_iff_exists.mp hsome
        simp only [ht]
        exact readFields_complete h
    · rw [if_neg hcheck] at h ⊢
      exact readFields_complete h

theorem readLines_length {lib pfx lines} (h : (readLines lib pfx .blank lines).status = .complete)
    (slot : Spec ρ) : (readLines lib pfx slot lines).entries.length =
      (readLines lib pfx .blank lines).entries.length := by
  induction lines with
  | nil => rfl
  | cons lineBuf rest ih =>
    rw [readLines] at h ⊢
    rw [readLines]
    cases hline : lineFields pfx lineBuf with
    | none => rfl
    | some line =>
      cases line with
      | none =>
        simp only [hline] at h
        exact ih h
      | some fields =>
        simp only [hline] at h
        cases hblank : fillSpec lib .blank fields with
        | mk spec ok =>
          cases ok with
          | false => simp [hblank] at h
          | true =>
            have hslot := fillSpec_accepts (congrArg Prod.snd hblank) slot
            cases hfill : fillSpec lib slot fields with
            | mk spec' ok' =>
              cases ok' with
              | false =>
                simp [hfill] at hslot
              | true =>
                simp only [hfill, hblank]
                rfl

theorem readRecords_length {lib version archMatches n fp}
    (h : (readRecords lib version archMatches n .blank fp).status = .complete) (slot : Spec ρ) :
    (readRecords lib version archMatches n slot fp).entries.length =
      (readRecords lib version archMatches n .blank fp).entries.length := by
  cases n with
  | zero => rfl
  | succ n =>
    rw [readRecords] at h ⊢
    rw [readRecords]
    cases hblank : readRecord lib version archMatches .blank fp with
    | broken s => simp [hblank] at h
    | rejected s => simp [hblank] at h
    | complete spec stemId fp' =>
      obtain ⟨spec', hslot⟩ := readRecord_complete hblank slot
      rw [hslot]
      rfl

theorem readFile_length {lib pfx f} (h : (readFile lib pfx .blank f).status = .complete)
    (slot : Spec ρ) :
    (readFile lib pfx slot f).entries.length = (readFile lib pfx .blank f).entries.length := by
  rw [readFile] at h ⊢
  rw [readFile]
  by_cases hbin : fcontextIsBinary f = true
  · rw [if_pos hbin] at h ⊢
    rw [if_pos hbin]
    cases hspecs : compiledSpecs lib f.bytes with
    | none => rfl
    | some p =>
      simp only [hspecs] at h
      exact readRecords_length h slot
  · rw [if_neg hbin] at h ⊢
    rw [if_neg hbin]
    exact readLines_length h slot

/-! ## All or nothing -/

section

variable (lib : Library ρ) (pfx : Option CString) (f : File) (h : Handle ρ)

/-- The specifications of a file, in file order, if nothing is wrong with it. -/
def fileEntries : Option (List Entry) :=
  let r := readFile lib pfx .blank f
  if r.status = .complete then some r.entries else none

/-- The array `specs'` is `specs` followed by the specifications of the file. -/
def FollowedBy (specs specs' : List (Spec ρ)) : Prop :=
  ∃ es, fileEntries lib pfx f = some es ∧ ∃ new, specs' = specs ++ new ∧ new.map Spec.entry = es

/-- If `process_file` succeeds, the array is what it was followed by the specifications of the
candidate that was loaded. -/
def AllOrNothing (c : Candidates) (h : Handle ρ) : Prop :=
  ∀ f, (processFile lib pfx c h).2 = some f →
    (c.plain = some f ∨ c.bin = some f) ∧
    FollowedBy lib pfx f h.data.specArr (processFile lib pfx c h).1.data.specArr

def Handle.DigestFull : Prop := ∃ cnt, h.digest = some cnt ∧ digestFilesMax ≤ cnt

/-- Nothing is wrong with the file, and reading it into this slot gives what is in it. -/
def LoadsWhole (slot : Spec ρ) (f : File) : Prop :=
  (readFile lib pfx .blank f).status = .complete ∧
  (readFile lib pfx slot f).entries = (readFile lib pfx .blank f).entries

/-- What has to be true of the candidates: the first one is whole, unless its loading fails before
the first specification is stored and the second one is whole or fails too. -/
def WholeCandidate (c : Candidates) (h : Handle ρ) : Prop :=
  h.DigestFull ∨ ∀ newest, openFile c false = some newest →
    let first := readFile lib pfx h.slot newest
    (first.status ≠ .failed → LoadsWhole lib pfx h.slot newest) ∧
    (first.status = .failed → ∀ oldest, openFile c true = some oldest →
      (readFile lib pfx first.slot oldest).status ≠ .failed →
        first.entries = [] ∧ LoadsWhole lib pfx first.slot oldest)

theorem openFile_candidate {c : Candidates} {openOldest f} (h : openFile c openOldest = some f) :
    c.plain = some f ∨ c.bin = some f := by
  have hfound := (filter_eq_some_iff.mp h).1
  cases hplain : c.plain with
  | none => exact .inr (by simpa [hplain] using hfound)
  | some plain =>
    cases hbin : c.bin with
    | none => exact .inl (by simpa [hplain, hbin] using hfound)
    | some bin =>
      simp only [hplain, hbin] at hfound
      split at hfound
      · exact .inr hfound
      · exact .inl hfound

theorem digestAddSpecfile_spec :
    (digestAddSpecfile h).1.data = h.data ∧ (digestAddSpecfile h).1.slot = h.slot ∧
    (h.DigestFull → (digestAddSpecfile h).1.DigestFull) ∧
    ((digestAddSpecfile h).2 = true ↔ ¬h.DigestFull) := by
  rw [digestAddSpecfile]
  cases hdigest : h.digest with
  | none => simp [Handle.DigestFull, hdigest]
  | some cnt =>
    refine ⟨rfl, rfl, ?_, ?_⟩
    · rintro ⟨cnt', hcnt, hle⟩
      rw [hdigest, some.injEq] at hcnt
      exact ⟨cnt + 1, rfl, by omega⟩
    · simp only [Handle.DigestFull, hdigest, some.injEq, exists_eq_left', decide_eq_true_eq]
      omega

theorem tryFile_loads (f : File) :
    let r := readFile lib pfx h.slot f
    let h' := (tryFile lib pfx h f).1
    (∃ new, h'.data.specArr = h.data.specArr ++ new ∧ new.map Spec.entry = r.entries) ∧
    h'.slot = r.slot ∧ (r.status = .failed ∨ h.DigestFull → (h'.DigestFull ↔ h.DigestFull)) ∧
    ((tryFile lib pfx h f).2 = true ↔ r.status ≠ .failed ∧ ¬h.DigestFull) := by
  obtain ⟨hspecs, hslot, hdigest, hok⟩ := loadFile_loads lib pfx h f
  have hfull : (loadFile lib pfx h f).1.DigestFull ↔ h.DigestFull := by
    rw [Handle.DigestFull, hdigest, Handle.DigestFull]
  rw [tryFile]
  by_cases hload : (loadFile lib pfx h f).2 = true
  · obtain ⟨hdata, hslot', hkept, hadded⟩ := digestAddSpecfile_spec (loadFile lib pfx h f).1
    simp_all
  · simp_all

theorem followedBy_iff {specs specs' new : List (Spec ρ)} (hnew : specs' = specs ++ new) :
    FollowedBy lib pfx f specs specs' ↔ (readFile lib pfx .blank f).status = .complete ∧
      new.map Spec.entry = (readFile lib pfx .blank f).entries := by
  simp [FollowedBy, fileEntries, hnew, eq_comm]

end

theorem processFile_digestFull {lib pfx c} {h : Handle ρ} (hfull : h.DigestFull) :
    (processFile lib pfx c h).2 = none := by
  have hfails : ∀ {h : Handle ρ} (f : File), h.DigestFull →
      (tryFile lib pfx h f).2 = false ∧ (tryFile lib pfx h f).1.DigestFull := by
    intro h f hfull
    obtain ⟨-, -, hkept, hok⟩ := tryFile_loads lib pfx h f
    simpa [hfull, hkept] using hok
  rw [processFile]
  cases openFile c false with
  | none => rfl
  | some newest =>
    obtain ⟨hfirst, hfull'⟩ := hfails newest hfull
    cases openFile c true with
    | none => simp [hfirst]
    | some oldest => simp [hfirst, (hfails oldest hfull').1]

/-- `process_file` is all or nothing exactly for whole candidates. A candidate that fails leaves
what it has stored so far, and a compiled one with a rejected context counts as loaded. -/
theorem processFile_allOrNothing_iff (lib : Library ρ) (pfx : Option CString) (c : Candidates)
    (h : Handle ρ) : AllOrNothing lib pfx c h ↔ WholeCandidate lib pfx c h := by
  by_cases hfull : h.DigestFull
  · refine iff_of_true (fun f hf => ?_) (.inl hfull)
    rw [processFile_digestFull hfull] at hf
    cases hf
  rw [WholeCandidate, or_iff_right hfull, AllOrNothing, processFile]
  cases hnewest : openFile c false with
  | none => simp
  | some newest =>
    obtain ⟨⟨new, hnew, hentries⟩, hslot, hkept, hok⟩ := tryFile_loads lib pfx h newest
    rw [and_iff_left hfull] at hok
    by_cases hread : (readFile lib pfx h.slot newest).status = .failed
    swap
    · -- the first pass loads the file
      have hwhole := followedBy_iff lib pfx newest hnew
      have hcand := openFile_candidate hnewest
      simp [hok.mpr hread, hread, hcand, hwhole, hentries, LoadsWhole]
    · -- the second pass goes on from what the first one has left
      have hfirst : ¬(tryFile lib pfx h newest).2 = true := fun h => hok.mp h hread
      have hfull' : ¬(tryFile lib pfx h newest).1.DigestFull := fun h =>
          hfull ((hkept (.inl hread)).mp h)
      cases holdest : openFile c true with
      | none => simp [hfirst, hread]
      | some oldest =>
        obtain ⟨⟨new', hnew', hentries'⟩, -, -, hok'⟩ :=
          tryFile_loads lib pfx (tryFile lib pfx h newest).1 oldest
        rw [hnew, append_assoc] at hnew'
        have hwhole := followedBy_iff lib pfx oldest hnew'
        have hcand := openFile_candidate holdest
        rw [map_append, hentries, hentries'] at hwhole
        have hsplit : FollowedBy lib pfx oldest h.data.specArr
              (tryFile lib pfx (tryFile lib pfx h newest).1 oldest).1.data.specArr ↔
            (readFile lib pfx h.slot newest).entries = [] ∧
              LoadsWhole lib pfx (readFile lib pfx h.slot newest).slot oldest := by
          rw [hwhole, LoadsWhole]
          constructor
          · rintro ⟨hcomplete, heq⟩
            have hlen := congrArg length heq
            rw [length_append, readFile_length hcomplete] at hlen
            simp_all
          · simp_all
        simp_all

/-- A handle opened for validation, without specifications. -/
def emptyHandle : Handle Unit := ⟨⟨[], [], by simp⟩, .blank, none⟩

/-- Every pattern compiles, and every context but `bad` is accepted. -/
def strictLibrary : Library Unit where
  validating := true
  regexPrepareData _ := some ()
  regexDecode _ := none
  regexVersion := some (.ofString "")
  regexArchString := some (.ofString "")
  selinuxValidate ctx := if ctx = .ofString "bad" then none else some ctx
  compatCallback := none

def textFile (text : String) (mtime : Int) : File := ⟨(CString.ofString text).bytes, mtime, true⟩

/-- A string and a record of a compiled file of version 1. -/
def compiledString (s : String) : List (BitVec 8) :=
  let bytes := (CString.ofString s).bytes
  putLe32 (.ofNat 32 (bytes.length + 1)) ++ bytes ++ [0]

def compiledRecord (ctx regex : String) : List (BitVec 8) :=
  compiledString ctx ++ compiledString regex ++ putLe32 0 ++ putLe32 (-1) ++ putLe32 0 ++ putLe32 0

def compiledFile : File where
  bytes := putLe32 compiledFcontextMagic ++ putLe32 1 ++ putLe32 0 ++ putLe32 3 ++
    compiledRecord "t" "/a" ++ compiledRecord "bad" "/b" ++ compiledRecord "t" "/c"
  mtime := 0
  readable := true

def brokenText : File := textFile "/a t\n/b\n" 1

def olderText : File := textFile "/c t\n" 0

/-- A compiled file whose second context is rejected counts as loaded, with the first of its three
specifications only. And where a textual file breaks off, its first specification stays in front of
those of the older file. -/
theorem processFile_partial :
    ((processFile strictLibrary none ⟨none, some compiledFile⟩ emptyHandle).1.data.specArr.map
        (·.regexStr) = [.ofString "/a"] ∧
      ¬AllOrNothing strictLibrary none ⟨none, some compiledFile⟩ emptyHandle) ∧
    (processFile strictLibrary none ⟨some brokenText, some olderText⟩
      emptyHandle).1.data.specArr.map (·.regexStr) = [.ofString "/a", .ofString "/c"] ∧
      ¬AllOrNothing strictLibrary none ⟨some brokenText, some olderText⟩ emptyHandle := by
  refine ⟨⟨by decide +kernel, fun h => ?_⟩, by decide +kernel, fun h => ?_⟩
  · obtain ⟨-, es, hes, -⟩ := h compiledFile (by decide +kernel)
    have hnone : fileEntries strictLibrary none compiledFile = none := by decide +kernel
    cases hes
  · obtain ⟨-, es, hes, new, hnew, hmap⟩ := h olderText (by decide +kernel)
    have hold : (fileEntries strictLibrary none olderText).map length = some 1 := by
      decide +kernel
    have hboth : (processFile strictLibrary none ⟨some brokenText, some olderText⟩
        emptyHandle).1.data.specArr.length = 2 := by decide +kernel
    rw [hes, ← hmap, map_some, length_map, some.injEq] at hold
    rw [hnew, length_append, hold] at hboth
    cases hboth

end SELinux.Label
