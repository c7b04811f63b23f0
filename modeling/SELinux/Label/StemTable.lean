import SELinux.Label.Lookup

/-!
# The table of stems

What `find_stem_from_spec` and `process_line` keep: every stem is stored once, and a specification
has the number of the stem of its own pattern. With such a table `lookup_all` compares the stems
themselves when it compares their numbers.
-/

namespace SELinux.Label

open List Option
open Lib (CString)

variable {ρ : Type}

/-- The stem of a given length. -/
def stemOf (buf : CString) (stemLen : Nat) : Stem := ⟨.ofBuffer (buf.bytes.take stemLen), stemLen⟩

/-- Every stem is stored once and at its own length, and each specification refers to the stem of
its own pattern. -/
structure SavedData.Indexed (d : SavedData ρ) : Prop where
  len_eq : ∀ t ∈ d.stemArr, t.len = t.buf.strlen
  nodup : d.stemArr.Nodup
  stem_eq : ∀ s ∈ d.specArr, d.stem s =
    if getStemFromSpec s.regexStr = 0 then none
    else some (stemOf s.regexStr (getStemFromSpec s.regexStr))

theorem getStemFromSpec_le (buf : CString) : getStemFromSpec buf ≤ buf.strlen := by
  rw [getStemFromSpec]
  cases h : (buf.bytes.drop 1).idxOf? slash with
  | none => exact Nat.zero_le _
  | some i =>
    obtain ⟨hi, -⟩ := findIdx?_eq_some_iff_getElem.mp h
    rw [length_drop] at hi
    dsimp only
    split_ifs
    · exact Nat.zero_le _
    · rw [CString.strlen]
      omega

theorem getStemFromFileName_le (buf : CString) : getStemFromFileName buf ≤ buf.strlen := by
  rw [getStemFromFileName]
  cases h : (buf.bytes.drop 1).idxOf? slash with
  | none => exact Nat.zero_le _
  | some i =>
    obtain ⟨hi, -⟩ := findIdx?_eq_some_iff_getElem.mp h
    rw [length_drop] at hi
    dsimp only
    rw [CString.strlen]
    omega

theorem bytes_stemOf (buf : CString) (stemLen : Nat) :
    (stemOf buf stemLen).buf.bytes = buf.bytes.take stemLen :=
  CString.bytes_ofBuffer fun h => buf.nonzero (mem_of_mem_take h)

theorem findStem_test_iff {t : Stem} {buf stemLen} (ht : t.len = t.buf.strlen) :
    (stemLen == t.len && CString.eqUpTo stemLen buf t.buf) = true ↔ t = stemOf buf stemLen := by
  rw [Bool.and_eq_true, beq_iff_eq, CString.eqUpTo, beq_iff_eq]
  constructor
  · rintro ⟨rfl, heq⟩
    rw [ht, CString.strlen, take_length] at heq
    have hbuf : t.buf = (stemOf buf t.len).buf := by
      rw [CString.ext_iff, bytes_stemOf, ht, CString.strlen, heq]
    exact (Stem.mk.injEq ..).mpr ⟨hbuf, rfl⟩
  · rintro rfl
    refine ⟨rfl, ?_⟩
    rw [bytes_stemOf, take_take, Nat.min_self]

theorem empty_stemId_lt :
    ∀ s ∈ ([] : List (Spec ρ)), ∀ k ∈ s.stemId, k < ([] : List Stem).length := by
  simp

def SavedData.empty : SavedData ρ := ⟨[], [], empty_stemId_lt⟩

namespace SavedData.Indexed

variable {d : SavedData ρ}

theorem empty : (SavedData.empty : SavedData ρ).Indexed where
  len_eq := by simp [SavedData.empty]
  nodup := nodup_nil
  stem_eq := by simp [SavedData.empty]

variable (hd : d.Indexed)
include hd

theorem findStem_eq_some_iff {buf stemLen k} :
    d.findStem buf stemLen = some k ↔ d.stemArr.get k = stemOf buf stemLen := by
  have htest (j : Fin d.stemArr.length) :=
    @findStem_test_iff (d.stemArr.get j) buf stemLen (hd.len_eq _ (get_mem _ j))
  rw [SavedData.findStem, findFinIdx?_eq_some_iff]
  refine Iff.trans (and_congr_left' (htest k)) ?_
  refine and_iff_left_of_imp fun hk j hj hjtest => ?_
  replace hjtest := (htest j).mp hjtest
  have hjk := hd.nodup.getElem_inj_iff.mp (hjtest.trans hk.symm)
  exact absurd hjk (Nat.ne_of_lt hj)

theorem findStem_eq_none_iff {buf stemLen} :
    d.findStem buf stemLen = none ↔ stemOf buf stemLen ∉ d.stemArr := by
  rw [SavedData.findStem, findFinIdx?_eq_none_iff]
  constructor
  · intro h hmem
    exact h _ hmem ((findStem_test_iff (hd.len_eq _ hmem)).mpr rfl)
  · intro h t ht htest
    exact h ((findStem_test_iff (hd.len_eq t ht)).mp htest ▸ ht)

theorem storeStem {t : Stem} (ht : t.len = t.buf.strlen) (hnew : t ∉ d.stemArr) :
    (d.storeStem t).Indexed where
  len_eq := by
    intro u hu
    rcases mem_append.mp hu with hu | hu
    · exact hd.len_eq u hu
    · rw [mem_singleton.mp hu, ht]
  nodup := by
    rw [SavedData.storeStem, List.nodup_append]
    refine ⟨hd.nodup, nodup_singleton t, fun u hu v hv huv => hnew ?_⟩
    rwa [← mem_singleton.mp hv, ← huv]
  stem_eq := by
    intro s hs
    rw [← hd.stem_eq s hs, SavedData.stem, SavedData.stem]
    cases hk : s.stemId with
    | none => rfl
    | some k => exact getElem?_append_left (d.stemId_lt s hs k hk)

theorem internStem {buf : CString} {stemLen : Nat} (hlen : stemLen ≤ buf.strlen) :
    (d.internStem buf stemLen).1.Indexed ∧
      (d.internStem buf stemLen).1.stemArr.get (d.internStem buf stemLen).2 =
        stemOf buf stemLen := by
  generalize hfound : d.internStem buf stemLen = found
  rw [SavedData.internStem] at hfound
  cases hfind : d.findStem buf stemLen with
  | some k =>
    rw [hfind] at hfound
    subst hfound
    exact ⟨hd, hd.findStem_eq_some_iff.mp hfind⟩
  | none =>
    rw [hfind] at hfound
    subst hfound
    have hstem : (stemOf buf stemLen).len = (stemOf buf stemLen).buf.strlen := by
      rw [CString.strlen, bytes_stemOf, length_take]
      exact (Nat.min_eq_left hlen).symm
    exact ⟨hd.storeStem hstem (hd.findStem_eq_none_iff.mp hfind), getElem_concat_length rfl _⟩

theorem findStemFromSpec (buf : CString) : (Label.findStemFromSpec d buf).1.Indexed ∧
      (Label.findStemFromSpec d buf).2.map (Label.findStemFromSpec d buf).1.stemArr.get =
        if getStemFromSpec buf = 0 then none else some (stemOf buf (getStemFromSpec buf)) := by
  generalize hfound : Label.findStemFromSpec d buf = found
  rw [Label.findStemFromSpec] at hfound
  by_cases h : getStemFromSpec buf = 0
  · rw [if_pos h] at hfound
    rw [if_pos h]
    subst hfound
    exact ⟨hd, rfl⟩
  · rw [if_neg h] at hfound
    rw [if_neg h]
    subst hfound
    obtain ⟨hintern, hstem⟩ := hd.internStem (getStemFromSpec_le buf)
    exact ⟨hintern, congrArg some hstem⟩

theorem addSpec {s : Spec ρ} {stem : Option (Fin d.stemArr.length)}
    (hstem : stem.map d.stemArr.get = if getStemFromSpec s.regexStr = 0 then none
      else some (stemOf s.regexStr (getStemFromSpec s.regexStr))) : (d.addSpec s stem).Indexed where
  len_eq := hd.len_eq
  nodup := hd.nodup
  stem_eq := by
    intro t ht
    rcases mem_append.mp ht with ht | ht
    · exact hd.stem_eq t ht
    · rw [mem_singleton.mp ht, ← hstem]
      cases stem with
      | none => rfl
      | some k => exact getElem?_eq_getElem k.isLt

theorem sortSpecs : (Label.sortSpecs d).Indexed where
  len_eq := hd.len_eq
  nodup := hd.nodup
  stem_eq s hs := hd.stem_eq s (mem_sortedSpecs.mp hs)

theorem findStemFromFile_eq_some_iff {key k} : findStemFromFile d key = some k ↔
      getStemFromFileName key ≠ 0 ∧ d.stemArr.get k = stemOf key (getStemFromFileName key) := by
  simp [findStemFromFile, hd.findStem_eq_some_iff]

end SavedData.Indexed

/-- Validation only touches the context. -/
theorem checkContext_eq (lib : Library ρ) (s : Spec ρ) :
    ∃ ctx validated, (checkContext lib s).1 = { s with ctxRaw := ctx, validated := validated } := by
  rw [checkContext]
  by_cases h : s.ctxRaw ≠ noneContext ∧ lib.validating
  · rw [if_pos h]
    cases hvalid : compatValidate lib s with
    | none => exact ⟨s.ctxRaw, s.validated, rfl⟩
    | some t =>
      rw [compatValidate] at hvalid
      cases hcallback : lib.compatCallback with
      | some callback =>
        simp only [hcallback, map_eq_some_iff] at hvalid
        obtain ⟨ctx, -, rfl⟩ := hvalid
        exact ⟨ctx, s.validated, rfl⟩
      | none =>
        simp only [hcallback, selabelValidate] at hvalid
        split_ifs at hvalid
        · rw [← hvalid]
          exact ⟨s.ctxRaw, s.validated, rfl⟩
        · obtain ⟨ctx, -, rfl⟩ := map_eq_some_iff.mp hvalid
          exact ⟨ctx, true, rfl⟩
  · rw [if_neg h]
    exact ⟨s.ctxRaw, s.validated, rfl⟩

theorem fillSpec_regexStr (lib : Library ρ) (slot : Spec ρ) (fields : LineFields) :
    (fillSpec lib slot fields).1.regexStr = fields.regex := by
  rw [fillSpec]
  split
  · rfl
  · split
    · rfl
    · obtain ⟨ctx, validated, heq⟩ := checkContext_eq lib _
      rw [heq]
      rfl

/-- What holds of the handle after a line that stores an entry, holds after any number of lines. -/
theorem processTextFile_inv {lib : Library ρ} {pfx} {I : Handle ρ → Prop}
    (hstore : ∀ h fields, I h →
      I ({ h with data := (findStemFromSpec h.data fields.regex).1 : Handle ρ }.store
      (fillSpec lib h.slot fields).1 (findStemFromSpec h.data fields.regex).2))
    {h} (lines : List CString) (hI : I h) : I (processTextFile lib pfx h lines).1 := by
  induction lines generalizing h with
  | nil => exact hI
  | cons lineBuf rest ih =>
    have hline : I (processLine lib pfx h lineBuf).1 := by
      rw [processLine]
      split
      · exact hI
      · exact hI
      · exact hstore h _ hI
    rw [processTextFile]
    cases hproc : processLine lib pfx h lineBuf with
    | mk h' ok =>
      rw [hproc] at hline
      cases ok with
      | true => exact ih hline
      | false => exact hline

/-- The table of stems is right after any number of lines. -/
theorem processTextFile_indexed (lib : Library ρ) (pfx : Option CString) (h : Handle ρ)
    (lines : List CString) (hd : h.data.Indexed) :
    (processTextFile lib pfx h lines).1.data.Indexed := by
  refine processTextFile_inv (I := fun h => h.data.Indexed) (fun h fields hd => ?_) lines hd
  obtain ⟨hfound, hstem⟩ := hd.findStemFromSpec fields.regex
  refine hfound.addSpec ?_
  rw [fillSpec_regexStr, hstem]

theorem stemMatches_iff {d : SavedData ρ} (hd : d.Indexed) {key : CString} {s}
    (hs : s ∈ d.specArr) : stemMatches d key s = true ↔ ∀ t ∈ d.stem s,
      t.buf.bytes = key.bytes.take (getStemFromFileName key) := by
  cases hk : s.stemId with
  | none => simp [stemMatches, SavedData.stem, hk]
  | some k =>
    have hlt := d.stemId_lt s hs k hk
    have hstem : d.stem s = some (d.stemArr.get ⟨k, hlt⟩) := by
      simp [SavedData.stem, hk]
    have hlen := hd.len_eq _ (get_mem d.stemArr ⟨k, hlt⟩)
    have hpos : (d.stemArr.get ⟨k, hlt⟩).len ≠ 0 := by
      have heq := hstem.symm.trans (hd.stem_eq s hs)
      split_ifs at heq with h0
      rw [some.inj heq]
      exact h0
    have hfind : stemMatches d key s = true ↔ findStemFromFile d key = some ⟨k, hlt⟩ := by
      rw [stemMatches, hk]
      cases findStemFromFile d key with
      | none => simp
      | some i => simp [Fin.ext_iff, eq_comm (a := k)]
    rw [hfind, hd.findStemFromFile_eq_some_iff, hstem]
    simp only [mem_def, some.injEq, forall_eq']
    generalize d.stemArr.get ⟨k, hlt⟩ = t at hlen hpos
    constructor
    · rintro ⟨-, rfl⟩
      exact bytes_stemOf key _
    · intro hbuf
      have hkey : t.len = getStemFromFileName key := by
        rw [hlen, CString.strlen, hbuf, length_take]
        exact Nat.min_eq_left (getStemFromFileName_le key)
      have ht : t.buf = (stemOf key (getStemFromFileName key)).buf := by
        rw [CString.ext_iff, hbuf, bytes_stemOf]
      exact ⟨hkey ▸ hpos, (Stem.mk.injEq ..).mpr ⟨ht, hkey⟩⟩

end SELinux.Label
