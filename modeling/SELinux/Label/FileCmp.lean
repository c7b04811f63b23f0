import Mathlib.Data.List.Zip
import SELinux.Label.Spec

/-!
# Comparing two file-label handles

`cmp` of `label_file.c` walks the sorted specifications of two handles side by side, skips regular
expressions that only one of them has left, and reads its verdict off what was skipped and what was
left over. The verdict turns out to depend on the numbers of regular expressions first and of exact
pathnames second, and it is sound unless the two numbers point in opposite directions.
-/

namespace SELinux.Label

open List
open Lib (CString)
open List (Forall₂ SublistForall₂)

inductive CmpResult where
  | subset | equal | superset | incomparable
  deriving DecidableEq

variable {ρ : Type} [DecidableEq ρ]

/-! ## The walk -/

/-- Compiled forms are compared byte for byte, and texts where one of the two is not compiled. -/
def sameRegex (spec1 spec2 : Spec ρ) : Bool :=
  match spec1.regex, spec2.regex with
  | some regex1, some regex2 => regex1 == regex2
  | _, _ => spec1.regexStr == spec2.regexStr

def sameStem (d1 d2 : SavedData ρ) (spec1 spec2 : Spec ρ) : Bool :=
  match d1.stem spec1, d2.stem spec2 with
  | none, none => true
  | some stem1, some stem2 =>
    stem1.len == stem2.len && CString.eqUpTo stem1.len stem1.buf stem2.buf
  | _, _ => false

/-- The checks that a pair of entries of one kind has to pass. -/
def sameEntry (d1 d2 : SavedData ρ) (spec1 spec2 : Spec ρ) : Bool :=
  sameRegex spec1 spec2 && spec1.mode == spec2.mode && sameStem d1 d2 spec1 spec2 &&
    spec1.ctxRaw == spec2.ctxRaw

def cmpVerdict (skipped1 more1 skipped2 more2 : Bool) : CmpResult :=
  if (skipped1 || more1) && !skipped2 then .superset
  else if (skipped2 || more2) && !skipped1 then .subset
  else if skipped1 && skipped2 then .incomparable
  else .equal

/-- The loop of `cmp`, on what is left of the two arrays. -/
def cmpLoop (d1 d2 : SavedData ρ) (specs1 specs2 : List (Spec ρ)) (skipped1 skipped2 : Bool) :
    CmpResult :=
  match specs1, specs2 with
  | [], _ => cmpVerdict skipped1 false skipped2 (!specs2.isEmpty)
  | _ :: _, [] => cmpVerdict skipped1 true skipped2 false
  | spec1 :: rest1, spec2 :: rest2 =>
    if !spec1.hasMetaChars && spec2.hasMetaChars then
      cmpLoop d1 d2 (spec1 :: rest1) rest2 skipped1 true
    else if spec1.hasMetaChars && !spec2.hasMetaChars then
      cmpLoop d1 d2 rest1 (spec2 :: rest2) true skipped2
    else if sameEntry d1 d2 spec1 spec2 then cmpLoop d1 d2 rest1 rest2 skipped1 skipped2
    else .incomparable
termination_by specs1.length + specs2.length

def cmp (h1 h2 : SavedData ρ) : CmpResult := cmpLoop h1 h2 h1.specArr h2.specArr false false

/-! ## What the walk computes on sorted handles -/

variable {spec2 spec1 : Spec ρ} {α : Type}

section Walk

variable {d1 d2 : SavedData ρ} {skipped1 skipped2 : Bool}

theorem cmpLoop_nil_left (specs2 : List (Spec ρ)) : cmpLoop d1 d2 [] specs2 skipped1 skipped2 =
      cmpVerdict skipped1 false skipped2 (!specs2.isEmpty) := by
  rw [cmpLoop]

theorem cmpLoop_nil_right (specs1 : List (Spec ρ)) : cmpLoop d1 d2 specs1 [] skipped1 skipped2 =
      cmpVerdict skipped1 (!specs1.isEmpty) skipped2 false := by
  cases specs1 with
  | nil => rw [cmpLoop]; rfl
  | cons spec1 rest1 => rw [cmpLoop]; rfl

/-- Regular expressions are skipped while the other handle is at an exact pathname. -/
theorem cmpLoop_skip_left {regexes exact1 exact2}
    (hregexes : ∀ s ∈ regexes, s.hasMetaChars = true) (hspec2 : spec2.hasMetaChars = false)
    (hne : regexes ≠ []) : cmpLoop d1 d2 (regexes ++ exact1) (spec2 :: exact2) skipped1 skipped2 =
      cmpLoop d1 d2 exact1 (spec2 :: exact2) true skipped2 := by
  induction regexes generalizing skipped1 with
  | nil => exact absurd rfl hne
  | cons s rest ih =>
    have hs := hregexes s mem_cons_self
    rw [cons_append, cmpLoop, hs, hspec2]
    cases rest with
    | nil => rfl
    | cons t rest => simp_all

theorem cmpLoop_skip_right {regexes exact1 exact2}
    (hregexes : ∀ s ∈ regexes, s.hasMetaChars = true) (hspec1 : spec1.hasMetaChars = false)
    (hne : regexes ≠ []) : cmpLoop d1 d2 (spec1 :: exact1) (regexes ++ exact2) skipped1 skipped2 =
      cmpLoop d1 d2 (spec1 :: exact1) exact2 skipped1 true := by
  induction regexes generalizing skipped2 with
  | nil => exact absurd rfl hne
  | cons s rest ih =>
    have hs := hregexes s mem_cons_self
    rw [cons_append, cmpLoop, hs, hspec1]
    cases rest with
    | nil => rfl
    | cons t rest => simp_all

theorem cmpLoop_zip {b : Bool} {specs1 specs2 after1 after2 : List (Spec ρ)}
    (h1 : ∀ s ∈ specs1, s.hasMetaChars = b) (h2 : ∀ s ∈ specs2, s.hasMetaChars = b) :
    cmpLoop d1 d2 (specs1 ++ after1) (specs2 ++ after2) skipped1 skipped2 =
      if ∀ p ∈ specs1.zip specs2, sameEntry d1 d2 p.1 p.2 = true then
        cmpLoop d1 d2 (specs1.drop specs2.length ++ after1) (specs2.drop specs1.length ++ after2)
          skipped1 skipped2 else .incomparable := by
  induction specs1 generalizing specs2 with
  | nil => simp
  | cons s rest1 ih =>
    cases specs2 with
    | nil => simp
    | cons t rest2 =>
      have hs := h1 s mem_cons_self
      have ht := h2 t mem_cons_self
      rw [cons_append, cons_append, cmpLoop, hs, ht]
      cases hst : sameEntry d1 d2 s t with
      | false => simp [hst]
      | true =>
        have hrest := ih (fun u hu => h1 u (mem_cons_of_mem s hu))
          (fun u hu => h2 u (mem_cons_of_mem t hu))
        have hall : (∀ p ∈ (s :: rest1).zip (t :: rest2), sameEntry d1 d2 p.1 p.2 = true) ↔
            ∀ p ∈ rest1.zip rest2, sameEntry d1 d2 p.1 p.2 = true := by
          simp [hst]
        rw [if_congr hall rfl rfl]
        simpa using hrest

end Walk

def regexes (d : SavedData ρ) : List (Spec ρ) := d.specArr.filter (·.hasMetaChars)

def exacts (d : SavedData ρ) : List (Spec ρ) := d.specArr.filter (!·.hasMetaChars)

omit [DecidableEq ρ] in
theorem specArr_sortSpecs (d : SavedData ρ) : (sortSpecs d).specArr = regexes d ++ exacts d :=
  sortedSpecs_eq d.specArr

/-- The entries at the same place of the two handles pass the checks, regular expressions and
exact pathnames each counted for themselves. -/
def AgreeAlong (d1 d2 : SavedData ρ) : Prop :=
  (∀ p ∈ (regexes d1).zip (regexes d2), sameEntry d1 d2 p.1 p.2 = true) ∧
  ∀ p ∈ (exacts d1).zip (exacts d2), sameEntry d1 d2 p.1 p.2 = true

instance (d1 d2 : SavedData ρ) : Decidable (AgreeAlong d1 d2) := inferInstanceAs (Decidable (_ ∧ _))

/-- The numbers of regular expressions decide, and only between equal numbers those of exact
pathnames. -/
def countVerdict (d1 d2 : SavedData ρ) : CmpResult :=
  match compare (regexes d1).length (regexes d2).length with
  | .gt => .superset
  | .lt => .subset
  | .eq =>
    match compare (exacts d1).length (exacts d2).length with
    | .gt => .superset
    | .lt => .subset
    | .eq => .equal

omit [DecidableEq ρ] in
theorem hasMetaChars_regexes (d : SavedData ρ) : ∀ s ∈ regexes d, s.hasMetaChars = true :=
  fun _ hs => (mem_filter.mp hs).2

omit [DecidableEq ρ] in
theorem hasMetaChars_exacts (d : SavedData ρ) : ∀ s ∈ exacts d, s.hasMetaChars = false :=
  fun _ hs => by simpa using (mem_filter.mp hs).2

theorem not_isEmpty_drop (l : List α) (n : Nat) :
    (!(l.drop n).isEmpty) = decide (n < l.length) := by
  rw [Bool.eq_iff_iff]
  simp [isEmpty_eq_false_iff]

section Counted

variable {d1 d2 : SavedData ρ} {exact1 exact2 : List (Spec ρ)}
  (hexact1 : ∀ s ∈ exact1, s.hasMetaChars = false) (hexact2 : ∀ s ∈ exact2, s.hasMetaChars = false)

include hexact1 hexact2

theorem cmpLoop_exact (skipped1 skipped2 : Bool) : cmpLoop d1 d2 exact1 exact2 skipped1 skipped2 =
      if ∀ p ∈ exact1.zip exact2, sameEntry d1 d2 p.1 p.2 = true then
        cmpVerdict skipped1 (decide (exact2.length < exact1.length)) skipped2
          (decide (exact1.length < exact2.length)) else .incomparable := by
  have hzip := @cmpLoop_zip ρ _ d1 d2 skipped1 skipped2 false exact1 exact2 [] [] hexact1 hexact2
  simp only [append_nil] at hzip
  rw [hzip]
  rcases Nat.le_total exact1.length exact2.length with hle | hle
  · rw [drop_eq_nil_of_le hle, cmpLoop_nil_left, not_isEmpty_drop,
      decide_eq_false (Nat.not_lt.mpr hle)]
  · rw [drop_eq_nil_of_le hle, cmpLoop_nil_right, not_isEmpty_drop,
      decide_eq_false (Nat.not_lt.mpr hle)]

theorem cmpLoop_more_left {more} (hmore : ∀ s ∈ more, s.hasMetaChars = true) (hne : more ≠ []) :
    cmpLoop d1 d2 (more ++ exact1) exact2 false false =
      if ∀ p ∈ exact1.zip exact2, sameEntry d1 d2 p.1 p.2 = true then .superset
      else .incomparable := by
  cases exact2 with
  | nil => simp [cmpLoop_nil_right, cmpVerdict, hne]
  | cons spec2 rest2 =>
    rw [cmpLoop_skip_left hmore (hexact2 spec2 mem_cons_self) hne,
      cmpLoop_exact hexact1 hexact2]
    rfl

theorem cmpLoop_more_right {more} (hmore : ∀ s ∈ more, s.hasMetaChars = true) (hne : more ≠ []) :
    cmpLoop d1 d2 exact1 (more ++ exact2) false false =
      if ∀ p ∈ exact1.zip exact2, sameEntry d1 d2 p.1 p.2 = true then .subset
      else .incomparable := by
  cases exact1 with
  | nil => simp [cmpLoop_nil_left, cmpVerdict, hne]
  | cons spec1 rest1 =>
    simp [cmpLoop_skip_right hmore (hexact1 spec1 mem_cons_self) hne,
      cmpLoop_exact hexact1 hexact2, cmpVerdict]

end Counted

theorem cmp_sortSpecs (d1 d2 : SavedData ρ) : cmp (sortSpecs d1) (sortSpecs d2) =
      if AgreeAlong d1 d2 then countVerdict d1 d2 else .incomparable := by
  have hE1 := hasMetaChars_exacts d1
  have hE2 := hasMetaChars_exacts d2
  have hR1 := hasMetaChars_regexes d1
  have hR2 := hasMetaChars_regexes d2
  -- sorting keeps the stems, so the entries are compared as in the handles before
  have hsame : sameEntry (sortSpecs d1) (sortSpecs d2) = sameEntry d1 d2 := rfl
  rw [cmp, specArr_sortSpecs, specArr_sortSpecs, cmpLoop_zip hR1 hR2, hsame]
  by_cases hR : ∀ p ∈ (regexes d1).zip (regexes d2), sameEntry d1 d2 p.1 p.2 = true
  swap
  · rw [if_neg hR, if_neg fun h : AgreeAlong d1 d2 => hR h.1]
  have hE : AgreeAlong d1 d2 ↔ ∀ p ∈ (exacts d1).zip (exacts d2), sameEntry d1 d2 p.1 p.2 = true :=
    and_iff_right hR
  rw [if_pos hR, if_congr hE rfl rfl, countVerdict]
  rcases Nat.lt_trichotomy (regexes d1).length (regexes d2).length with hlt | heq | hgt
  · have hmore : ∀ s ∈ (regexes d2).drop (regexes d1).length, s.hasMetaChars = true :=
      fun s hs => hR2 s (mem_of_mem_drop hs)
    rw [drop_eq_nil_of_le (Nat.le_of_lt hlt), nil_append,
      cmpLoop_more_right hE1 hE2 hmore (by simpa using hlt), hsame, Nat.compare_eq_lt.mpr hlt]
  · rw [drop_eq_nil_of_le heq.le, drop_eq_nil_of_le heq.ge, nil_append,
      nil_append, cmpLoop_exact hE1 hE2, hsame, Nat.compare_eq_eq.mpr heq]
    rcases Nat.lt_trichotomy (exacts d1).length (exacts d2).length with hlt' | heq' | hgt'
    · simp [cmpVerdict, hlt', Nat.compare_eq_lt.mpr hlt', Nat.lt_asymm hlt']
    · simp [cmpVerdict, heq']
    · simp [cmpVerdict, hgt', Nat.compare_eq_gt.mpr hgt']
  · have hmore : ∀ s ∈ (regexes d1).drop (regexes d2).length, s.hasMetaChars = true :=
      fun s hs => hR1 s (mem_of_mem_drop hs)
    rw [drop_eq_nil_of_le (Nat.le_of_lt hgt), nil_append,
      cmpLoop_more_left hE1 hE2 hmore (by simpa using hgt), hsame, Nat.compare_eq_gt.mpr hgt]

/-! ## Soundness -/

/-- Specifications compared by pattern, file mode and context. A pattern is an exact pathname or a
regular expression, and its compiled form or its text. -/
def SameSpec (spec1 spec2 : Spec ρ) : Prop :=
  spec1.hasMetaChars = spec2.hasMetaChars ∧ sameRegex spec1 spec2 = true ∧
    spec1.mode = spec2.mode ∧ spec1.ctxRaw = spec2.ctxRaw

/-- What a verdict says about two handles. -/
def CmpResult.Sound (h1 h2 : SavedData ρ) : CmpResult → Prop
  | .equal => Forall₂ SameSpec h1.specArr h2.specArr
  | .superset => SublistForall₂ (flip SameSpec) h2.specArr h1.specArr
  | .subset => SublistForall₂ SameSpec h1.specArr h2.specArr
  | .incomparable => True

theorem SameSpec.of_sameEntry {d1 d2}
    (hmeta : spec1.hasMetaChars = spec2.hasMetaChars) (h : sameEntry d1 d2 spec1 spec2 = true) :
    SameSpec spec1 spec2 := by
  simp only [sameEntry, Bool.and_eq_true, beq_iff_eq] at h
  exact ⟨hmeta, h.1.1.1, h.1.1.2, h.2⟩

theorem forall₂_take {β : Type} {R} {l1 : List α} {l2 : List β} (h : ∀ p ∈ l1.zip l2, R p.1 p.2)
    (hle : l1.length ≤ l2.length) : Forall₂ R l1 (l2.take l1.length) := by
  induction l1 generalizing l2 with
  | nil => simp
  | cons a rest1 ih =>
    cases l2 with
    | nil => simp at hle
    | cons b rest2 =>
      simp_all

omit [DecidableEq ρ] in
theorem countP_hasMetaChars_le {R} {l1 l2 : List (Spec ρ)}
    (hR : ∀ s t, R s t → s.hasMetaChars = t.hasMetaChars) (h : SublistForall₂ R l1 l2) (b : Bool) :
    l1.countP (·.hasMetaChars == b) ≤ l2.countP (·.hasMetaChars == b) := by
  induction h with
  | nil => simp
  | cons hst _ ih =>
    rw [countP_cons, countP_cons, hR _ _ hst]
    omega
  | cons_right _ ih =>
    rw [countP_cons]
    omega

omit [DecidableEq ρ] in
theorem countP_append_kinds {regex exact : List (Spec ρ)}
    (hregex : ∀ s ∈ regex, s.hasMetaChars = true) (hexact : ∀ s ∈ exact, s.hasMetaChars = false) :
    (regex ++ exact).countP (·.hasMetaChars == true) = regex.length ∧
    (regex ++ exact).countP (·.hasMetaChars == false) = exact.length := by
  rw [countP_append, countP_append]
  constructor
  · rw [countP_eq_length.mpr (by simpa using hregex),
      countP_eq_zero.mpr (by simpa using hexact), Nat.add_zero]
  · rw [countP_eq_zero.mpr (by simpa using hregex),
      countP_eq_length.mpr (by simpa using hexact), Nat.zero_add]

omit [DecidableEq ρ] in
/-- Where two sorted lists agree along the shorter ones, one is contained in the other exactly if
it has no more entries of either kind. -/
theorem sublistForall₂_iff_length {R} {regex1 exact1 regex2 exact2 : List (Spec ρ)}
    (hkind : ∀ s t, R s t → s.hasMetaChars = t.hasMetaChars)
    (hregex1 : ∀ s ∈ regex1, s.hasMetaChars = true) (hexact1 : ∀ s ∈ exact1, s.hasMetaChars = false)
    (hregex2 : ∀ s ∈ regex2, s.hasMetaChars = true) (hexact2 : ∀ s ∈ exact2, s.hasMetaChars = false)
    (hregex : ∀ p ∈ regex1.zip regex2, R p.1 p.2) (hexact : ∀ p ∈ exact1.zip exact2, R p.1 p.2) :
    SublistForall₂ R (regex1 ++ exact1) (regex2 ++ exact2) ↔
      regex1.length ≤ regex2.length ∧ exact1.length ≤ exact2.length := by
  constructor
  · intro h
    have hreg := countP_hasMetaChars_le hkind h true
    have hex := countP_hasMetaChars_le hkind h false
    rw [(countP_append_kinds hregex1 hexact1).1, (countP_append_kinds hregex2 hexact2).1] at hreg
    rw [(countP_append_kinds hregex1 hexact1).2, (countP_append_kinds hregex2 hexact2).2] at hex
    exact ⟨hreg, hex⟩
  · rintro ⟨hreg, hex⟩
    refine sublistForall₂_iff.mpr
      ⟨regex2.take regex1.length ++ exact2.take exact1.length, ?_, ?_⟩
    · exact rel_append (forall₂_take hregex hreg) (forall₂_take hexact hex)
    · exact (take_sublist _ _).append (take_sublist _ _)

section Agree

variable {d1 d2 : SavedData ρ} (h : AgreeAlong d1 d2)

include h

theorem AgreeAlong.regexes : ∀ p ∈ (regexes d1).zip (regexes d2), SameSpec p.1 p.2 := by
  intro p hp
  have hp1 := hasMetaChars_regexes d1 p.1 (of_mem_zip hp).1
  have hp2 := hasMetaChars_regexes d2 p.2 (of_mem_zip hp).2
  exact .of_sameEntry (hp1.trans hp2.symm) (h.1 p hp)

theorem AgreeAlong.exacts : ∀ p ∈ (exacts d1).zip (exacts d2), SameSpec p.1 p.2 := by
  intro p hp
  have hp1 := hasMetaChars_exacts d1 p.1 (of_mem_zip hp).1
  have hp2 := hasMetaChars_exacts d2 p.2 (of_mem_zip hp).2
  exact .of_sameEntry (hp1.trans hp2.symm) (h.2 p hp)

theorem AgreeAlong.subset_iff :
    SublistForall₂ SameSpec (sortSpecs d1).specArr (sortSpecs d2).specArr ↔
      (Label.regexes d1).length ≤ (Label.regexes d2).length ∧
        (Label.exacts d1).length ≤ (Label.exacts d2).length := by
  rw [specArr_sortSpecs, specArr_sortSpecs]
  exact sublistForall₂_iff_length (fun _ _ hst => hst.1) (hasMetaChars_regexes d1)
    (hasMetaChars_exacts d1) (hasMetaChars_regexes d2) (hasMetaChars_exacts d2) h.regexes h.exacts

theorem AgreeAlong.superset_iff :
    SublistForall₂ (flip SameSpec) (sortSpecs d2).specArr (sortSpecs d1).specArr ↔
      (Label.regexes d2).length ≤ (Label.regexes d1).length ∧
        (Label.exacts d2).length ≤ (Label.exacts d1).length := by
  have hflip : ∀ {l1 l2 : List (Spec ρ)}, (∀ p ∈ l1.zip l2, SameSpec p.1 p.2) →
      ∀ p ∈ l2.zip l1, flip SameSpec p.1 p.2 := by
    intro l1 l2 hl p hp
    rw [← zip_swap, mem_map] at hp
    obtain ⟨q, hq, rfl⟩ := hp
    exact hl q hq
  rw [specArr_sortSpecs, specArr_sortSpecs]
  exact sublistForall₂_iff_length (fun _ _ hst => hst.1.symm) (hasMetaChars_regexes d2)
    (hasMetaChars_exacts d2) (hasMetaChars_regexes d1) (hasMetaChars_exacts d1)
    (hflip h.regexes) (hflip h.exacts)

end Agree

/-- One handle has more regular expressions and the other more exact pathnames. -/
def Opposed (d1 d2 : SavedData ρ) : Prop :=
  ((regexes d2).length < (regexes d1).length ∧ (exacts d1).length < (exacts d2).length) ∨
  ((regexes d1).length < (regexes d2).length ∧ (exacts d2).length < (exacts d1).length)

/-- The verdict is sound unless the numbers of regular expressions and of exact pathnames are
opposed and the walk finds no two entries that differ: it then calls the handle with more regular
expressions the superset and forgets the exact pathnames left over in the other one. -/
theorem cmp_sound_iff (d1 d2 : SavedData ρ) :
    (cmp (sortSpecs d1) (sortSpecs d2)).Sound (sortSpecs d1) (sortSpecs d2) ↔
      ¬(Opposed d1 d2 ∧ AgreeAlong d1 d2) := by
  rw [cmp_sortSpecs]
  by_cases hagree : AgreeAlong d1 d2
  swap
  · simp [hagree, CmpResult.Sound]
  rw [if_pos hagree, and_iff_left hagree, countVerdict, Opposed]
  rcases Nat.lt_trichotomy (regexes d1).length (regexes d2).length with hlt | heq | hgt
  · rw [Nat.compare_eq_lt.mpr hlt, CmpResult.Sound, hagree.subset_iff]
    omega
  · rw [Nat.compare_eq_eq.mpr heq]
    rcases Nat.lt_trichotomy (exacts d1).length (exacts d2).length with hlt' | heq' | hgt'
    · rw [Nat.compare_eq_lt.mpr hlt', CmpResult.Sound, hagree.subset_iff]
      omega
    · rw [Nat.compare_eq_eq.mpr heq', CmpResult.Sound, specArr_sortSpecs, specArr_sortSpecs]
      have hreg := forall₂_take hagree.regexes heq.le
      have hex := forall₂_take hagree.exacts heq'.le
      rw [heq, take_length] at hreg
      rw [heq', take_length] at hex
      simp [rel_append hreg hex, heq, heq']
    · rw [Nat.compare_eq_gt.mpr hgt', CmpResult.Sound, hagree.superset_iff]
      omega
  · rw [Nat.compare_eq_gt.mpr hgt, CmpResult.Sound, hagree.superset_iff]
    omega

/-- A handle with one specification and no stems. -/
def singleSpec (regexStr : String) (hasMetaChars : Bool) : SavedData ρ where
  specArr := [⟨.ofString "u:object_r:t", false, .ofString regexStr, none, 0, none, hasMetaChars, 0⟩]
  stemArr := []
  stemId_lt := by simp

/-- A handle with the one pattern `/a.*` is called a superset of one with the pathname `/b`. -/
theorem cmp_unsound :
    cmp (sortSpecs (singleSpec "/a.*" true : SavedData Unit)) (sortSpecs (singleSpec "/b" false)) =
      .superset ∧
    ¬SublistForall₂ (flip SameSpec) (sortSpecs (singleSpec "/b" false : SavedData Unit)).specArr
      (sortSpecs (singleSpec "/a.*" true)).specArr := by
  constructor
  · rw [cmp_sortSpecs]
    decide
  · rw [specArr_sortSpecs, specArr_sortSpecs]
    intro h
    exact absurd (countP_hasMetaChars_le (fun _ _ hst => hst.1.symm) h false) (by decide)

end SELinux.Label
