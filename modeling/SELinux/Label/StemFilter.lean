import SELinux.Label.StemTable
import SELinux.Lib.Regex

/-!
# The stem of a pattern and the paths that it matches

A stem is cut off the text of a pattern, up to its second slash. The lookup relies on the stem of
every path that the pattern matches to be the same text.

That is so if the stem stands for itself and the slash behind it has to be there. It fails where
another alternative matches, where a backslash belongs to the stem, and where the slash is optional
and left out.
-/

namespace SELinux.Label

open List
open Lib (CString)
open Lib.Regex

variable {ρ : Type}

/-! ## Stems as texts -/

/-- The stem of a pattern; it is empty if there is none. -/
def specStem (buf : CString) : List (BitVec 8) := buf.bytes.take (getStemFromSpec buf)

variable {buf key : CString} {x : Item} {b : Branch} {p : Pattern} {w : List (BitVec 8)}
  {d : SavedData ρ}

/-- A stem is nonempty text without meta characters, and the second slash is behind it. -/
theorem specStem_spec (h : getStemFromSpec buf ≠ 0) :
    ∃ c s rest, specStem buf = c :: s ∧ buf.bytes = c :: s ++ slash :: rest ∧ slash ∉ s ∧
      ∀ d ∈ c :: s, d ∉ metaChars := by
  rw [specStem]
  cases hidx : (buf.bytes.drop 1).idxOf? (charByte '/') with
  | none =>
    simp only [getStemFromSpec, hidx] at h
    exact absurd rfl h
  | some i =>
    have hstem : getStemFromSpec buf = i + 1 ∧ ¬(buf.bytes.take (i + 1)).any (· ∈ metaChars) := by
      simp only [getStemFromSpec, hidx] at h ⊢
      simpa using h
    obtain ⟨s, rest, hdrop, hs, rfl⟩ := Lib.idxOf?_eq_some_iff.mp hidx
    obtain ⟨c, hc⟩ : ∃ c, buf.bytes = c :: s ++ slash :: rest := by
      cases hbytes : buf.bytes with
      | nil =>
        rw [hbytes] at hdrop
        simp at hdrop
      | cons c bytes =>
        simpa [hbytes] using hdrop
    have htake : buf.bytes.take (s.length + 1) = c :: s := by simp [hc]
    rw [htake] at hstem
    exact ⟨c, s, rest, by rw [hstem.1, htake], hc, hs, by simpa using hstem.2⟩

/-- A key has a given stem if that and a slash are what it begins with. -/
theorem stem_eq_iff {c s} (hs : slash ∉ s) (key : CString) :
    c :: s = key.bytes.take (getStemFromFileName key) ↔ c :: s ++ [slash] <+: key.bytes := by
  constructor
  · intro h
    cases hidx : (key.bytes.drop 1).idxOf? slash with
    | none =>
      simp only [getStemFromFileName, hidx] at h
      cases h
    | some i =>
      obtain ⟨t, rest, hdrop, -, rfl⟩ := Lib.idxOf?_eq_some_iff.mp hidx
      simp only [getStemFromFileName, hidx] at h
      cases hkey : key.bytes with
      | nil => simp [hkey] at h
      | cons d bytes =>
        rw [hkey, drop_one, tail_cons] at hdrop
        rw [h, hkey, hdrop]
        simp
  · rintro ⟨rest, hrest⟩
    have hidx : (key.bytes.drop 1).idxOf? slash = some s.length := by
      refine Lib.idxOf?_eq_some_iff.mpr ⟨s, rest, ?_, hs, rfl⟩
      rw [← hrest]
      simp
    simp only [getStemFromFileName, hidx]
    simp [← hrest]

/-! ## The slash behind the stem -/

theorem opening_subset {c} (h : c ∈ opening) : c ∈ metaChars := by
  revert c
  decide

theorem quantifying_subset {c} (h : c ∈ quantifying) : c ∈ metaChars := by
  revert c
  decide

theorem slash_not_metaChar : slash ∉ metaChars := by decide

theorem slash_not_special : slash ∉ special := by decide

theorem isAlnum_slash : isAlnum slash = false := by decide

/-- A slash in a pattern, with or without a backslash. -/
def slashAtom : Bool → Atom
  | false => .lit slash slash_not_special
  | true => .esc slash isAlnum_slash

theorem words_slashAtom (escaped : Bool) : (slashAtom escaped).words = {[slash]} := by
  cases escaped <;> rfl

/-- What a backslash in front of the slash adds to the stem. -/
def escapeText (escaped : Bool) : List (BitVec 8) := if escaped then [backslash] else []

/-- A literal or an escape that is taken once. -/
def Plain (x : Item) : Prop := x.quant = .once ∧ ∀ c ∈ x.atom.text.head?, c ∉ opening

/-- Where the stem of a pattern ends: with a slash in its first alternative. -/
structure StemEnd (buf : CString) (p : Pattern) where
  before : Branch
  escaped : Bool
  quant : Quantifier
  after : Branch
  first_eq : p.first = before ++ ⟨slashAtom escaped, quant⟩ :: after
  stem_eq : specStem buf = before.text ++ escapeText escaped
  plain : ∀ x ∈ before, Plain x

theorem quant_eq_once {q : Quantifier} {text s rest} (hs : ∀ d ∈ s, d ∉ metaChars)
    (h : q.text ++ text = s ++ slash :: rest) : q = .once := by
  rcases q.once_or_text_cons with hq | ⟨c, hc, more, htext⟩
  · exact hq
  · rw [htext] at h
    cases s with
    | nil => exact absurd (quantifying_subset hc) ((cons.inj h).1 ▸ slash_not_metaChar)
    | cons d s => exact absurd (quantifying_subset hc) ((cons.inj h).1 ▸ hs d (by simp))

theorem backslash_not_opening : ∀ c ∈ some backslash, c ∉ opening := by decide

theorem bar_metaChar : bar ∈ metaChars := by decide

/-- Text without a slash ends before the slash. -/
theorem append_eq_of_not_mem {name text s rest} (hname : slash ∉ name)
    (h : name ++ text = s ++ slash :: rest) :
    ∃ s', s = name ++ s' ∧ text = s' ++ slash :: rest := by
  rcases append_eq_append_iff.mp h with ⟨s', hs, htext⟩ | ⟨t, ht, htext⟩
  · exact ⟨s', hs, htext⟩
  · cases t with
    | nil => exact ⟨[], by simp [ht], htext.symm⟩
    | cons d t =>
      rw [ht, ← (cons.inj htext).1] at hname
      exact absurd (mem_append_right _ mem_cons_self) hname

theorem item_cases {text s rest} (hs : ∀ d ∈ s, d ∉ metaChars)
    (h : x.text ++ text = s ++ slash :: rest) :
    (∃ s', s = x.text ++ s' ∧ text = s' ++ slash :: rest ∧ Plain x) ∨
      ∃ escaped, x.atom = slashAtom escaped ∧ s = escapeText escaped := by
  obtain ⟨atom, quant⟩ := x
  rw [Item.text, append_assoc] at h
  cases atom with
  | lit c plain =>
    cases s with
    | nil =>
      right
      obtain ⟨rfl, -⟩ := cons.inj h
      exact ⟨false, rfl, rfl⟩
    | cons d s =>
      left
      obtain ⟨rfl, htail⟩ := cons.inj h
      obtain rfl := quant_eq_once (fun d hd => hs d (mem_cons_of_mem _ hd)) htail
      refine ⟨s, rfl, htail, rfl, fun e he ho => ?_⟩
      obtain rfl := Option.some.inj he
      exact hs c mem_cons_self (opening_subset ho)
  | esc c sign =>
    cases s with
    | nil => exact absurd (cons.inj h).1 (by decide)
    | cons d s =>
      obtain ⟨rfl, htail⟩ := cons.inj h
      cases s with
      | nil =>
        right
        obtain ⟨rfl, -⟩ := cons.inj htail
        exact ⟨true, rfl, rfl⟩
      | cons e s =>
        left
        obtain ⟨rfl, hrest⟩ := cons.inj htail
        obtain rfl := quant_eq_once
          (fun d hd => hs d (mem_cons_of_mem _ (mem_cons_of_mem _ hd))) hrest
        exact ⟨s, rfl, hrest, rfl, backslash_not_opening⟩
  | cls name words hname hwords =>
    cases s with
    | nil => exact absurd (cons.inj h).1 (by decide)
    | cons d s =>
      left
      obtain ⟨rfl, htail⟩ := cons.inj h
      obtain ⟨s', rfl, hrest⟩ := append_eq_of_not_mem hname htail
      obtain rfl := quant_eq_once
        (fun d hd => hs d (mem_cons_of_mem _ (mem_append_right name hd))) hrest
      refine ⟨s', ?_, hrest, rfl, backslash_not_opening⟩
      simp [Item.text, Atom.text, Quantifier.text]
  | other t words opens =>
    obtain ⟨c, hc, ho⟩ := opens
    obtain ⟨t', rfl⟩ := head?_eq_some_iff.mp hc
    cases s with
    | nil => exact absurd (opening_subset ho) ((cons.inj h).1 ▸ slash_not_metaChar)
    | cons d s => exact absurd (opening_subset ho) ((cons.inj h).1 ▸ hs d mem_cons_self)

theorem branch_split {s rest} (hs : ∀ d ∈ s, d ∉ metaChars) (h : b.text = s ++ slash :: rest) :
    ∃ (before : Branch) (escaped : Bool) (quant : Quantifier) (after : Branch),
      b = before ++ ⟨slashAtom escaped, quant⟩ :: after ∧ s = before.text ++ escapeText escaped ∧
        ∀ x ∈ before, Plain x := by
  induction b generalizing s with
  | nil =>
    exact absurd h.symm (by simp)
  | cons x b ih =>
    rcases item_cases hs h with ⟨s', rfl, htext, hx⟩ | ⟨escaped, hatom, rfl⟩
    · obtain ⟨before, escaped, quant, after, rfl, rfl, hplain⟩ :=
        ih (fun d hd => hs d (mem_append_right _ hd)) htext
      refine ⟨x :: before, escaped, quant, after, rfl, by simp, ?_⟩
      intro y hy
      rcases mem_cons.mp hy with rfl | hy
      · exact hx
      · exact hplain y hy
    · exact ⟨[], escaped, x.quant, b, by rw [← hatom]; rfl, rfl, by simp⟩

/-- The stem lies in the first alternative. -/
theorem StemEnd.exists (hbuf : buf.bytes = p.text)
    (h : getStemFromSpec buf ≠ 0) : Nonempty (StemEnd buf p) := by
  obtain ⟨c, s, rest, hstem, hbytes, -, hmeta⟩ := specStem_spec h
  have hfirst : ∃ rest, p.first.text = c :: s ++ slash :: rest := by
    rw [hbuf] at hbytes
    rcases p.text_eq with htext | ⟨more, htext⟩
    · exact ⟨rest, htext ▸ hbytes⟩
    · rw [htext] at hbytes
      rcases append_eq_append_iff.mp hbytes with ⟨t, hleft, hright⟩ | ⟨t, hleft, hright⟩
      · -- the bar would be part of the stem, or the slash
        cases t with
        | nil => exact absurd (cons.inj hright).1 (by decide)
        | cons d t =>
          have hd : d ∈ c :: s := hleft ▸ mem_append_right _ mem_cons_self
          exact absurd ((cons.inj hright).1 ▸ bar_metaChar) (hmeta d hd)
      · cases t with
        | nil => exact absurd (cons.inj hright).1 (by decide)
        | cons d t => exact ⟨t, (cons.inj hright).1 ▸ hleft⟩
  obtain ⟨rest, hfirst⟩ := hfirst
  obtain ⟨before, escaped, quant, after, heq, htext, hplain⟩ := branch_split hmeta hfirst
  exact ⟨⟨before, escaped, quant, after, heq, hstem.trans htext, hplain⟩⟩

/-! ## What a stem matches -/

/-- A slash behind less than the stem belongs to the stem. -/
theorem eq_append_slash {s tail rest : List (BitVec 8)} (hlt : w.length < s.length)
    (h : s ++ ([slash] ++ tail) = w ++ slash :: rest) : ∃ t, s = w ++ slash :: t := by
  rcases append_eq_append_iff.mp h with ⟨t, ht, -⟩ | ⟨t, ht, htext⟩
  · rw [ht, length_append] at hlt
    omega
  · cases t with
    | nil =>
      rw [ht, append_nil] at hlt
      omega
    | cons d t => exact ⟨t, (cons.inj htext).1 ▸ ht⟩

/-- A plain item matches its own text, or less than its text if that begins with a backslash. -/
theorem Plain.words (hx : Plain x) (hw : w ∈ x.words) :
    (w = x.text ∧ w ≠ [] ∧ backslash ∉ x.text) ∨ w.length < x.text.length ∧
      x.text.head? = some backslash := by
  obtain ⟨atom, quant⟩ := x
  obtain ⟨rfl, hopen⟩ := hx
  rw [Item.mem_words_once] at hw
  simp only [Item.text, Quantifier.text, append_nil]
  cases atom with
  | lit c plain =>
    left
    obtain rfl : w = [c] := hw
    refine ⟨rfl, by simp, fun h => plain ?_⟩
    rw [← mem_singleton.mp h]
    decide
  | esc c sign =>
    right
    obtain rfl : w = [c] := hw
    exact ⟨by simp [Atom.text], rfl⟩
  | cls name words hname hwords =>
    right
    exact ⟨Nat.lt_succ_of_le (hwords w hw), rfl⟩
  | other text words opens =>
    obtain ⟨c, hc, ho⟩ := opens
    exact absurd ho (hopen c hc)

/-- Without backslashes a plain branch matches its text only, with them it matches less. -/
theorem words_plain (hb : ∀ x ∈ b, Plain x) (hw : w ∈ b.words) : (w = b.text ∧ backslash ∉ b.text) ∨
      w.length < b.text.length ∧ backslash ∈ b.text ∧ (w = [] → b.text.head? = some backslash) := by
  induction b generalizing w with
  | nil => exact .inl ⟨hw, by simp⟩
  | cons x b ih =>
    obtain ⟨u, hu, v, hv, rfl⟩ := hw
    have ih := ih (fun y hy => hb y (mem_cons_of_mem x hy)) hv
    have hle : v.length ≤ (Branch.text b).length := by
      rcases ih with ⟨rfl, -⟩ | ⟨hlt, -⟩
      · exact Nat.le_refl _
      · exact Nat.le_of_lt hlt
    rw [Branch.text_cons]
    rcases (hb x mem_cons_self).words hu with ⟨rfl, hne, hx⟩ | ⟨hlt, hhead⟩
    · rcases ih with ⟨rfl, hb'⟩ | ⟨hlt, hmem, -⟩
      · exact .inl ⟨rfl, by simp [hx, hb']⟩
      · simp [hne, hlt, hmem]
    · right
      obtain ⟨text, htext⟩ := head?_eq_some_iff.mp hhead
      refine ⟨?_, by simp [htext], fun _ => by simp [htext]⟩
      rw [length_append, length_append]
      omega

/-! ## Safe stems -/

namespace StemEnd

/-- What the first alternative matches with so many slashes behind the stem. -/
def words (e : StemEnd buf p) (n : Nat) : Language (BitVec 8) :=
  Branch.words e.before * ({[slash]} ^ n * Branch.words e.after)

variable (e : StemEnd buf p)

theorem mem_first_words {w} : w ∈ p.first.words ↔ ∃ n, e.quant.Allows n ∧ w ∈ e.words n := by
  rw [e.first_eq, Branch.words_append, Branch.words_cons, Language.mem_mul]
  constructor
  · rintro ⟨u, hu, v, hv, rfl⟩
    obtain ⟨x, ⟨n, hn, hx⟩, y, hy, rfl⟩ := Language.mem_mul.mp hv
    rw [words_slashAtom] at hx
    exact ⟨n, hn, Language.append_mem_mul hu (Language.append_mem_mul hx hy)⟩
  · rintro ⟨n, hn, hw⟩
    obtain ⟨u, hu, v, hv, rfl⟩ := Language.mem_mul.mp hw
    obtain ⟨x, hx, y, hy, rfl⟩ := Language.mem_mul.mp hv
    refine ⟨u, hu, x ++ y, Language.append_mem_mul ⟨n, hn, ?_⟩ hy, rfl⟩
    rwa [words_slashAtom]

theorem matchesBy_zero_iff {key} : p.MatchesBy 0 key ↔ ∃ n, e.quant.Allows n ∧
    p.Finds 0 (e.words n) key := by
  rw [Pattern.matchesBy_zero]
  constructor
  · rintro ⟨before, word, after, hkey, hword, hends⟩
    obtain ⟨n, hn, hword⟩ := e.mem_first_words.mp hword
    exact ⟨n, hn, before, word, after, hkey, hword, hends⟩
  · rintro ⟨n, hn, hfinds⟩
    exact hfinds.mono fun w hw => e.mem_first_words.mpr ⟨n, hn, hw⟩

/-- With a slash taken, it follows what is matched in front of it. -/
theorem key_eq_of_finds {n key} (h : p.Finds 0 (e.words (n + 1)) key) :
    ∃ w ∈ Branch.words e.before, ∃ rest, key = w ++ slash :: rest := by
  obtain ⟨before, word, after, rfl, hword, hbefore, -⟩ := h
  obtain ⟨w, hw, v, hv, rfl⟩ := Language.mem_mul.mp hword
  obtain ⟨x, hx, y, -, rfl⟩ := Language.mem_mul.mp hv
  rw [pow_succ'] at hx
  obtain ⟨z, hz, x, -, rfl⟩ := Language.mem_mul.mp hx
  obtain rfl : z = [slash] := hz
  refine ⟨w, hw, x ++ y ++ after, ?_⟩
  simp [hbefore rfl]

/-- No path in normal form is matched but below the stem: not by another alternative, not with a
backslash in the stem, and not without the slash behind it. -/
structure Safe (e : StemEnd buf p) : Prop where
  others : ∀ i ≠ 0, ∀ key : CString, Normal key.bytes → ¬p.MatchesBy i key.bytes
  escapes : backslash ∈ specStem buf → ∀ n, e.quant.Allows (n + 1) →
    ∀ key : CString, Normal key.bytes → ¬p.Finds 0 (e.words (n + 1)) key.bytes
  omitted : e.quant.Allows 0 → ∀ key : CString, Normal key.bytes →
    p.Finds 0 (e.words 0) key.bytes → specStem buf ++ [slash] <+: key.bytes

theorem Safe.below {e : StemEnd buf p} (he : e.Safe) (hkey : Normal key.bytes)
    (h : p.Matches key.bytes) : specStem buf ++ [slash] <+: key.bytes := by
  obtain ⟨i, h⟩ := h
  by_cases hi : i = 0
  swap
  · exact absurd h (he.others i hi key hkey)
  subst hi
  obtain ⟨n, hn, hfinds⟩ := e.matchesBy_zero_iff.mp h
  cases n with
  | zero => exact he.omitted hn key hkey hfinds
  | succ n =>
    have hplain : backslash ∉ specStem buf := fun hb => he.escapes hb n hn key hkey hfinds
    obtain ⟨w, hw, rest, hrest⟩ := e.key_eq_of_finds hfinds
    have hstem := e.stem_eq
    rw [hstem] at hplain ⊢
    have hescape : escapeText e.escaped = [] := by
      cases h : e.escaped with
      | false => rfl
      | true => exact absurd (mem_append_right _ (by simp [h, escapeText])) hplain
    rw [hescape, append_nil] at hplain ⊢
    rcases words_plain e.plain hw with ⟨rfl, -⟩ | ⟨-, hmem, -⟩
    · simp [hrest]
    · exact absurd hmem hplain

/-- A character that is neither a slash nor the given one. -/
def differentFrom (c : BitVec 8) : BitVec 8 := if c = 0x61 then 0x62 else 0x61

theorem differentFrom_ne (c : BitVec 8) : differentFrom c ≠ c ∧ differentFrom c ≠ slash ∧
    differentFrom c ≠ 0 := by
  rw [differentFrom]
  by_cases h : c = 0x61
  · rw [if_pos h, h]
    decide
  · rw [if_neg h]
    exact ⟨Ne.symm h, by decide, by decide⟩

theorem safe_of_below (hpos : getStemFromSpec buf ≠ 0)
    (h : ∀ key : CString, Normal key.bytes → p.Matches key.bytes →
      specStem buf ++ [slash] <+: key.bytes) : e.Safe := by
  obtain ⟨c, s, -, hstem, -, hs, -⟩ := specStem_spec hpos
  refine ⟨fun i hi key hkey hmatch => ?_, fun hb n hn key hkey hfinds => ?_,
    fun hn key hkey hfinds => h key hkey ⟨0, e.matchesBy_zero_iff.mpr ⟨0, hn, hfinds⟩⟩⟩
  · -- the same alternative matches behind a character that no stem begins with
    obtain ⟨hc, hd, h0⟩ := differentFrom_ne c
    by_cases hroot : key.bytes = [slash]
    · have hbegin := h key hkey ⟨i, hmatch⟩
      simp [hstem, hroot] at hbegin
    · let other : CString := ⟨differentFrom c :: key.bytes, by simpa using ⟨h0.symm, key.nonzero⟩⟩
      have hother : Normal other.bytes := hkey.cons hroot hd
      have hbegin := h other hother ⟨i, hmatch.cons hi _⟩
      rw [hstem] at hbegin
      exact hc (cons_prefix_cons.mp hbegin).1.symm
  · -- what is matched in front of the slash is shorter than the stem
    obtain ⟨w, hw, rest, hrest⟩ := e.key_eq_of_finds hfinds
    obtain ⟨tail, htail⟩ := h key hkey ⟨0, e.matchesBy_zero_iff.mpr ⟨n + 1, hn, hfinds⟩⟩
    rw [hrest, append_assoc] at htail
    rcases words_plain e.plain hw with ⟨rfl, hplain⟩ | ⟨hlt, -, hnil⟩
    · -- then it is the slash that is escaped
      rw [e.stem_eq] at hb htail
      cases hescaped : e.escaped with
      | false => simp [hescaped, escapeText, hplain] at hb
      | true =>
        rw [hescaped, escapeText, if_pos rfl, append_assoc] at htail
        exact absurd (cons.inj (append_cancel_left htail)).1 (by decide)
    · have hshort : w.length < (specStem buf).length := by
        rw [e.stem_eq, length_append]
        omega
      obtain ⟨t, ht⟩ := eq_append_slash hshort htail
      cases w with
      | nil =>
        obtain ⟨text, htext⟩ := head?_eq_some_iff.mp (hnil rfl)
        rw [e.stem_eq, htext] at ht
        exact absurd (cons.inj ht).1 (by decide)
      | cons d w =>
        rw [hstem] at ht
        exact hs ((cons.inj ht).2 ▸ mem_append_right w mem_cons_self)

end StemEnd

/-- The stem of a pattern filters out no path that the pattern matches. -/
def StemSafe (buf : CString) (p : Pattern) : Prop :=
  getStemFromSpec buf ≠ 0 → ∀ e : StemEnd buf p, e.Safe

theorem stemSafe_iff (hbuf : buf.bytes = p.text) :
    StemSafe buf p ↔ (getStemFromSpec buf ≠ 0 → ∀ key : CString, Normal key.bytes →
      p.Matches key.bytes → specStem buf = key.bytes.take (getStemFromFileName key)) := by
  refine imp_congr_right fun hpos => ?_
  obtain ⟨c, s, -, hstem, -, hs, -⟩ := specStem_spec hpos
  have hkeys (key : CString) : specStem buf = key.bytes.take (getStemFromFileName key) ↔
      specStem buf ++ [slash] <+: key.bytes := by
    rw [hstem]
    exact stem_eq_iff hs key
  simp only [hkeys]
  constructor
  · intro hsafe key hkey hmatch
    obtain ⟨e⟩ := StemEnd.exists hbuf hpos
    exact (hsafe e).below hkey hmatch
  · exact fun h e => e.safe_of_below hpos h

/-! ## The filter in the lookup -/

/-- The compiled form of a specification has the meaning of a pattern with the same text. -/
structure Means (lib : Library ρ) (regexMatch : RegexMatch ρ) (s : Spec ρ) (p : Pattern) :
    Prop where
  text_eq : s.regexStr.bytes = p.text
  compiled : ∃ regex, compileRegex lib s = some regex ∧ ∀ key : CString,
    (p.Matches key.bytes → regexMatch regex key.bytes false = .isMatch) ∧
      (¬p.Matches key.bytes → regexMatch regex key.bytes false = .noMatch)

/-- The stems make no difference: a pattern that matches has no stem or that of the key, and a
lookup finds what it would find without them. -/
structure StemsTransparent (lib : Library ρ) (regexMatch : RegexMatch ρ) (d : SavedData ρ)
    (pattern : Spec ρ → Pattern) : Prop where
  stem_eq : ∀ key : CString, Normal key.bytes → ∀ s ∈ d.specArr, (pattern s).Matches key.bytes →
    ∀ t ∈ d.stem s, t.buf.bytes = key.bytes.take (getStemFromFileName key)
  lookup_eq : ∀ subs key r, r.isPartial = false → (∀ k ∈ lookupKey subs key, Normal k.bytes) →
    lookupAll lib regexMatch d subs key r = lookupAllIgnoringStems lib regexMatch d subs key r

theorem lookupAll_eq {lib : Library ρ} {regexMatch : RegexMatch ρ}
    (hd : d.Indexed) {pattern : Spec ρ → Pattern}
    (hmeans : ∀ s ∈ d.specArr, Means lib regexMatch s (pattern s)) {subs : Subs}
    {r : Request} (hr : r.isPartial = false)
    (h : ∀ k ∈ lookupKey subs key, ∀ s ∈ d.specArr, (pattern s).Matches k.bytes →
      ∀ t ∈ d.stem s, t.buf.bytes = k.bytes.take (getStemFromFileName k)) :
    lookupAll lib regexMatch d subs key r = lookupAllIgnoringStems lib regexMatch d subs key r := by
  rw [lookupAll, lookupAllIgnoringStems]
  cases hk : lookupKey subs key with
  | none => rfl
  | some k =>
    refine lookupSpecs_congr lib regexMatch hr fun s hs => ?_
    rw [mem_reverse] at hs
    by_cases hmatch : (pattern s).Matches k.bytes
    · exact .inl ((stemMatches_iff hd hs).mpr (h k hk s hs hmatch))
    · obtain ⟨regex, hregex, hkey⟩ := (hmeans s hs).compiled
      exact .inr ⟨regex, hregex, (hkey k).2 hmatch⟩

theorem stemSafe_iff_stem_eq (hd : d.Indexed) {s : Spec ρ} (hs : s ∈ d.specArr)
    (htext : s.regexStr.bytes = p.text) :
    StemSafe s.regexStr p ↔ ∀ key : CString, Normal key.bytes → p.Matches key.bytes →
      ∀ t ∈ d.stem s, t.buf.bytes = key.bytes.take (getStemFromFileName key) := by
  rw [stemSafe_iff htext, hd.stem_eq s hs]
  by_cases hpos : getStemFromSpec s.regexStr = 0
  · simp [hpos]
  · simp [hpos, bytes_stemOf, specStem]

/-- Stems make no difference to lookups if and only if all of them are safe. -/
theorem stemsTransparent_iff (lib : Library ρ) (regexMatch : RegexMatch ρ) (d : SavedData ρ)
    (hd : d.Indexed) (pattern : Spec ρ → Pattern)
    (hmeans : ∀ s ∈ d.specArr, Means lib regexMatch s (pattern s)) :
    StemsTransparent lib regexMatch d pattern ↔
      ∀ s ∈ d.specArr, StemSafe s.regexStr (pattern s) := by
  have hsafe : (∀ s ∈ d.specArr, StemSafe s.regexStr (pattern s)) ↔
      ∀ key : CString, Normal key.bytes → ∀ s ∈ d.specArr, (pattern s).Matches key.bytes →
        ∀ t ∈ d.stem s, t.buf.bytes = key.bytes.take (getStemFromFileName key) := by
    constructor
    · intro h key hkey s hs
      exact (stemSafe_iff_stem_eq hd hs (hmeans s hs).text_eq).mp (h s hs) key hkey
    · intro h s hs
      exact (stemSafe_iff_stem_eq hd hs (hmeans s hs).text_eq).mpr fun key hkey => h key hkey s hs
  rw [hsafe]
  constructor
  · exact fun h => h.stem_eq
  · intro h
    exact ⟨h, fun subs key r hr hnormal => lookupAll_eq hd hmeans hr fun k hk => h k (hnormal k hk)⟩

/-! ## An optional slash -/

theorem a_not_special : 0x61 ∉ special := by decide

theorem b_not_special : 0x62 ∉ special := by decide

/-- The pattern `/a/?b`. -/
def optionalSlash : Pattern where
  first := [⟨slashAtom false, .once⟩, ⟨.lit 0x61 a_not_special, .once⟩,
    ⟨slashAtom false, .times .opt false⟩, ⟨.lit 0x62 b_not_special, .once⟩]
  others := []

/-- A library in which every pattern has the meaning of this one. -/
def optionalSlashLibrary : Library Unit where
  validating := false
  regexPrepareData _ := some ()
  regexDecode _ := none
  regexVersion := none
  regexArchString := none
  selinuxValidate := some
  compatCallback := none

open Classical in
noncomputable def optionalSlashMatch : RegexMatch Unit := fun _ key _ =>
  if optionalSlash.Matches key then .isMatch else .noMatch

/-- The specification `/a/?b t`, as it is loaded from a file. -/
def optionalSlashData : SavedData Unit :=
  (processTextFile optionalSlashLibrary none ⟨.empty, .blank, none⟩ [.ofString "/a/?b t"]).1.data

def optionalSlashSpec : Spec Unit where
  ctxRaw := .ofString "t"
  validated := false
  regexStr := .ofString "/a/?b"
  regex := none
  mode := 0
  stemId := some 0
  hasMetaChars := true
  prefixLen := 3

theorem optionalSlashData_indexed : optionalSlashData.Indexed :=
  processTextFile_indexed _ _ _ _ SavedData.Indexed.empty

theorem optionalSlashData_specArr : optionalSlashData.specArr = [optionalSlashSpec] := by
  decide +kernel

theorem optionalSlashData_means : ∀ s ∈ optionalSlashData.specArr,
    Means optionalSlashLibrary optionalSlashMatch s optionalSlash := by
  rw [optionalSlashData_specArr]
  intro s hs
  rw [mem_singleton.mp hs]
  refine ⟨by decide +kernel, (), rfl, fun key => ⟨fun h => ?_, fun h => ?_⟩⟩
  · exact if_pos h
  · exact if_neg h

theorem optionalSlash_matches : optionalSlash.Matches (CString.ofString "/ab").bytes := by
  have hslash : [slash] ∈ Item.words ⟨slashAtom false, .once⟩ := (Item.mem_words_once _ _).mpr rfl
  have ha : [0x61] ∈ Item.words ⟨.lit 0x61 a_not_special, .once⟩ :=
    (Item.mem_words_once _ _).mpr rfl
  have hopt : [] ∈ Item.words ⟨slashAtom false, .times .opt false⟩ :=
    ⟨0, Nat.zero_le 1, by rfl⟩
  have hb : [0x62] ∈ Item.words ⟨.lit 0x62 b_not_special, .once⟩ :=
    (Item.mem_words_once _ _).mpr rfl
  have hwords : [slash] ++ ([0x61] ++ ([] ++ ([0x62] ++ []))) ∈ Branch.words optionalSlash.first :=
    Language.append_mem_mul hslash (Language.append_mem_mul ha
      (Language.append_mem_mul hopt (Language.append_mem_mul hb Language.nil_mem_one)))
  exact ⟨0, _, rfl, [], _, [], by decide +kernel, hwords, fun _ => rfl, fun _ => .inl rfl⟩

/-- The file `/ab` matches `/a/?b`, but has no stem, so the specification is not found. -/
theorem lookupAll_misses_match :
    lookupAll optionalSlashLibrary optionalSlashMatch optionalSlashData ⟨[], []⟩ (.ofString "/ab")
        ⟨false, false, 0⟩ = [] ∧
      lookupAllIgnoringStems optionalSlashLibrary optionalSlashMatch optionalSlashData ⟨[], []⟩
        (.ofString "/ab") ⟨false, false, 0⟩ = [optionalSlashSpec] ∧
      (∀ s ∈ optionalSlashData.specArr,
        Means optionalSlashLibrary optionalSlashMatch s optionalSlash) ∧
      Normal (CString.ofString "/ab").bytes := by
  have hkey : lookupKey ⟨[], []⟩ (.ofString "/ab") = some (.ofString "/ab") := by decide +kernel
  have hcompiled : compileRegex optionalSlashLibrary optionalSlashSpec = some () := rfl
  have hmatch : optionalSlashMatch () (CString.ofString "/ab").bytes false = .isMatch :=
    if_pos optionalSlash_matches
  have hctx : optionalSlashSpec.ctxRaw ≠ noneContext := by decide +kernel
  have hnormal : Normal (CString.ofString "/ab").bytes :=
    ⟨by decide +kernel, by decide +kernel, .inr (by decide +kernel)⟩
  refine ⟨?_, ?_, optionalSlashData_means, hnormal⟩
  · rfl
  · rw [lookupAllIgnoringStems, hkey, optionalSlashData_specArr]
    simp [lookupSpecs, hcompiled, hmatch, hctx]

theorem stemsTransparent_iff_optionalSlash :
    StemsTransparent optionalSlashLibrary optionalSlashMatch optionalSlashData
        (fun _ => optionalSlash) ↔
      ∀ s ∈ optionalSlashData.specArr, StemSafe s.regexStr optionalSlash :=
  stemsTransparent_iff _ _ _ optionalSlashData_indexed _ optionalSlashData_means

end SELinux.Label
