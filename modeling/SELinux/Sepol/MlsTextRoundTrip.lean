import Mathlib.Data.List.TakeDrop
import SELinux.Lib.Assoc
import SELinux.Sepol.MlsText

/-! What `mls_from_string` reads from the text that `mls_to_string` writes. -/
namespace SELinux.Sepol

open Ebitmap List
open Option (bind_eq_bind bind_some map_some)

/-! ## Tables and names -/

/-- What `policydb_index_others` and the validation of the levels leave: a name in a reverse
table leads back to its value, and the categories of a level are declared. -/
structure MlsDb.Indexed (m : MlsDb) : Prop where
  sens : ∀ i name, m.sensValToName.getD i none = some name →
    ∃ level, m.levels.lookup name = some level ∧ level.sens = i + 1
  cats : ∀ i name, m.catValToName.getD i none = some name → m.cats.lookup name = some (i + 1)
  named : ∀ name level, m.levels.lookup name = some level →
    ∀ c ∈ level.cat, ∃ n, m.catValToName.getD c none = some n

/-- A name without delimiters. -/
def PlainName (name : Name) : Prop := ∀ c ∈ name, c ≠ ':' ∧ c ≠ '-' ∧ c ≠ ',' ∧ c ≠ '.'

structure MlsDb.Plain (m : MlsDb) : Prop where
  sens : ∀ i name, m.sensValToName.getD i none = some name → PlainName name
  cats : ∀ i name, m.catValToName.getD i none = some name → PlainName name

instance (name : Name) : Decidable (PlainName name) :=
  decidableBAll (fun c => c ≠ ':' ∧ c ≠ '-' ∧ c ≠ ',' ∧ c ≠ '.') name

theorem lt_length_of_getD {table : List (Option Name)} {i name}
    (h : table.getD i none = some name) : i < table.length := by
  by_contra hge
  rw [getD_eq_getElem?_getD, getElem?_eq_none (by omega)] at h
  cases h

variable {m : MlsDb} {rest : Name} {r : Lib.Run Nat} {x : Nat} {e : Ebitmap} {p : FullPolicydb}

/-- The tables of a database are checked entry by entry. -/
theorem MlsDb.indexed_of_entries
    (hsens : ∀ i < m.sensValToName.length, ∀ name ∈ m.sensValToName.getD i none,
      (m.levels.lookup name).map MlsLevel.sens = some (i + 1))
    (hcats : ∀ i < m.catValToName.length, ∀ name ∈ m.catValToName.getD i none,
      m.cats.lookup name = some (i + 1))
    (hnamed : ∀ entry ∈ m.levels, ∀ c ∈ entry.2.cat.bits, (m.catValToName.getD c none).isSome =
      true) : m.Indexed where
  sens i name h := Option.map_eq_some_iff.mp (hsens i (lt_length_of_getD h) name h)
  cats i name h := hcats i (lt_length_of_getD h) name h
  named name level h c hc :=
    Option.isSome_iff_exists.mp (hnamed (name, level) (Lib.mem_of_lookup h) c hc)

theorem MlsDb.plain_of_entries
    (hsens : ∀ i < m.sensValToName.length, ∀ name ∈ m.sensValToName.getD i none, PlainName name)
    (hcats : ∀ i < m.catValToName.length, ∀ name ∈ m.catValToName.getD i none, PlainName name) :
      m.Plain where
  sens i name h := hsens i (lt_length_of_getD h) name h
  cats i name h := hcats i (lt_length_of_getD h) name h

/-! ## Tokens -/

theorem span_append {test token} (htoken : ∀ c ∈ token, test c = true)
    (hrest : ∀ c ∈ rest.head?, test c = false) : (token ++ rest).span test = (token, rest) := by
  rw [span_eq_takeWhile_dropWhile, takeWhile_append_of_pos htoken,
    dropWhile_append_of_pos htoken]
  cases rest with
  | nil => simp
  | cons c rest => simp [hrest c rfl]

theorem mlsToken_append {stop token} (htoken : ∀ c ∈ token, stop c = false)
    (hrest : ∀ c ∈ rest.head?, stop c = true) :
    mlsToken stop (token ++ rest) = (token, rest.head?, rest.tail) := by
  rw [mlsToken, span_append (fun c hc => by simp [htoken c hc]) fun c hc => by simp [hrest c hc]]
  cases rest <;> rfl

/-- What ends a category set: the end of the text or a dash. -/
def EndsLevel (tail : Name) : Prop := ∀ c ∈ tail.head?, c = '-'

/-- The text of the entries of a category set. -/
def tokensText : List Name → Name
  | [] => []
  | token :: tokens => ':' :: token ++ tokens.flatMap (',' :: ·)

theorem mlsCategories_tokens (syms : MlsSymbols) {tail : Name} (htail : EndsLevel tail)
    (tokens : List Name)
    (token : Name) (hplain : ∀ t ∈ token :: tokens, ∀ c ∈ t, c ≠ ',' ∧ c ≠ '-') (cat : Ebitmap)
    {fuel : Nat} (hfuel : tokens.length < fuel) :
    mlsCategories syms fuel cat (token ++ (tokens.flatMap (',' :: ·) ++ tail)) =
      ((token :: tokens).foldlM (mlsReadCats syms) cat).map fun cat =>
        (cat, tail.head?, tail.tail) := by
  obtain ⟨htoken, htokens⟩ := forall_mem_cons.mp hplain
  have hstop : ∀ c ∈ token, (c == ',' || c == '-') = false := fun c hc => by simpa using htoken c hc
  induction tokens generalizing token cat fuel with
  | nil =>
    cases fuel with
    | zero => cases hfuel
    | succ fuel =>
      have hend : ∀ c ∈ tail.head?, (c == ',' || c == '-') = true :=
        fun c hc => by simp [htail c hc]
      have hdelim : tail.head? ≠ some ',' := fun h => absurd (htail ',' h) (by decide)
      rw [mlsCategories, flatMap_nil, nil_append, mlsToken_append hstop hend, foldlM_cons]
      simp only [if_neg hdelim, foldlM_nil]
      cases mlsReadCats syms cat token <;> rfl
  | cons next tokens ih =>
    cases fuel with
    | zero => cases hfuel
    | succ fuel =>
      rw [flatMap_cons, mlsCategories, cons_append, cons_append,
        mlsToken_append hstop (by simp), foldlM_cons]
      simp only [head?_cons, tail_cons, if_pos]
      cases mlsReadCats syms cat token with
      | none => rfl
      | some cat =>
        obtain ⟨hnext, hrest⟩ := forall_mem_cons.mp htokens
        simp only [bind_eq_bind, bind_some]
        rw [append_assoc, ih next htokens cat (Nat.lt_of_succ_lt_succ hfuel) hnext hrest
          fun c hc => by
          simpa using hnext c hc]

theorem length_le_flatMap (tokens : List Name) :
    tokens.length ≤ (tokens.flatMap (',' :: ·)).length := by
  induction tokens with
  | nil => exact Nat.le_refl _
  | cons token tokens ih =>
    simp only [flatMap_cons, cons_append, length_cons, length_append]
    omega

theorem mlsReadLevel_text {syms : MlsSymbols} {stop} (tail : Name) (hcolon : stop ':' = true) {name}
    (hname : ∀ c ∈ name, stop c = false) {level} (hlevel : syms.levels.lookup name = some level)
    {tokens : List Name} (hplain : ∀ t ∈ tokens, ∀ c ∈ t, c ≠ ',' ∧ c ≠ '-')
    (htail : EndsLevel tail) (hdash : tokens = [] → ∀ c ∈ tail.head?, stop c = true)
    {first delim rest}
    (hfirst : mlsToken stop (name ++ (tokensText tokens ++ tail)) = (first, delim, rest)) :
    mlsReadLevel syms first delim rest = (tokens.foldlM (mlsReadCats syms) ∅).map fun cat =>
        ({ sens := level.sens, cat }, tail.head?, tail.tail) := by
  cases tokens with
  | nil =>
    have hdelim : tail.head? ≠ some ':' := fun h => absurd (htail ':' h) (by decide)
    rw [tokensText, nil_append, mlsToken_append hname (hdash rfl)] at hfirst
    cases hfirst
    simp only [mlsReadLevel, hlevel, if_neg hdelim]
    rfl
  | cons token tokens =>
    rw [tokensText, cons_append, cons_append, mlsToken_append hname (by simpa using hcolon),
      append_assoc] at hfirst
    cases hfirst
    have hfuel := length_le_flatMap tokens
    simp only [head?_cons, tail_cons, mlsReadLevel, hlevel, if_pos]
    rw [bind_eq_bind, bind_some, mlsCategories_tokens syms htail tokens token hplain ∅
      (by
      simp only [length_append]; omega)]
    cases (token :: tokens).foldlM (mlsReadCats syms) ∅ <;> rfl

/-! ## The entries of the runs -/

/-- The entries that the text of a run has. -/
def runTokens (p : FullPolicydb) (r : Lib.Run Nat) : Option (List Name) := do
  let first ← catName p r.first
  if r.rest = [] then some [first]
  else do
    let last ← catName p (r.close - 1)
    some (if 1 < r.rest.length then [first ++ '.' :: last] else [first, last])

def runsTokens (p : FullPolicydb) : List (Lib.Run Nat) → Option (List Name)
  | [] => some []
  | r :: rs => do
    let tokens ← runTokens p r
    let rest ← runsTokens p rs
    some (tokens ++ rest)

theorem runText_eq (p : FullPolicydb) (r : Lib.Run Nat) :
    (runText p r).map (',' :: ·) = (runTokens p r).map (flatMap (',' :: ·)) ∧
    (runText p r).map (':' :: ·) = (runTokens p r).map tokensText := by
  unfold runText runTokens
  cases catName p r.first with
  | none => exact ⟨rfl, rfl⟩
  | some first =>
    by_cases hrest : r.rest = []
    · simp [hrest, tokensText]
    · cases catName p (r.close - 1) with
      | none => simp [hrest]
      | some last => by_cases hlong : 1 < r.rest.length <;> simp [hrest, hlong, tokensText]

theorem runsText_true (p : FullPolicydb) (rs : List (Lib.Run Nat)) :
    runsText p true rs = (runsTokens p rs).map (flatMap (',' :: ·)) := by
  induction rs with
  | nil => rfl
  | cons r rs ih =>
    have htext := (runText_eq p r).1
    rw [runsText, runsTokens, ih]
    cases hr : runText p r with
    | none =>
      rw [hr, Option.map_none, eq_comm, Option.map_eq_none_iff] at htext
      rw [htext]
      rfl
    | some text =>
      rw [hr, map_some, eq_comm, Option.map_eq_some_iff] at htext
      obtain ⟨tokens, htokens, htext⟩ := htext
      rw [htokens]
      cases runsTokens p rs with
      | none => rfl
      | some rest => simp [htext]

theorem tokensText_append {tokens} (h : tokens ≠ []) (rest : List Name) :
    tokensText (tokens ++ rest) = tokensText tokens ++ rest.flatMap (',' :: ·) := by
  cases tokens with
  | nil => exact absurd rfl h
  | cons token tokens => simp [tokensText]

theorem runTokens_cases {p} {tokens} (h : runTokens p r = some tokens) :
    ∃ first, catName p r.first = some first ∧
      (r.rest = [] ∧ tokens = [first] ∨ r.rest ≠ [] ∧ ∃ last, catName p (r.close - 1) = some last ∧
        (1 < r.rest.length ∧ tokens = [first ++ '.' :: last] ∨
          ¬1 < r.rest.length ∧ tokens = [first, last])) := by
  obtain ⟨first, hfirst, h⟩ := Option.bind_eq_some_iff.mp h
  refine ⟨first, hfirst, ?_⟩
  by_cases hrest : r.rest = []
  · rw [if_pos hrest] at h
    cases h
    exact .inl ⟨hrest, rfl⟩
  · rw [if_neg hrest] at h
    obtain ⟨last, hlast, h⟩ := Option.bind_eq_some_iff.mp h
    cases h
    refine .inr ⟨hrest, last, hlast, ?_⟩
    by_cases hlong : 1 < r.rest.length
    · exact .inl ⟨hlong, if_pos hlong⟩
    · exact .inr ⟨hlong, if_neg hlong⟩

theorem runTokens_ne_nil {p r tokens} (h : runTokens p r = some tokens) : tokens ≠ [] := by
  obtain ⟨first, -, ⟨-, rfl⟩ | ⟨-, last, -, ⟨-, rfl⟩ | ⟨-, rfl⟩⟩⟩ := runTokens_cases h
  · exact cons_ne_nil _ _
  · exact cons_ne_nil _ _
  · exact cons_ne_nil _ _

theorem runsText_false (p : FullPolicydb) (rs : List (Lib.Run Nat)) :
    runsText p false rs = (runsTokens p rs).map tokensText := by
  cases rs with
  | nil => rfl
  | cons r rs =>
    have htext := (runText_eq p r).2
    rw [runsText, runsTokens, runsText_true]
    cases hr : runText p r with
    | none =>
      rw [hr, Option.map_none, eq_comm, Option.map_eq_none_iff] at htext
      rw [htext]
      rfl
    | some text =>
      rw [hr, map_some, eq_comm, Option.map_eq_some_iff] at htext
      obtain ⟨tokens, htokens, htext⟩ := htext
      rw [htokens]
      cases runsTokens p rs with
      | none => rfl
      | some rest => simp [tokensText_append (runTokens_ne_nil htokens), htext]

/-! ## What is read back -/

/-- The categories that the text of a run stands for. -/
def Spelled (r : Lib.Run Nat) (x : Nat) : Prop :=
  if 1 < r.rest.length then r.first ≤ x ∧ x ≤ r.close - 1
  else x = r.first ∨ r.rest ≠ [] ∧ x = r.close - 1

theorem mlsSetCats_spec {value n : Nat} (hlimit : value + n ≤ ebitmapLimit) (cat : Ebitmap) :
    ∃ cat', mlsSetCats cat value n = some cat' ∧ ∀ x, x ∈ cat' ↔ x ∈ cat ∨ value ≤ x ∧
      x < value + n := by
  induction n generalizing value cat with
  | zero => exact ⟨cat, rfl, fun x => by simp⟩
  | succ n ih =>
    obtain ⟨cat', hcat', hmem⟩ := ih (show value + 1 + n ≤ ebitmapLimit by omega)
      (cat.set value (by omega))
    refine ⟨cat', ?_, fun x => ?_⟩
    · rw [mlsSetCats, ebitmapSetBit_true (by omega)]
      exact hcat'
    · have hsplit : value ≤ x ∧ x < value + (n + 1) ↔ x = value ∨ value + 1 ≤ x ∧
        x < value + 1 + n := by
        omega
      rw [hmem, Ebitmap.mem_set, hsplit, or_assoc, or_left_comm]

section Read

variable (hindex : p.mlsDb.Indexed) (hplain : p.mlsDb.Plain)
include hindex hplain

theorem mlsReadCats_name {i} (hi : i < ebitmapLimit) {name} (hname : catName p i = some name)
    (cat : Ebitmap) : mlsReadCats p.mlsDb.toMlsSymbols cat name = some (cat.set i hi) := by
  have hspan : name.span (fun c => c != '.') = (name, []) := by
    have hempty : (name ++ []).span (fun c => c != '.') = (name, []) :=
      span_append (fun c hc => by simpa using (hplain.cats i name hname c hc).2.2.2) (by simp)
    rwa [append_nil] at hempty
  unfold mlsReadCats
  rw [hspan]
  simp only [hindex.cats i name hname, bind_eq_bind, bind_some, mlsSetCat,
    Nat.add_sub_cancel, if_neg (Nat.succ_ne_zero i), ebitmapSetBit_true hi]
  rfl

theorem mlsReadCats_range {i j} (hij : i < j) (hj : j < ebitmapLimit) {first last}
    (hfirst : catName p i = some first) (hlast : catName p j = some last) (cat : Ebitmap) :
    ∃ cat', mlsReadCats p.mlsDb.toMlsSymbols cat (first ++ '.' :: last) = some cat' ∧
      ∀ x, x ∈ cat' ↔ x ∈ cat ∨ i ≤ x ∧ x ≤ j := by
  have hspan : (first ++ '.' :: last).span (fun c => c != '.') = (first, '.' :: last) :=
    span_append (fun c hc => by simpa using (hplain.cats i first hfirst c hc).2.2.2) (by simp)
  obtain ⟨cat', hcat', hmem⟩ := mlsSetCats_spec (show i + 1 + (j - i) ≤ ebitmapLimit by omega)
    (cat.set i (by omega))
  refine ⟨cat', ?_, fun x => ?_⟩
  · unfold mlsReadCats
    rw [hspan]
    simp only [hindex.cats i first hfirst, hindex.cats j last hlast, bind_eq_bind,
      bind_some,
      mlsSetCat, Nat.add_sub_cancel, if_neg (Nat.succ_ne_zero i),
        ebitmapSetBit_true (show i < ebitmapLimit by omega),
      Except.toOption]
    rw [if_neg (by omega), show j + 1 - (i + 1) = j - i by omega, hcat']
  · have hsplit : i ≤ x ∧ x ≤ j ↔ x = i ∨ i + 1 ≤ x ∧ x < i + 1 + (j - i) := by omega
    rw [hmem, Ebitmap.mem_set, hsplit, or_assoc, or_left_comm]

theorem readRun (hfirst : r.first < ebitmapLimit) (hclose : r.close - 1 < ebitmapLimit)
    (hlong : 1 < r.rest.length → r.first < r.close - 1) {tokens : List Name}
    (h : runTokens p r = some tokens) (cat : Ebitmap) :
    ∃ cat', tokens.foldlM (mlsReadCats p.mlsDb.toMlsSymbols) cat = some cat' ∧
      ∀ x, x ∈ cat' ↔ x ∈ cat ∨ Spelled r x := by
  obtain ⟨first, hname, ⟨hrest, rfl⟩ | ⟨hrest, last, hlast, ⟨hlen, rfl⟩ | ⟨hlen, rfl⟩⟩⟩ :=
    runTokens_cases h
  · refine ⟨cat.set r.first hfirst, ?_, fun x => ?_⟩
    · rw [foldlM_cons, mlsReadCats_name hindex hplain hfirst hname]
      rfl
    · simp [Spelled, hrest, or_comm]
  · obtain ⟨cat', hcat', hmem⟩ :=
      mlsReadCats_range hindex hplain (hlong hlen) hclose hname hlast cat
    refine ⟨cat', ?_, fun x => ?_⟩
    · rw [foldlM_cons, hcat']
      rfl
    · rw [hmem, Spelled, if_pos hlen]
  · refine ⟨(cat.set r.first hfirst).set (r.close - 1) hclose, ?_, fun x => ?_⟩
    · rw [foldlM_cons, mlsReadCats_name hindex hplain hfirst hname, bind_eq_bind,
        bind_some, foldlM_cons, mlsReadCats_name hindex hplain hclose hlast]
      rfl
    · rw [Ebitmap.mem_set, Ebitmap.mem_set, Spelled, if_neg hlen, or_comm, or_assoc, or_left_comm,
        and_iff_right hrest]

theorem readRuns {rs} (hrs : ∀ r ∈ rs, r.first < ebitmapLimit ∧
    r.close - 1 < ebitmapLimit ∧ (1 < r.rest.length → r.first < r.close - 1)) {tokens : List Name}
    (h : runsTokens p rs = some tokens) (cat : Ebitmap) :
    ∃ cat', tokens.foldlM (mlsReadCats p.mlsDb.toMlsSymbols) cat = some cat' ∧
      ∀ x, x ∈ cat' ↔ x ∈ cat ∨ ∃ r ∈ rs, Spelled r x := by
  induction rs generalizing cat tokens with
  | nil =>
    cases h
    exact ⟨cat, rfl, fun x => by simp⟩
  | cons r rs ih =>
    obtain ⟨⟨hfirst, hclose, hlong⟩, hrs⟩ := forall_mem_cons.mp hrs
    obtain ⟨runTokens, hrun, h⟩ := Option.bind_eq_some_iff.mp h
    obtain ⟨rest, hrest, h⟩ := Option.bind_eq_some_iff.mp h
    cases h
    obtain ⟨cat1, hcat1, hmem1⟩ := readRun hindex hplain hfirst hclose hlong hrun cat
    obtain ⟨cat', hcat', hmem⟩ := ih hrs hrest cat1
    refine ⟨cat', ?_, fun x => ?_⟩
    · rw [foldlM_append, hcat1]
      exact hcat'
    · rw [hmem, hmem1, or_assoc]
      simp only [mem_cons, exists_eq_or_imp]

end Read

/-! ## Sets that are spelled right -/

/-- The category before a gap is alone, and a category at the start of the node behind it is
alone, too. -/
def Spellable (e : Ebitmap) : Prop :=
  ∀ a b, e.Gap a b → a - 1 ∉ e ∧ (mapsize ∣ b → b + 1 ∉ e)

section Runs

variable (hr : r ∈ e.runs)
include hr

theorem nextBit_mem_run (hx : x ∈ r.members) (hnext : e.nextBit x ∈ e) : e.nextBit x ∈ r.members :=
  e.walk_isWalk.next_mem_run hr hx (ebitmapGetBit_eq_true.mpr hnext)

/-- A gap inside a long run is spelled, too. -/
theorem spelled_gap {a b : Nat} (ha : a ∈ r.members) (hgap : e.Gap a b)
    (hlong : 1 < r.rest.length) : ∃ x, Spelled r x ∧ x ∉ e := by
  obtain ⟨hnext, hlt⟩ := hgap.nextBit_eq
  have hle : e.nextBit a ≤ r.close := e.walk_isWalk.next_le_close hr ha
  have hfirst := e.walk_isWalk.first_le hr ha
  refine ⟨a + 1, ?_, fun hmem => ?_⟩
  · rw [Spelled, if_pos hlong]
    omega
  · have hb := hgap.next.least (a + 1) hmem (Nat.lt_succ_self a)
    have := hgap.far
    simp only [mapsize] at this
    omega

/-- A gap behind a run of two is spelled, too. -/
theorem spelled_behind {a b} (hgap : e.Gap a b) {z} (hz : z ∈ r.members) (hza : e.nextBit z = a) :
    ∃ x, Spelled r x ∧ x ∉ e := by
  have ha : a ∈ r.members := hza ▸ nextBit_mem_run hr hz (hza ▸ hgap.mem)
  by_cases hlong : 1 < r.rest.length
  · exact spelled_gap hr ha hgap hlong
  · obtain ⟨hnext, hlt⟩ := hgap.nextBit_eq
    have hlast := e.walk_isWalk.chain_run hr
    have hsorted := e.walk_isWalk.pairwise_run hr
    have hza : z < a := hza ▸ Lib.lt_next _ z
    obtain ⟨first, rest, close⟩ := r
    cases rest with
    | nil =>
      obtain rfl : z = first := mem_singleton.mp hz
      obtain rfl : a = z := mem_singleton.mp ha
      omega
    | cons y rest =>
      obtain rfl : rest = [] := length_eq_zero_iff.mp (by simpa using hlong)
      have hfirst : first < y := (pairwise_cons.mp hsorted).1 y (by simp)
      obtain rfl : a = y := by
        simp only [Lib.Run.members, mem_cons, not_mem_nil, or_false] at hz ha
        omega
      have hclose : close = e.nextBit a := (isChain_cons_cons.mp (isChain_cons_cons.mp hlast).2).1
      refine ⟨close - 1, .inr ⟨cons_ne_nil _ _, rfl⟩, fun hmem => ?_⟩
      have hb := hgap.next.least (close - 1) hmem (by omega)
      have := EbitmapT.startOf_le b
      omega

end Runs

theorem spellable_of_spelled (h : ∀ r ∈ e.runs, ∀ x, Spelled r x → x ∈ e) : Spellable e := by
  intro a b hgap
  have hlast := hgap.last
  constructor
  · intro hprev
    obtain ⟨r, hr, hmem⟩ := exists_run hprev
    have hnext : e.nextBit (a - 1) = a := by
      rw [nextBit_inside hprev (by simp only [mapsize] at *; omega)]
      simp only [mapsize] at *
      omega
    obtain ⟨x, hx, hxe⟩ := spelled_behind hr hgap hmem hnext
    exact hxe (h r hr x hx)
  · intro hdvd hbehind
    obtain ⟨r, hr, ha⟩ := exists_run hgap.mem
    obtain ⟨hnext, hlt⟩ := hgap.nextBit_eq
    have hb : e.nextBit a = b := by
      rw [hnext]
      simp only [startOf, mapsize] at *
      omega
    have hbmem : b ∈ r.members := hb ▸ nextBit_mem_run hr ha (hb ▸ hgap.next.mem)
    have hsucc : e.nextBit b = b + 1 :=
      nextBit_inside hgap.next.mem (by simp only [mapsize] at *; omega)
    have hbmem' : b + 1 ∈ r.members := hsucc ▸ nextBit_mem_run hr hbmem (hsucc ▸ hbehind)
    -- the run has `a`, `b` and `b + 1`
    have hlong : 1 < r.rest.length := by
      have hfirst := e.walk_isWalk.first_le hr ha
      have hrest : ∀ x ∈ r.members, r.first < x → x ∈ r.rest := fun x hx hlt => by
        rcases mem_cons.mp hx with rfl | hx
        · omega
        · exact hx
      have h1 := hrest b hbmem (by omega)
      have h2 := hrest (b + 1) hbmem' (by omega)
      cases hr : r.rest with
      | nil => simp [hr] at h1
      | cons y rest =>
        cases rest with
        | nil => simp [hr] at h1 h2; omega
        | cons _ _ => simp
    obtain ⟨x, hx, hxe⟩ := spelled_gap hr ha hgap hlong
    exact hxe (h r hr x hx)

section Spellable

variable (h : Spellable e) (hr : r ∈ e.runs)
include h hr

/-- In a set that is spelled right, a member that comes after another one of its run has no
gap behind it. -/
theorem Spellable.nextBit_rest (hx : x ∈ r.rest) : e.nextBit x = x + 1 := by
  have hxe := mem_of_mem_run hr (mem_cons_of_mem _ hx)
  obtain ⟨z, hz, hnext⟩ := e.walk_isWalk.exists_prev hr hx
  have hze := mem_of_mem_run hr hz
  rcases nextBit_cases hxe with hsucc | ⟨b, hgap, -⟩
  · exact hsucc
  · have hlast := hgap.last
    rcases nextBit_cases hze with hz1 | ⟨c, hgapz, hz1⟩
    · -- `z` is right before `x`
      have hprev : x - 1 = z := by
        have : e.nextBit z = x := hnext
        omega
      exact absurd (hprev ▸ hze) (h x b hgap).1
    · -- `x` is the first bit of its node, not the last one
      have : e.nextBit z = x := hnext
      rw [this] at hz1
      simp only [startOf, mapsize] at *
      omega

/-- Nor has the first member of a long run. -/
theorem Spellable.nextBit_first (hlong : 1 < r.rest.length) : e.nextBit r.first = r.first + 1 := by
  have hchain := e.walk_isWalk.chain_run hr
  have hmem : ∀ {y}, y ∈ r.members → y ∈ e := mem_of_mem_run hr
  have hrest : ∀ y ∈ r.rest, e.nextBit y = y + 1 := fun y hy => h.nextBit_rest hr hy
  obtain ⟨first, rest, close⟩ := r
  rcases rest with _ | ⟨s, _ | ⟨t, rest⟩⟩
  · simp at hlong
  · simp at hlong
  · have hs : s = e.nextBit first := (isChain_cons_cons.mp hchain).1
    have ht : t = e.nextBit s := (isChain_cons_cons.mp (isChain_cons_cons.mp hchain).2).1
    have hse : s ∈ e := hmem (by simp [Lib.Run.members])
    have hte : t ∈ e := hmem (by simp [Lib.Run.members])
    rw [hrest s (by simp)] at ht
    have hfirst : first ∈ e := hmem mem_cons_self
    rcases nextBit_cases hfirst with hsucc | ⟨b, hgap, hnext⟩
    · exact hsucc
    · -- the second member is the start of the node behind the gap, and the third one follows it
      have hb : b = s := by
        have hle := hgap.next.least s hse (by have := hgap.nextBit_eq; omega)
        have := EbitmapT.startOf_le b
        omega
      subst hb
      refine absurd (ht ▸ hte) ((h first b hgap).2 ?_)
      rw [hs, hnext]
      exact EbitmapT.dvd_startOf b

theorem Spellable.rest_eq (hshort : ¬1 < r.rest.length) (hne : r.rest ≠ []) :
    r.rest = [r.close - 1] := by
  have hchain := e.walk_isWalk.chain_run hr
  have hrest : ∀ y ∈ r.rest, e.nextBit y = y + 1 := fun y hy => h.nextBit_rest hr hy
  obtain ⟨first, rest, close⟩ := r
  rcases rest with _ | ⟨s, _ | ⟨t, rest⟩⟩
  · exact absurd rfl hne
  · have hs : close = e.nextBit s := (isChain_cons_cons.mp (isChain_cons_cons.mp hchain).2).1
    rw [hrest s (by simp)] at hs
    simp [hs]
  · simp at hshort

theorem Spellable.spelled {x} (hx : Spelled r x) : x ∈ e := by
  have hmem : ∀ {y}, y ∈ r.members → y ∈ e := mem_of_mem_run hr
  unfold Spelled at hx
  split_ifs at hx with hlong
  · have hall : ∀ y ∈ r.first :: r.rest, e.nextBit y = y + 1 :=
      forall_mem_cons.mpr ⟨h.nextBit_first hr hlong, fun y hy => h.nextBit_rest hr hy⟩
    have hclose := e.walk_isWalk.lt_close hr mem_cons_self
    exact hmem (Lib.mem_of_chain (e.walk_isWalk.chain_run hr) hall hx.1 (by omega))
  · rcases hx with rfl | ⟨hne, rfl⟩
    · exact hmem mem_cons_self
    · refine hmem (mem_cons_of_mem _ ?_)
      rw [h.rest_eq hr hlong hne]
      exact mem_singleton_self _

theorem Spellable.spelled_of_mem (hx : x ∈ r.members) : Spelled r x := by
  have hfirst := e.walk_isWalk.first_le hr hx
  have hlt := e.walk_isWalk.lt_close hr hx
  unfold Spelled
  split_ifs with hlong
  · omega
  · rcases mem_cons.mp hx with hx | hx
    · exact .inl hx
    · have hne := ne_nil_of_mem hx
      rw [h.rest_eq hr hlong hne] at hx
      exact .inr ⟨hne, mem_singleton.mp hx⟩

end Spellable

/-- The set that is read back is the same if and only if it is spelled right. -/
theorem eq_iff_spellable {cat : Ebitmap} (h : ∀ x, x ∈ cat ↔ ∃ r ∈ e.runs, Spelled r x) :
    cat = e ↔ Spellable e := by
  constructor
  · rintro rfl
    exact spellable_of_spelled fun r hr x hx => (h x).mpr ⟨r, hr, hx⟩
  · intro hspell
    refine ext fun x => (h x).trans ⟨?_, fun hx => ?_⟩
    · rintro ⟨r, hr, hx⟩
      exact hspell.spelled hr hx
    · obtain ⟨r, hr, hmem⟩ := exists_run hx
      exact ⟨r, hr, hspell.spelled_of_mem hr hmem⟩

/-! ## The round trip -/

theorem runsTokens_some {p rs} (h : ∀ r ∈ rs, (∃ n, catName p r.first = some n) ∧
      (r.rest ≠ [] → ∃ n, catName p (r.close - 1) = some n)) :
    ∃ tokens, runsTokens p rs = some tokens := by
  induction rs with
  | nil => exact ⟨[], rfl⟩
  | cons r rs ih =>
    obtain ⟨⟨⟨first, hfirst⟩, hlast⟩, hrs⟩ := forall_mem_cons.mp h
    obtain ⟨rest, hrest⟩ := ih hrs
    have hrun : ∃ tokens, runTokens p r = some tokens := by
      unfold runTokens
      by_cases hr : r.rest = []
      · exact ⟨[first], by simp [hfirst, hr]⟩
      · obtain ⟨last, hlast⟩ := hlast hr
        simp only [hfirst, hlast, bind_eq_bind, bind_some, if_neg hr]
        exact ⟨_, rfl⟩
    obtain ⟨tokens, htokens⟩ := hrun
    exact ⟨tokens ++ rest, by simp [runsTokens, htokens, hrest]⟩

theorem plain_runTokens (hplain : p.mlsDb.Plain) {r tokens}
    (h : runTokens p r = some tokens) : ∀ t ∈ tokens, ∀ c ∈ t, c ≠ ',' ∧ c ≠ '-' := by
  have hname : ∀ {i n}, catName p i = some n → ∀ c ∈ n, c ≠ ',' ∧ c ≠ '-' := fun hn c hc =>
    ⟨(hplain.cats _ _ hn c hc).2.2.1, (hplain.cats _ _ hn c hc).2.1⟩
  obtain ⟨first, hfirst, ⟨-, rfl⟩ | ⟨-, last, hlast, ⟨-, rfl⟩ | ⟨-, rfl⟩⟩⟩ := runTokens_cases h
  · exact forall_mem_singleton.mpr (hname hfirst)
  · refine forall_mem_singleton.mpr fun c hc => ?_
    rcases mem_append.mp hc with hc | hc
    · exact hname hfirst c hc
    · rcases mem_cons.mp hc with rfl | hc
      · decide
      · exact hname hlast c hc
  · exact forall_mem_cons.mpr ⟨hname hfirst, forall_mem_singleton.mpr (hname hlast)⟩

theorem plain_runsTokens (hplain : p.mlsDb.Plain) {rs tokens}
    (h : runsTokens p rs = some tokens) : ∀ t ∈ tokens, ∀ c ∈ t, c ≠ ',' ∧ c ≠ '-' := by
  induction rs generalizing tokens with
  | nil =>
    cases h
    simp
  | cons r rs ih =>
    obtain ⟨first, hfirst, h⟩ := Option.bind_eq_some_iff.mp h
    obtain ⟨rest, hrest, h⟩ := Option.bind_eq_some_iff.mp h
    cases h
    intro t ht
    rcases mem_append.mp ht with ht | ht
    · exact plain_runTokens hplain hfirst t ht
    · exact ih hrest t ht

/-- What the text of a valid level is made of: the name of its sensitivity and the entries of
its runs. -/
structure LevelSpelling (p : FullPolicydb) (l : MlsLevel) (name : Name) : Prop where
  sens : sensName p l.sens = some name
  level : ∃ level, p.mlsDb.levels.lookup name = some level ∧ level.sens = l.sens
  plain : PlainName name
  named : ∀ c ∈ l.cat, ∃ n, catName p c = some n

variable {l : MlsLevel}

theorem levelSpelling_of_isvalid (hindex : p.mlsDb.Indexed) (hplain : p.mlsDb.Plain)
    (hvalid : mlsLevelIsvalid p l = true) : ∃ name, LevelSpelling p l name := by
  simp only [mlsLevelIsvalid, Bool.and_eq_true, decide_eq_true_eq] at hvalid
  obtain ⟨⟨hsens, -⟩, hkey⟩ := hvalid
  cases hname : p.mlsDb.sensValToName.getD (l.sens - 1) none with
  | none => simp only [hname] at hkey; cases hkey
  | some name =>
    obtain ⟨level, hlevel, heq⟩ := hindex.sens _ name hname
    simp only [hname, hlevel, all_eq_true, Bool.and_eq_true, ebitmapGetBit_eq_true] at hkey
    refine ⟨name, ?_, ⟨level, hlevel, by omega⟩, hplain.sens _ name hname, fun c hc => ?_⟩
    · rw [sensName, if_neg hsens, hname]
    · exact hindex.named name level hlevel c (hkey c hc).2

theorem levelText_tokens {p} {name} (h : LevelSpelling p l name) (text : Name) :
    levelText p l text = (runsTokens p l.cat.runs).map fun tokens =>
      text ++ name ++ tokensText tokens := by
  rw [levelText_eq, h.sens, bind_some, runsText_false, Option.map_map]
  rfl

theorem readLevel (hindex : p.mlsDb.Indexed) (hplain : p.mlsDb.Plain)
    {tokens : List Name} (h : runsTokens p e.runs = some tokens) :
    ∃ cat, tokens.foldlM (mlsReadCats p.mlsDb.toMlsSymbols) ∅ = some cat ∧
      (cat = e ↔ Spellable e) := by
  have hrs : ∀ r ∈ e.runs, r.first < ebitmapLimit ∧ r.close - 1 < ebitmapLimit ∧
      (1 < r.rest.length → r.first < r.close - 1) := by
    intro r hr
    have hclose := close_le_limit hr
    have hfirst := e.bound r.first (mem_of_mem_run hr mem_cons_self)
    refine ⟨hfirst, by omega, fun hlong => ?_⟩
    obtain ⟨y, hy⟩ := exists_mem_of_length_pos (Nat.lt_trans Nat.zero_lt_one hlong)
    have hlt := (pairwise_cons.mp (e.walk_isWalk.pairwise_run hr)).1 y (mem_append_left _ hy)
    have := e.walk_isWalk.lt_close hr (mem_cons_of_mem _ hy)
    omega
  obtain ⟨cat, hcat, hmem⟩ := readRuns hindex hplain hrs h ∅
  exact ⟨cat, hcat, eq_iff_spellable fun x => by simp [hmem]⟩

theorem Spellable.tokens {p} (h : Spellable e) (hnamed : ∀ c ∈ e, ∃ n, catName p c = some n) :
    ∃ tokens, runsTokens p e.runs = some tokens := by
  refine runsTokens_some fun r hr => ⟨hnamed _ (mem_of_mem_run hr mem_cons_self), fun hne => ?_⟩
  refine hnamed _ (h.spelled hr ?_)
  have := e.walk_isWalk.lt_close hr mem_cons_self
  unfold Spelled
  split_ifs with hlong
  · omega
  · exact .inr ⟨hne, rfl⟩

section RoundTrip

variable (hplain : p.mlsDb.Plain)
include hplain

theorem mlsContextToSid_level {name : Name} (h : LevelSpelling p l name) {tokens : List Name}
    (htokens : runsTokens p l.cat.runs = some tokens) :
    mlsContextToSid p.mlsDb.toMlsSymbols (name ++ tokensText tokens) =
      (tokens.foldlM (mlsReadCats p.mlsDb.toMlsSymbols) ∅).map fun cat =>
        { low := { sens := l.sens, cat }, high := { sens := l.sens, cat } } := by
  obtain ⟨level, hlevel, hsens⟩ := h.level
  have hname : ∀ c ∈ name, (c == ':' || c == '-') = false := fun c hc => by simp [h.plain c hc]
  unfold mlsContextToSid
  rcases htoken : mlsToken (fun c => c == ':' || c == '-') (name ++ tokensText tokens) with
    ⟨first, delim, rest⟩
  rw [← append_nil (tokensText tokens)] at htoken
  have hread := mlsReadLevel_text [] (by decide) hname hlevel (plain_runsTokens hplain htokens)
    (fun c hc => by cases hc) (fun _ c hc => by cases hc) htoken
  simp only [hread, hsens]
  cases tokens.foldlM (mlsReadCats p.mlsDb.toMlsSymbols) ∅ <;> rfl

theorem mlsContextToSid_range {low high : MlsLevel} {lowName highName : Name}
    (hlow : LevelSpelling p low lowName) (hhigh : LevelSpelling p high highName)
    {lowTokens highTokens : List Name} (hlowTokens : runsTokens p low.cat.runs = some lowTokens)
    (hhighTokens : runsTokens p high.cat.runs = some highTokens) :
    mlsContextToSid p.mlsDb.toMlsSymbols
        (lowName ++ (tokensText lowTokens ++ '-' :: (highName ++ tokensText highTokens))) =
      (lowTokens.foldlM (mlsReadCats p.mlsDb.toMlsSymbols) ∅).bind fun lowCat =>
        (highTokens.foldlM (mlsReadCats p.mlsDb.toMlsSymbols) ∅).map fun highCat =>
          { low := { sens := low.sens, cat := lowCat },
            high := { sens := high.sens, cat := highCat } } := by
  obtain ⟨lowLevel, hlowLevel, hlowSens⟩ := hlow.level
  obtain ⟨highLevel, hhighLevel, hhighSens⟩ := hhigh.level
  have hlowName : ∀ c ∈ lowName, (c == ':' || c == '-') = false :=
    fun c hc => by simp [hlow.plain c hc]
  have hhighName : ∀ c ∈ highName, (c == ':') = false := fun c hc => by simp [hhigh.plain c hc]
  unfold mlsContextToSid
  rcases htoken : mlsToken (fun c => c == ':' || c == '-')
    (lowName ++ (tokensText lowTokens ++ '-' :: (highName ++ tokensText highTokens))) with
    ⟨first, delim, rest⟩
  have hread :=
    mlsReadLevel_text _ (by decide) hlowName hlowLevel (plain_runsTokens hplain hlowTokens)
    (fun c hc => by cases hc; rfl) (fun _ c hc => by cases hc; rfl) htoken
  simp only [hread]
  cases lowTokens.foldlM (mlsReadCats p.mlsDb.toMlsSymbols) ∅ with
  | none => rfl
  | some lowCat =>
    rcases htoken : mlsToken (fun c => c == ':') (highName ++ tokensText highTokens) with
      ⟨first, delim, rest⟩
    have hsecond := htoken
    rw [← append_nil (tokensText highTokens)] at hsecond
    have hread :=
      mlsReadLevel_text [] (by decide) hhighName hhighLevel (plain_runsTokens hplain hhighTokens)
      (fun c hc => by cases hc) (fun _ c hc => by cases hc) hsecond
    simp only [map_some, bind_eq_bind, bind_some, head?_cons, if_pos,
      tail_cons,
      htoken, hread, hlowSens, hhighSens]
    cases highTokens.foldlM (mlsReadCats p.mlsDb.toMlsSymbols) ∅ <;> rfl

end RoundTrip

theorem level_eq_iff {l cat} : ({ sens := l.sens, cat } : MlsLevel) = l ↔ cat = l.cat := by
  cases l
  simp

/-- A valid range survives the text form if and only if both category sets are spelled
right: around a gap between two nodes of a category bitmap a range of categories is written
with the wrong end, or with the gap in it. -/
theorem mlsContextToSid_mlsToString (p : FullPolicydb) (hmls : p.mls = true)
    (hindex : p.mlsDb.Indexed)
    (hplain : p.mlsDb.Plain) (r : MlsRange) (hvalid : mlsRangeIsvalid p r = true) :
    (mlsToString p r).bind (mlsContextToSid p.mlsDb.toMlsSymbols) = some r ↔
      Spellable r.low.cat ∧ Spellable r.high.cat := by
  obtain ⟨low, high⟩ := r
  simp only [mlsRangeIsvalid, Bool.and_eq_true] at hvalid
  obtain ⟨lowName, hlow⟩ := levelSpelling_of_isvalid hindex hplain hvalid.1.2
  obtain ⟨highName, hhigh⟩ := levelSpelling_of_isvalid hindex hplain hvalid.2
  have hmls' : ¬(!p.mls) = true := by simp [hmls]
  rw [mlsToString_eq, mlsSidToContext, if_neg hmls', levelText_tokens hlow]
  cases hlowTokens : runsTokens p low.cat.runs with
  | none =>
    have hnot : ¬Spellable low.cat := fun hspell => by
      obtain ⟨tokens, htokens⟩ := hspell.tokens hlow.named
      rw [htokens] at hlowTokens
      cases hlowTokens
    simp [hnot]
  | some lowTokens =>
    obtain ⟨lowCat, hlowCat, hlowIff⟩ := readLevel hindex hplain hlowTokens
    by_cases heq : mlsLevelEq low high = true
    · obtain rfl := mlsLevelEq_iff.mp heq
      simp only [map_some, bind_eq_bind, bind_some, heq, if_true,
        cons_append,
        nil_append, drop_succ_cons, drop_zero]
      rw [mlsContextToSid_level hplain hlow hlowTokens, hlowCat]
      simp [level_eq_iff, hlowIff]
    · simp only [map_some, bind_eq_bind, bind_some, heq, if_false,
        Bool.false_eq_true]
      rw [levelText_tokens hhigh]
      cases hhighTokens : runsTokens p high.cat.runs with
      | none =>
        have hnot : ¬Spellable high.cat := fun hspell => by
          obtain ⟨tokens, htokens⟩ := hspell.tokens hhigh.named
          rw [htokens] at hhighTokens
          cases hhighTokens
        simp [hnot]
      | some highTokens =>
        obtain ⟨highCat, hhighCat, hhighIff⟩ := readLevel hindex hplain hhighTokens
        have hrange := mlsContextToSid_range hplain hlow hhigh hlowTokens hhighTokens
        simp only [map_some, bind_some, append_assoc, cons_append,
          nil_append,
          drop_succ_cons, drop_zero]
        rw [hrange, hlowCat, hhighCat]
        simp [level_eq_iff, hlowIff, hhighIff]

/-- A database with one sensitivity and some categories, which the sensitivity allows; each
one is named after its number. -/
def numberedCategories (cats : List Nat) : FullPolicydb :=
  { mls := true
    mlsDb :=
      { sensValToName := [some ['s', '0']]
        levels := [(['s', '0'], { sens := 1, cat := .ofList cats })]
        catValToName := (range 130).map fun i =>
          if i ∈ cats then some ('c' :: Nat.toDigits 10 i) else none
        cats := cats.map fun i => ('c' :: Nat.toDigits 10 i, i + 1) } }

theorem mlsContextToSid_mlsToString_numbered : mlsToString (numberedCategories [0, 1, 2, 4])
        { low := { sens := 1 }, high := { sens := 1, cat := .ofList [0, 1, 2, 4] } } =
      some "s0-s0:c0.c2,c4".toList ∧
    mlsContextToSid (numberedCategories [0, 1, 2, 4]).mlsDb.toMlsSymbols "s0-s0:c0.c2,c4".toList =
      some { low := { sens := 1 }, high := { sens := 1, cat := .ofList [0, 1, 2, 4] } } := by
  have htext : mlsToString (numberedCategories [0, 1, 2, 4])
      { low := { sens := 1 }, high := { sens := 1, cat := .ofList [0, 1, 2, 4] } } =
      some "s0-s0:c0.c2,c4".toList := by decide +kernel
  have hnone : ∀ e : Ebitmap, (∀ a ∈ e.bits, a % mapsize ≠ mapsize - 1) → Spellable e :=
    fun e he a b hgap => absurd hgap.last (he a hgap.mem)
  have hround := (mlsContextToSid_mlsToString (numberedCategories [0, 1, 2, 4]) rfl
    (MlsDb.indexed_of_entries (by decide +kernel) (by decide +kernel) (by decide +kernel))
    (MlsDb.plain_of_entries (by decide +kernel) (by decide +kernel))
    { low := { sens := 1 }, high := { sens := 1, cat := .ofList [0, 1, 2, 4] } }
    (by decide +kernel)).mpr
    ⟨hnone _ (by decide), hnone _ (by decide +kernel)⟩
  exact ⟨htext, hround⟩

/-- Categories 62, 63 and 128 are written as the range from 62 to 128. -/
theorem mlsToString_gap : (numberedCategories [62, 63, 128]).mlsDb.Indexed ∧
      (numberedCategories [62, 63, 128]).mlsDb.Plain ∧
    mlsRangeIsvalid (numberedCategories [62, 63, 128])
      { low := { sens := 1, cat := .ofList [62, 63, 128] },
        high := { sens := 1, cat := .ofList [62, 63, 128] } } = true ∧
    mlsToString (numberedCategories [62, 63, 128])
      { low := { sens := 1, cat := .ofList [62, 63, 128] },
        high := { sens := 1, cat := .ofList [62, 63, 128] } } = some "s0:c62.c128".toList ∧
    ((mlsContextToSid (numberedCategories [62, 63, 128]).mlsDb.toMlsSymbols
      "s0:c62.c128".toList).map
      fun r => r.low.cat.bits) = some (range' 62 67) :=
  ⟨MlsDb.indexed_of_entries (by decide +kernel) (by decide +kernel) (by decide +kernel),
    MlsDb.plain_of_entries (by decide +kernel) (by decide +kernel), by decide +kernel, by
      decide +kernel,
    by decide +kernel⟩

end SELinux.Sepol
