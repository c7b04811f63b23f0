import SELinux.Lib.RangeText
import SELinux.Sepol.EbitmapDecide
import SELinux.Sepol.Mls

/-! The categories of a level, or of a sensitivity, as CIL (`kernel_to_cil.c`): `cats_ebitmap_len`
finds the size of the text, and `cats_ebitmap_to_str` writes it. Categories in a row are written as
one range. -/
namespace SELinux.Sepol

open List Option
open Lib (intervals Covered Cuts printTo)

/-! ## Model -/

/-- What `ebitmap_for_each_positive_bit` visits. -/
def EbitmapT.positiveBits (e : EbitmapT) : Option (List Nat) :=
  e.forEachBit.map fun visits => (visits.1.filter Prod.snd).map Prod.fst

/-- `start` and `range` of the two loops. -/
structure CatsRun where
  start : Nat := 0
  range : Nat := 0

/-- A category is reached. -/
def CatsRun.enter (s : CatsRun) (i : Nat) : CatsRun where
  start := if s.range = 0 then i else s.start
  range := s.range + 1

section

variable (cats : EbitmapT) (names : Nat → Name)

/-- What `cats_ebitmap_len` adds for a run that ends with `i`; `(range  ) ` has ten characters. -/
def catsLen (s : CatsRun) (i : Nat) : Nat :=
  (names s.start).length +
    if 2 < s.range then (names (i - 1)).length + 10
    else if s.range = 2 then (names (i - 1)).length + 2
    else if s.range = 1 then 1
    else 0

/-- One round of the loop of `cats_ebitmap_len`, on the run and `len`. -/
def catsLenStep (s : CatsRun × Nat) (i : Nat) : CatsRun × Nat :=
  let run := s.1.enter i
  if cats.getBit (i + 1) then (run, s.2) else ({ run with range := 0 }, s.2 + catsLen names run i)

/-- `cats_ebitmap_len`, whose result is a `size_t`. -/
def catsEbitmapLen : Option Nat := do
  let bits ← cats.positiveBits
  let len := (bits.foldl (catsLenStep cats names) ({}, 0)).2 % 2 ^ 64
  some (if 0 < len then (len + 2) % 2 ^ 64 else len)

def rangeKeyword : Name := ['r', 'a', 'n', 'g', 'e']

/-- What `cats_ebitmap_to_str` prints for a run that ends with `i`. -/
def catsItem (names : Nat → Name) (s : CatsRun) (i : Nat) : Name :=
  if 1 < s.range then
    if s.range = 2 then names s.start ++ ' ' :: names i ++ [' ']
    else '(' :: rangeKeyword ++ ' ' :: names s.start ++ ' ' :: names i ++ [')', ' ']
  else names s.start ++ [' ']

/-- One round of the loop of `cats_ebitmap_to_str`, on the run and what has been written. -/
def catsStep (size : Nat) (s : CatsRun × Name) (i : Nat) : Option (CatsRun × Name) :=
  let run := s.1.enter i
  if cats.getBit (i + 1) then some (run, s.2)
  else (printTo size s.2 (catsItem names run i)).map fun text => ({ run with range := 0 }, text)

/-- `cats_ebitmap_to_str` once it has the length: there is no memory for a negative one. The last
blank is overwritten. -/
def catsPrint (remaining : Int) : Option Name :=
  if remaining ≤ 0 then none
  else do
    let bits ← cats.positiveBits
    let s ← bits.foldlM (catsStep cats names remaining.toNat) ({}, ['('])
    some (s.2.dropLast ++ [')'])

/-- `cats_ebitmap_to_str`, which takes the length as an `int`. -/
def catsEbitmapToStr : Option Name := do
  let len ← catsEbitmapLen cats names
  catsPrint cats names (BitVec.ofNat 32 len).toInt

end

/-! ## Lists and ranges of CIL -/

/-- A part of a list of categories. -/
inductive CatItem where
  | cat (i : Nat)
  | range (i j : Nat)
  deriving DecidableEq

namespace CatItem

def text (names : Nat → Name) : CatItem → Name
  | cat i => names i
  | range i j => '(' :: rangeKeyword ++ ' ' :: names i ++ ' ' :: names j ++ [')']

/-- The categories are in the order of their values. -/
def members : CatItem → Set Nat
  | cat i => {i}
  | range i j => {x | i ≤ x ∧ x ≤ j}

end CatItem

def catListText (names : Nat → Name) (items : List CatItem) : Name :=
  '(' :: [' '].intercalate (items.map (CatItem.text names)) ++ [')']

/-- The text is a list of categories and ranges, or one range. -/
inductive Denotes (names : Nat → Name) : Name → Set Nat → Prop where
  | list (items : List CatItem) :
    Denotes names (catListText names items) {x | ∃ item ∈ items, x ∈ item.members}
  | range (i j : Nat) : Denotes names ((CatItem.range i j).text names) (CatItem.range i j).members

/-- Names that CIL can tell apart. -/
structure CilNames (names : Nat → Name) : Prop where
  nonempty : ∀ i, names i ≠ []
  symbol : ∀ i, ∀ c ∈ names i, c ≠ ' ' ∧ c ≠ '(' ∧ c ≠ ')'
  keyword : ∀ i, names i ≠ rangeKeyword
  injective : ∀ i j, names i = names j → i = j

/-! ### Tokens -/

inductive CilToken where
  | opening
  | closing
  | symbol (name : Name)
  deriving DecidableEq

/-- The symbol that has been read ends. -/
def flushSymbol (name : Name) : List CilToken := if name = [] then [] else [.symbol name]

/-- The tokens of a text, behind the part of a symbol. -/
def cilTokens (name : Name) : Name → List CilToken
  | [] => flushSymbol name
  | c :: text =>
    if c = '(' then flushSymbol name ++ .opening :: cilTokens [] text
    else if c = ')' then flushSymbol name ++ .closing :: cilTokens [] text
    else if c = ' ' then flushSymbol name ++ cilTokens [] text
    else cilTokens (name ++ [c]) text

def CatItem.tokens (names : Nat → Name) : CatItem → List CilToken
  | cat i => [.symbol (names i)]
  | range i j => [.opening, .symbol rangeKeyword, .symbol (names i), .symbol (names j), .closing]

variable {items : List CatItem} {x : Nat} {s : CatsRun}

section Tokens

variable {names : Nat → Name}

theorem cilTokens_symbol {name : Name} (h : ∀ c ∈ name, c ≠ ' ' ∧ c ≠ '(' ∧ c ≠ ')')
    (before rest : Name) : cilTokens before (name ++ rest) = cilTokens (before ++ name) rest := by
  induction name generalizing before with
  | nil => rw [nil_append, append_nil]
  | cons c name ih =>
    obtain ⟨⟨hblank, hopen, hclose⟩, hname⟩ := forall_mem_cons.mp h
    simp [cilTokens, if_neg hopen, if_neg hclose, if_neg hblank, ih hname]

theorem cilTokens_blank (name rest : Name) :
    cilTokens name (' ' :: rest) = flushSymbol name ++ cilTokens [] rest := rfl

theorem cilTokens_opening (rest : Name) :
    cilTokens [] ('(' :: rest) = .opening :: cilTokens [] rest := rfl

theorem cilTokens_closing (name rest : Name) :
    cilTokens name (')' :: rest) = flushSymbol name ++ .closing :: cilTokens [] rest := rfl

theorem cilTokens_rangeKeyword (rest : Name) :
    cilTokens [] (rangeKeyword ++ ' ' :: rest) = .symbol rangeKeyword :: cilTokens [] rest := by
  rfl

variable (h : CilNames names)
include h

theorem cilTokens_name (i : Nat) (rest : Name) :
    cilTokens [] (names i ++ rest) = cilTokens (names i) rest :=
  cilTokens_symbol (h.symbol i) [] rest

theorem flushSymbol_name (i : Nat) : flushSymbol (names i) = [.symbol (names i)] :=
  if_neg (h.nonempty i)

theorem cilTokens_range (i j : Nat) (rest : Name) :
    cilTokens [] ((CatItem.range i j).text names ++ rest) =
    (CatItem.range i j).tokens names ++ cilTokens [] rest := by
  simp only [CatItem.text, append_assoc, cons_append, nil_append]
  rw [cilTokens_opening, cilTokens_rangeKeyword, cilTokens_name h, cilTokens_blank,
    cilTokens_name h,
    cilTokens_closing, flushSymbol_name h, flushSymbol_name h]
  rfl

theorem cilTokens_item (item : CatItem) {c : Char} (hc : c = ' ' ∨ c = ')') (rest : Name) :
    cilTokens [] (item.text names ++ c :: rest) = item.tokens names ++ cilTokens []
      (c :: rest) := by
  cases item with
  | cat i =>
    simp only [CatItem.text, CatItem.tokens]
    rw [cilTokens_name h]
    rcases hc with rfl | rfl
    · rw [cilTokens_blank, cilTokens_blank, flushSymbol_name h]
      rfl
    · rw [cilTokens_closing, cilTokens_closing, flushSymbol_name h]
      rfl
  | range i j => exact cilTokens_range h i j _

theorem cilTokens_items (items : List CatItem) :
    cilTokens [] ([' '].intercalate (items.map (CatItem.text names)) ++ [')']) =
      items.flatMap (CatItem.tokens names) ++ [.closing] := by
  induction items with
  | nil => rfl
  | cons item items ih =>
    cases items with
    | nil =>
      rw [map_singleton, intercalate_singleton, cilTokens_item h item (.inr rfl), flatMap_singleton]
      rfl
    | cons item' items =>
      rw [map_cons, map_cons, intercalate_cons_cons, append_assoc, append_assoc,
        singleton_append, cilTokens_item h item (.inl rfl), flatMap_cons, append_assoc, ← ih]
      rfl

theorem cilTokens_list (items : List CatItem) : cilTokens [] (catListText names items) = .opening ::
      (items.flatMap (CatItem.tokens names) ++ [.closing]) := by
  rw [← cilTokens_items h items]
  rfl

/-- The tokens of a list tell its parts. -/
theorem items_eq_of_tokens {items' : List CatItem}
    (heq : items.flatMap (CatItem.tokens names) ++ [.closing] = items'.flatMap
      (CatItem.tokens names) ++ [.closing]) : items = items' := by
  induction items generalizing items' with
  | nil =>
    cases items' with
    | nil => rfl
    | cons item' items' => cases item' <;> simp [CatItem.tokens] at heq
  | cons item items ih =>
    cases items' with
    | nil => cases item <;> simp [CatItem.tokens] at heq
    | cons item' items' =>
      rw [flatMap_cons, flatMap_cons, append_assoc, append_assoc] at heq
      cases item with
      | cat i =>
        cases item' with
        | cat i' =>
          simp only [CatItem.tokens, singleton_append, cons.injEq,
            CilToken.symbol.injEq] at heq
          rw [h.injective i i' heq.1, ih heq.2]
        | range i' j' => simp [CatItem.tokens] at heq
      | range i j =>
        cases item' with
        | cat i' => simp [CatItem.tokens] at heq
        | range i' j' =>
          simp only [CatItem.tokens, cons_append, nil_append, cons.injEq,
            CilToken.symbol.injEq,
            true_and] at heq
          rw [h.injective i i' heq.1, h.injective j j' heq.2.1, ih heq.2.2]

/-- A list is not a range. -/
theorem catListText_ne_range (items : List CatItem) (i j : Nat) :
    catListText names items ≠ (CatItem.range i j).text names := by
  intro heq
  have htokens := congrArg (cilTokens []) heq
  rw [cilTokens_list h, ← append_nil ((CatItem.range i j).text names), cilTokens_range h] at htokens
  cases items with
  | nil => simp [CatItem.tokens] at htokens
  | cons item items =>
    cases item with
    | cat k =>
      simp only [CatItem.tokens, flatMap_cons, cons_append, cons.injEq,
        CilToken.symbol.injEq] at htokens
      exact h.keyword k htokens.2.1
    | range k l => simp [CatItem.tokens] at htokens

/-- A text denotes one set at most. -/
theorem Denotes.unique {text s s'} (hs : Denotes names text s) (hs' : Denotes names text s') :
    s = s' := by
  generalize htext : text = text' at hs'
  cases hs with
  | list items =>
    cases hs' with
    | list items' =>
      have htokens := congrArg (cilTokens []) htext
      rw [cilTokens_list h, cilTokens_list h, cons.injEq] at htokens
      rw [items_eq_of_tokens h htokens.2]
    | range i' j' => exact absurd htext (catListText_ne_range h items i' j')
  | range i j =>
    cases hs' with
    | list items' => exact absurd htext.symm (catListText_ne_range h items' i j)
    | range i' j' =>
      have htokens := congrArg (fun t => cilTokens [] (t ++ [])) htext
      simp only [cilTokens_range h, CatItem.tokens, cons_append, cons.injEq,
        CilToken.symbol.injEq,
        true_and] at htokens
      rw [h.injective i i' htokens.1, h.injective j j' htokens.2.1]

end Tokens

/-! ## The runs of categories -/

/-- The first and the last category of every run. -/
def catsRuns (cats : EbitmapT) : List (Nat × Nat) :=
  intervals (fun i => cats.getBit (i + 1)) none ((range cats.highbit).filter cats.getBit)

section Runs

variable {cats : EbitmapT} (h : cats.Canonical)
include h

theorem mem_filter_getBit : x ∈ (range cats.highbit).filter cats.getBit ↔ cats.getBit x = true := by
  obtain ⟨e, rfl⟩ := Ebitmap.exists_toT h
  rw [mem_filter, mem_range]
  refine and_iff_right_of_imp fun hx => ?_
  rw [e.getBit_toT, ebitmapGetBit_eq_true] at hx
  have := Ebitmap.le_highbit_toT hx
  have := EbitmapT.lt_startOf_add x
  omega

theorem positiveBits_eq : cats.positiveBits = some ((range cats.highbit).filter cats.getBit) := by
  have hmem := fun x => mem_filter_getBit h (x := x)
  obtain ⟨e, rfl⟩ := Ebitmap.exists_toT h
  have hwalk : ∀ l :
      List Nat, ((l.map fun x => (x, ebitmapGetBit e x)).filter Prod.snd).map Prod.fst =
      l.filter (ebitmapGetBit e) := by
    intro l
    rw [List.filter_map, List.map_map]
    exact map_id _
  have hsorted := (pairwise_append.mp e.walk_isWalk.sorted).1
  rw [EbitmapT.positiveBits, e.forEachBit_toT, map_some, hwalk]
  refine congrArg some ((hsorted.filter _).eq_of_mem_iff (pairwise_lt_range.filter _) fun x => ?_)
  rw [hmem, e.getBit_toT, mem_filter]
  exact and_iff_right_of_imp (e.walk_isWalk.mem x)

theorem cuts_cats :
    Cuts (fun i => cats.getBit (i + 1)) ((range cats.highbit).filter cats.getBit) where
  sorted := pairwise_lt_range.filter _
  more _ _ := (mem_filter_getBit h).symm

theorem covered_catsRuns : Covered (catsRuns cats) x ↔ x ∈ cats.members := by
  rw [catsRuns, Lib.covered_intervals (cuts_cats h) (fun s hs => by cases hs), mem_filter_getBit h]
  simp [EbitmapT.members]

theorem catsRuns_le : ∀ r ∈ catsRuns cats, r.1 ≤ r.2 := by
  exact fun r hr => (Lib.intervals_le (cuts_cats h) (fun s hs => by cases hs) r hr).1

end Runs

/-! ## The loops -/

/-- The state of a loop at the end of a run. -/
def runOf (r : Nat × Nat) : CatsRun where
  start := r.1
  range := r.2 + 1 - r.1

namespace CatsRun

def openRun (s : CatsRun) : Option Nat := if s.range = 0 then none else some s.start

/-- An open run goes on with the next category. -/
def At (s : CatsRun) (l : List Nat) : Prop := s.range = 0 ∨ ∃ t, l = (s.start + s.range) :: t

theorem enter_eq {i l} (hat : s.At (i :: l)) : s.enter i = runOf (s.openRun.getD i, i) := by
  rw [enter, runOf, openRun]
  rcases hat with hzero | ⟨t, ht⟩
  · simp [hzero]
  · obtain rfl := (cons.inj ht).1
    split_ifs with hzero
    · simp [hzero]
    · simp only [getD_some, mk.injEq, true_and]
      omega

theorem At.enter {i l} (hat : s.At (i :: l)) {more} (hcuts : Cuts more (i :: l))
    (hmore : more i = true) : (s.enter i).At l := by
  obtain ⟨t, rfl⟩ := hcuts.head hmore
  refine .inr ⟨t, ?_⟩
  rcases hat with hzero | ⟨t', ht⟩
  · simp [CatsRun.enter, hzero]
  · obtain rfl := (cons.inj ht).1
    simp [CatsRun.enter, Nat.add_assoc]

theorem openRun_enter (s : CatsRun) (i : Nat) : (s.enter i).openRun = some (s.openRun.getD i) := by
  by_cases hzero : s.range = 0 <;> simp [enter, openRun, hzero]

end CatsRun

section Loops

variable {cats : EbitmapT} {names : Nat → Name} {l : List Nat}

theorem catsLenLoop_eq (hcuts : Cuts (fun i => cats.getBit (i + 1)) l) (hat : s.At l) (len : Nat) :
    (l.foldl (catsLenStep cats names) (s, len)).2 =
      len + ((intervals (fun i => cats.getBit (i + 1)) s.openRun l).map fun r =>
        catsLen names (runOf r) r.2).sum := by
  induction l generalizing s len with
  | nil => rfl
  | cons i l ih =>
    rw [foldl_cons, catsLenStep, intervals]
    split_ifs with hmore
    · rw [ih hcuts.tail (hat.enter hcuts hmore), s.openRun_enter]
    · rw [ih hcuts.tail (.inl rfl), map_cons, sum_cons, CatsRun.enter_eq hat, Nat.add_assoc]
      rfl

theorem catsLoop_eq (hcuts : Cuts (fun i => cats.getBit (i + 1)) l) (hat : s.At l) (size : Nat)
    (text : Name) : (l.foldlM (catsStep cats names size) (s, text)).map Prod.snd =
      ((intervals (fun i => cats.getBit (i + 1)) s.openRun l).map fun r =>
        catsItem names (runOf r) r.2).foldlM (printTo size) text := by
  induction l generalizing s text with
  | nil => rfl
  | cons i l ih =>
    rw [foldlM_cons, catsStep, intervals]
    split_ifs with hmore
    · rw [← s.openRun_enter i]
      exact ih hcuts.tail (hat.enter hcuts hmore) text
    · rw [map_cons, foldlM_cons, CatsRun.enter_eq hat]
      cases printTo size text (catsItem names (runOf (s.openRun.getD i, i)) i) with
      | none => rfl
      | some text => exact ih hcuts.tail (.inl rfl) text

end Loops

/-! ## The text of the runs -/

/-- How CIL writes a run. -/
def runItems (r : Nat × Nat) : List CatItem :=
  if r.1 = r.2 then [.cat r.1] else if r.1 + 1 = r.2 then [.cat r.1, .cat r.2] else [.range r.1 r.2]

theorem catsItem_eq (names : Nat → Name) {r} (hle : r.1 ≤ r.2) : catsItem names (runOf r) r.2 =
      ((runItems r).map fun item => item.text names ++ [' ']).flatten := by
  have hrange : (runOf r).range = r.2 + 1 - r.1 := rfl
  rw [catsItem, runItems]
  by_cases hone : r.1 = r.2
  · rw [if_neg (by omega), if_pos hone]
    simp [CatItem.text, runOf]
  · by_cases htwo : r.1 + 1 = r.2
    · rw [if_pos (by omega), if_pos (by omega), if_neg hone, if_pos htwo]
      simp [CatItem.text, runOf]
    · rw [if_pos (by omega), if_neg (by omega), if_neg hone, if_neg htwo]
      simp [CatItem.text, runOf]

variable {rs : List (Nat × Nat)}

theorem flatten_catsItem (names : Nat → Name) (hle : ∀ r ∈ rs, r.1 ≤ r.2) :
    (rs.map fun r => catsItem names (runOf r) r.2).flatten =
      ((rs.flatMap runItems).map fun item => item.text names ++ [' ']).flatten := by
  induction rs with
  | nil => rfl
  | cons r rs ih =>
    obtain ⟨hr, hrs⟩ := forall_mem_cons.mp hle
    simp [ih hrs, catsItem_eq names hr]

/-- The last blank becomes the parenthesis. -/
theorem dropLast_items (names : Nat → Name) (hne : items ≠ []) :
    ('(' :: (items.map fun item => item.text names ++ [' ']).flatten).dropLast ++ [')'] =
      catListText names items := by
  obtain ⟨init, last, rfl⟩ := (eq_nil_or_concat items).resolve_left hne
  have htext : '(' :: ((init.concat last).map fun item => item.text names ++ [' ']).flatten =
      ('(' :: (init.map fun item => item.text names ++ [' ']).flatten ++ last.text names) ++
        [' '] := by
    simp
  rw [htext, dropLast_concat, catListText, concat_eq_append, map_append, map_singleton,
    Lib.intercalate_blank, List.map_map]
  rfl

theorem members_runItems {r} (hle : r.1 ≤ r.2) {x} :
    (∃ item ∈ runItems r, x ∈ item.members) ↔ r.1 ≤ x ∧ x ≤ r.2 := by
  obtain ⟨i, j⟩ := r
  simp only [runItems] at hle ⊢
  split_ifs with hone htwo
  · simp only [mem_singleton, exists_eq_left, CatItem.members, Set.mem_singleton_iff]
    omega
  · simp only [mem_cons, not_mem_nil, or_false, exists_eq_or_imp, exists_eq_left, CatItem.members,
      Set.mem_singleton_iff]
    omega
  · simp [CatItem.members]

theorem members_flatMap_runItems (hle : ∀ r ∈ rs, r.1 ≤ r.2) :
    (∃ item ∈ rs.flatMap runItems, x ∈ item.members) ↔ Covered rs x := by
  constructor
  · rintro ⟨item, hitem, hx⟩
    obtain ⟨r, hr, hmem⟩ := mem_flatMap.mp hitem
    exact ⟨r, hr, (members_runItems (hle r hr)).mp ⟨item, hmem, hx⟩⟩
  · rintro ⟨r, hr, hx⟩
    obtain ⟨item, hmem, hx⟩ := (members_runItems (hle r hr)).mpr hx
    exact ⟨item, mem_flatMap.mpr ⟨r, hr, hmem⟩, hx⟩

/-! ## Whether the text fits -/

/-- The bytes of the text and of the zero byte behind it. -/
def catsSize (names : Nat → Name) (rs : List (Nat × Nat)) : Nat :=
  (catListText names (rs.flatMap runItems)).length + 1

/-- The names of the last categories of the longer runs. -/
def lastNames (names : Nat → Name) (rs : List (Nat × Nat)) : Nat :=
  ((rs.filter fun r => r.1 < r.2).map fun r => (names r.2).length).sum

/-- The names of the categories before them. -/
def previousNames (names : Nat → Name) (rs : List (Nat × Nat)) : Nat :=
  ((rs.filter fun r => r.1 < r.2).map fun r => (names (r.2 - 1)).length).sum

/-- The text fits into a buffer that has, for the last category of a longer run, the size of the
name before it, if this size is taken as an `int`. -/
def CatsFit (cats : EbitmapT) (names : Nat → Name) : Prop :=
  (catsSize names (catsRuns cats) : Int) ≤ (BitVec.ofInt 32 (catsSize names (catsRuns cats) -
    lastNames names (catsRuns cats) + previousNames names (catsRuns cats))).toInt

section Sizes

variable (names : Nat → Name)

theorem catsLen_eq {r} (hle : r.1 ≤ r.2) :
    catsLen names (runOf r) r.2 + (if r.1 < r.2 then (names r.2).length else 0) =
      (catsItem names (runOf r) r.2).length + if r.1 < r.2 then (names (r.2 - 1)).length
        else 0 := by
  have hrange : (runOf r).range = r.2 + 1 - r.1 := rfl
  have hkeyword : rangeKeyword.length = 5 := rfl
  rw [catsLen, catsItem]
  by_cases hone : r.1 = r.2
  · simp [hrange, hone]
  · by_cases htwo : r.1 + 1 = r.2
    · rw [if_neg (by omega), if_pos (by omega), if_pos (by omega), if_pos (by omega),
        if_pos (by omega),
        if_pos (by omega)]
      simp only [length_append, length_cons, length_nil]
      omega
    · rw [if_pos (by omega), if_pos (by omega), if_pos (by omega), if_neg (by omega),
        if_pos (by omega)]
      simp only [length_append, length_cons, length_nil, hkeyword]
      omega

theorem sum_catsLen (hle : ∀ r ∈ rs, r.1 ≤ r.2) :
    (rs.map fun r => catsLen names (runOf r) r.2).sum + lastNames names rs =
      (rs.map fun r => catsItem names (runOf r) r.2).flatten.length + previousNames names rs := by
  induction rs with
  | nil => rfl
  | cons r rs ih =>
    obtain ⟨hr, hrs⟩ := forall_mem_cons.mp hle
    have hone := catsLen_eq names hr
    have hrest := ih hrs
    rw [lastNames, previousNames] at hrest ⊢
    rw [map_cons, sum_cons, map_cons, flatten_cons, length_append, filter_cons]
    by_cases hlt : r.1 < r.2
    · simp only [hlt, decide_true, if_true, map_cons, sum_cons] at hone ⊢
      omega
    · simp only [hlt, decide_false, if_false, Bool.false_eq_true] at hone ⊢
      omega

theorem catsSize_eq (hle : ∀ r ∈ rs, r.1 ≤ r.2) (hne : rs.flatMap runItems ≠ []) :
    catsSize names rs = (rs.map fun r => catsItem names (runOf r) r.2).flatten.length + 2 := by
  simp [catsSize, ← dropLast_items names hne, flatten_catsItem names hle]

end Sizes

section Result

variable {cats : EbitmapT} (h : cats.Canonical) (names : Nat → Name)
include h

/-- What `cats_ebitmap_len` adds up. -/
def catsTotal (cats : EbitmapT) (names : Nat → Name) : Nat :=
  ((catsRuns cats).map fun r => catsLen names (runOf r) r.2).sum

theorem catsEbitmapLen_eq : catsEbitmapLen cats names =
    some (if 0 < catsTotal cats names % 2 ^ 64 then (catsTotal cats names % 2 ^ 64 + 2) % 2 ^ 64
      else catsTotal cats names % 2 ^ 64) := by
  have hlen : (((range cats.highbit).filter cats.getBit).foldl (catsLenStep cats names)
      ({}, 0)).2 =
      catsTotal cats names := (catsLenLoop_eq (cuts_cats h) (.inl rfl) 0).trans (Nat.zero_add _)
  simp [catsEbitmapLen, positiveBits_eq h, hlen]

theorem catsTotal_eq (hne : (catsRuns cats).flatMap runItems ≠ []) :
    (catsTotal cats names + 2 : Int) = catsSize names (catsRuns cats) - lastNames names
      (catsRuns cats) + previousNames names (catsRuns cats) := by
  have hsum := sum_catsLen names (catsRuns_le h)
  have hsize := catsSize_eq names (catsRuns_le h) hne
  rw [catsTotal]
  omega

omit h in
theorem toInt_catsLen (total : Nat) : (BitVec.ofNat 32
      (if 0 < total % 2 ^ 64 then (total % 2 ^ 64 + 2) % 2 ^ 64 else total % 2 ^ 64)).toInt =
      if total % 2 ^ 64 = 0 then 0 else (BitVec.ofInt 32 (total + 2)).toInt := by
  split_ifs with hpos hzero hzero
  · omega
  · have hcast : BitVec.ofInt 32 ((total : Int) + 2) = BitVec.ofNat 32 (total + 2) :=
      BitVec.ofInt_natCast 32 (total + 2)
    rw [hcast]
    congr 1
    apply BitVec.eq_of_toNat_eq
    simp
  · rw [hzero]
    rfl
  · omega

section

variable (hne : cats.members.Nonempty)
include hne

theorem runItems_ne_nil : (catsRuns cats).flatMap runItems ≠ [] := by
  obtain ⟨x, hx⟩ := hne
  obtain ⟨item, hitem, -⟩ :=
    (members_flatMap_runItems (catsRuns_le h)).mpr ((covered_catsRuns h).mpr hx)
  exact ne_nil_of_mem hitem

theorem catsPrintLoop_eq (size : Nat) :
    (((range cats.highbit).filter cats.getBit).foldlM (catsStep cats names size)
    ({}, ['('])).map Prod.snd = if catsSize names (catsRuns cats) ≤ size then
        some ('(' :: (((catsRuns cats).flatMap runItems).map fun item =>
          item.text names ++ [' ']).flatten) else none := by
  have hitems := runItems_ne_nil h hne
  have hruns : (catsRuns cats).map (fun r => catsItem names (runOf r) r.2) ≠ [] := fun hnil =>
    hitems (by rw [map_eq_nil_iff.mp hnil, flatMap_nil])
  rw [catsLoop_eq (cuts_cats h) (.inl rfl)]
  refine (Lib.foldlM_printTo size _ (.inr hruns)).trans ?_
  rw [catsSize_eq names (catsRuns_le h) hitems, flatten_catsItem names (catsRuns_le h),
    length_singleton]
  congr 1
  exact propext (by omega)

theorem catsPrint_eq (remaining : Int) : catsPrint cats names remaining =
    if (catsSize names (catsRuns cats) : Int) ≤ remaining then
      some (catListText names ((catsRuns cats).flatMap runItems)) else none := by
  have hitems := runItems_ne_nil h hne
  have hloop := catsPrintLoop_eq h names hne remaining.toNat
  rw [catsPrint]
  by_cases hneg : remaining ≤ 0
  · rw [if_pos hneg, if_neg (by rw [catsSize]; omega)]
  · rw [if_neg hneg, positiveBits_eq h, bind_eq_bind, bind_some]
    by_cases hfits : (catsSize names (catsRuns cats) : Int) ≤ remaining
    · rw [if_pos (by omega)] at hloop
      obtain ⟨s, hs, htext⟩ := map_eq_some_iff.mp hloop
      simp [hs, if_pos hfits, htext, dropLast_items names hitems]
    · rw [if_neg (by omega), map_eq_none_iff] at hloop
      rw [hloop, if_neg hfits]
      rfl

/-- The text is returned if, and only if, it fits. -/
theorem catsEbitmapToStr_eq_some (text : Name) : catsEbitmapToStr cats names = some text ↔
      CatsFit cats names ∧ text = catListText names ((catsRuns cats).flatMap runItems) := by
  have hitems := runItems_ne_nil h hne
  have hsize : 2 < catsSize names (catsRuns cats) := by
    obtain ⟨item, items, heq⟩ := exists_cons_of_ne_nil hitems
    simp [catsSize_eq names (catsRuns_le h) hitems, flatten_catsItem names (catsRuns_le h), heq]
  rw [catsEbitmapToStr, catsEbitmapLen_eq h, bind_eq_bind, bind_some, toInt_catsLen,
    catsPrint_eq h names hne,
    CatsFit, ← catsTotal_eq h names hitems]
  by_cases hzero : catsTotal cats names % 2 ^ 64 = 0
  · -- a length that wraps to zero is not raised by the two parentheses
    have hwrap : BitVec.ofInt 32 ((catsTotal cats names : Int) + 2) = 2#32 := by
      have hcast := BitVec.ofInt_natCast 32 (catsTotal cats names + 2)
      refine hcast.trans (BitVec.eq_of_toNat_eq ?_)
      simp only [BitVec.toNat_ofNat]
      omega
    rw [if_pos hzero, if_neg (by omega), hwrap]
    simp [hsize]
  · rw [if_neg hzero, ite_none_right_eq_some, some_inj, eq_comm (a := text)]

end

/-- For categories, `cats_ebitmap_to_str` returns a text that denotes their set, and no other set if
CIL can tell the names apart, if and only if the text fits. -/
theorem catsEbitmapToStr_exact_iff (hne : cats.members.Nonempty) :
    (∃ text, catsEbitmapToStr cats names = some text ∧ Denotes names text cats.members ∧
      (CilNames names → ∀ s, Denotes names text s → s = cats.members)) ↔ CatsFit cats names := by
  constructor
  · rintro ⟨text, htext, -⟩
    exact ((catsEbitmapToStr_eq_some h names hne text).mp htext).1
  · intro hfit
    have hmembers : {x | ∃ item ∈ (catsRuns cats).flatMap runItems, x ∈ item.members} =
        cats.members := by
      ext x
      exact (members_flatMap_runItems (catsRuns_le h)).trans (covered_catsRuns h)
    have hdenotes := @Denotes.list names ((catsRuns cats).flatMap runItems)
    rw [hmembers] at hdenotes
    refine ⟨_, (catsEbitmapToStr_eq_some h names hne _).mpr ⟨hfit, rfl⟩, hdenotes,
      fun hnames s hs => ?_⟩
    exact Denotes.unique hnames hs hdenotes

end Result

/-- The names `c0`, `c1` and so on. -/
def numberedCat (i : Nat) : Name := 'c' :: Nat.toDigits 10 i

/-- Some categories with names of one length. -/
theorem catsEbitmapToStr_exact_iff_digits :
    (∃ text, catsEbitmapToStr (Ebitmap.ofList [0, 2, 3, 4]).toT numberedCat = some text ∧
      Denotes numberedCat text (Ebitmap.ofList [0, 2, 3, 4]).toT.members ∧
      (CilNames numberedCat → ∀ s, Denotes numberedCat text s →
        s = (Ebitmap.ofList [0, 2, 3, 4]).toT.members)) ↔
    CatsFit (Ebitmap.ofList [0, 2, 3, 4]).toT numberedCat :=
  catsEbitmapToStr_exact_iff (Ebitmap.canonical_toT _) numberedCat
    ⟨0, show EbitmapT.getBit _ 0 = true by decide⟩

/-- The name of the last category is longer than the one before it. -/
theorem catsEbitmapToStr_ninth : catsEbitmapToStr (Ebitmap.ofList [9, 10]).toT numberedCat =
    none := by
  decide +kernel

end SELinux.Sepol
