import Mathlib.Data.Finset.Card
import SELinux.Lib.Assoc
import SELinux.Sepol.Mls

/-! The table of filename transitions (`policydb_filetrans_insert` and
`filename_trans_check_datum` in `policydb.c`). A key (target type, class, name) has a chain
of datums, each a result type with the set of its source types. An insertion walks the chain
once, looking both for the source and for the result type. -/
namespace SELinux.Sepol

open List

/-! ## Model -/

/-- `filename_trans_key_t`. -/
structure FilenameTransKey where
  ttype : Nat
  tclass : Nat
  name : Name
  deriving DecidableEq

/-- `filename_trans_datum_t`, without the pointer to the next one. -/
structure FilenameTransDatum where
  stypes : Ebitmap := ∅
  otype : Nat
  deriving DecidableEq

/-- `p->filename_trans` and `p->filename_trans_count`. A key has one entry. -/
structure FilenameTrans where
  table : List (FilenameTransKey × List FilenameTransDatum) := []
  keys : (table.map Prod.fst).Nodup
  count : Nat := 0

namespace FilenameTrans

def empty : FilenameTrans where
  table := []
  keys := nodup_nil

/-- The chain that `hashtab_search` finds. -/
def chain (t : FilenameTrans) (key : FilenameTransKey) : List FilenameTransDatum :=
  (t.table.lookup key).getD []

/-- Change the chain of a key, or insert the key with a chain. -/
def setChain (t : FilenameTrans) (key : FilenameTransKey) (chain : List FilenameTransDatum) :
    FilenameTrans :=
  { t with table := Lib.assocSet key chain t.table, keys := Lib.nodup_keys_assocSet t.keys key chain
    }

end FilenameTrans

/-- A call of `policydb_filetrans_insert`; `nameAlloc` says whether the caller gives an
allocated name. -/
structure FiletransCall where
  stype : Nat
  ttype : Nat
  tclass : Nat
  name : Name
  nameAlloc : Bool := false
  otype : Nat

namespace FiletransCall

def key (c : FiletransCall) : FilenameTransKey := ⟨c.ttype, c.tclass, c.name⟩

/-- `stype - 1`, in 32 bits. -/
def bit (c : FiletransCall) : Nat := if c.stype = 0 then 2 ^ 32 - 1 else c.stype - 1

end FiletransCall

/-- The places where an insertion needs memory. -/
inductive FiletransAlloc where
  | datum
  | name
  | key
  | insert
  | bit
  deriving DecidableEq

inductive FiletransError where
  | eexist (presentOtype : Nat)
  | enomem
  | einval
  deriving DecidableEq

/-- The `while` loop: the result type that the source has already, if the source is found
before a datum with the wanted result type ends the loop. -/
def filetransPresent (bit otype : Nat) : List FilenameTransDatum → Option Nat
  | [] => none
  | datum :: next =>
    if ebitmapGetBit datum.stypes bit then some datum.otype
    else if datum.otype = otype then none
    else filetransPresent bit otype next

/-- A write to the source set of the first datum with the result type, which is appended if
there is none. -/
def filetransModify (otype : Nat) (f : Ebitmap → Ebitmap) :
    List FilenameTransDatum → List FilenameTransDatum
  | [] => [{ stypes := f ∅, otype }]
  | datum :: next =>
    if datum.otype = otype then { datum with stypes := f datum.stypes } :: next
    else datum :: filetransModify otype f next

section

variable (fail : FiletransAlloc → Bool) (t : FilenameTrans) (c : FiletransCall)
  (chain : List FilenameTransDatum)

/-- The new datum, and for the first one the key, cannot be allocated. -/
def FiletransCall.outOfMemory : Bool :=
  chain.all (·.otype != c.otype) &&
  (fail .datum ||
    chain.isEmpty && (!c.nameAlloc && fail .name || fail .key || fail .insert))

/-- `ebitmap_set_bit(&datum->stypes, stype - 1, 1)`. -/
def FiletransCall.setBit (e : Ebitmap) : Except FiletransError Ebitmap :=
  match ebitmapSetBit e c.bit true with
  | .error _ => .error .einval
  | .ok e => if fail .bit then .error .enomem else .ok e

/-- `policydb_filetrans_insert`. The counter is raised before the bit is set. -/
def policydbFiletransInsert : Except FiletransError Unit × FilenameTrans :=
  let chain := t.chain c.key
  match filetransPresent c.bit c.otype chain with
  | some present => (.error (.eexist present), t)
  | none =>
    if c.outOfMemory fail chain then (.error .enomem, t)
    else
      -- the error of the last call does not depend on the bitmap it is made on
      let rc := (c.setBit fail ∅).map fun _ => ()
      let write (e : Ebitmap) : Ebitmap := (c.setBit fail e).toOption.getD e
      (rc, { t.setChain c.key (filetransModify c.otype write chain) with
              count := (t.count + 1) % 2 ^ 32 })

/-- The loop of `filename_trans_check_datum`. -/
def filenameTransCheckLoop (stypes otypes : Ebitmap) : List FilenameTransDatum → Bool
  | [] => true
  | datum :: next =>
    if ebitmapGetBit otypes datum.otype then false
    else
      match ebitmapSetBit otypes datum.otype true with
      | .error _ => false
      | .ok otypes =>
        if ebitmapMatchAny stypes datum.stypes then false
        else filenameTransCheckLoop (ebitmapUnion stypes datum.stypes) otypes next

def filenameTransCheckDatum : Bool :=
  filenameTransCheckLoop ∅ ∅ chain

/-! ## The table as a function -/

/-- The result types of the chain are distinct and its source sets disjoint. -/
structure ChainFunctional : Prop where
  otypes : (chain.map FilenameTransDatum.otype).Nodup
  sources : chain.Pairwise fun a b => ∀ x ∈ a.stypes, x ∉ b.stypes

/-- The (key, source) pairs that have a result. -/
def FilenameTrans.pairs : Finset (FilenameTransKey × Nat) :=
  (t.table.flatMap fun e => e.2.flatMap fun d => d.stypes.bits.map fun x => (e.1, x)).toFinset

/-- What the table is to be: a function from keys and sources to result types, counted by the
counter and accepted by the check of the reader. -/
structure FilenameTrans.Functional : Prop where
  chains : ∀ key, ChainFunctional (t.chain key)
  count : t.count = t.pairs.card
  accepted : ∀ key, filenameTransCheckDatum (t.chain key) = true

/-- The source has another result type for the key. -/
def FilenameTrans.Conflicts : Prop :=
  ∃ d ∈ t.chain c.key, c.bit ∈ d.stypes ∧ d.otype ≠ c.otype

/-- What a call is to do: leave a function, and refuse a second result. -/
structure FiletransCall.Kept : Prop where
  functional : (policydbFiletransInsert fail t c).2.Functional
  refused : t.Conflicts c →
    (∃ present, (policydbFiletransInsert fail t c).1 = .error (.eexist present)) ∧
      (policydbFiletransInsert fail t c).2 = t

/-- The datums up to the first one with the result type, that one included. -/
def uptoOtype (otype : Nat) (chain : List FilenameTransDatum) : List FilenameTransDatum :=
  chain.takeWhile (·.otype != otype) ++ (chain.dropWhile (·.otype != otype)).take 1

/-- When a call does what it is to do: the source is found up to the first datum with the
result type; or there is no memory for a new datum; or no datum has the source, the two types
fit a bitmap, the bit can be stored and the counter has room. -/
def FiletransCall.Fine : Prop :=
  (∃ d ∈ uptoOtype c.otype (t.chain c.key), c.bit ∈ d.stypes) ∨
  c.outOfMemory fail (t.chain c.key) = true ∨
  ((∀ d ∈ t.chain c.key, c.bit ∉ d.stypes) ∧ c.bit < ebitmapLimit ∧ c.otype < ebitmapLimit ∧
    fail .bit = false ∧ t.count + 1 < 2 ^ 32)

end

/-! ## Chains -/

section Chain

variable {chain : List FilenameTransDatum} {bit otype : Nat}

theorem filetransPresent_eq_none :
    filetransPresent bit otype chain = none ↔ ∀ d ∈ uptoOtype otype chain, bit ∉ d.stypes := by
  induction chain with
  | nil => simp [filetransPresent, uptoOtype]
  | cons d chain ih =>
    rw [filetransPresent]
    by_cases ho : d.otype = otype
    · simp [uptoOtype, ho]
    · have hupto : uptoOtype otype (d :: chain) = d :: uptoOtype otype chain := by
        simp [uptoOtype, ho]
      by_cases hb : bit ∈ d.stypes
      · simp [hupto, hb]
      · simp [hupto, hb, ho, ih]

/-- The first datum with the result type is looked at. -/
theorem mem_uptoOtype {d : FilenameTransDatum} (hd : d ∈ chain) (ho : d.otype = otype)
    (hnodup : (chain.map FilenameTransDatum.otype).Nodup) : d ∈ uptoOtype otype chain := by
  induction chain with
  | nil => cases hd
  | cons a chain ih =>
    obtain ⟨ha, hrest⟩ := nodup_cons.mp hnodup
    rcases mem_cons.mp hd with rfl | hd
    · simp [uptoOtype, ho]
    · have hne : a.otype ≠ otype := fun h => ha (h.trans ho.symm ▸ mem_map_of_mem hd)
      have hupto : uptoOtype otype (a :: chain) = a :: uptoOtype otype chain := by
        simp [uptoOtype, hne]
      rw [hupto]
      exact mem_cons_of_mem _ (ih hd hrest)

theorem uptoOtype_of_all (h : ∀ d ∈ chain, d.otype ≠ otype) : uptoOtype otype chain = chain := by
  induction chain with
  | nil => rfl
  | cons a chain ih =>
    have := ih fun d hd => h d (by simp [hd])
    simpa [uptoOtype, h a (by simp)] using this

/-- What the check of the reader accepts. -/
theorem filenameTransCheckLoop_iff {stypes otypes} :
    filenameTransCheckLoop stypes otypes chain = true ↔ ChainFunctional chain ∧
        ∀ d ∈ chain, d.otype < ebitmapLimit ∧ d.otype ∉ otypes ∧ ∀ x ∈ stypes, x ∉ d.stypes := by
  induction chain generalizing stypes otypes with
  | nil => simp [filenameTransCheckLoop, (⟨.nil, .nil⟩ : ChainFunctional [])]
  | cons d chain ih =>
    rw [filenameTransCheckLoop]
    by_cases hseen : d.otype ∈ otypes
    · simp [hseen]
    by_cases hlimit : d.otype < ebitmapLimit
    · rw [ebitmapSetBit_true hlimit]
      by_cases hmatch : ebitmapMatchAny stypes d.stypes = true
      · obtain ⟨x, hx, hx'⟩ := ebitmapMatchAny_iff.mp hmatch
        simp only [hmatch, if_true, ebitmapGetBit_eq_true, hseen, if_false, Bool.false_eq_true,
          false_iff]
        rintro ⟨-, hall⟩
        exact (hall d (by simp)).2.2 x hx hx'
      · have hdisjoint : ∀ x ∈ stypes, x ∉ d.stypes := fun x hx hx' =>
          hmatch (ebitmapMatchAny_iff.mpr ⟨x, hx, hx'⟩)
        simp only [hmatch, ebitmapGetBit_eq_true, hseen, if_false, ih, Bool.false_eq_true]
        constructor
        · rintro ⟨hchain, hall⟩
          refine ⟨⟨?_, ?_⟩, fun b hb => ?_⟩
          · refine nodup_cons.mpr ⟨fun hmem => ?_, hchain.otypes⟩
            obtain ⟨b, hb, hbo⟩ := mem_map.mp hmem
            exact (hall b hb).2.1 (by simp [hbo])
          · exact pairwise_cons.mpr
              ⟨fun b hb x hx => (hall b hb).2.2 x (by simp [hx]), hchain.sources⟩
          · rcases mem_cons.mp hb with rfl | hb
            · exact ⟨hlimit, hseen, hdisjoint⟩
            · obtain ⟨h1, h2, h3⟩ := hall b hb
              exact ⟨h1, fun h => h2 (Ebitmap.mem_set.mpr (.inr h)),
                fun x hx => h3 x (mem_ebitmapUnion.mpr (.inl hx))⟩
        · rintro ⟨hchain, hall⟩
          obtain ⟨hfirst, hrest⟩ := nodup_cons.mp hchain.otypes
          obtain ⟨hsources, htail⟩ := pairwise_cons.mp hchain.sources
          refine ⟨⟨hrest, htail⟩, fun b hb => ?_⟩
          obtain ⟨h1, h2, h3⟩ := hall b (by simp [hb])
          refine ⟨h1, fun h => ?_, fun x hx => ?_⟩
          · rcases Ebitmap.mem_set.mp h with heq | h
            · exact hfirst (mem_map.mpr ⟨b, hb, heq⟩)
            · exact h2 h
          · rcases mem_ebitmapUnion.mp hx with hx | hx
            · exact h3 x hx
            · exact hsources b hb x hx
    · simp [ebitmapSetBit, hlimit]

theorem filenameTransCheckDatum_iff : filenameTransCheckDatum chain = true ↔
      ChainFunctional chain ∧ ∀ d ∈ chain, d.otype < ebitmapLimit := by
  rw [filenameTransCheckDatum, filenameTransCheckLoop_iff]
  simp

/-! A write that adds the bit, if `stored` holds, and nothing else. -/

variable {f : Ebitmap → Ebitmap} {stored : Prop} (hf : ∀ e x, x ∈ f e ↔ x ∈ e ∨ stored ∧ x = bit)
include hf

theorem exists_mem_filetransModify {x} : (∃ d ∈ filetransModify otype f chain, x ∈ d.stypes) ↔
      (∃ d ∈ chain, x ∈ d.stypes) ∨ stored ∧ x = bit := by
  induction chain with
  | nil => simp [filetransModify, hf]
  | cons d chain ih =>
    rw [filetransModify]
    split_ifs with ho
    · simp only [mem_cons, exists_eq_or_imp, hf]
      exact or_right_comm
    · simp only [mem_cons, exists_eq_or_imp, ih]
      exact (or_assoc).symm

omit hf in
theorem mem_otypes_filetransModify {o : Nat} :
    o ∈ (filetransModify otype f chain).map FilenameTransDatum.otype ↔
      o = otype ∨ o ∈ chain.map FilenameTransDatum.otype := by
  induction chain with
  | nil => simp [filetransModify]
  | cons d chain ih =>
    rw [filetransModify]
    split_ifs with ho
    · simp [ho]
    · simp only [map_cons, mem_cons, ih]
      tauto

theorem ChainFunctional.modify (h : ChainFunctional chain)
    (hfree : stored → ∀ d ∈ chain, bit ∉ d.stypes) :
    ChainFunctional (filetransModify otype f chain) := by
  induction chain with
  | nil => exact ⟨nodup_singleton _, pairwise_singleton _ _⟩
  | cons d chain ih =>
    obtain ⟨hfirst, hrest⟩ := nodup_cons.mp h.otypes
    obtain ⟨hsources, htail⟩ := pairwise_cons.mp h.sources
    rw [filetransModify]
    split_ifs with ho
    · refine ⟨nodup_cons.mpr ⟨hfirst, hrest⟩, pairwise_cons.mpr ⟨fun b hb x hx => ?_, htail⟩⟩
      rcases (hf _ _).mp hx with hx | ⟨hstored, rfl⟩
      · exact hsources b hb x hx
      · exact hfree hstored b (by simp [hb])
    · have hmodify := ih ⟨hrest, htail⟩ fun hstored b hb => hfree hstored b (by simp [hb])
      refine ⟨nodup_cons.mpr ⟨fun hmem => ?_, hmodify.otypes⟩,
        pairwise_cons.mpr ⟨fun b hb x hx hx' => ?_, hmodify.sources⟩⟩
      · rcases mem_otypes_filetransModify.mp hmem with heq | hmem
        · exact ho heq
        · exact hfirst hmem
      · rcases (exists_mem_filetransModify hf).mp ⟨b, hb, hx'⟩ with ⟨b', hb', hx'⟩ | ⟨hstored, rfl⟩
        · exact hsources b' hb' x hx hx'
        · exact hfree hstored d (by simp) hx

end Chain

/-! ## Tables -/

namespace FilenameTrans

variable {t : FilenameTrans}

theorem chain_setChain (key k : FilenameTransKey) (chain : List FilenameTransDatum) :
    (t.setChain key chain).chain k = if k = key then chain else t.chain k := by
  unfold setChain FilenameTrans.chain
  split_ifs with hk
  · rw [hk, Lib.lookup_assocSet_self, Option.getD_some]
  · rw [Lib.lookup_assocSet_of_ne hk]

theorem chain_withCount (key : FilenameTransKey) (count : Nat) :
    ({ t with count } : FilenameTrans).chain key = t.chain key :=
  rfl

theorem mem_pairs {key x} : (key, x) ∈ t.pairs ↔ ∃ d ∈ t.chain key, x ∈ d.stypes := by
  have hmem : (key, x) ∈ t.pairs ↔ ∃ ch, (key, ch) ∈ t.table ∧ ∃ d ∈ ch, x ∈ d.stypes := by
    simp [pairs]
  rw [hmem, FilenameTrans.chain]
  constructor
  · rintro ⟨ch, he, hd⟩
    rwa [(Lib.lookup_eq_some t.keys).mpr he]
  · intro hd
    cases hl : t.table.lookup key with
    | none => simp [hl] at hd
    | some ch => exact ⟨ch, (Lib.lookup_eq_some t.keys).mp hl, by simpa [hl] using hd⟩

theorem functional_empty : empty.Functional where
  chains _ := ⟨.nil, .nil⟩
  count := rfl
  accepted _ := rfl

end FilenameTrans

/-! ## One call -/

/-- The bit can be stored. -/
def FiletransCall.Stored (fail : FiletransAlloc → Bool) (c : FiletransCall) : Prop :=
  c.bit < ebitmapLimit ∧ fail .bit = false

theorem mem_setBit (fail : FiletransAlloc → Bool) (c : FiletransCall) (e : Ebitmap) (x : Nat) :
    x ∈ (c.setBit fail e).toOption.getD e ↔ x ∈ e ∨ c.Stored fail ∧ x = c.bit := by
  unfold FiletransCall.setBit FiletransCall.Stored
  generalize c.bit = bit
  by_cases hbit : bit < ebitmapLimit
  · rw [ebitmapSetBit_true hbit]
    cases hfail : fail .bit with
    | true => simp [Except.toOption]
    | false => simp [Except.toOption, hbit, or_comm]
  · simp [ebitmapSetBit, hbit, Except.toOption]

section Call

variable {fail : FiletransAlloc → Bool} {t : FilenameTrans} {c : FiletransCall}

/-- The table after a call that goes through to the end. -/
def FiletransCall.stored (fail : FiletransAlloc → Bool) (t : FilenameTrans) (c : FiletransCall) :
    FilenameTrans :=
  { t.setChain c.key (filetransModify c.otype (fun e => (c.setBit fail e).toOption.getD e)
      (t.chain c.key)) with count := (t.count + 1) % 2 ^ 32 }

theorem chain_stored (key : FilenameTransKey) : (c.stored fail t).chain key =
      if key = c.key then filetransModify c.otype (fun e => (c.setBit fail e).toOption.getD e)
        (t.chain c.key) else t.chain key := by
  rw [FiletransCall.stored, FilenameTrans.chain_withCount, FilenameTrans.chain_setChain]

theorem pairs_stored : ∀ pair, pair ∈ (c.stored fail t).pairs ↔
    pair ∈ t.pairs ∨ c.Stored fail ∧ pair = (c.key, c.bit) := by
  rintro ⟨key, x⟩
  rw [FilenameTrans.mem_pairs, FilenameTrans.mem_pairs, chain_stored]
  split_ifs with hkey
  · rw [exists_mem_filetransModify (mem_setBit fail c), hkey]
    simp
  · simp [hkey]

/-- A call that goes through on a source without a result for the key leaves a function
exactly if the bit is stored, the counter has room and the result type fits a bitmap. -/
theorem stored_functional_iff (h : t.Functional) (hfree : ∀ d ∈ t.chain c.key, c.bit ∉ d.stypes) :
    (c.stored fail t).Functional ↔
      c.Stored fail ∧ c.otype < ebitmapLimit ∧ t.count + 1 < 2 ^ 32 := by
  have hnew : (c.key, c.bit) ∉ t.pairs := fun hmem => by
    obtain ⟨d, hd, hx⟩ := FilenameTrans.mem_pairs.mp hmem
    exact hfree d hd hx
  have hchains : ∀ key, ChainFunctional ((c.stored fail t).chain key) := by
    intro key
    rw [chain_stored]
    split_ifs
    · exact (h.chains _).modify (mem_setBit fail c) fun _ => hfree
    · exact h.chains key
  have hcount : (c.stored fail t).count = (t.count + 1) % 2 ^ 32 := by rw [FiletransCall.stored]
  constructor
  · intro h'
    have hstored : c.Stored fail := by
      -- otherwise the counter is raised without a new pair
      by_contra hno
      have hpairs : (c.stored fail t).pairs = t.pairs := by
        ext pair
        simp [pairs_stored, hno]
      have := h'.count
      rw [hcount, hpairs, ← h.count] at this
      omega
    have hpairs : (c.stored fail t).pairs = insert (c.key, c.bit) t.pairs := by
      ext pair
      simp [pairs_stored, hstored, or_comm]
    have hcard := h'.count
    rw [hcount, hpairs, Finset.card_insert_of_notMem hnew, ← h.count] at hcard
    refine ⟨hstored, ?_, by omega⟩
    have haccepted := (filenameTransCheckDatum_iff.mp (h'.accepted c.key)).2
    rw [chain_stored, if_pos rfl] at haccepted
    have hmem : c.otype ∈ (filetransModify c.otype (fun e => (c.setBit fail e).toOption.getD e)
        (t.chain c.key)).map FilenameTransDatum.otype := mem_otypes_filetransModify.mpr (.inl rfl)
    obtain ⟨d, hd, hdo⟩ := mem_map.mp hmem
    exact hdo ▸ haccepted d hd
  · rintro ⟨hstored, hotype, hroom⟩
    have hpairs : (c.stored fail t).pairs = insert (c.key, c.bit) t.pairs := by
      ext pair
      simp [pairs_stored, hstored, or_comm]
    refine ⟨hchains, ?_, fun key => ?_⟩
    · rw [hcount, hpairs, Finset.card_insert_of_notMem hnew, ← h.count]
      exact Nat.mod_eq_of_lt hroom
    · refine filenameTransCheckDatum_iff.mpr ⟨hchains key, fun d hd => ?_⟩
      have hold := (filenameTransCheckDatum_iff.mp (h.accepted key)).2
      rw [chain_stored] at hd
      split_ifs at hd with hkey
      · rcases mem_otypes_filetransModify.mp (mem_map_of_mem hd) with heq | hmem
        · exact heq ▸ hotype
        · obtain ⟨b, hb, hbo⟩ := mem_map.mp hmem
          exact hbo ▸ hold b (hkey ▸ hb)
      · exact hold d hd

theorem kept_iff_fine (h : t.Functional) : c.Kept fail t ↔ c.Fine fail t := by
  have hotypes := (h.chains c.key).otypes
  cases hpresent : filetransPresent c.bit c.otype (t.chain c.key) with
  | some present =>
    have hrun : policydbFiletransInsert fail t c = (.error (.eexist present), t) := by
      simp [policydbFiletransInsert, hpresent]
    refine iff_of_true ⟨by rw [hrun]; exact h, fun _ => by simp [hrun]⟩ (.inl ?_)
    by_contra hno
    have hnone := filetransPresent_eq_none.mpr fun d hd hx => hno ⟨d, hd, hx⟩
    rw [hpresent] at hnone
    cases hnone
  | none =>
    have hupto := filetransPresent_eq_none.mp hpresent
    -- a source that is found anyway has another result
    have hother : ∀ d ∈ t.chain c.key, c.bit ∈ d.stypes → d.otype ≠ c.otype := fun d hd hx ho =>
      hupto d (mem_uptoOtype hd ho hotypes) hx
    by_cases hmemory : c.outOfMemory fail (t.chain c.key) = true
    · have hrun : policydbFiletransInsert fail t c = (.error .enomem, t) := by
        simp [policydbFiletransInsert, hpresent, hmemory]
      refine iff_of_true ⟨by rw [hrun]; exact h, fun hconflict => ?_⟩ (.inr (.inl hmemory))
      obtain ⟨d, hd, hx, -⟩ := hconflict
      have hall : ∀ d ∈ t.chain c.key, d.otype ≠ c.otype := by
        simp only [FiletransCall.outOfMemory, Bool.and_eq_true, all_eq_true, bne_iff_ne] at hmemory
        exact hmemory.1
      rw [uptoOtype_of_all hall] at hupto
      exact absurd hx (hupto d hd)
    · have hrun : policydbFiletransInsert fail t c =
          ((c.setBit fail ∅).map fun _ => (), c.stored fail t) := by
        simp [policydbFiletransInsert, hpresent, hmemory, FiletransCall.stored]
      by_cases hfree : ∀ d ∈ t.chain c.key, c.bit ∉ d.stypes
      · have hfine : c.Fine fail t ↔ c.Stored fail ∧ c.otype < ebitmapLimit ∧
          t.count + 1 < 2 ^ 32 := by
          unfold FiletransCall.Fine FiletransCall.Stored
          constructor
          · rintro (⟨d, hd, hx⟩ | hmem | ⟨-, hbit, hotype, hbit', hroom⟩)
            · exact absurd hx (hupto d hd)
            · exact absurd hmem hmemory
            · exact ⟨⟨hbit, hbit'⟩, hotype, hroom⟩
          · rintro ⟨⟨hbit, hbit'⟩, hotype, hroom⟩
            exact .inr (.inr ⟨hfree, hbit, hotype, hbit', hroom⟩)
        rw [hfine, ← stored_functional_iff h hfree]
        refine ⟨fun hkept => by simpa only [hrun] using hkept.functional, fun hfun =>
          ⟨by rw [hrun]; exact hfun, ?_⟩⟩
        rintro ⟨d, hd, hx, -⟩
        exact absurd hx (hfree d hd)
      · obtain ⟨d, hd, hx⟩ : ∃ d ∈ t.chain c.key, c.bit ∈ d.stypes := by
          simpa using hfree
        refine iff_of_false (fun hkept => ?_) ?_
        · obtain ⟨⟨present, heexist⟩, -⟩ := hkept.refused ⟨d, hd, hx, hother d hd hx⟩
          rw [hrun] at heexist
          unfold FiletransCall.setBit at heexist
          split at heexist
          · cases heexist
          · split_ifs at heexist
            · cases heexist
            · cases heexist
        · rintro (⟨d, hd, hx⟩ | hmem | ⟨hall, -⟩)
          · exact hupto d hd hx
          · exact hmemory hmem
          · exact hfree hall

end Call

/-! ## Runs -/

/-- The tables that calls which are all fine lead to from the empty table. -/
inductive FilenameTrans.Reached : FilenameTrans → Prop
  | empty : Reached .empty
  | insert {t : FilenameTrans} {fail : FiletransAlloc → Bool} {c : FiletransCall} (h : Reached t)
    (fine : c.Fine fail t) : Reached (policydbFiletransInsert fail t c).2

/-- The result types that the table has for a source. -/
def FilenameTrans.results (t : FilenameTrans) (key : FilenameTransKey) (x : Nat) : List Nat :=
  ((t.chain key).filter fun d => ebitmapGetBit d.stypes x).map FilenameTransDatum.otype

theorem ChainFunctional.results_le_one {chain : List FilenameTransDatum} (h : ChainFunctional chain)
    (x : Nat) : (chain.filter fun d => ebitmapGetBit d.stypes x).length ≤ 1 := by
  have hpair := h.sources
  induction chain with
  | nil => simp
  | cons d chain ih =>
    obtain ⟨hfirst, hrest⟩ := pairwise_cons.mp hpair
    have htail : ChainFunctional chain := ⟨(nodup_cons.mp h.otypes).2, hrest⟩
    by_cases hx : x ∈ d.stypes
    · have hrest : chain.filter (ebitmapGetBit ·.stypes x) = [] := filter_eq_nil_iff.mpr
        fun a ha hget => hfirst a ha x hx (ebitmapGetBit_eq_true.mp hget)
      simp [hx, hrest]
    · simpa [hx] using ih htail hrest

/-- In every run whose calls are all fine, the table stays a function: the chain of a key has
distinct result types and disjoint source sets, a source has at most one result, the counter
counts the pairs and the reader's check accepts the table. From each table reached, a call
keeps this and refuses a second result exactly if it is fine. -/
theorem policydbFiletransInsert_functional {t : FilenameTrans} (h : t.Reached) :
    t.Functional ∧ (∀ key x, (t.results key x).length ≤ 1) ∧
      ∀ fail c, FiletransCall.Kept fail t c ↔ FiletransCall.Fine fail t c := by
  have hfun : t.Functional := by
    induction h with
    | empty => exact FilenameTrans.functional_empty
    | insert _ fine ih => exact ((kept_iff_fine ih).mpr fine).functional
  refine ⟨hfun, fun key x => ?_, fun fail c => kept_iff_fine hfun⟩
  rw [FilenameTrans.results, length_map]
  exact (hfun.chains key).results_le_one x

/-- A call on the key (1, 1, "f"). -/
def filetransCall (stype otype : Nat) : FiletransCall :=
  { stype, ttype := 1, tclass := 1, name := "f".toList, otype }

/-- The table with the results 10 for the source 1 and 20 for the source 2. -/
def twoResults : FilenameTrans :=
  (policydbFiletransInsert (fun _ => false)
    (policydbFiletransInsert (fun _ => false) .empty (filetransCall 1 10)).2 (filetransCall 2 20)).2

/-- The result 10 for the source 2 is inserted without an error, since the datum of the result
10 is met before the one that has the source. -/
theorem policydbFiletransInsert_second_result : twoResults.Reached ∧
    twoResults.Conflicts (filetransCall 2 10) ∧
    (policydbFiletransInsert (fun _ => false) twoResults (filetransCall 2 10)).1.isOk = true ∧
    (policydbFiletransInsert (fun _ => false) twoResults (filetransCall 2 10)).2.results
      (filetransCall 2 10).key 1 = [10, 20] ∧
    filenameTransCheckDatum ((policydbFiletransInsert (fun _ => false) twoResults
      (filetransCall 2 10)).2.chain (filetransCall 2 10).key) = false := by
  refine ⟨.insert (.insert .empty ?_) ?_, ?_, by decide, by decide, by decide⟩
  · exact .inr (.inr ⟨by decide, by decide, by decide, rfl, by decide⟩)
  · exact .inr (.inr ⟨by decide, by decide, by decide, rfl, by decide⟩)
  · exact ⟨{ stypes := .ofList [1], otype := 20 }, by decide, by decide, by decide⟩

theorem policydbFiletransInsert_functional_twoResults :
    twoResults.count = 2 ∧ twoResults.Functional ∧
      FiletransCall.Kept (fun _ => false) twoResults (filetransCall 1 20) := by
  have hreached : twoResults.Reached :=
    .insert (.insert .empty (.inr (.inr ⟨by decide, by decide, by decide, rfl, by decide⟩)))
      (.inr (.inr ⟨by decide, by decide, by decide, rfl, by decide⟩))
  obtain ⟨hfun, -, hkept⟩ := policydbFiletransInsert_functional hreached
  exact ⟨by decide, hfun, (hkept _ _).mpr
    (.inl ⟨{ stypes := .ofList [0], otype := 10 }, by decide, by decide⟩)⟩

end SELinux.Sepol
