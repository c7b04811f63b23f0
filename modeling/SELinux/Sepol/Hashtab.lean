import SELinux.Lib.CString
import SELinux.Lib.CmpChain

/-! Hash tables (`hashtab.c`, `symtab.c`) with chains that ascend by `keycmp`, and which are made
larger when there are more entries than chains. A table stands for a finite map whose keys are told
apart by `keycmp`. The number of a chain is an `unsigned int` for the hash function and for the
resizing, but an `int` for everything else. -/
namespace SELinux.Sepol

open List Option Function

variable {κ δ : Type}

/-! ## Model -/

/-- The functions of a table. `hash_value` is given the table for its size only. -/
structure HashOps (κ : Type) where
  hashValue : Nat → κ → Nat
  keycmp : κ → κ → Int

/-- `hashtab_val_t`; the chains are what `htable` has at the numbers below `size`. -/
structure Hashtab (κ δ : Type) where
  size : Nat
  nel : Nat
  htable : Nat → List (κ × δ)

def hashtabCreate (size : Nat) : Hashtab κ δ := { size, nel := 0, htable := fun _ => [] }

def chainElements (size : Nat) (htable : Nat → List (κ × δ)) : List (κ × δ) :=
  (range size).flatMap htable

/-- The elements, chain by chain. -/
def Hashtab.elements (h : Hashtab κ δ) : List (κ × δ) := chainElements h.size h.htable

def sepolOk : Int := 0
def sepolEnoent : Int := -2
def sepolEnomem : Int := -12
def sepolEexist : Int := -17

/-- `while (new_size <= h->nel && new_size * 2 != 0) new_size *= 2`, in 32 bits. -/
def growSize (nel : Nat) : Nat → Nat → Nat
  | 0, newSize => newSize
  | rounds + 1, newSize =>
    if newSize ≤ nel ∧ newSize * 2 % 2 ^ 32 ≠ 0 then growSize nel rounds (newSize * 2 % 2 ^ 32)
      else newSize

section Model

variable (ops : HashOps κ)

/-- An element takes its place in a chain. -/
def placeElement (size : Nat) (htable : Nat → List (κ × δ)) (cur : κ × δ) : Nat → List (κ × δ) :=
  let hvalue := ops.hashValue size cur.1
  let dst := Lib.cmpWalk ops.keycmp cur.1 (htable hvalue)
  update htable hvalue (dst.1 ++ cur :: dst.2)

/-- `hashtab_check_resize`. Without memory for a new table the old one stays. -/
def hashtabCheckResize (mem : Bool) (h : Hashtab κ δ) : Hashtab κ δ :=
  let newSize := growSize h.nel 32 h.size
  if h.size = newSize ∨ mem = false then h
  else
    { h with
      size := newSize
      htable := h.elements.foldl (placeElement ops newSize) fun _ => [] }

/-- The index `int hvalue`. A value from `2 ^ 31` on becomes negative, and there is no such
chain. -/
def chainIndex (h : Hashtab κ δ) (key : κ) : Option Nat :=
  if ops.hashValue h.size key < 2 ^ 31 then some (ops.hashValue h.size key) else none

def hashtabInsert (resizeMem nodeMem : Bool) (h : Hashtab κ δ) (key : κ) (datum : δ) :
    Option (Int × Hashtab κ δ) :=
  let h := hashtabCheckResize ops resizeMem h
  (chainIndex ops h key).map fun hvalue =>
    let cur := (Lib.cmpWalk ops.keycmp key (h.htable hvalue)).2
    if cur.head?.any fun e => ops.keycmp key e.1 == 0 then (sepolEexist, h)
    else if nodeMem = false then (sepolEnomem, h)
    else
      (sepolOk,
        { h with
          nel := (h.nel + 1) % 2 ^ 32
          htable := placeElement ops h.size h.htable (key, datum) })

def hashtabRemove (h : Hashtab κ δ) (key : κ) : Option (Int × Hashtab κ δ) :=
  (chainIndex ops h key).map fun hvalue =>
    let walk := Lib.cmpWalk ops.keycmp key (h.htable hvalue)
    match walk.2 with
    | [] => (sepolEnoent, h)
    | cur :: next =>
      if ops.keycmp key cur.1 ≠ 0 then (sepolEnoent, h)
      else
        (sepolOk,
          { h with
            nel := if h.nel = 0 then 2 ^ 32 - 1 else h.nel - 1
            htable := update h.htable hvalue (walk.1 ++ next) })

def hashtabSearch (h : Hashtab κ δ) (key : κ) : Option (Option δ) :=
  (chainIndex ops h key).map fun hvalue =>
    let cur := (Lib.cmpWalk ops.keycmp key (h.htable hvalue)).2
    (cur.head?.filter fun e => ops.keycmp key e.1 == 0).map Prod.snd

/-- The calls of `apply` up to the first that does not return 0, and what is returned. Through
`args` a call knows of the calls before it. -/
def mapLoop (apply : List (κ × δ) → κ → δ → Int) (calls : List (κ × δ)) :
    List (κ × δ) → List (κ × δ) × Int
  | [] => (calls, sepolOk)
  | cur :: next =>
    let ret := apply calls cur.1 cur.2
    if ret ≠ 0 then (calls ++ [cur], ret) else mapLoop apply (calls ++ [cur]) next

def hashtabMap (apply : List (κ × δ) → κ → δ → Int) (h : Hashtab κ δ) : List (κ × δ) × Int :=
  mapLoop apply [] h.elements

/-- A call, with the memory that an insertion can have. -/
inductive HashtabCall (κ δ : Type) where
  | insert (key : κ) (datum : δ) (resizeMem nodeMem : Bool)
  | remove (key : κ)
  | search (key : κ)
  | map (apply : List (κ × δ) → κ → δ → Int)

inductive HashtabResult (κ δ : Type) where
  | code (rc : Int)
  | datum (d : Option δ)
  | mapped (calls : List (κ × δ)) (rc : Int)
  deriving DecidableEq

/-- One call; `none` if it reads outside of the table. -/
def hashtabStep (h : Hashtab κ δ) : HashtabCall κ δ → Option (HashtabResult κ δ × Hashtab κ δ)
  | .insert key datum resizeMem nodeMem =>
    (hashtabInsert ops resizeMem nodeMem h key datum).map fun r => (.code r.1, r.2)
  | .remove key => (hashtabRemove ops h key).map fun r => (.code r.1, r.2)
  | .search key => (hashtabSearch ops h key).map fun d => (.datum d, h)
  | .map apply => some (.mapped (hashtabMap apply h).1 (hashtabMap apply h).2, h)

/-! ## Finite maps -/

/-- The map has an entry for the key. -/
def HasKey (m : List (κ × δ)) (key : κ) : Prop := ∃ e ∈ m, ops.keycmp key e.1 = 0

instance (m : List (κ × δ)) (key : κ) : Decidable (HasKey ops m key) :=
  inferInstanceAs (Decidable (∃ e ∈ m, _))

/-- What a call does to a finite map, which is given by its entries in any order. -/
def MapStep (m : List (κ × δ)) : HashtabCall κ δ → HashtabResult κ δ → List (κ × δ) → Prop
  | .insert key datum _ nodeMem, r, m' =>
    if HasKey ops m key then r = .code sepolEexist ∧ m' = m
    else if nodeMem = false then r = .code sepolEnomem ∧ m' = m
    else r = .code sepolOk ∧ m' = (key, datum) :: m
  | .remove key, r, m' =>
    if HasKey ops m key then r = .code sepolOk ∧ m' = m.filter fun e => ops.keycmp key e.1 != 0
    else r = .code sepolEnoent ∧ m' = m
  | .search key, r, m' => r = .datum ((m.find? fun e => ops.keycmp key e.1 == 0).map Prod.snd) ∧
    m' = m
  | .map apply, r, m' =>
    (∃ l, l.Perm m ∧ r = .mapped (mapLoop apply [] l).1 (mapLoop apply [] l).2) ∧ m' = m

/-- The results of some calls are those of a finite map, and `nel` is its size all along. -/
def Agrees (h : Hashtab κ δ) (m : List (κ × δ)) : List (HashtabCall κ δ) → Prop
  | [] => h.nel = m.length
  | call :: calls =>
    h.nel = m.length ∧ ∃ r h' m', hashtabStep ops h call = some (r, h') ∧ MapStep ops m call r m' ∧
      Agrees h' m' calls

/-- `hash_value` fits the order and gives a chain of the table. -/
structure HashOps.Lawful : Prop where
  order : Lib.TotalCmp ops.keycmp
  consistent : ∀ size a b, ops.keycmp a b = 0 → ops.hashValue size a = ops.hashValue size b
  below : ∀ size, 0 < size → size < 2 ^ 32 → ∀ key, ops.hashValue size key < size

end Model

/-! ## The size -/

variable {size k : Nat} {l : List (κ × δ)} {key : κ} {call : HashtabCall κ δ}

theorem growSize_bounds (nel rounds : Nat) (hpos : 0 < size) (hlt : size < 2 ^ 32) :
    0 < growSize nel rounds size ∧ growSize nel rounds size < 2 ^ 32 := by
  induction rounds generalizing size with
  | zero => exact ⟨hpos, hlt⟩
  | succ rounds ih =>
    rw [growSize]
    split_ifs with hgrow
    · exact ih (Nat.pos_of_ne_zero hgrow.2) (Nat.mod_lt _ (by decide))
    · exact ⟨hpos, hlt⟩

/-- A power of two is made a power of two. -/
theorem growSize_pow (nel rounds : Nat) (hk : k ≤ 31) :
    ∃ k' ≤ 31, growSize nel rounds (2 ^ k) = 2 ^ k' := by
  induction rounds generalizing k with
  | zero => exact ⟨k, hk, rfl⟩
  | succ rounds ih =>
    rw [growSize]
    split_ifs with hgrow
    · have hk' : k ≠ 31 := by
        rintro rfl
        exact hgrow.2 rfl
      have hdouble : 2 ^ k * 2 % 2 ^ 32 = 2 ^ (k + 1) := by
        rw [← Nat.pow_succ]
        exact Nat.mod_eq_of_lt (Nat.pow_lt_pow_right (by decide) (by omega))
      rw [hdouble]
      exact ih (by omega)
    · exact ⟨k, hk, rfl⟩

/-! ## Chains -/

/-- The entries of a map are told apart by their keys. -/
def Distinct (ops : HashOps κ) (m : List (κ × δ)) : Prop := m.Pairwise fun a b =>
    ops.keycmp a.1 b.1 ≠ 0

/-- Every chain ascends and has the elements whose hash value is its number. -/
structure Chains (ops : HashOps κ) (size : Nat) (htable : Nat → List (κ × δ)) : Prop where
  size_pos : 0 < size
  size_lt : size < 2 ^ 32
  placed : ∀ i, ∀ e ∈ htable i, ops.hashValue size e.1 = i
  ascending : ∀ i, Lib.CmpAscending ops.keycmp (htable i)

section Chains

variable {ops : HashOps κ} (hops : ops.Lawful) {htable : Nat → List (κ × δ)}

theorem Chains.empty (ops : HashOps κ) (hpos : 0 < size) (hlt : size < 2 ^ 32) :
    Chains ops size fun _ => ([] : List (κ × δ)) :=
  ⟨hpos, hlt, fun _ _ he => absurd he not_mem_nil, fun _ => .nil⟩

theorem Chains.update (h : Chains ops size htable) {i c}
    (hplaced : ∀ e ∈ c, ops.hashValue size e.1 = i) (hascending : Lib.CmpAscending ops.keycmp c) :
    Chains ops size (update htable i c) := by
  refine ⟨h.size_pos, h.size_lt, fun j e he => ?_, fun j => ?_⟩
  · by_cases hj : j = i
    · subst hj
      rw [update_self] at he
      exact hplaced e he
    · rw [update_of_ne hj] at he
      exact h.placed j e he
  · by_cases hj : j = i
    · subst hj
      rwa [update_self]
    · rw [update_of_ne hj]
      exact h.ascending j

include hops

variable (h : Chains ops size htable)
include h

theorem mem_range_hashValue (key : κ) : ops.hashValue size key ∈ range size :=
  mem_range.mpr (hops.below size h.size_pos h.size_lt key)

/-- An element with a given key is in the chain of the key. -/
theorem mem_chainElements {key e} (heq : ops.keycmp key e.1 = 0) :
    e ∈ chainElements size htable ↔ e ∈ htable (ops.hashValue size key) := by
  rw [hops.consistent size key e.1 heq, chainElements, mem_flatMap]
  constructor
  · rintro ⟨i, -, he⟩
    rwa [h.placed i e he]
  · intro he
    exact ⟨_, mem_range_hashValue hops h e.1, he⟩

theorem Chains.distinct : Distinct ops (chainElements size htable) := by
  rw [Distinct, chainElements, pairwise_flatMap]
  refine ⟨fun i _ => (h.ascending i).imp fun hlt => hlt.ne, ?_⟩
  refine nodup_range.imp fun {i j} hij a ha b hb heq => hij ?_
  rw [← h.placed i a ha, ← h.placed j b hb, hops.consistent size a.1 b.1 heq]

/-- The walk for a key finds out whether the table has it. -/
theorem walk_any_iff (key : κ) :
    ((Lib.cmpWalk ops.keycmp key (htable (ops.hashValue size key))).2.head?.any
        fun e => ops.keycmp key e.1 == 0) = true ↔ HasKey ops (chainElements size htable) key := by
  have hfind := Lib.cmpWalk_find hops.order (h.ascending (ops.hashValue size key)) (k := key)
  have hany : ∀ o : Option (κ × δ), (o.any fun e => ops.keycmp key e.1 == 0) =
      (o.filter fun e => ops.keycmp key e.1 == 0).isSome := by
    intro o
    cases o <;> simp
  rw [hany, hfind, find?_isSome, HasKey]
  constructor
  · rintro ⟨e, he, heq⟩
    exact ⟨e, (mem_chainElements hops h (beq_iff_eq.mp heq)).mpr he, beq_iff_eq.mp heq⟩
  · rintro ⟨e, he, heq⟩
    exact ⟨e, (mem_chainElements hops h heq).mp he, beq_iff_eq.mpr heq⟩

theorem Chains.place {e : κ × δ} (hnew : ¬ HasKey ops (chainElements size htable) e.1) :
    Chains ops size (placeElement ops size htable e) ∧
      (chainElements size (placeElement ops size htable e)).Perm
        (e :: chainElements size htable) := by
  have hsplit := Lib.cmpWalk_append ops.keycmp e.1 (htable (ops.hashValue size e.1))
  have hperm : ((Lib.cmpWalk ops.keycmp e.1 (htable (ops.hashValue size e.1))).1 ++
      e :: (Lib.cmpWalk ops.keycmp e.1 (htable (ops.hashValue size e.1))).2).Perm
      (e :: htable (ops.hashValue size e.1)) := by
    conv_rhs => rw [← hsplit]
    exact perm_middle
  constructor
  · refine h.update (fun a ha => ?_)
      (Lib.cmpWalk_insert hops.order (h.ascending _) (fun a ha heq => ?_) e.2)
    · rcases mem_cons.mp (hperm.mem_iff.mp ha) with rfl | ha
      · rfl
      · exact h.placed _ a ha
    · exact hnew ⟨a, (mem_chainElements hops h heq).mpr ha, heq⟩
  · exact Lib.perm_flatMap_insert nodup_range (mem_range_hashValue hops h e.1) hperm

theorem Chains.remove {key e before next}
    (hwalk : Lib.cmpWalk ops.keycmp key (htable (ops.hashValue size key)) = (before, e :: next)) :
    Chains ops size (Function.update htable (ops.hashValue size key) (before ++ next)) ∧
      (chainElements size htable).Perm (e :: chainElements size
          (Function.update htable (ops.hashValue size key) (before ++ next))) := by
  have hsplit := Lib.cmpWalk_append ops.keycmp key (htable (ops.hashValue size key))
  rw [hwalk] at hsplit
  have hsub : (before ++ next).Sublist (htable (ops.hashValue size key)) := by
    simp [← hsplit]
  have hperm : (htable (ops.hashValue size key)).Perm (e :: (before ++ next)) := by
    simp [← hsplit]
  refine ⟨h.update (fun a ha => h.placed _ a (hsub.subset ha)) ((h.ascending _).sublist hsub), ?_⟩
  exact Lib.perm_flatMap_remove nodup_range (mem_range_hashValue hops h key) hperm

theorem foldl_placeElement (hdistinct : Distinct ops (l ++ chainElements size htable)) :
    Chains ops size (l.foldl (placeElement ops size) htable) ∧
      (chainElements size (l.foldl (placeElement ops size) htable)).Perm
        (l ++ chainElements size htable) := by
  induction l generalizing htable with
  | nil => exact ⟨h, List.Perm.refl _⟩
  | cons e l ih =>
    obtain ⟨hfirst, hrest⟩ := pairwise_cons.mp hdistinct
    have hnew : ¬ HasKey ops (chainElements size htable) e.1 := by
      rintro ⟨a, ha, heq⟩
      exact hfirst a (mem_append_right l ha) heq
    obtain ⟨hplaced, hperm⟩ := h.place hops hnew
    have hmoved : (l ++ chainElements size (placeElement ops size htable e)).Perm
        (e :: (l ++ chainElements size htable)) :=
      (hperm.append_left l).trans perm_middle
    have hsymm : ∀ a b : κ × δ, ops.keycmp a.1 b.1 ≠ 0 → ops.keycmp b.1 a.1 ≠ 0 :=
      fun a b hne heq => hne (hops.order.eq_comm heq)
    obtain ⟨hchains, hall⟩ := ih hplaced ((hmoved.pairwise_iff (hsymm _ _)).mpr hdistinct)
    exact ⟨hchains, hall.trans hmoved⟩

end Chains

/-! ## Tables and maps -/

/-- A table for a finite map. -/
structure Hashtab.Represents (ops : HashOps κ) (h : Hashtab κ δ) (m : List (κ × δ)) : Prop where
  chains : Chains ops h.size h.htable
  perm : h.elements.Perm m
  nel : h.nel = m.length
  nel_lt : h.nel < 2 ^ 32

theorem hashtabCreate_represents (ops : HashOps κ) (hpos : 0 < size) (hlt : size < 2 ^ 32) :
    (hashtabCreate size : Hashtab κ δ).Represents ops [] where
  chains := .empty ops hpos hlt
  perm := by simp [Hashtab.elements, chainElements, hashtabCreate]
  nel := rfl
  nel_lt := Nat.two_pow_pos 32

/-- When a call goes well: the number of its chain fits into an `int`, and a new element can be
counted. -/
def HashtabCall.Safe (ops : HashOps κ) (h : Hashtab κ δ) : HashtabCall κ δ → Prop
  | .insert key _ resizeMem nodeMem =>
    ops.hashValue (hashtabCheckResize ops resizeMem h).size key < 2 ^ 31 ∧
      (¬ HasKey ops h.elements key → nodeMem = true → h.nel + 1 < 2 ^ 32)
  | .remove key => ops.hashValue h.size key < 2 ^ 31
  | .search key => ops.hashValue h.size key < 2 ^ 31
  | .map _ => True

/-- Every call of a sequence goes well in the state that it is made in. -/
def SafeRun (ops : HashOps κ) (h : Hashtab κ δ) : List (HashtabCall κ δ) → Prop
  | [] => True
  | call :: calls =>
    call.Safe ops h ∧ ∀ r h', hashtabStep ops h call = some (r, h') → SafeRun ops h' calls

section Represents

variable {ops : HashOps κ} {h h' : Hashtab κ δ} {m m' : List (κ × δ)}

theorem hasKey_perm (ops : HashOps κ) (hperm : l.Perm m) (key : κ) :
    HasKey ops l key ↔ HasKey ops m key :=
  exists_congr fun _ => and_congr_left fun _ => hperm.mem_iff

theorem Distinct.perm (hops : ops.Lawful) (hperm : l.Perm m) (hl : Distinct ops l) :
    Distinct ops m := by
  have hsymm : ∀ a b : κ × δ, ops.keycmp a.1 b.1 ≠ 0 → ops.keycmp b.1 a.1 ≠ 0 :=
    fun a b hne heq => hne (hops.order.eq_comm heq)
  exact (hperm.pairwise_iff (hsymm _ _)).mp hl

theorem Distinct.find_eq_some (hops : ops.Lawful) (hm : Distinct ops m) {key e} :
    (m.find? fun e => ops.keycmp key e.1 == 0) = some e ↔ e ∈ m ∧ ops.keycmp key e.1 = 0 := by
  constructor
  · intro hfind
    have heq := find?_some hfind
    exact ⟨mem_of_find?_eq_some hfind, beq_iff_eq.mp heq⟩
  · rintro ⟨he, heq⟩
    induction m with
    | nil => cases he
    | cons a m ih =>
      obtain ⟨hfirst, hrest⟩ := pairwise_cons.mp hm
      rw [find?_cons]
      rcases mem_cons.mp he with rfl | he
      · simp [heq]
      · have ha : ¬ ops.keycmp key a.1 = 0 := fun ha =>
          hfirst e he (hops.order.eq_trans (hops.order.eq_comm ha) heq)
        rw [beq_false_of_ne ha]
        exact ih hrest he

theorem Distinct.find_perm (hops : ops.Lawful) (hperm : l.Perm m) (hl : Distinct ops l) (key : κ) :
    (l.find? fun e => ops.keycmp key e.1 == 0) = m.find? fun e => ops.keycmp key e.1 == 0 := by
  ext e
  rw [hl.find_eq_some hops, (hl.perm hops hperm).find_eq_some hops, hperm.mem_iff]

theorem hashtabCheckResize_nel (ops : HashOps κ) (mem : Bool) (h : Hashtab κ δ) :
    (hashtabCheckResize ops mem h).nel = h.nel := by
  rw [hashtabCheckResize]
  split_ifs <;> rfl

/-- A table of another size is for the same map. -/
theorem Hashtab.Represents.resize (hops : ops.Lawful) (hrep : h.Represents ops m) (mem : Bool) :
    (hashtabCheckResize ops mem h).Represents ops m := by
  rw [hashtabCheckResize]
  split_ifs
  · exact hrep
  · obtain ⟨hpos, hlt⟩ := growSize_bounds h.nel 32 hrep.chains.size_pos hrep.chains.size_lt
    have hempty : chainElements (growSize h.nel 32 h.size) (fun _ => ([] : List (κ × δ))) = [] := by
      simp [chainElements]
    obtain ⟨hchains, hperm⟩ := foldl_placeElement hops (l := h.elements) (.empty ops hpos hlt)
      (by rw [hempty, append_nil]; exact hrep.chains.distinct hops)
    rw [hempty, append_nil] at hperm
    exact ⟨hchains, hperm.trans hrep.perm, hrep.nel, hrep.nel_lt⟩

theorem chainIndex_eq_some {key i} :
    chainIndex ops h key = some i ↔ ops.hashValue h.size key < 2 ^ 31 ∧
      ops.hashValue h.size key = i := by
  simp [chainIndex]

/-! ### One call -/

theorem Distinct.filter_perm (hops : ops.Lawful) {e} (hm : Distinct ops m)
    (hperm : m.Perm (e :: l)) {key} (heq : ops.keycmp key e.1 = 0) :
    l.Perm (m.filter fun a => ops.keycmp key a.1 != 0) := by
  have hdistinct := hm.perm hops hperm
  have hothers : ∀ a ∈ l, (ops.keycmp key a.1 != 0) = true := by
    intro a ha
    rw [bne_iff_ne]
    exact fun ha' =>
      (pairwise_cons.mp hdistinct).1 a ha (hops.order.eq_trans (hops.order.eq_comm heq) ha')
  have hfilter := hperm.filter fun a => ops.keycmp key a.1 != 0
  rw [filter_cons_of_neg (by simp [heq]), filter_eq_self.mpr hothers] at hfilter
  exact hfilter.symm

section Step

variable (hops : ops.Lawful) (hrep : h.Represents ops m)
include hops hrep

theorem insert_step {key datum resizeMem nodeMem}
    (hsafe : (HashtabCall.insert key datum resizeMem nodeMem).Safe ops h) :
    ∃ r h' m', hashtabStep ops h (.insert key datum resizeMem nodeMem) = some (r, h') ∧
      MapStep ops m (.insert key datum resizeMem nodeMem) r m' ∧ h'.Represents ops m' := by
  have hresized := hrep.resize hops resizeMem
  have hnel := hashtabCheckResize_nel ops resizeMem h
  have hkey := walk_any_iff hops hresized.chains key
  have hperm := hasKey_perm ops hresized.perm key
  rw [← hasKey_perm ops hrep.perm] at hperm
  obtain ⟨hint, hcount⟩ := hsafe
  simp only [hashtabStep, hashtabInsert, chainIndex_eq_some.mpr ⟨hint, rfl⟩, map_some, MapStep,
    ← hasKey_perm ops hrep.perm]
  generalize hashtabCheckResize ops resizeMem h = g at *
  by_cases hhas : HasKey ops h.elements key
  · rw [if_pos (hkey.mpr (hperm.mpr hhas))]
    exact ⟨_, _, m, rfl, by simp [hhas], hresized⟩
  · have hnew : ¬ HasKey ops (chainElements g.size g.htable) key := fun hg => hhas (hperm.mp hg)
    rw [if_neg fun hany => hnew (hkey.mp hany)]
    cases nodeMem with
    | false => exact ⟨_, _, m, rfl, by simp [hhas], hresized⟩
    | true =>
      have hlt := hcount hhas rfl
      obtain ⟨hchains, hplaced⟩ := hresized.chains.place hops (e := (key, datum)) hnew
      refine ⟨_, _, (key, datum) :: m, rfl, by simp [hhas], hchains,
        hplaced.trans (hresized.perm.cons _), ?_,
        Nat.mod_lt _ (by decide)⟩
      show (g.nel + 1) % 2 ^ 32 = m.length + 1
      rw [hnel, Nat.mod_eq_of_lt hlt, hrep.nel]

theorem remove_step (hsafe : (HashtabCall.remove key : HashtabCall κ δ).Safe ops h) :
    ∃ r h' m', hashtabStep ops h (.remove key) = some (r, h') ∧ MapStep ops m (.remove key) r m' ∧
      h'.Represents ops m' := by
  have hkey := walk_any_iff hops hrep.chains key
  have hperm := hasKey_perm ops hrep.perm key
  simp only [hashtabStep, hashtabRemove, chainIndex_eq_some.mpr ⟨hsafe, rfl⟩, map_some, MapStep]
  cases hwalk : Lib.cmpWalk ops.keycmp key (h.htable (ops.hashValue h.size key)) with
  | mk before rest =>
    rw [hwalk] at hkey
    cases rest with
    | nil =>
      have hnot : ¬ HasKey ops m key := fun hm => by simpa using hkey.mpr (hperm.mpr hm)
      exact ⟨_, _, m, rfl, by simp [hnot], hrep⟩
    | cons e next =>
      dsimp only
      by_cases heq : ops.keycmp key e.1 = 0
      · have hhas : HasKey ops m key := hperm.mp (hkey.mp (by simp [heq]))
        obtain ⟨hchains, hremoved⟩ := hrep.chains.remove hops hwalk
        have hremoved := hrep.perm.symm.trans hremoved
        have hdistinct := (hrep.chains.distinct hops).perm hops hrep.perm
        have hfiltered := hdistinct.filter_perm hops hremoved heq
        have hlength := hremoved.length_eq
        rw [length_cons, hfiltered.length_eq, ← hrep.nel] at hlength
        have hlt := hrep.nel_lt
        rw [if_neg (not_not.mpr heq), if_neg (show ¬ h.nel = 0 by omega)]
        refine ⟨_, _, _, rfl, by rw [if_pos hhas]; exact ⟨rfl, rfl⟩, hchains, hfiltered, ?_, ?_⟩
        · show h.nel - 1 = _
          omega
        · show h.nel - 1 < 2 ^ 32
          omega
      · have hnot : ¬ HasKey ops m key := fun hm => by simpa [heq] using hkey.mpr (hperm.mpr hm)
        simp [hrep, heq, hnot]

theorem search_step (hsafe : (HashtabCall.search key : HashtabCall κ δ).Safe ops h) :
    ∃ r h' m', hashtabStep ops h (.search key) = some (r, h') ∧ MapStep ops m (.search key) r m' ∧
      h'.Represents ops m' := by
  have hdistinct : Distinct ops h.elements := hrep.chains.distinct hops
  have hchain : ((h.htable (ops.hashValue h.size key)).find? fun e => ops.keycmp key e.1 == 0) =
      h.elements.find? fun e => ops.keycmp key e.1 == 0 := by
    have hascending : Distinct ops (h.htable (ops.hashValue h.size key)) :=
      (hrep.chains.ascending _).imp fun hlt => hlt.ne
    ext e
    rw [hascending.find_eq_some hops, hdistinct.find_eq_some hops]
    exact and_congr_left fun heq => (mem_chainElements hops hrep.chains heq).symm
  simp only [hashtabStep, hashtabSearch, chainIndex_eq_some.mpr ⟨hsafe, rfl⟩, map_some, MapStep]
  rw [Lib.cmpWalk_find hops.order (hrep.chains.ascending _), hchain,
    hdistinct.find_perm hops hrep.perm]
  exact ⟨_, _, m, rfl, ⟨rfl, rfl⟩, hrep⟩

/-- A call that goes well does what it does to the map. -/
theorem hashtabStep_safe (hsafe : call.Safe ops h) :
    ∃ r h' m', hashtabStep ops h call = some (r, h') ∧ MapStep ops m call r m' ∧
      h'.Represents ops m' := by
  cases call with
  | insert key datum resizeMem nodeMem => exact insert_step hops hrep hsafe
  | remove key => exact remove_step hops hrep hsafe
  | search key => exact search_step hops hrep hsafe
  | map apply => exact ⟨_, _, m, rfl, ⟨⟨h.elements, hrep.perm, rfl⟩, rfl⟩, hrep⟩

theorem safe_of_hashtabStep {r} (hstep : hashtabStep ops h call = some (r, h'))
    (hmap : MapStep ops m call r m') (hnel : h'.nel = m'.length) : call.Safe ops h := by
  cases call with
  | insert key datum resizeMem nodeMem =>
    simp only [hashtabStep, hashtabInsert, Option.map_map, map_eq_some_iff,
      chainIndex_eq_some] at hstep
    obtain ⟨hvalue, ⟨hint, rfl⟩, hstep⟩ := hstep
    refine ⟨hint, fun hnew hmem => ?_⟩
    have hresized := hrep.resize hops resizeMem
    have hnot : ¬ HasKey ops m key := fun hm => hnew ((hasKey_perm ops hrep.perm key).mpr hm)
    have hany := mt (walk_any_iff hops hresized.chains key).mp fun hg =>
      hnot ((hasKey_perm ops hresized.perm key).mp hg)
    simp only [comp_apply, if_neg hany, hmem, Bool.true_eq_false, if_false, Prod.mk.injEq] at hstep
    simp only [MapStep, if_neg hnot, hmem, Bool.true_eq_false, if_false] at hmap
    rw [← hstep.2, hmap.2, length_cons, ← hrep.nel] at hnel
    simp only [hashtabCheckResize_nel] at hnel
    omega
  | remove key =>
    simp only [hashtabStep, hashtabRemove, Option.map_map, map_eq_some_iff,
      chainIndex_eq_some] at hstep
    obtain ⟨hvalue, ⟨hint, -⟩, -⟩ := hstep
    exact hint
  | search key =>
    simp only [hashtabStep, hashtabSearch, Option.map_map, map_eq_some_iff,
      chainIndex_eq_some] at hstep
    obtain ⟨hvalue, ⟨hint, -⟩, -⟩ := hstep
    exact hint
  | map apply => trivial

theorem agrees_of_safeRun {calls : List (HashtabCall κ δ)} (hsafe : SafeRun ops h calls) :
    Agrees ops h m calls := by
  induction calls generalizing h m with
  | nil => exact hrep.nel
  | cons call calls ih =>
    obtain ⟨r, h', m', hstep, hmap, hrep'⟩ := hashtabStep_safe hops hrep hsafe.1
    exact ⟨hrep.nel, r, h', m', hstep, hmap, ih hrep' (hsafe.2 r h' hstep)⟩

end Step

/-- The map after a call is determined. -/
theorem MapStep.unique {call r r' m' m''} (h' : MapStep ops m call r m')
    (h'' : MapStep ops m call r' m'') : m' = m'' := by
  cases call with
  | insert key datum resizeMem nodeMem =>
    simp only [MapStep] at h' h''
    split_ifs at h' h'' <;> exact h'.2.trans h''.2.symm
  | remove key =>
    simp only [MapStep] at h' h''
    split_ifs at h' h'' <;> exact h'.2.trans h''.2.symm
  | search key => exact h'.2.trans h''.2.symm
  | map apply => exact h'.2.trans h''.2.symm

/-! ### Runs -/

/-- A table agrees with its map over any sequence of calls, if and only if every call of the
sequence goes well. -/
theorem agrees_iff_safeRun (hops : ops.Lawful) (hrep : h.Represents ops m)
    (calls : List (HashtabCall κ δ)) : Agrees ops h m calls ↔ SafeRun ops h calls := by
  induction calls generalizing h m with
  | nil => exact iff_of_true hrep.nel trivial
  | cons call calls ih =>
    constructor
    · rintro ⟨-, r, h', m', hstep, hmap, hrest⟩
      have hnel : h'.nel = m'.length := by
        cases calls with
        | nil => exact hrest
        | cons => exact hrest.1
      have hsafe := safe_of_hashtabStep hops hrep hstep hmap hnel
      obtain ⟨r2, h2, m2, hstep2, hmap2, hrep2⟩ := hashtabStep_safe hops hrep hsafe
      refine ⟨hsafe, fun r1 h1 hstep1 => ?_⟩
      rw [hstep, some.injEq, Prod.mk.injEq] at hstep1 hstep2
      rw [← hstep2.2, ← hmap.unique hmap2] at hrep2
      rw [← hstep1.2]
      exact (ih hrep2).mp hrest
    · rintro ⟨hsafe, hrest⟩
      obtain ⟨r, h', m', hstep, hmap, hrep'⟩ := hashtabStep_safe hops hrep hsafe
      exact ⟨hrep.nel, r, h', m', hstep, hmap, (ih hrep').mpr (hrest r h' hstep)⟩

/-! ### Sizes that are powers of two -/

theorem hashtabCheckResize_size (ops : HashOps κ) (mem : Bool) (h : Hashtab κ δ) :
    (hashtabCheckResize ops mem h).size = h.size ∨
      (hashtabCheckResize ops mem h).size = growSize h.nel 32 h.size := by
  rw [hashtabCheckResize]
  split_ifs
  · exact .inl rfl
  · exact .inr rfl

theorem hashtabStep_size {call r} (hstep : hashtabStep ops h call = some (r, h')) :
    h'.size = h.size ∨ h'.size = growSize h.nel 32 h.size := by
  cases call with
  | insert key datum resizeMem nodeMem =>
    simp only [hashtabStep, hashtabInsert, Option.map_map, map_eq_some_iff] at hstep
    obtain ⟨hvalue, -, hstep⟩ := hstep
    have hsize : h'.size = (hashtabCheckResize ops resizeMem h).size := by
      refine (congrArg (fun p => p.2.size) hstep).symm.trans ?_
      dsimp only [comp_apply]
      split_ifs <;> rfl
    rw [hsize]
    exact hashtabCheckResize_size ops resizeMem h
  | remove key =>
    simp only [hashtabStep, hashtabRemove, Option.map_map, map_eq_some_iff] at hstep
    obtain ⟨hvalue, -, hstep⟩ := hstep
    refine .inl ((congrArg (fun p => p.2.size) hstep).symm.trans ?_)
    dsimp only [comp_apply]
    split
    · rfl
    · split_ifs <;> rfl
  | search key =>
    simp only [hashtabStep, map_eq_some_iff] at hstep
    obtain ⟨d, -, hstep⟩ := hstep
    simp_all
  | map apply => exact .inl (congrArg Hashtab.size (congrArg Prod.snd (Option.some.inj hstep))).symm

theorem MapStep.length_le {call r} (hmap : MapStep ops m call r m') : m'.length ≤ m.length + 1 := by
  cases call with
  | insert key datum resizeMem nodeMem =>
    simp only [MapStep] at hmap
    split_ifs at hmap <;> simp [hmap.2]
  | remove key =>
    simp only [MapStep] at hmap
    split_ifs at hmap
    · rw [hmap.2]
      exact Nat.le_succ_of_le (length_filter_le ..)
    · simp [hmap.2]
  | search key => simp [hmap.2]
  | map apply => simp [hmap.2]

/-- With a size that is a power of two, no hash value is too large for an `int`. -/
theorem safeRun_of_pow (hops : ops.Lawful) (hrep : h.Represents ops m) (hk : k ≤ 31)
    (hsize : h.size = 2 ^ k)
    (calls : List (HashtabCall κ δ)) (hcount : m.length + calls.length < 2 ^ 32) :
      SafeRun ops h calls := by
  have hint : ∀ g : Hashtab κ δ, Chains ops g.size g.htable → (∃ k ≤ 31, g.size = 2 ^ k) → ∀ key,
      ops.hashValue g.size key < 2 ^ 31 := by
    rintro g hg ⟨k, hk, hsize⟩ key
    refine Nat.lt_of_lt_of_le (hops.below _ hg.size_pos hg.size_lt key) ?_
    rw [hsize]
    exact Nat.pow_le_pow_right (by decide) hk
  induction calls generalizing h m k with
  | nil => trivial
  | cons call calls ih =>
    rw [length_cons] at hcount
    have hgrown : ∀ size, size = h.size ∨ size = growSize h.nel 32 h.size →
        ∃ k ≤ 31, size = 2 ^ k := by
      rintro size (rfl | rfl)
      · exact ⟨k, hk, hsize⟩
      · rw [hsize]
        exact growSize_pow h.nel 32 hk
    have hsafe : call.Safe ops h := by
      cases call with
      | insert key datum resizeMem nodeMem =>
        refine ⟨hint _ (hrep.resize hops resizeMem).chains
          (hgrown _ (hashtabCheckResize_size ops resizeMem h)) key,
          fun _ _ => ?_⟩
        rw [hrep.nel]
        omega
      | remove key => exact hint h hrep.chains ⟨k, hk, hsize⟩ key
      | search key => exact hint h hrep.chains ⟨k, hk, hsize⟩ key
      | map apply => trivial
    refine ⟨hsafe, fun r h' hstep => ?_⟩
    obtain ⟨r2, h2, m2, hstep2, hmap, hrep2⟩ := hashtabStep_safe hops hrep hsafe
    rw [hstep, some.injEq, Prod.mk.injEq] at hstep2
    rw [← hstep2.2] at hrep2
    obtain ⟨k', hk', hsize'⟩ := hgrown _ (hashtabStep_size hstep)
    have hlength := hmap.length_le
    exact ih hrep2 hk' hsize' (by omega)

end Represents

/-! ## Symbol tables -/

/-- `symhash`; whether `char` is signed is up to the machine. -/
def symhash (extend : BitVec 8 → BitVec 32) (size : Nat) (key : Lib.CString) : Nat :=
  let val := key.bytes.foldl (fun (val : BitVec 32) p => (val <<< 4 ||| val >>> 28) ^^^ extend p) 0
  (val &&& (BitVec.ofNat 32 size - 1)).toNat

/-- `symcmp` is `strcmp`. -/
def symtabOps (extend : BitVec 8 → BitVec 32) : HashOps Lib.CString :=
  ⟨symhash extend, Lib.keyCmp id⟩

theorem symtabOps_lawful (extend : BitVec 8 → BitVec 32) : (symtabOps extend).Lawful where
  order := ⟨fun l => Lib.orders_keyCmp id l⟩
  consistent size a b heq := by
    obtain rfl : a = b := Lib.keyCmp_eq_zero.mp heq
    rfl
  below size hpos hlt key := by
    have hmask : (BitVec.ofNat 32 size - 1).toNat = size - 1 := by
      simp
      omega
    have hle : symhash extend size key ≤ size - 1 := by
      rw [← hmask, symhash, BitVec.toNat_and]
      exact Nat.and_le_right
    show symhash extend size key < size
    omega

/-- Four calls that enlarge a symbol table, empty it again by one symbol and go through the rest. -/
def symtabCalls : List (HashtabCall Lib.CString Nat) :=
  [.insert (.ofString "a") 1 true true, .insert (.ofString "b") 2 true true,
    .remove (.ofString "a"),
    .map fun _ _ _ => 0]

theorem agrees_iff_safeRun_symtab :
    (Agrees (symtabOps (BitVec.signExtend 32)) (hashtabCreate 1) [] symtabCalls ↔
      SafeRun (symtabOps (BitVec.signExtend 32)) (hashtabCreate 1) symtabCalls) ∧
    SafeRun (symtabOps (BitVec.signExtend 32)) (hashtabCreate 1) symtabCalls := by
  have hops := symtabOps_lawful (BitVec.signExtend 32)
  have hrep : (hashtabCreate 1).Represents (symtabOps (BitVec.signExtend 32))
      ([] : List (Lib.CString × Nat)) :=
    hashtabCreate_represents _ (by decide) (by decide)
  exact ⟨agrees_iff_safeRun hops hrep symtabCalls,
    safeRun_of_pow hops hrep (Nat.zero_le 31) rfl _ (by decide)⟩

/-- A symbol table is created with a power of two as its size: it agrees with its map over every
sequence of fewer than `2 ^ 32` calls, also while it grows. -/
theorem symtab_agrees (extend : BitVec 8 → BitVec 32) {k : Nat} (hk : k ≤ 31)
    {calls : List (HashtabCall Lib.CString δ)} (hcount : calls.length < 2 ^ 32) :
    Agrees (symtabOps extend) (hashtabCreate (2 ^ k)) [] calls := by
  have hops := symtabOps_lawful extend
  have hrep : (hashtabCreate (2 ^ k) : Hashtab _ δ).Represents (symtabOps extend) [] :=
    hashtabCreate_represents _ (Nat.two_pow_pos k)
      (Nat.pow_lt_pow_right (by decide) (Nat.lt_succ_of_le hk))
  exact agrees_of_safeRun hops hrep (safeRun_of_pow hops hrep hk rfl calls (by simpa using hcount))

theorem symtab_agrees_types : Agrees (symtabOps (BitVec.signExtend 32)) (hashtabCreate (2 ^ 9))
    [] symtabCalls :=
  symtab_agrees _ (by decide) (by decide)

/-- A hash function that uses the last chains of a large table. -/
def topOps : HashOps Unit := ⟨fun size _ => size - 1, fun _ _ => 0⟩

theorem topOps_lawful : topOps.Lawful where
  order := ⟨fun _ => ⟨fun _ _ _ _ => by simp [topOps], fun _ _ _ _ _ _ _ _ => by simp [topOps]⟩⟩
  consistent _ _ _ _ := rfl
  below size hpos _ _ := by
    show size - 1 < size
    omega

/-- In an empty table of `3 * 2 ^ 30` chains, the search for a key reads at a negative index. -/
theorem hashtabSearch_negative : topOps.Lawful ∧
    (hashtabCreate (3 * 2 ^ 30) : Hashtab Unit Unit).Represents topOps [] ∧
    hashtabSearch topOps (hashtabCreate (3 * 2 ^ 30) : Hashtab Unit Unit) () = none ∧
    ¬ Agrees topOps (hashtabCreate (3 * 2 ^ 30) : Hashtab Unit Unit) [] [.search ()] := by
  have hsearch : hashtabSearch topOps (hashtabCreate (3 * 2 ^ 30) : Hashtab Unit Unit)
      () = none := by
    rfl
  refine ⟨topOps_lawful, hashtabCreate_represents topOps (by omega) (by omega), hsearch, ?_⟩
  rintro ⟨-, r, h', m', hstep, -⟩
  cases hstep

end SELinux.Sepol
