import Mathlib.Algebra.GroupWithZero.Nat
import Mathlib.Data.List.Nodup
import SELinux.Lib.Scan

/-! Access vector tables (`avtab.c`): rule keys and data, the hashed chains, and
the insertion and search loops over them. A chain is the list behind its head
pointer, so a node pointer inside a chain is the suffix that starts there. -/
namespace SELinux.Sepol

open List

/-! ## Rule kinds: the bits of `avtab_key_t.specified` -/

def avtabAllowed : BitVec 16 := 0x0001
def avtabAuditallow : BitVec 16 := 0x0002
def avtabAuditdeny : BitVec 16 := 0x0004
def avtabAv : BitVec 16 := 0x0007
def avtabTransition : BitVec 16 := 0x0010
def avtabMember : BitVec 16 := 0x0020
def avtabChange : BitVec 16 := 0x0040
def avtabType : BitVec 16 := 0x0070
def avtabXpermsAllowed : BitVec 16 := 0x0100
def avtabXpermsAuditallow : BitVec 16 := 0x0200
def avtabXpermsDontaudit : BitVec 16 := 0x0400
def avtabXperms : BitVec 16 := 0x0700
/-- Reserved for the conditional table. -/
def avtabEnabled : BitVec 16 := 0x8000

/-- `spec_order`: the rule kinds a table entry can have. -/
def specOrder : List (BitVec 16) :=
  [avtabAllowed, avtabAuditdeny, avtabAuditallow, avtabTransition, avtabChange, avtabMember,
    avtabXpermsAllowed, avtabXpermsAuditallow, avtabXpermsDontaudit]

/-- `uint32_t perms[EXTENDED_PERMS_LEN]`, 256 bits of permissions: bit `x` here is
bit `x & 0x1f` of word `x >> 5`. -/
abbrev XpermBits := BitVec 256

def xpermTest (x : BitVec 8) (p : XpermBits) : Bool := p.getLsbD x.toNat

def xpermsIoctlfunction : BitVec 8 := 0x01
def xpermsIoctldriver : BitVec 8 := 0x02

/-- `avtab_extended_perms_t`, and `av_extended_perms_t` with the same fields
and the same two values of `specified`. -/
structure ExtendedPerms where
  specified : BitVec 8 := 0
  driver : BitVec 8 := 0
  perms : XpermBits := 0
  deriving DecidableEq

/-- `avtab_key_t`, whose fields have 16 bits. Expansion refuses type values past that
(`type_copy_callback`), so they are stored as they are; where a policy comes from a file
the security server has to cut them down (`keyType`). -/
structure AvtabKey where
  sourceType : Nat
  targetType : Nat
  targetClass : Nat
  specified : BitVec 16
  deriving DecidableEq

/-- A type value as it is stored in a key. -/
def keyType (value : Nat) : Nat := value % 2 ^ 16

theorem keyType_of_lt {value : Nat} (h : value < 2 ^ 16) : keyType value = value :=
  Nat.mod_eq_of_lt h

/-- `xperms` is only read in extended-permission rules, where
`avtab_insert_node` allocates it. -/
structure AvtabDatum where
  data : BitVec 32 := 0
  xperms : ExtendedPerms := {}
  deriving DecidableEq

/-- A node. `addr` is its address: the rule lists of conditionals point to
nodes by it. `parseContext` names the conditional (by its address) and the
branch whose list the node was made for. -/
structure AvtabNode where
  key : AvtabKey
  datum : AvtabDatum
  addr : Nat := 0
  parseContext : Option (Nat × Bool) := none
  deriving DecidableEq

/-- `htable` has `nslot` chains; it is empty when the table is not allocated. `nel` has 32
bits. -/
structure Avtab where
  htable : List (List AvtabNode) := []
  mask : BitVec 32 := 0
  nel : Nat := 0

/-- The nodes in the order `avtab_map` visits them. -/
def Avtab.nodes (t : Avtab) : List AvtabNode := t.htable.flatten

/-- The node that a rule list entry points to. -/
def Avtab.nodeAt (t : Avtab) (addr : Nat) : Option AvtabNode :=
  t.nodes.find? fun n => n.addr == addr

/-- An address that no node of the table has. -/
def Avtab.freshAddr (t : Avtab) : Nat := (t.nodes.map AvtabNode.addr).foldr max 0 + 1

/-- Write to the node at an address. -/
def Avtab.modifyNode (t : Avtab) (addr : Nat) (f : AvtabNode → AvtabNode) : Avtab :=
  { t with htable := t.htable.map fun c => c.map fun n => if n.addr = addr then f n else n }

/-! ## Hashing and the order of a chain -/

/-- One `mix` of `avtab_hash`. -/
def avtabHashMix (hash input : BitVec 32) : BitVec 32 :=
  let v := input * 0xcc9e2d51
  let v := (v <<< 15) ||| (v >>> 17)
  let v := v * 0x1b873593
  let hash := hash ^^^ v
  let hash := (hash <<< 13) ||| (hash >>> 19)
  hash * 5 + 0xe6546b64

section

variable (h : Avtab) (k : AvtabKey) (specified : BitVec 16)

def avtabHash (mask : BitVec 32) : Nat :=
  let hash : BitVec 32 := 0
  let hash := avtabHashMix hash (BitVec.ofNat 32 k.targetClass)
  let hash := avtabHashMix hash (BitVec.ofNat 32 k.targetType)
  let hash := avtabHashMix hash (BitVec.ofNat 32 k.sourceType)
  let hash := hash ^^^ (hash >>> 16)
  let hash := hash * 0x85ebca6b
  let hash := hash ^^^ (hash >>> 13)
  let hash := hash * 0xc2b2ae35
  let hash := hash ^^^ (hash >>> 16)
  (hash &&& mask).toNat

/-- Same source, target and class. -/
def AvtabKey.same (k c : AvtabKey) : Bool :=
  k.sourceType == c.sourceType && k.targetType == c.targetType && k.targetClass == c.targetClass

/-- `k` sorts before `c`: the three `break` tests of the chain loops. -/
def AvtabKey.before (k c : AvtabKey) : Bool :=
  decide (k.sourceType < c.sourceType) ||
  (k.sourceType == c.sourceType && decide (k.targetType < c.targetType)) ||
  (k.sourceType == c.sourceType && k.targetType == c.targetType &&
    decide (k.targetClass < c.targetClass))

/-- A key's specifier without the enabled flag, as every search takes it. -/
def AvtabKey.spec : BitVec 16 := k.specified &&& ~~~avtabEnabled

/-- The test of the chain loops: same triple and a specifier in common. -/
def AvtabKey.hits (n : AvtabNode) : Bool :=
  k.same n.key && (specified &&& n.key.specified) != 0

/-- A rule key as the tables hold it: exactly one kind, apart from the enabled
flag. -/
def AvtabKey.OneKind : Prop := k.spec ∈ specOrder

instance (k : AvtabKey) : Decidable k.OneKind := inferInstanceAs (Decidable (_ ∈ _))

/-- What the policy readers check of a key: one kind, and type values from `1` on. -/
structure AvtabKey.Valid : Prop where
  kind : k.OneKind
  source : 0 < k.sourceType
  target : 0 < k.targetType

instance (k : AvtabKey) : Decidable k.Valid :=
  decidable_of_iff (k.OneKind ∧ 0 < k.sourceType ∧ 0 < k.targetType)
    ⟨fun h => ⟨h.1, h.2.1, h.2.2⟩, fun h => ⟨h.kind, h.source, h.target⟩⟩

/-- The fields of a key have 16 bits. -/
structure AvtabKey.Fits : Prop where
  sourceType : k.sourceType < 2 ^ 16
  targetType : k.targetType < 2 ^ 16
  targetClass : k.targetClass < 2 ^ 16

instance (k : AvtabKey) : Decidable k.Fits :=
  decidable_of_iff (k.sourceType < 2 ^ 16 ∧ k.targetType < 2 ^ 16 ∧ k.targetClass < 2 ^ 16)
    ⟨fun h => ⟨h.1, h.2.1, h.2.2⟩, fun h => ⟨h.sourceType, h.targetType, h.targetClass⟩⟩

/-! ## Searching -/

def Avtab.chain : List AvtabNode :=
  h.htable.getD (avtabHash k h.mask) []

/-- `avtab_search_node`: the chain from the first matching node on. -/
def avtabSearchNode : List AvtabNode :=
  Lib.scan (k.hits k.spec) (fun n => k.before n.key) (h.chain k)

def avtabSearchNodeNext : List AvtabNode → List AvtabNode
  | [] => []
  | node :: next =>
    Lib.scan (node.key.hits (specified &&& ~~~avtabEnabled)) (fun n => node.key.before n.key) next

def avtabSearch : Option AvtabDatum :=
  (avtabSearchNode h k).head?.map AvtabNode.datum

/-- A write through the pointer that `avtab_search` returns. -/
def avtabModify (f : AvtabDatum → AvtabDatum) : Avtab :=
  let write (chain : List AvtabNode) : List AvtabNode :=
    Lib.scanModify (k.hits k.spec) (fun n => k.before n.key)
      (fun n => { n with datum := f n.datum }) chain
  { h with htable := h.htable.modify (avtabHash k h.mask) write }

/-- The nodes from a found node on, when each further one is found by
`avtab_search_node_next`. Each round is at a later node, so the length of the
chain bounds the rounds. -/
def avtabSearchRest : Nat → List AvtabNode → List AvtabNode
  | 0, _ => []
  | _, [] => []
  | fuel + 1, node :: next =>
    node :: avtabSearchRest fuel (avtabSearchNodeNext specified (node :: next))

/-- The nodes visited by
`for (node = avtab_search_node(h, k); node; node = avtab_search_node_next(node, k->specified))`. -/
def avtabSearchNodes : List AvtabNode :=
  avtabSearchRest k.specified (h.chain k).length (avtabSearchNode h k)

/-- `avtab_map`: apply a callback to every node in turn until one returns
non-zero. -/
def avtabMap {σ : Type*} (apply : AvtabKey → AvtabDatum → σ → Int × σ) :
    List AvtabNode → σ → Int × σ
  | [], s => (0, s)
  | cur :: next, s =>
    match apply cur.key cur.datum s with
    | (0, s') => avtabMap apply next s'
    | r => r

theorem avtabMap_test {f : AvtabKey → AvtabDatum → Bool} (l : List AvtabNode) :
    (avtabMap (fun k d (_ : Unit) => (if f k d then 1 else 0, ())) l ()).1 =
      if l.any (fun n => f n.key n.datum) then 1 else 0 := by
  induction l with
  | nil => rfl
  | cons n l ih =>
    rw [avtabMap]
    cases hf : f n.key n.datum with
    | true => simp [hf]
    | false => simpa [hf] using ih

theorem avtabMap_count {w : Nat} {f : AvtabKey → AvtabDatum → Nat} (l : List AvtabNode)
    (e : BitVec w) : avtabMap (fun k d e => (0, e + BitVec.ofNat w (f k d))) l e =
      (0, e + BitVec.ofNat w (l.map fun n => f n.key n.datum).sum) := by
  induction l generalizing e with
  | nil => simp [avtabMap]
  | cons n l ih =>
    simp [avtabMap, ih, BitVec.ofNat_add, BitVec.add_assoc]

/-! ## Insertion -/

inductive AvtabError where
  | enomem
  | eexist
  deriving DecidableEq

/-- The chain of `avtab_insert` with the new node in place; `none` is
`SEPOL_EEXIST`. -/
def avtabInsertChain (node : AvtabNode) : List AvtabNode → Option (List AvtabNode)
  | [] => some [node]
  | cur :: next =>
    if node.key.hits node.key.spec cur then
      -- extended permissions are not necessarily unique
      if (node.key.spec &&& avtabXperms) != 0 then some (node :: cur :: next) else none
    else if node.key.before cur.key then some (node :: cur :: next)
    else (avtabInsertChain node next).map (cur :: ·)

def avtabInsert (d : AvtabDatum) : Except AvtabError Avtab :=
  if h.htable = [] then .error .enomem
  else match avtabInsertChain { key := k, datum := d } (h.chain k) with
    | none => .error .eexist
    | some c => .ok
      { h with htable := h.htable.set (avtabHash k h.mask) c, nel := (h.nel + 1) % 2 ^ 32 }

/-- The chain of `avtab_insert_nonunique` with the new node in place. -/
def avtabInsertNonuniqueChain (node : AvtabNode) : List AvtabNode → List AvtabNode
  | [] => [node]
  | cur :: next =>
    if node.key.hits node.key.spec cur || node.key.before cur.key then node :: cur :: next
    else cur :: avtabInsertNonuniqueChain node next

/-- `avtab_insert_nonunique` into an allocated table. -/
def avtabInsertNonunique (node : AvtabNode) : Avtab :=
  { h with
    htable := h.htable.modify (avtabHash node.key h.mask) (avtabInsertNonuniqueChain node)
    nel := (h.nel + 1) % 2 ^ 32 }

end

/-- `shift` of `avtab_alloc`: its loop counts the bits of `nrules`. -/
def avtabAllocShift (nrules : Nat) : Nat :=
  let shift := nrules.log2 + 1
  if shift > 2 then shift - 2 else shift

def maxAvtabHashBuckets : Nat := 2 ^ 20

def avtabAlloc (nrules : Nat) : Avtab :=
  if nrules = 0 then {}
  else
    let nslot := min (2 ^ avtabAllocShift nrules) maxAvtabHashBuckets
    { htable := List.replicate nslot [], mask := BitVec.ofNat 32 (nslot - 1) }

/-! ## What the searches find -/

variable {k c : AvtabKey}

theorem AvtabKey.same_iff :
    k.same c = true ↔ k.sourceType = c.sourceType ∧ k.targetType = c.targetType ∧
      k.targetClass = c.targetClass := by
  simp [AvtabKey.same, and_assoc]

variable {n : AvtabNode} {a b : AvtabKey} {l : List AvtabNode}

theorem AvtabKey.hits_iff {s} :
    k.hits s n = true ↔ k.same n.key = true ∧ s &&& n.key.specified ≠ 0 := by
  simp [AvtabKey.hits]

/-- A test for kinds does not see the enabled flag. -/
theorem AvtabKey.specified_and {x} (hx : ~~~avtabEnabled &&& x = x) :
    k.specified &&& x = k.spec &&& x := by
  rw [AvtabKey.spec, BitVec.and_assoc, hx]

theorem AvtabKey.spec_eq_of_overlap {k1 k2 : AvtabKey} (h1 : k1.OneKind) (h2 : k2.OneKind)
    (h : k1.spec &&& k2.specified ≠ 0) : k1.spec = k2.spec := by
  have hmask : k1.spec &&& k2.specified = k1.spec &&& k2.spec := by
    simp only [AvtabKey.spec, BitVec.and_assoc]
    congr 1
    rw [BitVec.and_comm k2.specified, ← BitVec.and_assoc, BitVec.and_self]
  have hsingle : specOrder.all (fun a => specOrder.all fun b => a &&& b == 0 || a == b) = true := by
    decide
  have hab := all_eq_true.mp (all_eq_true.mp hsingle _ h1) _ h2
  simp_all

theorem AvtabKey.before_of_not_before (hka : k.before a = true)
    (hab : ¬ b.before a = true) : k.before b = true := by
  simp only [AvtabKey.before, Bool.or_eq_true, Bool.and_eq_true, decide_eq_true_eq,
    beq_iff_eq] at *
  omega

theorem AvtabKey.not_same_of_before (h : k.before a = true) : k.same a = false := by
  rw [Bool.eq_false_iff, Ne, AvtabKey.same_iff]
  simp only [AvtabKey.before, Bool.or_eq_true, Bool.and_eq_true, decide_eq_true_eq,
    beq_iff_eq] at h
  omega

theorem avtabHash_congr (h : k.same c = true) (mask : BitVec 32) :
    avtabHash k mask = avtabHash c mask := by
  obtain ⟨h1, h2, h3⟩ := AvtabKey.same_iff.mp h
  simp only [avtabHash, h1, h2, h3]

theorem Avtab.mem_nodes_of_mem_chain {h : Avtab} {k n} (hn : n ∈ h.chain k) : n ∈ h.nodes := by
  rw [Avtab.chain, getD_eq_getElem?_getD] at hn
  cases hc : h.htable[avtabHash k h.mask]? with
  | none => simp [hc] at hn
  | some c =>
    rw [hc] at hn
    exact mem_flatten.mpr ⟨c, mem_of_getElem? hc, hn⟩

variable {t : Avtab}

theorem Avtab.mem_nodes_of_nodeAt {a : Nat} (h : t.nodeAt a = some n) : n ∈ t.nodes ∧ n.addr = a :=
  ⟨mem_of_find?_eq_some h, by simpa using find?_some h⟩

theorem Avtab.nodeAt_eq_some (hnd : (t.nodes.map AvtabNode.addr).Nodup)
    (hn : n ∈ t.nodes) : t.nodeAt n.addr = some n := by
  have hsome : (t.nodeAt n.addr).isSome = true :=
    find?_isSome.mpr ⟨n, hn, beq_self_eq_true n.addr⟩
  obtain ⟨m, hm⟩ := Option.isSome_iff_exists.mp hsome
  obtain ⟨hmem, haddr⟩ := Avtab.mem_nodes_of_nodeAt hm
  rw [hm, inj_on_of_nodup_map hnd hmem hn haddr]

/-- The shape every table built by insertion has: each node is in the slot its
key hashes to, and each chain is ordered by source, target and class. -/
structure Avtab.Wf (t : Avtab) : Prop where
  slot : ∀ i, ∀ n ∈ t.htable.getD i [], avtabHash n.key t.mask = i
  order : ∀ c ∈ t.htable, c.Pairwise fun a b => ¬ b.key.before a.key = true

theorem AvtabKey.not_before_of_before (h : a.before b = true) : ¬ b.before a = true := by
  simp only [AvtabKey.before, Bool.or_eq_true, Bool.and_eq_true, decide_eq_true_eq,
    beq_iff_eq] at *
  omega

theorem AvtabKey.before_congr {c : AvtabKey} (h : a.same b = true) : c.before a = c.before b := by
  obtain ⟨h1, h2, h3⟩ := AvtabKey.same_iff.mp h
  simp only [AvtabKey.before, h1, h2, h3]

theorem avtabInsertChain_order {node} {l' : List AvtabNode}
    (hl : l.Pairwise fun a b => ¬ b.key.before a.key = true)
    (h : avtabInsertChain node l = some l') :
    l'.Pairwise (fun a b => ¬ b.key.before a.key = true) ∧ ∀ n ∈ l', n = node ∨ n ∈ l := by
  induction l generalizing l' with
  | nil =>
    simp only [avtabInsertChain, Option.some.injEq] at h
    subst h
    simp
  | cons cur next ih =>
    have hcur : ∀ n ∈ next, ¬ n.key.before cur.key = true := fun n hn =>
      rel_of_pairwise_cons hl hn
    rw [avtabInsertChain] at h
    split_ifs at h with hhit hx hbefore
    · cases h
      have hsame := (AvtabKey.hits_iff.mp hhit).1
      refine ⟨pairwise_cons.mpr ⟨fun n hn => ?_, hl⟩, by simp⟩
      rw [AvtabKey.before_congr hsame]
      rcases mem_cons.mp hn with rfl | hn
      · intro h
        exact AvtabKey.not_before_of_before h h
      · exact hcur n hn
    · cases h
      refine ⟨pairwise_cons.mpr ⟨fun n hn hb => ?_, hl⟩, by simp⟩
      rcases mem_cons.mp hn with rfl | hn
      · exact AvtabKey.not_before_of_before hbefore hb
      · exact AvtabKey.not_before_of_before hb (AvtabKey.before_of_not_before hbefore (hcur n hn))
    · obtain ⟨rest, hrest, rfl⟩ := Option.map_eq_some_iff.mp h
      obtain ⟨hord, hmem⟩ := ih hl.of_cons hrest
      refine ⟨pairwise_cons.mpr ⟨fun n hn => ?_, hord⟩, fun n hn => ?_⟩
      · rcases hmem n hn with rfl | hn
        · exact hbefore
        · exact hcur n hn
      · rcases mem_cons.mp hn with rfl | hn
        · simp
        · exact (hmem n hn).imp_right (mem_cons_of_mem _)

theorem Avtab.Wf.chain_order (h : t.Wf) (k : AvtabKey) :
    (t.chain k).Pairwise fun a b => ¬ b.key.before a.key = true := by
  rw [Avtab.chain, getD_eq_getElem?_getD]
  cases hc : t.htable[avtabHash k t.mask]? with
  | none => simp
  | some c => exact h.order c (mem_of_getElem? hc)

/-- Behind a node that sorts after the key nothing matches. -/
theorem Avtab.Wf.chain_stop (h : t.Wf) (k : AvtabKey) :
    (t.chain k).Pairwise fun a b => k.before a.key = true → k.hits k.spec b = false := by
  refine (h.chain_order k).imp ?_
  intro a b hab hka
  have hkb := AvtabKey.before_of_not_before hka hab
  simp [AvtabKey.hits, AvtabKey.not_same_of_before hkb]

theorem Avtab.Wf.insert {t t' : Avtab} (h : t.Wf) {k d} (hins : avtabInsert t k d = .ok t') :
    t'.Wf := by
  rw [avtabInsert] at hins
  split_ifs at hins
  cases hc : avtabInsertChain { key := k, datum := d } (t.chain k) with
  | none => simp [hc] at hins
  | some c =>
    simp only [hc, Except.ok.injEq] at hins
    subst hins
    obtain ⟨hord, hmem⟩ := avtabInsertChain_order (h.chain_order k) hc
    refine ⟨fun i n hn => ?_, fun c' hc' => ?_⟩
    · simp only [getD_eq_getElem?_getD, getElem?_set] at hn
      split_ifs at hn with hi hlt
      · rcases hmem n (by simpa using hn) with rfl | hn
        · exact hi
        · exact hi ▸ h.slot _ n hn
      · simp at hn
      · exact h.slot i n (by simpa [getD_eq_getElem?_getD] using hn)
    · rcases mem_or_eq_of_mem_set hc' with hc' | rfl
      · exact h.order c' hc'
      · exact hord

theorem avtabAlloc_wf (nrules : Nat) : (avtabAlloc nrules).Wf := by
  unfold avtabAlloc
  split_ifs
  · exact ⟨by simp, by simp⟩
  · refine ⟨fun i n hn => ?_, fun c hc => ?_⟩
    · simp only [getD_eq_getElem?_getD, getElem?_replicate] at hn
      split_ifs at hn <;> simp at hn
    · rw [eq_of_mem_replicate hc]
      exact .nil

/-- The table that inserting rules one after another builds. -/
def avtabOf (rules : List (AvtabKey × AvtabDatum)) : Avtab :=
  rules.foldl (fun t r => (avtabInsert t r.1 r.2).toOption.getD t) (avtabAlloc rules.length)

theorem avtabOf_wf (rules : List (AvtabKey × AvtabDatum)) : (avtabOf rules).Wf := by
  have hfold : ∀ (l : List (AvtabKey × AvtabDatum)) (t : Avtab), t.Wf →
      (l.foldl (fun t r => (avtabInsert t r.1 r.2).toOption.getD t) t).Wf := by
    intro l
    induction l with
    | nil => exact fun _ h => h
    | cons r l ih =>
      intro t h
      apply ih
      cases hr : avtabInsert t r.1 r.2 with
      | error e => simpa [hr, Except.toOption] using h
      | ok t' => simpa [hr, Except.toOption] using h.insert hr
  exact hfold rules _ (avtabAlloc_wf _)

theorem AvtabKey.hits_congr (h : k.same c = true) (specified : BitVec 16) :
    c.hits specified = k.hits specified := by
  obtain ⟨h1, h2, h3⟩ := AvtabKey.same_iff.mp h
  funext n
  simp only [AvtabKey.hits, AvtabKey.same, h1, h2, h3]

theorem AvtabKey.before_congr_left (h : k.same c = true) (x : AvtabKey) :
    c.before x = k.before x := by
  obtain ⟨h1, h2, h3⟩ := AvtabKey.same_iff.mp h
  simp only [AvtabKey.before, h1, h2, h3]

/-- The loop of searches is one scan of the chain: a found node has the key's
source, target and class, so searching on from it looks for the same. -/
theorem avtabSearchRest_scan {fuel} (hl : l.length ≤ fuel) :
    avtabSearchRest k.specified fuel (Lib.scan (k.hits k.spec) (fun n => k.before n.key) l) =
      Lib.scanAll (k.hits k.spec) (fun n => k.before n.key) l := by
  induction fuel generalizing l with
  | zero =>
    rw [eq_nil_of_length_eq_zero (Nat.le_zero.mp hl)]
    rfl
  | succ fuel ih =>
    have hlen := (Lib.scan_suffix (k.hits k.spec) (fun n => k.before n.key) l).length_le
    rw [Lib.scanAll_eq_scan]
    rcases Lib.scan_cases (k.hits k.spec) (fun n => k.before n.key) l with
      hnil | ⟨n, rest, hcons, hit, -⟩
    · rw [hnil]
      rfl
    · rw [hcons] at hlen ⊢
      have hsame := (AvtabKey.hits_iff.mp hit).1
      have hnext : avtabSearchNodeNext k.specified (n :: rest) =
          Lib.scan (k.hits k.spec) (fun n => k.before n.key) rest := by
        simp only [avtabSearchNodeNext, AvtabKey.hits_congr hsame,
          AvtabKey.before_congr_left hsame, AvtabKey.spec]
      rw [avtabSearchRest, hnext, ih (by simp at hlen; omega)]

theorem Avtab.Wf.scanAll_chain (h : t.Wf) (k : AvtabKey) :
    Lib.scanAll (k.hits k.spec) (fun n => k.before n.key) (t.chain k) =
      t.nodes.filter (k.hits k.spec) := by
  have hslot : ∀ i, ∀ n ∈ t.htable.getD i [], k.hits k.spec n = true → i = avtabHash k t.mask := by
    intro i n hn hit
    rw [avtabHash_congr (AvtabKey.hits_iff.mp hit).1]
    exact (h.slot i n hn).symm
  rw [Avtab.nodes, Lib.flatten_filter_of_slot hslot]
  exact Lib.scanAll_eq_filter (h.chain_stop k)

theorem Avtab.Wf.searchNodes_eq (h : t.Wf) (k : AvtabKey) :
    avtabSearchNodes t k = t.nodes.filter (k.hits k.spec) := by
  rw [avtabSearchNodes, avtabSearchNode, avtabSearchRest_scan (Nat.le_refl _), h.scanAll_chain]

end SELinux.Sepol
