import SELinux.Lib.Buckets
import SELinux.Sepol.Context

/-! The SID table (`sidtab.c`): a hash table from security identifiers to contexts, whose
chains are sorted by SID. New contexts get the next free SID. -/
namespace SELinux.Sepol

/-! ## Model -/

def sidtabSize : Nat := 128

section

variable (fail : SidAlloc → Bool) (s : Sidtab) (sid : Nat)

/-- `SIDTAB_HASH`: the low seven bits. -/
def sidtabHash : Fin sidtabSize := ⟨sid % sidtabSize, Nat.mod_lt _ (by decide)⟩

abbrev SidtabHtable := Lib.Buckets Nat Context sidtabHash

/-- `sidtab_t`. `htable` is `none` for a null pointer; `nel` and `nextSid` have 32 bits. -/
structure Sidtab where
  htable : Option SidtabHtable := none
  nel : Nat := 0
  nextSid : Nat := 1
  shutdown : Bool := false

/-- The errors of the functions that work with SIDs; `null` is a read through a null
pointer. -/
inductive SidFault where
  | einval
  | eacces
  | enomem
  | eexist
  | null
  deriving DecidableEq

/-- The places where memory is needed: the chains of a table, the node of a SID and a copy of
its context. -/
inductive SidAlloc where
  | table
  | node (sid : Nat)
  | copy (sid : Nat)
  deriving DecidableEq

def uintMax : Nat := 2 ^ 32 - 1

def secinitsidUnlabeled : Nat := 3

/-- `sepol_sidtab_init`. When it fails it leaves the other fields as they were. -/
def sepolSidtabInit : Sidtab :=
  if fail .table then { s with htable := none } else { htable := some .empty }

def sepolSidtabInsert (context : Context) : Except SidFault Sidtab :=
  match s.htable with
  | none => .error .enomem
  | some h =>
    match h.insert sid context with
    | none => .error .eexist
    | some h =>
      if fail (.node sid) then .error .enomem
      else .ok
        { s with
          htable := some h
          nel := (s.nel + 1) % 2 ^ 32
          nextSid := if s.nextSid ≤ sid then (sid + 1) % 2 ^ 32 else s.nextSid }

/-- The entries in the order the loops visit them. -/
def Sidtab.entries : List (Nat × Context) :=
  match s.htable with
  | none => []
  | some h => h.entries

/-- The context that the table has for a SID. -/
def Sidtab.lookup : Option Context := s.htable.bind (·.find? sid)

/-- `sepol_sidtab_search`: a SID that is not in the table stands for the unlabeled one. -/
def sepolSidtabSearch : Option Context :=
  match s.lookup sid with
  | some context => some context
  | none => s.lookup secinitsidUnlabeled

/-- `sepol_sidtab_search_context`: `0` if no SID has the context. -/
def sepolSidtabSearchContext (h : SidtabHtable) (context : Context) : Nat :=
  match h.entries.find? fun e => contextCmp e.2 context with
  | none => 0
  | some e => e.1

/-- `sepol_sidtab_context_to_sid`. The search is made twice, for the sake of a lock; nothing
happens in between. -/
def sepolSidtabContextToSid (context : Context) : Except SidFault (Nat × Sidtab) :=
  match s.htable with
  | none => .error .null
  | some h =>
    let sid := sepolSidtabSearchContext h context
    if sid ≠ 0 then .ok (sid, s)
    else if s.nextSid = uintMax ∨ s.shutdown then .error .enomem
    else
      match sepolSidtabInsert fail { s with nextSid := s.nextSid + 1 } s.nextSid context with
      | .error err => .error err
      | .ok s' => .ok (s.nextSid, s')

/-- `sepol_sidtab_map`: stop at the first error. -/
def sepolSidtabMap {σ : Type*} (apply : Nat → Context → σ → Except SidFault σ) (s : Sidtab)
    (args : σ) : Except SidFault σ :=
  s.entries.foldlM (fun args e => apply e.1 e.2 args) args

/-- `sepol_sidtab_map_remove_on_error`, for a function that changes the context in place. -/
def sepolSidtabMapRemoveOnError (apply : Nat → Context → Except SidFault Context) (s : Sidtab) :
    Sidtab :=
  match s.htable with
  | none => s
  | some h =>
    let kept := h.filterMap fun sid context => (apply sid context).toOption
    { s with
      htable := some kept
      nel := (s.nel + 2 ^ 32 - (h.entries.length - kept.entries.length)) % 2 ^ 32 }

/-- `sepol_sidtab_set(dst, src)`: what `dst` is then. -/
def sepolSidtabSet (src : Sidtab) : Sidtab := { src with shutdown := false }

def sepolSidtabShutdown : Sidtab := { s with shutdown := true }

end

/-- A table with the given contexts, from SID `1` on. -/
def sidtabOf (contexts : List Context) : Sidtab :=
  contexts.foldl (fun s c =>
    match sepolSidtabContextToSid (fun _ => false) s c with
    | .ok (_, s') => s'
    | .error _ => s) (sepolSidtabInit (fun _ => false) {})

/-! ## Laws -/

theorem sepolSidtabSearch_of_lookup {s : Sidtab} {sid c} (h : s.lookup sid = some c) :
    sepolSidtabSearch s sid = some c := by
  rw [sepolSidtabSearch, h]

variable {s s' : Sidtab}

/-- What a successful insertion does to the table. -/
theorem sepolSidtabInsert_cases {fail} {sid c} (h : sepolSidtabInsert fail s sid c = .ok s') :
    ∃ t t', s.htable = some t ∧ t.insert sid c = some t' ∧ s' =
      { s with
        htable := some t'
        nel := (s.nel + 1) % 2 ^ 32
        nextSid := if s.nextSid ≤ sid then (sid + 1) % 2 ^ 32 else s.nextSid } := by
  unfold sepolSidtabInsert at h
  cases ht : s.htable with
  | none => simp [ht] at h
  | some t =>
    cases hi : t.insert sid c with
    | none => simp [ht, hi] at h
    | some t' =>
      simp only [ht, hi] at h
      by_cases hf : fail (.node sid) = true
      · rw [if_pos hf] at h
        cases h
      simp_all

/-- What a successful insertion does to the lookups. -/
theorem sepolSidtabInsert_ok {fail} {sid c} (h : sepolSidtabInsert fail s sid c = .ok s') :
    s'.lookup sid = some c ∧ ∀ j w, s.lookup j = some w → s'.lookup j = some w := by
  obtain ⟨t, t', ht, hi, rfl⟩ := sepolSidtabInsert_cases h
  refine ⟨Lib.Buckets.find?_insert_self hi, fun j w hj => ?_⟩
  rw [Sidtab.lookup, ht] at hj
  exact Lib.Buckets.find?_insert_of_some hi hj

theorem sepolSidtabSearchContext_lookup {h : SidtabHtable} {c}
    (hne : sepolSidtabSearchContext h c ≠ 0) : h.find? (sepolSidtabSearchContext h c) = some c := by
  unfold sepolSidtabSearchContext at hne ⊢
  cases hf : h.entries.find? fun e => contextCmp e.2 c with
  | none => simp [hf] at hne
  | some e =>
    have hcmp := List.find?_some hf
    rw [contextCmp_iff] at hcmp
    exact Lib.Buckets.find?_eq_some.mpr (hcmp ▸ List.mem_of_find?_eq_some hf)

theorem sepolSidtabContextToSid_cases {fail} {c sid}
    (h : sepolSidtabContextToSid fail s c = .ok (sid, s')) : ∃ t, s.htable = some t ∧
      (sepolSidtabSearchContext t c = sid ∧ sid ≠ 0 ∧ s' = s ∨
        sepolSidtabSearchContext t c = 0 ∧ sid = s.nextSid ∧
          sepolSidtabInsert fail { s with nextSid := s.nextSid + 1 } sid c = .ok s') := by
  unfold sepolSidtabContextToSid at h
  cases ht : s.htable with
  | none => simp [ht] at h
  | some t =>
    simp only [ht] at h
    by_cases hsid : sepolSidtabSearchContext t c ≠ 0
    · simp_all
    · split_ifs at h
      split at h
      · cases h
      · simp_all

theorem sepolSidtabContextToSid_ok {fail} {c sid}
    (h : sepolSidtabContextToSid fail s c = .ok (sid, s')) :
    s'.lookup sid = some c ∧ ∀ j w, s.lookup j = some w → s'.lookup j = some w := by
  obtain ⟨t, ht, ⟨rfl, hne, rfl⟩ | ⟨-, -, hins⟩⟩ := sepolSidtabContextToSid_cases h
  · refine ⟨?_, fun _ _ h => h⟩
    rw [Sidtab.lookup, ht]
    exact sepolSidtabSearchContext_lookup hne
  · obtain ⟨hself, hrest⟩ := sepolSidtabInsert_ok hins
    exact ⟨hself, fun j w hj => hrest j w hj⟩

end SELinux.Sepol
