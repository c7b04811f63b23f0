import Mathlib.Data.List.FinRange

/-! Hash tables whose chains are kept in ascending order of the keys. A chain is searched up
to the first key that is not smaller, and a new entry goes in front of it; a table carries
the proof that its chains are sorted and hold only what hashes to them, so the entries make
up a partial function on the keys. -/
namespace Lib

open List Option Function

/-! ## Chains -/

section Chain

variable {κ α : Type*} [LinearOrder κ]

/-- The value of a key in an ascending chain. -/
def chainFind (k : κ) : List (κ × α) → Option α
  | [] => none
  | e :: c => if e.1 < k then chainFind k c else if k = e.1 then some e.2 else none

/-- A chain with a new entry, unless the key is taken. -/
def chainInsert (k : κ) (v : α) : List (κ × α) → Option (List (κ × α))
  | [] => some [(k, v)]
  | e :: c =>
    if e.1 < k then (chainInsert k v c).map (e :: ·)
    else if k = e.1 then none else some ((k, v) :: e :: c)

/-- The keys ascend along the chain. -/
def Ascending (c : List (κ × α)) : Prop := c.Pairwise fun a b => a.1 < b.1

variable {k : κ} {v : α} {c c' : List (κ × α)}

theorem chainFind_eq_some (hc : Ascending c) : chainFind k c = some v ↔ (k, v) ∈ c := by
  induction c with
  | nil => simp [chainFind]
  | cons e c ih =>
    obtain ⟨hhead, htail⟩ := pairwise_cons.mp hc
    rw [chainFind, mem_cons]
    split_ifs with hlt heq
    · rw [ih htail]
      refine ⟨.inr, fun h => h.resolve_left ?_⟩
      rintro rfl
      exact lt_irrefl _ hlt
    · subst heq
      -- the rest of the chain is above the key
      refine ⟨fun h => .inl (Prod.ext rfl (some_inj.mp h).symm), fun h => ?_⟩
      rcases h with h | h
      · rw [← h]
      · exact absurd (hhead _ h) (lt_irrefl _)
    · refine ⟨fun h => (nomatch h), fun h => ?_⟩
      rcases h with h | h
      · exact absurd (congrArg Prod.fst h) heq
      · exact absurd (hhead _ h) hlt

theorem chainFind_map {β : Type*} (f : α → β) (k : κ) (c : List (κ × α)) :
    chainFind k (c.map fun e => (e.1, f e.2)) = (chainFind k c).map f := by
  induction c with
  | nil => rfl
  | cons e c ih =>
    rw [map_cons, chainFind, chainFind, ih]
    split_ifs <;> rfl

theorem chainInsert_eq_none (hc : Ascending c) :
    chainInsert k v c = none ↔ (chainFind k c).isSome = true := by
  induction c with
  | nil => simp [chainInsert, chainFind]
  | cons e c ih =>
    rw [chainInsert, chainFind]
    split_ifs with hlt heq
    · simp [ih (pairwise_cons.mp hc).2]
    · simp
    · simp

theorem mem_chainInsert (h : chainInsert k v c = some c') {e : κ × α} :
    e ∈ c' ↔ e = (k, v) ∨ e ∈ c := by
  induction c generalizing c' with
  | nil =>
    cases h
    simp
  | cons a c ih =>
    rw [chainInsert] at h
    split_ifs at h with hlt heq
    · obtain ⟨r, hr, rfl⟩ := map_eq_some_iff.mp h
      rw [mem_cons, ih hr, mem_cons]
      tauto
    · cases h
      rw [mem_cons]

theorem chainInsert_split (h : chainInsert k v c = some c') :
    ∃ l r, c = l ++ r ∧ c' = l ++ (k, v) :: r := by
  induction c generalizing c' with
  | nil =>
    cases h
    exact ⟨[], [], rfl, rfl⟩
  | cons a c ih =>
    rw [chainInsert] at h
    split_ifs at h with hlt heq
    · obtain ⟨d, hd, rfl⟩ := map_eq_some_iff.mp h
      obtain ⟨l, r, rfl, rfl⟩ := ih hd
      exact ⟨a :: l, r, rfl, rfl⟩
    · cases h
      exact ⟨[], a :: c, rfl, rfl⟩

theorem Ascending.insert (hc : Ascending c) (h : chainInsert k v c = some c') : Ascending c' := by
  induction c generalizing c' with
  | nil =>
    cases h
    exact pairwise_singleton _ _
  | cons a c ih =>
    obtain ⟨hhead, htail⟩ := pairwise_cons.mp hc
    rw [chainInsert] at h
    split_ifs at h with hlt heq
    · obtain ⟨r, hr, rfl⟩ := map_eq_some_iff.mp h
      refine pairwise_cons.mpr ⟨fun e he => ?_, ih htail hr⟩
      rcases (mem_chainInsert hr).mp he with rfl | he
      · exact hlt
      · exact hhead e he
    · cases h
      have hka : k < a.1 := lt_of_le_of_ne (not_lt.mp hlt) heq
      refine pairwise_cons.mpr ⟨fun e he => ?_, hc⟩
      rcases mem_cons.mp he with rfl | he
      · exact hka
      · exact hka.trans (hhead e he)

end Chain

/-! ## Tables -/

/-- A table with a chain for each hash value. -/
structure Buckets (κ α : Type*) [LinearOrder κ] {size : Nat} (hash : κ → Fin size) where
  chain : Fin size → List (κ × α)
  placed : ∀ i, ∀ e ∈ chain i, hash e.1 = i
  ascending : ∀ i, Ascending (chain i)

namespace Buckets

variable {κ α : Type*} [LinearOrder κ] {size : Nat} {hash : κ → Fin size}

/-- The table without entries. -/
def empty : Buckets κ α hash where
  chain _ := []
  placed _ _ he := nomatch he
  ascending _ := .nil

def find? (t : Buckets κ α hash) (k : κ) : Option α := chainFind k (t.chain (hash k))

/-- The table with a new entry, unless the key is taken. -/
def insert (t : Buckets κ α hash) (k : κ) (v : α) : Option (Buckets κ α hash) :=
  match h : chainInsert k v (t.chain (hash k)) with
  | none => none
  | some c => some
    { chain := update t.chain (hash k) c
      placed := by
        intro i e he
        rcases eq_or_ne i (hash k) with rfl | hi
        · rw [update_self] at he
          rcases (mem_chainInsert h).mp he with rfl | he
          · rfl
          · exact t.placed _ e he
        · rw [update_of_ne hi] at he
          exact t.placed i e he
      ascending := by
        intro i
        rcases eq_or_ne i (hash k) with rfl | hi
        · rw [update_self]
          exact (t.ascending _).insert h
        · rw [update_of_ne hi]
          exact t.ascending i }

/-- The entries, chain by chain. -/
def entries (t : Buckets κ α hash) : List (κ × α) := (finRange size).flatMap t.chain

/-- Change or remove each entry. -/
def filterMap (f : κ → α → Option α) (t : Buckets κ α hash) : Buckets κ α hash where
  chain i := (t.chain i).filterMap fun e => (f e.1 e.2).map (e.1, ·)
  placed := by
    intro i e he
    obtain ⟨a, ha, hae⟩ := mem_filterMap.mp he
    obtain ⟨v, -, rfl⟩ := map_eq_some_iff.mp hae
    exact t.placed i a ha
  ascending := by
    intro i
    refine (t.ascending i).filterMap _ fun a b hab a' ha b' hb => ?_
    obtain ⟨v, -, rfl⟩ := map_eq_some_iff.mp ha
    obtain ⟨w, -, rfl⟩ := map_eq_some_iff.mp hb
    exact hab

variable {t t' : Buckets κ α hash} {k : κ} {v : α}

theorem mem_entries {e : κ × α} : e ∈ t.entries ↔ e ∈ t.chain (hash e.1) := by
  simp only [entries, mem_flatMap, mem_finRange, true_and]
  exact ⟨fun ⟨i, hi⟩ => t.placed i e hi ▸ hi, fun h => ⟨_, h⟩⟩

theorem find?_eq_some : t.find? k = some v ↔ (k, v) ∈ t.entries := by
  rw [find?, chainFind_eq_some (t.ascending _), mem_entries]

theorem insert_eq_none : t.insert k v = none ↔ (t.find? k).isSome = true := by
  rw [find?, ← chainInsert_eq_none (v := v) (t.ascending _), insert]
  split <;> simp_all

section

variable (h : t.insert k v = some t')
include h

theorem mem_insert {e : κ × α} : e ∈ t'.entries ↔ e = (k, v) ∨ e ∈ t.entries := by
  rw [insert] at h
  split at h
  · cases h
  · rename_i c hc
    cases h
    rw [mem_entries, mem_entries]
    show e ∈ update t.chain (hash k) c (hash e.1) ↔ _
    rcases eq_or_ne (hash e.1) (hash k) with he | he
    · rw [he, update_self, mem_chainInsert hc]
    · rw [update_of_ne he]
      refine ⟨.inr, fun h => h.resolve_left ?_⟩
      rintro rfl
      exact he rfl

theorem entries_insert : ∃ l r, t.entries = l ++ r ∧ t'.entries = l ++ (k, v) :: r := by
  rw [insert] at h
  split at h
  · cases h
  · rename_i c hc
    cases h
    obtain ⟨l, r, hl, rfl⟩ := chainInsert_split hc
    obtain ⟨A, B, hsplit⟩ := append_of_mem (mem_finRange (hash k))
    have hnodup := nodup_finRange size
    rw [hsplit] at hnodup
    obtain ⟨-, hB, hAB⟩ := nodup_append.mp hnodup
    have hother : ∀ i ∈ A ++ B, i ≠ hash k := by
      intro i hi
      rcases mem_append.mp hi with hi | hi
      · exact hAB i hi _ mem_cons_self
      · exact fun heq => (nodup_cons.mp hB).1 (heq ▸ hi)
    -- the other chains are as they were
    have hsame : ∀ L : List (Fin size), (∀ i ∈ L, i ≠ hash k) →
        L.flatMap (update t.chain (hash k) (l ++ (k, v) :: r)) = L.flatMap t.chain := by
      intro L hL
      rw [flatMap_congr fun i hi => update_of_ne (hL i hi) _ _]
    refine ⟨A.flatMap t.chain ++ l, r ++ B.flatMap t.chain, ?_, ?_⟩
    · simp [entries, hsplit, hl]
    · simp only [entries, hsplit, flatMap_append, flatMap_cons, update_self,
        hsame A fun i hi => hother i (mem_append_left _ hi),
        hsame B fun i hi => hother i (mem_append_right _ hi), append_assoc,
        cons_append]

theorem find?_insert_self : t'.find? k = some v :=
  find?_eq_some.mpr ((mem_insert h).mpr (.inl rfl))

theorem find?_insert_of_ne {j : κ} (hj : j ≠ k) : t'.find? j = t.find? j := by
  ext w
  rw [find?_eq_some, find?_eq_some, mem_insert h]
  simp [hj]

theorem find?_insert_of_some {j : κ} {w : α} (hj : t.find? j = some w) : t'.find? j = some w :=
  find?_eq_some.mpr ((mem_insert h).mpr (.inr (find?_eq_some.mp hj)))

end

@[simp] theorem find?_empty (k : κ) : (empty : Buckets κ α hash).find? k = none := rfl

theorem nodup_keys (t : Buckets κ α hash) : (t.entries.map Prod.fst).Nodup := by
  rw [entries, map_flatMap, nodup_flatMap]
  refine ⟨fun i _ => ?_, ?_⟩
  · rw [List.Nodup, pairwise_map]
    exact (t.ascending i).imp fun h => ne_of_lt h
  · refine (nodup_finRange size).imp fun {i j} hij => ?_
    intro k hi hj
    -- the hash of the key tells which chain it is on
    obtain ⟨e, he, rfl⟩ := mem_map.mp hi
    obtain ⟨e', he', hkey⟩ := mem_map.mp hj
    exact hij ((t.placed i e he).symm.trans (hkey ▸ t.placed j e' he'))

end Buckets

end Lib
