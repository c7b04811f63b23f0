import Mathlib.Data.Fintype.Pigeonhole
import Mathlib.Data.Nat.Log

/-!
# Circular bounds

`cil_verify.c` follows the bounds of a type, a role or a user. One pointer walks on and the other
waits: it is compared with every item, and it is moved to the first one after 2, 4, 8 and more
steps. -/

namespace SELinux.Cil

open Option

variable {α : Type} [DecidableEq α] (bounds : α → Option α)

/-- The variables of the loop. -/
structure Search (α : Type) where
  t1 : α
  t2 : Option α
  steps : Nat
  limit : Nat

/-- One pass: `SEPOL_OK` or `SEPOL_ERR` is returned, or the variables change. -/
def Search.pass (s : Search α) : Int ⊕ Search α :=
  match s.t2 with
  | none => .inl 0
  | some t2 =>
    if s.t1 = t2 then .inl (-1)
    else if s.steps = s.limit then .inr ⟨t2, bounds t2, 1, s.limit * 2⟩
    else .inr ⟨s.t1, bounds t2, s.steps + 1, s.limit⟩

/-- The loop, for at most so many passes. -/
def Search.loop : Nat → Search α → Option Int
  | 0, _ => none
  | fuel + 1, s =>
    match s.pass bounds with
    | .inl rc => some rc
    | .inr s' => s'.loop fuel

def cilVerifyType (fuel : Nat) (type : α) : Option Int :=
  Search.loop bounds fuel ⟨type, bounds type, 0, 2⟩

def cilVerifyRole (fuel : Nat) (role : α) : Option Int :=
  Search.loop bounds fuel ⟨role, bounds role, 0, 2⟩

/-- A user needs a default level and a range, too. -/
def cilVerifyUserPreEval (dftlevel range : α → Bool) (fuel : Nat) (user : α) : Option Int :=
  if !dftlevel user then some (-1)
  else if !range user then some (-1)
  else if (bounds user).isSome then Search.loop bounds fuel ⟨user, bounds user, 0, 2⟩
  else some 0

/-! ## The chain of bounds -/

def chain (t : α) : Nat → Option α
  | 0 => some t
  | n + 1 => (chain t n).bind bounds

/-- Following the bounds comes to an item without one. -/
def ReachesEnd (t : α) : Prop := ∃ n last, chain bounds t n = some last ∧ bounds last = none

/-- The loop has returned, and it has accepted the item exactly if the chain comes to an end. -/
def Answers (t : α) (rc : Option Int) : Prop :=
  rc = some 0 ∧ ReachesEnd bounds t ∨ rc = some (-1) ∧ ¬ReachesEnd bounds t

variable {bounds} {t : α}

omit [DecidableEq α] in
theorem chain_congr {i j : Nat} (h : chain bounds t i = chain bounds t j) (d : Nat) :
    chain bounds t (i + d) = chain bounds t (j + d) := by
  induction d with
  | zero => exact h
  | succ d ih =>
    show (chain bounds t (i + d)).bind bounds = (chain bounds t (j + d)).bind bounds
    rw [ih]

variable {n k : Nat} {s : Search α}

omit [DecidableEq α] in
theorem chain_eq_none {m : Nat} (h : chain bounds t m = none) (hn : m ≤ n) :
    chain bounds t n = none := by
  induction hn with
  | refl => exact h
  | step _ ih => exact (congrArg (·.bind bounds) ih).trans rfl

omit [DecidableEq α] in
theorem reachesEnd_iff : ReachesEnd bounds t ↔ ∃ m, chain bounds t m = none := by
  constructor
  · rintro ⟨n, last, hn, hlast⟩
    exact ⟨n + 1, by rw [chain, hn, bind_some, hlast]⟩
  · rintro ⟨m, hm⟩
    induction m with
    | zero => cases hm
    | succ m ih =>
      cases hlast : chain bounds t m with
      | none => exact ih hlast
      | some last => exact ⟨m, last, hlast, by simpa [chain, hlast] using hm⟩

omit [DecidableEq α] in
/-- A chain that comes to an end has no item twice. -/
theorem chain_ne_of_end {m i j} (hm : chain bounds t m = none) (hij : i < j) {x}
    (hi : chain bounds t i = some x) : chain bounds t j ≠ some x := by
  intro hj
  have hround : ∀ q, chain bounds t (i + q * (j - i)) = some x := by
    intro q
    induction q with
    | zero => simpa using hi
    | succ q ih =>
      have hnext := chain_congr (hj.trans hi.symm) (q * (j - i))
      rw [← ih, ← hnext]
      congr 1
      rw [Nat.succ_mul]
      omega
  have hlarge : m ≤ i + m * (j - i) :=
    le_trans (Nat.le_mul_of_pos_right m (by omega)) (Nat.le_add_left _ _)
  exact absurd ((chain_eq_none hm hlarge).symm.trans (hround m)) (by simp)

/-! ## The loop -/

/-- What the variables hold when the walking pointer is `k` items from the start: the waiting one is
at the start, or it has been moved to the item before a power of two. -/
def Search.At (bounds : α → Option α) (t : α) (k : Nat) (s : Search α) : Prop :=
  s.t2 = chain bounds t k ∧
    (k ≤ 3 ∧ s.t1 = t ∧ s.steps + 1 = k ∧ s.limit = 2 ∨
      ∃ e, 2 ≤ e ∧ chain bounds t (2 ^ e - 1) = some s.t1 ∧ 2 ^ e ≤ k ∧ k < 2 * 2 ^ e ∧
        s.steps + 2 ^ e = k + 1 ∧ s.limit = 2 ^ e)

theorem Search.At.pass {s' : Search α} (h : s.At bounds t k) (hpass : s.pass bounds = .inr s') :
    s'.At bounds t (k + 1) := by
  obtain ⟨t1, t2, steps, limit⟩ := s
  obtain ⟨rfl, hwait⟩ := h
  simp only [Search.pass] at hpass hwait
  cases hk : chain bounds t k with
  | none => simp [hk] at hpass
  | some x =>
    simp only [hk] at hpass
    have hnext : bounds x = chain bounds t (k + 1) := by rw [chain, hk, bind_some]
    split_ifs at hpass with heq hmove <;> cases hpass <;> refine ⟨hnext, ?_⟩
    · -- the waiting pointer is moved
      rcases hwait with ⟨-, -, hsteps, hlimit⟩ | ⟨e, he, -, -, -, hsteps, hlimit⟩
      · have hk3 : k = 3 := by omega
        subst hk3
        exact .inr ⟨2, by omega, hk, by omega, by omega, by simp only; omega, by simp only; omega⟩
      · have hk' : k = 2 ^ (e + 1) - 1 := by omega
        exact .inr ⟨e + 1, by omega, hk' ▸ hk, by omega, by omega, by simp only; omega, by
          simp only; omega⟩
    · rcases hwait with ⟨hk3, ht1, hsteps, hlimit⟩ | ⟨e, he, ht1, hle, hlt, hsteps, hlimit⟩
      · exact .inl ⟨by omega, ht1, by simp only; omega, hlimit⟩
      · exact .inr ⟨e, he, ht1, by omega, by omega, by simp only; omega, hlimit⟩

theorem Search.At.loop {fuel : Nat} (h : s.At bounds t k)
    (hn : ∀ s : Search α, s.At bounds t n → ∃ rc, s.pass bounds = .inl rc) (hkn : k ≤ n)
    (hfuel : n < k + fuel) : ∃ rc j s', s.loop bounds fuel = some rc ∧ Search.At bounds t j s' ∧
      s'.pass bounds = .inl rc := by
  induction fuel generalizing k s with
  | zero => omega
  | succ fuel ih =>
    cases hpass : s.pass bounds with
    | inl rc => exact ⟨rc, k, s, by rw [Search.loop, hpass], h, hpass⟩
    | inr s' =>
      have hne : k ≠ n := by
        rintro rfl
        obtain ⟨rc, hrc⟩ := hn s h
        rw [hpass] at hrc
        cases hrc
      obtain ⟨rc, j, s'', hloop, hj⟩ := ih (h.pass hpass) (by omega) (by omega)
      exact ⟨rc, j, s'', by rw [Search.loop, hpass]; exact hloop, hj⟩

/-- What a return value says about the chain. -/
theorem Search.At.returned {k} {rc} (h : s.At bounds t k) (hpass : s.pass bounds = .inl rc) :
    rc = 0 ∧ ReachesEnd bounds t ∨ rc = -1 ∧ ¬ReachesEnd bounds t := by
  obtain ⟨t1, t2, steps, limit⟩ := s
  obtain ⟨rfl, hwait⟩ := h
  simp only [Search.pass] at hpass hwait
  rw [reachesEnd_iff]
  cases hk : chain bounds t k with
  | none =>
    simp only [hk, Sum.inl.injEq] at hpass
    exact .inl ⟨hpass.symm, k, hk⟩
  | some x =>
    simp only [hk] at hpass
    split_ifs at hpass with heq hmove
    subst heq
    refine .inr ⟨(Sum.inl.inj hpass).symm, fun ⟨m, hm⟩ => ?_⟩
    rcases hwait with ⟨-, rfl, hsteps, -⟩ | ⟨e, -, ht1, hle, -⟩
    · exact chain_ne_of_end hm (i := 0) (by omega) rfl hk
    · have := Nat.two_pow_pos e
      exact chain_ne_of_end hm (by omega) ht1 hk

variable [Fintype α]

/-- Where the loop has to end: at the end of the chain, or where the waiting pointer is on a cycle
and the other one comes around. -/
theorem exists_last_pass (bounds : α → Option α) (t : α) : ∃ n, 1 ≤ n ∧ n ≤ 3 * Fintype.card α + 1 ∧
      ∀ s : Search α, s.At bounds t n → ∃ rc, s.pass bounds = .inl rc := by
  by_cases hend : ∃ m ≤ Fintype.card α, chain bounds t m = none
  · obtain ⟨m, hle, hm⟩ := hend
    have hpos : m ≠ 0 := by
      rintro rfl
      cases hm
    refine ⟨m, by omega, by omega, fun s h => ⟨0, ?_⟩⟩
    rw [Search.pass, h.1, hm]
  · push Not at hend
    -- two of the first items are the same
    have hitem : ∀ i : Fin (Fintype.card α + 1), ∃ x, chain bounds t i = some x :=
      fun i => ne_none_iff_exists'.mp (hend i (by omega))
    choose item hitem using hitem
    obtain ⟨i, j, hne, heq⟩ := Fintype.exists_ne_map_eq_of_card_lt item (by simp)
    wlog hij : i < j generalizing i j
    · exact this j i hne.symm heq.symm (by omega)
    have hcycle : chain bounds t i = chain bounds t j := by rw [hitem, hitem, heq]
    have hM : 2 ≤ Fintype.card α + 1 := by
      have := Fintype.card_pos_iff.mpr ⟨t⟩
      omega
    have hlow := Nat.pow_log_le_self 2 (x := Fintype.card α + 1) (by omega)
    have hhigh := Nat.lt_pow_succ_log_self (b := 2) (by omega) (Fintype.card α + 1)
    have hlog := Nat.log_pos (b := 2) (by omega) hM
    generalize Nat.log 2 (Fintype.card α + 1) = l at hlow hhigh hlog
    refine ⟨2 ^ (l + 1) - 1 + (j - i), by omega, by omega, fun s h => ⟨-1, ?_⟩⟩
    obtain ⟨t1, t2, steps, limit⟩ := s
    obtain ⟨rfl, ⟨hk, -⟩ | ⟨e, he, ht1, hle, hlt, -⟩⟩ := h
    · have : 2 ^ 1 ≤ 2 ^ l := Nat.pow_le_pow_right (by omega) hlog
      omega
    · have hlt1 : 2 ^ e < 2 ^ (l + 2) := by rw [Nat.pow_succ]; omega
      have hlt2 : 2 ^ (l + 1) < 2 ^ (e + 1) := by rw [Nat.pow_succ 2 e]; omega
      have h1 := (Nat.pow_lt_pow_iff_right (by omega)).mp hlt1
      have h2 := (Nat.pow_lt_pow_iff_right (by omega)).mp hlt2
      obtain rfl : e = l + 1 := by omega
      have hround := chain_congr hcycle (2 ^ (l + 1) - 1 - i)
      rw [show (i : Nat) + (2 ^ (l + 1) - 1 - i) = 2 ^ (l + 1) - 1 by omega,
        show (j : Nat) + (2 ^ (l + 1) - 1 - i) = 2 ^ (l + 1) - 1 + (j - i) by omega, ht1] at hround
      simp [Search.pass, ← hround]

/-- With fewer than 2^29 items no pass leaves a value in `steps` or `limit` that an `int` cannot
hold. -/
theorem Search.counters_lt (hcard : Fintype.card α < 2 ^ 29)
    (h : Relation.ReflTransGen (fun s s' : Search α => s.pass bounds = .inr s')
      ⟨t, bounds t, 0, 2⟩ s) : s.steps < 2 ^ 31 ∧ s.limit < 2 ^ 31 := by
  obtain ⟨n, hpos, hn, hlast⟩ := exists_last_pass bounds t
  have hat : ∃ k ≤ n, s.At bounds t k := by
    induction h with
    | refl => exact ⟨1, hpos, rfl, .inl ⟨by omega, rfl, rfl, rfl⟩⟩
    | tail _ hpass ih =>
      obtain ⟨k, hk, hat⟩ := ih
      refine ⟨k + 1, Nat.lt_of_le_of_ne hk ?_, hat.pass hpass⟩
      rintro rfl
      obtain ⟨rc, hrc⟩ := hlast _ hat
      cases hrc.symm.trans hpass
  obtain ⟨k, hk, -, ⟨-, -, hsteps, hlimit⟩ | ⟨e, -, -, hle, -, hsteps, hlimit⟩⟩ := hat
  · omega
  · omega

/-- Within `3 * n + 1` passes for `n` items the loops return, and they accept exactly the chains
that come to an end. -/
theorem cilVerify_bounds (bounds : α → Option α) (dftlevel range : α → Bool) (t : α) (more : Nat) :
    Answers bounds t (cilVerifyType bounds (3 * Fintype.card α + 1 + more) t) ∧
      Answers bounds t (cilVerifyRole bounds (3 * Fintype.card α + 1 + more) t) ∧
      if dftlevel t && range t then Answers bounds t
          (cilVerifyUserPreEval bounds dftlevel range (3 * Fintype.card α + 1 + more) t)
      else cilVerifyUserPreEval bounds dftlevel range (3 * Fintype.card α + 1 + more) t =
        some (-1) := by
  have hloop :
      Answers bounds t
        (Search.loop bounds (3 * Fintype.card α + 1 + more) ⟨t, bounds t, 0, 2⟩) := by
    obtain ⟨n, hpos, hn, hlast⟩ := exists_last_pass bounds t
    have hstart : Search.At bounds t 1 ⟨t, bounds t, 0, 2⟩ := ⟨rfl, .inl ⟨by omega, rfl, rfl, rfl⟩⟩
    obtain ⟨rc, j, s', hrc, hat, hpass⟩ := hstart.loop hlast hpos
      (show n < 1 + (3 * Fintype.card α + 1 + more) by omega)
    rw [hrc, Answers, some.injEq, some.injEq]
    exact hat.returned hpass
  refine ⟨hloop, hloop, ?_⟩
  rw [cilVerifyUserPreEval]
  cases dftlevel t <;> cases range t <;>
    simp only [Bool.not_false, Bool.not_true, if_true, Bool.and_false,
    Bool.false_and, Bool.and_self, Bool.false_eq_true, if_false]
  split_ifs with hsome
  · exact hloop
  · exact .inl ⟨rfl, 0, t, rfl, by simpa using hsome⟩

end SELinux.Cil
