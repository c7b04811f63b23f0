import SELinux.Lib.CString

/-!
# Contexts as text

`context_new` of libselinux splits a context at its colons, and `context_str` puts it together
again. Whether a text is accepted is decided by a pass of its own that counts the colons. -/

namespace SELinux.Label

open Lib (CString)
open List

/-- The colon between two components. -/
def colon : BitVec 8 := 0x3a

/-- The first pass of `context_new`: the number of colons, unless a character is refused. Blanks are
allowed behind the third colon. -/
def countColons (count : Nat) : List (BitVec 8) → Option Nat
  | [] => some count
  | c :: cs =>
    if c = colon then countColons (count + 1) cs
    else if c = 0x0a ∨ c = 0x09 ∨ c = 0x0d then none
    else if c = 0x20 ∧ count < 3 then none
    else countColons count cs

/-- The text passes the checks. -/
def checked (str : List (BitVec 8)) : Bool :=
  (countColons 0 str).any fun count => 2 ≤ count && count ≤ 5

/-- The second pass: this many components end at a colon, and one more has the rest of the text. The
loop ends where no text is left. -/
def components : Nat → List (BitVec 8) → List (List (BitVec 8))
  | _, [] => []
  | 0, tok => [tok]
  | left + 1, tok =>
    tok.takeWhile (· ≠ colon) :: components left ((tok.dropWhile (· ≠ colon)).drop 1)

/-- `context_private_t`: user, role, type and range. -/
structure ContextPrivate where
  component : Fin 4 → Option (List (BitVec 8))

def contextNew (str : CString) : Option ContextPrivate :=
  if checked str.bytes then some ⟨fun i => (components 3 str.bytes)[i.val]?⟩ else none

/-- `context_str`. The user is copied without a check. -/
def contextStr (n : ContextPrivate) : Option (List (BitVec 8)) :=
  (n.component 0).map fun user =>
    user ++ [1, 2, 3].flatMap fun i => ((n.component i).map (colon :: ·)).getD []

/-! ## The two passes -/

theorem eq_count_of_countColons {str : List (BitVec 8)} {count total : Nat}
    (h : countColons count str = some total) : total = count + str.count colon := by
  induction str generalizing count with
  | nil => simpa [countColons] using h.symm
  | cons c cs ih =>
    rw [countColons] at h
    split_ifs at h with hcolon
    · rw [ih h, hcolon, count_cons_self]
      omega
    · rw [ih h, count_cons_of_ne hcolon]

/-- The colon at the end of the text is the end of a component, and no component comes after it. -/
def LosesLast (left : Nat) (tok : List (BitVec 8)) : Prop :=
  tok.getLast? = some colon ∧ tok.count colon ≤ left

/-- The components with colons between them. -/
def joined : List (List (BitVec 8)) → List (BitVec 8)
  | [] => []
  | [c] => c
  | c :: cs => c ++ colon :: joined cs

theorem splits_at_colon (tok : List (BitVec 8)) :
    (colon ∉ tok ∧ tok.takeWhile (· ≠ colon) = tok ∧ tok.dropWhile (· ≠ colon) = []) ∨
      ∃ w r, tok = w ++ colon :: r ∧ colon ∉ w ∧ tok.takeWhile (· ≠ colon) = w ∧
        tok.dropWhile (· ≠ colon) = colon :: r := by
  have hw : colon ∉ tok.takeWhile (· ≠ colon) := fun h => by simpa using mem_takeWhile_imp h
  have htok := takeWhile_append_dropWhile (p := (· ≠ colon)) (l := tok)
  cases hr : tok.dropWhile (· ≠ colon) with
  | nil =>
    rw [hr, append_nil] at htok
    exact .inl ⟨htok ▸ hw, htok, rfl⟩
  | cons c r =>
    have hc : c = colon := by
      have := head?_dropWhile_not (fun c => decide (c ≠ colon)) tok
      rw [hr] at this
      simpa using this
    subst hc
    rw [hr] at htok
    exact .inr ⟨_, r, htok.symm, hw, rfl, rfl⟩

theorem components_ne_nil {left tok} (h : tok ≠ []) : components left tok ≠ [] := by
  cases tok with
  | nil => exact absurd rfl h
  | cons c cs => cases left <;> simp [components]

theorem joined_cons {c cs} (h : cs ≠ []) : joined (c :: cs) = c ++ colon :: joined cs := by
  cases cs with
  | nil => exact absurd rfl h
  | cons d ds => rfl

/-- What the second pass finds in a text. -/
theorem components_spec (left : Nat) {tok : List (BitVec 8)} (h : tok ≠ []) :
    (LosesLast left tok → joined (components left tok) ++ [colon] = tok ∧
      (components left tok).length = tok.count colon) ∧
    (¬LosesLast left tok → joined (components left tok) = tok ∧
      (components left tok).length = min left (tok.count colon) + 1) := by
  induction left generalizing tok with
  | zero =>
    have hcomponents : components 0 tok = [tok] := by
      cases tok with
      | nil => exact absurd rfl h
      | cons c cs => rfl
    refine ⟨fun hloses => ?_, fun _ => by simp [hcomponents, joined]⟩
    have hmem := mem_of_getLast? hloses.1
    have := count_pos_iff.mpr hmem
    have := hloses.2
    omega
  | succ left ih =>
    have hcomponents : components (left + 1) tok =
        tok.takeWhile (· ≠ colon) :: components left ((tok.dropWhile (· ≠ colon)).drop 1) := by
      cases tok with
      | nil => exact absurd rfl h
      | cons c cs => rfl
    rcases splits_at_colon tok with ⟨hnone, htake, hdrop⟩ | ⟨w, r, htok, hw, htake, hdrop⟩
    · -- no colon is left: the whole text is the component
      refine ⟨fun hloses => absurd (mem_of_getLast? hloses.1) hnone, fun _ => ?_⟩
      rw [hcomponents, htake, hdrop]
      simp [components, joined, count_eq_zero.mpr hnone]
    rw [hcomponents, htake, hdrop, drop_one, tail_cons]
    have hcount : tok.count colon = r.count colon + 1 := by
      rw [htok, count_append, count_eq_zero.mpr hw, count_cons_self]
      omega
    cases hr : r with
    | nil =>
      -- the loop ends behind the colon
      subst hr
      have hloses : LosesLast (left + 1) tok := by
        refine ⟨by simp [htok], by rw [hcount]; simp⟩
      refine ⟨fun _ => ?_, fun hnot => absurd hloses hnot⟩
      rw [hcount]
      simp [components, joined, htok]
    | cons d ds =>
      have hne : r ≠ [] := by simp [hr]
      rw [← hr]
      have hlast : tok.getLast? = r.getLast? := by
        rw [htok, getLast?_append, getLast?_cons_of_ne_nil hne]
        cases hget : r.getLast? with
        | none => exact absurd (getLast?_eq_none_iff.mp hget) hne
        | some x => rfl
      have hloses : LosesLast (left + 1) tok ↔ LosesLast left r := by
        rw [LosesLast, LosesLast, hlast, hcount]
        simp
      rw [hloses, joined_cons (components_ne_nil hne)]
      obtain ⟨hyes, hno⟩ := ih hne
      refine ⟨fun hl => ?_, fun hl => ?_⟩
      · obtain ⟨hjoined, hlength⟩ := hyes hl
        refine ⟨?_, by rw [length_cons, hlength, hcount]⟩
        rw [append_assoc, cons_append, hjoined, htok]
      · obtain ⟨hjoined, hlength⟩ := hno hl
        refine ⟨by rw [hjoined, htok], ?_⟩
        rw [length_cons, hlength, hcount]
        omega

theorem length_components_le (left : Nat) (tok : List (BitVec 8)) :
    (components left tok).length ≤ left + 1 := by
  induction left generalizing tok with
  | zero => cases tok <;> simp [components]
  | succ left ih =>
    cases tok with
    | nil => simp [components]
    | cons c cs =>
      have := ih (((c :: cs).dropWhile (· ≠ colon)).drop 1)
      simp only [components, length_cons]
      omega

/-- `context_str` writes the components that there are. -/
theorem contextStr_components {cs : List (List (BitVec 8))} (hne : cs ≠ [])
    (hlength : cs.length ≤ 4) : contextStr ⟨fun i => cs[i.val]?⟩ = some (joined cs) := by
  match cs, hne, hlength with
  | [a], _, _ => simp [contextStr, joined]
  | [a, b], _, _ => simp [contextStr, joined]
  | [a, b, c], _, _ => simp [contextStr, joined]
  | [a, b, c, d], _, _ => simp [contextStr, joined]

/-! ## The round trip -/

/-- A text that is accepted has all components but the range, and is written as it was. -/
def RoundTrips (str : CString) : Prop :=
  ∀ n, contextNew str = some n →
    ((n.component 0).isSome ∧ (n.component 1).isSome ∧ (n.component 2).isSome) ∧
      contextStr n = some str.bytes

/-- Accepted texts make the round trip unless their second or third colon is at the end, and a text
with less than three components is not accepted. -/
theorem contextNew_roundTrips_iff (str : CString) : (RoundTrips str ↔
      (checked str.bytes = true → str.bytes.getLast? = some colon → 3 < str.bytes.count colon)) ∧
      (str.bytes.count colon + 1 < 3 → contextNew str = none) := by
  have hcount : checked str.bytes = true → 2 ≤ str.bytes.count colon := by
    intro h
    obtain ⟨total, htotal, hbounds⟩ := by simpa [checked, Option.any_eq_true] using h
    have := eq_count_of_countColons htotal
    omega
  constructor
  · by_cases hchecked : checked str.bytes = true
    · have hne : str.bytes ≠ [] := by
        intro hnil
        have := hcount hchecked
        simp [hnil] at this
      have hloses : (str.bytes.getLast? = some colon → 3 < str.bytes.count colon) ↔
          ¬LosesLast 3 str.bytes := by
        rw [LosesLast, not_and, Nat.not_le]
      obtain ⟨hyes, hno⟩ := components_spec 3 hne
      have hstr := contextStr_components (@components_ne_nil 3 _ hne) (length_components_le 3 _)
      simp only [RoundTrips, contextNew, hchecked, if_true, Option.some.injEq, forall_eq',
        true_implies, hloses]
      rw [hstr, Option.some.injEq]
      constructor
      · rintro ⟨-, hjoined⟩ hl
        have := congrArg length (hyes hl).1
        rw [hjoined, length_append] at this
        simp at this
      · intro hl
        obtain ⟨hjoined, hlength⟩ := hno hl
        have := hcount hchecked
        refine ⟨?_, hjoined⟩
        have hlong : 3 ≤ (components 3 str.bytes).length := by omega
        simp only [isSome_getElem?]
        exact ⟨show 0 < _ by omega, show 1 < _ by omega, show 2 < _ by omega⟩
    · simp [RoundTrips, contextNew, hchecked]
  · intro hfew
    have hchecked : checked str.bytes ≠ true := fun h => by
      have := hcount h
      omega
    rw [contextNew, if_neg hchecked]

/-- A context with an empty type is accepted and written without it. -/
theorem contextNew_empty_type :
    (contextNew (.ofString "u:r:")).map (fun n => (n.component 2, contextStr n)) =
        some (none, some (CString.ofString "u:r").bytes) ∧ ¬RoundTrips (.ofString "u:r:") := by
  refine ⟨by decide +kernel, fun h => ?_⟩
  have hsome := (h _ (if_pos (by decide +kernel))).1.2.2
  exact absurd hsome (by decide +kernel)

end SELinux.Label
