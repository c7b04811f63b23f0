import Mathlib.Data.List.Basic
import SELinux.Lib.Loop

/-!
# Declared and required symbols

A symbol is put into a symbol table of a policy together with the block that declares or requires it
(`symtab_insert` in `policydb.c`). The blocks of a symbol are kept in a list, and `is_id_enabled`
takes the last one for the block that declares the symbol. -/

namespace SELinux.Sepol

open List Function

/-! ## Model -/

inductive Scope where
  | req
  | decl
  deriving DecidableEq

/-- `scope_datum_t`. -/
structure ScopeDatum where
  scope : Scope
  declIds : List Nat
  deriving DecidableEq

inductive SymNum where
  | commons
  | classes
  | roles
  | types
  | users
  | bools
  | levels
  | cats
  deriving DecidableEq

inductive RoleFlavor where
  | role
  | attrib
  deriving DecidableEq

/-- One of the symbol tables of a policy, with the table of scopes that belongs to it. -/
structure ScopedSymtab (κ δ : Type) where
  table : κ → Option δ
  nprim : Nat
  scope : κ → Option ScopeDatum

/-- The arguments of a call. There is a place for a value if the symbol is primary. The last three
say which memory can be had. -/
structure SymtabCall (κ δ : Type) where
  key : κ
  datum : δ
  scope : Scope
  declId : Nat
  primary : Bool := true
  symbolMem : Bool := true
  scopeMem : Bool := true
  idsMem : Bool := true

/-- `-ENOMEM`. -/
def rcNomem : Int := -12

theorem rcNomem_neg : rcNomem < 0 := by decide

/-- The last two entries of a list change places. -/
def swapLast (ids : List Nat) : List Nat :=
  let len := ids.length
  let tmp := ids.getD (len - 2) 0
  (ids.set (len - 2) (ids.getD (len - 1) 0)).set (len - 1) tmp

variable {κ δ : Type}

/-- The block is added to the list of a symbol, at the end or, if it only requires a symbol that
another one declares, before the end. -/
def addDeclId (d : ScopeDatum) (c : SymtabCall κ δ) (retval : Int) : ScopeDatum × Int :=
  if d.declIds.contains c.declId then (d, retval)
  else if c.idsMem = false then (d, rcNomem)
  else
    let ids := d.declIds ++ [c.declId]
    if d.scope = .decl ∧ c.scope = .req then
      if ids.length < 2 then ({ d with declIds := ids }, -1)
      else ({ d with declIds := swapLast ids }, retval)
    else ({ d with declIds := ids }, retval)

/-- The scope of a symbol after a call. With `clash` the symbol must not be declared again. -/
def insertScope (clash : Bool) (c : SymtabCall κ δ) (retval : Int) :
    Option ScopeDatum → Option ScopeDatum × Int
  | none =>
    if c.scopeMem = false then (none, rcNomem)
    else
      let (d, rc) := addDeclId { scope := c.scope, declIds := [] } c retval
      (some d, rc)
  | some d =>
    if d.scope = .decl ∧ c.scope = .decl ∧ clash = true then (some d, -2)
    else
      let d := if d.scope = .req ∧ c.scope = .decl then { d with scope := .decl } else d
      let (d, rc) := addDeclId d c retval
      (some d, rc)

/-- Whether a second declaration is refused: only users and plain roles can have several. -/
def SymNum.clashes (sym : SymNum) (flavor : δ → RoleFlavor) (base : Option δ) (cur : δ) : Bool :=
  match sym with
  | .users => false
  | .roles => !(decide (base.map flavor = some .role) && decide (flavor cur = .role))
  | _ => true

section Insert

variable [DecidableEq κ]

section

variable (sym : SymNum) (flavor : δ → RoleFlavor) (st : ScopedSymtab κ δ) (c : SymtabCall κ δ)

/-- The part of the call that is concerned with the scope, when the symbol is in its table. -/
def symtabScope (retval : Int) (value : Option Nat) : ScopedSymtab κ δ × Int × Option Nat :=
  let found := insertScope (sym.clashes flavor (st.table c.key) c.datum) c retval (st.scope c.key)
  ({ st with scope := update st.scope c.key found.1 }, found.2, value)

/-- `symtab_insert`: the tables, the result, and the value that is written. -/
def symtabInsert : ScopedSymtab κ δ × Int × Option Nat :=
  match st.table c.key with
  | some _ => symtabScope sym flavor st c 1 none
  | none =>
    if c.symbolMem = false then (st, rcNomem, none)
    else
      let nprim := if c.primary then st.nprim + 1 else st.nprim
      symtabScope sym flavor
        { st with table := update st.table c.key (some c.datum), nprim := nprim } c 0
        (if c.primary then some nprim else none)

/-- `is_id_enabled`; `enabled` tells of a block whether it is there and enabled. -/
def isIdEnabled (enabled : Nat → Bool) (id : κ) : Bool :=
  match st.scope id with
  | none => false
  | some d =>
    if d.scope ≠ .decl then false
    else if d.declIds.length < 1 then false
    else if sym = .roles ∨ sym = .users then d.declIds.any enabled
    else enabled (d.declIds.getD (d.declIds.length - 1) 0)

/-! ## Runs -/

/-- The tables after some calls, and the calls with their results. -/
def symtabRun (calls : List (SymtabCall κ δ)) : ScopedSymtab κ δ × List (SymtabCall κ δ × Int) :=
  calls.foldl
    (fun run c =>
      let r := symtabInsert sym flavor run.1 c
      (r.1, run.2 ++ [(c, r.2.1)]))
    (st, [])

/-- The blocks that declared a symbol with success. -/
def declarers (key : κ) (history : List (SymtabCall κ δ × Int)) : List Nat :=
  (history.filter fun h =>
    decide (h.1.key = key) && decide (h.1.scope = .decl) && decide (0 ≤ h.2)).map
    fun h => h.1.declId

/-- A symbol that counts as declared was declared by one block, which is at the end of its list. -/
def DeclarerLast (key : κ) (st : ScopedSymtab κ δ) (history : List (SymtabCall κ δ × Int)) : Prop :=
  ∀ d, st.scope key = some d → d.scope = .decl →
    ∃ id, declarers key history = [id] ∧ d.declIds.getLast? = some id

/-- The block of a declaration will be at the end of the list: it is not on the list before and
there is memory to add it, or it is at the end already. -/
def IdentifiesIn : Option ScopeDatum → Prop
  | none => c.scopeMem = true → c.idsMem = true
  | some d => d.scope = .req →
    if c.declId ∈ d.declIds then d.declIds.getLast? = some c.declId else c.idsMem = true

/-- The call does not turn a symbol into a declared one, or has its block at the end of the list. -/
def SymtabCall.Identifies (st : ScopedSymtab κ δ) : Prop :=
  c.scope = .decl → (st.table c.key ≠ none ∨ c.symbolMem = true) → IdentifiesIn c (st.scope c.key)

end

end Insert

/-! ## One call -/

theorem swapLast_concat (ids : List Nat) (x y : Nat) :
    swapLast (ids ++ [x] ++ [y]) = ids ++ [y] ++ [x] := by
  simp [swapLast]

theorem addDeclId_scope (d : ScopeDatum) (c : SymtabCall κ δ) (retval : Int) :
    (addDeclId d c retval).1.scope = d.scope := by
  unfold addDeclId
  dsimp only
  split_ifs <;> rfl

variable {d : ScopeDatum} {c : SymtabCall κ δ}

theorem addDeclId_req {x : Nat} (retval : Int) (hd : d.scope = .decl)
    (hc : c.scope = .req) (hx : d.declIds.getLast? = some x) :
    (addDeclId d c retval).1.declIds.getLast? = some x := by
  obtain ⟨ids, hids⟩ := getLast?_eq_some_iff.mp hx
  unfold addDeclId
  dsimp only
  split_ifs with hmem hids' hscope hlen
  · exact hx
  · exact hx
  · rw [hids] at hlen
    simp only [length_append, length_singleton] at hlen
    omega
  · rw [hids, swapLast_concat]
    simp
  · exact absurd ⟨hd, hc⟩ hscope

theorem addDeclId_decl {retval : Int} (hretval : 0 ≤ retval) (hc : c.scope = .decl) :
    (0 ≤ (addDeclId d c retval).2 ∧ (addDeclId d c retval).1.declIds.getLast? = some c.declId) ↔
      if c.declId ∈ d.declIds then d.declIds.getLast? = some c.declId else c.idsMem = true := by
  unfold addDeclId
  by_cases hmem : c.declId ∈ d.declIds
  · simp [hretval, hmem]
  · rw [if_neg (fun h => hmem (contains_iff_mem.mp h)), if_neg hmem]
    have hscope : ¬(d.scope = .decl ∧ c.scope = .req) := by
      simp [hc]
    rw [if_neg hscope]
    cases c.idsMem with
    | false => simp [rcNomem]
    | true => simp [hretval]

section Step

variable {retval : Int} {old : Option ScopeDatum}

theorem insertScope_req (retval : Int) (old : Option ScopeDatum) (hc : c.scope = .req) :
    (∀ d, old = some d → d.scope = .decl → ∃ d', (insertScope true c retval old).1 = some d' ∧
      d'.scope = .decl ∧ ∀ x, d.declIds.getLast? = some x → d'.declIds.getLast? = some x) ∧
    ((∀ d, old = some d → d.scope = .req) →
      ∀ d', (insertScope true c retval old).1 = some d' → d'.scope = .req) := by
  have hne : c.scope ≠ .decl := by simp [hc]
  cases old with
  | none =>
    refine ⟨fun d hd => (nomatch hd), fun _ d' hd' => ?_⟩
    simp only [insertScope] at hd'
    split_ifs at hd'
    cases hd'
    rw [addDeclId_scope, hc]
  | some d =>
    have hnew : (insertScope true c retval (some d)).1 = some (addDeclId d c retval).1 := by
      simp [insertScope, hne]
    rw [hnew]
    constructor
    · intro d0 hd0 hd
      cases hd0
      exact ⟨_, rfl, by rw [addDeclId_scope, hd], fun x hx => addDeclId_req retval hd hc hx⟩
    · simp [addDeclId_scope]

/-- A declared symbol is not declared again. -/
theorem insertScope_again (hd : d.scope = .decl) (hc : c.scope = .decl) :
    insertScope true c retval (some d) = (some d, -2) := by
  simp [insertScope, hd, hc]

theorem insertScope_decl (hretval : 0 ≤ retval) (hc : c.scope = .decl)
    (hold : ∀ d, old = some d → d.scope = .req) :
    (insertScope true c retval old = (none, rcNomem) ∧ IdentifiesIn c old) ∨
    ∃ d', (insertScope true c retval old).1 = some d' ∧ d'.scope = .decl ∧
      ((0 ≤ (insertScope true c retval old).2 ∧ d'.declIds.getLast? = some c.declId) ↔
        IdentifiesIn c old) := by
  cases old with
  | none =>
    cases hmem : c.scopeMem with
    | false => simp [insertScope, hmem, IdentifiesIn]
    | true =>
      have hiff := addDeclId_decl (d := { scope := c.scope, declIds := [] }) hretval hc
      refine .inr ⟨(addDeclId { scope := c.scope, declIds := [] } c retval).1, ?_, ?_, ?_⟩
      · simp [insertScope, hmem]
      · rw [addDeclId_scope, hc]
      · simpa [insertScope, hmem, IdentifiesIn] using hiff
  | some d =>
    have hd := hold d rfl
    have hiff := addDeclId_decl (d := { d with scope := .decl }) hretval hc
    refine .inr ⟨(addDeclId { d with scope := .decl } c retval).1, ?_, ?_, ?_⟩
    · simp [insertScope, hd, hc]
    · rw [addDeclId_scope]
    · simpa [insertScope, hd, hc, IdentifiesIn] using hiff

end Step

section Runs

variable [DecidableEq κ] {sym : SymNum} {flavor : δ → RoleFlavor} {st : ScopedSymtab κ δ} {key : κ}

theorem symtabInsert_cases (sym : SymNum) (flavor : δ → RoleFlavor) (st : ScopedSymtab κ δ)
    (c : SymtabCall κ δ) : (¬(st.table c.key ≠ none ∨ c.symbolMem = true) ∧
      symtabInsert sym flavor st c = (st, rcNomem, none)) ∨
    ((st.table c.key ≠ none ∨ c.symbolMem = true) ∧ ∃ retval base : _, (retval = 0 ∨ retval = 1) ∧
      (symtabInsert sym flavor st c).1.scope = update st.scope c.key
        (insertScope (sym.clashes flavor base c.datum) c retval (st.scope c.key)).1 ∧
      (symtabInsert sym flavor st c).2.1 =
        (insertScope (sym.clashes flavor base c.datum) c retval (st.scope c.key)).2) := by
  unfold symtabInsert
  cases htable : st.table c.key with
  | some base => exact .inr ⟨.inl (by simp), 1, _, .inr rfl, rfl, rfl⟩
  | none =>
    cases hmem : c.symbolMem with
    | false => exact .inl ⟨by simp, by simp⟩
    | true => exact .inr ⟨.inr rfl, 0, _, .inl rfl, rfl, rfl⟩

theorem SymNum.clashes_eq_true (hroles : sym ≠ .roles) (husers : sym ≠ .users) (base : Option δ)
    (cur : δ) : sym.clashes flavor base cur = true := by
  cases sym <;> first | rfl | exact absurd rfl hroles | exact absurd rfl husers

/-- The result for a second declaration, and what it leaves. -/
theorem symtabInsert_refused (h : (symtabInsert sym flavor st c).2.1 = -2) :
    (symtabInsert sym flavor st c).1.scope = st.scope := by
  have hadd (d : ScopeDatum) (retval : Int) (hretval : retval = 0 ∨ retval = 1) :
      (addDeclId d c retval).2 ≠ -2 := by
    unfold addDeclId
    dsimp only
    split_ifs <;> rcases hretval with rfl | rfl <;> simp [rcNomem]
  rcases symtabInsert_cases sym flavor st c with ⟨-, heq⟩ | ⟨-, retval, base, hretval, hscope, hrc⟩
  · rw [heq]
  · rw [hscope]
    rw [hrc] at h
    have hsame : (insertScope (sym.clashes flavor base c.datum) c retval (st.scope c.key)).1 =
        st.scope c.key := by
      cases hold : st.scope c.key with
      | none =>
        rw [hold] at h
        simp only [insertScope] at h ⊢
        split_ifs at h ⊢
        · rfl
        · exact absurd h (hadd _ _ hretval)
      | some d =>
        rw [hold] at h
        simp only [insertScope] at h ⊢
        split_ifs at h ⊢
        · rfl
        · exact absurd h (hadd _ _ hretval)
        · exact absurd h (hadd _ _ hretval)
    rw [hsame, update_eq_self]

/-- What a call does to a symbol. -/
theorem symtabInsert_step (flavor : δ → RoleFlavor) (st : ScopedSymtab κ δ) (c : SymtabCall κ δ)
    (hroles : sym ≠ .roles) (husers : sym ≠ .users) (key : κ) :
    ((symtabInsert sym flavor st c).1.scope key = st.scope key ∧
      (c.key = key → (c.scope = .decl → (symtabInsert sym flavor st c).2.1 < 0) ∧
        c.Identifies st)) ∨ (c.key = key ∧ c.scope = .req ∧ ∃ retval,
      (symtabInsert sym flavor st c).1.scope key = (insertScope true c retval (st.scope key)).1) ∨
    (c.key = key ∧ c.scope = .decl ∧ (∀ d, st.scope key = some d → d.scope = .req) ∧
      ∃ d', (symtabInsert sym flavor st c).1.scope key = some d' ∧ d'.scope = .decl ∧
        ((0 ≤ (symtabInsert sym flavor st c).2.1 ∧ d'.declIds.getLast? = some c.declId) ↔
          c.Identifies st)) := by
  rcases symtabInsert_cases sym flavor st c with ⟨hreach, heq⟩ | ⟨hreach, retval, base, hretval,
    hscope, hrc⟩
  · -- no memory for the symbol
    refine .inl ⟨by rw [heq], fun _ => ⟨fun _ => ?_, fun _ h => absurd h hreach⟩⟩
    rw [heq]
    exact rcNomem_neg
  rw [SymNum.clashes_eq_true hroles husers] at hscope hrc
  by_cases hkey : c.key = key
  · subst hkey
    have hidentifies : c.scope = .decl → (c.Identifies st ↔ IdentifiesIn c (st.scope c.key)) :=
      fun hc =>
      ⟨fun h => h hc hreach, fun h _ _ => h⟩
    have hnonneg : 0 ≤ retval := by omega
    rw [hscope, update_self, hrc]
    cases hc : c.scope with
    | req => exact .inr (.inl ⟨rfl, rfl, retval, rfl⟩)
    | decl =>
      rw [hidentifies hc]
      by_cases hold : ∀ d, st.scope c.key = some d → d.scope = .req
      · rcases insertScope_decl hnonneg hc hold with ⟨hnone, hid⟩ | ⟨d', hd', hdecl, hiff⟩
        · refine .inl ⟨?_, fun _ => ⟨fun _ => by rw [hnone]; exact rcNomem_neg, hid⟩⟩
          rw [hnone]
          cases hst : st.scope c.key with
          | none => rfl
          | some d =>
            rw [hst] at hnone
            simp [insertScope, hold d hst] at hnone
        · simp_all
      · -- the symbol is declared already
        push Not at hold
        obtain ⟨d, hst, hne⟩ := hold
        have hd : d.scope = .decl := by
          cases hscope' : d.scope with
          | req => exact absurd hscope' hne
          | decl => rfl
        rw [hst, insertScope_again hd hc]
        exact .inl ⟨rfl, fun _ => ⟨fun _ => Int.negSucc_lt_zero 1, fun hreq => absurd hreq hne⟩⟩
  · exact .inl ⟨by rw [hscope, update_of_ne (Ne.symm hkey)], fun h => absurd h hkey⟩

theorem declarers_concat (key : κ) (history : List (SymtabCall κ δ × Int)) (c : SymtabCall κ δ)
    (rc : Int) : declarers key (history ++ [(c, rc)]) = declarers key history ++
      if c.key = key ∧ c.scope = .decl ∧ 0 ≤ rc then [c.declId] else [] := by
  rw [declarers, filter_append, map_append, declarers]
  by_cases h : c.key = key ∧ c.scope = .decl ∧ 0 ≤ rc
  · simp [h]
  · rw [if_neg h]
    simpa [and_assoc] using h

/-- A symbol that does not count as declared was not declared. -/
def Undeclared (key : κ) (st : ScopedSymtab κ δ) (history : List (SymtabCall κ δ × Int)) : Prop :=
  (∀ d, st.scope key = some d → d.scope = .req) → declarers key history = []

variable {history : List (SymtabCall κ δ × Int)}

theorem Undeclared.step (hroles : sym ≠ .roles) (husers : sym ≠ .users)
    (h : Undeclared key st history) : Undeclared key (symtabInsert sym flavor st c).1
      (history ++ [(c, (symtabInsert sym flavor st c).2.1)]) := by
  intro hafter
  rw [declarers_concat]
  rcases symtabInsert_step flavor st c hroles husers key with
    ⟨hsame, hkey⟩ | ⟨-, hc, retval, hnew⟩ | ⟨-, -, -, d', hd', hdecl, -⟩
  · rw [hsame] at hafter
    rw [h hafter, if_neg, append_nil]
    exact fun hc => Int.not_lt.mpr hc.2.2 ((hkey hc.1).1 hc.2.1)
  · have hbefore : ∀ d, st.scope key = some d → d.scope = .req := by
      intro d hd
      cases hscope : d.scope with
      | req => rfl
      | decl =>
        obtain ⟨d', hd', hdecl, -⟩ := (insertScope_req retval _ hc).1 d hd hscope
        simp_all
    simp [h hbefore, hc]
  · rw [hafter d' hd'] at hdecl
    cases hdecl

theorem DeclarerLast.step_iff (hroles : sym ≠ .roles) (husers : sym ≠ .users)
    (hundeclared : Undeclared key st history) (h : DeclarerLast key st history) :
    DeclarerLast key (symtabInsert sym flavor st c).1
      (history ++ [(c, (symtabInsert sym flavor st c).2.1)]) ↔ (c.key = key → c.Identifies st) := by
  rw [DeclarerLast, declarers_concat]
  rcases symtabInsert_step flavor st c hroles husers key with
    ⟨hsame, hkey⟩ | ⟨hk, hc, retval, hnew⟩ | ⟨hk, hc, hreq, d', hd', hdecl, hiff⟩
  · rw [hsame, if_neg, append_nil]
    · exact iff_of_true h fun hk => (hkey hk).2
    · exact fun hc => Int.not_lt.mpr hc.2.2 ((hkey hc.1).1 hc.2.1)
  · have hne : c.scope ≠ .decl := by simp [hc]
    rw [if_neg fun hcond => hne hcond.2.1, append_nil]
    refine iff_of_true ?_ fun _ hdecl => absurd hdecl hne
    intro d' hd' hdecl'
    cases hscope : st.scope key with
    | none =>
      have hreq := (insertScope_req retval (st.scope key) hc).2 (by simp [hscope]) d'
        (hnew.symm.trans hd')
      rw [hdecl'] at hreq
      cases hreq
    | some d =>
      cases hd : d.scope with
      | req =>
        have hreq := (insertScope_req retval (st.scope key) hc).2
          (by simp [hscope, hd]) d' (hnew.symm.trans hd')
        rw [hdecl'] at hreq
        cases hreq
      | decl =>
        obtain ⟨d1, hd1, -, hlast⟩ := (insertScope_req retval _ hc).1 d hscope hd
        cases (hnew.symm.trans hd').symm.trans hd1
        obtain ⟨id, hdeclarers, hid⟩ := h d hscope hd
        exact ⟨id, hdeclarers, hlast id hid⟩
  · rw [hundeclared hreq, nil_append]
    constructor
    · intro hafter _
      obtain ⟨id, hdeclarers, hid⟩ := hafter d' hd' hdecl
      split_ifs at hdeclarers with hcond
      · cases hdeclarers
        exact hiff.mp ⟨hcond.2.2, hid⟩
    · intro hid d hd _
      simp_all

/-! ## All calls -/

/-- Through all calls the block that declared a symbol is at the end of the list of the symbol, if
and only if each call that turns it into a declared one leaves its block there. A refused
declaration changes nothing. -/
theorem declarerLast_iff (sym : SymNum) (hroles : sym ≠ .roles) (husers : sym ≠ .users)
    (flavor : δ → RoleFlavor)
    (st : ScopedSymtab κ δ) (key : κ) (hst : st.scope key = none) (calls : List (SymtabCall κ δ)) :
    ((∀ calls1, calls1 <+: calls →
        DeclarerLast key (symtabRun sym flavor st calls1).1 (symtabRun sym flavor st calls1).2) ∧
      ∀ calls1 c, calls1 ++ [c] <+: calls →
        (symtabInsert sym flavor (symtabRun sym flavor st calls1).1 c).2.1 = -2 →
        (symtabInsert sym flavor (symtabRun sym flavor st calls1).1 c).1.scope =
          (symtabRun sym flavor st calls1).1.scope) ↔
    ∀ calls1 c, calls1 ++ [c] <+: calls → c.key = key →
      c.Identifies (symtabRun sym flavor st calls1).1 := by
  rw [and_iff_left fun _ _ _ => symtabInsert_refused]
  refine Lib.foldl_prefixes_iff (s := (st, []))
    (I := fun run : ScopedSymtab κ δ × List (SymtabCall κ δ × Int) => Undeclared key run.1 run.2)
    (P := fun run => DeclarerLast key run.1 run.2)
    (Q := fun run (c : SymtabCall κ δ) => c.key = key → c.Identifies run.1)
    (fun run c h => Undeclared.step hroles husers h)
    (fun run c hI hP => DeclarerLast.step_iff hroles husers hI hP) ?_ ?_
  · exact fun _ => rfl
  · intro d hd
    rw [hst] at hd
    cases hd

end Runs

/-! Calls for one type. -/

/-- A call for the only symbol of a table. -/
def unitCall (scope : Scope) (declId : Nat) : SymtabCall Unit Unit :=
  { key := (), datum := (), scope := scope, declId := declId }

def unitSymtab : ScopedSymtab Unit Unit :=
  { table := fun _ => none, nprim := 0, scope := fun _ => none }

/-- Block 1 requires a type, block 2 requires it, and block 1 declares it: block 2 is taken for the
block that declares it. -/
theorem declarer_not_last :
    let run := symtabRun .types (fun _ => .role) unitSymtab
      [unitCall .req 1, unitCall .req 2, unitCall .decl 1]
    run.1.scope () = some { scope := .decl, declIds := [1, 2] } ∧ declarers () run.2 = [1] ∧
      isIdEnabled .types run.1 (fun id => decide (id = 1)) () = false := by
  decide

/-- The type is required, declared by block 2, and required again. -/
def declaredOnce : List (SymtabCall Unit Unit) :=
  [unitCall .req 1, unitCall .decl 2, unitCall .req 3]

theorem declarerLast_iff_declaredOnce :
    DeclarerLast () (symtabRun .types (fun _ => .role) unitSymtab declaredOnce).1
    (symtabRun .types (fun _ => .role) unitSymtab declaredOnce).2 := by
  refine ((declarerLast_iff .types (by decide) (by decide)
    (fun _ => .role) unitSymtab () rfl declaredOnce).mpr
    fun calls1 c h _ => ?_).1 declaredOnce prefix_rfl
  have hlen := h.length_le
  rcases calls1 with _ | ⟨x, _ | ⟨y, _ | ⟨z, rest⟩⟩⟩
  · have hc : c = unitCall .req 1 := (cons_prefix_cons.mp h).1
    rw [hc]
    exact fun hdecl => nomatch hdecl
  · obtain ⟨hx, h⟩ := cons_prefix_cons.mp h
    have hc : c = unitCall .decl 2 := (cons_prefix_cons.mp h).1
    rw [hx, hc]
    intro _ _ _
    decide
  · obtain ⟨-, h⟩ := cons_prefix_cons.mp h
    obtain ⟨-, h⟩ := cons_prefix_cons.mp h
    have hc : c = unitCall .req 3 := (cons_prefix_cons.mp h).1
    rw [hc]
    exact fun hdecl => nomatch hdecl
  · rw [declaredOnce] at hlen
    simp only [length_cons, length_append, length_nil] at hlen
    omega

end SELinux.Sepol
