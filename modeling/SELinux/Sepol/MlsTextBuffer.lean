import SELinux.Sepol.MlsText

/-! The buffers of `mls_to_string` and `context_to_string` (`mls.c`, `context.c`): they are as long
as `mls_compute_context_len` says, and `mls_sid_to_context` stores into them without a check of its
own. The stores are kept as a list, in the order they are made. -/
namespace SELinux.Sepol

open List Option

/-! ## Stores -/

/-- `*p++ = c`, or `strcpy(p, s); p += strlen(s)`, which stores a terminator behind the text. -/
inductive Store where
  | char (c : Char)
  | strcpy (s : Name)
  deriving DecidableEq

namespace Store

/-- What stays when the pointer moves on. -/
def text : Store → Name
  | .char c => [c]
  | .strcpy s => s

/-- How many bytes are stored. -/
def bytes : Store → Nat
  | .char _ => 1
  | .strcpy s => s.length + 1

end Store

def storesText (stores : List Store) : Name := stores.flatMap Store.text

/-- Every byte of the stores, which begin at `pos`, is within a buffer of this size. -/
def StoresInBounds (size : Nat) : Nat → List Store → Prop
  | _, [] => True
  | pos, s :: stores => pos + s.bytes ≤ size ∧ StoresInBounds size (pos + s.text.length) stores

/-- A buffer with what is stored into it, and from which offset on. -/
structure TextBuffer where
  size : Nat
  stores : List (Nat × List Store)

def TextBuffer.InBounds (b : TextBuffer) : Prop := ∀ s ∈ b.stores, StoresInBounds b.size s.1 s.2

theorem storesText_append (xs ys : List Store) :
    storesText (xs ++ ys) = storesText xs ++ storesText ys :=
  flatMap_append

/-- Room for the text and one terminator is enough. -/
theorem storesInBounds_of_le {size pos stores} (h : pos + (storesText stores).length + 1 ≤ size) :
    StoresInBounds size pos stores := by
  induction stores generalizing pos with
  | nil => trivial
  | cons s stores ih =>
    have hlen : (storesText (s :: stores)).length = s.text.length + (storesText stores).length := by
      simp [storesText]
    have hbytes : s.bytes ≤ s.text.length + 1 := by
      cases s with
      | char c => exact Nat.le_succ 1
      | strcpy s => exact Nat.le_refl _
    exact ⟨by omega, ih (by omega)⟩

/-! ## The stores of `mls_sid_to_context` -/

/-- The loop of `mls_sid_to_context`: the stores made so far, `range` and `wrote_sep`. -/
structure ContextStores where
  stores : List Store
  range : Nat := 0
  wroteSep : Bool := false

def storeRangeEnd (p : FullPolicydb) (i : Nat) (s : ContextStores) : Option ContextStores :=
  if 1 < s.range then do
    let name ← catName p (i - 1)
    some { s with
      stores := s.stores ++ [.char (if 2 < s.range then '.' else ','), .strcpy name]
      range := 0 }
  else some { s with range := 0 }

def contextStoreStep (p : FullPolicydb) (s : ContextStores) (visit : Nat × Bool) :
    Option ContextStores :=
  if visit.2 then
    if s.range ≠ 0 then some { s with range := s.range + 1 }
    else do
      let name ← catName p visit.1
      some
        { stores := s.stores ++ [.char (if s.wroteSep then ',' else ':'), .strcpy name]
          range := 1
          wroteSep := true }
  else storeRangeEnd p visit.1 s

def levelStores (p : FullPolicydb) (l : MlsLevel) (stores : List Store) : Option (List Store) := do
  let name ← sensName p l.sens
  let (visits, i) ← l.cat.toT.forEachBit
  let s ← visits.foldlM (contextStoreStep p) { stores := stores ++ [.strcpy name] }
  let s ← storeRangeEnd p i s
  some s.stores

/-- `mls_sid_to_context`: what it stores. -/
def mlsSidToContextStores (p : FullPolicydb) (r : MlsRange) : Option (List Store) :=
  if !p.mls then some []
  else do
    let stores ← levelStores p r.low [.char ':']
    if mlsLevelEq r.low r.high then some stores else levelStores p r.high (stores ++ [.char '-'])

/-- The stores and the text are built in step. -/
def ContextStores.toText (s : ContextStores) : ContextText :=
  { text := storesText s.stores, range := s.range, wroteSep := s.wroteSep }

variable (p : FullPolicydb)

theorem storeRangeEnd_text (i : Nat) (s : ContextStores) :
    (storeRangeEnd p i s).map ContextStores.toText = writeRangeEnd p i s.toText := by
  unfold storeRangeEnd writeRangeEnd
  by_cases hrange : 1 < s.range
  · cases hname : catName p (i - 1) with
    | none => simp [ContextStores.toText, hrange]
    | some name =>
      simp [ContextStores.toText, hrange, storesText, Store.text]
      rfl
  · simp [ContextStores.toText, hrange]

theorem contextStoreStep_text (s : ContextStores) (visit : Nat × Bool) :
    (contextStoreStep p s visit).map ContextStores.toText = contextTextStep p s.toText visit := by
  obtain ⟨i, positive⟩ := visit
  cases positive with
  | false => exact storeRangeEnd_text p i s
  | true =>
    unfold contextStoreStep contextTextStep
    by_cases hrange : s.range = 0
    · simp [ContextStores.toText, hrange, storesText, Store.text]
    · simp [ContextStores.toText, hrange]

theorem contextStoreLoop_text (visits : List (Nat × Bool)) (s : ContextStores) :
    (visits.foldlM (contextStoreStep p) s).map ContextStores.toText =
      visits.foldlM (contextTextStep p) s.toText := by
  induction visits generalizing s with
  | nil => rfl
  | cons visit visits ih =>
    rw [foldlM_cons, foldlM_cons, ← contextStoreStep_text]
    cases contextStoreStep p s visit with
    | none => rfl
    | some s' => exact ih s'

theorem levelStores_text (l : MlsLevel) (stores : List Store) :
    (levelStores p l stores).map storesText = levelText p l (storesText stores) := by
  unfold levelStores levelText
  cases sensName p l.sens with
  | none => rfl
  | some name =>
    cases l.cat.toT.forEachBit with
    | none => rfl
    | some visits =>
      have hstart : ContextStores.toText { stores := stores ++ [.strcpy name] } =
          { text := storesText stores ++ name } := by
        simp [ContextStores.toText, storesText, Store.text]
      simp only [bind_eq_bind, bind_some, ← hstart, ← contextStoreLoop_text]
      cases visits.1.foldlM (contextStoreStep p) { stores := stores ++ [.strcpy name] } with
      | none => rfl
      | some s =>
        rw [map_some, bind_some, bind_some, ← storeRangeEnd_text]
        cases storeRangeEnd p visits.2 s with
        | none => rfl
        | some s' => rfl

theorem mlsSidToContextStores_text (r : MlsRange) :
    (mlsSidToContextStores p r).map storesText = mlsSidToContext p r := by
  unfold mlsSidToContextStores mlsSidToContext
  split_ifs with hmls heq
  · rfl
  · rw [show ([':'] : Name) = storesText [.char ':'] from rfl, ← levelStores_text]
    simp
  · rw [show ([':'] : Name) = storesText [.char ':'] from rfl, ← levelStores_text]
    cases levelStores p r.low [.char ':'] with
    | none => rfl
    | some stores =>
      refine (levelStores_text p r.high (stores ++ [.char '-'])).trans ?_
      rw [storesText_append]
      rfl

/-! ## The buffers -/

/-- The value of `mls_compute_context_len`: an `unsigned int` returned as an `int`. -/
def contextLenInt (p : FullPolicydb) (r : MlsRange) : Option Int :=
  (mlsComputeContextLen p r).map fun len => (BitVec.ofNat 32 len).toInt

/-- An `int` as a `size_t`. -/
def sizeOfInt (n : Int) : Nat := (BitVec.ofInt 64 n).toNat

/-- `mls_to_string`: the buffer for the text, and the one for the text without its colon, of which
at least the terminator is stored. -/
def mlsToStringBuffers (p : FullPolicydb) (r : MlsRange) : Option (List TextBuffer) := do
  let len ← contextLenInt p r
  let stores ← mlsSidToContextStores p r
  let text := storesText stores
  some
    [{ size := sizeOfInt (BitVec.ofInt 32 (len + 1)).toInt, stores := [(0, stores)] },
      { size := sizeOfInt len, stores := [(0, [.strcpy (text.drop (text.length - len.toNat + 1))])]
        }]

/-- `p_user_val_to_name[value - 1]` and the like. -/
def valName (names : List (Option Name)) (value : Nat) : Option Name :=
  if value = 0 then none else names.getD (value - 1) none

/-- `context_to_string`: the terminator is stored first. -/
def contextToStringBuffer (p : FullPolicydb) (c : Context) : Option TextBuffer := do
  let user ← valName p.users.valToName c.user
  let role ← valName p.roleValToName c.role
  let type ← valName p.typeValToName c.type
  let len ← contextLenInt p c.range
  let stores ← mlsSidToContextStores p c.range
  let size := (user.length + 1 + (role.length + 1) + type.length + sizeOfInt len + 1) % 2 ^ 64
  let names := user ++ ':' :: role ++ ':' :: type
  some { size := size, stores := [(size - 1, [.char '\x00']), (0, [.strcpy names]),
    (names.length, stores)] }

theorem ofNat_toInt_of_lt {n : Nat} (h : n < 2 ^ 31) : (BitVec.ofNat 32 n).toInt = n := by
  have hn : (BitVec.ofNat 32 n).toNat = n := by
    exact Nat.mod_eq_of_lt (by omega)
  rw [BitVec.toInt_eq_toNat_of_lt (by omega), hn]

theorem sizeOfInt_natCast {n : Nat} (h : n < 2 ^ 64) : sizeOfInt n = n := by
  rw [sizeOfInt, BitVec.ofInt_natCast, BitVec.toNat_ofNat, Nat.mod_eq_of_lt h]

theorem contextLenInt_eq {p r stores} (hstores : mlsSidToContextStores p r = some stores)
    (hlen : (storesText stores).length < 2 ^ 31) :
    contextLenInt p r = some ((storesText stores).length : Int) := by
  have htext := mlsSidToContextStores_text p r
  simp [hstores, contextLenInt, mlsComputeContextLen_eq, ← htext, ofNat_toInt_of_lt hlen]

/-- The two loops read the same names: either both run into a null pointer, or none of them. -/
theorem contextLenInt_eq_none_iff (r : MlsRange) :
    contextLenInt p r = none ↔ mlsSidToContextStores p r = none := by
  rw [contextLenInt, mlsComputeContextLen_eq, ← mlsSidToContextStores_text, Option.map_map,
    Option.map_map,
    map_eq_none_iff]

theorem levelText_length_le {p l} {text text' : Name} (h : levelText p l text = some text') :
    text.length ≤ text'.length := by
  rw [levelText_eq] at h
  obtain ⟨name, -, h⟩ := bind_eq_some_iff.mp h
  obtain ⟨rest, -, rfl⟩ := map_eq_some_iff.mp h
  simp

variable {p : FullPolicydb}

/-- With multi-level security there is a colon at least. -/
theorem storesText_length_pos {r stores} (hmls : p.mls = true)
    (hstores : mlsSidToContextStores p r = some stores) : 0 < (storesText stores).length := by
  have htext := mlsSidToContextStores_text p r
  rw [hstores, map_some, mlsSidToContext, if_neg (by simp [hmls])] at htext
  obtain ⟨text, hlow, htext⟩ := bind_eq_some_iff.mp htext.symm
  have hpos : 0 < text.length := levelText_length_le hlow
  split_ifs at htext with heq
  · cases htext
    exact hpos
  · have hle := levelText_length_le htext
    rw [length_append] at hle
    omega

theorem mlsToStringBuffers_inBounds {r stores} (hmls : p.mls = true)
    (hstores : mlsSidToContextStores p r = some stores)
    (hlen : (storesText stores).length + 1 < 2 ^ 31) :
    ∃ buffers, mlsToStringBuffers p r = some buffers ∧ ∀ b ∈ buffers, b.InBounds := by
  have hpos := storesText_length_pos hmls hstores
  generalize hn : (storesText stores).length = n at *
  have hcompute := contextLenInt_eq hstores (by omega)
  have hnext : (BitVec.ofInt 32 ((n : Int) + 1)).toInt = ((n + 1 : Nat) : Int) := by
    rw [← ofNat_toInt_of_lt hlen, ← Int.natCast_succ, BitVec.ofInt_natCast]
  refine ⟨_, by rw [mlsToStringBuffers, hcompute, hstores]; rfl, ?_⟩
  intro b hb
  simp only [mem_cons, not_mem_nil, or_false] at hb
  rcases hb with rfl | rfl
  · -- the text, and the terminator of its last name
    intro s hs
    obtain rfl := mem_singleton.mp hs
    rw [hn, hnext, sizeOfInt_natCast (by omega)]
    exact storesInBounds_of_le (by rw [Nat.zero_add, hn])
  · -- the terminator has the place of the colon
    intro s hs
    obtain rfl := mem_singleton.mp hs
    refine storesInBounds_of_le ?_
    rw [hn, sizeOfInt_natCast (by omega), Int.toNat_natCast, Nat.sub_self]
    simp only [storesText, flatMap_cons, flatMap_nil, append_nil, Store.text, length_drop]
    rw [storesText] at hn
    omega

theorem contextToStringBuffer_inBounds {c : Context} {stores : List Store} {user role type : Name}
    (hstores : mlsSidToContextStores p c.range = some stores)
    (hlen : (storesText stores).length < 2 ^ 31)
    (huser : valName p.users.valToName c.user = some user)
    (hrole : valName p.roleValToName c.role = some role)
    (htype : valName p.typeValToName c.type = some type)
    (htotal : user.length + role.length + type.length + (storesText stores).length + 3 < 2 ^ 64) :
    ∃ b, contextToStringBuffer p c = some b ∧ b.InBounds := by
  have hcompute := contextLenInt_eq hstores hlen
  refine ⟨_, by rw [contextToStringBuffer, huser, hrole, htype, hcompute, hstores]; rfl, ?_⟩
  intro s hs
  simp only [mem_cons, not_mem_nil, or_false] at hs
  rw [sizeOfInt_natCast (by omega)] at hs ⊢
  rw [Nat.mod_eq_of_lt (by omega)] at hs ⊢
  rcases hs with rfl | rfl | rfl
  · -- the last byte
    refine ⟨?_, trivial⟩
    simp only [Store.bytes]
    omega
  · refine storesInBounds_of_le ?_
    simp only [storesText, flatMap_cons, flatMap_nil, append_nil, Store.text, length_append,
      length_cons]
    omega
  · refine storesInBounds_of_le ?_
    simp only [length_append, length_cons]
    omega

/-- The computed length is the number of characters that are written, and no store is outside of a
buffer, as long as a text has less than `2 ^ 31 - 1` characters; for `mls_to_string` with
multi-level security only. -/
theorem mlsText_fits_buffer (p : FullPolicydb) (c : Context) :
    (contextLenInt p c.range = none ↔ mlsSidToContextStores p c.range = none) ∧
    ∀ stores, mlsSidToContextStores p c.range = some stores →
      (storesText stores).length + 1 < 2 ^ 31 →
      contextLenInt p c.range = some ((storesText stores).length : Int) ∧
      (p.mls = true → ∃ buffers, mlsToStringBuffers p c.range = some buffers ∧
        ∀ b ∈ buffers, b.InBounds) ∧
      ∀ user role type, valName p.users.valToName c.user = some user →
        valName p.roleValToName c.role = some role → valName p.typeValToName c.type = some type →
        user.length + role.length + type.length + (storesText stores).length + 3 < 2 ^ 64 →
        ∃ b, contextToStringBuffer p c = some b ∧ b.InBounds := by
  refine ⟨contextLenInt_eq_none_iff p c.range, fun stores hstores hlen => ⟨?_, ?_, ?_⟩⟩
  · exact contextLenInt_eq hstores (by omega)
  · exact fun hmls => mlsToStringBuffers_inBounds hmls hstores hlen
  · intro user role type huser hrole htype htotal
    exact contextToStringBuffer_inBounds hstores (by omega) huser hrole htype htotal

/-! ## Where it does not fit -/

/-- One user, `object_r`, one type, and one sensitivity. -/
def oneLevelPolicy (mls : Bool) (name : Name) : FullPolicydb :=
  { typeValToStruct := [none]
    mls := mls
    mlsDb := { sensValToName := [some name], levels := [(name, { sens := 1 })] }
    typeValToName := [some ['t']]
    roleValToName := [some ['r']]
    roleValToStruct := [none]
    users := { nprim := 1, valToName := [some ['u']] } }

/-- The context with this sensitivity. -/
def oneContext : Context :=
  { user := 1, role := 1, type := 1, range := { low := { sens := 1 }, high := { sens := 1 } } }

theorem oneContext_valid (mls : Bool) (name : Name) :
    contextIsValid (oneLevelPolicy mls name) oneContext = true := by
  cases mls with
  | false => rfl
  | true =>
    have hlevel : mlsLevelIsvalid (oneLevelPolicy true name) oneContext.range.low = true := by
      simp [mlsLevelIsvalid, oneLevelPolicy, oneContext, MlsDb.levelsNprim]
    have hmls : mlsContextIsvalid (oneLevelPolicy true name) oneContext = true := by
      rw [mlsContextIsvalid, show oneContext.range.high = oneContext.range.low from rfl, hlevel]
      rfl
    rw [contextIsValid, hmls]
    rfl

theorem mlsSidToContextStores_oneContext (name : Name) :
    mlsSidToContextStores (oneLevelPolicy true name) oneContext.range =
      some [.char ':', .strcpy name] := rfl

/-- `s-s:a.c`. -/
theorem mlsText_fits_buffer_categories :
    let policy := oneLevelPolicy true ['s']
    let p : FullPolicydb :=
      { policy with
        mlsDb := { policy.mlsDb with catValToName := [some ['a'], some ['b'], some ['c']] } }
    let c : Context :=
      { oneContext with
        range := { low := { sens := 1 }, high := { sens := 1, cat := .ofList [0, 1, 2] } } }
    ∃ stores b, mlsSidToContextStores p c.range = some stores ∧
      contextToStringBuffer p c = some b ∧ b.InBounds := by
  intro policy p c
  have hwritten : ((mlsSidToContextStores p c.range).any fun stores =>
      (storesText stores).length == 8) = true := by decide +kernel
  obtain ⟨stores, hstores, hlength⟩ := (any_eq_true _ _).mp hwritten
  rw [beq_iff_eq] at hlength
  obtain ⟨b, hb⟩ := ((mlsText_fits_buffer p c).2 stores hstores (by omega)).2.2 ['u'] ['r'] ['t']
    rfl rfl rfl (by rw [hlength]; decide)
  exact ⟨stores, b, hstores, hb⟩

/-- Without multi-level security `mls_to_string` stores a terminator into a buffer of no bytes; and
the length of a text that has `2 ^ 32` characters is computed as 0. -/
theorem mlsText_overruns_buffer : (contextIsValid (oneLevelPolicy false []) oneContext = true ∧
      ∃ buffers, mlsToStringBuffers (oneLevelPolicy false []) oneContext.range = some buffers ∧
        ∃ b ∈ buffers, ¬ b.InBounds) ∧
    ∃ name stores, contextIsValid (oneLevelPolicy true name) oneContext = true ∧
      mlsSidToContextStores (oneLevelPolicy true name) oneContext.range = some stores ∧
      (storesText stores).length = 2 ^ 32 ∧
        contextLenInt (oneLevelPolicy true name) oneContext.range = some 0 := by
  refine ⟨⟨oneContext_valid false [], _, rfl, _, mem_cons_of_mem _ (mem_singleton.mpr rfl), ?_⟩, ?_⟩
  · intro h
    have hstore := (h _ (mem_singleton.mpr rfl)).1
    revert hstore
    decide
  · obtain ⟨name, hname⟩ : ∃ name : Name, name.length = 2 ^ 32 - 1 :=
      ⟨List.replicate (2 ^ 32 - 1) 'a', length_replicate⟩
    refine ⟨name, _, oneContext_valid true name, mlsSidToContextStores_oneContext name, ?_, ?_⟩
    · simp [storesText, Store.text, hname]
    · rw [contextLenInt, mlsComputeContextLen_eq, ← mlsSidToContextStores_text,
        mlsSidToContextStores_oneContext]
      simp [storesText, Store.text, hname]

end SELinux.Sepol
