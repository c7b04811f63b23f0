import SELinux.Checkpolicy.PermScope
import SELinux.Lib.Loop
import SELinux.Lib.Numbering

/-! What the arrays of the declarations hold in the two passes over a module, and what
`is_perm_in_scope` makes of them. -/
namespace SELinux.Checkpolicy

open List Option Function Nat
open Sepol (Name Ebitmap)

/-! ## Invariants -/

/-- The values of a class and of a permission of it, one less. -/
def Valued (st : ScopeState) (classId permId : Name) (i b : Nat) : Prop :=
  ∃ datum, st.classes classId = some datum ∧ datum.value = i + 1 ∧
    datum.permissions permId = some (b + 1)

/-- Each name has its own value. -/
structure ClassTables (st : ScopeState) : Prop where
  classes : Lib.Numbering (fun c => (st.classes c).map ClassDatum.value) st.nprim
  permissions : ∀ c d, st.classes c = some d → Lib.Numbering d.permissions d.nprim

/-- The bits of an index are for permissions that the declarations of `l` require. -/
def Sound (s : ScopeState × Requirements) (l : List DeclPos) (scope : ScopeIndex) : Prop :=
  ∀ i b, scope.Has i b → ∃ p ∈ l, ∃ c q, (p, c, q) ∈ s.2 ∧ Valued s.1 c q i b

/-- What holds in both passes. Nothing is ever stored in the index of what is declared, and nothing
is required in an else branch. -/
structure ScopeInv (s : ScopeState × Requirements) : Prop where
  tables : ClassTables s.1
  declared : ∀ p d, s.1.decls p = some d → d.declared.classPermsMap = []
  global : (s.1.decls (0, 0)).isSome = true
  stack : ∀ e ∈ s.1.stackTop, (s.1.decls e.decl).isSome = true ∧ e.decl.1 ≤ s.1.lastBlock
  branch : ∀ e ∈ s.1.stackTop, e.inElse = false → e.decl.2 = 0
  recorded : ∀ p c q, (p, c, q) ∈ s.2 → ∃ d i b, s.1.decls p = some d ∧ Valued s.1 c q i b ∧
    d.required.Has i b
  recordedBranch : ∀ p c q, (p, c, q) ∈ s.2 → p.2 = 0

/-- What holds in the first pass: a declaration has its own requirements only. -/
structure FirstPass (s : ScopeState × Requirements) : Prop extends ScopeInv s where
  sound : ∀ p d, s.1.decls p = some d → Sound s [p] d.required
  recordedBlock : ∀ p c q, (p, c, q) ∈ s.2 → p.1 ≤ s.1.lastBlock

theorem Valued.unique {st} (h : ClassTables st) {c c' q q' i b} (hv : Valued st c q i b)
    (hv' : Valued st c' q' i b) : c = c' ∧ q = q' := by
  obtain ⟨d, hd, hi, hb⟩ := hv
  obtain ⟨d', hd', hi', hb'⟩ := hv'
  have hc := h.classes.inj c c' (i + 1) (by rw [hd, map_some, hi]) (by rw [hd', map_some, hi'])
  subst hc
  rw [hd] at hd'
  cases hd'
  exact ⟨rfl, (h.permissions c d hd).inj q q' (b + 1) hb hb'⟩

variable {st : ScopeState} {actions : List ScopeAction}

theorem ClassTables.value_pos (h : ClassTables st) {c : Name} {d : ClassDatum}
    (hd : st.classes c = some d) : 0 < d.value :=
  (h.classes.bound c d.value (by rw [hd, map_some])).1

theorem Sound.mono {s s' l l' scope} (h : Sound s l scope) (hl : ∀ p ∈ l, p ∈ l')
    (hlog : ∀ x ∈ s.2, x ∈ s'.2) (hvalued : ∀ c q i b, Valued s.1 c q i b → Valued s'.1 c q i b) :
    Sound s' l' scope := by
  intro i b hb
  obtain ⟨p, hp, c, q, hmem, hv⟩ := h i b hb
  exact ⟨p, hl p hp, c, q, hlog _ hmem, hvalued c q i b hv⟩

theorem ScopeInv.setRequired {log} (h : ScopeInv (st, log)) {decl}
    {d : AvruleDecl} (hd : st.decls decl = some d) {required : ScopeIndex}
    (hhas : ∀ i b, d.required.Has i b → required.Has i b) : ScopeInv ({ st with
      decls := update st.decls decl (some { d with required }) }, log) := by
  have ht : ClassTables st := h.tables
  have hmore (p : DeclPos) (x : AvruleDecl) (hx : st.decls p = some x) :
      ∃ x', update st.decls decl (some { d with required }) p = some x' ∧
        ∀ i b, x.required.Has i b → x'.required.Has i b := by
    by_cases hp : p = decl
    · subst hp
      cases hd.symm.trans hx
      exact ⟨_, update_self .., hhas⟩
    · simp [update_of_ne hp, hx]
  have hsome (p : DeclPos) (hp : (st.decls p).isSome = true) :
      (update st.decls decl (some { d with required }) p).isSome = true := by
    obtain ⟨x, hx⟩ := isSome_iff_exists.mp hp
    obtain ⟨x', hx', _⟩ := hmore p x hx
    rw [hx']
    rfl
  refine ⟨⟨ht.classes, ht.permissions⟩, ?_, hsome _ h.global, ?_, h.branch, ?_, h.recordedBranch⟩
  · intro p x hx
    rcases Lib.update_some_cases hx with ⟨rfl, rfl⟩ | hx
    · exact h.declared p d hd
    · exact h.declared p x hx
  · intro e he
    exact ⟨hsome _ (h.stack e he).1, (h.stack e he).2⟩
  · intro p c q hmem
    obtain ⟨x, i, b, hx, hv, hb⟩ := h.recorded p c q hmem
    obtain ⟨x', hx', hle⟩ := hmore p x hx
    exact ⟨x', i, b, hx', hv, hle i b hb⟩

/-! ### Requirements -/

section First

variable {st' : ScopeState} {log : Requirements} (h : FirstPass (st, log))
include h

theorem FirstPass.extend {classes nprim} (htables : ClassTables { st with classes, nprim })
    (hvalued : ∀ c q i b, Valued st c q i b → Valued { st with classes, nprim } c q i b) :
    FirstPass ({ st with classes, nprim }, log) where
  tables := htables
  declared := h.declared
  global := h.global
  stack := h.stack
  branch := h.branch
  recorded p c q hmem := by
    obtain ⟨d, i, b, hd, hv, hb⟩ := h.recorded p c q hmem
    exact ⟨d, i, b, hd, hvalued c q i b hv, hb⟩
  recordedBranch := h.recordedBranch
  sound p d hd := (h.sound p d hd).mono (fun _ hp => hp) (fun _ hx => hx) hvalued
  recordedBlock := h.recordedBlock

theorem FirstPass.insertClass (classId : Name) : FirstPass (st.insertClass classId, log) := by
  have ht : ClassTables st := h.tables
  unfold ScopeState.insertClass
  cases hclass : st.classes classId with
  | some d => exact h
  | none =>
    refine h.extend ⟨?_, ?_⟩ ?_
    · have hvalue :
        (fun c => (update st.classes classId (some { value := st.nprim + 1 }) c).map
          ClassDatum.value) =
          update (fun c => (st.classes c).map ClassDatum.value) classId
            (some (st.nprim + 1)) :=
        comp_update (Option.map ClassDatum.value) st.classes classId _
      exact hvalue ▸ ht.classes.insert classId
    · intro c d hc
      rcases Lib.update_some_cases hc with ⟨rfl, rfl⟩ | hc
      · exact Lib.Numbering.empty
      · exact ht.permissions c d hc
    · rintro c q i b ⟨d, hd, hv⟩
      have hne : c ≠ classId := by
        rintro rfl
        rw [hclass] at hd
        cases hd
      exact ⟨d, (update_of_ne hne ..).trans hd, hv⟩

theorem FirstPass.insertPerm {classId permId : Name} {datum : ClassDatum}
    (hclass : st.classes classId = some datum) (hperm : datum.permissions permId = none) :
    FirstPass ({ st with
      classes := update st.classes classId (some (datum.insertPerm permId)) }, log) := by
  have ht : ClassTables st := h.tables
  refine h.extend ⟨?_, ?_⟩ ?_
  · have hvalue :
      (fun c => (update st.classes classId (some (datum.insertPerm permId)) c).map
        ClassDatum.value) = fun c => (st.classes c).map ClassDatum.value := by
      funext c
      by_cases heq : c = classId
      · rw [heq, update_self, hclass]
        rfl
      · rw [update_of_ne heq]
    exact hvalue ▸ ht.classes
  · intro c d hc
    rcases Lib.update_some_cases hc with ⟨rfl, rfl⟩ | hc
    · exact (ht.permissions c datum hclass).insert permId
    · exact ht.permissions c d hc
  · rintro c q i b ⟨d, hd, hval, hq⟩
    by_cases heq : c = classId
    · subst heq
      rw [hclass] at hd
      cases hd
      have hne : q ≠ permId := by
        rintro rfl
        rw [hperm] at hq
        cases hq
      exact ⟨datum.insertPerm permId, update_self .., hval, (update_of_ne hne ..).trans hq⟩
    · exact ⟨d, (update_of_ne heq ..).trans hd, hval, hq⟩

theorem FirstPass.addPerm {decl classId permId i b}
    (hvalued : Valued st classId permId i b) (hbranch : decl.2 = 0) (hblock : decl.1 ≤ st.lastBlock)
    (hadd : st.addPerm decl (b + 1) (i + 1) = some st') :
    FirstPass (st', log ++ [(decl, classId, permId)]) ∧ st'.lastBlock = st.lastBlock := by
  obtain ⟨d, hd, hadd⟩ := bind_eq_some_iff.mp hadd
  obtain ⟨required, hreq, hadd⟩ := bind_eq_some_iff.mp hadd
  cases hadd
  have hhas := addPermToClass_has (succ_pos i) hreq
  have hmore := h.setRequired hd fun i b hb => (hhas i b).mpr (.inl hb)
  refine ⟨⟨{ hmore with recorded := ?_, recordedBranch := ?_ }, ?_, ?_⟩, rfl⟩
  · intro p c q hmem
    rcases mem_append.mp hmem with hmem | hmem
    · exact hmore.recorded p c q hmem
    · cases mem_singleton.mp hmem
      exact ⟨_, i, b, update_self .., hvalued, (hhas i b).mpr (.inr ⟨rfl, rfl⟩)⟩
  · intro p c q hmem
    rcases mem_append.mp hmem with hmem | hmem
    · exact h.recordedBranch p c q hmem
    · cases mem_singleton.mp hmem
      exact hbranch
  · intro p x hx
    have hold (y : AvruleDecl) (hy : st.decls p = some y) :
        Sound (st, log ++ [(decl, classId, permId)]) [p] y.required :=
      (h.sound p y hy).mono (fun _ hp => hp) (fun _ hx => mem_append_left _ hx)
        (fun _ _ _ _ hv => hv)
    rcases Lib.update_some_cases hx with ⟨rfl, rfl⟩ | hx
    · intro j k hjk
      rcases (hhas j k).mp hjk with hjk | ⟨rfl, rfl⟩
      · exact hold d hd j k hjk
      · exact ⟨p, by simp, classId, permId, by simp, hvalued⟩
    · exact hold x hx
  · intro p c q hmem
    rcases mem_append.mp hmem with hmem | hmem
    · exact h.recordedBlock p c q hmem
    · cases mem_singleton.mp hmem
      exact hblock

theorem FirstPass.requirePerm {decl classId permId} (hbranch : decl.2 = 0)
    (hblock : decl.1 ≤ st.lastBlock) (hreq : requirePerm classId decl st permId = some st') :
    FirstPass (st', log ++ [(decl, classId, permId)]) ∧ st'.lastBlock = st.lastBlock := by
  have ht : ClassTables st := h.tables
  obtain ⟨datum, hclass, hreq⟩ := bind_eq_some_iff.mp hreq
  obtain ⟨i, hi⟩ : ∃ i, datum.value = i + 1 :=
    ⟨datum.value - 1, by have := ht.value_pos hclass; omega⟩
  cases hperm : datum.permissions permId with
  | some v =>
    obtain ⟨b, rfl⟩ : ∃ b, v = b + 1 :=
      ⟨v - 1, by have := (ht.permissions classId datum hclass).bound permId v hperm; omega⟩
    simp only [hperm, hi] at hreq
    exact h.addPerm ⟨datum, hclass, hi, hperm⟩ hbranch hblock hreq
  | none =>
    simp only [hperm, hi] at hreq
    split_ifs at hreq
    have hvalued : Valued { st with
        classes := update st.classes classId (some (datum.insertPerm permId)) } classId
          permId i datum.nprim :=
      ⟨datum.insertPerm permId, update_self .., hi, update_self ..⟩
    exact (h.insertPerm hclass hperm).addPerm hvalued hbranch hblock hreq

theorem FirstPass.withStack {stackTop}
    (hstack : ∀ e ∈ stackTop, ∃ e' ∈ st.stackTop, e.decl = e'.decl ∧ e.inElse = e'.inElse) :
    FirstPass ({ st with stackTop }, log) := by
  have ht : ClassTables st := h.tables
  refine ⟨⟨⟨ht.classes, ht.permissions⟩, h.declared, h.global, ?_, ?_, h.recorded,
    h.recordedBranch⟩,
    h.sound, h.recordedBlock⟩
  · intro e he
    obtain ⟨e', he', hdecl, _⟩ := hstack e he
    rw [hdecl]
    exact h.stack e' he'
  · intro e he hin
    obtain ⟨e', he', hdecl, hin'⟩ := hstack e he
    rw [hdecl]
    exact h.branch e' he' (hin' ▸ hin)

theorem FirstPass.requireSymbol (hreq : requireSymbol st = some st') :
    FirstPass (st', log) ∧ ∃ top parents, st.stackTop = top :: parents ∧ top.inElse = false ∧
      st'.stackTop = { top with requireGiven := true } :: parents := by
  rw [Checkpolicy.requireSymbol] at hreq
  cases hstack : st.stackTop with
  | nil => simp [hstack] at hreq
  | cons top parents =>
    simp only [hstack] at hreq
    split_ifs at hreq with hin
    cases hreq
    refine ⟨h.withStack fun e he => ?_, top, parents, rfl, by simpa using hin, rfl⟩
    rw [hstack]
    rcases mem_cons.mp he with rfl | he
    · simp
    · exact ⟨e, mem_cons_of_mem _ he, rfl, rfl⟩

theorem FirstPass.requireClass {classId permIds}
    (hreq : requireClass .one classId permIds st = some st') :
    FirstPass (st', log ++ requirementsOf .one st (.requireClass classId permIds)) := by
  obtain ⟨st1, hsym, hreq⟩ := bind_eq_some_iff.mp hreq
  obtain ⟨hst1, top, parents, hstack, hin, hstack1⟩ := h.requireSymbol hsym
  obtain ⟨top', htop, hreq⟩ := bind_eq_some_iff.mp hreq
  rw [hstack1, head?_cons] at htop
  cases htop
  have hmem : { top with requireGiven := true } ∈ st1.stackTop := by simp [hstack1]
  have hbranch := hst1.branch _ hmem hin
  have hblock := (hst1.stack _ hmem).2
  have hlast : (st1.insertClass classId).lastBlock = st1.lastBlock := by
    unfold ScopeState.insertClass
    cases st1.classes classId <;> rfl
  have hlog : requirementsOf .one st (.requireClass classId permIds) =
      permIds.map fun p => (top.decl, classId, p) := by simp [requirementsOf, hstack]
  rw [hlog]
  refine (Lib.foldlM_done
    (P := fun l s => FirstPass (s, log ++ l.map fun p => (top.decl, classId, p)) ∧
    s.lastBlock = st1.lastBlock) (fun l1 p l2 s s' _ hs hstep => ?_) ⟨?_, hlast⟩ hreq).1
  · have hone := hs.1.requirePerm hbranch (hs.2 ▸ hblock) hstep
    simpa [hs] using hone
  · simpa using hst1.insertClass classId

/-- A new declaration at a place where nothing was required. -/
theorem FirstPass.newDecl {decl} (hnew : ∀ c q, (decl, c, q) ∉ log)
    {stackTop declId lastBlock nextDeclId} (hlast : st.lastBlock ≤ lastBlock)
    (hstack : ∀ e ∈ stackTop, e.decl.1 ≤ lastBlock ∧ (e.inElse = false → e.decl.2 = 0) ∧
      (e.decl = decl ∨ e ∈ st.stackTop)) : FirstPass ({ st with
      decls := update st.decls decl (some { declId })
      stackTop
      lastBlock
      nextDeclId }, log) := by
  have ht : ClassTables st := h.tables
  have hsome (p : DeclPos) (hp : p = decl ∨ (st.decls p).isSome = true) :
      (update st.decls decl (some { declId }) p).isSome = true := by
    by_cases heq : p = decl
    · simp [heq]
    · simpa [heq] using hp
  refine ⟨⟨⟨ht.classes, ht.permissions⟩, ?_, hsome _ (.inr h.global), ?_, ?_, ?_, h.recordedBranch⟩,
    ?_, ?_⟩
  · intro p x hx
    rcases Lib.update_some_cases hx with ⟨-, rfl⟩ | hx
    · rfl
    · exact h.declared p x hx
  · intro e he
    obtain ⟨hle, _, hdecl⟩ := hstack e he
    exact ⟨hsome _ (hdecl.imp id fun hmem => (h.stack e hmem).1), hle⟩
  · intro e he
    exact (hstack e he).2.1
  · intro p c q hmem
    obtain ⟨x, i, b, hx, hv, hb⟩ := h.recorded p c q hmem
    have hp : p ≠ decl := by
      intro heq
      rw [heq] at hmem
      exact hnew c q hmem
    exact ⟨x, i, b, by simpa only [update_of_ne hp] using hx, hv, hb⟩
  · intro p x hx
    rcases Lib.update_some_cases hx with ⟨rfl, rfl⟩ | hx
    · intro i b hb
      exact absurd hb (ScopeIndex.not_has_empty i b)
    · exact h.sound p x hx
  · intro p c q hmem
    exact le_trans (h.recordedBlock p c q hmem) hlast

theorem FirstPass.step {a} (hstep : scopeStep .one st a = some st') :
    FirstPass (st', log ++ requirementsOf .one st a) := by
  cases a with
  | requireClass classId permIds => exact h.requireClass hstep
  | requireSymbol =>
    simp only [requirementsOf, append_nil]
    exact (h.requireSymbol hstep).1
  | beginOptional =>
    simp only [requirementsOf, append_nil]
    cases hstep
    refine h.newDecl (fun c q hmem => ?_) (le_succ _) fun e he => ?_
    · have hblock := h.recordedBlock _ c q hmem
      simp only at hblock
      omega
    · rcases mem_cons.mp he with rfl | he
      · simp
      · exact ⟨le_succ_of_le (h.stack e he).2, h.branch e he, .inr he⟩
  | beginOptionalElse =>
    simp only [requirementsOf, append_nil]
    rw [scopeStep, beginOptionalElse] at hstep
    cases hstack : st.stackTop with
    | nil => simp [hstack] at hstep
    | cons top parents =>
      simp only [hstack] at hstep
      split_ifs at hstep with hin
      cases hstep
      refine h.newDecl (fun c q hmem => ?_) (le_refl _) fun e he => ?_
      · have hbranch := h.recordedBranch _ c q hmem
        simp at hbranch
      · rcases mem_cons.mp he with rfl | he
        · exact ⟨(h.stack top (by simp [hstack])).2, by simp, .inl rfl⟩
        · have hmem : e ∈ st.stackTop := by simp [hstack, he]
          exact ⟨(h.stack e hmem).2, h.branch e hmem, .inr hmem⟩
  | endAvruleBlock =>
    simp only [requirementsOf, append_nil]
    rw [scopeStep, endAvruleBlock] at hstep
    cases hstack : st.stackTop with
    | nil => simp [hstack] at hstep
    | cons top parents =>
      simp only [hstack] at hstep
      split_ifs at hstep
      cases hstep
      exact h
  | endOptional =>
    simp only [requirementsOf, append_nil]
    rw [scopeStep, endOptional] at hstep
    cases hstack : st.stackTop with
    | nil => simp [hstack] at hstep
    | cons top parents =>
      simp only [hstack] at hstep
      cases hstep
      exact h.withStack fun e he => ⟨e, by simp [hstack, he], rfl, rfl⟩

end First

/-! ### Inherited requirements -/

/-- The second pass has not come to the declaration yet. -/
def Pending (st : ScopeState) (p : DeclPos) : Prop :=
  st.lastBlock < p.1 ∨ ∃ e ∈ st.stackTop, e.inElse = false ∧ p.1 = e.decl.1 ∧ e.decl.2 < p.2

/-- What holds in the second pass: a declaration that ends inherits the requirements of the
enclosing ones, which are below it on the stack. -/
structure SecondPass (s : ScopeState × Requirements) : Prop extends ScopeInv s where
  order : s.1.stackTop.Pairwise fun e e' => e'.decl.1 < e.decl.1
  pending : ∀ p d, s.1.decls p = some d → Pending s.1 p → Sound s [p] d.required
  onStack : ∀ e l, (e :: l) <:+ s.1.stackTop → ∀ d, s.1.decls e.decl = some d →
    Sound s ((e :: l).map ScopeStack.decl) d.required

/-- A scope stack whose bits are all for what its declarations require. -/
structure ScopeSound (s : ScopeState × Requirements) : Prop extends ScopeInv s where
  sound : ∀ e ∈ s.1.stackTop, ∀ d, s.1.decls e.decl = some d →
    Sound s (s.1.stackTop.map ScopeStack.decl) d.required

theorem FirstPass.scopeSound {s} (h : FirstPass s) : ScopeSound s := by
  refine ⟨h.toScopeInv, fun e he d hd => ?_⟩
  refine (h.sound e.decl d hd).mono (fun p hp => ?_) (fun _ hx => hx) (fun _ _ _ _ hv => hv)
  rw [mem_singleton.mp hp]
  exact mem_map_of_mem he

theorem SecondPass.scopeSound {s} (h : SecondPass s) : ScopeSound s := by
  refine ⟨h.toScopeInv, fun e he d hd => ?_⟩
  obtain ⟨l1, l2, hl⟩ := append_of_mem he
  have hsuffix : (e :: l2) <:+ s.1.stackTop := ⟨l1, hl.symm⟩
  refine (h.onStack e l2 hsuffix d hd).mono (fun p hp => ?_) (fun _ hx => hx) (fun _ _ _ _ hv => hv)
  exact map_subset _ hsuffix.subset hp

section Second

variable {st' : ScopeState} {log : Requirements}

/-- The second pass begins with what the first one left. -/
theorem FirstPass.definePolicy (h : FirstPass (st, log)) : SecondPass (definePolicy st, log) := by
  have ht : ClassTables st := h.tables
  refine ⟨⟨⟨ht.classes, ht.permissions⟩, h.declared, h.global, ?_, ?_, h.recorded,
    h.recordedBranch⟩,
    ?_, fun p d hd _ => h.sound p d hd, ?_⟩
  · intro e he
    rw [mem_singleton.mp he]
    exact ⟨h.global, le_refl _⟩
  · intro e he _
    rw [mem_singleton.mp he]
  · exact pairwise_singleton ..
  · intro e l hl d hd
    refine (h.sound e.decl d hd).mono (fun p hp => ?_) (fun _ hx => hx) (fun _ _ _ _ hv => hv)
    simp [mem_singleton.mp hp]

theorem SecondPass.enter (h : SecondPass (st, log)) {e : ScopeStack} {parents lastBlock nextDeclId}
    (hparents : parents <:+ st.stackTop) (hsome : (st.decls e.decl).isSome = true)
    (hlast : st.lastBlock ≤ lastBlock) (hblock : e.decl.1 ≤ lastBlock)
    (hbranch : e.inElse = false → e.decl.2 = 0) (horder : ∀ e' ∈ parents, e'.decl.1 < e.decl.1)
    (hpending : Pending st e.decl) (hnext : ∀ p, e.inElse = false → p.1 = e.decl.1 → Pending st p) :
    SecondPass ({ st with stackTop := e :: parents, lastBlock, nextDeclId }, log) := by
  have ht : ClassTables st := h.tables
  have hmem : ∀ e' ∈ parents, e' ∈ st.stackTop := fun e' he' => hparents.subset he'
  refine ⟨⟨⟨ht.classes, ht.permissions⟩, h.declared, h.global, ?_, ?_, h.recorded,
    h.recordedBranch⟩,
    ?_, ?_, ?_⟩
  · refine forall_mem_cons.mpr ⟨⟨hsome, hblock⟩, fun e' he' => ?_⟩
    exact ⟨(h.stack e' (hmem e' he')).1, le_trans (h.stack e' (hmem e' he')).2 hlast⟩
  · exact forall_mem_cons.mpr ⟨hbranch, fun e' he' => h.branch e' (hmem e' he')⟩
  · exact pairwise_cons.mpr ⟨horder, h.order.sublist hparents.sublist⟩
  · intro p d hd hp
    refine h.pending p d hd ?_
    rcases hp with hp | ⟨e', he', hin, hp, hlt⟩
    · exact .inl (lt_of_le_of_lt hlast hp)
    · rcases mem_cons.mp he' with rfl | he'
      · exact hnext p hin hp
      · exact .inr ⟨e', hmem e' he', hin, hp, hlt⟩
  · intro e' l hl d hd
    rcases suffix_cons_iff.mp hl with heq | hl
    · cases heq
      refine (h.pending e.decl d hd hpending).mono (fun p hp => ?_) (fun _ hx => hx)
        (fun _ _ _ _ hv => hv)
      simp [mem_singleton.mp hp]
    · exact h.onStack e' l (hl.trans hparents) d hd

theorem SecondPass.inherit (h : SecondPass (st, log)) {top : ScopeStack} {parents}
    (hstack : st.stackTop = top :: parents) {d} (hd : st.decls top.decl = some d) :
    SecondPass ({ st with
      decls := update st.decls top.decl
        (some { d with required := copyRequirements st.decls d.required parents }) }, log) := by
  have hhas := copyRequirements_has st.decls d.required parents
  have horder := pairwise_cons.mp (hstack ▸ h.order)
  have hother : ∀ e ∈ parents, e.decl ≠ top.decl := by
    intro e he heq
    have hlt := horder.1 e he
    rw [heq] at hlt
    omega
  refine ⟨h.setRequired hd fun i b hb => (hhas i b).mpr (.inl hb), h.order, ?_, ?_⟩
  · intro p x hx hp
    have hne : p ≠ top.decl := by
      rintro rfl
      have htop := (h.stack top (by simp [hstack])).2
      rcases hp with hp | ⟨e, he, _, hblock, hbranch⟩
      · simp only at hp htop
        omega
      · simp only [hstack] at he
        rcases mem_cons.mp he with rfl | he
        · omega
        · have hlt := horder.1 e he
          omega
    simp only [update_of_ne hne] at hx
    exact h.pending p x hx hp
  · intro e l hl x hx
    simp only [hstack] at hl
    rcases suffix_cons_iff.mp hl with heq | hl
    · cases heq
      simp only [update_self, some.injEq] at hx
      subst hx
      intro i b hb
      rcases (hhas i b).mp hb with hb | ⟨e', he', x, hx, hb⟩
      · exact h.onStack top parents (by simp [hstack]) d hd i b hb
      · obtain ⟨l1, l2, hl⟩ := append_of_mem he'
        have hsuffix : (e' :: l2) <:+ st.stackTop := ⟨top :: l1, by rw [hstack, hl, cons_append]⟩
        obtain ⟨p, hp, hreq⟩ := h.onStack e' l2 hsuffix x hx i b hb
        refine ⟨p, ?_, hreq⟩
        simp_all
    · have hmem : e ∈ parents := hl.subset mem_cons_self
      simp only [update_of_ne (hother e hmem)] at hx
      refine h.onStack e l ?_ x hx
      rwa [hstack]

theorem nextDecl_two {decl decls} (h : nextDecl .two st decl = some decls) :
    decls = st.decls ∧ (st.decls decl).isSome = true := by
  simp only [nextDecl] at h
  split_ifs at h with hany
  cases hdecl : st.decls decl with
  | none => simp [hdecl] at hany
  | some d => exact ⟨(some.inj h).symm, rfl⟩

theorem SecondPass.step (h : SecondPass (st, log)) {a} (hstep : scopeStep .two st a = some st') :
    SecondPass (st', log) := by
  cases a with
  | requireClass classId permIds =>
    cases hstep
    exact h
  | requireSymbol =>
    cases hstep
    exact h
  | beginOptional =>
    obtain ⟨decls, hdecls, hstep⟩ := bind_eq_some_iff.mp hstep
    obtain ⟨rfl, hsome⟩ := nextDecl_two hdecls
    cases hstep
    refine h.enter (suffix_refl _) hsome (le_succ _) (le_refl _) (fun _ => rfl)
      (fun e' he' => ?_)
      (.inl (lt_succ_self _)) (fun p _ hp => .inl ?_)
    · exact lt_succ_of_le (h.stack e' he').2
    · rw [hp]
      exact lt_succ_self _
  | beginOptionalElse =>
    rw [scopeStep, beginOptionalElse] at hstep
    cases hstack : st.stackTop with
    | nil => simp [hstack] at hstep
    | cons top parents =>
      simp only [hstack] at hstep
      split_ifs at hstep with hin
      obtain ⟨decls, hdecls, hstep⟩ := bind_eq_some_iff.mp hstep
      obtain ⟨rfl, hsome⟩ := nextDecl_two hdecls
      cases hstep
      have htop : top ∈ st.stackTop := by simp [hstack]
      have hin' : top.inElse = false := by simpa using hin
      exact h.enter (by simp [hstack]) hsome (le_refl _)
        (h.stack top htop).2 (fun h => by cases h)
        (pairwise_cons.mp (hstack ▸ h.order)).1 (.inr ⟨top, htop, hin', rfl, lt_succ_self _⟩)
        (fun p h => by cases h)
  | endAvruleBlock =>
    rw [scopeStep, endAvruleBlock] at hstep
    cases hstack : st.stackTop with
    | nil => simp [hstack] at hstep
    | cons top parents =>
      simp only [hstack] at hstep
      obtain ⟨d, hd, hstep⟩ := bind_eq_some_iff.mp hstep
      cases hstep
      have hinherit := h.inherit hstack hd
      rwa [hstack] at hinherit
  | endOptional =>
    rw [scopeStep, endOptional] at hstep
    cases hstack : st.stackTop with
    | nil => simp [hstack] at hstep
    | cons top parents =>
      simp only [hstack] at hstep
      cases hstep
      have ht : ClassTables st := h.tables
      have hmem : ∀ e ∈ parents, e ∈ st.stackTop := fun e he => by simp [hstack, he]
      refine ⟨⟨⟨ht.classes, ht.permissions⟩, h.declared, h.global, fun e he =>
        h.stack e (hmem e he),
        fun e he => h.branch e (hmem e he), h.recorded, h.recordedBranch⟩, ?_, fun p d hd hp =>
          ?_, fun e l hl => ?_⟩
      · exact (pairwise_cons.mp (hstack ▸ h.order)).2
      · exact h.pending p d hd (hp.imp id fun ⟨e, he, hlt⟩ => ⟨e, hmem e he, hlt⟩)
      · exact h.onStack e l (hl.trans (by simp [hstack]))

end Second

/-! ## Permissions in scope -/

theorem emptyModule_first : FirstPass (definePolicy emptyModule, []) := by
  have hdecl (p : DeclPos) (d : AvruleDecl) (hd : (definePolicy emptyModule).decls p = some d) :
      d = { declId := 1 } := by
    by_cases hp : p = (0, 0)
    · subst hp
      exact (some.inj hd).symm
    · simp only [definePolicy, emptyModule, update_of_ne hp] at hd
      cases hd
  refine ⟨⟨⟨Lib.Numbering.empty, fun c d hc => ?_⟩, ?_, rfl, ?_, ?_, by simp, by simp⟩, ?_, by simp⟩
  · cases hc
  · intro p d hd
    rw [hdecl p d hd]
  · intro e he
    rw [mem_singleton.mp he]
    exact ⟨rfl, le_refl _⟩
  · intro e he _
    rw [mem_singleton.mp he]
  · intro p d hd i b hb
    rw [hdecl p d hd] at hb
    exact absurd hb (ScopeIndex.not_has_empty i b)

theorem FirstPass.foldlM {s s'} (h : FirstPass s)
    (hrun : actions.foldlM (requireStep .one) s = some s') : FirstPass s' := by
  refine Lib.foldlM_inv (fun a _ s s' hs hstep => ?_) h hrun
  obtain ⟨st, hst, rfl⟩ := map_eq_some_iff.mp hstep
  exact hs.step hst

theorem SecondPass.foldlM {s s'} (h : SecondPass s)
    (hrun : actions.foldlM (requireStep .two) s = some s') : SecondPass s' := by
  refine Lib.foldlM_inv (fun a _ s s' hs hstep => ?_) h hrun
  obtain ⟨st, hst, rfl⟩ := map_eq_some_iff.mp hstep
  have hnone : requirementsOf .two s.1 a = [] := by cases a <;> rfl
  rw [hnone, append_nil]
  exact hs.step hst

theorem Reached.scopeSound {s} (h : Reached s) : ScopeSound s := by
  cases h with
  | first h => exact (emptyModule_first.foldlM h).scopeSound
  | second h h' => exact ((emptyModule_first.foldlM h).definePolicy.foldlM h').scopeSound

/-- The index of what is declared is empty, which passes for a permission of any class. -/
theorem ScopeInv.isPermInScope {s} (h : ScopeInv s) {top parents}
    (hstack : s.1.stackTop = top :: parents) (permId classId : Name) :
    isPermInScope s.1 permId classId = true := by
  rw [Checkpolicy.isPermInScope]
  cases hclass : s.1.classes classId with
  | none => rfl
  | some datum =>
    cases hperm : datum.permissions permId with
    | none => simp only [hperm]
    | some value =>
      have hpos := h.tables.value_pos hclass
      obtain ⟨d, hd⟩ := isSome_iff_exists.mp (h.stack top (by simp [hstack])).1
      have hshort : isPermInScopeIndex value datum.value d.declared = true := by
        rw [isPermInScopeIndex, h.declared _ d hd, if_pos (by simpa using hpos)]
      simp [hperm, hstack, isPermInStack, hd, hshort]

/-- A permission that `is_perm_in_scope` finds in scope was required here or in an enclosing
declaration, exactly if one of these has its bit. -/
theorem isPermInScope_required_iff {s : ScopeState × Requirements} (hs : Reached s)
    {top : ScopeStack} {parents : List ScopeStack} (hstack : s.1.stackTop = top :: parents)
    {classId permId : Name} {datum : ClassDatum} (hclass : s.1.classes classId = some datum)
    {value : Nat} (hperm : datum.permissions permId = some value) :
    isPermInScope s.1 permId classId = true ∧
      ((isPermInScope s.1 permId classId = true → ∃ e ∈ s.1.stackTop,
        (e.decl, classId, permId) ∈ s.2) ↔ ∃ e ∈ s.1.stackTop, ∃ d, s.1.decls e.decl = some d ∧
          datum.value ≤ d.required.classPermsMap.length ∧
          isPermInScopeIndex value datum.value d.required = true) := by
  have hinv := hs.scopeSound
  have hscope := hinv.isPermInScope hstack permId classId
  have hpos := hinv.tables.value_pos hclass
  have hpos' := ((hinv.tables.permissions classId datum hclass).bound permId value hperm).1
  have hvalued : Valued s.1 classId permId (datum.value - 1) (value - 1) :=
    ⟨datum, hclass, by omega, by rw [hperm]; congr 1; omega⟩
  have hindex (d : AvruleDecl) : d.required.Has (datum.value - 1) (value - 1) ↔
      datum.value ≤ d.required.classPermsMap.length ∧
        isPermInScopeIndex value datum.value d.required = true := by
    rw [isPermInScopeIndex, ScopeIndex.Has]
    by_cases hlen : d.required.classPermsMap.length < datum.value
    · rw [getD_eq_default _ _ (by omega)]
      simp [Nat.not_le_of_lt hlen]
    · simp [Nat.le_of_not_lt hlen]
  refine ⟨hscope, fun h => ?_, ?_⟩
  · obtain ⟨e, he, hmem⟩ := h hscope
    obtain ⟨d, i, b, hd, hv, hb⟩ := hinv.recorded _ _ _ hmem
    refine ⟨e, he, d, hd, (hindex d).mp ?_⟩
    obtain ⟨datum', hclass', hi, hperm'⟩ := hv
    obtain rfl := some_inj.mp (hclass.symm.trans hclass')
    have hvalue := some_inj.mp (hperm.symm.trans hperm')
    rwa [show datum.value - 1 = i by omega, show value - 1 = b by omega]
  · rintro ⟨e, he, d, hd, hbit⟩ _
    obtain ⟨p, hp, c, q, hmem, hv⟩ := hinv.sound e he d hd _ _ ((hindex d).mpr hbit)
    obtain ⟨rfl, rfl⟩ := hvalued.unique hinv.tables hv
    obtain ⟨e', he', rfl⟩ := mem_map.mp hp
    exact ⟨e', he', hmem⟩

/-- A module with two optional blocks, which require one permission each: the second pass, in the
second block. -/
def secondOptional : Option (ScopeState × Requirements) := do
  let first ← [.requireSymbol, .beginOptional, .requireClass ['c'] [['p']], .endAvruleBlock,
      .endOptional,
    .beginOptional, .requireClass ['c'] [['q']], .endAvruleBlock, .endOptional,
      .endAvruleBlock].foldlM
    (requireStep .one) (definePolicy emptyModule, [])
  [.requireSymbol, .beginOptional, .requireClass ['c'] [['p']], .endAvruleBlock, .endOptional,
    .beginOptional, .requireClass ['c'] [['q']]].foldlM (requireStep .two)
      (definePolicy first.1, first.2)

theorem secondOptional_reached {s} (h : secondOptional = some s) : Reached s := by
  rw [secondOptional] at h
  obtain ⟨first, hfirst, h⟩ := bind_eq_some_iff.mp h
  exact .second hfirst h

/-- The second block may use the permission that only the first one requires. -/
theorem isPermInScope_not_required : ∃ s datum value, Reached s ∧ s.1.classes ['c'] = some datum ∧
    datum.permissions ['p'] = some value ∧ isPermInScope s.1 ['p'] ['c'] = true ∧
    ¬ ∃ e ∈ s.1.stackTop, (e.decl, ['c'], ['p']) ∈ s.2 := by
  have hrun : (secondOptional.bind fun s => (s.1.classes ['c']).bind fun datum =>
      (datum.permissions ['p']).map
      fun _ => isPermInScope s.1 ['p'] ['c'] && s.1.stackTop.all fun e =>
        !s.2.contains (e.decl, ['c'], ['p'])) =
      some true := by decide +kernel
  obtain ⟨s, hs, hrun⟩ := bind_eq_some_iff.mp hrun
  obtain ⟨datum, hdatum, hrun⟩ := bind_eq_some_iff.mp hrun
  obtain ⟨value, hvalue, hrun⟩ := map_eq_some_iff.mp hrun
  rw [Bool.and_eq_true, List.all_eq_true] at hrun
  refine ⟨s, datum, value, secondOptional_reached hs, hdatum, hvalue, hrun.1, ?_⟩
  rintro ⟨e, he, hmem⟩
  have hnot := hrun.2 e he
  simp [hmem] at hnot

theorem isPermInScope_required_second : ∃ s, secondOptional = some s ∧
    isPermInScope s.1 ['q'] ['c'] = true ∧ ∃ e ∈ s.1.stackTop, (e.decl, ['c'], ['q']) ∈ s.2 := by
  have hrun : (secondOptional.bind fun s => (s.1.classes ['c']).bind fun datum =>
      (datum.permissions ['q']).bind
      fun value => s.1.stackTop.head?.bind fun top => (s.1.decls top.decl).map fun d =>
        isPermInScope s.1 ['q'] ['c'] && (decide (datum.value ≤ d.required.classPermsMap.length) &&
          isPermInScopeIndex value datum.value d.required)) = some true := by decide +kernel
  obtain ⟨s, hs, hrun⟩ := bind_eq_some_iff.mp hrun
  obtain ⟨datum, hdatum, hrun⟩ := bind_eq_some_iff.mp hrun
  obtain ⟨value, hvalue, hrun⟩ := bind_eq_some_iff.mp hrun
  obtain ⟨top, htop, hrun⟩ := bind_eq_some_iff.mp hrun
  obtain ⟨d, hd, hrun⟩ := map_eq_some_iff.mp hrun
  obtain ⟨parents, hstack⟩ := head?_eq_some_iff.mp htop
  rw [Bool.and_eq_true, Bool.and_eq_true, decide_eq_true_iff] at hrun
  refine ⟨s, hs, hrun.1, ?_⟩
  exact (isPermInScope_required_iff (secondOptional_reached hs) hstack hdatum hvalue).2.mpr
    ⟨top, by simp [hstack], d, hd, hrun.2⟩ hrun.1

end SELinux.Checkpolicy
