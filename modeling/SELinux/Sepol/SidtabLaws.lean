import SELinux.Sepol.Sidtab

/-! The laws of the SID table over whole runs: what a table has been told, by insertions and
by the SIDs it gave out, stays true. A SID that is given out must not be `0`, since a search
that finds the SID `0` counts as one that finds nothing. -/
namespace SELinux.Sepol

open Sidtab List

/-! ## Runs -/

/-- A successful call: a SID inserted with its context, or the SID returned for a context. -/
inductive SidEvent where
  | inserted (sid : Nat) (context : Context)
  | returned (sid : Nat) (context : Context)
  deriving DecidableEq

namespace SidEvent

def sid : SidEvent → Nat
  | inserted sid _ | returned sid _ => sid

def context : SidEvent → Context
  | inserted _ context | returned _ context => context

end SidEvent

/-- The tables that successful calls lead to from a fresh one, with the calls made, the last
one first. `ok` is asked of the table and the context of each call of
`sepol_sidtab_context_to_sid`. -/
inductive SidtabRun (ok : Sidtab → Context → Prop) : List SidEvent → Sidtab → Prop
  | init : SidtabRun ok [] (sepolSidtabInit (fun _ => false) {})
  | insert {events s s' sid c} (fail : SidAlloc → Bool) (run : SidtabRun ok events s)
    (hsid : sid ≤ uintMax)
    (h : sepolSidtabInsert fail s sid c = .ok s') : SidtabRun ok (.inserted sid c :: events) s'
  | contextToSid {events s s' sid c} (fail : SidAlloc → Bool) (run : SidtabRun ok events s)
    (hok : ok s c)
    (h : sepolSidtabContextToSid fail s c = .ok (sid, s')) :
    SidtabRun ok (.returned sid c :: events) s'

/-- When a context can be given a SID: there is a next SID, or the context has one. -/
def Sidtab.CanAssign (s : Sidtab) (c : Context) : Prop :=
  s.nextSid ≠ 0 ∨ ∃ e ∈ s.entries, e.2 = c

/-- A later call for a context returns another SID than an earlier one only if the context
was also inserted, under another SID than the earlier one, before the later call. -/
def SameSid (events : List SidEvent) : Prop :=
  ∀ before c sid sid', (.returned sid' c :: before) <:+ events → .returned sid c ∈ before →
    sid' = sid ∨ ∃ other, .inserted other c ∈ before ∧ other ≠ sid

structure SidtabLaws (events : List SidEvent) (s : Sidtab) : Prop where
  keeps : ∀ e ∈ events, sepolSidtabSearch s e.sid = some e.context
  distinct : ∀ e ∈ events, ∀ e' ∈ events, e.context ≠ e'.context → e.sid ≠ e'.sid
  same : SameSid events

/-! ## What a call does to the entries -/

variable {s s' : Sidtab}

theorem Sidtab.lookup_eq_some {sid c} : s.lookup sid = some c ↔ (sid, c) ∈ s.entries := by
  unfold lookup entries
  cases s.htable with
  | none => simp
  | some h => exact Lib.Buckets.find?_eq_some

/-- The SID that is found for a context; `0` if none is. -/
def Sidtab.sidOf (s : Sidtab) (c : Context) : Nat :=
  ((s.entries.find? fun e => contextCmp e.2 c).map Prod.fst).getD 0

theorem Sidtab.sidOf_eq {h} (hs : s.htable = some h) (c : Context) :
    sepolSidtabSearchContext h c = s.sidOf c := by
  unfold sepolSidtabSearchContext sidOf entries
  simp only [hs]
  cases h.entries.find? fun e => contextCmp e.2 c <;> rfl

theorem Sidtab.sidOf_eq_zero {c} (h : s.sidOf c = 0) :
    (∀ e ∈ s.entries, e.2 ≠ c) ∨ s.lookup 0 = some c := by
  unfold sidOf at h
  cases hf : s.entries.find? fun e => contextCmp e.2 c with
  | none =>
    refine .inl fun e he hec => ?_
    exact find?_eq_none.mp hf e he (contextCmp_iff.mpr hec)
  | some e =>
    have hcmp : contextCmp e.2 c = true := by simpa using find?_some hf
    rw [hf] at h
    refine .inr (lookup_eq_some.mpr ?_)
    have he := mem_of_find?_eq_some hf
    rwa [← contextCmp_iff.mp hcmp, ← (show e.1 = 0 from h)]

/-- A new entry for a SID that was free, at one place of the table. -/
structure Sidtab.Added (s : Sidtab) (sid : Nat) (c : Context) (s' : Sidtab) : Prop where
  free : s.lookup sid = none
  entries : ∃ l r, s.entries = l ++ r ∧ s'.entries = l ++ (sid, c) :: r

theorem sepolSidtabInsert_added {fail} {sid c}
    (h : sepolSidtabInsert fail s sid c = .ok s') : s.Added sid c s' := by
  obtain ⟨t, t', ht, hi, rfl⟩ := sepolSidtabInsert_cases h
  refine ⟨?_, ?_⟩
  · rw [Sidtab.lookup, ht, ← Option.not_isSome_iff_eq_none]
    show ¬ (t.find? sid).isSome = true
    rw [← Lib.Buckets.insert_eq_none, hi]
    simp
  · simp only [Sidtab.entries, ht]
    exact Lib.Buckets.entries_insert hi

namespace Sidtab.Added

variable {sid : Nat} {c : Context}

theorem lookup (h : s.Added sid c s') {j w} :
    s'.lookup j = some w ↔ (j, w) = (sid, c) ∨ s.lookup j = some w := by
  obtain ⟨l, r, hs, hs'⟩ := h.entries
  rw [lookup_eq_some, lookup_eq_some, hs, hs']
  simp only [mem_append, mem_cons]
  tauto

theorem sidOf_of_ne (h : s.Added sid c s') {c'} (hne : c' ≠ c) : s'.sidOf c' = s.sidOf c' := by
  obtain ⟨l, r, hs, hs'⟩ := h.entries
  have hcmp : contextCmp c c' = false := by
    rw [Bool.eq_false_iff, Ne, contextCmp_iff]
    exact fun heq => hne heq.symm
  simp [sidOf, hs, hs', find?_append, hcmp]

theorem sidOf_self (h : s.Added sid c s') (hnew : ∀ e ∈ s.entries, e.2 ≠ c) : s'.sidOf c = sid := by
  obtain ⟨l, r, hs, hs'⟩ := h.entries
  have hnone : (l.find? fun e => contextCmp e.2 c) = none := by
    rw [find?_eq_none]
    intro e he hcmp
    exact hnew e (hs ▸ mem_append_left _ he) (contextCmp_iff.mp hcmp)
  simp [sidOf, hs', find?_append, hnone, contextCmp_iff.mpr rfl]

end Sidtab.Added

theorem sepolSidtabContextToSid_sidOf {fail} {c sid}
    (h : sepolSidtabContextToSid fail s c = .ok (sid, s')) : s.sidOf c = sid ∧ sid ≠ 0 ∧ s' = s ∨
      s.sidOf c = 0 ∧ sid = s.nextSid ∧ s.Added sid c s' := by
  obtain ⟨t, ht, ⟨hfound, hne, hs⟩ | ⟨hnone, hnext, hins⟩⟩ := sepolSidtabContextToSid_cases h
  · exact .inl ⟨sidOf_eq ht c ▸ hfound, hne, hs⟩
  · have hadded := sepolSidtabInsert_added hins
    exact .inr ⟨sidOf_eq ht c ▸ hnone, hnext, hadded.free, hadded.entries⟩

/-- The SID that is returned is `0` exactly if the context could not be given one. -/
theorem sepolSidtabContextToSid_ne_zero {fail} {c sid}
    (h : sepolSidtabContextToSid fail s c = .ok (sid, s')) : sid ≠ 0 ↔ s.CanAssign c := by
  obtain ⟨hfound, hne, -⟩ | ⟨hnone, rfl, hadded⟩ := sepolSidtabContextToSid_sidOf h
  · refine iff_of_true hne (.inr ?_)
    by_contra hno
    have hmiss : (s.entries.find? fun e => contextCmp e.2 c) = none := by
      rw [find?_eq_none]
      exact fun e he hcmp => hno ⟨e, he, contextCmp_iff.mp hcmp⟩
    simp only [sidOf, hmiss, Option.map_none, Option.getD_none] at hfound
    exact hne hfound.symm
  · refine ⟨.inl, fun hcan hzero => ?_⟩
    rcases sidOf_eq_zero hnone with hnew | hlookup
    · rcases hcan with hnext | ⟨e, he, hec⟩
      · exact hnext hzero
      · exact hnew e he hec
    · -- the SID `0` is taken
      have := hadded.free
      rw [hzero, hlookup] at this
      cases this

/-! ## The invariant of a run -/

/-- The entries are what the calls have made them, no SID given out is `0`, and a SID that was
given out is still the one that is found, unless an insertion came in between. -/
structure SidtabInv (events : List SidEvent) (s : Sidtab) : Prop where
  keeps : ∀ e ∈ events, s.lookup e.sid = some e.context
  origin : ∀ sid c, s.lookup sid = some c → .inserted sid c ∈ events ∨ .returned sid c ∈ events
  nonzero : ∀ sid c, .returned sid c ∈ events → sid ≠ 0
  found : ∀ sid c, .returned sid c ∈ events →
    s.sidOf c = sid ∨ ∃ other, .inserted other c ∈ events ∧ other ≠ sid

namespace SidtabInv

variable {events : List SidEvent} {sid : Nat} {c : Context}

theorem init : SidtabInv [] (sepolSidtabInit (fun _ => false) {}) where
  keeps _ he := nomatch he
  origin sid c h := by simp [Sidtab.lookup, sepolSidtabInit] at h
  nonzero _ _ he := nomatch he
  found _ _ he := nomatch he

theorem insert (h : SidtabInv events s) (hadded : s.Added sid c s') :
    SidtabInv (.inserted sid c :: events) s' where
  keeps e he := by
    rcases mem_cons.mp he with rfl | he
    · exact hadded.lookup.mpr (.inl rfl)
    · exact hadded.lookup.mpr (.inr (h.keeps e he))
  origin j w hj := by
    rcases hadded.lookup.mp hj with heq | hj
    · cases heq
      exact .inl mem_cons_self
    · exact (h.origin j w hj).imp (mem_cons_of_mem _) (mem_cons_of_mem _)
  nonzero j w hj := h.nonzero j w (by simpa using hj)
  found j w hj := by
    have hj' : .returned j w ∈ events := by simpa using hj
    rcases eq_or_ne w c with rfl | hne
    · -- the SID of the earlier call is taken, so the new one is another
      refine .inr ⟨sid, mem_cons_self, ?_⟩
      rintro rfl
      have hkeeps := h.keeps _ hj'
      rw [SidEvent.sid, hadded.free] at hkeeps
      cases hkeeps
    · rw [hadded.sidOf_of_ne hne]
      exact (h.found j w hj').imp_right fun ⟨other, ho, hne⟩ => ⟨other, mem_cons_of_mem _ ho, hne⟩

/-- The SID that is returned is the one of every earlier call for the context, unless the
context was inserted. -/
theorem returned_eq (h : SidtabInv events s) {fail}
    (hrun : sepolSidtabContextToSid fail s c = .ok (sid, s')) {j} (hj : .returned j c ∈ events) :
    sid = j ∨ ∃ other, .inserted other c ∈ events ∧ other ≠ j := by
  refine (h.found j c hj).imp_left fun hfound => ?_
  obtain ⟨hsid, -, -⟩ | ⟨hnone, -, -⟩ := sepolSidtabContextToSid_sidOf hrun
  · exact hsid.symm.trans hfound
  · exact absurd (hfound.symm.trans hnone) (h.nonzero j c hj)

theorem contextToSid (h : SidtabInv events s) {fail} (hcan : s.CanAssign c)
    (hrun : sepolSidtabContextToSid fail s c = .ok (sid, s')) :
    SidtabInv (.returned sid c :: events) s' := by
  have hne : sid ≠ 0 := (sepolSidtabContextToSid_ne_zero hrun).mpr hcan
  have hok := sepolSidtabContextToSid_ok hrun
  have hnonzero : ∀ j w, .returned j w ∈ SidEvent.returned sid c :: events → j ≠ 0 := by
    intro j w hj
    rcases mem_cons.mp hj with heq | hj
    · cases heq
      exact hne
    · exact h.nonzero j w hj
  have hkeeps : ∀ e ∈ SidEvent.returned sid c :: events, s'.lookup e.sid = some e.context := by
    intro e he
    rcases mem_cons.mp he with rfl | he
    · exact hok.1
    · exact hok.2 _ _ (h.keeps e he)
  obtain ⟨hsid, -, rfl⟩ | ⟨hnone, -, hadded⟩ := sepolSidtabContextToSid_sidOf hrun
  · refine ⟨hkeeps, fun j w hj => ?_, hnonzero, fun j w hj => ?_⟩
    · exact (h.origin j w hj).imp (mem_cons_of_mem _) (mem_cons_of_mem _)
    · rcases mem_cons.mp hj with heq | hj
      · cases heq
        exact .inl hsid
      · exact (h.found j w hj).imp_right fun ⟨other, ho, hne⟩ => ⟨other, mem_cons_of_mem _ ho, hne⟩
  · refine ⟨hkeeps, fun j w hj => ?_, hnonzero, fun j w hj => ?_⟩
    · rcases hadded.lookup.mp hj with heq | hj
      · cases heq
        exact .inr mem_cons_self
      · exact (h.origin j w hj).imp (mem_cons_of_mem _) (mem_cons_of_mem _)
    · have hold : .returned j w ∈ events →
          s'.sidOf w = j ∨ ∃ other, .inserted other w ∈ SidEvent.returned sid c :: events ∧
            other ≠ j := by
        intro hold
        rcases h.found j w hold with hfound | ⟨other, ho, hne⟩
        · -- what is found by its context is not `c`, which was not found
          have hwc : w ≠ c := by
            rintro rfl
            exact h.nonzero j _ hold (hfound.symm.trans hnone)
          exact .inl ((hadded.sidOf_of_ne hwc).trans hfound)
        · exact .inr ⟨other, mem_cons_of_mem _ ho, hne⟩
      rcases mem_cons.mp hj with heq | hj
      · cases heq
        rcases sidOf_eq_zero hnone with hnew | hlookup
        · exact .inl (hadded.sidOf_self hnew)
        · -- the context stands under the SID `0`, which no call has returned
          rcases h.origin 0 c hlookup with hins | hret
          · exact .inr ⟨0, mem_cons_of_mem _ hins, hne.symm⟩
          · exact absurd rfl (h.nonzero 0 c hret)
      · exact hold hj

theorem of_run {ok} (hok : ∀ s c, ok s c → s.CanAssign c) (run : SidtabRun ok events s) :
    SidtabInv events s := by
  induction run with
  | init => exact init
  | insert _ _ _ h ih => exact ih.insert (sepolSidtabInsert_added h)
  | contextToSid _ _ hstep h ih => exact ih.contextToSid (hok _ _ hstep) h

end SidtabInv

theorem SidtabRun.sameSid {events s} (run : SidtabRun Sidtab.CanAssign events s) :
    SameSid events := by
  intro before c sid sid' hsuffix hmem
  induction run with
  | init => simp at hsuffix
  | insert _ _ _ _ ih =>
    rcases suffix_cons_iff.mp hsuffix with heq | hsuffix
    · cases heq
    · exact ih hsuffix
  | contextToSid _ run _ h ih =>
    rcases suffix_cons_iff.mp hsuffix with heq | hsuffix
    · cases heq
      exact (SidtabInv.of_run (fun _ _ h => h) run).returned_eq h hmem
    · exact ih hsuffix

/-- In every run in which contexts are given SIDs only while there is a next SID, or to
contexts that have one, the laws of the table hold in every state; and from every state
reached, a call returns a SID that stands for a context exactly if it is of that kind. -/
theorem sidtab_laws {events : List SidEvent} {s : Sidtab}
    (run : SidtabRun Sidtab.CanAssign events s) : SidtabLaws events s ∧
      ∀ fail c sid s', sepolSidtabContextToSid fail s c = .ok (sid, s') →
        (sid ≠ 0 ↔ s.CanAssign c) := by
  have hinv := SidtabInv.of_run (fun _ _ h => h) run
  refine ⟨⟨fun e he => sepolSidtabSearch_of_lookup (hinv.keeps e he), fun e he e' he' hne heq => ?_,
    run.sameSid⟩, fun fail c sid s' h => sepolSidtabContextToSid_ne_zero h⟩
  have hsame := hinv.keeps e he
  rw [heq, hinv.keeps e' he'] at hsame
  exact hne (Option.some_inj.mp hsame).symm

/-- The table after an insertion of the last SID, which leaves `0` as the next one. -/
def fullSidtab : Sidtab :=
  ((sepolSidtabInsert (fun _ => false) (sepolSidtabInit (fun _ => false) {}) uintMax
    { user := 1 }).toOption).getD {}

/-- The table after a call for a context. -/
def afterContext (s : Sidtab) (c : Context) : Sidtab :=
  ((sepolSidtabContextToSid (fun _ => false) s c).toOption.map Prod.snd).getD {}

/-- After an insertion of the last SID, a context gets the SID `0`, and with the next call
the SID `1`. -/
theorem sidtab_second_sid :
    SidtabRun (fun _ _ => True) [.returned 1 {}, .returned 0 {}, .inserted uintMax { user := 1 }]
      (afterContext (afterContext fullSidtab {}) {}) ∧
    ¬ SameSid [.returned 1 {}, .returned 0 {}, .inserted uintMax { user := 1 }] := by
  refine ⟨?_, fun h => ?_⟩
  · exact .contextToSid (fun _ => false) (.contextToSid (fun _ => false)
      (.insert (fun _ => false) .init (by decide) rfl) trivial rfl) trivial rfl
  · have := h [.returned 0 {}, .inserted uintMax { user := 1 }] {} 0 1 suffix_rfl (by simp)
    simp at this

theorem sidtab_laws_twice : SidtabLaws [.returned 1 {}, .returned 1 {}]
      (afterContext (afterContext (sepolSidtabInit (fun _ => false) {}) {}) {}) := by
  exact (sidtab_laws (.contextToSid (fun _ => false) (.contextToSid (fun _ => false)
    .init (.inl (by decide)) rfl) (.inl (by decide)) rfl)).1

end SELinux.Sepol
