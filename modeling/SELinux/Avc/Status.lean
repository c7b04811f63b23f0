import Mathlib.Data.BitVec

/-!
# Status updates

`selinux_status_updated` compares a sequence number with that of the last call. The kernel has the
number on its status page. Without the page, the callbacks for netlink messages count. -/

namespace SELinux.Avc

open List

inductive StatusEvent where
  | setenforce (enforcing : Bool)
  | policyload (seqno : BitVec 32)

/-- `struct selinux_status_t`. The number is odd only while the kernel writes. -/
structure StatusPage where
  sequence : BitVec 32
  enforcing : Bool
  policyload : BitVec 32
  even : sequence.toNat % 2 = 0

/-- The kernel after an event. -/
def StatusPage.event (p : StatusPage) (e : StatusEvent) : StatusPage where
  sequence := p.sequence + 2#32
  enforcing := match e with | .setenforce enforcing => enforcing | .policyload _ => p.enforcing
  policyload := match e with | .setenforce _ => p.policyload | .policyload seqno => seqno
  even := by
    have := p.even
    rw [BitVec.toNat_add, BitVec.toNat_ofNat]
    omega

/-- The kernel, and the variables of the process. Without the page, `selinux_status` is
`MAP_FAILED`. -/
structure Status where
  kernel : StatusPage
  mapped : Bool
  lastSeqno : BitVec 32
  lastPolicyload : BitVec 32
  avcEnforcing : Bool
  /-- The application has fixed the mode. -/
  avcSetenforce : Bool
  fallbackSequence : BitVec 32 := 0
  fallbackEnforcing : Bool
  fallbackPolicyload : BitVec 32 := 0

namespace Status

def avcProcessSetenforce (s : Status) (enforcing : Bool) : Status :=
  { s with avcEnforcing := if s.avcSetenforce then s.avcEnforcing else enforcing }

/-- A netlink message is processed, with the callbacks of `selinux_status_open`. -/
def avcNetlinkProcess (s : Status) : StatusEvent → Status
  | .setenforce enforcing => { s.avcProcessSetenforce enforcing with
      fallbackSequence := s.fallbackSequence + 2#32, fallbackEnforcing := enforcing }
  | .policyload seqno =>
    { s with fallbackSequence := s.fallbackSequence + 2#32, fallbackPolicyload := seqno }

def selinuxStatusOpen (kernel : StatusPage) (mapped avcEnforcing avcSetenforce : Bool)
    (lastPolicyload : BitVec 32) : Status where
  kernel
  mapped
  lastSeqno := -1
  lastPolicyload := if mapped then kernel.policyload else lastPolicyload
  avcEnforcing
  avcSetenforce
  fallbackEnforcing := kernel.enforcing

/-- The call after some events, whose messages are received if the page is not mapped. There is no
result if the page is read that is not there. -/
def selinuxStatusUpdated (s : Status) (events : List StatusEvent) : Option (Bool × Status) :=
  let s := { s with kernel := events.foldl .event s.kernel }
  let s := if s.mapped then s else events.foldl avcNetlinkProcess s
  let currSeqno := if s.mapped then s.kernel.sequence else s.fallbackSequence
  let s := if s.lastSeqno.toNat % 2 = 1 then { s with lastSeqno := currSeqno } else s
  if s.lastSeqno = currSeqno then some (false, s)
  else if !s.mapped then none
  else
    let s := if s.avcEnforcing ≠ s.kernel.enforcing then s.avcProcessSetenforce s.kernel.enforcing
      else s
    some (true, { s with lastPolicyload := s.kernel.policyload, lastSeqno := s.kernel.sequence })

/-- Each call returns whether there were events, and then has recorded the latest ones. -/
def Reported : Status → List (List StatusEvent) → Prop
  | _, [] => True
  | s, events :: history => ∃ updated s', s.selinuxStatusUpdated events = some (updated, s') ∧
      (updated = true ↔ events ≠ []) ∧ (updated = true →
        s'.avcEnforcing = s'.kernel.enforcing ∧ s'.lastPolicyload = s'.kernel.policyload) ∧
          Reported s' history

/-- Wherever there were events before a call, they leave the kernel in the mode `enforcing`. -/
def ModeStays (enforcing : Bool) : StatusPage → List (List StatusEvent) → Prop
  | _, [] => True
  | kernel, events :: history =>
    (events ≠ [] → (events.foldl .event kernel).enforcing = enforcing) ∧
      ModeStays enforcing (events.foldl .event kernel) history

/-! ## Sequence numbers -/

/-- Every event adds 2 to the number, on the page and in the callbacks. -/
theorem foldl_sequence {σ : Type} {step : σ → StatusEvent → σ} {seq : σ → BitVec 32}
    (hstep : ∀ s e, seq (step s e) = seq s + 2#32) (s : σ) (events : List StatusEvent) :
    seq (events.foldl step s) = seq s + BitVec.ofNat 32 (2 * events.length) := by
  induction events generalizing s with
  | nil => simp
  | cons e events ih =>
    rw [foldl_cons, ih, hstep, BitVec.add_assoc, ← BitVec.ofNat_add, length_cons,
      Nat.mul_succ, Nat.add_comm]

/-- The number does not come round to the same value. -/
theorem eq_sequence_iff {σ : Type} {step : σ → StatusEvent → σ} {seq : σ → BitVec 32}
    (hstep : ∀ s e, seq (step s e) = seq s + 2#32) (s : σ) {events : List StatusEvent}
    (hfew : events.length < 2 ^ 31) : seq s = seq (events.foldl step s) ↔ events = [] := by
  rw [foldl_sequence hstep, ← BitVec.toNat_inj, BitVec.toNat_add, BitVec.toNat_ofNat,
    ← length_eq_zero_iff]
  omega

theorem fallbackSequence_process (s : Status) (e : StatusEvent) :
    (s.avcNetlinkProcess e).fallbackSequence = s.fallbackSequence + 2#32 := by
  cases e <;> rfl

/-- Messages change neither the mode of operation nor what the last call saw. -/
theorem process_kept (s : Status) (events : List StatusEvent) :
    (events.foldl avcNetlinkProcess s).mapped = s.mapped ∧
      (events.foldl avcNetlinkProcess s).lastSeqno = s.lastSeqno := by
  induction events generalizing s with
  | nil => exact ⟨rfl, rfl⟩
  | cons e events ih =>
    obtain ⟨hmapped, hlast⟩ := ih (s.avcNetlinkProcess e)
    cases e <;> exact ⟨hmapped, hlast⟩

/-! ## Histories -/

/-- The rest of a history after a call that came to an end. -/
theorem reported_cons {s s' : Status} {events : List StatusEvent} {updated : Bool}
    (hcall : s.selinuxStatusUpdated events = some (updated, s'))
    (history : List (List StatusEvent)) :
    s.Reported (events :: history) ↔ (updated = true ↔ events ≠ []) ∧
      (updated = true → s'.avcEnforcing = s'.kernel.enforcing ∧
        s'.lastPolicyload = s'.kernel.policyload) ∧ s'.Reported history := by
  simp only [Reported, hcall, Option.some.injEq, Prod.mk.injEq]
  constructor
  · rintro ⟨_, _, ⟨rfl, rfl⟩, h⟩
    exact h
  · exact fun h => ⟨_, _, ⟨rfl, rfl⟩, h⟩

section Calls

variable {s : Status} {history : List (List StatusEvent)}

/-- A call without events before it changes nothing. -/
theorem selinuxStatusUpdated_nil (heven : s.lastSeqno.toNat % 2 = 0)
    (hlast : s.lastSeqno = if s.mapped then s.kernel.sequence else s.fallbackSequence) :
    s.selinuxStatusUpdated [] = some (false, s) := by
  have hodd : ¬ s.lastSeqno.toNat % 2 = 1 := by omega
  simp only [selinuxStatusUpdated, foldl_nil, ite_self]
  rw [if_neg hodd]
  exact if_pos hlast

theorem reported_mapped (hmapped : s.mapped = true) (hlast : s.lastSeqno = s.kernel.sequence)
    (hfew : ∀ events ∈ history, events.length < 2 ^ 31) :
    s.Reported history ↔ s.avcSetenforce = false ∨ ModeStays s.avcEnforcing s.kernel history := by
  induction history generalizing s with
  | nil => simp [Reported, ModeStays]
  | cons events history ih =>
    obtain ⟨hevents, hhistory⟩ := forall_mem_cons.mp hfew
    have hseq : s.kernel.sequence = (events.foldl .event s.kernel).sequence ↔ events = [] :=
      @eq_sequence_iff _ _ StatusPage.sequence (fun _ _ => rfl) s.kernel _ hevents
    have heven := s.kernel.even
    by_cases hnil : events = []
    · subst hnil
      have hcall := selinuxStatusUpdated_nil (by rwa [hlast]) (by rw [hlast, if_pos hmapped])
      rw [reported_cons hcall, ih hmapped hlast hhistory]
      simp [ModeStays]
    · -- a mode that the application has fixed is not changed
      have hcall : s.selinuxStatusUpdated events = some (true, { s with
          kernel := events.foldl .event s.kernel
          avcEnforcing := if s.avcSetenforce then s.avcEnforcing
            else (events.foldl .event s.kernel).enforcing
          lastPolicyload := (events.foldl .event s.kernel).policyload
          lastSeqno := (events.foldl .event s.kernel).sequence }) := by
        by_cases hmode : s.avcEnforcing = (events.foldl .event s.kernel).enforcing <;>
          simp [selinuxStatusUpdated, hmapped, hlast, heven, hseq, hnil, avcProcessSetenforce,
            hmode]
      rw [reported_cons hcall, @ih { s with
        kernel := events.foldl .event s.kernel
        avcEnforcing :=
          if s.avcSetenforce then s.avcEnforcing else (events.foldl .event s.kernel).enforcing
        lastPolicyload := (events.foldl .event s.kernel).policyload
        lastSeqno := (events.foldl .event s.kernel).sequence } hmapped rfl hhistory]
      cases hset : s.avcSetenforce with
      | false => simp [hnil]
      | true => simp [hnil, ModeStays, eq_comm]

/-- The state after the events and, without the page, their messages. -/
def received (s : Status) (events : List StatusEvent) : Status :=
  events.foldl avcNetlinkProcess { s with kernel := events.foldl .event s.kernel }

/-- A call without the page, which reads it if the number has changed. -/
theorem selinuxStatusUpdated_unmapped (hmapped : s.mapped = false) (events : List StatusEvent) :
    s.selinuxStatusUpdated events = if s.lastSeqno.toNat % 2 = 1 then
        some (false, { s.received events with lastSeqno := (s.received events).fallbackSequence })
      else if s.lastSeqno = (s.received events).fallbackSequence then
        some (false, s.received events)
      else none := by
  obtain ⟨hmapped', hlast'⟩ := process_kept { s with kernel := events.foldl .event s.kernel } events
  rw [← received] at hmapped' hlast'
  dsimp only at hmapped' hlast'
  have hreceived : (if s.mapped = true then { s with kernel := events.foldl .event s.kernel }
      else s.received events) = s.received events := if_neg (by simp [hmapped])
  unfold selinuxStatusUpdated
  dsimp only
  rw [← received, hreceived, hmapped', hmapped, hlast']
  by_cases hodd : s.lastSeqno.toNat % 2 = 1
  · simp [hodd]
  · simp [hodd, hlast', hmapped', hmapped]

theorem reported_unmapped (hmapped : s.mapped = false) (hlast : s.lastSeqno = s.fallbackSequence)
    (heven : s.fallbackSequence.toNat % 2 = 0) (hfew : ∀ events ∈ history, events.length < 2 ^ 31) :
    s.Reported history ↔ ∀ events ∈ history, events = [] := by
  induction history with
  | nil => simp [Reported]
  | cons events history ih =>
    obtain ⟨hevents, hhistory⟩ := forall_mem_cons.mp hfew
    by_cases hnil : events = []
    · subst hnil
      have hcall := selinuxStatusUpdated_nil (by rwa [hlast]) (by rw [hlast, hmapped]; rfl)
      rw [reported_cons hcall, ih hhistory]
      simp
    · have hseq : s.fallbackSequence ≠ (s.received events).fallbackSequence := fun heq =>
        hnil ((eq_sequence_iff fallbackSequence_process
          { s with kernel := events.foldl .event s.kernel } hevents).mp heq)
      have hcall : s.selinuxStatusUpdated events = none := by
        rw [selinuxStatusUpdated_unmapped hmapped, hlast, if_neg (by omega), if_neg hseq]
      simp [Reported, hcall, hnil]

end Calls

end Status

end SELinux.Avc
