import TurboFlow.Inbox.Conservation
import TurboFlow.Inbox.Partition
import TurboFlow.Durable.Rates
import Mathlib.Data.List.MinMax
import Mathlib.Data.List.Perm.Subperm

/-!
# The latency observation of a durable buffer

Once the first latency snapshot has enabled the observation, a binding tracks the admission times of
the records admitted through it, and forgets a record when it is claimed. The tracked records are
pending, so a snapshot that finds as many tracked as pending records has tracked all of them.
-/

namespace TurboFlow.Durable

open Inbox Word Transition Table List Option

structure LatencyPending where
  recordId : ℕ
  admittedNs : ℕ

/-- The latency fields of `turbo_flow_durable_buffer_binding_t`. -/
structure Latency where
  enabled : Bool
  startedNs : ℕ
  claimSamples : ℕ
  claimLastNs : ℕ
  claimMeanNs : ℕ
  claimMaxNs : ℕ
  untrackedClaims : ℕ
  trackingUncertain : Bool
  pending : List LatencyPending

def Latency.init : Latency := ⟨false, 0, 0, 0, 0, 0, 0, false, []⟩

def Latency.find (l : Latency) (recordId : ℕ) : Option ℕ :=
  if recordId = 0 then none else l.pending.findIdx? (·.recordId = recordId)

def Latency.sample (l : Latency) (latency : ℕ) : Latency :=
  { l with
    claimSamples := if l.claimSamples ≠ max64 then l.claimSamples + 1 else l.claimSamples
    claimMeanNs :=
      if l.claimSamples ≠ max64 then
        if latency ≥ l.claimMeanNs then
          l.claimMeanNs + (latency - l.claimMeanNs) / (l.claimSamples + 1)
        else l.claimMeanNs - (l.claimMeanNs - latency) / (l.claimSamples + 1)
      else l.claimMeanNs
    claimLastNs := latency
    claimMaxNs := if latency > l.claimMaxNs then latency else l.claimMaxNs }

/-- `flow_durable_latency_claim_end` of a claim that `flow_durable_latency_claim_begin` observed. -/
def Latency.claimEnd (l : Latency) (claim : Except Status Claim) (now : ℕ) : Latency :=
  match claim with
  | .error _ => l
  | .ok claim =>
    match l.find claim.recordId with
    | none =>
      { l with
        untrackedClaims :=
          if l.untrackedClaims ≠ max64 then l.untrackedClaims + 1 else l.untrackedClaims }
    | some index =>
      let latency := l.pending[index]?.elim 0 fun entry => elapsedSince entry.admittedNs now
      { l.sample latency with pending := l.pending.eraseIdx index }

/-- `flow_durable_buffer_admit_observed` of an admission that returns `rc` and the id, between two
snapshots; `pushed`: the vector could grow. -/
def Latency.admitObserved (l : Latency) (before after : Except Status Inbox.Snapshot) (rc : Status)
    (recordId now : ℕ) (pushed : Bool) : Latency :=
  if ¬ l.enabled then l
  else
    match before with
    | .error _ => { l with trackingUncertain := true }
    | .ok before =>
      if rc ≠ .ok then l
      else
        match after with
        | .error _ => { l with trackingUncertain := true }
        | .ok after =>
          if after.admitted = add64 before.admitted 1 ∧
              after.pendingRecords = add64 before.pendingRecords 1 then
            if pushed then { l with pending := l.pending ++ [⟨recordId, now⟩] }
            else { l with trackingUncertain := true }
          else if after.admitted ≠ before.admitted ∨
              after.pendingRecords ≠ before.pendingRecords then
            { l with trackingUncertain := true }
          else l

structure LatencySnapshot where
  observationElapsedNs : ℕ
  oldestPendingAgeValid : Bool
  pendingRecords : ℕ
  trackedPendingRecords : ℕ
  untrackedPendingRecords : ℕ
  oldestPendingAgeNs : ℕ
  claimSamples : ℕ
  lastClaimLatencyNs : ℕ
  meanClaimLatencyNs : ℕ
  maxClaimLatencyNs : ℕ
  untrackedClaims : ℕ

def Latency.enable (l : Latency) (now : ℕ) : Latency :=
  if l.enabled then l else { Latency.init with enabled := true, startedNs := now }

def Latency.settleUncertain (l : Latency) (pendingRecords : ℕ) : Latency :=
  { l with
    trackingUncertain :=
      if l.pending.length > pendingRecords then true
      else if pendingRecords = 0 ∧ l.pending.length = 0 then false
      else l.trackingUncertain }

/-- The earliest of `now` and the tracked admission times. -/
def oldestOf (now : ℕ) (pending : List LatencyPending) : ℕ :=
  pending.foldl
    (fun oldest entry => if entry.admittedNs < oldest then entry.admittedNs else oldest) now

def Latency.report (l : Latency) (pendingRecords now : ℕ) : LatencySnapshot :=
  let tracked := l.pending.length
  let valid : Bool := !l.trackingUncertain && pendingRecords == tracked
  { observationElapsedNs := elapsedSince l.startedNs now
    oldestPendingAgeValid := valid
    pendingRecords
    trackedPendingRecords := tracked
    untrackedPendingRecords := if pendingRecords > tracked then pendingRecords - tracked else 0
    oldestPendingAgeNs :=
      if valid ∧ tracked ≠ 0 then elapsedSince (oldestOf now l.pending) now else 0
    claimSamples := l.claimSamples
    lastClaimLatencyNs := l.claimLastNs
    meanClaimLatencyNs := l.claimMeanNs
    maxClaimLatencyNs := l.claimMaxNs
    untrackedClaims := l.untrackedClaims }

/-- `turbo_flow_durable_buffer_latency_snapshot` of a binding. -/
def Latency.snapshot (l : Latency) (validated : Status)
    (provider : Except Status Inbox.Snapshot) (now : ℕ) :
    Latency × Except Status LatencySnapshot :=
  if validated ≠ .ok then (l, .error validated)
  else
    match provider with
    | .error rc => (l, .error rc)
    | .ok provider =>
      let l := (l.enable now).settleUncertain provider.pendingRecords
      (l, .ok (l.report provider.pendingRecords now))

/-! ### The binding with its inbox -/

structure Observed where
  inbox : System
  latency : Latency

open Observed

/-- The calls through a binding, with the clock and the failures of a snapshot, of the copy of a
record and of the push of an entry. -/
inductive ObservedOp
  | admitObserved (record : Record) (copied : Bool) (before after : Option Status) (now : ℕ)
      (pushed : Bool)
  | claim (request : ClaimRequest) (now : ℕ)
  /-- The settlements of drivers and operators. -/
  | settle (op : Operation)
  | snapshot (validated : Status) (fault : Option Status) (now : ℕ)

inductive ObservedOutcome
  | inbox (out : Outcome)
  | snapshot (result : Except Status LatencySnapshot)

/-- `turbo_flow_inbox_snapshot`, which may fail. -/
def providerSnapshot (fault : Option Status) (memory : Memory) : Except Status Inbox.Snapshot :=
  match fault with
  | some rc => .error rc
  | none => inboxSnapshot memory

/-- `turbo_flow_inbox_admit`, with both of its critical sections. -/
def admitWhole (inbox : System) (record : Record) (copied : Bool) : Option (System × Outcome) :=
  match act inbox (.admitRecord record) with
  | some (reserved, .reserved _) =>
    let k := inbox.inFlight.length
    act reserved (if copied then .commit k else .copyFailed k)
  | answer => answer

def Observed.step (s : Observed) : ObservedOp → Option (Observed × ObservedOutcome)
  | .admitObserved record copied before after now pushed =>
    match admitWhole s.inbox record copied with
    | some (inbox, .admitted source rc recordId) =>
      some (⟨inbox, s.latency.admitObserved (providerSnapshot before s.inbox.memory)
        (providerSnapshot after inbox.memory) rc recordId now pushed⟩,
        .inbox (.admitted source rc recordId))
    | _ => none
  | .claim request now =>
    let (memory, claim) := inboxClaim s.inbox.memory request
    some (⟨{ s.inbox with memory }, if s.latency.enabled then s.latency.claimEnd claim now else
      s.latency⟩, .inbox (.claimed claim))
  | .settle op =>
    if (settlement s.inbox.memory op).isSome then
      (act s.inbox op).map fun (inbox, out) => ({ s with inbox }, .inbox out)
    else none
  | .snapshot validated fault now =>
    let (latency, result) :=
      s.latency.snapshot validated (providerSnapshot fault s.inbox.memory) now
    some ({ s with latency }, .snapshot result)

/-! ### Which records are pending -/

section Pending

variable {inbox inbox' : System} {recordId : ℕ} {op : Operation}

def pendingIds (slots : List Slot) : List ℕ :=
  slots.filterMap fun slot =>
    slot.record.bind fun a => if a.phase = .pending then some a.recordId else none

theorem length_pendingIds (slots : List Slot) :
    (pendingIds slots).length = phaseCount (· = .pending) slots := by
  induction slots with
  | nil => rfl
  | cons slot slots ih =>
    unfold phaseCount pendingIds at *
    rw [tally_cons, filterMap_cons, ← ih]
    obtain ⟨_ | a, _⟩ := slot
    · simp [Slot.weigh]
    by_cases hpending : a.phase = .pending
    · simp [Slot.weigh, hpending, Nat.add_comm]
    · simp [Slot.weigh, hpending]

theorem mem_pendingIds : recordId ∈ pendingIds inbox.memory.slots ↔ Pends inbox recordId := by
  simp only [pendingIds, mem_filterMap, bind_eq_some_iff, ite_none_right_eq_some, some.injEq]
  constructor
  · rintro ⟨slot, hmem, a, ha, hpending, hid⟩
    obtain ⟨i, hi⟩ := mem_iff_getElem?.mp hmem
    exact ⟨i, a, (recordAt_of_getElem? hi).trans ha, hid, hpending⟩
  rintro ⟨i, a, ha, hid, hpending⟩
  obtain ⟨slot, hmem, hrecord⟩ := slot_of_recordAt ha
  exact ⟨slot, hmem, a, hrecord, hpending, hid⟩

theorem pendingRecords_of_snapshot (h : Sound inbox) {fault : Option Status}
    {provider : Inbox.Snapshot} (hsnapshot : providerSnapshot fault inbox.memory = .ok provider) :
    provider.pendingRecords = (pendingIds inbox.memory.slots).length ∧
      provider.admitted = inbox.memory.admitted := by
  unfold providerSnapshot inboxSnapshot at hsnapshot
  split at hsnapshot
  · cases hsnapshot
  dsimp only at hsnapshot
  split at hsnapshot
  · cases hsnapshot
    obtain ⟨hlive, -⟩ := h.consistent.gauges_lt
    have hparts := phaseCount_isLive inbox.memory.slots
    have := h.consistent.live
    exact ⟨(countPhase_eq (by omega)).trans (length_pendingIds _).symm, rfl⟩
  · cases hsnapshot

theorem pends_settlement {result : Memory × Status}
    (hresult : settlement inbox.memory op = some result) (h : Pends inbox recordId) :
    Pends { inbox with memory := result.1 } recordId := by
  have hsettles : ∀ {id : ℕ} {mv : Move} {P : MemoryRecord → Prop},
      Settles inbox.memory id mv P result → mv.before ≠ .pending →
        Pends { inbox with memory := result.1 } recordId := by
    intro id mv P hs hmv
    cases hs with
    | refused => exact h
    | moved record' hslot hrecord _ _ hbefore =>
      refine h.of_recordAt fun i a ha hpending => ?_
      rcases recordAt_settle hslot hrecord mv record' i with ⟨-, hold, -⟩ | ⟨-, hsame⟩
      · obtain rfl := some.inj (hold.symm.trans ha)
        exact absurd (hbefore.symm.trans hpending) hmv
      · exact hsame.trans ha
  cases op with
  | complete id token =>
    cases hresult
    exact hsettles (memoryComplete_settles inbox.memory id token) (by decide)
  | fail id token status =>
    cases hresult
    exact hsettles (memoryFail_settles inbox.memory id token status) (by decide)
  | retry id =>
    cases hresult
    exact hsettles (memoryRetry_settles inbox.memory id) (by decide)
  | discard id =>
    cases hresult
    exact hsettles (memoryDiscard_settles inbox.memory id) (by decide)
  | forget id =>
    cases hresult
    rcases memoryForget_cases inbox.memory id with ⟨rc, heq, -⟩ | ⟨index, b, hslot, -, hphase, heq⟩
    · rwa [heq]
    rw [heq]
    refine h.of_recordAt fun i a ha hpending => ?_
    have hne : index ≠ i := by
      rintro rfl
      obtain rfl := some.inj ((recordAt_of_getElem? hslot).symm.trans ha)
      cases hphase.symm.trans hpending
    exact (recordAt_withRecord_of_ne hne none).trans ha
  | close =>
    cases hresult
    refine h.of_recordAt fun i a ha _ => ?_
    unfold memoryClose
    split <;> exact ha
  | _ => cases hresult

theorem pends_claim (hsound : Sound inbox) {request : ClaimRequest} (h : Pends inbox recordId)
    (hother : ∀ claim, (inboxClaim inbox.memory request).2 = .ok claim →
      claim.recordId ≠ recordId) :
    Pends { inbox with memory := (inboxClaim inbox.memory request).1 } recordId := by
  rw [hsound.inboxClaim_eq] at hother ⊢
  rcases memoryClaimSelect_cases inbox.memory request with ⟨rc, heq⟩ | ⟨index, b, hselected, heq⟩
  · rwa [heq]
  rw [heq] at hother ⊢
  obtain ⟨slot, hslot, hrecord⟩ := hselected.slot
  obtain ⟨i, a, ha, hid, hpending⟩ := h
  rcases recordAt_settle hslot hrecord .claim (leaseRecord inbox.memory b) i with
    ⟨-, hold, -⟩ | ⟨-, hsame⟩
  · obtain rfl := some.inj (hold.symm.trans ha)
    exact absurd hid (hother _ rfl)
  · exact ⟨i, a, hsame.trans ha, hid, hpending⟩

/-- What an admission without another one in flight does: if it is counted, it stores its record
under a new id. -/
structure Admits (inbox inbox' : System) (rc : Status) (recordId : ℕ) : Prop where
  sound : Sound inbox'
  idle : inbox'.inFlight = []
  pends : ∀ id, Pends inbox id → Pends inbox' id
  fresh : rc = .ok → inbox'.memory.admitted ≠ inbox.memory.admitted →
    recordId ≠ 0 ∧ Pends inbox' recordId ∧
      ∀ i a, recordAt inbox.memory.slots i = some a → a.recordId ≠ recordId

theorem commit_spec (inbox : System) (r : Reservation) :
    (∀ id, Pends inbox id → Pends ⟨(memoryAdmitCommit inbox.memory r).1, []⟩ id) ∧
      ((memoryAdmitCommit inbox.memory r).1.admitted ≠ inbox.memory.admitted →
        (memoryAdmitCommit inbox.memory r).2.2 = r.recordId ∧
          Pends ⟨(memoryAdmitCommit inbox.memory r).1, []⟩ r.recordId) := by
  have hreleased : ∀ id, Pends inbox id →
      Pends ⟨memoryReleaseReservation inbox.memory r.slot r.bytes, []⟩ id := fun id h =>
    h.of_recordAt fun i a ha _ => by simpa using ha
  unfold memoryAdmitCommit
  split
  · split <;> exact ⟨hreleased, absurd rfl⟩
  split
  · rename_i hslot
    refine ⟨fun id h => h.of_recordAt fun i a ha _ => ?_,
      fun _ => ⟨rfl, r.slot, memoryRecordCopy r, ?_, rfl, rfl⟩⟩
    · have hne : r.slot ≠ i := by
        rintro rfl
        rw [recordAt_of_getElem? hslot] at ha
        cases ha
      simpa [memoryStore, recordAt_withRecord_of_ne hne] using ha
    · simp [memoryStore, recordAt_withRecord_self hslot]
  · exact ⟨hreleased, absurd rfl⟩

theorem admitWhole_spec (h : Sound inbox) (hidle : inbox.inFlight = []) {record source : Record}
    {copied : Bool} {rc : Status}
    (hcall : admitWhole inbox record copied = some (inbox', .admitted source rc recordId)) :
    Admits inbox inbox' rc recordId := by
  have hpos := h.consistent.idPos
  have hsame : Admits inbox inbox rc recordId :=
    ⟨h, hidle, fun _ => id, fun _ hne => absurd rfl hne⟩
  by_cases hvalid : recordValid record = .ok
  · rcases @memoryAdmitReserve_cases inbox.memory record hvalid with
      ⟨rc', id, heq⟩ | ⟨hzero, -⟩ | ⟨-, index, bytes, -, heq⟩
    · have hact : act inbox (.admitRecord record) = some (inbox, receiptOf record rc' id) := by
        simp [act, hvalid, heq]
      obtain rfl : inbox = inbox' := by
        unfold admitWhole receiptOf at *
        split_ifs at hact <;> simp_all
      exact hsame
    · omega
    set r : Reservation := ⟨index, bytes, inbox.memory.nextRecordId, record⟩
    set reserved : System := ⟨memoryReserve inbox.memory index bytes, [r]⟩ with hreserved
    have hact : act inbox (.admitRecord record) = some (reserved, .reserved r.recordId) := by
      simp [act, hvalid, heq, hidle, hreserved, r]
    have hsound := h.effect (act_effect hact)
    have hkept : ∀ i, recordAt reserved.memory.slots i = recordAt inbox.memory.slots i := by
      simp [hreserved, memoryReserve]
    simp only [admitWhole, hact, hidle] at hcall
    have hsound' := hsound.effect (act_effect hcall)
    cases copied with
    | false =>
      obtain ⟨rfl, -, rfl, -⟩ := by simpa [act, hreserved] using hcall
      refine ⟨hsound', rfl, fun id hid => hid.of_recordAt fun i a ha _ => ?_, by simp⟩
      simpa [memoryReserve] using ha
    | true =>
      obtain ⟨hpends, hfresh⟩ := commit_spec reserved r
      obtain ⟨rfl, hreceipt⟩ := by simpa [act, hreserved] using hcall
      refine ⟨hsound', rfl, fun id hid => hpends id (hid.of_recordAt fun i a ha _ => ?_), ?_⟩
      · rwa [hkept]
      rintro rfl hne
      obtain ⟨hid, hpend⟩ := hfresh hne
      obtain ⟨-, -, rfl, hzero⟩ := receiptOf_ok hreceipt
      refine ⟨hzero, hid ▸ hpend, fun i a ha => ?_⟩
      have := hsound.numbered.apart i a ((hkept i).trans ha) r (by simp [hreserved])
      rwa [hid]
  obtain ⟨rfl, -⟩ := by simpa [admitWhole, act, hvalid] using hcall
  exact hsame

end Pending

/-! ### The tracked records -/

section Tracking

variable {s s' s₀ : Observed} {op : ObservedOp} {l : Latency} {now : ℕ}
  {own : LatencyPending → Prop}

def AdmissionOf (entry : LatencyPending) : ObservedOp × ObservedOutcome → Prop
  | (.admitObserved _ _ _ _ now _, .inbox (.admitted _ .ok recordId)) => entry = ⟨recordId, now⟩
  | _ => False

def Admission (entry : LatencyPending) (s : Observed) (e : ObservedOp × ObservedOutcome)
    (s' : Observed) : Prop :=
  AdmissionOf entry e ∧ Pends s'.inbox entry.recordId ∧
    ∀ i a, recordAt s.inbox.memory.slots i = some a → a.recordId ≠ entry.recordId

def AdmittedAt (s₀ : Observed) (tr : List (ObservedOp × ObservedOutcome))
    (entry : LatencyPending) : Prop :=
  ∃ before e after s₁ s₂, tr = before ++ e :: after ∧ Run (Acts step) s₀ before s₁ ∧
    Acts step s₁ e s₂ ∧ Admission entry s₁ e s₂

/-- The tracked records are pending, once each, and have a property `own`. -/
structure Tracking (own : LatencyPending → Prop) (s : Observed) : Prop where
  sound : Sound s.inbox
  idle : s.inbox.inFlight = []
  disabled : s.latency.enabled = false → s.latency.pending = []
  nodup : (s.latency.pending.map LatencyPending.recordId).Nodup
  entries : ∀ entry ∈ s.latency.pending,
    entry.recordId ≠ 0 ∧ Pends s.inbox entry.recordId ∧ own entry
  mean : s.latency.claimMeanNs ≤ s.latency.claimMaxNs

theorem mean_sample (h : l.claimMeanNs ≤ l.claimMaxNs) (latency : ℕ) :
    (l.sample latency).claimMeanNs ≤ (l.sample latency).claimMaxNs := by
  have hup := Nat.div_le_self (latency - l.claimMeanNs) (l.claimSamples + 1)
  have hdown := Nat.sub_le l.claimMeanNs ((l.claimMeanNs - latency) / (l.claimSamples + 1))
  simp only [Latency.sample]
  split_ifs <;> omega

theorem claimEnd_spec (claim : Except Status Claim) (now : ℕ)
    (hnodup : (l.pending.map LatencyPending.recordId).Nodup)
    (hzero : ∀ entry ∈ l.pending, entry.recordId ≠ 0) (hmean : l.claimMeanNs ≤ l.claimMaxNs) :
    (l.claimEnd claim now).enabled = l.enabled ∧
      (l.claimEnd claim now).pending.Sublist l.pending ∧
      (∀ c, claim = .ok c → ∀ entry ∈ (l.claimEnd claim now).pending, c.recordId ≠ entry.recordId) ∧
      (l.claimEnd claim now).claimMeanNs ≤ (l.claimEnd claim now).claimMaxNs := by
  cases claim with
  | error rc => exact ⟨rfl, Sublist.refl _, by simp, hmean⟩
  | ok claim =>
    simp only [Latency.claimEnd]
    split
    · rename_i hfind
      refine ⟨rfl, Sublist.refl _, ?_, hmean⟩
      rintro c hc entry hentry hid
      cases hc
      simp only [Latency.find, ite_eq_left_iff, findIdx?_eq_none_iff] at hfind
      have := hfind (hid ▸ hzero entry hentry) entry hentry
      simp_all
    rename_i index hfind
    refine ⟨rfl, eraseIdx_sublist _ _, ?_, mean_sample hmean _⟩
    rintro c hc entry hentry hid
    cases hc
    obtain ⟨i, hne, hi⟩ := mem_eraseIdx_iff_getElem?.mp hentry
    simp only [Latency.find, ite_none_left_eq_some] at hfind
    obtain ⟨hlt, hindex, -⟩ := findIdx?_eq_some_iff_getElem.mp hfind.2
    refine hne ((getElem?_inj ?_ hnodup).mp ?_)
    · simpa using (List.getElem?_eq_some_iff.mp hi).1
    · simp_all

theorem admitObserved_spec (l : Latency) (before after : Except Status Inbox.Snapshot)
    (rc : Status) (recordId now : ℕ) (pushed : Bool) :
    let l' := l.admitObserved before after rc recordId now pushed
    (l'.enabled = l.enabled ∧ l'.claimMeanNs = l.claimMeanNs ∧ l'.claimMaxNs = l.claimMaxNs) ∧
      (l'.pending = l.pending ∨
        l.enabled = true ∧ rc = .ok ∧ l'.pending = l.pending ++ [⟨recordId, now⟩] ∧
          ∃ b a, before = .ok b ∧ after = .ok a ∧ a.admitted = add64 b.admitted 1) := by
  simp only [Latency.admitObserved]
  repeat' split
  all_goals simp_all

theorem act_settlement {inbox inbox' : System} {op : Operation} {out : Outcome}
    {result : Memory × Status} (hresult : settlement inbox.memory op = some result)
    (hact : act inbox op = some (inbox', out)) :
    inbox' = inbox ∨ inbox' = { inbox with memory := result.1 } := by
  cases op <;> simp only [settlement, reduceCtorEq, some.injEq] at hresult <;>
    subst hresult <;> simp only [act, System.withStatus] at hact <;> (try split at hact) <;>
    simp_all

theorem Tracking.step (h : Tracking own s) (hstep : s.step op = some (s', out))
    (hown : ∀ entry, own entry → own' entry)
    (hnew : ∀ entry, Admission entry s (op, out) s' → own' entry) : Tracking own' s' := by
  obtain ⟨hsound, hidle, hdisabled, hnodup, hentries, hmean⟩ := h
  have hkept : ∀ entry ∈ s.latency.pending,
      entry.recordId ≠ 0 ∧ Pends s.inbox entry.recordId ∧ own' entry := fun entry hentry =>
    (hentries entry hentry).imp_right (And.imp_right (hown entry))
  cases op with
  | admitObserved record copied before after now pushed =>
    simp only [step] at hstep
    split at hstep
    · rename_i inbox source rc recordId hcall
      cases hstep
      obtain ⟨hsound', hidle', hpends, hfresh⟩ := admitWhole_spec hsound hidle hcall
      obtain ⟨⟨henabled, hmean', hmax'⟩, hpending⟩ := admitObserved_spec s.latency
        (providerSnapshot before s.inbox.memory) (providerSnapshot after inbox.memory) rc recordId
        now pushed
      have hwaiting : ∀ entry ∈ s.latency.pending,
          entry.recordId ≠ 0 ∧ Pends inbox entry.recordId ∧ own' entry := fun entry hentry =>
        (hkept entry hentry).imp_right (And.imp_left (hpends _))
      rcases hpending with hsame | ⟨hon, rfl, hpushed, b, a, hb, ha, hcounted⟩
      · exact ⟨hsound', hidle', fun hoff => hsame.trans (hdisabled (henabled.symm.trans hoff)),
          by rwa [hsame], by rwa [hsame], by rwa [hmean', hmax']⟩
      -- The counter has grown, so the admission has stored its record.
      have hgrown : inbox.memory.admitted ≠ s.inbox.memory.admitted := by
        have hissued := hsound.consistent.issued
        have hmax := issuedIds_le hsound.consistent.idMax
        rw [(pendingRecords_of_snapshot hsound hb).2,
          (pendingRecords_of_snapshot hsound' ha).2] at hcounted
        rw [hcounted]
        unfold add64
        unfold max64 at hmax
        omega
      obtain ⟨hzero, hpend, hapart⟩ := hfresh rfl hgrown
      refine ⟨hsound', hidle', fun hoff => ?_, ?_, ?_, by rwa [hmean', hmax']⟩
      · cases hon.symm.trans (henabled.symm.trans hoff)
      · rw [hpushed, map_append]
        refine nodup_append_comm.mpr (nodup_cons.mpr ⟨fun hid => ?_, hnodup⟩)
        obtain ⟨entry, hentry, heq⟩ := List.mem_map.mp hid
        obtain ⟨-, ⟨i, r, hr, hrid, -⟩, -⟩ := hkept entry hentry
        exact hapart i r hr (hrid.trans heq)
      rw [hpushed]
      refine forall_mem_append.mpr ⟨hwaiting, forall_mem_singleton.mpr ?_⟩
      exact ⟨hzero, hpend, hnew _ ⟨rfl, hpend, hapart⟩⟩
    · cases hstep
  | claim request now =>
    cases hstep
    have hact : act s.inbox (.claimEx request) = some (_, _) := rfl
    have hsound' := hsound.effect (act_effect hact)
    by_cases hon : s.latency.enabled = true
    · obtain ⟨henabled, hsub, hother, hmean'⟩ := claimEnd_spec
        (inboxClaim s.inbox.memory request).2 now hnodup (fun e he => (hkept e he).1) hmean
      simp only [hon, if_true]
      refine ⟨hsound', hidle, fun hoff => ?_, hnodup.sublist (hsub.map _), ?_, hmean'⟩
      · cases hon.symm.trans (henabled.symm.trans hoff)
      intro entry hentry
      obtain ⟨hzero, hpend, howned⟩ := hkept entry (hsub.subset hentry)
      exact ⟨hzero, pends_claim hsound hpend fun c hc => hother c hc entry hentry, howned⟩
    have hempty := hdisabled (by simpa using hon)
    simp only [hon]
    exact ⟨hsound', hidle, hdisabled, hnodup, by simp [hempty], hmean⟩
  | settle op =>
    simp only [step] at hstep
    split at hstep
    · rename_i hsome
      obtain ⟨result, hresult⟩ := isSome_iff_exists.mp hsome
      obtain ⟨⟨inbox, o⟩, hact, heq⟩ := map_eq_some_iff.mp hstep
      cases heq
      have hsound' := hsound.effect (act_effect hact)
      rcases act_settlement hresult hact with rfl | rfl
      · exact ⟨hsound, hidle, hdisabled, hnodup, hkept, hmean⟩
      exact ⟨hsound', hidle, hdisabled, hnodup, fun e he => (hkept e he).imp_right
        (And.imp_left (pends_settlement hresult)), hmean⟩
    · cases hstep
  | snapshot validated fault now =>
    obtain ⟨rfl, -⟩ := by simpa only [step, some.injEq, Prod.mk.injEq] using hstep
    have hsame : Tracking own' s := ⟨hsound, hidle, hdisabled, hnodup, hkept, hmean⟩
    simp only [Latency.snapshot]
    split
    · exact hsame
    split
    · exact hsame
    by_cases hon : s.latency.enabled = true
    · simp only [Latency.enable, hon, if_true, Latency.settleUncertain]
      exact ⟨hsound, hidle, by simp, hnodup, hkept, hmean⟩
    simp only [Latency.enable, hon, Latency.settleUncertain]
    exact ⟨hsound, hidle, by simp, by simp [Latency.init], by simp [Latency.init],
      by simp [Latency.init]⟩

variable {inbox : System} {tr : List (ObservedOp × ObservedOutcome)}

theorem tracking_of_run (hsound : Sound inbox) (hidle : inbox.inFlight = [])
    (h : Run (Acts step) ⟨inbox, Latency.init⟩ tr s) :
    Tracking (AdmittedAt ⟨inbox, Latency.init⟩ tr) s := by
  induction h with
  | nil => exact ⟨hsound, hidle, fun _ => rfl, nodup_nil, by simp [Latency.init], le_rfl⟩
  | @snoc _ _ _ e' hrun hstep ih =>
    refine ih.step hstep ?_ fun entry hadmission =>
      ⟨_, _, [], _, _, rfl, hrun, hstep, hadmission⟩
    rintro entry ⟨before, e, after, s₁, s₂, rfl, hrest⟩
    exact ⟨before, e, after ++ [e'], s₁, s₂, by simp, hrest⟩

theorem oldestOf_spec (now : ℕ) (pending : List LatencyPending) :
    oldestOf now pending ≤ now ∧ (∀ entry ∈ pending, oldestOf now pending ≤ entry.admittedNs) ∧
      (oldestOf now pending = now ∨
        ∃ entry ∈ pending, oldestOf now pending = entry.admittedNs) := by
  induction pending generalizing now with
  | nil => simp [oldestOf]
  | cons entry pending ih =>
    obtain ⟨hle, hall, hsome⟩ := ih (if entry.admittedNs < now then entry.admittedNs else now)
    have hcons : oldestOf now (entry :: pending) =
        oldestOf (if entry.admittedNs < now then entry.admittedNs else now) pending := rfl
    rw [hcons]
    split_ifs at * <;> grind

theorem exists_oldest (h : pending ≠ []) (now : ℕ) :
    ∃ entry ∈ pending, (∀ other ∈ pending, entry.admittedNs ≤ other.admittedNs) ∧
      elapsedSince (oldestOf now pending) now = elapsedSince entry.admittedNs now := by
  obtain ⟨entry, hmin⟩ := ne_none_iff_exists'.mp
    (mt (argmin_eq_none (f := LatencyPending.admittedNs)).mp h)
  have hfirst := fun other hother => le_of_mem_argmin (a := other) hother hmin
  refine ⟨entry, argmin_mem hmin, hfirst, ?_⟩
  obtain ⟨hle, hall, hsome⟩ := oldestOf_spec now pending
  have hentry := hall entry (argmin_mem hmin)
  unfold elapsedSince
  rcases hsome with hnow | ⟨other, hother, heq⟩
  · split_ifs <;> omega
  have := hfirst other hother
  split_ifs <;> omega

/-- After any calls through a binding, on an inbox that is not used otherwise: where a latency
snapshot calls the oldest age valid, the tracked records are the pending ones, each once and with
the time of its admission, and the age is that of the first. -/
theorem latency_snapshot_exact {config : MemoryConfig} {memory : Memory}
    (hcreate : memoryCreate config = some memory) {earlier : List (Operation × Outcome)}
    (hearlier : Run (Acts act) (System.init memory) earlier inbox) (hidle : inbox.inFlight = [])
    (h : Run (Acts step) ⟨inbox, Latency.init⟩ tr s) {validated : Status}
    {fault : Option Status} {snapshot : LatencySnapshot}
    (hstep : s.step (.snapshot validated fault now) = some (s', .snapshot (.ok snapshot))) :
    (snapshot.oldestPendingAgeValid = true →
      (s'.latency.pending.map LatencyPending.recordId).Nodup ∧
      (∀ recordId, recordId ∈ s'.latency.pending.map LatencyPending.recordId ↔
        Pends s'.inbox recordId) ∧
      (∀ entry ∈ s'.latency.pending, AdmittedAt ⟨inbox, Latency.init⟩ tr entry) ∧
      (s'.latency.pending = [] ∧ snapshot.oldestPendingAgeNs = 0 ∨
        ∃ entry ∈ s'.latency.pending,
          (∀ other ∈ s'.latency.pending, entry.admittedNs ≤ other.admittedNs) ∧
          snapshot.oldestPendingAgeNs = elapsedSince entry.admittedNs now)) ∧
      snapshot.trackedPendingRecords + snapshot.untrackedPendingRecords = snapshot.pendingRecords ∧
      snapshot.meanClaimLatencyNs ≤ snapshot.maxClaimLatencyNs := by
  have htracking : Tracking (AdmittedAt ⟨inbox, Latency.init⟩ tr) s' :=
    (tracking_of_run (sound_of_run hcreate hearlier) hidle h).step hstep (fun _ => id)
      fun _ hadmission => hadmission.1.elim
  obtain ⟨provider, hprovider, rfl⟩ : ∃ provider,
      providerSnapshot fault s'.inbox.memory = .ok provider ∧
        snapshot = s'.latency.report provider.pendingRecords now := by
    obtain ⟨rfl, hsnapshot⟩ := by
      simpa only [step, some.injEq, Prod.mk.injEq, ObservedOutcome.snapshot.injEq] using hstep
    simp only [Latency.snapshot] at hsnapshot ⊢
    split_ifs at hsnapshot ⊢
    split at hsnapshot
    · cases hsnapshot
    rename_i provider hprovider
    exact ⟨provider, hprovider, (Except.ok.inj hsnapshot).symm⟩
  have hcount := (pendingRecords_of_snapshot htracking.sound hprovider).1
  -- The tracked ids are among the pending ones; with as many of them they are all.
  have hsubset : s'.latency.pending.map LatencyPending.recordId ⊆
      pendingIds s'.inbox.memory.slots := by
    intro id hid
    obtain ⟨entry, hentry, rfl⟩ := List.mem_map.mp hid
    exact mem_pendingIds.mpr (htracking.entries entry hentry).2.1
  have hsubperm := htracking.nodup.subperm hsubset
  have hle := hsubperm.length_le
  rw [length_map] at hle
  refine ⟨fun hvalid => ⟨htracking.nodup, fun id => ?_, fun e he => (htracking.entries e he).2.2,
    ?_⟩, ?_, htracking.mean⟩
  · have hequal : provider.pendingRecords = s'.latency.pending.length := by
      have := hvalid
      simp only [Latency.report, Bool.and_eq_true, beq_iff_eq] at this
      exact this.2
    rw [(hsubperm.perm_of_length_le (by rw [length_map]; omega)).mem_iff]
    exact mem_pendingIds
  · by_cases hempty : s'.latency.pending = []
    · exact .inl ⟨hempty, by simp [Latency.report, hempty]⟩
    obtain ⟨entry, hentry, hfirst, hage⟩ := exists_oldest hempty now
    refine .inr ⟨entry, hentry, hfirst, ?_⟩
    simp only [Latency.report] at hvalid ⊢
    simp [hvalid, hempty, hage]
  simp only [Latency.report]
  split_ifs <;> omega

def observedCalls : List ObservedOp :=
  [.snapshot .ok none 10, .admitObserved (sampleRecord 1) true none none 12 true,
    .admitObserved (sampleRecord 2) true none none 15 true, .claim claimRequestInit 18]

theorem latency_snapshot_exact_claimed :
    ∃ memory s s' outs snapshot, memoryCreate twoSlots = some memory ∧
      exec step ⟨System.init memory, Latency.init⟩ observedCalls = some (s, outs) ∧
      s.step (.snapshot .ok none 21) = some (s', .snapshot (.ok snapshot)) ∧
      snapshot.oldestPendingAgeValid = true ∧ snapshot.oldestPendingAgeNs = 6 ∧
      (∀ recordId, recordId ∈ s'.latency.pending.map LatencyPending.recordId ↔
        Pends s'.inbox recordId) ∧ Pends s'.inbox 2 := by
  have hcreate : memoryCreate twoSlots = some ((memoryCreate twoSlots).get rfl) := rfl
  have hrun : exec step ⟨System.init ((memoryCreate twoSlots).get rfl), Latency.init⟩
    observedCalls = some (_, _) := rfl
  have hexact := latency_snapshot_exact hcreate Run.nil rfl (run_of_exec hrun)
    (rfl : step _ (.snapshot .ok none 21) = some (_, .snapshot (.ok _)))
  exact ⟨_, _, _, _, _, hcreate, hrun, rfl, rfl, rfl, (hexact.1 rfl).2.1,
    ((hexact.1 rfl).2.1 2).mp (by decide)⟩

end Tracking

end TurboFlow.Durable
