import TurboFlow.Inbox.Leases

/-!
# Pending records and their partitions

A claim hands out the oldest pending record of its partition. A record becomes pending only when its
admission is committed and when the operator retries it, so one that is claimed behind a younger one
has seen one of the two.
-/

namespace TurboFlow.Inbox

open Word Transition List Option

def Pends (s : System) (recordId : ℕ) : Prop :=
  ∃ i a, recordAt s.memory.slots i = some a ∧ a.recordId = recordId ∧ a.phase = .pending

structure OldestOfPartition (s : System) (claim : Claim) : Prop where
  stored : ∃ i a, recordAt s.memory.slots i = some a ∧ a.phase = .pending ∧
    a.recordId = claim.recordId ∧ a.view = claim.record
  oldest : ∀ i a, recordAt s.memory.slots i = some a → a.phase = .pending →
    a.view.partitionKey = claim.record.partitionKey → claim.recordId ≤ a.recordId

variable {request : ClaimRequest} {op : Operation} {index : ℕ} {a : MemoryRecord}

theorem slot_of_recordAt (h : recordAt slots i = some a) :
    ∃ slot ∈ slots, slot.record = some a := by
  unfold recordAt at h
  obtain ⟨slot, hslot, hrecord⟩ := bind_eq_some_iff.mp h
  exact ⟨slot, mem_of_getElem? hslot, hrecord⟩

theorem Sound.selected_of_claim (h : Sound s)
    (hclaim : (inboxClaim s.memory request).2 = .ok claim) :
    ∃ index record, Selected s.memory request index record ∧
      claim = ⟨record.recordId, s.memory.nextClaimToken, record.view⟩ ∧
      (inboxClaim s.memory request).1 =
        settle s.memory .claim index (leaseRecord s.memory record) := by
  rw [h.inboxClaim_eq] at hclaim ⊢
  rcases memoryClaimSelect_cases s.memory request with ⟨rc, heq⟩ | ⟨index, record, hselected, heq⟩
  · rw [heq] at hclaim
    cases hclaim
  rw [heq] at hclaim ⊢
  exact ⟨index, record, hselected, (Except.ok.inj hclaim).symm, rfl⟩

theorem Selected.recordAt (h : Selected memory request index record) :
    recordAt memory.slots index = some record := by
  obtain ⟨slot, hslot, hrecord⟩ := h.slot
  exact (recordAt_of_getElem? hslot).trans hrecord

theorem Sound.oldestOfPartition {s : System} (h : Sound s)
    (hclaim : (inboxClaim s.memory request).2 = .ok claim) : OldestOfPartition s claim := by
  obtain ⟨index, record, hselected, rfl, -⟩ := h.selected_of_claim hclaim
  refine ⟨⟨index, record, hselected.recordAt, hselected.pending, rfl, rfl⟩, ?_⟩
  intro i a ha hpending hkey
  obtain ⟨slot, hmem, hrecord⟩ := slot_of_recordAt ha
  refine hselected.oldest slot hmem a hrecord hpending ?_
  rw [claimPartitionExcluded, hkey]
  exact hselected.included

theorem Sound.not_excluded (h : Sound s)
    (hclaim : (inboxClaim s.memory ⟨.partitionKey, excluded⟩).2 = .ok claim) :
    claim.record.partitionKey ∉ excluded := by
  obtain ⟨index, record, hselected, rfl, -⟩ := h.selected_of_claim hclaim
  simpa [claimPartitionExcluded] using hselected.included

variable {s s' : System} {recordId : ℕ}

section Keys

/-- The partition keys in the inbox have at most `n` bytes. -/
structure KeysWithin (n : ℕ) (s : System) : Prop where
  stored : ∀ i a, recordAt s.memory.slots i = some a → a.view.partitionKey.length ≤ n
  copied : ∀ r ∈ s.inFlight, r.source.partitionKey.length ≤ n

theorem KeysWithin.effect (h : KeysWithin n s)
    (hop : ∀ source, op = .admitRecord source → source.partitionKey.length ≤ n)
    (he : Effect s op s') : KeysWithin n s' := by
  cases he.change with
  | kept hrecord hinFlight _ =>
    refine ⟨?_, fun r hr => h.copied r (hinFlight.subset hr)⟩
    intro i a ha
    obtain ⟨b, hb, -, hview⟩ := hrecord i a ha
    rw [hview]
    exact h.stored i b hb
  | @reserved source _ _ hadmit =>
    refine ⟨fun i a ha => h.stored i a (by simpa [memoryReserve] using ha), ?_⟩
    exact forall_mem_append.mpr ⟨h.copied, forall_mem_singleton.mpr (hop source hadmit)⟩
  | @committed k r hk _ hslot =>
    refine ⟨?_, fun r' hr' => h.copied r' (mem_of_mem_eraseIdx hr')⟩
    intro i a ha
    rcases recordAt_of_commit hslot ha with ⟨-, rfl⟩ | ha
    · exact h.copied r (mem_of_getElem? hk)
    · exact h.stored i a ha

theorem keysWithin_of_memoryCreate (hcreate : memoryCreate config = some memory) (n : ℕ) :
    KeysWithin n (System.init memory) where
  stored := by
    intro i a ha
    rw [System.init, recordAt_of_memoryCreate hcreate] at ha
    cases ha
  copied := by simp [System.init]

end Keys

section Identity

variable {record : Record}

structure Assigned (s : System) (recordId : ℕ) (record : Record) : Prop where
  stored : ∀ i a, recordAt s.memory.slots i = some a → a.recordId = recordId → a.view = record
  copied : ∀ r ∈ s.inFlight, r.recordId ≠ recordId
  drawn : recordId ≤ issuedIds s.memory

theorem Sound.assigned (h : Sound s) (ha : recordAt s.memory.slots i = some a) :
    Assigned s a.recordId a.view where
  stored := by
    intro j b hb hid
    obtain rfl := h.numbered.unique j i b a hb ha hid
    rw [some.inj (hb.symm.trans ha)]
  copied := fun r hr => (h.numbered.apart i a ha r hr).symm
  drawn := h.numbered.stored i a ha

theorem Assigned.effect (h : Assigned s recordId record) (hc : Consistent s) (he : Effect s op s') :
    Assigned s' recordId record := by
  cases he.change with
  | kept hrecord hinFlight hids =>
    refine ⟨?_, fun r hr => h.copied r (hinFlight.subset hr), ?_⟩
    · intro i a ha hid
      obtain ⟨b, hb, hab, hview⟩ := hrecord i a ha
      rw [hview]
      exact h.stored i b hb (hab.symm.trans hid)
    rw [hids (Nat.ne_of_gt hc.idPos)]
    exact h.drawn
  | @reserved source index bytes _ hr =>
    obtain ⟨hissued, hnext⟩ := issuedIds_memoryReserve hc hr.ids index bytes
    have hdrawn := h.drawn
    refine ⟨fun i a ha => h.stored i a (by simpa [memoryReserve] using ha), ?_, ?_⟩
    · refine forall_mem_append.mpr ⟨h.copied, forall_mem_singleton.mpr ?_⟩
      dsimp only
      omega
    dsimp only
    omega
  | @committed k r hk _ hslot =>
    refine ⟨?_, fun r' hr' => h.copied r' (mem_of_mem_eraseIdx hr'), h.drawn⟩
    intro i a ha hid
    rcases recordAt_of_commit hslot ha with ⟨-, rfl⟩ | ha
    · exact absurd hid (h.copied r (mem_of_getElem? hk))
    · exact h.stored i a ha hid

end Identity

/-! ### What an operation writes -/

def MemoryRecord.Marked (record : MemoryRecord) : Prop :=
  (record.phase = .failed → record.failureStatus ≠ .ok) ∧
    (record.phase = .tombstone → record.terminalKind ≠ none)

section Written

variable {i : ℕ} {out : Outcome}

/-- What is known of a written record: a failed one carries a failure, a settled one its terminal
kind, and it is pending only after a retry or a commit. -/
def Written (op : Operation) (out : Outcome) (record : MemoryRecord) : Prop :=
  record.Marked ∧ (record.phase = .pending → record.recordId ≠ 0 →
    (op = .retry record.recordId ∧ out = .status .ok) ∨
      ∃ k source, op = .commit k ∧ out = .admitted source .ok record.recordId)

theorem recordAt_of_withRecord
    (ha : recordAt (slots.modify index (Slot.withRecord record)) i = some a) :
    recordAt slots i = some a ∨ record = some a := by
  by_cases hi : index = i
  · subst hi
    rcases hslot : slots[index]? with _ | slot
    · simp [recordAt, hslot] at ha
    · exact .inr ((recordAt_withRecord_self hslot record).symm.trans ha)
  · exact .inl ((recordAt_withRecord_of_ne hi record).symm.trans ha)

theorem recordAt_of_settlement (hop : ∀ id token, op ≠ .fail id token .ok)
    (hresult : settlement s.memory op = some result) (ha : recordAt result.1.slots i = some a) :
    recordAt s.memory.slots i = some a ∨ Written op (.status result.2) a := by
  cases op with
  | complete id | fail id | retry id | discard id =>
    cases hresult
    simp only [memoryComplete, memoryFail, memoryRetry, memoryDiscard] at ha ⊢
    rcases hfind : memoryFind s.memory id with _ | ⟨index, record⟩
    · simp only [hfind] at ha
      exact .inl ha
    obtain ⟨-, -, -, hid⟩ := memoryFind_spec hfind
    simp only [hfind] at ha ⊢
    split_ifs at ha ⊢
    · exact .inl ha
    · exact .inl ha
    refine (recordAt_of_withRecord ha).imp_right ?_
    rintro ⟨⟩
    simp_all [Written, MemoryRecord.Marked]
  | forget id =>
    cases hresult
    rcases memoryForget_cases s.memory id with ⟨rc, heq, -⟩ | ⟨index, record, hslot, -, -, heq⟩
    · rw [heq] at ha
      exact .inl ha
    rw [heq] at ha
    exact .inl (recordAt_of_eraseRecord hslot ha)
  | close =>
    cases hresult
    unfold memoryClose at ha
    split at ha <;> exact .inl ha
  | _ => cases hresult

theorem recordAt_of_commit_op (ha : recordAt (memoryAdmitCommit s.memory r).1.slots i = some a) :
    recordAt s.memory.slots i = some a ∨ Written (.commit k) (receiptOf r.source
      (memoryAdmitCommit s.memory r).2.1 (memoryAdmitCommit s.memory r).2.2) a := by
  unfold memoryAdmitCommit at ha ⊢
  split at ha
  · split at ha <;> exact .inl (by simpa using ha)
  split at ha
  · simp only [memoryReleaseReservation, memoryStore, recordAt_withReserved] at ha
    refine (recordAt_of_withRecord ha).imp_right ?_
    rintro ⟨⟩
    simp_all [Written, MemoryRecord.Marked, memoryRecordCopy, receiptOf]
  · exact .inl (by simpa using ha)

theorem Sound.recordAt_of_act (h : Sound s) (hact : act s op = some (s', out))
    (ha : recordAt s'.memory.slots i = some a) :
    recordAt s.memory.slots i = some a ∨ Written op out a := by
  by_cases hop : ∃ id token, op = .fail id token .ok
  · -- The wrapper refuses a failure with the status of a success.
    obtain ⟨id, token, rfl⟩ := hop
    obtain ⟨rfl, -⟩ := by simpa [act] using hact
    exact .inl ha
  push Not at hop
  cases act_served hact with
  | invalid | refused | snapshot => exact .inl ha
  | @returned source memory rc id hvalid heq | @reserved source memory r hvalid heq =>
    obtain rfl : (memoryAdmitReserve s.memory source).1 = memory := by rw [heq]
    rcases @memoryAdmitReserve_cases s.memory source hvalid with
      ⟨rc, id, heq⟩ | ⟨-, index, bytes, heq⟩ | ⟨-, index, bytes, -, heq⟩
    all_goals exact .inl (by simpa [heq, memoryReserve] using ha)
  | commit => exact recordAt_of_commit_op ha
  | copyFailed => exact .inl (by simpa [release] using ha)
  | claim request =>
    rw [h.inboxClaim_eq] at ha
    rcases memoryClaimSelect_cases s.memory request with ⟨rc, heq⟩ | ⟨index, record, -, heq⟩
    · rw [heq] at ha
      exact .inl ha
    rw [heq] at ha
    refine (recordAt_of_withRecord ha).imp_right ?_
    rintro ⟨⟩
    simp [Written, MemoryRecord.Marked, leaseRecord]
  | settled hresult => exact recordAt_of_settlement hop hresult ha

theorem Pends.of_recordAt (h : Pends s' recordId)
    (hrecord : ∀ i a, recordAt s'.memory.slots i = some a → a.phase = .pending →
      recordAt s.memory.slots i = some a) : Pends s recordId := by
  obtain ⟨i, a, ha, hid, hpending⟩ := h
  exact ⟨i, a, hrecord i a ha hpending, hid, hpending⟩

theorem Sound.pends_of_act (hsound : Sound s) (hact : act s op = some (s', out))
    (hid : recordId ≠ 0) (h : Pends s' recordId) :
    Pends s recordId ∨ (op = .retry recordId ∧ out = .status .ok) ∨
      ∃ k source, op = .commit k ∧ out = .admitted source .ok recordId := by
  obtain ⟨i, a, ha, rfl, hpending⟩ := h
  rcases hsound.recordAt_of_act hact ha with hbefore | ⟨-, hwritten⟩
  · exact .inl ⟨i, a, hbefore, rfl, hpending⟩
  · exact .inr (hwritten hpending hid)

theorem Sound.not_pends_of_claim (h : Sound s)
    (hact : act s (.claimEx request) = some (s', .claimed (.ok claim)))
    (hle : recordId ≤ claim.recordId)
    (hkey : ∀ i a, recordAt s.memory.slots i = some a → a.recordId = recordId →
      a.view.partitionKey = claim.record.partitionKey) : ¬ Pends s' recordId := by
  rintro ⟨i, a, ha, rfl, hpending⟩
  obtain ⟨rfl, hclaim⟩ := by simpa only [act, some.injEq, Prod.mk.injEq] using hact
  have hclaim := Outcome.claimed.inj hclaim
  have holdest := h.oldestOfPartition hclaim
  obtain ⟨index, record, hselected, rfl, hmemory⟩ := h.selected_of_claim hclaim
  obtain ⟨slot, hslot, hrecord⟩ := hselected.slot
  dsimp only at ha
  rw [hmemory] at ha
  rcases recordAt_settle hslot hrecord .claim (leaseRecord s.memory record) i with
    ⟨-, -, hafter⟩ | ⟨hne, hsame⟩
  · obtain rfl := some.inj (hafter.symm.trans ha)
    cases hpending
  rw [hsame] at ha
  have hge := holdest.oldest i a ha hpending (hkey i a ha rfl)
  exact hne (h.numbered.unique i index a record ha hselected.recordAt (le_antisymm hle hge))

end Written

end TurboFlow.Inbox
