import TurboFlow.Inbox.Conservation

/-!
# Capacity and record ids of the memory inbox

An admission reserves capacity in one critical section and uses it in another. Across every
interleaving the bounds hold for stored and reserved records together, the capacity checks never
underflow nor pass without a free slot, the reserved slot is there at commit, and the record ids are
`1, 2, 3, …`.
-/

namespace TurboFlow.Inbox

open Word Table Transition List

def issuedAlong (tr : List (Operation × Outcome)) : List ℕ :=
  tr.filterMap fun e =>
    match e.2 with
    | .reserved recordId => some recordId
    | _ => none

theorem issuedAlong_receiptOf (op : Operation) (source : Record) (rc : Status) (recordId : ℕ) :
    issuedAlong [(op, receiptOf source rc recordId)] = [] := by
  unfold receiptOf
  split
  · rfl
  · split <;> rfl

variable {s s' : System} {memory : Memory} {op : Operation} {config : MemoryConfig} {out : Outcome}
  {tr : List (Operation × Outcome)}

theorem memoryCreate_spec (h : memoryCreate config = some memory) :
    memory.config = config ∧ issuedIds memory = 0 := by
  unfold memoryCreate at h
  split at h
  · cases h
    exact ⟨rfl, rfl⟩
  · cases h

theorem issuedIds_effect (he : Effect s op s') (hop : ∀ source, op ≠ .admitRecord source) :
    issuedIds s'.memory = issuedIds s.memory := by
  cases he with
  | idle => rfl
  | reserve | reserveZero => exact absurd rfl (hop _)
  | release => rfl
  | commit => rfl
  | move => simp [settle, issuedIds]
  | forget => rfl
  | close => rfl

theorem issuedAlong_of_not_admission (h : act s op = some (s', out))
    (hop : ∀ source, op ≠ .admitRecord source) : issuedAlong [(op, out)] = [] := by
  cases act_served h with
  | @invalid source | @returned source | @reserved source => exact absurd rfl (hop source)
  | commit => exact issuedAlong_receiptOf _ _ _ _
  | copyFailed | claim | refused | settled | snapshot => rfl

theorem Consistent.issues (h : Consistent s) (hact : act s op = some (s', out)) :
    (issuedAlong [(op, out)] = [] ∧ issuedIds s'.memory = issuedIds s.memory) ∨
      (issuedAlong [(op, out)] = [issuedIds s.memory + 1] ∧
        issuedIds s'.memory = issuedIds s.memory + 1) := by
  by_cases hop : ∃ source, op = .admitRecord source
  · obtain ⟨source, rfl⟩ := hop
    rw [act] at hact
    split at hact
    · cases hact
      exact .inl ⟨rfl, rfl⟩
    rename_i hvalid
    rcases memoryAdmitReserve_cases (not_not.mp hvalid) with
      ⟨rc, recordId, heq⟩ | ⟨hid, -⟩ | ⟨-, index, bytes, hr, heq⟩
    · rw [heq] at hact
      cases hact
      exact .inl ⟨issuedAlong_receiptOf _ _ _ _, rfl⟩
    · have := h.idPos
      omega
    rw [heq] at hact
    cases hact
    obtain ⟨hissued, hnext⟩ := issuedIds_memoryReserve h hr.ids index bytes
    exact .inr ⟨by rw [hnext]; rfl, hissued.trans hnext.symm⟩
  push Not at hop
  exact .inl ⟨issuedAlong_of_not_admission hact hop, issuedIds_effect (act_effect hact) hop⟩

theorem issuedAlong_of_run (hcreate : memoryCreate config = some memory)
    (h : Run (Acts act) (System.init memory) tr s) :
    issuedAlong tr = range' 1 (issuedIds s.memory) := by
  have hinv : Consistent s ∧ issuedAlong tr = range' 1 (issuedIds s.memory) := by
    refine h.invariant_trace (P := fun tr s =>
      Consistent s ∧ issuedAlong tr = range' 1 (issuedIds s.memory)) ?_ ?_
    · refine ⟨consistent_of_memoryCreate hcreate, ?_⟩
      rw [System.init, (memoryCreate_spec hcreate).2]
      rfl
    rintro tr s ⟨op, out⟩ s' ⟨hs, htr⟩ hact
    refine ⟨hs.effect (act_effect hact), ?_⟩
    rw [issuedAlong, filterMap_append, ← issuedAlong, ← issuedAlong, htr]
    rcases hs.issues hact with ⟨hnone, heq⟩ | ⟨hone, heq⟩
    · rw [hnone, heq, append_nil]
    rw [hone, heq, range'_concat]
    simp [Nat.add_comm]
  exact hinv.2

theorem config_effect (he : Effect s op s') : s'.memory.config = s.memory.config := by
  cases he with
  | move => simp [settle]
  | idle | reserve | reserveZero | release | commit | forget | close => rfl

theorem config_of_run (hcreate : memoryCreate config = some memory)
    (h : Run (Acts act) (System.init memory) tr s) : s.memory.config = config := by
  refine h.invariant (P := fun s => s.memory.config = config) ?_ ?_
  · exact (memoryCreate_spec hcreate).1
  intro s e s' hs hact
  rw [config_effect (act_effect hact), hs]

structure CapacityExact (memory : Memory) : Prop where
  records : sub64 (sub64 memory.config.maxRecords memory.liveRecords) memory.historyRecords =
    memory.config.maxRecords - (memory.liveRecords + memory.historyRecords)
  liveRecords : memory.liveRecords ≤ memory.config.maxRecords
  historyRecords : memory.historyRecords ≤ memory.config.maxRecords - memory.liveRecords
  retainedBytes : memory.retainedBytes ≤ memory.config.maxTotalBytes
  reservedBytes : memory.reservedBytes ≤ memory.config.maxTotalBytes - memory.retainedBytes

theorem Consistent.capacityExact (h : Consistent s) : CapacityExact s.memory := by
  have hoccupancy := h.occupancy
  have hbytes := h.bytes
  refine ⟨?_, by omega, by omega, by omega, by omega⟩
  rw [sub64_of_le (a := s.memory.config.maxRecords) (by omega), sub64_of_le (by omega)]
  omega

theorem Consistent.exists_freeSlot (h : Consistent s) (hroom : s.memory.reservedRecords <
      sub64 (sub64 s.memory.config.maxRecords s.memory.liveRecords) s.memory.historyRecords) :
    ∃ index, freeSlot s.memory.slots = some index := by
  rw [h.capacityExact.records] at hroom
  have hlt : tally usage s.memory.slots < s.memory.slots.length := by
    rw [tally_usage, ← h.live, ← h.history, ← h.reserved, h.length]
    omega
  obtain ⟨slot, hmem, hzero⟩ :=
    exists_of_tally_lt (fun slot hslot => usage_le_one (h.exclusive slot hslot)) hlt
  obtain ⟨hrecord, hreserved⟩ := usage_eq_zero hzero
  cases hfree : freeSlot s.memory.slots with
  | some index => exact ⟨index, rfl⟩
  | none =>
    rcases freeSlot_eq_none_iff.mp hfree slot hmem with hne | hres
    · exact absurd hrecord hne
    · simp [hreserved] at hres

/-- An admission is refused as contradictory only where its identity is stored with another
record. -/
theorem Consistent.found_of_eproto (h : Consistent s) (hvalid : recordValid source = .ok)
    (heq : memoryAdmitReserve s.memory source = (memory, .returned .eproto recordId)) :
    ∃ index existing, memoryFindAdmission s.memory source = some (index, existing) ∧
      recordEqual existing.view source = false := by
  cases hfind : memoryFindAdmission s.memory source with
  | some found =>
    obtain ⟨index, existing⟩ := found
    rw [memoryAdmitReserve_of_found hfind] at heq
    by_cases hequal : recordEqual existing.view source
    · simp [hequal] at heq
    · exact ⟨index, existing, rfl, by simpa using hequal⟩
  | none =>
    rw [memoryAdmitReserve_of_fresh hfind] at heq
    rcases memoryAdmitFresh_cases hvalid hfind with
      ⟨rc, hrc, -, heproto⟩ | ⟨-, index, bytes, hrc⟩ | ⟨-, index, bytes, -, hrc⟩
    · rw [hrc] at heq
      obtain ⟨hnone, hroom⟩ := heproto (Admission.returned.inj (Prod.mk.inj heq).2).1
      obtain ⟨index, hfree⟩ := h.exists_freeSlot hroom
      simp [hfree] at hnone
    all_goals simp [hrc] at heq

/-- Capacity, reservations and record ids of the memory inbox, in every state that an interleaving
reaches. -/
theorem memory_capacity {config : MemoryConfig} {memory : Memory}
    (hcreate : memoryCreate config = some memory) {tr : List (Operation × Outcome)} {s : System}
    (h : Run (Acts act) (System.init memory) tr s) :
    s.memory.liveRecords + s.memory.historyRecords + s.memory.reservedRecords ≤ config.maxRecords ∧
      s.memory.retainedBytes + s.memory.reservedBytes ≤ config.maxTotalBytes ∧
      CapacityExact s.memory ∧
      (s.memory.reservedRecords <
          sub64 (sub64 s.memory.config.maxRecords s.memory.liveRecords) s.memory.historyRecords →
        ∃ index, freeSlot s.memory.slots = some index) ∧
      (∀ source memory' recordId, recordValid source = .ok →
        memoryAdmitReserve s.memory source = (memory', .returned .eproto recordId) →
          ∃ index existing, memoryFindAdmission s.memory source = some (index, existing) ∧
            recordEqual existing.view source = false) ∧
      (∀ r ∈ s.inFlight, s.memory.slots[r.slot]? = some ⟨none, true⟩) ∧
      (∀ slot ∈ s.memory.slots, slot.record ≠ none → slot.reserved = false) ∧
      (∀ op out s', act s op = some (s', out) →
        s.memory.admitted ≤ s'.memory.admitted ∧ s'.memory.admitted ≤ s.memory.admitted + 1) ∧
      (issuedAlong tr).Nodup ∧ 0 ∉ issuedAlong tr := by
  have hs := consistent_of_run hcreate h
  have hconfig := config_of_run hcreate h
  refine ⟨hconfig ▸ hs.occupancy, hconfig ▸ hs.bytes, hs.capacityExact, hs.exists_freeSlot,
    fun source memory' recordId hvalid => hs.found_of_eproto hvalid, hs.held, hs.exclusive, ?_,
      ?_, ?_⟩
  · intro op out s' hact
    have hexact := (hs.exact (act_effect hact)).admitted
    exact ⟨hexact.1, hexact.2.2⟩
  · rw [issuedAlong_of_run hcreate h]
    exact nodup_range'
  rw [issuedAlong_of_run hcreate h]
  simp

/-- Two admissions of one identity race: the first commit stores the record and the second is given
its id. -/
theorem memory_capacity_race :
    ∃ memory s outs, memoryCreate twoSlots = some memory ∧
        exec act (System.init memory)
          [.admitRecord (sampleRecord 7), .admitRecord (sampleRecord 7), .commit 1, .commit 0] =
            some (s, outs) ∧
        s.memory.admitted = 1 ∧
        s.memory.liveRecords + s.memory.historyRecords + s.memory.reservedRecords ≤
          twoSlots.maxRecords := by
  exact ⟨_, _, _, and_of_imp rfl fun hcreate => and_of_imp rfl fun hexec => ⟨rfl,
    (memory_capacity hcreate (run_of_exec hexec)).1⟩⟩

end TurboFlow.Inbox
