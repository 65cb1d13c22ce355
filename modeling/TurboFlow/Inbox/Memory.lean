import TurboFlow.Inbox.Record
import TurboFlow.Lib.Table

/-!
# The memory inbox

`Memory` is the state behind the mutex of the memory provider; the functions are its critical
sections. An admission consists of two: `memoryAdmitReserve` reserves a slot, the record is copied
without the lock, and `memoryAdmitCommit` stores the copy; if the copy fails
`memoryReleaseReservation` gives the slot back. Counters are 64-bit words that wrap.
-/

namespace TurboFlow.Inbox

open Word List

inductive RecordPhase
  | pending
  | claimed
  | failed
  | tombstone
  deriving DecidableEq

/-- `turbo_flow_inbox_failure_kind_t`. -/
inductive FailureKind
  | processing
  | ownerLostUnknown
  deriving DecidableEq

/-- `turbo_flow_inbox_terminal_kind_t`. -/
inductive TerminalKind
  | completed
  | discarded
  deriving DecidableEq

/-- `flow_inbox_memory_record_t`. The terminal kind is absent until the record is settled. -/
structure MemoryRecord where
  recordId : ℕ
  claimToken : ℕ
  phase : RecordPhase
  failureStatus : Status
  failureKind : FailureKind
  terminalKind : Option TerminalKind
  retainedBytes : ℕ
  view : Record
  deriving DecidableEq

structure Slot where
  record : Option MemoryRecord
  reserved : Bool

structure MemoryConfig where
  maxRecords : ℕ
  maxTotalBytes : ℕ
  maxRecordBytes : ℕ
  maxClaims : ℕ

def memoryMaxRecords : ℕ := 1048576

def memoryMaxTotalBytes : ℕ := max64 / 2

def sizeofSlot : ℕ := 16

def memoryConfigValid (config : MemoryConfig) : Bool :=
  config.maxRecords ≠ 0 ∧ config.maxRecords ≤ memoryMaxRecords ∧
    config.maxRecords ≤ max64 / sizeofSlot ∧ config.maxTotalBytes ≠ 0 ∧
    config.maxTotalBytes ≤ memoryMaxTotalBytes ∧ config.maxRecordBytes ≠ 0 ∧
    config.maxRecordBytes ≤ config.maxTotalBytes ∧ config.maxClaims ≠ 0 ∧
    config.maxClaims ≤ config.maxRecords

structure Memory where
  config : MemoryConfig
  slots : List Slot
  retainedBytes : ℕ
  reservedBytes : ℕ
  reservedRecords : ℕ
  liveRecords : ℕ
  historyRecords : ℕ
  inFlightClaims : ℕ
  nextRecordId : ℕ
  nextClaimToken : ℕ
  admitted : ℕ
  completed : ℕ
  failed : ℕ
  retried : ℕ
  discarded : ℕ
  accepting : Bool
  recordIdExhausted : Bool
  claimTokenExhausted : Bool

/-- `turbo_flow_inbox_memory_create`, where the allocations succeed. -/
def memoryCreate (config : MemoryConfig) : Option Memory :=
  if memoryConfigValid config then
    some
      { config
        slots := replicate config.maxRecords ⟨none, false⟩
        retainedBytes := 0
        reservedBytes := 0
        reservedRecords := 0
        liveRecords := 0
        historyRecords := 0
        inFlightClaims := 0
        nextRecordId := 1
        nextClaimToken := 1
        admitted := 0
        completed := 0
        failed := 0
        retried := 0
        discarded := 0
        accepting := true
        recordIdExhausted := false
        claimTokenExhausted := false }
  else none

/-- The first slot at or behind `index` that holds a record with the property `p`. -/
def findFrom (p : MemoryRecord → Bool) (index : ℕ) : List Slot → Option (ℕ × MemoryRecord)
  | [] => none
  | ⟨some record, _⟩ :: slots =>
    if p record then some (index, record) else findFrom p (index + 1) slots
  | ⟨none, _⟩ :: slots => findFrom p (index + 1) slots

variable {index : ℕ} {slots : List Slot} {record : MemoryRecord} {memory : Memory}

theorem findFrom_spec (h : findFrom p index slots = some (i, record)) :
    ∃ k slot, i = index + k ∧ slots[k]? = some slot ∧ slot.record = some record ∧ p record := by
  induction slots generalizing index with
  | nil => simp [findFrom] at h
  | cons slot slots ih =>
    rcases slot with ⟨_ | r, reserved⟩
    · obtain ⟨k, slot, rfl, hk⟩ := ih h
      exact ⟨k + 1, slot, by omega, hk⟩
    rw [findFrom] at h
    split at h
    · rename_i hp
      obtain ⟨rfl, rfl⟩ : index = i ∧ r = record := by simpa using h
      exact ⟨0, ⟨some r, reserved⟩, rfl, rfl, rfl, hp⟩
    obtain ⟨k, slot, rfl, hk⟩ := ih h
    exact ⟨k + 1, slot, by omega, hk⟩

theorem findFrom_eq_none_iff :
    findFrom p index slots = none ↔
      ∀ slot ∈ slots, ∀ record, slot.record = some record → p record = false := by
  induction slots generalizing index with
  | nil => simp [findFrom]
  | cons slot slots ih =>
    rcases slot with ⟨_ | r, reserved⟩
    · simp [findFrom, ih]
    by_cases hp : p r
    · simp [findFrom, hp]
    · simp [findFrom, hp, ih]

def memoryFind (memory : Memory) (recordId : ℕ) : Option (ℕ × MemoryRecord) :=
  findFrom (fun record => record.recordId == recordId) 0 memory.slots

theorem memoryFind_spec (h : memoryFind memory recordId = some (index, record)) :
    ∃ slot, memory.slots[index]? = some slot ∧ slot.record = some record ∧
      record.recordId = recordId := by
  obtain ⟨k, slot, rfl, hk, hrecord, hid⟩ := findFrom_spec h
  rw [Nat.zero_add]
  exact ⟨slot, hk, hrecord, by simpa using hid⟩

def memoryFindAdmission (memory : Memory) (source : Record) : Option (ℕ × MemoryRecord) :=
  findFrom (fun record => sameIdentity record.view source) 0 memory.slots

theorem memoryFindAdmission_spec (h : memoryFindAdmission memory source = some (index, record)) :
    ∃ slot, memory.slots[index]? = some slot ∧ slot.record = some record ∧
      sameIdentity record.view source := by
  obtain ⟨k, slot, rfl, hk, hrecord, hid⟩ := findFrom_spec h
  rw [Nat.zero_add]
  exact ⟨slot, hk, hrecord, hid⟩

def freeSlot (slots : List Slot) : Option ℕ :=
  slots.findIdx? fun slot => slot.record.isNone && !slot.reserved

theorem freeSlot_spec (h : freeSlot slots = some index) : slots[index]? = some ⟨none, false⟩ := by
  rw [freeSlot, findIdx?_eq_some_iff_getElem] at h
  obtain ⟨hlt, hfree, -⟩ := h
  rw [getElem?_eq_getElem hlt]
  rcases hslot : slots[index] with ⟨record, reserved⟩
  rw [hslot] at hfree
  cases record <;> cases reserved <;> simp_all

theorem freeSlot_eq_none_iff :
    freeSlot slots = none ↔ ∀ slot ∈ slots, slot.record ≠ none ∨ slot.reserved := by
  rw [freeSlot, findIdx?_eq_none_iff]
  refine forall₂_congr fun slot _ => ?_
  rcases slot with ⟨_ | record, _ | _⟩ <;> simp

def Slot.withRecord (record : Option MemoryRecord) (slot : Slot) : Slot :=
  { slot with record }

def Slot.withReserved (reserved : Bool) (slot : Slot) : Slot :=
  { slot with reserved }

structure Reservation where
  slot : ℕ
  bytes : ℕ
  recordId : ℕ
  source : Record

/-- How the first critical section of an admission ends: with the result of the whole call, or a
reservation. -/
inductive Admission
  | returned (rc : Status) (recordId : ℕ)
  | reserved (reservation : Reservation)

/-- Reserve the slot at `index` for a record of `bytes` bytes and draw its id. -/
def memoryReserve (memory : Memory) (index bytes : ℕ) : Memory :=
  { memory with
    slots := memory.slots.modify index (Slot.withReserved true)
    recordIdExhausted := memory.recordIdExhausted || memory.nextRecordId == max64
    nextRecordId :=
      if memory.nextRecordId = max64 then memory.nextRecordId else add64 memory.nextRecordId 1
    reservedRecords := add64 memory.reservedRecords 1
    reservedBytes := add64 memory.reservedBytes bytes }

/-- The first critical section of `flow_inbox_memory_admit` behind the duplicate check. -/
def memoryAdmitFresh (memory : Memory) (source : Record) : Memory × Admission :=
  if ¬ memory.accepting then (memory, .returned .eshutdown 0)
  else
    match retainedSize source with
    | none => (memory, .returned .erange 0)
    | some bytes =>
      if bytes > memory.config.maxRecordBytes then (memory, .returned .enospc 0)
      else if memory.admitted = max64 ∨ memory.recordIdExhausted then
        (memory, .returned .erange 0)
      else if add64 memory.liveRecords memory.historyRecords ≥ memory.config.maxRecords ∨
          bytes > sub64 memory.config.maxTotalBytes memory.retainedBytes then
        (memory, .returned .enospc 0)
      else if memory.reservedRecords ≥
            sub64 (sub64 memory.config.maxRecords memory.liveRecords) memory.historyRecords ∨
          memory.reservedBytes > sub64 memory.config.maxTotalBytes memory.retainedBytes ∨
          bytes > sub64 (sub64 memory.config.maxTotalBytes memory.retainedBytes)
            memory.reservedBytes then
        (memory, .returned .ebusy 0)
      else
        match freeSlot memory.slots with
        | none => (memory, .returned .eproto 0)
        | some index =>
          -- A drawn id of zero is taken for a call that has nothing to commit.
          if memory.nextRecordId = 0 then (memoryReserve memory index bytes, .returned .ok 0)
          else
            (memoryReserve memory index bytes,
              .reserved ⟨index, bytes, memory.nextRecordId, source⟩)

/-- The first critical section of `flow_inbox_memory_admit`. -/
def memoryAdmitReserve (memory : Memory) (source : Record) : Memory × Admission :=
  match memoryFindAdmission memory source with
  | some (_, existing) =>
    if recordEqual existing.view source then (memory, .returned .ok existing.recordId)
    else (memory, .returned .eproto 0)
  | none => memoryAdmitFresh memory source

@[simp] def memoryReleaseReservation (memory : Memory) (index bytes : ℕ) : Memory :=
  { memory with
    slots := memory.slots.modify index (Slot.withReserved false)
    reservedRecords := sub64 memory.reservedRecords 1
    reservedBytes := sub64 memory.reservedBytes bytes }

/-- The copy that `flow_inbox_memory_record_copy` makes, with the drawn id. -/
def memoryRecordCopy (r : Reservation) : MemoryRecord where
  recordId := r.recordId
  claimToken := 0
  phase := .pending
  failureStatus := .ok
  failureKind := .processing
  terminalKind := none
  retainedBytes := r.bytes
  view := { r.source with envelopeSchema := recordSchema }

def memoryStore (memory : Memory) (r : Reservation) : Memory :=
  { memory with
    slots := memory.slots.modify r.slot (Slot.withRecord (some (memoryRecordCopy r)))
    retainedBytes := add64 memory.retainedBytes r.bytes
    liveRecords := add64 memory.liveRecords 1
    admitted := add64 memory.admitted 1 }

/-- The second critical section of `flow_inbox_memory_admit`, with the receipt. -/
def memoryAdmitCommit (memory : Memory) (r : Reservation) : Memory × Status × ℕ :=
  match memoryFindAdmission memory r.source with
  | some (_, existing) =>
    let memory' := memoryReleaseReservation memory r.slot r.bytes
    if recordEqual existing.view r.source then (memory', .ok, existing.recordId)
    else (memory', .eproto, 0)
  | none =>
    match memory.slots[r.slot]? with
    | some ⟨none, true⟩ =>
      (memoryReleaseReservation (memoryStore memory r) r.slot r.bytes, .ok, r.recordId)
    | _ => (memoryReleaseReservation memory r.slot r.bytes, .eproto, 0)

end TurboFlow.Inbox
