import TurboFlow.Inbox.Memory

/-!
# Claims, settlement and snapshots of the memory inbox

A claim leases the oldest eligible pending record, `complete` and `fail` settle a lease, `retry`,
`discard` and `forget` are the operator's actions, `close` ends admission, and `snapshot` reads.
`inboxSnapshot` and `inboxClaim` are the wrappers, which reject what is not well formed.
-/

namespace TurboFlow.Inbox

open Word

/-- `turbo_flow_inbox_claim_ordering_t`. -/
inductive ClaimOrdering
  | global
  | partitionKey
  deriving DecidableEq

structure ClaimRequest where
  ordering : ClaimOrdering
  excludedPartitions : List Bytes
  deriving DecidableEq

def claimRequestInit : ClaimRequest := ⟨.global, []⟩

def claimMaxExcludedPartitions : ℕ := 64

def claimMaxExcludedBytes : ℕ := 64 * 1024

/-- The loop over the excluded partitions: no key is empty or repeated, and together they stay
within the byte limit. -/
def excludedPartitionsValid (earlier : List Bytes) (totalBytes : ℕ) : List Bytes → Bool
  | [] => true
  | key :: keys =>
    if key = [] ∨ key.length > claimMaxExcludedBytes - totalBytes then false
    else if key ∈ earlier then false
    else excludedPartitionsValid (earlier ++ [key]) (totalBytes + key.length) keys

def claimRequestValid (request : ClaimRequest) : Bool :=
  match request.ordering with
  | .global => request.excludedPartitions = []
  | .partitionKey =>
    request.excludedPartitions.length ≤ claimMaxExcludedPartitions ∧
      excludedPartitionsValid [] 0 request.excludedPartitions

def claimPartitionExcluded (record : Record) (request : ClaimRequest) : Bool :=
  request.ordering = .partitionKey ∧ record.partitionKey ∈ request.excludedPartitions

def olderOf (eligible : MemoryRecord → Bool) (best : Option (ℕ × MemoryRecord)) (index : ℕ)
    (slot : Slot) : Option (ℕ × MemoryRecord) :=
  match slot.record, best with
  | none, _ => best
  | some record, none => if eligible record then some (index, record) else none
  | some record, some (_, other) =>
    if eligible record ∧ record.recordId < other.recordId then some (index, record) else best

def oldestFrom (eligible : MemoryRecord → Bool) (best : Option (ℕ × MemoryRecord)) (index : ℕ) :
    List Slot → Option (ℕ × MemoryRecord)
  | [] => best
  | slot :: slots => oldestFrom eligible (olderOf eligible best index slot) (index + 1) slots

theorem oldestFrom_spec (h : oldestFrom eligible best index slots = some (i, record)) :
    best = some (i, record) ∨
      ∃ k slot, i = index + k ∧ slots[k]? = some slot ∧ slot.record = some record ∧
        eligible record := by
  induction slots generalizing best index with
  | nil => exact .inl h
  | cons slot slots ih =>
    rcases ih h with hbest | ⟨k, slot', rfl, hk⟩
    · unfold olderOf at hbest
      split at hbest
      · exact .inl hbest
      · rename_i r hr
        split at hbest
        · rename_i he
          cases hbest
          exact .inr ⟨0, slot, rfl, rfl, hr, he⟩
        · cases hbest
      rename_i r j other hr
      split at hbest
      · rename_i he
        cases hbest
        exact .inr ⟨0, slot, rfl, rfl, hr, he.1⟩
      · exact .inl hbest
    · exact .inr ⟨k + 1, slot', by omega, hk⟩

theorem olderOf_le (eligible : MemoryRecord → Bool) (best : Option (ℕ × MemoryRecord)) (index : ℕ)
    (slot : Slot) :
    (∀ other, best = some other → ∃ older, olderOf eligible best index slot = some older ∧
      older.2.recordId ≤ other.2.recordId) ∧
    (∀ record, slot.record = some record → eligible record →
      ∃ older, olderOf eligible best index slot = some older ∧
        older.2.recordId ≤ record.recordId) := by
  unfold olderOf
  split
  · rename_i hnone
    exact ⟨fun other hother => ⟨other, hother, le_refl _⟩, by simp [hnone]⟩
  · rename_i record hrecord
    refine ⟨by simp, ?_⟩
    rintro record' hrecord' heligible
    obtain rfl : record = record' := by simpa [hrecord] using hrecord'
    exact ⟨(index, record), if_pos heligible, le_refl _⟩
  rename_i record i other hrecord
  split
  · rename_i hless
    refine ⟨?_, ?_⟩
    · rintro other' hother'
      cases hother'
      exact ⟨_, rfl, le_of_lt hless.2⟩
    rintro record' hrecord' -
    obtain rfl : record = record' := by simpa [hrecord] using hrecord'
    exact ⟨_, rfl, le_refl _⟩
  rename_i hless
  refine ⟨fun other' hother' => ⟨other', hother', le_refl _⟩, ?_⟩
  rintro record' hrecord' heligible
  obtain rfl : record = record' := by simpa [hrecord] using hrecord'
  exact ⟨_, rfl, le_of_not_gt fun hlt => hless ⟨heligible, hlt⟩⟩

/-- The selected record is no younger than the candidate the loop started from and every eligible
record. -/
theorem oldestFrom_le (eligible : MemoryRecord → Bool) (best : Option (ℕ × MemoryRecord))
    (index : ℕ) (slots : List Slot) :
    (∀ other, best = some other → ∃ oldest, oldestFrom eligible best index slots = some oldest ∧
      oldest.2.recordId ≤ other.2.recordId) ∧
    (∀ slot ∈ slots, ∀ record, slot.record = some record → eligible record →
      ∃ oldest, oldestFrom eligible best index slots = some oldest ∧
        oldest.2.recordId ≤ record.recordId) := by
  induction slots generalizing best index with
  | nil => exact ⟨fun other hother => ⟨other, hother, le_refl _⟩, by simp⟩
  | cons slot slots ih =>
    obtain ⟨hbest, hslot⟩ := olderOf_le eligible best index slot
    obtain ⟨hcarried, hlater⟩ := ih (olderOf eligible best index slot) (index + 1)
    refine ⟨?_, ?_⟩
    · intro other hother
      obtain ⟨older, holder, hle⟩ := hbest other hother
      obtain ⟨oldest, holdest, hle'⟩ := hcarried older holder
      exact ⟨oldest, holdest, hle'.trans hle⟩
    intro slot' hmem record hrecord heligible
    rcases List.mem_cons.mp hmem with rfl | hmem
    · obtain ⟨older, holder, hle⟩ := hslot record hrecord heligible
      obtain ⟨oldest, holdest, hle'⟩ := hcarried older holder
      exact ⟨oldest, holdest, hle'.trans hle⟩
    · exact hlater slot' hmem record hrecord heligible

structure Claim where
  recordId : ℕ
  claimToken : ℕ
  record : Record

def memoryClaimSelect (memory : Memory) (request : ClaimRequest) :
    Memory × Except Status Claim :=
  if ¬ claimRequestValid request then (memory, .error .einval)
  else
    match oldestFrom
        (fun record => record.phase == .pending && !claimPartitionExcluded record.view request)
        none 0 memory.slots with
    | none => (memory, .error .enoent)
    | some (index, record) =>
      if memory.inFlightClaims ≥ memory.config.maxClaims then (memory, .error .enospc)
      else if memory.claimTokenExhausted then (memory, .error .erange)
      else
        let record' := { record with claimToken := memory.nextClaimToken, phase := .claimed }
        ({ memory with
            slots := memory.slots.modify index (Slot.withRecord (some record'))
            claimTokenExhausted := memory.nextClaimToken == max64
            nextClaimToken :=
              if memory.nextClaimToken = max64 then memory.nextClaimToken
              else add64 memory.nextClaimToken 1
            inFlightClaims := add64 memory.inFlightClaims 1 },
          .ok ⟨record'.recordId, record'.claimToken, record'.view⟩)

/-- `turbo_flow_inbox_claim_ex`; `turbo_flow_inbox_claim` is the same with the initial request. -/
def inboxClaim (memory : Memory) (request : ClaimRequest) : Memory × Except Status Claim :=
  match memoryClaimSelect memory request with
  | (memory', .error rc) => (memory', .error rc)
  | (memory', .ok claim) =>
    if claim.recordId = 0 ∨ claim.claimToken = 0 ∨ recordValid claim.record ≠ .ok then
      (memory', .error .eproto)
    else (memory', .ok claim)

def memoryComplete (memory : Memory) (recordId claimToken : ℕ) : Memory × Status :=
  match memoryFind memory recordId with
  | none => (memory, .ealready)
  | some (index, record) =>
    if record.phase ≠ .claimed ∨ record.claimToken ≠ claimToken then (memory, .ealready)
    else if memory.completed = max64 then (memory, .erange)
    else
      let record' :=
        { record with phase := .tombstone, claimToken := 0, terminalKind := some .completed }
      ({ memory with
          slots := memory.slots.modify index (Slot.withRecord (some record'))
          inFlightClaims := sub64 memory.inFlightClaims 1
          liveRecords := sub64 memory.liveRecords 1
          historyRecords := add64 memory.historyRecords 1
          completed := add64 memory.completed 1 }, .ok)

def memoryFail (memory : Memory) (recordId claimToken : ℕ) (status : Status) : Memory × Status :=
  match memoryFind memory recordId with
  | none => (memory, .ealready)
  | some (index, record) =>
    if record.phase ≠ .claimed ∨ record.claimToken ≠ claimToken then (memory, .ealready)
    else if memory.failed = max64 then (memory, .erange)
    else
      let record' :=
        { record with phase := .failed, failureStatus := status, failureKind := .processing }
      ({ memory with
          slots := memory.slots.modify index (Slot.withRecord (some record'))
          inFlightClaims := sub64 memory.inFlightClaims 1
          failed := add64 memory.failed 1 }, .ok)

def memoryRetry (memory : Memory) (recordId : ℕ) : Memory × Status :=
  match memoryFind memory recordId with
  | none => (memory, .enoent)
  | some (index, record) =>
    if record.phase ≠ .failed then (memory, .ebusy)
    else if memory.retried = max64 then (memory, .erange)
    else
      let record' :=
        { record with phase := .pending, failureStatus := .ok, failureKind := .processing }
      ({ memory with
          slots := memory.slots.modify index (Slot.withRecord (some record'))
          retried := add64 memory.retried 1 }, .ok)

def memoryDiscard (memory : Memory) (recordId : ℕ) : Memory × Status :=
  match memoryFind memory recordId with
  | none => (memory, .enoent)
  | some (index, record) =>
    if record.phase ≠ .failed then (memory, .ebusy)
    else if memory.discarded = max64 then (memory, .erange)
    else
      let record' := { record with phase := .tombstone, terminalKind := some .discarded }
      ({ memory with
          slots := memory.slots.modify index (Slot.withRecord (some record'))
          liveRecords := sub64 memory.liveRecords 1
          historyRecords := add64 memory.historyRecords 1
          discarded := add64 memory.discarded 1 }, .ok)

def memoryForget (memory : Memory) (recordId : ℕ) : Memory × Status :=
  match memoryFind memory recordId with
  | none => (memory, .enoent)
  | some (index, record) =>
    if record.phase ≠ .tombstone then (memory, .ebusy)
    else
      match memory.slots[index]? with
      | some ⟨some _, false⟩ =>
        ({ memory with
            slots := memory.slots.modify index (Slot.withRecord none)
            historyRecords := sub64 memory.historyRecords 1
            retainedBytes := sub64 memory.retainedBytes record.retainedBytes }, .ok)
      | _ => (memory, .eproto)

structure FailedEntry where
  recordId : ℕ
  status : Status
  kind : FailureKind

structure HistoryEntry where
  recordId : ℕ
  kind : TerminalKind

def memoryClose (memory : Memory) : Memory × Status :=
  if memory.reservedRecords ≠ 0 then (memory, .ebusy)
  else ({ memory with accepting := false }, .ok)

structure Snapshot where
  generation : ℕ
  accepting : Bool
  records : ℕ
  historyRecords : ℕ
  pendingRecords : ℕ
  failedRecords : ℕ
  inFlightClaims : ℕ
  retainedBytes : ℕ
  admitted : ℕ
  completed : ℕ
  failed : ℕ
  retried : ℕ
  discarded : ℕ

def countPhase (phase : RecordPhase) (slots : List Slot) : ℕ :=
  slots.foldl
    (fun count slot =>
      match slot.record with
      | some record => if record.phase = phase then add64 count 1 else count
      | none => count)
    0

def memorySnapshot (memory : Memory) : Snapshot where
  generation := 1
  accepting := memory.accepting
  records := memory.liveRecords
  historyRecords := memory.historyRecords
  pendingRecords := countPhase .pending memory.slots
  failedRecords := countPhase .failed memory.slots
  inFlightClaims := memory.inFlightClaims
  retainedBytes := memory.retainedBytes
  admitted := memory.admitted
  completed := memory.completed
  failed := memory.failed
  retried := memory.retried
  discarded := memory.discarded

def snapshotValid (snapshot : Snapshot) : Bool :=
  if snapshot.generation = 0 ∨ snapshot.pendingRecords > snapshot.records then false
  else
    let unclassified := sub64 snapshot.records snapshot.pendingRecords
    if snapshot.failedRecords > unclassified then false
    else if snapshot.inFlightClaims ≠ sub64 unclassified snapshot.failedRecords then false
    else if snapshot.records > snapshot.admitted ∨
        snapshot.historyRecords > sub64 snapshot.admitted snapshot.records then false
    else if snapshot.completed > snapshot.admitted ∨
        snapshot.discarded > sub64 snapshot.admitted snapshot.completed then false
    else if snapshot.historyRecords > add64 snapshot.completed snapshot.discarded ∨
        snapshot.failedRecords > snapshot.failed ∨ snapshot.retried > snapshot.failed ∨
        snapshot.discarded > snapshot.failed then false
    else true

def inboxSnapshot (memory : Memory) : Except Status Snapshot :=
  let snapshot := memorySnapshot memory
  if snapshotValid snapshot then .ok snapshot else .error .eproto

end TurboFlow.Inbox
