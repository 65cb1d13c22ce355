import TurboFlow.Inbox.Settlement
import TurboFlow.Lib.Run

/-!
# The memory inbox under concurrent callers

The state is the memory and the list of admissions between their two critical sections. `act`
performs one operation: one critical section with the argument checks of its public wrapper.
`act_effect` says once what an operation can do; the results are case analyses over `Effect`.
-/

namespace TurboFlow.Inbox

open Word

structure System where
  memory : Memory
  inFlight : List Reservation

/-- The operations of the callers. `commit k` and `copyFailed k` continue the `k`-th admission in
flight. -/
inductive Operation
  | admitRecord (source : Record)
  | commit (k : ℕ)
  | copyFailed (k : ℕ)
  | claim
  | claimEx (request : ClaimRequest)
  | complete (recordId claimToken : ℕ)
  | fail (recordId claimToken : ℕ) (status : Status)
  | retry (recordId : ℕ)
  | discard (recordId : ℕ)
  | forget (recordId : ℕ)
  | close
  | snapshot
  deriving DecidableEq

/-- What an operation returns to its caller. `reserved` is an admission that goes on to copy the
record. -/
inductive Outcome
  | admitted (source : Record) (rc : Status) (recordId : ℕ)
  | reserved (recordId : ℕ)
  | claimed (claim : Except Status Claim)
  | status (rc : Status)
  | snapshot (snapshot : Except Status Snapshot)

/-- The last check of `turbo_flow_inbox_admit`: a successful receipt has an id. -/
def receiptOf (source : Record) (rc : Status) (recordId : ℕ) : Outcome :=
  if rc ≠ .ok then .admitted source rc 0
  else if recordId = 0 then .admitted source .eproto 0
  else .admitted source .ok recordId

def System.withStatus (s : System) (r : Memory × Status) : Option (System × Outcome) :=
  some ({ s with memory := r.1 }, .status r.2)

def act (s : System) : Operation → Option (System × Outcome)
  | .admitRecord source =>
    if recordValid source ≠ .ok then some (s, .admitted source (recordValid source) 0)
    else
      match memoryAdmitReserve s.memory source with
      | (memory, .returned rc recordId) =>
        some ({ s with memory }, receiptOf source rc recordId)
      | (memory, .reserved r) =>
        some ({ memory, inFlight := s.inFlight ++ [r] }, .reserved r.recordId)
  | .commit k =>
    match s.inFlight[k]? with
    | none => none
    | some r =>
      let (memory, rc, recordId) := memoryAdmitCommit s.memory r
      some ({ memory, inFlight := s.inFlight.eraseIdx k }, receiptOf r.source rc recordId)
  | .copyFailed k =>
    match s.inFlight[k]? with
    | none => none
    | some r =>
      some ({ memory := memoryReleaseReservation s.memory r.slot r.bytes,
              inFlight := s.inFlight.eraseIdx k }, .admitted r.source .enomem 0)
  | .claim =>
    let (memory, claim) := inboxClaim s.memory claimRequestInit
    some ({ s with memory }, .claimed claim)
  | .claimEx request =>
    let (memory, claim) := inboxClaim s.memory request
    some ({ s with memory }, .claimed claim)
  | .complete recordId claimToken =>
    if recordId = 0 ∨ claimToken = 0 then some (s, .status .einval)
    else s.withStatus (memoryComplete s.memory recordId claimToken)
  | .fail recordId claimToken status =>
    if recordId = 0 ∨ claimToken = 0 ∨ status = .ok then some (s, .status .einval)
    else s.withStatus (memoryFail s.memory recordId claimToken status)
  | .retry recordId =>
    if recordId = 0 then some (s, .status .einval)
    else s.withStatus (memoryRetry s.memory recordId)
  | .discard recordId =>
    if recordId = 0 then some (s, .status .einval)
    else s.withStatus (memoryDiscard s.memory recordId)
  | .forget recordId =>
    if recordId = 0 then some (s, .status .einval)
    else s.withStatus (memoryForget s.memory recordId)
  | .close => s.withStatus (memoryClose s.memory)
  | .snapshot => some (s, .snapshot (inboxSnapshot s.memory))

/-- The system right after `turbo_flow_inbox_memory_create`. -/
def System.init (memory : Memory) : System := ⟨memory, []⟩

/-- A well-formed record of Source `[1]` under the admission id `[id]`. -/
def sampleRecord (id : UInt8) : Record where
  version := apiVersion
  envelopeSchema := recordSchema
  envelopeSchemaVersion := recordSchemaVersion
  sourceId := [1]
  partitionKey := [1]
  admissionId := [id]
  sourceSequence := 0
  timestampNs := 0
  messageType := 0
  messageFlags := 0
  content :=
    { domain := .data
      profile := .generic
      encoding := .opaqueBytes
      schemaDeclared := true
      batch := false
      protocolControl := false
      unknownFlags := 0
      schemaVersion := 1
      mediaType := ""
      schemaName := "s"
      typeName := "t"
      identity := "" }
  correlation := []
  payload := []

def twoSlots : MemoryConfig := ⟨2, 64, 32, 1⟩

inductive Move
  | claim
  | complete
  | fail
  | retry
  | discard

def Move.before : Move → RecordPhase
  | .claim => .pending
  | .complete | .fail => .claimed
  | .retry | .discard => .failed

def Move.after : Move → RecordPhase
  | .claim => .claimed
  | .complete | .discard => .tombstone
  | .fail => .failed
  | .retry => .pending

def Move.count (memory : Memory) : Move → Memory
  | .claim =>
    { memory with
      claimTokenExhausted := memory.nextClaimToken == max64
      nextClaimToken :=
        if memory.nextClaimToken = max64 then memory.nextClaimToken
        else add64 memory.nextClaimToken 1
      inFlightClaims := add64 memory.inFlightClaims 1 }
  | .complete =>
    { memory with
      inFlightClaims := sub64 memory.inFlightClaims 1
      liveRecords := sub64 memory.liveRecords 1
      historyRecords := add64 memory.historyRecords 1
      completed := add64 memory.completed 1 }
  | .fail =>
    { memory with
      inFlightClaims := sub64 memory.inFlightClaims 1
      failed := add64 memory.failed 1 }
  | .retry => { memory with retried := add64 memory.retried 1 }
  | .discard =>
    { memory with
      liveRecords := sub64 memory.liveRecords 1
      historyRecords := add64 memory.historyRecords 1
      discarded := add64 memory.discarded 1 }

def Move.Allowed (memory : Memory) : Move → Prop
  | .claim => memory.inFlightClaims < memory.config.maxClaims
  | .complete => memory.completed ≠ max64
  | .fail => memory.failed ≠ max64
  | .retry => memory.retried ≠ max64
  | .discard => memory.discarded ≠ max64

def settle (memory : Memory) (move : Move) (index : ℕ) (record : MemoryRecord) : Memory :=
  { move.count memory with
    slots := memory.slots.modify index (Slot.withRecord (some record)) }

def eraseRecord (memory : Memory) (index : ℕ) (record : MemoryRecord) : Memory :=
  { memory with
    slots := memory.slots.modify index (Slot.withRecord none)
    historyRecords := sub64 memory.historyRecords 1
    retainedBytes := sub64 memory.retainedBytes record.retainedBytes }

structure Reservable (memory : Memory) (source : Record) (index bytes : ℕ) : Prop where
  valid : recordValid source = .ok
  fresh : memoryFindAdmission memory source = none
  accepting : memory.accepting
  size : retainedSize source = some bytes
  recordBytes : bytes ≤ memory.config.maxRecordBytes
  admitted : memory.admitted ≠ max64
  ids : ¬ memory.recordIdExhausted
  totalBytes : bytes ≤ sub64 memory.config.maxTotalBytes memory.retainedBytes
  openBytes :
    bytes ≤ sub64 (sub64 memory.config.maxTotalBytes memory.retainedBytes) memory.reservedBytes
  slot : freeSlot memory.slots = some index

def release (s : System) (k : ℕ) (r : Reservation) : System where
  memory := memoryReleaseReservation s.memory r.slot r.bytes
  inFlight := s.inFlight.eraseIdx k

inductive Effect (s : System) : Operation → System → Prop
  | idle {op : Operation} : Effect s op s
  | reserve {source : Record} {index bytes : ℕ} (h : Reservable s.memory source index bytes)
      (hid : s.memory.nextRecordId ≠ 0) :
      Effect s (.admitRecord source)
        ⟨memoryReserve s.memory index bytes,
          s.inFlight ++ [⟨index, bytes, s.memory.nextRecordId, source⟩]⟩
  | reserveZero {source : Record} {index bytes : ℕ} (hid : s.memory.nextRecordId = 0) :
      Effect s (.admitRecord source) ⟨memoryReserve s.memory index bytes, s.inFlight⟩
  | release {op : Operation} {k : ℕ} {r : Reservation} (h : s.inFlight[k]? = some r) :
      Effect s op (release s k r)
  | commit {k : ℕ} {r : Reservation} (h : s.inFlight[k]? = some r)
      (hfresh : memoryFindAdmission s.memory r.source = none)
      (hslot : s.memory.slots[r.slot]? = some ⟨none, true⟩) :
      Effect s (.commit k) (release { s with memory := memoryStore s.memory r } k r)
  | move {op : Operation} {index : ℕ} {slot : Slot} {record : MemoryRecord} (mv : Move)
      (record' : MemoryRecord) (hslot : s.memory.slots[index]? = some slot)
      (hrecord : slot.record = some record) (hbefore : record.phase = mv.before)
      (hafter : record'.phase = mv.after) (hid : record'.recordId = record.recordId)
      (hview : record'.view = record.view) (hbytes : record'.retainedBytes = record.retainedBytes)
      (hallowed : mv.Allowed s.memory) :
      Effect s op { s with memory := settle s.memory mv index record' }
  | forget {index : ℕ} {record : MemoryRecord}
      (hslot : s.memory.slots[index]? = some ⟨some record, false⟩)
      (hphase : record.phase = .tombstone) :
      Effect s (.forget record.recordId)
        { s with memory := eraseRecord s.memory index record }
  | close : Effect s .close { s with memory := { s.memory with accepting := false } }

/-- What a settlement of a record does: it is refused, or makes its move, which satisfies `P`. -/
inductive Settles (memory : Memory) (recordId : ℕ) (mv : Move) (P : MemoryRecord → Prop) :
    Memory × Status → Prop
  | refused {rc : Status} (hrc : rc ≠ .ok) : Settles memory recordId mv P (memory, rc)
  | moved {index : ℕ} {slot : Slot} {record : MemoryRecord} (record' : MemoryRecord)
      (hslot : memory.slots[index]? = some slot) (hrecord : slot.record = some record)
      (hid : record.recordId = recordId) (hP : P record) (hbefore : record.phase = mv.before)
      (hafter : record'.phase = mv.after) (hsame : record'.recordId = record.recordId)
      (hview : record'.view = record.view) (hbytes : record'.retainedBytes = record.retainedBytes)
      (hallowed : mv.Allowed memory) :
      Settles memory recordId mv P (settle memory mv index record', .ok)

def settlement (memory : Memory) : Operation → Option (Memory × Status)
  | .complete recordId claimToken => some (memoryComplete memory recordId claimToken)
  | .fail recordId claimToken status => some (memoryFail memory recordId claimToken status)
  | .retry recordId => some (memoryRetry memory recordId)
  | .discard recordId => some (memoryDiscard memory recordId)
  | .forget recordId => some (memoryForget memory recordId)
  | .close => some (memoryClose memory)
  | _ => none

inductive Served (s : System) : Operation → System → Outcome → Prop
  | invalid {source : Record} (h : recordValid source ≠ .ok) :
      Served s (.admitRecord source) s (.admitted source (recordValid source) 0)
  | returned {source : Record} {memory : Memory} {rc : Status} {recordId : ℕ}
      (hvalid : recordValid source = .ok)
      (h : memoryAdmitReserve s.memory source = (memory, .returned rc recordId)) :
      Served s (.admitRecord source) { s with memory } (receiptOf source rc recordId)
  | reserved {source : Record} {memory : Memory} {r : Reservation}
      (hvalid : recordValid source = .ok)
      (h : memoryAdmitReserve s.memory source = (memory, .reserved r)) :
      Served s (.admitRecord source) ⟨memory, s.inFlight ++ [r]⟩ (.reserved r.recordId)
  | commit {k : ℕ} {r : Reservation} (h : s.inFlight[k]? = some r) :
      Served s (.commit k) ⟨(memoryAdmitCommit s.memory r).1, s.inFlight.eraseIdx k⟩
        (receiptOf r.source (memoryAdmitCommit s.memory r).2.1 (memoryAdmitCommit s.memory r).2.2)
  | copyFailed {k : ℕ} {r : Reservation} (h : s.inFlight[k]? = some r) :
      Served s (.copyFailed k) (release s k r) (.admitted r.source .enomem 0)
  | claim {op : Operation} (request : ClaimRequest) :
      Served s op { s with memory := (inboxClaim s.memory request).1 }
        (.claimed (inboxClaim s.memory request).2)
  | refused {op : Operation} : Served s op s (.status .einval)
  | settled {op : Operation} {result : Memory × Status} (h : settlement s.memory op = some result) :
      Served s op { s with memory := result.1 } (.status result.2)
  | snapshot : Served s .snapshot s (.snapshot (inboxSnapshot s.memory))

theorem act_served (h : act s op = some (s', out)) : Served s op s' out := by
  cases op with
  | admitRecord source =>
    rw [act] at h
    split at h
    · rename_i hvalid
      cases h
      exact .invalid hvalid
    rename_i hvalid
    split at h
    · rename_i memory rc recordId heq
      cases h
      exact .returned (not_not.mp hvalid) heq
    rename_i memory r heq
    cases h
    exact .reserved (not_not.mp hvalid) heq
  | commit k =>
    rcases hk : s.inFlight[k]? with _ | r
    · simp [act, hk] at h
    obtain ⟨rfl, rfl⟩ := by simpa [act, hk] using h
    exact .commit hk
  | copyFailed k =>
    rcases hk : s.inFlight[k]? with _ | r
    · simp [act, hk] at h
    obtain ⟨rfl, rfl⟩ := by simpa [act, hk] using h
    exact .copyFailed hk
  | claim | claimEx request =>
    cases h
    exact .claim _
  | complete | fail | retry | discard | forget =>
    rw [act] at h
    split at h
    · cases h
      exact .refused
    cases h
    exact .settled rfl
  | close =>
    cases h
    exact .settled rfl
  | snapshot =>
    cases h
    exact .snapshot

section Operations

variable (s : System) (op : Operation)

variable {memory : Memory}

theorem memoryAdmitFresh_cases (hvalid : recordValid source = .ok)
    (hfresh : memoryFindAdmission memory source = none) :
    (∃ rc, memoryAdmitFresh memory source = (memory, .returned rc 0) ∧ rc ≠ .ok ∧
        (rc = .eproto → freeSlot memory.slots = none ∧
          memory.reservedRecords <
            sub64 (sub64 memory.config.maxRecords memory.liveRecords) memory.historyRecords)) ∨
      (memory.nextRecordId = 0 ∧ ∃ index bytes,
        memoryAdmitFresh memory source = (memoryReserve memory index bytes, .returned .ok 0)) ∨
      (memory.nextRecordId ≠ 0 ∧ ∃ index bytes, Reservable memory source index bytes ∧
        memoryAdmitFresh memory source =
          (memoryReserve memory index bytes,
            .reserved ⟨index, bytes, memory.nextRecordId, source⟩)) := by
  unfold memoryAdmitFresh
  split
  · exact .inl ⟨_, rfl, by simp, by simp⟩
  rename_i haccepting
  split
  · exact .inl ⟨_, rfl, by simp, by simp⟩
  rename_i bytes hsize
  split
  · exact .inl ⟨_, rfl, by simp, by simp⟩
  rename_i hbytes
  split
  · exact .inl ⟨_, rfl, by simp, by simp⟩
  rename_i hids
  split
  · exact .inl ⟨_, rfl, by simp, by simp⟩
  rename_i htotal
  split
  · exact .inl ⟨_, rfl, by simp, by simp⟩
  rename_i hopen
  push Not at haccepting hbytes hids htotal hopen
  split
  · rename_i hnone
    exact .inl ⟨_, rfl, by simp, fun _ => ⟨hnone, hopen.1⟩⟩
  rename_i index hslot
  split
  · rename_i hid
    exact .inr (.inl ⟨hid, index, bytes, rfl⟩)
  rename_i hid
  refine .inr (.inr ⟨hid, index, bytes, ?_, rfl⟩)
  exact ⟨hvalid, hfresh, haccepting, hsize, hbytes, hids.1, by simpa using hids.2, htotal.2,
    hopen.2.2, hslot⟩

theorem memoryAdmitReserve_of_found
    (h : memoryFindAdmission memory source = some (index, existing)) :
    memoryAdmitReserve memory source =
      (memory, if recordEqual existing.view source then .returned .ok existing.recordId
        else .returned .eproto 0) := by
  simp only [memoryAdmitReserve, h]
  split <;> rfl

theorem memoryAdmitReserve_of_fresh (h : memoryFindAdmission memory source = none) :
    memoryAdmitReserve memory source = memoryAdmitFresh memory source := by
  simp only [memoryAdmitReserve, h]

theorem memoryAdmitReserve_cases (hvalid : recordValid source = .ok) :
    (∃ rc recordId, memoryAdmitReserve memory source = (memory, .returned rc recordId)) ∨
      (memory.nextRecordId = 0 ∧ ∃ index bytes,
        memoryAdmitReserve memory source = (memoryReserve memory index bytes, .returned .ok 0)) ∨
      (memory.nextRecordId ≠ 0 ∧ ∃ index bytes, Reservable memory source index bytes ∧
        memoryAdmitReserve memory source =
          (memoryReserve memory index bytes,
            .reserved ⟨index, bytes, memory.nextRecordId, source⟩)) := by
  cases hfind : memoryFindAdmission memory source with
  | some found =>
    rw [memoryAdmitReserve_of_found hfind]
    split <;> exact .inl ⟨_, _, rfl⟩
  | none =>
    rw [memoryAdmitReserve_of_fresh hfind]
    rcases memoryAdmitFresh_cases hvalid hfind with ⟨rc, heq, -⟩ | hrest
    · exact .inl ⟨rc, 0, heq⟩
    · exact .inr hrest

theorem memoryAdmitCommit_effect (h : s.inFlight[k]? = some r) :
    Effect s (.commit k)
      ⟨(memoryAdmitCommit s.memory r).1, s.inFlight.eraseIdx k⟩ := by
  unfold memoryAdmitCommit
  split
  · split <;> exact .release h
  rename_i hfresh
  split
  · rename_i hslot
    exact .commit h hfresh hslot
  · exact .release h

theorem memoryClaimSelect_effect (request : ClaimRequest) :
    Effect s op { s with memory := (memoryClaimSelect s.memory request).1 } := by
  unfold memoryClaimSelect
  split
  · exact .idle
  split
  · exact .idle
  rename_i index record hselected
  split
  · exact .idle
  rename_i hclaims
  split
  · exact .idle
  rcases oldestFrom_spec hselected with hnone | ⟨k, slot, rfl, hslot, hrecord, heligible⟩
  · cases hnone
  rw [Nat.zero_add]
  have hpending : record.phase = .pending := by simp_all
  exact .move .claim _ hslot hrecord hpending rfl rfl rfl rfl (Nat.lt_of_not_le hclaims)

theorem inboxClaim_effect (request : ClaimRequest) :
    Effect s op { s with memory := (inboxClaim s.memory request).1 } := by
  have hselect := memoryClaimSelect_effect s op request
  unfold inboxClaim
  split
  · rename_i h
    rwa [h] at hselect
  rename_i h
  rw [h] at hselect
  split <;> exact hselect

theorem memoryComplete_settles (memory : Memory) (recordId claimToken : ℕ) :
    Settles memory recordId .complete (·.claimToken = claimToken)
      (memoryComplete memory recordId claimToken) := by
  unfold memoryComplete
  split
  · exact .refused (by simp)
  rename_i index record hfind
  obtain ⟨slot, hslot, hrecord, hid⟩ := memoryFind_spec hfind
  split
  · exact .refused (by simp)
  rename_i hclaimed
  split
  · exact .refused (by simp)
  rename_i hmax
  push Not at hclaimed
  exact .moved
    { record with phase := .tombstone, claimToken := 0, terminalKind := some .completed }
    hslot hrecord hid hclaimed.2 hclaimed.1 rfl rfl rfl rfl hmax

theorem memoryFail_settles (memory : Memory) (recordId claimToken : ℕ) (status : Status) :
    Settles memory recordId .fail (·.claimToken = claimToken)
      (memoryFail memory recordId claimToken status) := by
  unfold memoryFail
  split
  · exact .refused (by simp)
  rename_i index record hfind
  obtain ⟨slot, hslot, hrecord, hid⟩ := memoryFind_spec hfind
  split
  · exact .refused (by simp)
  rename_i hclaimed
  split
  · exact .refused (by simp)
  rename_i hmax
  push Not at hclaimed
  exact .moved
    { record with phase := .failed, failureStatus := status, failureKind := .processing }
    hslot hrecord hid hclaimed.2 hclaimed.1 rfl rfl rfl rfl hmax

theorem memoryRetry_settles (memory : Memory) (recordId : ℕ) :
    Settles memory recordId .retry (fun _ => True) (memoryRetry memory recordId) := by
  unfold memoryRetry
  split
  · exact .refused (by simp)
  rename_i index record hfind
  obtain ⟨slot, hslot, hrecord, hid⟩ := memoryFind_spec hfind
  split
  · exact .refused (by simp)
  rename_i hfailed
  split
  · exact .refused (by simp)
  rename_i hmax
  exact .moved
    { record with phase := .pending, failureStatus := .ok, failureKind := .processing }
    hslot hrecord hid trivial (not_not.mp hfailed) rfl rfl rfl rfl hmax

theorem memoryDiscard_settles (memory : Memory) (recordId : ℕ) :
    Settles memory recordId .discard (fun _ => True) (memoryDiscard memory recordId) := by
  unfold memoryDiscard
  split
  · exact .refused (by simp)
  rename_i index record hfind
  obtain ⟨slot, hslot, hrecord, hid⟩ := memoryFind_spec hfind
  split
  · exact .refused (by simp)
  rename_i hfailed
  split
  · exact .refused (by simp)
  rename_i hmax
  exact .moved { record with phase := .tombstone, terminalKind := some .discarded }
    hslot hrecord hid trivial (not_not.mp hfailed) rfl rfl rfl rfl hmax

theorem memoryForget_cases (memory : Memory) (recordId : ℕ) :
    (∃ rc, memoryForget memory recordId = (memory, rc) ∧ rc ≠ .ok) ∨
      ∃ index record, memory.slots[index]? = some ⟨some record, false⟩ ∧
        record.recordId = recordId ∧ record.phase = .tombstone ∧
        memoryForget memory recordId = (eraseRecord memory index record, .ok) := by
  unfold memoryForget
  split
  · exact .inl ⟨_, rfl, by simp⟩
  rename_i index record hfind
  obtain ⟨slot, hslot, hrecord, hid⟩ := memoryFind_spec hfind
  split
  · exact .inl ⟨_, rfl, by simp⟩
  rename_i hphase
  split
  · rename_i stored hstored
    obtain rfl : slot = ⟨some stored, false⟩ := by simpa [hslot] using hstored
    obtain rfl : stored = record := by simpa using hrecord
    exact .inr ⟨index, stored, hstored, hid, not_not.mp hphase, rfl⟩
  · exact .inl ⟨_, rfl, by simp⟩

theorem Settles.effect (h : Settles s.memory recordId mv P result) :
    Effect s op { s with memory := result.1 } := by
  cases h with
  | refused => exact .idle
  | moved record' hslot hrecord _ _ hbefore hafter hsame hview hbytes hallowed =>
    exact .move mv record' hslot hrecord hbefore hafter hsame hview hbytes hallowed

theorem settlement_effect (h : settlement s.memory op = some result) :
    Effect s op { s with memory := result.1 } := by
  cases op with
  | complete recordId claimToken =>
    cases h
    exact (memoryComplete_settles s.memory recordId claimToken).effect s _
  | fail recordId claimToken status =>
    cases h
    exact (memoryFail_settles s.memory recordId claimToken status).effect s _
  | retry recordId =>
    cases h
    exact (memoryRetry_settles s.memory recordId).effect s _
  | discard recordId =>
    cases h
    exact (memoryDiscard_settles s.memory recordId).effect s _
  | forget recordId =>
    cases h
    rcases memoryForget_cases s.memory recordId with
      ⟨rc, heq, -⟩ | ⟨index, record, hslot, rfl, hphase, heq⟩
    · rw [heq]
      exact .idle
    rw [heq]
    exact .forget hslot hphase
  | close =>
    cases h
    unfold memoryClose
    split
    · exact .idle
    · exact .close
  | _ => cases h

end Operations

theorem act_effect (h : act s op = some (s', out)) : Effect s op s' := by
  cases act_served h with
  | invalid | refused | snapshot => exact .idle
  | returned hvalid heq =>
    rcases memoryAdmitReserve_cases hvalid with
      ⟨rc, recordId, heq'⟩ | ⟨hid, index, bytes, heq'⟩ | ⟨-, index, bytes, -, heq'⟩
    · obtain ⟨rfl, -⟩ := Prod.mk.inj (heq'.symm.trans heq)
      exact .idle
    · obtain ⟨rfl, -⟩ := Prod.mk.inj (heq'.symm.trans heq)
      exact .reserveZero hid
    · cases heq'.symm.trans heq
  | reserved hvalid heq =>
    rcases memoryAdmitReserve_cases hvalid with
      ⟨rc, recordId, heq'⟩ | ⟨-, index, bytes, heq'⟩ | ⟨hid, index, bytes, hr, heq'⟩
    · cases heq'.symm.trans heq
    · cases heq'.symm.trans heq
    cases heq'.symm.trans heq
    exact .reserve hr hid
  | commit hk => exact memoryAdmitCommit_effect s hk
  | copyFailed hk => exact .release hk
  | claim request => exact inboxClaim_effect s _ request
  | settled hresult => exact settlement_effect s _ hresult

end TurboFlow.Inbox
