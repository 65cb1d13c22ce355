import TurboFlow.TurboDb.Schema
import TurboFlow.Lib.Worklist

/-!
# The transactions of the TurboDB inbox

Every operation of the provider is one serializable transaction. The transactions are functions of
the database: an error is a rollback. They check the generation of their owner, some when they read
the metadata and some only by the condition of an update.

`Change` says once what a transaction of a working owner can do to the database.
-/

namespace TurboFlow.TurboDb

open Inbox Word Fallible List

/-! ### Statements -/

/-- `UPDATE meta SET … WHERE singleton_id=1 AND generation=?`, which must affect the row. -/
def updateMeta (generation : ℤ) (set : MetaRow → MetaRow) (db : Database) :
    Except Status Database :=
  if db.metaRow.generation = generation then .ok { db with metaRow := set db.metaRow }
  else .error .ebusy

/-- An `UPDATE` of the records that must affect one row. -/
def updateOne (condition : Row → Bool) (set : Row → Row) (db : Database) :
    Except Status Database :=
  if db.rows.countP condition = 1 then .ok { db with rows := Rows.update condition set db.rows }
  else .error .ebusy

/-- A `DELETE` that must affect one row. -/
def deleteOne (condition : Row → Bool) (db : Database) : Except Status Database :=
  if db.rows.countP condition = 1 then
    .ok { db with rows := db.rows.filter fun row => !condition row }
  else .error .ebusy

def hasIdentity (record : Record) (row : Row) : Bool :=
  row.columns.sourceId = record.sourceId ∧ row.columns.admissionId = record.admissionId

/-- `INSERT` a row for a record; the primary key and the unique index refuse a second row with one
key. -/
def insertRow (record : Record) (row : Row) (db : Database) : Except Status Database :=
  if db.rows.any (fun other => other.recordId == row.recordId || hasIdentity record other) then
    .error .eproto
  else .ok { db with rows := db.rows ++ [row] }

/-! ### Moves of a record -/

inductive Move
  | claim (generation token : ℤ)
  | complete
  | fail (status : Status)
  | retry
  | discard
  deriving DecidableEq

namespace Move

def before : Move → RecordPhase
  | .claim _ _ => .pending
  | .complete | .fail _ => .claimed
  | .retry | .discard => .failed

/-- The `SET` clause on the row. -/
def set : Move → Row → Row
  | .claim generation token, row =>
    { row with phase := .claimed, claimGeneration := generation, claimToken := token }
  | .complete, row => { row with phase := .tombstone, terminalKind := some .completed }
  | .fail status, row =>
    { row with
      phase := .failed, failureStatus := status, failureKind := .processing, terminalKind := none }
  | .retry, row =>
    { row with
      phase := .pending, claimGeneration := 0, claimToken := 0, failureStatus := .ok,
      failureKind := .processing, terminalKind := none }
  | .discard, row => { row with phase := .tombstone, terminalKind := some .discarded }

/-- The `SET` clause on the metadata. -/
def count : Move → MetaRow → MetaRow
  | .claim _ _, m =>
    { m with
      nextClaimToken := m.nextClaimToken + 1
      pendingRecords := m.pendingRecords - 1
      inFlightClaims := m.inFlightClaims + 1 }
  | .complete, m =>
    { m with
      records := m.records - 1
      historyRecords := m.historyRecords + 1
      inFlightClaims := m.inFlightClaims - 1
      completed := m.completed + 1 }
  | .fail _, m =>
    { m with
      inFlightClaims := m.inFlightClaims - 1
      failedRecords := m.failedRecords + 1
      failed := m.failed + 1 }
  | .retry, m =>
    { m with
      failedRecords := m.failedRecords - 1
      pendingRecords := m.pendingRecords + 1
      retried := m.retried + 1 }
  | .discard, m =>
    { m with
      records := m.records - 1
      historyRecords := m.historyRecords + 1
      failedRecords := m.failedRecords - 1
      discarded := m.discarded + 1 }

/-- The counter that stops the transition at `INT64_MAX`. -/
def counter : Move → MetaRow → ℤ
  | .claim _ _, m => m.nextClaimToken
  | .complete, m => m.completed
  | .fail _, m => m.failed
  | .retry, m => m.retried
  | .discard, m => m.discarded

@[simp] theorem set_recordId (mv : Move) (row : Row) : (mv.set row).recordId = row.recordId := by
  cases mv <;> rfl

@[simp] theorem set_columns (mv : Move) (row : Row) : (mv.set row).columns = row.columns := by
  cases mv <;> rfl

@[simp] theorem set_retainedBytes (mv : Move) (row : Row) :
    (mv.set row).retainedBytes = row.retainedBytes := by
  cases mv <;> rfl

@[simp] theorem count_generation (mv : Move) (m : MetaRow) :
    (mv.count m).generation = m.generation := by
  cases mv <;> rfl

@[simp] theorem count_ownerState (mv : Move) (m : MetaRow) :
    (mv.count m).ownerState = m.ownerState := by
  cases mv <;> rfl

@[simp] theorem count_nextRecordId (mv : Move) (m : MetaRow) :
    (mv.count m).nextRecordId = m.nextRecordId := by
  cases mv <;> rfl

end Move

def moveOne (generation : ℤ) (condition : Row → Bool) (mv : Move) (db : Database) :
    Except Status Database := do
  let db ← updateOne condition mv.set db
  updateMeta generation mv.count db

/-! ### Admission -/

def freshRow (recordId : ℤ) (record : Record) (bytes : ℕ) : Row where
  recordId := recordId
  phase := .pending
  claimGeneration := 0
  claimToken := 0
  failureStatus := .ok
  failureKind := .processing
  terminalKind := none
  columns := recordColumns record
  retainedBytes := bytes

/-- The `SET` clause of an admission on the metadata. -/
def admitCount (bytes : ℕ) (m : MetaRow) : MetaRow :=
  { m with
    nextRecordId := m.nextRecordId + 1
    records := m.records + 1
    pendingRecords := m.pendingRecords + 1
    retainedBytes := m.retainedBytes + bytes
    admitted := m.admitted + 1 }

def replayEqual (stored record : Record) : Bool :=
  stored.sourceSequence == record.sourceSequence && stored.timestampNs == record.timestampNs &&
    stored.messageType == record.messageType && stored.messageFlags == record.messageFlags &&
    contentEqual stored.content record.content && stored.partitionKey == record.partitionKey &&
    stored.correlation == record.correlation && stored.payload == record.payload

/-- The transaction of `inbox_admit` for an identity that is not stored. -/
def inboxAdmitFresh (limits : Limits) (generation : ℤ) (accepting : Bool) (record : Record)
    (db : Database) : Except Status (Database × ℤ) :=
  let m := db.metaRow
  if ¬ accepting then .error .eshutdown
  else
    match retainedSize record with
    | none => .error .erange
    | some bytes =>
      if bytes > limits.maxRecordBytes then .error .enospc
      else if m.records + m.historyRecords ≥ limits.maxRecords ∨
          bytes > sub64 limits.maxTotalBytes m.retainedBytes.toNat then .error .enospc
      else if m.nextRecordId = int64Max ∨ m.admitted = int64Max then .error .erange
      else do
        let db ← insertRow record (freshRow m.nextRecordId record bytes) db
        let db ← updateMeta generation (admitCount bytes) db
        .ok (db, m.nextRecordId)

/-- The transaction of `inbox_admit`. -/
def inboxAdmit (limits : Limits) (generation : ℤ) (accepting : Bool) (record : Record)
    (db : Database) : Except Status (Database × ℤ) :=
  if db.metaRow.generation ≠ generation then .error .ebusy
  else
    match db.rows.filter (hasIdentity record) with
    | [] => inboxAdmitFresh limits generation accepting record db
    | [row] => do
        let stored ← inboxRecordFromResult limits row
        if replayEqual stored record then .ok (db, row.recordId) else .error .eproto
    | _ => .error .eproto

/-! ### Claims and their settlement -/

local instance : LawfulBEq Bytes := inferInstance

/-- The `WHERE` clause of a claim. -/
def claimEligible (request : ClaimRequest) (row : Row) : Bool :=
  row.phase = .pending ∧
    ¬ (request.ordering = .partitionKey ∧
      row.columns.partitionKey ∈ request.excludedPartitions)

/-- The transaction of `inbox_claim_select`. -/
def inboxClaimSelect (limits : Limits) (generation : ℤ) (request : ClaimRequest) (db : Database) :
    Except Status (Database × Claim) :=
  let m := db.metaRow
  if m.generation ≠ generation then .error .ebusy
  else
    match (Rows.orderBy Row.recordId (db.rows.filter (claimEligible request))).take 1 with
    | [] => .error .enoent
    | row :: _ =>
      if m.inFlightClaims ≥ limits.maxClaims then .error .enospc
      else if m.nextClaimToken = int64Max then .error .erange
      else do
        let record ← inboxRecordFromResult limits row
        let db ← moveOne generation
          (fun other => other.recordId = row.recordId ∧ other.phase = .pending)
          (.claim generation m.nextClaimToken) db
        .ok (db, ⟨row.recordId.toNat, m.nextClaimToken.toNat, record⟩)

/-- The transaction of `inbox_claim_transition`. -/
def inboxClaimTransition (generation : ℤ) (recordId claimToken : ℕ) (mv : Move) (db : Database) :
    Except Status Database :=
  if db.metaRow.generation ≠ generation then .error .ebusy
  else if mv.counter db.metaRow = int64Max then .error .erange
  else
    moveOne generation
      (fun row => row.recordId = recordId ∧ row.claimToken = claimToken ∧
        row.claimGeneration = generation ∧ row.phase = .claimed)
      mv db

/-- The transaction of `inbox_failed_transition`. -/
def inboxFailedTransition (generation : ℤ) (recordId : ℕ) (mv : Move) (db : Database) :
    Except Status Database :=
  if db.metaRow.generation ≠ generation then .error .ebusy
  else if mv.counter db.metaRow = int64Max then .error .erange
  else
    match db.rows.filter (fun row => row.recordId = (recordId : ℤ)) with
    | [] => .error .enoent
    | [row] =>
      if row.phase ≠ .failed then .error .ebusy
      else
        moveOne generation (fun row => row.recordId = recordId ∧ row.phase = .failed) mv db
    | _ => .error .eproto

/-- The `SET` clause of `inbox_forget` on the metadata. -/
def forgetCount (bytes : ℤ) (m : MetaRow) : MetaRow :=
  { m with
    historyRecords := m.historyRecords - 1
    retainedBytes := m.retainedBytes - bytes }

/-- The transaction of `inbox_forget`, which checks the generation by its last update only. -/
def inboxForget (generation : ℤ) (recordId : ℕ) (db : Database) : Except Status Database :=
  match db.rows.filter (fun row => row.recordId = (recordId : ℤ)) with
  | [] => .error .enoent
  | [row] =>
    if row.phase ≠ .tombstone then .error .ebusy
    else do
      let db ← deleteOne (fun row => row.recordId = recordId ∧ row.phase = .tombstone) db
      updateMeta generation (forgetCount row.retainedBytes) db
  | _ => .error .eproto

/-! ### Reads -/

def scanRows (phase : RecordPhase) (afterId capacity : ℕ) (rows : List Row) : List Row :=
  (Rows.orderBy Row.recordId
    (rows.filter fun row => row.phase = phase ∧ afterId < row.recordId)).take capacity

/-- The transaction of `inbox_scan_failed`. -/
def inboxScanFailed (generation : ℤ) (afterId capacity : ℕ) (db : Database) :
    Except Status (List FailedEntry) :=
  if db.metaRow.generation ≠ generation then .error .ebusy
  else
    let rows := scanRows .failed afterId capacity db.rows
    if rows.any (fun row => row.recordId ≤ 0) then .error .eproto
    else
      .ok (rows.map fun row => ⟨row.recordId.toNat, row.failureStatus, row.failureKind⟩)

/-- The transaction of `inbox_scan_history`. -/
def inboxScanHistory (generation : ℤ) (afterId capacity : ℕ) (db : Database) :
    Except Status (List (ℕ × Option TerminalKind)) :=
  if db.metaRow.generation ≠ generation then .error .ebusy
  else
    let rows := scanRows .tombstone afterId capacity db.rows
    if rows.any (fun row => row.recordId ≤ 0 ∨ row.terminalKind = none) then .error .eproto
    else .ok (rows.map fun row => (row.recordId.toNat, row.terminalKind))

/-- The read of `inbox_snapshot`. -/
def inboxSnapshot (generation : ℤ) (accepting : Bool) (db : Database) : Except Status Snapshot :=
  let m := db.metaRow
  if m.generation ≠ generation then .error .ebusy
  else
    .ok
      { generation := generation.toNat
        accepting
        records := m.records.toNat
        historyRecords := m.historyRecords.toNat
        pendingRecords := m.pendingRecords.toNat
        failedRecords := m.failedRecords.toNat
        inFlightClaims := m.inFlightClaims.toNat
        retainedBytes := m.retainedBytes.toNat
        admitted := m.admitted.toNat
        completed := m.completed.toNat
        failed := m.failed.toNat
        retried := m.retried.toNat
        discarded := m.discarded.toNat }

/-! ### Ownership -/

/-- The transaction of `inbox_close`, an update that changes nothing. -/
def inboxClose (generation : ℤ) (db : Database) : Except Status Database :=
  updateMeta generation id db

/-- The transaction of `inbox_destroy` for a current owner. -/
def inboxDestroy (generation : ℤ) (accepting : Bool) (db : Database) : Except Status Database :=
  if accepting ∨ db.metaRow.records ≠ 0 ∨ db.metaRow.inFlightClaims ≠ 0 then .error .ebusy
  else updateMeta generation (fun m => { m with ownerState := .closed }) db

/-- The values of `turbo_flow_turbodb_inbox_open_mode_t`, the takeover with the generation it
expects. -/
inductive OpenMode
  | exclusive
  | takeover (expectedGeneration : ℕ)

structure Config where
  limits : Limits
  connectionCount : ℕ
  openMode : OpenMode

def inboxMaxConnections : ℕ := 64

def limitsValid (limits : Limits) : Bool :=
  limits.maxRecords ≠ 0 ∧ limits.maxTotalBytes ≠ 0 ∧ limits.maxRecordBytes ≠ 0 ∧
    limits.maxRecordBytes ≤ limits.maxTotalBytes ∧ limits.maxClaims ≠ 0 ∧
    limits.maxClaims ≤ limits.maxRecords ∧ limits.maxRecords ≤ int64Max ∧
    limits.maxTotalBytes ≤ int64Max ∧ limits.maxRecordBytes ≤ int64Max ∧
    limits.maxClaims ≤ int64Max

def openModeValid : OpenMode → Bool
  | .exclusive => true
  | .takeover expected => 0 < expected ∧ (expected : ℤ) < int64Max

/-- `inbox_config_valid`, as far as the limits and the mode are concerned. -/
def inboxConfigValid (config : Config) : Bool :=
  limitsValid config.limits ∧ config.connectionCount ≠ 0 ∧
    config.connectionCount ≤ inboxMaxConnections ∧ openModeValid config.openMode

def claimedBy (generation : ℤ) (row : Row) : Bool :=
  row.phase = .claimed ∧ row.claimGeneration = generation

/-- The `SET` clause of a takeover on a claimed row. -/
def loseOwner (row : Row) : Row :=
  { row with phase := .failed, failureStatus := .ebusy, failureKind := .ownerLostUnknown }

/-- The `SET` clause of an open on the metadata. -/
def openMeta (m : MetaRow) : MetaRow :=
  { m with
    generation := m.generation + 1
    ownerState := .active
    failedRecords := m.failedRecords + m.inFlightClaims
    failed := m.failed + m.inFlightClaims
    inFlightClaims := 0 }

/-- The transaction of `turbo_flow_turbodb_inbox_create`, with the generation of the new owner. -/
def inboxCreate (config : Config) (db : Database) : Except Status (Database × ℤ) :=
  let m := db.metaRow
  if inboxPreflight config.limits db ≠ .ok then .error (inboxPreflight config.limits db)
  else
    match config.openMode with
    | .exclusive =>
      if m.ownerState ≠ .closed then .error .ebusy
      else if m.generation = int64Max then .error .erange
      else .ok (⟨openMeta m, db.rows⟩, m.generation + 1)
    | .takeover expected =>
      if m.ownerState ≠ .active ∨ m.generation ≠ expected then .error .ebusy
      else if m.inFlightClaims > int64Max - m.failedRecords ∨
          m.inFlightClaims > int64Max - m.failed then .error .erange
      else if m.generation = int64Max then .error .erange
      else if (db.rows.countP (claimedBy expected) : ℤ) ≠ m.inFlightClaims then .error .eproto
      else
        .ok (⟨openMeta m, Rows.update (claimedBy expected) loseOwner db.rows⟩, m.generation + 1)

/-! ### What a transaction can do -/

structure Admissible (limits : Limits) (record : Record) (bytes : ℕ) (db : Database) : Prop where
  fresh : ∀ row ∈ db.rows, hasIdentity record row = false
  size : retainedSize record = some bytes
  recordBytes : bytes ≤ limits.maxRecordBytes
  room : db.metaRow.records + db.metaRow.historyRecords < limits.maxRecords
  totalBytes : bytes ≤ sub64 limits.maxTotalBytes db.metaRow.retainedBytes.toNat
  ids : db.metaRow.nextRecordId ≠ int64Max
  admitted : db.metaRow.admitted ≠ int64Max

inductive Change (limits : Limits) (generation : ℤ) (db : Database) : Database → Prop
  | keep : Change limits generation db db
  | insert {record : Record} {bytes : ℕ} (hcurrent : db.metaRow.generation = generation)
      (h : Admissible limits record bytes db) (hvalid : WellFormed record)
      (hrep : Representable record) :
      Change limits generation db
        ⟨admitCount bytes db.metaRow, db.rows ++ [freshRow db.metaRow.nextRecordId record bytes]⟩
  | move {before behind : List Row} {row : Row} (mv : Move)
      (hcurrent : db.metaRow.generation = generation)
      (hsplit : db.rows = before ++ row :: behind) (hphase : row.phase = mv.before)
      (hcounter : mv.counter db.metaRow ≠ int64Max)
      (hclaim : ∀ g t, mv = .claim g t → g = generation ∧ t = db.metaRow.nextClaimToken)
      (hstatus : mv ≠ .fail .ok) :
      Change limits generation db ⟨mv.count db.metaRow, before ++ mv.set row :: behind⟩
  | forget {before behind : List Row} {row : Row}
      (hcurrent : db.metaRow.generation = generation)
      (hsplit : db.rows = before ++ row :: behind) (hphase : row.phase = .tombstone) :
      Change limits generation db ⟨forgetCount row.retainedBytes db.metaRow, before ++ behind⟩

section Specs

variable {limits : Limits} {generation : ℤ} {db db' : Database}

theorem updateMeta_eq_ok {set : MetaRow → MetaRow} (h : updateMeta generation set db = .ok db') :
    db.metaRow.generation = generation ∧ db' = ⟨set db.metaRow, db.rows⟩ := by
  unfold updateMeta at h
  split at h
  · rename_i hcurrent
    cases h
    exact ⟨hcurrent, rfl⟩
  · cases h

variable {recordId : ℕ} {mv : Move}

theorem moveOne_eq_ok {condition : Row → Bool} (h : moveOne generation condition mv db = .ok db') :
    db.metaRow.generation = generation ∧ ∃ before row behind,
      Rows.Selects condition db.rows before row behind ∧
        db' = ⟨mv.count db.metaRow, before ++ mv.set row :: behind⟩ := by
  obtain ⟨moved, hmoved, hmeta⟩ := bind_eq_ok.mp h
  unfold updateOne at hmoved
  split at hmoved
  · rename_i hone
    cases hmoved
    obtain ⟨before, row, behind, hsel⟩ := Rows.exists_selects_of_countP hone
    obtain ⟨hcurrent, rfl⟩ := updateMeta_eq_ok hmeta
    exact ⟨hcurrent, before, row, behind, hsel, by rw [hsel.update]⟩
  · cases hmoved

theorem inboxAdmit_eq_ok {recordId : ℤ}
    (h : inboxAdmit limits generation accepting record db = .ok (db', recordId)) :
    db' = db ∨
      db.metaRow.generation = generation ∧ ∃ bytes, Admissible limits record bytes db ∧
        db' = ⟨admitCount bytes db.metaRow,
          db.rows ++ [freshRow db.metaRow.nextRecordId record bytes]⟩ := by
  unfold inboxAdmit at h
  split at h
  · cases h
  split at h
  · rename_i hnone
    unfold inboxAdmitFresh at h
    simp only at h
    split at h
    · cases h
    split at h
    · cases h
    rename_i bytes hsize
    split at h
    · cases h
    rename_i hbytes
    split at h
    · cases h
    rename_i hroom
    split at h
    · cases h
    rename_i hids
    obtain ⟨inserted, hinsert, hrest⟩ := bind_eq_ok.mp h
    obtain ⟨counted, hcount, hout⟩ := bind_eq_ok.mp hrest
    unfold insertRow at hinsert
    split at hinsert
    · cases hinsert
    cases hinsert
    cases hout
    obtain ⟨hcurrent, rfl⟩ := updateMeta_eq_ok hcount
    simp only [not_or, not_le, not_lt] at hbytes hroom hids
    refine .inr ⟨hcurrent, bytes, ⟨?_, hsize, hbytes, hroom.1, hroom.2, hids.1, hids.2⟩, rfl⟩
    intro row hrow
    simpa using filter_eq_nil_iff.mp hnone row hrow
  · obtain ⟨stored, -, hrest⟩ := bind_eq_ok.mp h
    split at hrest
    · cases hrest
      exact .inl rfl
    · cases hrest
  · cases h

theorem inboxClaimSelect_eq_ok
    (h : inboxClaimSelect limits generation request db = .ok (db', claim)) :
    db.metaRow.generation = generation ∧ db.metaRow.nextClaimToken ≠ int64Max ∧
      ∃ before row behind, db.rows = before ++ row :: behind ∧ row.phase = .pending ∧
        db' = ⟨(Move.claim generation db.metaRow.nextClaimToken).count db.metaRow,
          before ++ (Move.claim generation db.metaRow.nextClaimToken).set row :: behind⟩ ∧
        claim.recordId = row.recordId.toNat ∧
        claim.claimToken = db.metaRow.nextClaimToken.toNat := by
  unfold inboxClaimSelect at h
  simp only at h
  split at h
  · cases h
  split at h
  · cases h
  rename_i selected _ _
  split at h
  · cases h
  split at h
  · cases h
  rename_i htoken
  obtain ⟨record, -, hrest⟩ := bind_eq_ok.mp h
  obtain ⟨moved, hmove, hout⟩ := bind_eq_ok.mp hrest
  cases hout
  obtain ⟨hcurrent, before, row, behind, hsel, rfl⟩ := moveOne_eq_ok hmove
  obtain ⟨hid, hphase⟩ := decide_eq_true_eq.mp hsel.holds
  exact ⟨hcurrent, htoken, before, row, behind, hsel.split, hphase, rfl, by rw [hid], rfl⟩

theorem inboxClaimTransition_eq_ok
    (h : inboxClaimTransition generation recordId claimToken mv db = .ok db') :
    db.metaRow.generation = generation ∧ mv.counter db.metaRow ≠ int64Max ∧
      ∃ before row behind, db.rows = before ++ row :: behind ∧ row.recordId = (recordId : ℤ) ∧
        row.claimToken = (claimToken : ℤ) ∧ row.phase = .claimed ∧
        db' = ⟨mv.count db.metaRow, before ++ mv.set row :: behind⟩ := by
  unfold inboxClaimTransition at h
  split at h
  · cases h
  split at h
  · cases h
  rename_i hcounter
  obtain ⟨hcurrent, before, row, behind, hsel, rfl⟩ := moveOne_eq_ok h
  obtain ⟨hid, htoken, -, hphase⟩ := decide_eq_true_eq.mp hsel.holds
  exact ⟨hcurrent, hcounter, before, row, behind, hsel.split, hid, htoken, hphase, rfl⟩

theorem inboxFailedTransition_eq_ok
    (h : inboxFailedTransition generation recordId mv db = .ok db') :
    db.metaRow.generation = generation ∧ mv.counter db.metaRow ≠ int64Max ∧
      ∃ before row behind, db.rows = before ++ row :: behind ∧ row.recordId = (recordId : ℤ) ∧
        row.phase = .failed ∧ db' = ⟨mv.count db.metaRow, before ++ mv.set row :: behind⟩ := by
  unfold inboxFailedTransition at h
  split at h
  · cases h
  split at h
  · cases h
  rename_i hcounter
  split at h
  · cases h
  · split at h
    · cases h
    obtain ⟨hcurrent, before, row, behind, hsel, rfl⟩ := moveOne_eq_ok h
    obtain ⟨hid, hphase⟩ := decide_eq_true_eq.mp hsel.holds
    exact ⟨hcurrent, hcounter, before, row, behind, hsel.split, hid, hphase, rfl⟩
  · cases h

theorem inboxForget_eq_ok (h : inboxForget generation recordId db = .ok db') :
    db.metaRow.generation = generation ∧
      ∃ before row behind, db.rows = before ++ row :: behind ∧ row.recordId = (recordId : ℤ) ∧
        row.phase = .tombstone ∧
        db' = ⟨forgetCount row.retainedBytes db.metaRow, before ++ behind⟩ := by
  unfold inboxForget at h
  split at h
  · cases h
  · rename_i row hrow
    split at h
    · cases h
    obtain ⟨deleted, hdelete, hmeta⟩ := bind_eq_ok.mp h
    unfold deleteOne at hdelete
    split at hdelete
    · rename_i hone
      cases hdelete
      obtain ⟨before, found, behind, hsel⟩ := Rows.exists_selects_of_countP hone
      obtain ⟨hcurrent, rfl⟩ := updateMeta_eq_ok hmeta
      obtain ⟨hid, hphase⟩ := decide_eq_true_eq.mp hsel.holds
      -- The row that was read is the one that is deleted.
      obtain rfl : found = row := by
        have hmem : found ∈ db.rows.filter fun row => row.recordId = (recordId : ℤ) :=
          mem_filter.mpr ⟨hsel.mem, by simp [hid]⟩
        rw [hrow] at hmem
        exact mem_singleton.mp hmem
      exact ⟨hcurrent, before, found, behind, hsel.split, hid, hphase, by rw [hsel.filter_not]⟩
    · cases hdelete
  · cases h

theorem inboxClaimSelect_change
    (h : inboxClaimSelect limits generation request db = .ok (db', claim)) :
    Change limits generation db db' := by
  obtain ⟨hcurrent, htoken, before, row, behind, hsplit, hphase, rfl, -⟩ := inboxClaimSelect_eq_ok h
  refine .move _ hcurrent hsplit hphase htoken ?_ (by simp)
  intro g t heq
  cases heq
  exact ⟨rfl, rfl⟩

theorem inboxClaimTransition_change (hbefore : mv.before = .claimed) (hstatus : mv ≠ .fail .ok)
    (h : inboxClaimTransition generation recordId claimToken mv db = .ok db') :
    Change limits generation db db' := by
  obtain ⟨hcurrent, hcounter, before, row, behind, hsplit, -, -, hphase, rfl⟩ :=
    inboxClaimTransition_eq_ok h
  refine .move mv hcurrent hsplit (hphase.trans hbefore.symm) hcounter ?_ hstatus
  rintro g t rfl
  cases hbefore

theorem inboxFailedTransition_change (hbefore : mv.before = .failed)
    (h : inboxFailedTransition generation recordId mv db = .ok db') :
    Change limits generation db db' := by
  obtain ⟨hcurrent, hcounter, before, row, behind, hsplit, -, hphase, rfl⟩ :=
    inboxFailedTransition_eq_ok h
  refine .move mv hcurrent hsplit (hphase.trans hbefore.symm) hcounter ?_ ?_
  · rintro g t rfl
    cases hbefore
  rintro rfl
  cases hbefore

theorem inboxClose_change (h : inboxClose generation db = .ok db') : db' = db := by
  obtain ⟨-, rfl⟩ := updateMeta_eq_ok h
  rfl

theorem inboxDestroy_eq_ok (h : inboxDestroy generation accepting db = .ok db') :
    db.metaRow.generation = generation ∧ db.metaRow.records = 0 ∧
      db' = ⟨{ db.metaRow with ownerState := .closed }, db.rows⟩ := by
  unfold inboxDestroy at h
  split at h
  · cases h
  rename_i hready
  obtain ⟨hcurrent, rfl⟩ := updateMeta_eq_ok h
  simp only [not_or, not_not] at hready
  exact ⟨hcurrent, hready.2.1, rfl⟩

section

variable (h : Change limits generation db db')
include h

theorem Change.eq_of_stale (hstale : db.metaRow.generation ≠ generation) : db' = db := by
  cases h with
  | keep => rfl
  | insert hcurrent | move _ hcurrent | forget hcurrent => exact absurd hcurrent hstale

theorem Change.generation_eq : db'.metaRow.generation = db.metaRow.generation := by
  cases h with
  | keep => rfl
  | insert => rfl
  | move mv => exact mv.count_generation _
  | forget => rfl

theorem Change.ownerState_eq : db'.metaRow.ownerState = db.metaRow.ownerState := by
  cases h with
  | keep => rfl
  | insert => rfl
  | move mv => exact mv.count_ownerState _
  | forget => rfl

end

end Specs

end TurboFlow.TurboDb
