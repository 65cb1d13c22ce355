import TurboFlow.Inbox.Settlement
import TurboFlow.Lib.Rows
import TurboFlow.Lib.LittleEndian

/-!
# The schema of the TurboDB inbox

A namespace has two tables: the metadata, which is one row, and the records. `bytea` columns are
byte lists, and the columns with a fixed set of values are enumerations.

`inboxPreflight` is the check that every open makes, without the checks of table definitions,
indexes and durability settings, which concern the SQL engine.
-/

namespace TurboFlow.TurboDb

open Inbox Word List

def int64Max : ℤ := 2 ^ 63 - 1

def uint32Max : ℕ := 2 ^ 32 - 1

abbrev Limits := MemoryConfig

/-- The values of the column `owner_state`. -/
inductive OwnerState
  | closed
  | active
  deriving DecidableEq

structure MetaRow where
  schemaMagic : String
  schemaVersion : ℤ
  generation : ℤ
  ownerState : OwnerState
  nextRecordId : ℤ
  nextClaimToken : ℤ
  maxRecords : ℤ
  maxTotalBytes : ℤ
  maxRecordBytes : ℤ
  maxClaims : ℤ
  records : ℤ
  historyRecords : ℤ
  pendingRecords : ℤ
  failedRecords : ℤ
  inFlightClaims : ℤ
  retainedBytes : ℤ
  admitted : ℤ
  completed : ℤ
  failed : ℤ
  retried : ℤ
  discarded : ℤ

structure RecordColumns where
  envelopeSchema : String
  envelopeSchemaVersion : ℕ
  sourceId : Bytes
  partitionKey : Bytes
  admissionId : Bytes
  sourceSequenceBe : Bytes
  timestampNsBe : Bytes
  messageType : ℕ
  messageFlags : ℕ
  content : ContentDescriptor
  correlation : Bytes
  payload : Bytes
  deriving DecidableEq

structure Row where
  recordId : ℤ
  phase : RecordPhase
  claimGeneration : ℤ
  claimToken : ℤ
  failureStatus : Status
  failureKind : FailureKind
  terminalKind : Option TerminalKind
  columns : RecordColumns
  retainedBytes : ℤ
  deriving DecidableEq

structure Database where
  metaRow : MetaRow
  rows : List Row

def inboxSchemaMagic : String := "turbo-flow.turbodb.inbox"

def inboxSchemaVersion : ℤ := 3

def emptySchema (limits : Limits) : Database where
  metaRow :=
    { schemaMagic := inboxSchemaMagic
      schemaVersion := inboxSchemaVersion
      generation := 0
      ownerState := .closed
      nextRecordId := 1
      nextClaimToken := 1
      maxRecords := limits.maxRecords
      maxTotalBytes := limits.maxTotalBytes
      maxRecordBytes := limits.maxRecordBytes
      maxClaims := limits.maxClaims
      records := 0
      historyRecords := 0
      pendingRecords := 0
      failedRecords := 0
      inFlightClaims := 0
      retainedBytes := 0
      admitted := 0
      completed := 0
      failed := 0
      retried := 0
      discarded := 0 }
  rows := []

/-! ### Records as columns -/

def inboxU64Be (value : ℕ) : Bytes :=
  (LittleEndian.encode 8 value).reverse

def inboxBeU64 (bytes : Bytes) : ℕ :=
  bytes.foldl (fun value byte => byte.toNat + 256 * value) 0

@[simp] theorem length_inboxU64Be (value : ℕ) : (inboxU64Be value).length = 8 := by
  simp [inboxU64Be]

theorem inboxBeU64_reverse (bytes : Bytes) :
    inboxBeU64 bytes.reverse = LittleEndian.decode bytes := by
  induction bytes with
  | nil => rfl
  | cons byte bytes ih =>
    simp only [inboxBeU64, reverse_cons, foldl_append, foldl_cons,
      foldl_nil, LittleEndian.decode] at ih ⊢
    rw [ih]

theorem inboxBeU64_inboxU64Be (h : value < 2 ^ 64) : inboxBeU64 (inboxU64Be value) = value := by
  rw [inboxU64Be, inboxBeU64_reverse, LittleEndian.decode_encode (by norm_num at h ⊢; exact h)]

/-- The columns that an `INSERT` takes from a record. The envelope columns are the constants of the
schema. -/
def recordColumns (record : Record) : RecordColumns where
  envelopeSchema := recordSchema
  envelopeSchemaVersion := recordSchemaVersion
  sourceId := record.sourceId
  partitionKey := record.partitionKey
  admissionId := record.admissionId
  sourceSequenceBe := inboxU64Be record.sourceSequence
  timestampNsBe := inboxU64Be record.timestampNs
  messageType := record.messageType
  messageFlags := record.messageFlags
  content := record.content
  correlation := record.correlation
  payload := record.payload

def materialize (columns : RecordColumns) : Record where
  version := apiVersion
  envelopeSchema := columns.envelopeSchema
  envelopeSchemaVersion := columns.envelopeSchemaVersion
  sourceId := columns.sourceId
  partitionKey := columns.partitionKey
  admissionId := columns.admissionId
  sourceSequence := inboxBeU64 columns.sourceSequenceBe
  timestampNs := inboxBeU64 columns.timestampNsBe
  messageType := columns.messageType
  messageFlags := columns.messageFlags
  content := columns.content
  correlation := columns.correlation
  payload := columns.payload

def contentTexts (content : ContentDescriptor) : List String :=
  [content.mediaType, content.schemaName, content.typeName, content.identity]

def hasNul (text : String) : Bool :=
  text.toList.contains '\x00'

def contentTextsFit (content : ContentDescriptor) : Bool :=
  content.mediaType.utf8ByteSize ≤ contentMediaTypeMax ∧
    content.schemaName.utf8ByteSize ≤ contentSchemaNameMax ∧
    content.typeName.utf8ByteSize ≤ contentTypeNameMax ∧
    content.identity.utf8ByteSize ≤ contentIdentityMax

def contentAdmissible (content : ContentDescriptor) : Bool :=
  content.domain = .data ∧ content.schemaDeclared ∧ contentDescriptorCheck content = .ok

/-- The buffer of a materialized record: the texts with their terminators, the byte views and one
more byte. -/
def materializedSize (columns : RecordColumns) : ℕ :=
  1 + ((columns.envelopeSchema :: contentTexts columns.content ++ [""]).map
      fun text => text.utf8ByteSize + 1).sum +
    ([columns.sourceId, columns.partitionKey, columns.admissionId, columns.sourceSequenceBe,
      columns.timestampNsBe, columns.correlation, columns.payload].map List.length).sum

/-- `inbox_record_from_result`, where the buffer is available. -/
def inboxRecordFromResult (limits : Limits) (row : Row) : Except Status Record :=
  let columns := row.columns
  if columns.envelopeSchemaVersion ≠ recordSchemaVersion ∨ columns.messageType > uint32Max ∨
      columns.messageFlags > uint32Max ∨ columns.content.schemaVersion > uint32Max ∨
      row.retainedBytes < 0 ∨ columns.envelopeSchema ≠ recordSchema ∨
      ¬ contentTextsFit columns.content ∨ columns.sourceId = [] ∨ columns.partitionKey = [] ∨
      columns.admissionId = [] ∨ columns.sourceSequenceBe.length ≠ 8 ∨
      columns.timestampNsBe.length ≠ 8 then .error .eproto
  else if (contentTexts columns.content).any hasNul then .error .eproto
  else
    match retainedSize (materialize columns) with
    | none => .error .erange
    | some bytes =>
      if (bytes : ℤ) ≠ row.retainedBytes ∨ bytes > limits.maxRecordBytes then .error .eproto
      else if materializedSize columns > max64 then .error .erange
      else if ¬ contentAdmissible columns.content then .error .eproto
      else .ok (materialize columns)

/-- What the C types of a record guarantee: the widths of the integers, and texts without a
terminator inside. -/
structure Representable (record : Record) : Prop where
  sourceSequence : record.sourceSequence < 2 ^ 64
  timestampNs : record.timestampNs < 2 ^ 64
  messageType : record.messageType ≤ uint32Max
  messageFlags : record.messageFlags ≤ uint32Max
  schemaVersion : record.content.schemaVersion ≤ uint32Max
  texts : (contentTexts record.content).any hasNul = false

instance (record : Record) : Decidable (Representable record) :=
  decidable_of_iff
    (record.sourceSequence < 2 ^ 64 ∧ record.timestampNs < 2 ^ 64 ∧
      record.messageType ≤ uint32Max ∧ record.messageFlags ≤ uint32Max ∧
      record.content.schemaVersion ≤ uint32Max ∧
      (contentTexts record.content).any hasNul = false)
    ⟨fun ⟨h₁, h₂, h₃, h₄, h₅, h₆⟩ => ⟨h₁, h₂, h₃, h₄, h₅, h₆⟩,
      fun ⟨h₁, h₂, h₃, h₄, h₅, h₆⟩ => ⟨h₁, h₂, h₃, h₄, h₅, h₆⟩⟩

abbrev CallerRecord := { record : Record // Representable record }

structure WellFormed (record : Record) : Prop where
  version : record.version = apiVersion
  envelopeSchema : record.envelopeSchema = recordSchema
  envelopeSchemaVersion : record.envelopeSchemaVersion = recordSchemaVersion
  sourceId : record.sourceId ≠ []
  partitionKey : record.partitionKey ≠ []
  admissionId : record.admissionId ≠ []
  content : contentAdmissible record.content = true

theorem recordValid_iff : recordValid record = .ok ↔ WellFormed record := by
  constructor
  · intro h
    obtain ⟨hversion, hschema, hschemaVersion⟩ := envelope_of_recordValid h
    simp only [recordValid, hversion, hschema, hschemaVersion] at h
    simp only [ne_eq, not_true_eq_false, or_self, if_false] at h
    split at h
    · cases h
    rename_i hids
    split at h
    · cases h
    rename_i hcontent
    simp only [not_or, not_not] at hids hcontent
    exact ⟨hversion, hschema, hschemaVersion, hids.1, hids.2.1, hids.2.2,
      by simp [contentAdmissible, hcontent, h]⟩
  intro h
  have hcontent := h.content
  simp only [contentAdmissible, decide_eq_true_eq] at hcontent
  simp [recordValid, h.version, h.envelopeSchema, h.envelopeSchemaVersion, h.sourceId,
    h.partitionKey, h.admissionId, hcontent]

theorem materialize_recordColumns (hvalid : WellFormed record) (hrep : Representable record) :
    materialize (recordColumns record) = record := by
  rcases record with ⟨version, schema, schemaVersion⟩
  obtain rfl : version = apiVersion := hvalid.version
  obtain rfl : schema = recordSchema := hvalid.envelopeSchema
  obtain rfl : schemaVersion = recordSchemaVersion := hvalid.envelopeSchemaVersion
  simp only [materialize, recordColumns, inboxBeU64_inboxU64Be hrep.sourceSequence,
    inboxBeU64_inboxU64Be hrep.timestampNs]

/-! ### The preflight of a namespace -/

def metaHeaderValid (limits : Limits) (m : MetaRow) : Bool :=
  m.schemaMagic = inboxSchemaMagic ∧ m.schemaVersion = inboxSchemaVersion ∧ 0 ≤ m.generation ∧
    1 ≤ m.nextRecordId ∧ 1 ≤ m.nextClaimToken ∧ m.maxRecords = limits.maxRecords ∧
    m.maxTotalBytes = limits.maxTotalBytes ∧ m.maxRecordBytes = limits.maxRecordBytes ∧
    m.maxClaims = limits.maxClaims

def metaCountersNonneg (m : MetaRow) : Bool :=
  [m.records, m.historyRecords, m.pendingRecords, m.failedRecords, m.inFlightClaims,
    m.retainedBytes, m.admitted, m.completed, m.failed, m.retried, m.discarded].all (0 ≤ ·)

def metaGaugesValid (m : MetaRow) : Bool :=
  m.records ≤ m.maxRecords ∧ m.historyRecords ≤ m.maxRecords ∧
    m.historyRecords ≤ m.maxRecords - m.records ∧ m.pendingRecords ≤ m.records ∧
    m.failedRecords ≤ m.records ∧ m.inFlightClaims ≤ m.records ∧
    m.failedRecords ≤ m.records - m.pendingRecords ∧
    m.inFlightClaims = m.records - m.pendingRecords - m.failedRecords ∧
    m.retainedBytes ≤ m.maxTotalBytes ∧ (m.ownerState = .closed → m.records = 0)

def metaTotalsValid (m : MetaRow) : Bool :=
  m.records ≤ m.admitted ∧ m.historyRecords ≤ m.admitted - m.records ∧ m.completed ≤ m.admitted ∧
    m.discarded ≤ m.admitted - m.completed ∧ m.historyRecords ≤ m.completed + m.discarded ∧
    m.failedRecords ≤ m.failed ∧ m.retried ≤ m.failed ∧ m.discarded ≤ m.failed

def phaseRows (phase : RecordPhase) (rows : List Row) : ℤ :=
  rows.countP fun row => row.phase = phase

def rowBytes (rows : List Row) : ℤ :=
  (rows.map Row.retainedBytes).sum

/-- `coalesce(max(…),0)` over the rows. -/
def maxColumn (column : Row → ℤ) (rows : List Row) : ℤ :=
  (rows.map column).max?.getD 0

def envelopeCurrent (row : Row) : Bool :=
  row.columns.envelopeSchema = recordSchema ∧
    row.columns.envelopeSchemaVersion = recordSchemaVersion

def aggregatesValid (db : Database) : Bool :=
  (db.rows.length : ℤ) = db.metaRow.records + db.metaRow.historyRecords ∧
    phaseRows .pending db.rows + phaseRows .claimed db.rows + phaseRows .failed db.rows =
      db.metaRow.records ∧
    phaseRows .tombstone db.rows = db.metaRow.historyRecords ∧
    phaseRows .pending db.rows = db.metaRow.pendingRecords ∧
    phaseRows .failed db.rows = db.metaRow.failedRecords ∧
    phaseRows .claimed db.rows = db.metaRow.inFlightClaims ∧
    rowBytes db.rows = db.metaRow.retainedBytes ∧
    db.rows.countP envelopeCurrent = db.rows.length ∧
    maxColumn Row.recordId db.rows < db.metaRow.nextRecordId ∧
    maxColumn Row.claimToken db.rows < db.metaRow.nextClaimToken

def phaseColumnsValid (generation : ℤ) (row : Row) : Bool :=
  match row.phase with
  | .pending =>
    row.claimGeneration = 0 ∧ row.claimToken = 0 ∧ row.failureStatus = .ok ∧
      row.terminalKind = none
  | .claimed =>
    0 < row.claimGeneration ∧ row.claimGeneration = generation ∧ 0 < row.claimToken ∧
      row.failureStatus = .ok ∧ row.terminalKind = none
  | .failed => row.failureStatus ≠ .ok ∧ row.terminalKind = none
  | .tombstone => row.terminalKind ≠ none

def recordColumnsValid (limits : Limits) (row : Row) : Bool :=
  let columns := row.columns
  0 ≤ row.retainedBytes ∧ row.retainedBytes ≤ limits.maxRecordBytes ∧
    row.retainedBytes =
      (columns.sourceId.length + columns.partitionKey.length + columns.admissionId.length +
        columns.correlation.length + columns.payload.length : ℕ) ∧
    columns.sourceId ≠ [] ∧ columns.partitionKey ≠ [] ∧ columns.admissionId ≠ [] ∧
    columns.sourceSequenceBe.length = 8 ∧ columns.timestampNsBe.length = 8 ∧
    envelopeCurrent row ∧ columns.messageType ≤ uint32Max ∧ columns.messageFlags ≤ uint32Max

def rowValid (limits : Limits) (generation : ℤ) (row : Row) : Bool :=
  0 < row.recordId ∧ recordColumnsValid limits row ∧ phaseColumnsValid generation row

def preflightDescriptorPage : ℕ := 64

def descriptorValid (content : ContentDescriptor) : Bool :=
  content.schemaVersion ≤ uint32Max ∧ contentTextsFit content ∧
    (contentTexts content).any hasNul = false ∧ contentAdmissible content

def descriptorPage (rows : List Row) (afterRecordId : ℤ) : List Row :=
  (Rows.orderBy Row.recordId (rows.filter fun row => afterRecordId < row.recordId)).take
    preflightDescriptorPage

def checkDescriptors (afterRecordId : ℤ) : List Row → Except Status ℤ
  | [] => .ok afterRecordId
  | row :: rows =>
    if row.recordId ≤ afterRecordId ∨ ¬ descriptorValid row.columns.content then .error .eproto
    else checkDescriptors row.recordId rows

/-- The loop over the pages. Every full page leaves fewer rows, which bounds the number of
rounds. -/
def validateDescriptorsFrom (rows : List Row) : ℕ → ℤ → Status
  | 0, _ => .eproto
  | fuel + 1, afterRecordId =>
    let page := descriptorPage rows afterRecordId
    match checkDescriptors afterRecordId page with
    | .error rc => rc
    | .ok last =>
      if page.length = preflightDescriptorPage then validateDescriptorsFrom rows fuel last
      else .ok

def inboxValidateDescriptors (rows : List Row) : Status :=
  validateDescriptorsFrom rows (rows.length + 1) 0

def inboxPreflight (limits : Limits) (db : Database) : Status :=
  if ¬ metaHeaderValid limits db.metaRow then .eproto
  else if ¬ metaCountersNonneg db.metaRow then .eproto
  else if ¬ metaGaugesValid db.metaRow then .eproto
  else if ¬ metaTotalsValid db.metaRow then .eproto
  else if ¬ aggregatesValid db then .eproto
  else if db.rows.length > limits.maxRecords ∨ rowBytes db.rows > limits.maxTotalBytes then .enospc
  else if db.rows.any (fun row => !rowValid limits db.metaRow.generation row) then .eproto
  else inboxValidateDescriptors db.rows

/-! ### Rows that hold a record -/

theorem retainedSize_eq (h : retainedSize record = some bytes) :
    bytes = record.sourceId.length + record.partitionKey.length + record.admissionId.length +
      record.correlation.length + record.payload.length := by
  simp only [retainedSize, map_cons, map_nil, foldlM_cons, foldlM_nil,
    Option.bind_eq_bind, Option.bind_eq_some_iff, Option.pure_def, Option.some.injEq] at h
  grind

structure Stored (limits : Limits) (row : Row) (record : Record) : Prop where
  valid : WellFormed record
  representable : Representable record
  columns : row.columns = recordColumns record
  size : retainedSize record = some row.retainedBytes.toNat
  bytes_nonneg : 0 ≤ row.retainedBytes
  bytes_le : row.retainedBytes ≤ limits.maxRecordBytes

theorem contentTextsFit_of_admissible (h : contentAdmissible content) :
    contentTextsFit content := by
  simp only [contentAdmissible, decide_eq_true_eq] at h
  have hcheck := h.2.2
  unfold contentDescriptorCheck at hcheck
  split at hcheck
  · cases hcheck
  split at hcheck
  · cases hcheck
  split at hcheck
  · cases hcheck
  rename_i hfit
  simpa [contentTextsFit, not_or] using hfit

namespace Stored

variable {limits : Limits} {row : Row} {record : Record}

section

variable (h : Stored limits row record)

include h

theorem retainedBytes_eq :
    row.retainedBytes =
      (record.sourceId.length + record.partitionKey.length + record.admissionId.length +
        record.correlation.length + record.payload.length : ℕ) := by
  rw [← retainedSize_eq h.size, Int.toNat_of_nonneg h.bytes_nonneg]

theorem recordColumnsValid : TurboDb.recordColumnsValid limits row := by
  simp only [TurboDb.recordColumnsValid, envelopeCurrent, h.columns, recordColumns, ne_eq,
    length_inboxU64Be, decide_true, true_and, and_self, decide_eq_true_eq]
  exact ⟨h.bytes_nonneg, h.bytes_le, h.retainedBytes_eq, h.valid.sourceId, h.valid.partitionKey,
    h.valid.admissionId, h.representable.messageType, h.representable.messageFlags⟩

theorem descriptorValid : TurboDb.descriptorValid row.columns.content := by
  simp only [TurboDb.descriptorValid, h.columns, recordColumns, decide_eq_true_eq]
  exact ⟨h.representable.schemaVersion, contentTextsFit_of_admissible h.valid.content,
    h.representable.texts, h.valid.content⟩

theorem materializedSize_le (hlimits : (limits.maxRecordBytes : ℤ) ≤ int64Max) :
    materializedSize row.columns ≤ max64 := by
  have hbytes := h.retainedBytes_eq
  have hle := h.bytes_le
  have hfit := contentTextsFit_of_admissible h.valid.content
  have hschema : recordSchema.utf8ByteSize = 23 := by decide
  have hempty : ("" : String).utf8ByteSize = 0 := by decide
  simp only [contentTextsFit, decide_eq_true_eq] at hfit
  simp only [contentMediaTypeMax, contentSchemaNameMax, contentTypeNameMax,
    contentIdentityMax] at hfit
  simp only [materializedSize, h.columns, recordColumns, contentTexts, cons_append, nil_append,
    map_cons, map_nil, sum_cons, sum_nil, hschema, hempty, length_inboxU64Be]
  simp only [int64Max] at hlimits
  simp only [max64]
  omega

theorem inboxRecordFromResult (hlimits : (limits.maxRecordBytes : ℤ) ≤ int64Max) :
    TurboDb.inboxRecordFromResult limits row = .ok record := by
  have hvalid := h.valid
  have hrep := h.representable
  have hmaterialized : materialize row.columns = record := by
    rw [h.columns, materialize_recordColumns hvalid hrep]
  have hnonneg := h.bytes_nonneg
  have hbytes : ((row.retainedBytes.toNat : ℕ) : ℤ) = row.retainedBytes :=
    Int.toNat_of_nonneg hnonneg
  have hle := h.bytes_le
  have hsize := h.materializedSize_le hlimits
  have hheader : ¬ (row.columns.envelopeSchemaVersion ≠ recordSchemaVersion ∨
      row.columns.messageType > uint32Max ∨ row.columns.messageFlags > uint32Max ∨
      row.columns.content.schemaVersion > uint32Max ∨ row.retainedBytes < 0 ∨
      row.columns.envelopeSchema ≠ recordSchema ∨ ¬ contentTextsFit row.columns.content ∨
      row.columns.sourceId = [] ∨ row.columns.partitionKey = [] ∨
      row.columns.admissionId = [] ∨ row.columns.sourceSequenceBe.length ≠ 8 ∨
      row.columns.timestampNsBe.length ≠ 8) := by
    simp [h.columns, recordColumns, hrep.messageType, hrep.messageFlags, hrep.schemaVersion,
      hnonneg, contentTextsFit_of_admissible hvalid.content, hvalid.sourceId,
      hvalid.partitionKey, hvalid.admissionId]
  have hnul : (contentTexts row.columns.content).any hasNul = false := by
    rw [h.columns]
    exact hrep.texts
  have hcontent : contentAdmissible row.columns.content = true := by
    rw [h.columns]
    exact hvalid.content
  simp only [TurboDb.inboxRecordFromResult]
  rw [if_neg hheader, if_neg (by simp [hnul]), hmaterialized, h.size]
  simp [hbytes, not_lt.mpr hle, not_lt.mpr hsize, hcontent]

end

end Stored

/-! ### The pages of the descriptor check -/

section Descriptors

variable {rows : List Row}

section

variable (hsorted : rows.Pairwise fun a b => a.recordId < b.recordId)

include hsorted

theorem descriptorPage_eq :
    descriptorPage rows afterRecordId =
      (rows.filter fun row => afterRecordId < row.recordId).take preflightDescriptorPage := by
  rw [descriptorPage, Rows.orderBy_eq (hsorted.filter _)]

theorem mem_descriptorPage (hrow : row ∈ descriptorPage rows afterRecordId) :
    row ∈ rows ∧ afterRecordId < row.recordId := by
  rw [descriptorPage_eq hsorted] at hrow
  simpa using mem_filter.mp (mem_of_mem_take hrow)

omit hsorted in
theorem checkDescriptors_ok (hsorted : page.Pairwise fun a b => a.recordId < b.recordId)
    (hbehind : ∀ row ∈ page, afterRecordId < row.recordId)
    (hvalid : ∀ row ∈ page, descriptorValid row.columns.content) :
    ∃ last, checkDescriptors afterRecordId page = .ok last ∧ afterRecordId ≤ last ∧
      (page ≠ [] → ∃ row ∈ page, row.recordId = last) := by
  induction page generalizing afterRecordId with
  | nil => exact ⟨afterRecordId, rfl, le_refl _, fun h => absurd rfl h⟩
  | cons row page ih =>
    rw [pairwise_cons] at hsorted
    have hrow : afterRecordId < row.recordId := hbehind row (by simp)
    have hdescriptor : descriptorValid row.columns.content := hvalid row (by simp)
    obtain ⟨last, hlast, hle, hmem⟩ :=
      ih hsorted.2 hsorted.1 fun r hr => hvalid r (mem_cons_of_mem _ hr)
    refine ⟨last, ?_, hrow.le.trans hle, fun _ => ?_⟩
    · rw [checkDescriptors, if_neg (by simp [hrow, hdescriptor]), hlast]
    rcases page with _ | ⟨next, page⟩
    · cases hlast
      exact ⟨row, by simp, rfl⟩
    obtain ⟨r, hr, heq⟩ := hmem (by simp)
    exact ⟨r, mem_cons_of_mem _ hr, heq⟩

theorem validateDescriptorsFrom_ok (hvalid : ∀ row ∈ rows, descriptorValid row.columns.content)
    (hfuel : (rows.filter fun row => afterRecordId < row.recordId).length < fuel) :
    validateDescriptorsFrom rows fuel afterRecordId = .ok := by
  induction fuel generalizing afterRecordId with
  | zero => omega
  | succ fuel ih =>
    have hpage : (descriptorPage rows afterRecordId).Pairwise
        fun a b => a.recordId < b.recordId := by
      rw [descriptorPage_eq hsorted]
      exact (hsorted.filter _).sublist (take_sublist ..)
    obtain ⟨last, hlast, hle, hmem⟩ :=
      checkDescriptors_ok hpage (fun row hrow => (mem_descriptorPage hsorted hrow).2)
        fun row hrow => hvalid row (mem_descriptorPage hsorted hrow).1
    simp only [validateDescriptorsFrom, hlast]
    split
    · rename_i hfull
      -- The last row of a full page is not behind its own id.
      obtain ⟨row, hrow, hid⟩ := hmem fun hnil => by simp [hnil, preflightDescriptorPage] at hfull
      obtain ⟨hrow, hbehind⟩ := mem_descriptorPage hsorted hrow
      have hfilter : (rows.filter fun r => last < r.recordId) =
          (rows.filter fun r => afterRecordId < r.recordId).filter
            fun r => last < r.recordId := by
        rw [filter_filter]
        apply filter_congr
        intro r _
        by_cases hr : last < r.recordId
        · simp [hr, hle.trans_lt hr]
        · simp [hr]
      have hfewer : (rows.filter fun r => last < r.recordId).length <
          (rows.filter fun r => afterRecordId < r.recordId).length := by
        rw [hfilter, length_filter_lt_length_iff_exists]
        exact ⟨row, mem_filter.mpr ⟨hrow, by simpa using hbehind⟩, by simp [hid]⟩
      exact ih (by omega)
    · rfl

theorem inboxValidateDescriptors_ok (hvalid : ∀ row ∈ rows, descriptorValid row.columns.content) :
    inboxValidateDescriptors rows = .ok :=
  validateDescriptorsFrom_ok hsorted hvalid (Nat.lt_succ_of_le (length_filter_le _ _))

end

end Descriptors

end TurboFlow.TurboDb
