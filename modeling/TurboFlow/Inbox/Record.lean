import TurboFlow.Inbox.Content
import TurboFlow.Lib.Word

/-!
# Inbox records

An inbox record is the copy-only value a Source admits: envelope schema, identity
`(sourceId, admissionId)`, partition key, message metadata and payload. Byte views are lists, and
integers of fixed width natural numbers. The `size` tags are the type of the value.

`recordEqual` compares everything but version and envelope schema, which `recordValid` fixes.
-/

namespace TurboFlow.Inbox

abbrev Bytes := List UInt8

def apiVersion : ℕ := 4

def recordSchema : String := "turbo-flow.inbox.record"

def recordSchemaVersion : ℕ := 3

structure Record where
  version : ℕ
  envelopeSchema : String
  envelopeSchemaVersion : ℕ
  sourceId : Bytes
  partitionKey : Bytes
  admissionId : Bytes
  sourceSequence : ℕ
  timestampNs : ℕ
  messageType : ℕ
  messageFlags : ℕ
  content : ContentDescriptor
  correlation : Bytes
  payload : Bytes
  deriving DecidableEq

def recordValid (record : Record) : Status :=
  if record.version ≠ apiVersion then .einval
  else if record.envelopeSchema ≠ recordSchema ∨
      record.envelopeSchemaVersion ≠ recordSchemaVersion then .eproto
  else if record.sourceId = [] ∨ record.partitionKey = [] ∨ record.admissionId = [] then .einval
  else if record.content.domain ≠ .data ∨ ¬ record.content.schemaDeclared then .einval
  else contentDescriptorCheck record.content

/-- The comparison of two content descriptors inside `flow_inbox_record_equal`. -/
def contentEqual (a b : ContentDescriptor) : Bool :=
  a.domain == b.domain && a.profile == b.profile && a.encoding == b.encoding &&
    (a.schemaDeclared == b.schemaDeclared && a.batch == b.batch &&
      a.protocolControl == b.protocolControl && a.unknownFlags == b.unknownFlags) &&
    a.schemaVersion == b.schemaVersion && a.mediaType == b.mediaType &&
    a.schemaName == b.schemaName && a.typeName == b.typeName && a.identity == b.identity

def recordEqual (left right : Record) : Bool :=
  left.sourceSequence == right.sourceSequence && left.timestampNs == right.timestampNs &&
    left.messageType == right.messageType && left.messageFlags == right.messageFlags &&
    left.sourceId == right.sourceId && left.partitionKey == right.partitionKey &&
    left.admissionId == right.admissionId && left.correlation == right.correlation &&
    left.payload == right.payload && contentEqual left.content right.content

def sameIdentity (left right : Record) : Bool :=
  left.sourceId == right.sourceId && left.admissionId == right.admissionId

@[simp] theorem sameIdentity_iff (left right : Record) :
    sameIdentity left right ↔
      left.sourceId = right.sourceId ∧ left.admissionId = right.admissionId := by
  simp [sameIdentity]

theorem sameIdentity_comm (left right : Record) :
    sameIdentity left right = sameIdentity right left := by
  rw [Bool.eq_iff_iff, sameIdentity_iff, sameIdentity_iff]
  constructor <;> rintro ⟨h, h'⟩ <;> exact ⟨h.symm, h'.symm⟩

theorem contentEqual_iff (a b : ContentDescriptor) : contentEqual a b ↔ a = b := by
  constructor
  · intro h
    cases a
    cases b
    simp_all [contentEqual]
  rintro rfl
  simp [contentEqual]

theorem envelope_of_recordValid (h : recordValid record = .ok) :
    record.version = apiVersion ∧ record.envelopeSchema = recordSchema ∧
      record.envelopeSchemaVersion = recordSchemaVersion := by
  unfold recordValid at h
  split at h
  · cases h
  rename_i hversion
  split at h
  · cases h
  rename_i hschema
  simp only [ne_eq, not_or, not_not] at hversion hschema
  exact ⟨hversion, hschema⟩

theorem recordEqual_iff (hl : recordValid left = .ok) (hr : recordValid right = .ok) :
    recordEqual left right ↔ left = right := by
  constructor
  · intro h
    obtain ⟨hlv, hls, hln⟩ := envelope_of_recordValid hl
    obtain ⟨hrv, hrs, hrn⟩ := envelope_of_recordValid hr
    simp only [recordEqual, Bool.and_eq_true, beq_iff_eq, contentEqual_iff] at h
    cases left
    cases right
    simp_all
  rintro rfl
  simp [recordEqual, contentEqual_iff]

/-- The sum of the view lengths that `flow_inbox_memory_admit` computes, unless it passes
`SIZE_MAX`. -/
def retainedSize (source : Record) : Option ℕ :=
  let lengths := [source.partitionKey, source.admissionId, source.correlation, source.payload]
  (lengths.map List.length).foldlM
    (fun total length => if length > Word.max64 - total then none else some (total + length))
    source.sourceId.length

end TurboFlow.Inbox
