import TurboFlow.Inbox.Record
import TurboFlow.Lib.Worklist

/-!
# Records of a durable buffer

A durable buffer writes the message that reaches its stage into an inbox. The record takes the
identity of the message, or a generated one, and its partition key is a component of it. The
components of a `StableIdentity` have bounded lengths, which bounds the exclusion list of a claim
request.
-/

namespace TurboFlow.Durable

open Inbox

def sourceIdMax : ℕ := 127

def partitionComponentMax : ℕ := 255

def admissionIdMax : ℕ := 255

def correlationMax : ℕ := 255

structure DurableIdentity where
  sourceId : Bytes
  deviceId : Bytes
  sessionId : Bytes
  partitionKey : Bytes
  admissionId : Bytes
  correlation : Bytes
  sourceSequence : ℕ

def durableIdentityValidate (identity : DurableIdentity) : Status :=
  if identity.sourceId = [] ∨ identity.admissionId = [] then .einval
  else if identity.sourceId.length > sourceIdMax ∨
      identity.deviceId.length > partitionComponentMax ∨
      identity.sessionId.length > partitionComponentMax ∨
      identity.partitionKey.length > partitionComponentMax ∨
      identity.admissionId.length > admissionIdMax ∨
      identity.correlation.length > correlationMax then .erange
  else .ok

/-- An identity that `turbo_flow_msg_set_durable_identity` has stored in a message. -/
structure StableIdentity extends DurableIdentity where
  valid : durableIdentityValidate toDurableIdentity = .ok

/-- What a durable buffer reads of a message. `payloadHeld`: the payload lies in storage of the
message. `claimActive`, `hasResult` and `hasProjection` are what its content handle carries besides
descriptor and identity. -/
structure Message where
  payload : Bytes
  payloadHeld : Bool
  claimActive : Bool
  hasResult : Bool
  hasProjection : Bool
  descriptor : Option ContentDescriptor
  identity : Option StableIdentity
  timestampNs : ℕ
  messageType : ℕ
  messageFlags : ℕ

inductive IdentityMode
  | generated
  | stableRequired

inductive DrainOrdering
  | global
  | partition
  deriving DecidableEq

inductive PartitionBy
  | sourceId
  | deviceId
  | sessionId
  | custom
  deriving DecidableEq

def maxWorkers : ℕ := 64

structure DrainConfig where
  ordering : DrainOrdering
  partitionBy : PartitionBy
  workers : ℕ
  maxInFlight : ℕ
  batchClaim : ℕ

def drainConfigInit : DrainConfig := ⟨.global, .sourceId, 1, 1, 1⟩

def drainConfigValid (config : DrainConfig) : Bool :=
  ¬ (config.workers = 0 ∨ config.workers > maxWorkers ∨ config.maxInFlight = 0 ∨
    config.workers > config.maxInFlight ∨ config.batchClaim = 0 ∨
    config.batchClaim > config.maxInFlight)

/-- The part of `turbo_flow_durable_buffer_binding_t` that decides how a message is encoded. -/
structure Encoding where
  identityMode : IdentityMode
  maxMessageBytes : ℕ
  providerGeneration : ℕ
  admissionNamespace : String
  stageName : String

def bytesOf (text : String) : Bytes := text.toUTF8.toList

/-- `flow_durable_buffer_next_sequence`: the counter behind the draw. -/
def nextSequence (observed : ℕ) : Except Status ℕ :=
  if observed = Word.max64 then .error .erange else .ok (observed + 1)

def selectPartitionKey (drain : DrainConfig) (identity : Option DurableIdentity)
    (generatedSource : Bytes) : Except Status Bytes :=
  let source := (identity.map DurableIdentity.sourceId).getD generatedSource
  let component (part : DurableIdentity → Bytes) : Except Status Bytes :=
    match identity with
    | none => .error .einval
    | some identity => .ok (part identity)
  let selected : Except Status Bytes :=
    match drain.ordering, drain.partitionBy with
    | .global, _ => .ok source
    | .partition, .sourceId => .ok source
    | .partition, .deviceId => component DurableIdentity.deviceId
    | .partition, .sessionId => component DurableIdentity.sessionId
    | .partition, .custom => component DurableIdentity.partitionKey
  match selected with
  | .error rc => .error rc
  | .ok key => if key = [] then .error .einval else .ok key

def genericContent (stageName : String) : Except Status ContentDescriptor :=
  if stageName.utf8ByteSize > contentIdentityMax then .error .erange
  else
    .ok
      { domain := .data
        profile := .generic
        encoding := .opaqueBytes
        schemaDeclared := true
        batch := false
        protocolControl := false
        unknownFlags := 0
        schemaVersion := 1
        mediaType := "application/octet-stream"
        schemaName := "turbo-flow.durable.opaque"
        typeName := "OpaquePayload"
        identity := stageName }

def encodeContent (stageName : String) (message : Message) : Except Status ContentDescriptor :=
  match message.descriptor with
  | none => genericContent stageName
  | some descriptor =>
    if contentDescriptorCheck descriptor ≠ .ok ∨ descriptor.domain ≠ .data ∨
        ¬ descriptor.schemaDeclared then .error .eproto
    else .ok descriptor

structure RecordIdentity where
  sourceId : Bytes
  partitionKey : Bytes
  admissionId : Bytes
  correlation : Bytes
  sourceSequence : ℕ

def stableIdentity (drain : DrainConfig) (message : Message) : Except Status RecordIdentity :=
  match message.identity with
  | none => .error .einval
  | some identity =>
    match selectPartitionKey drain (some identity.toDurableIdentity) [] with
    | .error rc => .error rc
    | .ok key =>
      .ok ⟨identity.sourceId, key, identity.admissionId, identity.correlation,
        identity.sourceSequence⟩

def generatedAdmission (encoding : Encoding) (sequence : ℕ) : Bytes :=
  bytesOf ("g" ++ toString encoding.providerGeneration ++ ":" ++ encoding.admissionNamespace ++
    ":" ++ toString sequence)

/-- The identity of a record in the mode that generates one. A sequence number stays drawn when a
later check fails. -/
def generatedIdentity (encoding : Encoding) (drain : DrainConfig) (observed : ℕ) :
    ℕ × Except Status RecordIdentity :=
  let source := bytesOf encoding.stageName
  if source.length > sourceIdMax then (observed, .error .erange)
  else if drain.ordering = .partition ∧ drain.partitionBy ≠ .sourceId then
    (observed, .error .einval)
  else
    match nextSequence observed with
    | .error rc => (observed, .error rc)
    | .ok sequence =>
      if (generatedAdmission encoding sequence).length ≥ admissionIdMax + 1 then
        (sequence, .error .erange)
      else
        match selectPartitionKey drain none source with
        | .error rc => (sequence, .error rc)
        | .ok key =>
          (sequence, .ok ⟨source, key, generatedAdmission encoding sequence, [], sequence⟩)

def recordOf (message : Message) (content : ContentDescriptor) (identity : RecordIdentity) :
    Record where
  version := apiVersion
  envelopeSchema := recordSchema
  envelopeSchemaVersion := recordSchemaVersion
  sourceId := identity.sourceId
  partitionKey := identity.partitionKey
  admissionId := identity.admissionId
  sourceSequence := identity.sourceSequence
  timestampNs := message.timestampNs
  messageType := message.messageType
  messageFlags := message.messageFlags
  content
  correlation := identity.correlation
  payload := message.payload

/-- The last check of `flow_durable_buffer_encode_record`. -/
def boundedRecord (maxMessageBytes : ℕ) (record : Record) : Except Status Record :=
  match retainedSize record with
  | none => .error .erange
  | some bytes => if bytes > maxMessageBytes then .error .enospc else .ok record

/-- `flow_durable_buffer_encode_record`, with the sequence counter before and behind the call. -/
def encodeRecord (encoding : Encoding) (drain : DrainConfig) (observed : ℕ) (message : Message) :
    ℕ × Except Status Record :=
  if ¬ message.payloadHeld then (observed, .error .einval)
  else if message.claimActive then (observed, .error .ebusy)
  else if message.hasResult then (observed, .error .enotsup)
  else if message.hasProjection ∧ (message.descriptor.isNone ∨ message.payload = []) then
    (observed, .error .enotsup)
  else
    match encodeContent encoding.stageName message with
    | .error rc => (observed, .error rc)
    | .ok content =>
      let (sequence, identity) :=
        match encoding.identityMode with
        | .stableRequired => (observed, stableIdentity drain message)
        | .generated => generatedIdentity encoding drain observed
      (sequence, identity.bind fun identity =>
        boundedRecord encoding.maxMessageBytes (recordOf message content identity))

theorem StableIdentity.lengths (identity : StableIdentity) :
    identity.sourceId.length ≤ sourceIdMax ∧
      identity.deviceId.length ≤ partitionComponentMax ∧
      identity.sessionId.length ≤ partitionComponentMax ∧
      identity.partitionKey.length ≤ partitionComponentMax ∧
      identity.admissionId.length ≤ admissionIdMax ∧
      identity.correlation.length ≤ correlationMax := by
  have hvalid := identity.valid
  unfold durableIdentityValidate at hvalid
  split at hvalid
  · cases hvalid
  split at hvalid
  · cases hvalid
  rename_i hrange
  push Not at hrange
  exact hrange

variable {identity : RecordIdentity}

theorem selectPartitionKey_length (identity : Option StableIdentity)
    (hsource : generatedSource.length ≤ sourceIdMax)
    (h : selectPartitionKey drain (identity.map StableIdentity.toDurableIdentity) generatedSource =
      .ok key) : key.length ≤ partitionComponentMax := by
  have hmax : sourceIdMax ≤ partitionComponentMax := by decide
  cases identity with
  | none =>
    unfold selectPartitionKey at h
    cases hordering : drain.ordering <;> cases hby : drain.partitionBy <;>
      simp only [hordering, hby, Option.map_none, Option.getD_none] at h <;>
      grind
  | some identity =>
    obtain ⟨hs, hd, hse, hp, -⟩ := identity.lengths
    unfold selectPartitionKey at h
    cases hordering : drain.ordering <;> cases hby : drain.partitionBy <;>
      simp only [hordering, hby, Option.map_some, Option.getD_some] at h <;>
      grind

structure RecordIdentity.Short (identity : RecordIdentity) : Prop where
  sourceId : identity.sourceId.length ≤ sourceIdMax
  partitionKey : identity.partitionKey.length ≤ partitionComponentMax
  admissionId : identity.admissionId.length ≤ admissionIdMax
  correlation : identity.correlation.length ≤ correlationMax

theorem stableIdentity_short (h : stableIdentity drain message = .ok identity) :
    identity.Short := by
  unfold stableIdentity at h
  split at h
  · cases h
  rename_i stable _
  split at h
  · cases h
  rename_i key hkey
  cases h
  obtain ⟨hsource, -, -, -, hadmission, hcorrelation⟩ := stable.lengths
  exact ⟨hsource, selectPartitionKey_length (some stable) (by simp) hkey, hadmission, hcorrelation⟩

theorem generatedIdentity_ok (h : (generatedIdentity encoding drain observed).2 = .ok identity) :
    identity.Short ∧ identity.admissionId = generatedAdmission encoding (observed + 1) := by
  simp only [generatedIdentity] at h
  split at h
  · cases h
  rename_i hsource
  split at h
  · cases h
  split at h
  · cases h
  rename_i hdrawn
  split at h
  · cases h
  rename_i hadmission
  split at h
  · cases h
  rename_i key hkey
  cases h
  exact ⟨⟨le_of_not_gt hsource, selectPartitionKey_length none (le_of_not_gt hsource) hkey,
    Nat.lt_succ_iff.mp (not_le.mp hadmission), Nat.zero_le _⟩, by grind [nextSequence]⟩

theorem boundedRecord_ok (h : boundedRecord maxMessageBytes record = .ok record') :
    record' = record ∧ ∃ bytes, retainedSize record = some bytes ∧ bytes ≤ maxMessageBytes := by
  unfold boundedRecord at h
  split at h
  · cases h
  split at h
  · cases h
  rename_i bytes hsize hfits
  exact ⟨(Except.ok.inj h).symm, bytes, hsize, le_of_not_gt hfits⟩

theorem encodeRecord_ok (h : (encodeRecord encoding drain observed message).2 = .ok record) :
    ∃ content identity, encodeContent encoding.stageName message = .ok content ∧
      identity.Short ∧ record = recordOf message content identity ∧
      (encoding.identityMode = .generated →
        identity.admissionId = generatedAdmission encoding (observed + 1)) ∧
      ∃ bytes, retainedSize record = some bytes ∧ bytes ≤ encoding.maxMessageBytes := by
  unfold encodeRecord at h
  split at h
  · cases h
  split at h
  · cases h
  split at h
  · cases h
  split at h
  · cases h
  split at h
  · cases h
  rename_i content hcontent
  obtain ⟨identity, hshort, hgenerated, hbounded⟩ : ∃ identity : RecordIdentity, identity.Short ∧
      (encoding.identityMode = .generated →
        identity.admissionId = generatedAdmission encoding (observed + 1)) ∧
      boundedRecord encoding.maxMessageBytes (recordOf message content identity) = .ok record := by
    cases hmode : encoding.identityMode with
    | stableRequired =>
      simp only [hmode] at h
      obtain ⟨identity, hidentity, hbounded⟩ := Fallible.bind_eq_ok.mp h
      exact ⟨identity, stableIdentity_short hidentity, nofun, hbounded⟩
    | generated =>
      simp only [hmode] at h
      obtain ⟨identity, hidentity, hbounded⟩ := Fallible.bind_eq_ok.mp h
      obtain ⟨hshort, hadmission⟩ := generatedIdentity_ok hidentity
      exact ⟨identity, hshort, fun _ => hadmission, hbounded⟩
  obtain ⟨rfl, hsize⟩ := boundedRecord_ok hbounded
  exact ⟨content, identity, hcontent, hshort, rfl, hgenerated, hsize⟩

end TurboFlow.Durable
