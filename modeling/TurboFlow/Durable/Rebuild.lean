import TurboFlow.Durable.Record
import TurboFlow.Inbox.Partition

/-!
# Messages from the records of a durable buffer

A message is encoded as a record, admitted, and built again from the claim of the record. Encoder,
inbox and builder add up the lengths on their own, the builder without the partition key, and the
builder checks the identity once more. They agree (`message_reproduced`).
-/

namespace TurboFlow.Durable

open Inbox Transition Word List

/-- What `flow_inbox_source_message_build` writes to the message of a durable buffer's driver. -/
structure BuiltMessage where
  id : ℕ
  timestampNs : ℕ
  messageType : ℕ
  messageFlags : ℕ
  payload : Bytes
  descriptor : ContentDescriptor
  identity : StableIdentity
  durableClaim : Bool

def addSize (left right : ℕ) : Except Status ℕ :=
  if right > max64 - left then .error .erange else .ok (left + right)

def bufferView (buffer : Bytes) (offset length : ℕ) : Bytes :=
  (buffer.drop offset).take length

/-- `flow_inbox_source_message_build` for the origin of a durable buffer. The flags say whether the
buffer and the content handle can be allocated. -/
def messageBuild (maxMessageBytes : ℕ) (bufferAllocated handleAllocated : Bool) (claim : Claim) :
    Except Status BuiltMessage := do
  let record := claim.record
  let admissionOffset ← addSize 0 record.sourceId.length
  let correlationOffset ← addSize admissionOffset record.admissionId.length
  let payloadOffset ← addSize correlationOffset record.correlation.length
  let retainedBytes ← addSize payloadOffset record.payload.length
  if retainedBytes > maxMessageBytes then .error .enospc
  else if ¬ bufferAllocated then .error .enomem
  else if contentDescriptorCheck record.content ≠ .ok then .error .einval
  else if ¬ handleAllocated then .error .enomem
  else
    let buffer := record.sourceId ++ (record.admissionId ++ (record.correlation ++ record.payload))
    let identity : DurableIdentity :=
      { sourceId := bufferView buffer 0 record.sourceId.length
        deviceId := []
        sessionId := []
        partitionKey := []
        admissionId := bufferView buffer admissionOffset record.admissionId.length
        correlation := bufferView buffer correlationOffset record.correlation.length
        sourceSequence := record.sourceSequence }
    if hvalid : durableIdentityValidate identity = .ok then
      .ok
        { id := claim.recordId
          timestampNs := record.timestampNs
          messageType := record.messageType
          messageFlags := record.messageFlags
          payload := bufferView buffer payloadOffset record.payload.length
          descriptor := record.content
          identity := ⟨identity, hvalid⟩
          durableClaim := true }
    else .error (durableIdentityValidate identity)

theorem addSize_of_le (h : left + right ≤ max64) : addSize left right = .ok (left + right) :=
  if_neg (by omega)

theorem addSize_offsets (h : m + n + k + l ≤ max64) :
    addSize 0 m = .ok m ∧ addSize m n = .ok (m + n) ∧ addSize (m + n) k = .ok (m + n + k) ∧
      addSize (m + n + k) l = .ok (m + n + k + l) := by
  refine ⟨?_, addSize_of_le (by omega), addSize_of_le (by omega), addSize_of_le h⟩
  rw [addSize_of_le (by omega), Nat.zero_add]

theorem bufferView_parts (a b c d : Bytes) :
    bufferView (a ++ (b ++ (c ++ d))) 0 a.length = a ∧
      bufferView (a ++ (b ++ (c ++ d))) a.length b.length = b ∧
      bufferView (a ++ (b ++ (c ++ d))) (a.length + b.length) c.length = c ∧
      bufferView (a ++ (b ++ (c ++ d))) (a.length + b.length + c.length) d.length = d := by
  refine ⟨by simp [bufferView], by simp [bufferView], ?_, ?_⟩
  · rw [bufferView, ← append_assoc, drop_left' (by simp), take_left]
  rw [bufferView, ← append_assoc, ← append_assoc, drop_left' (by simp [Nat.add_assoc]), take_length]

theorem retainedSize_eq_some (h : retainedSize record = some bytes)
    (hsource : record.sourceId.length ≤ max64) :
    bytes ≤ max64 ∧ record.sourceId.length + record.admissionId.length +
      record.correlation.length + record.payload.length ≤ bytes := by
  simp only [retainedSize, map_cons, map_nil, foldlM_cons, foldlM_nil, Option.bind_eq_bind,
    Option.bind_eq_some_iff, Option.ite_none_left_eq_some, Option.some.injEq, Option.pure_def] at h
  obtain ⟨_, ⟨_, rfl⟩, _, ⟨_, rfl⟩, _, ⟨_, rfl⟩, _, ⟨_, rfl⟩, rfl⟩ := h
  omega

theorem recordValid_parts (h : recordValid record = .ok) :
    record.sourceId ≠ [] ∧ record.admissionId ≠ [] ∧
      contentDescriptorCheck record.content = .ok := by
  unfold recordValid at h
  split at h
  · cases h
  split at h
  · cases h
  split at h
  · cases h
  rename_i hnonempty
  split at h
  · cases h
  push Not at hnonempty
  exact ⟨hnonempty.1, hnonempty.2.2, h⟩

def builtIdentity (record : Record) : DurableIdentity where
  sourceId := record.sourceId
  deviceId := []
  sessionId := []
  partitionKey := []
  admissionId := record.admissionId
  correlation := record.correlation
  sourceSequence := record.sourceSequence

structure BuiltMessage.Carries (built : BuiltMessage) (record : Record) : Prop where
  payload : built.payload = record.payload
  timestampNs : built.timestampNs = record.timestampNs
  messageType : built.messageType = record.messageType
  messageFlags : built.messageFlags = record.messageFlags
  descriptor : built.descriptor = record.content
  identity : built.identity.toDurableIdentity = builtIdentity record

theorem messageBuild_eq (hvalid : recordValid record = .ok)
    (hsize : retainedSize record = some bytes) (hbytes : bytes ≤ maxMessageBytes)
    (hsource : record.sourceId.length ≤ sourceIdMax)
    (hadmission : record.admissionId.length ≤ admissionIdMax)
    (hcorrelation : record.correlation.length ≤ correlationMax) (recordId claimToken : ℕ)
    (bufferAllocated handleAllocated : Bool) :
    ∃ built : BuiltMessage, built.Carries record ∧
      messageBuild maxMessageBytes bufferAllocated handleAllocated ⟨recordId, claimToken, record⟩ =
        if bufferAllocated ∧ handleAllocated then .ok built else .error .enomem := by
  obtain ⟨hsourceId, hadmissionId, hcontent⟩ := recordValid_parts hvalid
  have hmax : sourceIdMax ≤ max64 := by decide
  obtain ⟨hword, htotal⟩ := retainedSize_eq_some hsize (hsource.trans hmax)
  have hidentity : durableIdentityValidate (builtIdentity record) = .ok := by
    simp [durableIdentityValidate, builtIdentity, hsourceId, hadmissionId, hsource, hadmission,
      hcorrelation]
  refine ⟨⟨recordId, record.timestampNs, record.messageType, record.messageFlags, record.payload,
    record.content, ⟨builtIdentity record, hidentity⟩, true⟩, ⟨rfl, rfl, rfl, rfl, rfl, rfl⟩, ?_⟩
  obtain ⟨hadd₁, hadd₂, hadd₃, hadd₄⟩ := addSize_offsets (htotal.trans hword)
  obtain ⟨hview₁, hview₂, hview₃, hview₄⟩ :=
    bufferView_parts record.sourceId record.admissionId record.correlation record.payload
  simp only [messageBuild, hadd₁, hadd₂, hadd₃, hadd₄, bind, Except.bind]
  rw [if_neg (by omega)]
  simp only [builtIdentity] at hidentity
  cases bufferAllocated with
  | false => simp
  | true =>
    cases handleAllocated with
    | false => simp [hcontent]
    | true => simp [hcontent, hview₁, hview₂, hview₃, hview₄, hidentity, builtIdentity]

theorem encodeContent_ok (h : encodeContent stageName message = .ok content) :
    message.descriptor = some content ∨
      message.descriptor = none ∧ genericContent stageName = .ok content := by
  unfold encodeContent at h
  split at h
  · rename_i hnone
    exact .inr ⟨hnone, h⟩
  rename_i descriptor hsome
  split at h
  · cases h
  · exact .inl (hsome.trans (congrArg some (Except.ok.inj h)))

section Runs

variable {config : MemoryConfig} {memory : Memory} {tr₁ tr₂ : List (Operation × Outcome)}
  {op₁ op₂ : Operation} {record claimed : Record} {recordId claimToken : ℕ} {s : System}

theorem claim_of_admitted (hcreate : memoryCreate config = some memory)
    (h : Run (Acts act) (System.init memory) (tr₁ ++ [(op₁, .admitted record .ok recordId)] ++
      tr₂ ++ [(op₂, .claimed (.ok ⟨recordId, claimToken, claimed⟩))]) s) :
    claimed = record ∧ recordValid record = .ok := by
  obtain ⟨t₃, h₃, hclaim⟩ := Run.snoc_iff.mp h
  obtain ⟨t₂, h₂, hmiddle⟩ := h₃.split
  obtain ⟨t₁, h₁, hadmit⟩ := Run.snoc_iff.mp h₂
  have hsound := sound_of_run hcreate h₂
  obtain ⟨i, a, ha, rfl, rfl⟩ := (coherent_of_run hcreate h₁).holds_of_admitted hadmit
  have hthen : Sound t₃ ∧ Assigned t₃ a.recordId a.view :=
    hmiddle.invariant (P := fun t => Sound t ∧ Assigned t a.recordId a.view)
      ⟨hsound, hsound.assigned ha⟩ fun _ _ _ hs hact =>
        ⟨hs.1.effect (act_effect hact), hs.2.effect hs.1.consistent (act_effect hact)⟩
  obtain ⟨request, -, hselected⟩ := act_claimed hclaim
  obtain ⟨j, b, hb, -, hid, hview⟩ := (hthen.1.oldestOfPartition hselected).stored
  exact ⟨hview.symm.trans (hthen.2.stored j b hb hid), (hsound.coherent.stored i a ha).1⟩

/-- A message that is encoded and admitted is built again from every later claim of its record,
whichever of the two allocations fail: with its payload, timestamp, type, flags, descriptor or the
generic one, and the identity of the record. -/
theorem message_reproduced (hcreate : memoryCreate config = some memory) {encoding : Encoding}
    {drain : DrainConfig} {observed : ℕ} {message : Message}
    (hencode : (encodeRecord encoding drain observed message).2 = .ok record)
    (h : Run (Acts act) (System.init memory) (tr₁ ++ [(op₁, .admitted record .ok recordId)] ++
      tr₂ ++ [(op₂, .claimed (.ok ⟨recordId, claimToken, claimed⟩))]) s)
    (bufferAllocated handleAllocated : Bool) :
    ∃ built, messageBuild encoding.maxMessageBytes bufferAllocated handleAllocated
          ⟨recordId, claimToken, claimed⟩ =
        (if bufferAllocated ∧ handleAllocated then .ok built else .error .enomem) ∧
      built.payload = message.payload ∧ built.timestampNs = message.timestampNs ∧
      built.messageType = message.messageType ∧ built.messageFlags = message.messageFlags ∧
      (message.descriptor = some built.descriptor ∨
        message.descriptor = none ∧ genericContent encoding.stageName = .ok built.descriptor) ∧
      built.identity.sourceId = record.sourceId ∧
      built.identity.admissionId = record.admissionId ∧
      built.identity.correlation = record.correlation ∧
      built.identity.sourceSequence = record.sourceSequence := by
  obtain ⟨rfl, hvalid⟩ := claim_of_admitted hcreate h
  obtain ⟨content, identity, hcontent, hshort, rfl, -, bytes, hsize, hbytes⟩ :=
    encodeRecord_ok hencode
  obtain ⟨built, hcarries, hbuild⟩ := messageBuild_eq hvalid hsize hbytes hshort.sourceId
    hshort.admissionId hshort.correlation recordId claimToken bufferAllocated handleAllocated
  refine ⟨built, hbuild, hcarries.payload, hcarries.timestampNs, hcarries.messageType,
    hcarries.messageFlags, ?_, ?_⟩
  · rw [hcarries.descriptor]
    exact encodeContent_ok hcontent
  rw [hcarries.identity]
  exact ⟨rfl, rfl, rfl, rfl⟩

end Runs

def stableMessage : Message where
  payload := [5, 6]
  payloadHeld := true
  claimActive := false
  hasResult := false
  hasProjection := false
  descriptor := some (sampleRecord 7).content
  identity := some ⟨⟨[1], [2], [], [], [7], [], 4⟩, rfl⟩
  timestampNs := 9
  messageType := 3
  messageFlags := 1

def stableEncoded : Record :=
  recordOf stableMessage (sampleRecord 7).content ⟨[1], [1], [7], [], 4⟩

/-- A message with a stable identity is built from its first claim. -/
theorem message_reproduced_stable :
    ∃ built, messageBuild 16 true true ⟨1, 1, stableEncoded⟩ = .ok built ∧
      built.payload = [5, 6] ∧ built.identity.sourceSequence = 4 := by
  obtain ⟨memory, s, hcreate, hexec⟩ : ∃ memory s, memoryCreate twoSlots = some memory ∧
      exec act (System.init memory) [.admitRecord stableEncoded, .commit 0, .claim] =
        some (s, [.reserved 1, .admitted stableEncoded .ok 1,
          .claimed (.ok ⟨1, 1, stableEncoded⟩)]) := ⟨_, _, rfl, rfl⟩
  have hencode : (encodeRecord ⟨.stableRequired, 16, 1, "", ""⟩ drainConfigInit 0
      stableMessage).2 = .ok stableEncoded := rfl
  have hrun : Run (Acts act) (System.init memory) ([(.admitRecord stableEncoded, .reserved 1)] ++
      [(.commit 0, .admitted stableEncoded .ok 1)] ++ [] ++
      [(.claim, .claimed (.ok ⟨1, 1, stableEncoded⟩))]) s := run_of_exec hexec
  obtain ⟨built, hbuild, hpayload, -, -, -, -, -, -, -, hsequence⟩ :=
    message_reproduced hcreate hencode hrun true true
  exact ⟨built, hbuild, hpayload, hsequence⟩

end TurboFlow.Durable
