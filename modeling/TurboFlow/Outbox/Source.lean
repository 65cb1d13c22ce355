import TurboFlow.Lib.Run
import TurboFlow.Status
import Mathlib.Data.List.Basic

/-!
# The TurboDB outbox source

The source fetches records from a provider, runs the graph for each in a slot, and settles the token
when the run has ended, all on the owner's thread in `poll` and `stop`; a waker only sets a flag.
The answers of provider, classifier and graph are inputs, and the provider calls are the events.
Counters that only a snapshot shows are left out.
-/

namespace TurboFlow.Outbox

open Transition

inductive Phase
  | empty
  | graphRunning
  | deadLetterPending
  | ackPending
  | requeuePending
  deriving DecidableEq

/-- `outbox_slot_t`, without the message. A slot without a failure of the source has none. -/
structure Slot where
  phase : Phase
  token : ℕ
  retainedBytes : ℕ
  graphStatus : Status
  sourceFailure : Option (Status × String)

/-- A slot after `memset`. -/
def Slot.zero : Slot :=
  { phase := .empty, token := 0, retainedBytes := 0, graphStatus := .ok, sourceFailure := none }

inductive State
  | running
  | waiting
  | stopping
  | stopped
  | failed
  deriving DecidableEq

/-- The limits and the failure policy of the configuration, and the size of the context in front of
a message. -/
structure Config where
  deadLetters : Bool
  fetchCount : ℕ
  inFlightMessages : ℕ
  inFlightBytes : ℕ
  maxIdentityBytes : ℕ
  maxPayloadBytes : ℕ
  maxDeliveryAttempts : ℕ
  firstMessageId : ℕ
  contextSize : ℕ

structure Source where
  state : State
  status : Status
  errorStage : String
  slots : List Slot
  outstandingDemand : ℕ
  inFlightMessages : ℕ
  inFlightBytes : ℕ
  nextMessageId : ℕ
  messageIdExhausted : Bool
  fetched : ℕ
  fetchWaitArmed : Bool
  fetchWakePending : Bool

/-- `turbo_flow_turbodb_outbox_source_open` with a valid configuration. -/
def Source.open (c : Config) : Source :=
  { state := .running, status := .ok, errorStage := "",
    slots := List.replicate c.inFlightMessages .zero, outstandingDemand := 0, inFlightMessages := 0,
    inFlightBytes := 0, nextMessageId := c.firstMessageId, messageIdExhausted := false,
    fetched := 0, fetchWaitArmed := false, fetchWakePending := false }

inductive Event
  | fetch (maxRecords maxRetainedBytes : ℕ)
  | started (token messageId : ℕ)
  | deadLetter (token : ℕ) (rc : Status)
  | acknowledge (token : ℕ) (rc : Status)
  | requeue (token : ℕ) (rc : Status)
  deriving DecidableEq

def Event.settles : Event → Bool
  | .deadLetter _ _ | .acknowledge _ _ | .requeue _ _ => true
  | _ => false

inductive RunSnapshot
  | error (status : Status)
  | live
  | ended (completed : Bool) (status : Status)

/-- The answers of the classifier; `invalid` is any other value. -/
inductive Disposition
  | retryable
  | permanent
  | invalid

structure SettleAnswers where
  snapshot : ℕ → RunSnapshot
  classify : ℕ → Disposition
  settlement : Status

structure Reply where
  source : Source
  events : List Event
  status : Status
  progressed : Bool

@[simp] def Source.error (s : Source) (status : Status) (stage : String) (terminal : Bool) :
    Source :=
  { s with status, errorStage := stage, state := if terminal then .failed else s.state }

def Source.clear (s : Source) : Source :=
  { s with status := .ok, errorStage := "" }

def Source.setSlot (s : Source) (index : ℕ) (slot : Slot) : Source :=
  { s with slots := s.slots.set index slot }

def Source.release (s : Source) (index : ℕ) (slot : Slot) : Source :=
  { s.setSlot index .zero with
    inFlightMessages := s.inFlightMessages - 1
    inFlightBytes := s.inFlightBytes - slot.retainedBytes }

def Slot.ended (c : Config) (slot : Slot) (completed : Bool) (status : Status) (d : Disposition) :
    Slot :=
  let slot := { slot with graphStatus := status }
  if completed ∧ status = .ok then { slot with phase := .ackPending }
  else
    match d with
    | .invalid =>
      { slot with phase := .requeuePending, sourceFailure := some (.eproto, "classify_failure") }
    | .permanent =>
      if c.deadLetters then { slot with phase := .deadLetterPending }
      else
        { slot with
          phase := .requeuePending
          sourceFailure := some (if status = .ok then .eproto else status, "permanent_failure") }
    | .retryable => { slot with phase := .requeuePending }

/-- What the loop of `outbox_source_settle_one` finds at a slot: nothing, a snapshot that fails, or
a slot to settle. -/
def Slot.inspect (c : Config) (a : SettleAnswers) (index : ℕ) (slot : Slot) :
    Option (Except Status Slot) :=
  match slot.phase with
  | .empty => none
  | .graphRunning =>
    match a.snapshot index with
    | .error status => some (.error status)
    | .live => none
    | .ended completed status => some (.ok (slot.ended c completed status (a.classify index)))
  | _ => some (.ok slot)

def firstDue (c : Config) (a : SettleAnswers) : List Slot → ℕ → Option (ℕ × Except Status Slot)
  | [], _ => none
  | slot :: slots, index =>
    match slot.inspect c a index with
    | none => firstDue c a slots (index + 1)
    | some result => some (index, result)

/-- The callback that a slot waits for, where the provider answers `a.settlement`. -/
def Source.settleSlot (s : Source) (rc : Status) (index : ℕ) (slot : Slot) : Reply :=
  match slot.phase with
  | .deadLetterPending =>
    if rc = .ok then
      ⟨(s.setSlot index { slot with phase := .ackPending }).clear, [.deadLetter slot.token rc], .ok,
        true⟩
    else ⟨(s.setSlot index slot).error rc "dead_letter" false, [.deadLetter slot.token rc],
      rc, false⟩
  | .ackPending =>
    if rc = .ok then
      let s := s.release index slot
      ⟨if s.state = .failed then s else s.clear, [.acknowledge slot.token rc], .ok, true⟩
    else ⟨(s.setSlot index slot).error rc "acknowledge" false, [.acknowledge slot.token rc],
      rc, false⟩
  | .requeuePending =>
    if rc = .ok then
      let s := s.release index slot
      let s := slot.sourceFailure.elim s fun f => s.error f.1 f.2 true
      ⟨if s.state = .failed then s else s.clear, [.requeue slot.token rc], .ok, true⟩
    else ⟨(s.setSlot index slot).error rc "requeue" false, [.requeue slot.token rc], rc, false⟩
  | _ => ⟨s, [], .ok, false⟩

def settleOne (c : Config) (a : SettleAnswers) (s : Source) : Reply :=
  match firstDue c a s.slots 0 with
  | none => ⟨s, [], .ok, false⟩
  | some (_, .error status) => ⟨s.error status "graph_snapshot" true, [], status, false⟩
  | some (index, .ok slot) => s.settleSlot a.settlement index slot

/-- `turbo_flow_turbodb_outbox_record_t`; `formed` is the size, the version and the data
pointers. -/
structure Record where
  formed : Bool
  token : ℕ
  raftIndex : ℕ
  term : ℕ
  deliveryAttempt : ℕ
  identityLen : ℕ
  payloadLen : ℕ

inductive FetchStep
  | malformed
  | idle (status : Status)
  | wait (status : Status) (valid : Bool)
  | record (status : Status) (record : Record)
  | dataLoss (status : Status)
  | error (status : Status)
  | unknown

/-- What a fetch is answered: the step, whether its waitable is armed, and what starting the run
takes. -/
structure FetchAnswers where
  step : FetchStep
  arms : Bool
  build : Status
  publisher : Bool
  runOpen : Status
  request : Status
  snapshot : RunSnapshot
  cancel : Status
  requeue : Status

def recordValidate (c : Config) (r : Record) (budget : ℕ) : Except Status ℕ :=
  if ¬ r.formed ∨ r.token = 0 ∨ r.raftIndex = 0 ∨ r.term = 0 ∨ r.deliveryAttempt = 0 ∨
      c.maxDeliveryAttempts < r.deliveryAttempt ∨ r.identityLen = 0 ∨
      c.maxIdentityBytes < r.identityLen ∨ c.maxPayloadBytes < r.payloadLen then .error .einval
  else if 2 ^ 64 - 1 - r.payloadLen < r.identityLen then .error .erange
  else if 2 ^ 64 - 1 - c.contextSize < r.identityLen + r.payloadLen then .error .erange
  else
    let retainedBytes := c.contextSize + (r.identityLen + r.payloadLen)
    if budget < retainedBytes then .error .enospc else .ok retainedBytes

/-- `outbox_source_requeue_rejected` of a record in a free slot. -/
def Source.requeueRejected (s : Source) (rc : Status) (index token : ℕ) (failure : Status)
    (stage : String) : Reply :=
  if token = 0 then ⟨s.error failure stage true, [], failure, false⟩
  else
    let slot := { Slot.zero with
      phase := .requeuePending, token, sourceFailure := some (failure, stage) }
    let s := { s.setSlot index slot with inFlightMessages := s.inFlightMessages + 1 }
    if rc = .ok then
      ⟨(s.release index slot).error failure stage true, [.requeue token rc], failure, false⟩
    else ⟨s.error rc "requeue_rejected" false, [.requeue token rc], rc, false⟩

def Source.reject (s : Source) (failure : Status) (stage : String) : Reply :=
  ⟨s.error failure stage true, [], failure, false⟩

/-- The end of `outbox_source_fetch_one`: the run of a valid record is opened and requested. -/
def Source.startRun (s : Source) (a : FetchAnswers) (index : ℕ) (r : Record) (retainedBytes : ℕ) :
    Reply :=
  if a.build ≠ .ok then s.requeueRejected a.requeue index r.token a.build "message_copy"
  else if ¬ a.publisher then s.requeueRejected a.requeue index r.token .enomem "publisher"
  else if a.runOpen ≠ .ok then s.requeueRejected a.requeue index r.token a.runOpen "graph_open"
  else
    let started := [.started r.token s.nextMessageId]
    let slot := { Slot.zero with phase := .graphRunning, token := r.token, retainedBytes }
    let exhausted := s.nextMessageId = 2 ^ 64 - 1
    let s := { s.setSlot index slot with
      inFlightMessages := s.inFlightMessages + 1
      inFlightBytes := s.inFlightBytes + retainedBytes
      fetched := s.fetched + 1
      messageIdExhausted := exhausted
      nextMessageId := if exhausted then s.nextMessageId else s.nextMessageId + 1 }
    let served := { s with outstandingDemand := s.outstandingDemand - 1 }
    if a.request = .ok then ⟨served, started, .ok, true⟩
    else
      match a.snapshot with
      | .ended _ _ => ⟨served, started, .ok, true⟩
      | _ =>
        if a.cancel ≠ .ok ∧ a.cancel ≠ .ealready then
          ⟨s.error a.cancel "graph_cancel" true, started, a.cancel, false⟩
        else
          let slot := { slot with
            phase := .requeuePending
            graphStatus := a.request
            sourceFailure := if a.request = .enospc then none
              else some (a.request, "graph_request") }
          ⟨(s.setSlot index slot).error a.request "graph_request" false, started, a.request, true⟩

/-- What `outbox_source_fetch_one` does with the step of the provider. -/
def Source.takeStep (c : Config) (s : Source) (a : FetchAnswers) (index : ℕ) : Reply :=
  match a.step with
  | .malformed => s.reject .eproto "fetch_step"
  | .idle status => if status = .ok then ⟨s, [], .ok, false⟩ else s.reject .eproto "fetch_status"
  | .dataLoss status => s.reject (if status = .ok then .enoent else status) "data_loss"
  | .error status => s.reject (if status = .ok then .eio else status) "fetch"
  | .wait status valid =>
    if status ≠ .ok then s.reject .eproto "fetch_status"
    else if ¬ valid ∨ s.fetchWaitArmed then s.reject .eproto "fetch_wait"
    else if ¬ a.arms then { s with fetchWakePending := false }.reject .eproto "fetch_wait_arm"
    else
      ⟨{ s with fetchWakePending := false, fetchWaitArmed := true, state := .waiting }, [],
        .ok, true⟩
  | .unknown => s.reject .eproto "fetch_kind"
  | .record status r =>
    if r.token ≠ 0 ∧ s.slots.any fun slot => slot.phase ≠ .empty ∧ slot.token = r.token then
      s.reject .eproto "duplicate_token"
    else if status ≠ .ok then s.requeueRejected a.requeue index r.token .eproto "fetch_status"
    else
      match recordValidate c r (c.inFlightBytes - s.inFlightBytes) with
      | .error failure => s.requeueRejected a.requeue index r.token failure "record"
      | .ok retainedBytes => s.startRun a index r retainedBytes

def fetchOne (c : Config) (a : FetchAnswers) (s : Source) : Reply :=
  match s.slots.findIdx? fun slot => slot.phase = .empty with
  | none => ⟨s, [], .ok, false⟩
  | some index =>
    if s.outstandingDemand = 0 ∨ c.inFlightBytes ≤ s.inFlightBytes then ⟨s, [], .ok, false⟩
    else if s.messageIdExhausted ∨ s.fetched = 2 ^ 64 - 1 then s.reject .erange "message_id"
    else
      let freeSlots := s.slots.countP fun slot => slot.phase = .empty
      let maxRecords := min (min s.outstandingDemand c.fetchCount) freeSlots
      let reply := s.takeStep c a index
      { reply with events := .fetch maxRecords (c.inFlightBytes - s.inFlightBytes) :: reply.events }

structure StepAnswers where
  settle : SettleAnswers
  fetch : FetchAnswers

def pollLoop (c : Config) : List StepAnswers → Source → Reply
  | [], s => ⟨s, [], .ok, false⟩
  | a :: rest, s =>
    let settled := settleOne c a.settle s
    if settled.status ≠ .ok then settled
    else if settled.source.state = .failed then { settled with status := settled.source.status }
    else
      let fetched :=
        if ¬ settled.progressed ∧ settled.source.state = .running then
          fetchOne c a.fetch settled.source
        else ⟨settled.source, [], .ok, settled.progressed⟩
      let events := settled.events ++ fetched.events
      if fetched.status ≠ .ok ∨ ¬ fetched.progressed then { fetched with events }
      else
        let later := pollLoop c rest fetched.source
        { later with events := events ++ later.events }

/-- `turbo_flow_turbodb_outbox_source_poll`, with as many answers as `max_steps`. -/
def poll (c : Config) (answers : List StepAnswers) (s : Source) : Reply :=
  if answers.isEmpty then ⟨s, [], .einval, false⟩
  else
    match s.state with
    | .stopped => ⟨s, [], .eshutdown, false⟩
    | .failed => ⟨s, [], s.status, false⟩
    | .waiting =>
      if s.fetchWakePending then
        pollLoop c answers
          { s with fetchWakePending := false, fetchWaitArmed := false, state := .running }
      else ⟨s, [], .ok, false⟩
    | _ => pollLoop c answers s

def request (demand : ℕ) (s : Source) : Reply :=
  if demand = 0 then ⟨s, [], .einval, false⟩
  else
    match s.state with
    | .failed => ⟨s, [], s.status, false⟩
    | .running | .waiting =>
      ⟨{ s with outstandingDemand := min (s.outstandingDemand + demand) (2 ^ 64 - 1) }, [],
        .ok, false⟩
    | _ => ⟨s, [], .eshutdown, false⟩

/-- The loop of a stop that cancels the runs and requeues every slot, up to the first that cannot be
canceled. -/
def cancelSlots (cancel : ℕ → Status) : List Slot → ℕ → List Slot × Status
  | [], _ => ([], .ok)
  | slot :: slots, index =>
    if slot.phase = .graphRunning ∧ cancel index ≠ .ok ∧ cancel index ≠ .ealready then
      (slot :: slots, cancel index)
    else
      let (later, rc) := cancelSlots cancel slots (index + 1)
      (if slot.phase = .empty then slot :: later
        else { slot with phase := .requeuePending, sourceFailure := none } :: later, rc)

def drain (c : Config) (s : Source) : List SettleAnswers → Option Reply
  | [] =>
    if s.inFlightMessages = 0 then some ⟨{ s with state := .stopped }.clear, [], .ok, true⟩
    else none
  | a :: rest =>
    if s.inFlightMessages = 0 then none
    else
      let settled := settleOne c a s
      if settled.status ≠ .ok then some settled
      else if ¬ settled.progressed then
        some ⟨settled.source.error .ebusy "graph_cancel" false, settled.events, .ebusy, false⟩
      else
        (drain c settled.source rest).map fun later =>
          { later with events := settled.events ++ later.events }

structure StopAnswers where
  cancelFetch : Status
  cancel : ℕ → Status
  settle : List SettleAnswers

def stop (c : Config) (a : StopAnswers) (s : Source) : Option Reply :=
  if s.state = .stopped then some ⟨s, [], .ealready, false⟩
  else
    let s := { s with state := .stopping, fetchWaitArmed := false }
    if a.cancelFetch ≠ .ok then
      some ⟨s.error a.cancelFetch "cancel_fetch" false, [], a.cancelFetch, false⟩
    else
      let (slots, rc) := cancelSlots a.cancel s.slots 0
      let s := { s with slots }
      if rc ≠ .ok then some ⟨s.error rc "graph_cancel" false, [], rc, false⟩ else drain c s a.settle

inductive Operation
  | request (demand : ℕ)
  | poll (answers : List StepAnswers)
  | stop (answers : StopAnswers)
  | wake

def act (c : Config) (s : Source) : Operation → Option (Source × List Event × Status)
  | .request demand => some ((request demand s).source, [], (request demand s).status)
  | .poll answers => let r := poll c answers s; some (r.source, r.events, r.status)
  | .stop answers => (stop c answers s).map fun r => (r.source, r.events, r.status)
  | .wake => some ({ s with fetchWakePending := true }, [], .ok)

end TurboFlow.Outbox
