import TurboFlow.Durable.Record
import TurboFlow.Inbox.Ownership
import TurboFlow.Inbox.Scan
import TurboFlow.Inbox.System

/-!
# The drain of a durable buffer

A binding drains its inbox with up to 64 drivers. A progress call polls the drivers in use, collects
their partitions, and then hands claims to idle drivers, excluding these partitions.

`step` performs one operation on a binding. A progress call is one operation for every round of its
two loops, so that admissions and operator calls interleave with it. The calls that use the drivers
are serialized by the caller.
-/

namespace TurboFlow.Durable

open Inbox Word List

structure AcceptedDrain extends DrainConfig where
  valid : drainConfigValid toDrainConfig

/-- `turbo_flow_durable_buffer_binding_t` without its metrics. The stage is resolved when the flow
is compiled. -/
structure Binding where
  encoding : Encoding
  stageIndex : Option ℕ
  sequence : ℕ
  drain : AcceptedDrain
  drivers : Fin maxWorkers → Option OwnedDriver
  drainPaused : Bool
  partitionBlocked : ℕ
  workerSaturated : ℕ

namespace Binding

def effectiveWorkers (b : Binding) : ℕ :=
  match b.drain.ordering with
  | .global => 1
  | .partition => b.drain.workers

def driverAt (b : Binding) (index : ℕ) : Option OwnedDriver :=
  if h : index < maxWorkers then b.drivers ⟨index, h⟩ else none

/-- Write a driver through `flow_durable_buffer_driver_slot`. -/
def setDriver (b : Binding) (index : ℕ) (driver : OwnedDriver) : Binding :=
  { b with
    drivers := fun i => if (i : ℕ) = index then some driver else b.drivers i }

def claimAt (b : Binding) (index : ℕ) : Option Claim :=
  (b.driverAt index).bind OwnedDriver.claim

def driversIdle (b : Binding) : Bool :=
  (range maxWorkers).all fun index =>
    (b.driverAt index).all fun driver => driver.status.state = .empty

/-- `flow_durable_buffer_destroy_drivers` of a binding whose drivers are idle. -/
def destroyDrivers (b : Binding) : Binding :=
  { b with drivers := fun _ => none }

def candidates (b : Binding) (p : DriverState → Bool) : List (ℕ × OwnedDriver) :=
  (range maxWorkers).filterMap fun index =>
    match b.driverAt index with
    | none => none
    | some driver => if p driver.status.state then some (index, driver) else none

/-- `flow_durable_buffer_validate_provider`; the handle of the provider does not change. -/
def validateProvider (b : Binding) (memory : Memory) : Status :=
  match inboxSnapshot memory with
  | .error rc => rc
  | .ok snapshot =>
    if snapshot.generation = b.encoding.providerGeneration then .ok else .ecanceled

def keyPolicy (drain : DrainConfig) : PartitionBy :=
  match drain.ordering with
  | .partition => drain.partitionBy
  | .global => .sourceId

def configureDrain (b : Binding) (memory : Memory) (config : DrainConfig) : Binding × Status :=
  if h : drainConfigValid config then
    if b.validateProvider memory ≠ .ok then (b, b.validateProvider memory)
    else if ¬ b.driversIdle then (b, .ebusy)
    else
      let configured : Binding :=
        { b.destroyDrivers with
          drain := ⟨config, h⟩
          partitionBlocked := 0
          workerSaturated := 0 }
      if keyPolicy b.drain.toDrainConfig = keyPolicy config then (configured, .ok)
      else
        match inboxSnapshot memory with
        | .error rc => (b, rc)
        | .ok snapshot =>
          if snapshot.records ≠ 0 ∨ snapshot.inFlightClaims ≠ 0 then (b, .ebusy)
          else (configured, .ok)
  else (b, .einval)

/-- `flow_durable_buffer_resolve_bindings` for one binding, which gets the stage of the new plan. -/
def resolve (b : Binding) (stageIndex : Option ℕ) : Binding × Status :=
  if ¬ b.driversIdle then (b, .ebusy) else ({ b.destroyDrivers with stageIndex }, .ok)

/-- `flow_durable_buffer_ensure_driver`; `created` is the result of creating a driver. -/
def ensureDriver (b : Binding) (index : ℕ) (created : Status) : Binding × Status :=
  if index ≥ b.effectiveWorkers then (b, .einval)
  else
    match b.stageIndex with
    | none => (b, .einval)
    | some stage =>
      if stage > 2 ^ 32 - 1 then (b, .einval)
      else if (b.driverAt index).isSome then (b, .ok)
      else if created ≠ .ok then (b, created)
      else (b.setDriver index .create, .ok)

end Binding

/-- An error that the inbox reports in place of its answer to a settlement, applied or not. -/
structure Fault where
  applied : Bool
  status : Status
  error : status ≠ .ok

def settlementOperation (claim : Claim) : Settlement → Operation
  | .complete => .complete claim.recordId claim.claimToken
  | .fail status => .fail claim.recordId claim.claimToken status

def settleClaim (inbox : System) (claim : Claim) (settlement : Settlement) : System × Status :=
  match act inbox (settlementOperation claim settlement) with
  | some (inbox', .status rc) => (inbox', rc)
  | _ => (inbox, .eproto)

def answerSettlement (inbox : System) (claim : Claim) (fault : Option Fault)
    (settlement : Settlement) : System × Status :=
  match fault with
  | none => settleClaim inbox claim settlement
  | some fault =>
    (if fault.applied then (settleClaim inbox claim settlement).1 else inbox, fault.status)

def settlementOf (call : OwnedCall) : Option Settlement :=
  call.events.findSome? fun
    | .settled settlement _ => some settlement
    | _ => none

/-- A call of a driver that holds `claim`, and the inbox behind it. -/
def settling (inbox : System) (claim : Claim) (fault : Option Fault)
    (call : (Settlement → Status) → OwnedCall) : System × OwnedCall :=
  let made := call fun settlement => (answerSettlement inbox claim fault settlement).2
  (match settlementOf made with
    | none => inbox
    | some settlement => (answerSettlement inbox claim fault settlement).1, made)

structure PollInput where
  run : Reactive.Run
  pending : Bool
  fault : Option Fault

structure StartInput where
  build : Status
  publisher : Bool
  opened : Status
  observers : Status
  requested : Status
  state : Reactive.RunState
  canceled : Status
  poll : PollInput

/-- `flow_inbox_driver_poll` of a driver of the binding. -/
def pollOwned (inbox : System) (driver : OwnedDriver) (input : PollInput) : System × OwnedCall :=
  match driver.claim with
  | none => (inbox, driver.refuse .enoent .init)
  | some claim =>
    settling inbox claim input.fault fun answer =>
      driver.poll ⟨input.run, input.pending, answer⟩

/-- `flow_inbox_driver_retry_settlement` of a driver of the binding. -/
def retryOwned (inbox : System) (driver : OwnedDriver) (fault : Option Fault) :
    System × OwnedCall :=
  match driver.claim with
  | none => (inbox, driver.refuse .einval .init)
  | some claim => settling inbox claim fault driver.retrySettlement

/-- `flow_inbox_driver_reconcile_settlement` of a driver of the binding, with the two scans. -/
def reconcileOwned (memory : Memory) (driver : OwnedDriver) : OwnedCall :=
  driver.reconcileSettlement
    ((inboxScanFailed memory (sub64 driver.core.recordId 1) 1).map List.head?)
    ((inboxScanHistory memory (sub64 driver.core.recordId 1) 1).map List.head?)

/-- The checks of `flow_inbox_driver_request_internal` in front of the claim. -/
def requestRefusal (driver : OwnedDriver) (drain started : Bool) (admission : FlowAdmission) :
    Option Status :=
  if driver.core.phase ≠ .idle then some .ebusy
  else if ¬ started then some .eshutdown
  else if ¬ (admission = .opened ∨ drain ∧ admission = .paused) then some .eshutdown
  else none

/-- The part of `flow_inbox_driver_request_internal` behind the claim. -/
def startOwned (inbox : System) (driver : OwnedDriver) (claim : Claim) (input : StartInput) :
    System × OwnedCall :=
  settling inbox claim input.poll.fault fun answer =>
    requestClaimed driver.core claim
      { started := true
        admission := .opened
        claim := .ok claim
        build := input.build
        publisher := input.publisher
        opened := input.opened
        observers := input.observers
        requested := input.requested
        state := input.state
        canceled := input.canceled
        poll := ⟨input.poll.run, input.poll.pending, answer⟩ }

structure Pass where
  draining : Bool
  index : ℕ
  active : ℕ
  excluded : List Bytes
  hadLiveWorker : Bool

structure Refill where
  draining : Bool
  index : ℕ
  active : ℕ
  started : ℕ
  claimBudget : ℕ
  excluded : List Bytes
  pendingRecords : ℕ
  inFlightClaims : ℕ

/-- The progress call on a binding. In `claimed` the driver at the index has a claim and has not
started the graph. -/
inductive Call
  | none
  | polling (pass : Pass)
  | refilling (refill : Refill)
  | claimed (refill : Refill) (claim : Claim)

structure Buffer where
  binding : Binding
  inbox : System
  call : Call

inductive InboxCall
  | commit (k : ℕ)
  | copyFailed (k : ℕ)
  | retry (recordId : ℕ)
  | discard (recordId : ℕ)
  | forget (recordId : ℕ)
  | close
  | snapshot

def InboxCall.operation : InboxCall → Operation
  | .commit k => .commit k
  | .copyFailed k => .copyFailed k
  | .retry recordId => .retry recordId
  | .discard recordId => .discard recordId
  | .forget recordId => .forget recordId
  | .close => .close
  | .snapshot => .snapshot

def InboxCall.checked : InboxCall → Bool
  | .commit _ | .copyFailed _ => false
  | _ => true

structure RequestInput where
  created : Status
  started : Bool
  admission : FlowAdmission

/-- The operations on a buffer. `start`, `poll`, `refill`, `request` and `finish` continue the
progress call. -/
inductive BufferOp
  | admitStage (message : Message)
  | inbox (call : InboxCall)
  | configureDrain (config : DrainConfig)
  | resolve (stageIndex : Option ℕ)
  | pauseDrain (paused : Bool)
  | retrySettlement (fault : Option Fault)
  | reconcileSettlement
  | progress (draining : Bool)
  | poll (input : PollInput)
  | refill (started : Bool)
  | request (input : RequestInput)
  | start (input : StartInput)
  | finish

/-- What an operation reports: the status of a call, the outcome of an operation on the inbox, or a
claim request with its answer. -/
inductive BufferOutcome
  | returned (rc : Status)
  | continued
  | inbox (out : Outcome)
  | requested (request : ClaimRequest) (answer : Except Status Claim)

namespace Buffer

def ends (s : Buffer) (rc : Status) : Buffer × BufferOutcome :=
  ({ s with call := .none }, .returned rc)

/-- `flow_durable_buffer_admit_stage` up to the first critical section of the inbox. -/
def admitStage (s : Buffer) (message : Message) : Option (Buffer × BufferOutcome) :=
  if s.binding.stageIndex = none then some (s, .returned .eproto)
  else if s.binding.validateProvider s.inbox.memory ≠ .ok then
    some (s, .returned (s.binding.validateProvider s.inbox.memory))
  else
    let encoded :=
      encodeRecord s.binding.encoding s.binding.drain.toDrainConfig s.binding.sequence message
    let s := { s with binding := { s.binding with sequence := encoded.1 } }
    match encoded.2 with
    | .error rc => some (s, .returned rc)
    | .ok record =>
      (act s.inbox (.admitRecord record)).map fun r => ({ s with inbox := r.1 }, .inbox r.2)

def inboxCall (s : Buffer) (call : InboxCall) : Option (Buffer × BufferOutcome) :=
  if call.checked ∧ s.binding.validateProvider s.inbox.memory ≠ .ok then
    some (s, .returned (s.binding.validateProvider s.inbox.memory))
  else
    (act s.inbox call.operation).map fun r => ({ s with inbox := r.1 }, .inbox r.2)

def retrySettlement (s : Buffer) (fault : Option Fault) : Buffer × BufferOutcome :=
  if s.binding.validateProvider s.inbox.memory ≠ .ok then
    s.ends (s.binding.validateProvider s.inbox.memory)
  else
    match s.binding.candidates fun state =>
        state = .settlementPending ∨ state = .settlementUnknown with
    | [] => s.ends .einval
    | [(index, driver)] =>
      let (inbox, call) := retryOwned s.inbox driver fault
      ends { s with inbox, binding := s.binding.setDriver index call.driver } call.status
    | _ => s.ends .ebusy

def reconcileSettlement (s : Buffer) : Buffer × BufferOutcome :=
  if s.binding.validateProvider s.inbox.memory ≠ .ok then
    s.ends (s.binding.validateProvider s.inbox.memory)
  else
    match s.binding.candidates (· = .settlementUnknown) with
    | [] => s.ends .einval
    | [(index, driver)] =>
      let call := reconcileOwned s.inbox.memory driver
      ends { s with binding := s.binding.setDriver index call.driver } call.status
    | _ => s.ends .ebusy

/-- `flow_durable_buffer_progress_internal` in front of its loops. -/
def progress (s : Buffer) (draining : Bool) : Buffer × BufferOutcome :=
  if s.binding.validateProvider s.inbox.memory ≠ .ok then
    s.ends (s.binding.validateProvider s.inbox.memory)
  else if s.binding.effectiveWorkers = 0 ∨ s.binding.effectiveWorkers > maxWorkers then
    s.ends .eproto
  else ({ s with call := .polling ⟨draining, 0, 0, [], false⟩ }, .continued)

def exclude (ordering : DrainOrdering) (excluded : List Bytes) (driver : OwnedDriver) :
    Except Status (List Bytes) :=
  match ordering with
  | .global => .ok excluded
  | .partition =>
    match driver.activePartition with
    | .error rc => .error rc
    | .ok key => if excluded.length ≥ maxWorkers then .error .eproto else .ok (excluded ++ [key])

def polled (s : Buffer) (pass : Pass) (driver : OwnedDriver) (live : Bool) :
    Buffer × BufferOutcome :=
  let pass := { pass with index := pass.index + 1, hadLiveWorker := pass.hadLiveWorker || live }
  if driver.status.state = .empty then ({ s with call := .polling pass }, .continued)
  else
    match exclude s.binding.drain.ordering pass.excluded driver with
    | .error rc => s.ends rc
    | .ok excluded =>
      ({ s with call := .polling { pass with active := pass.active + 1, excluded } }, .continued)

def poll (s : Buffer) (pass : Pass) (input : PollInput) : Buffer × BufferOutcome :=
  match s.binding.driverAt pass.index with
  | none => ({ s with call := .polling { pass with index := pass.index + 1 } }, .continued)
  | some driver =>
    let result := driver.status
    match result.state with
    | .settlementPending | .settlementUnknown =>
      s.ends (if result.settlementStatus ≠ .ok then result.settlementStatus else .ebusy)
    | .graphActive =>
      let (inbox, call) := pollOwned s.inbox driver input
      let s := { s with inbox, binding := s.binding.setDriver pass.index call.driver }
      if call.status ≠ .ok then s.ends call.status else s.polled pass call.driver true
    | _ => s.polled pass driver (result.state ≠ .empty)

def refill (s : Buffer) (pass : Pass) (started : Bool) : Buffer × BufferOutcome :=
  let drain := s.binding.drain
  if drain.ordering = .global ∧ pass.hadLiveWorker then s.ends .ok
  else if ¬ started then s.ends .eshutdown
  else if ¬ pass.draining ∧ s.binding.drainPaused then s.ends .ok
  else
    match inboxSnapshot s.inbox.memory with
    | .error rc => s.ends rc
    | .ok provider =>
      if pass.active > drain.maxInFlight ∨ provider.inFlightClaims > drain.maxInFlight then
        s.ends .eproto
      else
        let claimBudget :=
          min (min drain.batchClaim (sub64 s.binding.effectiveWorkers pass.active))
            (sub64 drain.maxInFlight provider.inFlightClaims)
        ({ s with
            call := .refilling
              { draining := pass.draining
                index := 0
                active := pass.active
                started := 0
                claimBudget
                excluded := pass.excluded
                pendingRecords := provider.pendingRecords
                inFlightClaims := provider.inFlightClaims } }, .continued)

def refills (s : Buffer) (refill : Refill) : Bool :=
  refill.index < s.binding.effectiveWorkers ∧ refill.started < refill.claimBudget

def finish (s : Buffer) (refill : Refill) : Buffer × BufferOutcome :=
  let saturated :=
    refill.pendingRecords ≠ 0 ∧
      (refill.active ≥ s.binding.effectiveWorkers ∨
        refill.inFlightClaims ≥ s.binding.drain.maxInFlight) ∧
      s.binding.workerSaturated ≠ max64
  ends
    (if saturated then
      { s with binding := { s.binding with workerSaturated := s.binding.workerSaturated + 1 } }
    else s) .ok

def blocked (s : Buffer) (refill : Refill) : Buffer × BufferOutcome :=
  let counted :=
    s.binding.drain.ordering = .partition ∧ refill.pendingRecords ≠ 0 ∧
      s.binding.partitionBlocked ≠ max64
  finish
    (if counted then
      { s with binding := { s.binding with partitionBlocked := s.binding.partitionBlocked + 1 } }
    else s) refill

def claimRequest (s : Buffer) (refill : Refill) : ClaimRequest :=
  match s.binding.drain.ordering with
  | .global => claimRequestInit
  | .partition => ⟨.partitionKey, refill.excluded⟩

def request (s : Buffer) (refill : Refill) (input : RequestInput) : Buffer × BufferOutcome :=
  let (binding, rc) := s.binding.ensureDriver refill.index input.created
  let s := { s with binding }
  if rc ≠ .ok then s.ends rc
  else
    match binding.driverAt refill.index with
    | none => s.ends .eproto
    | some driver =>
      if driver.status.state ≠ .empty then
        ({ s with call := .refilling { refill with index := refill.index + 1 } }, .continued)
      else
        match requestRefusal driver refill.draining input.started input.admission with
        | some rc => s.ends rc
        | none =>
          let request := s.claimRequest refill
          let (memory, answer) := inboxClaim s.inbox.memory request
          let s := { s with inbox := { s.inbox with memory } }
          match answer with
          | .error .enoent => ((s.blocked refill).1, .requested request answer)
          | .error rc => ((s.ends rc).1, .requested request answer)
          | .ok claim => ({ s with call := .claimed refill claim }, .requested request answer)

def start (s : Buffer) (refill : Refill) (claim : Claim) (input : StartInput) :
    Buffer × BufferOutcome :=
  match s.binding.driverAt refill.index with
  | none => s.ends .eproto
  | some driver =>
    let (inbox, call) := startOwned s.inbox driver claim input
    let s := { s with inbox, binding := s.binding.setDriver refill.index call.driver }
    if call.status = .enoent then s.blocked refill
    else if call.status ≠ .ok then s.ends call.status
    else
      match exclude s.binding.drain.ordering refill.excluded call.driver with
      | .error rc => s.ends rc
      | .ok excluded =>
        ({ s with
            call := .refilling
              { refill with
                index := refill.index + 1
                active := refill.active + 1
                started := refill.started + 1
                excluded
                pendingRecords := refill.pendingRecords - 1
                inFlightClaims := refill.inFlightClaims + 1 } }, .continued)

def step (s : Buffer) : BufferOp → Option (Buffer × BufferOutcome)
  | .admitStage message => s.admitStage message
  | .inbox call => s.inboxCall call
  | .pauseDrain paused =>
    if s.binding.validateProvider s.inbox.memory ≠ .ok then
      some (s, .returned (s.binding.validateProvider s.inbox.memory))
    else
      some ({ s with binding := { s.binding with drainPaused := paused } }, .returned .ok)
  | .configureDrain config =>
    match s.call with
    | .none =>
      let (binding, rc) := s.binding.configureDrain s.inbox.memory config
      some ({ s with binding }, .returned rc)
    | _ => none
  | .resolve stageIndex =>
    match s.call with
    | .none =>
      let (binding, rc) := s.binding.resolve stageIndex
      some ({ s with binding }, .returned rc)
    | _ => none
  | .retrySettlement fault =>
    match s.call with
    | .none => some (s.retrySettlement fault)
    | _ => none
  | .reconcileSettlement =>
    match s.call with
    | .none => some s.reconcileSettlement
    | _ => none
  | .progress draining =>
    match s.call with
    | .none => some (s.progress draining)
    | _ => none
  | .poll input =>
    match s.call with
    | .polling pass =>
      if pass.index < s.binding.effectiveWorkers then some (s.poll pass input) else none
    | _ => none
  | .refill started =>
    match s.call with
    | .polling pass =>
      if pass.index < s.binding.effectiveWorkers then none else some (s.refill pass started)
    | _ => none
  | .request input =>
    match s.call with
    | .refilling refill => if s.refills refill then some (s.request refill input) else none
    | _ => none
  | .start input =>
    match s.call with
    | .claimed refill claim => some (s.start refill claim input)
    | _ => none
  | .finish =>
    match s.call with
    | .refilling refill => if s.refills refill then none else some (s.finish refill)
    | _ => none

/-- The buffer right after `turbo_flow_durable_buffer_bind` to a new memory inbox. -/
def bind (identityMode : IdentityMode) (maxMessageBytes : ℕ) (admissionNamespace stageName : String)
    (memory : Memory) : Buffer where
  binding :=
    { encoding :=
        { identityMode
          maxMessageBytes
          providerGeneration := (memorySnapshot memory).generation
          admissionNamespace
          stageName }
      stageIndex := none
      sequence := 0
      drain := ⟨drainConfigInit, by decide⟩
      drivers := fun _ => none
      drainPaused := false
      partitionBlocked := 0
      workerSaturated := 0 }
  inbox := .init memory
  call := .none

end Buffer

end TurboFlow.Durable
