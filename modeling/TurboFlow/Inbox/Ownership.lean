import TurboFlow.Inbox.Driver
import TurboFlow.Inbox.Settlement

/-!
# The calls of the inbox driver

`request` claims a record, builds its message and starts the graph, `poll` and `cancel` settle the
claim when the graph has ended, `retrySettlement` repeats the settlement and `reconcileSettlement`
reads the outcome of one that the inbox called settled already. The answers of inbox and runtime are
parameters of a call, which reports its events in order.
-/

namespace TurboFlow.Inbox

/-- What a driver does to its inbox and its graph. `reconciled` are the two index entries that
settled an unknown outcome. -/
inductive DriverEvent
  | claimRefused (rc : Status)
  | claimed (claim : Claim)
  | executed
  | ended (state : Reactive.RunState) (status : Status)
  | settled (settlement : Settlement) (answer : Status)
  | reconciled (failed : Option FailedEntry) (history : Option HistoryEntry)

/-- `flow_inbox_driver_s`: a driver holds a claim exactly when it is not idle. -/
structure OwnedDriver where
  core : Driver
  claim : Option Claim
  held : claim.isSome ↔ core.phase ≠ .idle

structure OwnedCall where
  driver : OwnedDriver
  status : Status
  result : DriverResult
  events : List DriverEvent

inductive FlowAdmission
  | closed
  | opened
  | paused
  | resizing
  | stopping
  deriving DecidableEq

structure PollEnv where
  run : Reactive.Run
  pending : Bool
  inbox : Settlement → Status

/-- What the flow, the inbox and the runtime answer during a request. `observers` is `ok` without a
completion observer. -/
structure RequestEnv where
  started : Bool
  admission : FlowAdmission
  claim : Except Status Claim
  build : Status
  publisher : Bool
  opened : Status
  observers : Status
  requested : Status
  state : Reactive.RunState
  canceled : Status
  poll : PollEnv

namespace OwnedDriver

@[simp] def ofCore (claim : Claim) (core : Driver) : OwnedDriver where
  core
  claim := if core.phase = .idle then none else some claim
  held := by
    by_cases h : core.phase = .idle <;> simp [h]

def create : OwnedDriver where
  core := Driver.release
  claim := none
  held := by simp [Driver.release]

def activePartition (d : OwnedDriver) : Except Status Bytes :=
  match d.claim with
  | none => .error .enoent
  | some claim =>
    if claim.record.partitionKey = [] then .error .eproto else .ok claim.record.partitionKey

def status (d : OwnedDriver) : DriverResult :=
  d.core.result
    (match d.core.phase with
    | .idle => .empty
    | .graphRunning => .graphActive
    | .settleUnknown => .settlementUnknown
    | .settleComplete | .settleFail => .settlementPending)

def refuse (d : OwnedDriver) (status : Status) (result : DriverResult) : OwnedCall where
  driver := d
  status
  result
  events := []

end OwnedDriver

/-- The events of a call of `settle`. -/
def DriverCall.events (call : DriverCall) (inbox : Settlement → Status) : List DriverEvent :=
  match call.settlement with
  | some settlement => [.settled settlement (inbox settlement)]
  | none => []

/-- A call that goes through `settle`, after the events `before`. -/
@[simp] def DriverCall.owned (call : DriverCall) (claim : Claim) (before : List DriverEvent)
    (inbox : Settlement → Status) : OwnedCall where
  driver := .ofCore claim call.driver
  status := call.status
  result := call.result
  events := before ++ call.events inbox

/-- The driver with which `flow_inbox_source_fail_claim` calls `settle`. -/
def Driver.failing (core : Driver) (graphStatus : Status) : Driver :=
  { core with
    graphStatus := if graphStatus = .ok then .eproto else graphStatus
    phase := .settleFail }

def failClaim (core : Driver) (claim : Claim) (graphStatus : Status)
    (inbox : Settlement → Status) : OwnedCall :=
  let failing := core.failing graphStatus
  let call := failing.settle inbox
  { call.owned claim [.claimed claim] inbox with
    status :=
      if call.result.settlementStatus = .ok then failing.graphStatus else call.status }

def Driver.noted (core : Driver) (env : PollEnv) : List DriverEvent :=
  if core.phase = .graphRunning ∧
      ¬ (env.run.state = .opened ∨ env.run.state = .active ∨ env.pending) then
    [.ended env.run.state env.run.status]
  else []

/-- `flow_inbox_driver_poll` of a driver that holds `claim`, after the events `before`. -/
def pollClaim (core : Driver) (claim : Claim) (before : List DriverEvent) (env : PollEnv) :
    OwnedCall :=
  (core.poll env.run env.pending env.inbox).owned claim (before ++ core.noted env) env.inbox

/-- `flow_inbox_driver_request_internal` from the claim on. -/
def requestClaimed (core : Driver) (claim : Claim) (env : RequestEnv) : OwnedCall :=
  let core := { core with recordId := claim.recordId }
  if env.build ≠ .ok then failClaim core claim env.build env.poll.inbox
  else if ¬ env.publisher then failClaim core claim .enomem env.poll.inbox
  else if env.opened ≠ .ok then failClaim core claim env.opened env.poll.inbox
  else if env.observers ≠ .ok then failClaim core claim env.observers env.poll.inbox
  else
    let core := { core with phase := .graphRunning }
    let running (status : Status) : OwnedCall :=
      { driver := .ofCore claim core, status, result := .init,
        events := [.claimed claim, .executed] }
    if env.requested = .ok then running .ok
    else if env.state ≠ .opened ∧ env.state ≠ .active then running .ok
    else if env.canceled ≠ .ok ∧ env.canceled ≠ .ealready then running env.canceled
    else
      let core :=
        if env.canceled = .ok then { core with requestFailureStatus := env.requested } else core
      pollClaim core claim [.claimed claim, .executed] env.poll

namespace OwnedDriver

def request (d : OwnedDriver) (drain : Bool) (env : RequestEnv) : OwnedCall :=
  if d.core.phase ≠ .idle then d.refuse .ebusy .init
  else if ¬ env.started then d.refuse .eshutdown .init
  else if ¬ (env.admission = .opened ∨ drain ∧ env.admission = .paused) then
    d.refuse .eshutdown .init
  else
    match env.claim with
    | .error rc => { d.refuse rc .init with events := [.claimRefused rc] }
    | .ok claim => requestClaimed d.core claim env

def poll (d : OwnedDriver) (env : PollEnv) : OwnedCall :=
  match d.claim with
  | none => d.refuse .enoent .init
  | some claim => pollClaim d.core claim [] env

/-- `flow_inbox_driver_cancel`; `canceled` is the answer of `turbo_flow_run_cancel`. -/
def cancel (d : OwnedDriver) (canceled : Status) (env : PollEnv) : OwnedCall :=
  match d.claim with
  | none => d.refuse .ealready .init
  | some claim =>
    if d.core.phase ≠ .graphRunning then
      d.refuse .ebusy
        (d.core.result
          (if d.core.phase = .settleUnknown then .settlementUnknown else .settlementPending))
    else if canceled ≠ .ok ∧ canceled ≠ .ealready then
      d.refuse canceled (d.core.result .graphActive)
    else
      let core :=
        if canceled = .ok then { d.core with requestFailureStatus := .ecanceled } else d.core
      pollClaim core claim [] env

def retrySettlement (d : OwnedDriver) (inbox : Settlement → Status) : OwnedCall :=
  match d.claim with
  | none => d.refuse .einval .init
  | some claim =>
    match d.core.phase with
    | .settleUnknown => d.refuse .ealready (d.core.result .settlementUnknown)
    | .settleComplete | .settleFail => (d.core.settle inbox).owned claim [] inbox
    | .idle | .graphRunning => d.refuse .einval .init

def reconciled (d : OwnedDriver) (state : DriverState) (settlementStatus status : Status)
    (failed : Option FailedEntry) (history : Option HistoryEntry) : OwnedCall where
  driver := create
  status
  result := { d.core.result state with settlementStatus }
  events := [.reconciled failed history]

def failedMatch (d : OwnedDriver) (failed : Option FailedEntry) : Option FailedEntry :=
  failed.filter (·.recordId = d.core.recordId)

def historyMatch (d : OwnedDriver) (history : Option HistoryEntry) : Option HistoryEntry :=
  history.filter (·.recordId = d.core.recordId)

def outcomeExpected (d : OwnedDriver) (failed : Option FailedEntry)
    (history : Option HistoryEntry) : Bool :=
  if d.core.graphStatus = .ok then history.any (·.kind = .completed)
  else
    failed.any (fun entry => entry.kind = .processing ∧ entry.status = d.core.graphStatus) ∨
      history.any (·.kind = .discarded)

/-- `flow_inbox_driver_reconcile_settlement` behind the scans, with the entries of the record. -/
def reconcileMatched (d : OwnedDriver) (failed : Option FailedEntry)
    (history : Option HistoryEntry) : OwnedCall :=
  if failed.isSome ∧ history.isSome then d.refuse .eproto (d.core.result .settlementUnknown)
  else if failed.isNone ∧ history.isNone then d.refuse .ebusy (d.core.result .settlementUnknown)
  else if failed.any (·.kind = .ownerLostUnknown) then
    d.reconciled .ownerLostUnknown .ecanceled .ecanceled failed history
  else if ¬ d.outcomeExpected failed history then
    d.refuse .eproto (d.core.result .settlementUnknown)
  else
    d.reconciled (if d.core.graphStatus = .ok then .completed else .failed) .ok
      d.core.graphStatus failed history

/-- `flow_inbox_driver_reconcile_settlement`; the scans of both indexes behind the id before the
record's return at most one entry each. -/
def reconcileSettlement (d : OwnedDriver) (scanFailed : Except Status (Option FailedEntry))
    (scanHistory : Except Status (Option HistoryEntry)) : OwnedCall :=
  if d.core.phase ≠ .settleUnknown then d.refuse .einval .init
  else
    match scanFailed, scanHistory with
    | .error rc, _ => d.refuse rc (d.core.result .settlementUnknown)
    | .ok _, .error rc => d.refuse rc (d.core.result .settlementUnknown)
    | .ok failed, .ok history =>
      d.reconcileMatched (d.failedMatch failed) (d.historyMatch history)

end OwnedDriver

end TurboFlow.Inbox
