import TurboFlow.Reactive.System

/-!
# The inbox driver

The driver claims one record of an inbox, runs the graph on it as a reactive run, and settles the
record by the way the run ended. The answer of the inbox to the settlement is a parameter.
-/

namespace TurboFlow.Inbox

inductive DriverPhase
  | idle
  | graphRunning
  | settleComplete
  | settleFail
  | settleUnknown
  deriving DecidableEq

inductive DriverState
  | empty
  | graphActive
  | completed
  | failed
  | settlementPending
  | settlementUnknown
  | ownerLostUnknown
  deriving DecidableEq

structure DriverResult where
  state : DriverState
  recordId : ℕ
  graphStatus : Status
  settlementStatus : Status

def DriverResult.init : DriverResult where
  state := .empty
  recordId := 0
  graphStatus := .ok
  settlementStatus := .ok

inductive Settlement
  | complete
  | fail (status : Status)

/-- `flow_inbox_driver_s` between its calls. -/
structure Driver where
  phase : DriverPhase
  recordId : ℕ
  graphStatus : Status
  settlementStatus : Status
  requestFailureStatus : Status

structure DriverCall where
  driver : Driver
  result : DriverResult
  status : Status
  settlement : Option Settlement

namespace Driver

def result (d : Driver) (state : DriverState) : DriverResult where
  state
  recordId := d.recordId
  graphStatus := d.graphStatus
  settlementStatus := d.settlementStatus

def release : Driver where
  phase := .idle
  recordId := 0
  graphStatus := .ok
  settlementStatus := .ok
  requestFailureStatus := .ok

/-- `flow_inbox_source_settle`; `inbox` answers the settlement. -/
def settle (d : Driver) (inbox : Settlement → Status) : DriverCall :=
  if d.phase = .settleComplete ∨ d.phase = .settleFail then
    let settlement := if d.phase = .settleComplete then .complete else .fail d.graphStatus
    let status := inbox settlement
    let d := { d with settlementStatus := status }
    match status with
    | .ok =>
      { driver := release
        result := d.result (if d.phase = .settleComplete then .completed else .failed)
        status := d.graphStatus
        settlement := some settlement }
    | .ecanceled =>
      { driver := release
        result := d.result .ownerLostUnknown
        status := .ecanceled
        settlement := some settlement }
    | .ealready =>
      { driver := { d with phase := .settleUnknown }
        result := d.result .settlementUnknown
        status
        settlement := some settlement }
    | status =>
      { driver := d
        result := d.result .settlementPending
        status
        settlement := some settlement }
  else { driver := d, result := .init, status := .einval, settlement := none }

def endStatus (d : Driver) (run : Reactive.Run) : Status :=
  if run.state = .canceled ∧ d.requestFailureStatus ≠ .ok then d.requestFailureStatus
  else run.status

/-- `flow_inbox_driver_poll` of a driver whose run is `run`, after `pending` was read from
`flow_run_has_pending_values`. -/
def poll (d : Driver) (run : Reactive.Run) (pending : Bool) (inbox : Settlement → Status) :
    DriverCall :=
  match d.phase with
  | .idle => { driver := d, result := .init, status := .enoent, settlement := none }
  | .settleComplete | .settleFail =>
    { driver := d, result := d.result .settlementPending, status := .ebusy, settlement := none }
  | .settleUnknown =>
    { driver := d, result := d.result .settlementUnknown, status := .ebusy, settlement := none }
  | .graphRunning =>
    if run.state = .opened ∨ run.state = .active ∨ pending then
      { driver := d, result := d.result .graphActive, status := .ok, settlement := none }
    else if run.state = .completed ∧ d.endStatus run = .ok then
      settle { d with graphStatus := .ok, phase := .settleComplete } inbox
    else
      settle
        { d with
          graphStatus := if d.endStatus run = .ok then .eproto else d.endStatus run
          phase := .settleFail } inbox

theorem settle_settlement {d : Driver} {inbox : Settlement → Status} {settlement : Settlement}
    (h : (d.settle inbox).settlement = some settlement) :
    d.phase = .settleComplete ∧ settlement = .complete ∨
      d.phase = .settleFail ∧ settlement = .fail d.graphStatus := by
  unfold settle at h
  split at h
  · rename_i hphase
    have hcall : (if d.phase = .settleComplete then Settlement.complete
        else .fail d.graphStatus) = settlement := by
      dsimp only at h
      split at h <;> exact Option.some.inj h
    rcases hphase with hphase | hphase
    · rw [if_pos hphase] at hcall
      exact .inl ⟨hphase, hcall.symm⟩
    rw [if_neg (by simp [hphase])] at hcall
    exact .inr ⟨hphase, hcall.symm⟩
  · cases h

theorem poll_complete {d : Driver} {run : Reactive.Run} {pending : Bool}
    {inbox : Settlement → Status}
    (h : (d.poll run pending inbox).settlement = some .complete) : run.state = .completed := by
  unfold poll at h
  split at h
  · cases h
  · cases h
  · cases h
  · cases h
  split at h
  · cases h
  split at h
  · rename_i hcompleted
    exact hcompleted.1
  rcases settle_settlement h with ⟨hphase, -⟩ | ⟨-, hfail⟩
  · cases hphase
  · cases hfail

end Driver

end TurboFlow.Inbox
