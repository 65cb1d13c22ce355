import TurboFlow.Publication.Tracker
import TurboFlow.Lib.Run
import TurboFlow.Lib.Table

/-!
# Reactive runs

Any number of runs, direct publishers and asynchronous publications on one flow. A call in progress
is a `Frame`; a step is one critical section, or the start of a call. What the graph, the adapters
and the upstream do is a parameter of the step; the upstream delivers values one after the other and
then at most one of error and done. `accepted`, `results`, `syncFailed`, `releases` and `abandoned`
are history.
-/

namespace TurboFlow.Reactive

open Transition Table TurboFlow.Publication

inductive RunState
  | opened
  | active
  | completed
  | canceled
  | failed
  deriving DecidableEq

inductive Upstream
  | ready
  | delivering
  | ended
  deriving DecidableEq

/-- `turbo_flow_run_s`. `attached`: its flow is set; `connected`: its subscription exists or is
being made. `results` are those of the finished values, `syncFailed` that one failed before
`on_value` returned, `releases` counts the returns of its lifetime, `abandoned` is that its open
failed after registration. -/
structure Run where
  drainOnStop : Bool
  managedSource : Bool
  state : RunState
  status : Status
  terminal : Bool
  values : ℕ
  pendingValues : ℕ
  upstreamDone : Bool
  pendingStatus : Status
  setupComplete : Bool
  deadlineFired : Bool
  attached : Bool
  registered : Bool
  lifetimeCounted : Bool
  connected : Bool
  upstream : Upstream
  accepted : ℕ
  results : List Status
  syncFailed : Bool
  releases : ℕ
  abandoned : Bool

namespace Run

/-- A run as `flow_run_open_origin_internal` registers it. -/
@[simp] def create (drainOnStop managedSource : Bool) : Run where
  drainOnStop
  managedSource
  state := .opened
  status := .ok
  terminal := false
  values := 0
  pendingValues := 0
  upstreamDone := false
  pendingStatus := .ok
  setupComplete := false
  deadlineFired := false
  attached := true
  registered := true
  lifetimeCounted := true
  connected := true
  upstream := .ready
  accepted := 0
  results := []
  syncFailed := false
  releases := 0
  abandoned := false

/-- The first section of `flow_run_finish` for the call that wins. -/
@[simp] def terminate (run : Run) (state : RunState) (status : Status) : Run :=
  { run with terminal := true, state, status }

def deregister (run : Run) : Run :=
  if run.registered ∧ run.attached then { run with registered := false } else run

@[simp] def release (run : Run) : Run :=
  { run with releases := run.releases + 1 }

/-- The section of `flow_run_async_value_finish`. -/
def valueFinish (run : Run) (status : Status) : Run :=
  let run := { run with pendingValues := run.pendingValues - 1, results := run.results ++ [status] }
  if run.terminal then run
  else if status = .ok then { run with values := run.values + 1 }
  else { run with pendingStatus := status }

/-- The result section of `flow_run_on_value` for a value without a publication. -/
def recordResult (run : Run) (rc : Status) : Run :=
  let run := { run with results := run.results ++ [rc] }
  if rc = .ok then { run with values := run.values + 1 }
  else { run with pendingStatus := rc, syncFailed := true }

@[simp] theorem deregister_eq (run : Run) :
    run.deregister = { run with registered := run.registered && !run.attached } := by
  unfold deregister
  split
  · rename_i h
    rw [h.1, h.2]
    rfl
  rename_i h
  have hkept : (run.registered && !run.attached) = run.registered := by
    cases hr : run.registered <;> cases ha : run.attached <;> simp_all
  rw [hkept]

theorem valueFinish_eq (run : Run) (status : Status) :
    run.valueFinish status =
      { run with
        pendingValues := run.pendingValues - 1
        results := run.results ++ [status]
        values := if ¬ run.terminal ∧ status = .ok then run.values + 1 else run.values
        pendingStatus := if ¬ run.terminal ∧ status ≠ .ok then status else run.pendingStatus } := by
  unfold valueFinish
  cases run.terminal <;> by_cases hs : status = .ok <;> simp [hs]

@[simp] theorem recordResult_eq (run : Run) (rc : Status) :
    run.recordResult rc =
      { run with
        results := run.results ++ [rc]
        values := if rc = .ok then run.values + 1 else run.values
        pendingStatus := if rc = .ok then run.pendingStatus else rc
        syncFailed := run.syncFailed || rc ≠ .ok } := by
  unfold recordResult
  by_cases hrc : rc = .ok <;> simp [hrc]

end Run

/-- The sections of `flow_run_finish` after each other. -/
inductive FinishStage
  | transition
  | deregister
  | release
  | detach
  deriving DecidableEq

/-- The sections of `flow_run_on_value` after its first one. -/
inductive ValueStage
  | admitting
  | preparing
  | creating
  | running
  | recording
  | ownerLeaving
  | leaving
  deriving DecidableEq

/-- A call in progress, by its next section. A `finish` of a publication's callback remembers the
publication. -/
inductive Frame
  | returned
  | region
  | opening (drainOnStop managedSource bufferDrain : Bool)
  | failing
  | subscribing (run : ℕ)
  | unwinding (run : ℕ)
  | leaving (run : ℕ)
  | canceling (run : ℕ) (status : Status)
  | closing (run : ℕ)
  | sweeping (run : ℕ)
  | requesting (run : ℕ) (fenced : Bool)
  | finish (run : ℕ) (state : RunState) (status : Status) (detach : Bool) (stage : FinishStage)
      (publication : Option ℕ)
  | value (run : ℕ) (stage : ValueStage) (region : Bool) (publication : Option ℕ) (rc : Status)
  | publishing (publication : ℕ)
  | unowning (publication : ℕ)
  | finalizing (publication : ℕ)
  | unpublishing (publication : ℕ)
  deriving DecidableEq

inductive PublicationPhase
  | open
  | finalizing
  | settled
  | gone
  deriving DecidableEq

structure AsyncPublication where
  run : Option ℕ
  tracker : Tracker
  phase : PublicationPhase

inductive FlowState
  | compiled
  | started
  | stopped
  | other
  deriving DecidableEq

/-- `flow->admission_state`. -/
inductive Admission
  | closed
  | opened
  | paused
  | resizing
  | stopping
  deriving DecidableEq

structure Flow where
  state : FlowState
  admission : Admission
  schedulerInitialized : Bool
  queueCapacity : ℕ
  hasAsyncStage : Bool
  activePublishes : ℕ
  runs : List Run
  publications : List AsyncPublication
  frames : List Frame

/-- The start of a call, an event from outside, or the next section of `frame`. `ok` and `rc` are
what the code around it decides. `turbo_flow_run_close` of a run that is not terminal is two
operations, the first a cancel. -/
inductive Operation
  | control (state : FlowState) (admission : Admission) (schedulerInitialized : Bool)
  | enter
  | open (drainOnStop managedSource bufferDrain : Bool)
  | deliver (run : ℕ)
  | error (run : ℕ) (status : Status)
  | done (run : ℕ)
  | deadline (run : ℕ)
  | request (run : ℕ)
  | cancel (run : ℕ)
  | close (run : ℕ)
  | sweep (run : ℕ)
  | publish (frame : ℕ)
  | leave (frame : ℕ)
  | submitClaim (publication : ℕ)
  | releaseClaim (publication : ℕ) (status : Status)
  | step (frame : ℕ) (ok : Bool) (rc : Status)

inductive Answer
  | done
  | returned (rc : Status)

namespace Flow

def start (queueCapacity : ℕ) (hasAsyncStage : Bool) : Flow where
  state := .compiled
  admission := .closed
  schedulerInitialized := false
  queueCapacity
  hasAsyncStage
  activePublishes := 0
  runs := []
  publications := []
  frames := []

/-- The call `j` goes on with the section `f`. -/
def setFrame (s : Flow) (j : ℕ) (f : Frame) : Flow :=
  { s with frames := s.frames.modify j fun _ => f }

def addFrame (s : Flow) (f : Frame) : Flow :=
  { s with frames := s.frames ++ [f] }

def modifyRun (s : Flow) (r : ℕ) (g : Run → Run) : Flow :=
  { s with runs := s.runs.modify r g }

def modifyPublication (s : Flow) (k : ℕ) (g : AsyncPublication → AsyncPublication) : Flow :=
  { s with publications := s.publications.modify k g }

/-- The check of `flow_publish_enter`. -/
def publishAdmission (s : Flow) : Status :=
  if s.state = .started ∧ s.admission = .opened then .ok
  else if s.state = .started then .eshutdown
  else .einval

def openAdmission (s : Flow) (managedSource bufferDrain : Bool) : Status :=
  if bufferDrain then
    if s.state = .started ∧ (s.admission = .opened ∨ s.admission = .paused) then .ok else .eshutdown
  else if managedSource then
    if (s.state = .compiled ∨ s.state = .stopped) ∧
        (s.admission = .closed ∨ s.admission = .stopping) ∧ s.schedulerInitialized then .ok
    else .einval
  else s.publishAdmission

/-- `flow_run_registry_add`; `ok` is the growth of the registry. -/
def registryAdmission (s : Flow) (managedSource bufferDrain ok : Bool) : Status :=
  if s.schedulerInitialized = false ∨
      (managedSource = false ∧
        (s.state ≠ .started ∨
          (s.admission ≠ .opened ∧ ¬ (bufferDrain ∧ s.admission = .paused)))) ∨
      (managedSource ∧
        ((s.state ≠ .compiled ∧ s.state ≠ .stopped) ∨
          (s.admission ≠ .closed ∧ s.admission ≠ .stopping))) then
    if s.admission = .stopping then .eshutdown else .einval
  else if (s.runs.filter Run.registered).length ≥ s.queueCapacity then .enospc
  else if ok = false then .enomem
  else .ok

def publishEnter (s : Flow) : Flow :=
  { s with activePublishes := s.activePublishes + 1 }

def publishLeave (s : Flow) : Flow :=
  if s.activePublishes > 0 then { s with activePublishes := s.activePublishes - 1 } else s

def after : Option ℕ → Frame
  | none => .returned
  | some k => .unpublishing k

def settleTracker (s : Flow) (k : ℕ) (r : Tracker × Bool) : Flow :=
  if r.2 then
    (s.modifyPublication k fun p => { p with tracker := r.1, phase := .finalizing }).addFrame
      (.finalizing k)
  else s.modifyPublication k fun p => { p with tracker := r.1 }

/-- The next section of `flow_run_open_origin_internal`. `ok`: the checks, or the subscription,
succeed. -/
def stepOpening (s : Flow) (j : ℕ) (ok : Bool) (drainOnStop managedSource bufferDrain : Bool) :
    Flow :=
  if s.registryAdmission managedSource bufferDrain ok = .ok then
    { s.setFrame j (.subscribing s.runs.length) with
      runs := s.runs ++ [Run.create drainOnStop managedSource] }
  else s.setFrame j .failing

def stepSubscribing (s : Flow) (j : ℕ) (ok : Bool) (r : ℕ) (run : Run) : Flow :=
  if ok then
    (s.modifyRun r fun run => { run with setupComplete := true }).setFrame j
      (if run.deadlineFired then .canceling r .etimedout else .returned)
  else (s.modifyRun r fun run => { run with connected := false }).setFrame j (.unwinding r)

/-- The next section of `turbo_flow_run_request`; `fenced`: the admission of the flow is still to be
checked. -/
def stepRequesting (s : Flow) (j r : ℕ) (run : Run) (fenced : Bool) : Flow :=
  if fenced then
    s.setFrame j
      (if s.state = .started ∧ s.admission = .opened then .requesting r false else .returned)
  else if run.terminal then s.setFrame j .returned
  else (s.modifyRun r fun run => { run with state := .active }).setFrame j .returned

/-- The next section of `flow_run_finish`. -/
def stepFinish (s : Flow) (j r : ℕ) (run : Run) (state : RunState) (status : Status)
    (detach : Bool) (publication : Option ℕ) : FinishStage → Flow
  | .transition =>
    if run.terminal then s.setFrame j (after publication)
    else
      (s.modifyRun r fun run => run.terminate state status).setFrame j
        (.finish r state status detach (if detach then .deregister else .release) publication)
  | .deregister =>
    (s.modifyRun r Run.deregister).setFrame j
      (.finish r state status detach .release publication)
  | .release =>
    (s.publishLeave.modifyRun r fun run => { run.release with lifetimeCounted := false }).setFrame j
      (if detach then .finish r state status detach .detach publication else after publication)
  | .detach =>
    (s.modifyRun r fun run => { run with attached := false }).setFrame j (after publication)

/-- The next section of `flow_run_on_value`. `rc` is the graph's result, `ok` that the publication
was allocated. -/
def stepValue (s : Flow) (j : ℕ) (ok : Bool) (result : Status) (r : ℕ) (run : Run) (region : Bool)
    (publication : Option ℕ) (rc : Status) : ValueStage → Option Flow
  | .admitting =>
    if run.managedSource then
      if s.publishAdmission = .ok then
        some (s.publishEnter.setFrame j (.value r .preparing true none rc))
      else some (s.setFrame j (.value r .recording false none s.publishAdmission))
    else some (s.setFrame j (.value r .preparing false none rc))
  | .preparing =>
    if run.drainOnStop = false ∧ s.hasAsyncStage then
      some ((s.modifyRun r fun run => { run with pendingValues := run.pendingValues + 1 }).setFrame
        j (.value r .creating region none rc))
    else some (s.setFrame j (.value r .running region none rc))
  | .creating =>
    if ok then
      some
        { s.publishEnter.setFrame j (.value r .running region (some s.publications.length) rc) with
          publications := s.publications ++
            [{ run := some r, tracker := Tracker.create, phase := .open }] }
    else
      some ((s.modifyRun r fun run => { run with pendingValues := run.pendingValues - 1 }).setFrame
        j (.value r .recording region none .enomem))
  | .running =>
    match publication with
    | none => some (s.setFrame j (.value r .recording region none result))
    | some k =>
      match s.publications[k]? with
      | none => none
      | some p =>
        some ((s.settleTracker k (p.tracker.sealPublication result)).setFrame j
          (.value r .recording region (some k) result))
  | .recording =>
    match publication with
    | none =>
      some ((s.modifyRun r fun run => run.recordResult rc).setFrame j
        (.value r .leaving region none rc))
    | some k => some (s.setFrame j (.value r .ownerLeaving region (some k) rc))
  | .ownerLeaving =>
    match publication with
    | none => none
    | some k =>
      match s.publications[k]? with
      | none => none
      | some p =>
        some ((s.settleTracker k p.tracker.ownerLeave).setFrame j
          (.value r .leaving region (some k) rc))
  | .leaving =>
    let s := if region then s.publishLeave else s
    some ((s.modifyRun r fun run => { run with upstream := .ready }).setFrame j .returned)

/-- The finish callback of a publication up to the section of `flow_run_async_value_finish`. -/
def stepFinalizing (s : Flow) (j k : ℕ) (p : AsyncPublication) : Option Flow :=
  let s := s.modifyPublication k fun p => { p with phase := .settled }
  match p.run with
  | none => some (s.setFrame j (.unpublishing k))
  | some r =>
    match s.runs[r]? with
    | none => none
    | some run =>
      let s := s.modifyRun r fun run => run.valueFinish p.tracker.status
      if run.terminal then some (s.setFrame j (.unpublishing k))
      else if p.tracker.status = .ok then
        if run.upstreamDone ∧ run.pendingValues - 1 = 0 then
          some (s.setFrame j (.finish r .completed .ok true .transition (some k)))
        else some (s.setFrame j (.unpublishing k))
      else
        some (s.setFrame j (.finish r .failed p.tracker.status true .transition (some k)))

/-- The next section of the call `j`. -/
def advance (s : Flow) (j : ℕ) (ok : Bool) (result : Status) : Frame → Option Flow
  | .returned | .region => none
  | .opening drainOnStop managedSource bufferDrain =>
    some (s.stepOpening j ok drainOnStop managedSource bufferDrain)
  | .failing => some (s.publishLeave.setFrame j .returned)
  | .subscribing r => (s.runs[r]?).map (s.stepSubscribing j ok r)
  | .unwinding r =>
    (s.runs[r]?).map fun _ =>
      (s.modifyRun r fun run => { run.deregister with abandoned := true }).setFrame j (.leaving r)
  | .leaving r =>
    (s.runs[r]?).map fun _ => (s.publishLeave.modifyRun r Run.release).setFrame j .returned
  | .canceling r status =>
    (s.runs[r]?).map fun run =>
      if run.terminal then s.setFrame j .returned
      else
        s.setFrame j (.finish r (if status = .etimedout then .failed else .canceled) status true
          .transition none)
  | .closing r =>
    (s.runs[r]?).bind fun run =>
      if run.managedSource ∧ run.pendingValues ≠ 0 then none
      else some ((s.modifyRun r Run.deregister).setFrame j .returned)
  | .sweeping r =>
    (s.runs[r]?).map fun run =>
      s.setFrame j (if run.terminal then .closing r else .canceling r .ecanceled)
  | .requesting r fenced => (s.runs[r]?).map fun run => s.stepRequesting j r run fenced
  | .finish r state status detach stage publication =>
    (s.runs[r]?).map fun run => s.stepFinish j r run state status detach publication stage
  | .value r stage region publication rc =>
    (s.runs[r]?).bind fun run => s.stepValue j ok result r run region publication rc stage
  | .publishing k =>
    (s.publications[k]?).map fun p =>
      (s.settleTracker k (p.tracker.sealPublication result)).setFrame j (.unowning k)
  | .unowning k =>
    (s.publications[k]?).map fun p => (s.settleTracker k p.tracker.ownerLeave).setFrame j .region
  | .finalizing k => (s.publications[k]?).bind fun p => s.stepFinalizing j k p
  | .unpublishing k =>
    (s.publications[k]?).map fun _ =>
      (s.publishLeave.modifyPublication k fun p => { p with phase := .gone }).setFrame j .returned

/-- `flow_run_on_value` begins, `flow_run_on_error` and `flow_run_on_done` run. -/
def callback (s : Flow) (r : ℕ) (run : Run) : Operation → Option (Flow × Answer)
  | .deliver _ =>
    if run.terminal ∨ run.attached = false then some (s, .returned .ecanceled)
    else
      some ((s.modifyRun r fun run =>
          { run with upstream := .delivering, accepted := run.accepted + 1 }).addFrame
        (.value r .admitting false none .ok), .done)
  | .error _ status =>
    let status :=
      if run.pendingStatus ≠ .ok then run.pendingStatus
      else if status = .ok then .eio
      else status
    some ((s.modifyRun r fun run => { run with upstream := .ended }).addFrame
      (.finish r .failed status true .transition none), .done)
  | .done _ =>
    let s := s.modifyRun r fun run => { run with upstream := .ended, upstreamDone := true }
    if run.terminal = false ∧ run.pendingValues = 0 then
      some (s.addFrame (.finish r .completed .ok true .transition none), .done)
    else some (s, .done)
  | _ => none

def act (s : Flow) : Operation → Option (Flow × Answer)
  | .control state admission schedulerInitialized =>
    some ({ s with state, admission, schedulerInitialized }, .done)
  | .enter =>
    if s.publishAdmission = .ok then some (s.publishEnter.addFrame .region, .done)
    else some (s, .returned s.publishAdmission)
  | .open drainOnStop managedSource bufferDrain =>
    if s.openAdmission managedSource bufferDrain = .ok then
      some (s.publishEnter.addFrame (.opening drainOnStop managedSource bufferDrain), .done)
    else some (s, .returned (s.openAdmission managedSource bufferDrain))
  | .deliver r =>
    (s.runs[r]?).bind fun run =>
      if run.connected ∧ run.upstream = .ready then s.callback r run (.deliver r) else none
  | .error r status =>
    (s.runs[r]?).bind fun run =>
      if run.connected ∧ run.upstream = .ready then s.callback r run (.error r status) else none
  | .done r =>
    (s.runs[r]?).bind fun run =>
      if run.connected ∧ run.upstream = .ready then s.callback r run (.done r) else none
  | .deadline r =>
    (s.runs[r]?).map fun run =>
      if run.setupComplete then
        (s.addFrame (.finish r .failed .etimedout false .transition none), .done)
      else (s.modifyRun r fun run => { run with deadlineFired := true }, .done)
  | .request r =>
    (s.runs[r]?).bind fun run =>
      if run.setupComplete = false then none
      else if run.terminal then
        some (s, .returned (if run.status = .ok then .eshutdown else run.status))
      else some (s.addFrame (.requesting r run.managedSource), .done)
  | .cancel r =>
    (s.runs[r]?).bind fun run =>
      if run.setupComplete then some (s.addFrame (.canceling r .ecanceled), .done) else none
  | .close r =>
    (s.runs[r]?).bind fun run =>
      if run.setupComplete then
        some (s.addFrame (if run.terminal then .closing r else .canceling r .ecanceled), .done)
      else none
  | .sweep r =>
    (s.runs[r]?).bind fun run =>
      if run.registered ∧ run.drainOnStop = false ∧ run.managedSource = false then
        some (s.addFrame (.sweeping r), .done)
      else none
  | .publish j =>
    match s.frames[j]? with
    | some .region =>
      some ({ s.publishEnter.setFrame j (.publishing s.publications.length) with
          publications := s.publications ++
            [{ run := none, tracker := Tracker.create, phase := .open }] }, .done)
    | _ => none
  | .leave j =>
    match s.frames[j]? with
    | some .region => some (s.publishLeave.setFrame j .returned, .done)
    | _ => none
  | .submitClaim k =>
    (s.publications[k]?).bind fun p =>
      if p.phase = .open ∧ (p.tracker.isSealed = false ∨ 0 < p.tracker.pending) then
        some (s.modifyPublication k fun p => { p with tracker := p.tracker.submit }, .done)
      else none
  | .releaseClaim k status =>
    (s.publications[k]?).bind fun p =>
      if p.phase = .open ∧ 0 < p.tracker.pending then
        some (s.settleTracker k (p.tracker.release status), .done)
      else none
  | .step j ok result =>
    ((s.frames[j]?).bind (s.advance j ok result)).map fun s => (s, .done)

end Flow

end TurboFlow.Reactive
