import TurboFlow.Graph.Schedule

/-!
# The dispatcher

`flow_run_message_from_stage` with `flow_enqueue_ready`, `flow_release_downstream` and
`flow_apply_completion`. The workspace holds the arrays of the source and the events of the call; a
queue is the list of what was written to it, and its head index is an argument of the loop. An error
carries the workspace in which it occurred.
-/

namespace TurboFlow.Graph

open Fallible

/-- `flow_runtime_workspace_t`, and the events of the call. -/
structure Workspace where
  done : ℕ → Bool
  remaining : ℕ → ℕ
  activated : ℕ → ℕ
  queue : List ℕ
  skippedQueue : List ℕ
  trace : List Event

structure Stop where
  cause : Cause
  workspace : Workspace

namespace Workspace

def empty : Workspace where
  done := fun _ => false
  remaining := fun _ => 0
  activated := fun _ => 0
  queue := []
  skippedQueue := []
  trace := []

@[simps]
def log (w : Workspace) (ev : Event) : Workspace := { w with trace := w.trace ++ [ev] }

@[simps]
def markDone (w : Workspace) (s : ℕ) : Workspace := { w with done := Function.update w.done s true }

/-- `--remaining[to]` and, for an active edge, `++activated[to]`. -/
@[simps]
def resolve (w : Workspace) (e : Edge) (active : Bool) : Workspace :=
  { w with
    remaining := Function.update w.remaining e.toStage (w.remaining e.toStage - 1)
    activated := Function.update w.activated e.toStage (w.activated e.toStage + active.toNat) }

end Workspace

namespace Dispatch

variable (plan : CompiledPlan) (world : World) (origin : ℕ) (reach : ℕ → Bool)

/-- `flow_enqueue_ready` on the ready queue. -/
def enqueueReady (s : ℕ) (w : Workspace) : Except Stop Workspace :=
  if plan.stageCount ≤ w.queue.length then .error ⟨.full, w⟩
  else .ok ({ w with queue := w.queue ++ [s] }.log (.readied s))

/-- `flow_enqueue_ready` on the skipped queue. -/
def enqueueSkipped (s : ℕ) (w : Workspace) : Except Stop Workspace :=
  if plan.stageCount ≤ w.skippedQueue.length then .error ⟨.full, w⟩
  else .ok ({ w with skippedQueue := w.skippedQueue ++ [s] }.log (.skipped s))

def arrive (s : ℕ) (w : Workspace) : Except Stop Workspace :=
  if 0 < w.activated s then
    if plan.isBuffer s then
      if world.admission s ≠ .ok then .error ⟨.admission (world.admission s), w⟩
      else .ok ((w.markDone s).log (.admitted s))
    else enqueueReady plan s w
  else if w.done s then .ok w
  else enqueueSkipped plan s (w.markDone s)

/-- One round of the inner loop of `flow_release_downstream`. -/
def releaseEdge (current : ℕ) (selection : Option Status) (w : Workspace) (e : Edge) :
    Except Stop Workspace :=
  if e.fromStage ≠ current then .error ⟨.malformed, w⟩
  else if reach e.toStage = false then .ok w
  else if w.remaining e.toStage = 0 then .error ⟨.underflow, w⟩
  else
    match world.verdict plan selection e with
    | .error status => .error ⟨.route status, w⟩
    | .ok active =>
      let w := (w.resolve e active).log (.resolved e active)
      if w.remaining e.toStage = 0 then arrive plan world e.toStage w else .ok w

/-- One round of the outer loop of `flow_release_downstream`. -/
def releaseStage (selection : Option Status) (current : ℕ) (w : Workspace) :
    Except Stop Workspace :=
  match plan.outgoing? current with
  | none => .error ⟨.malformed, w⟩
  | some outgoing =>
    outgoing.foldlM (releaseEdge plan world reach current selection)
      (w.log (.released current selection))

/-- `flow_release_downstream`: release one stage, then the stages that are skipped because of it. -/
def releaseDownstream (s : ℕ) (selection : Option Status) (w : Workspace) :
    Except Stop Workspace :=
  releaseStage plan world reach selection s { w with skippedQueue := [] } >>=
    drain Workspace.skippedQueue (releaseStage plan world reach none) (fun w => ⟨.unfinished, w⟩)
      (plan.stageCount + 1) 0

/-- The last lines of every branch of `flow_apply_completion`. -/
def releaseOnce (s : ℕ) (selection : Option Status) (w : Workspace) : Except Stop Workspace :=
  if w.done s then .ok w
  else releaseDownstream plan world reach s selection (w.markDone s)

def applyCompletion (s : ℕ) (c : Completion) (w : Workspace) : Except Stop Workspace :=
  if plan.stageCount ≤ s then .error ⟨.invalidStage, w⟩
  else if world.unknownRoute plan s then .error ⟨.unknownRoute, w⟩
  else if world.dropped s then releaseOnce plan world reach s none w
  else if c.terminal then releaseOnce plan world reach s none w
  else if c.status ≠ .ok then
    if World.hasRejectEdge plan s = false then .error ⟨.failure s c.status, w⟩
    else if world.capture s ≠ .ok then .error ⟨.capture (world.capture s), w⟩
    else releaseOnce plan world reach s (some c.status) w
  else releaseOnce plan world reach s (some c.status) w

@[simps]
def markMembers (r : Region) (w : Workspace) : Workspace :=
  { w with done := fun s => (s ∈ r.members ∧ s ≠ r.exitStage) || w.done s }

def runStage (s : ℕ) (w : Workspace) : Except Stop Workspace :=
  if plan.emitting s ∧ (world.dispatch s).status = .ok ∧ world.emissionStatus s ≠ .ok then
    .error ⟨.emission (world.emissionStatus s), w⟩
  else
    let c := world.stageCompletion plan s
    if c.status = .ok ∧ c.asyncPending then .ok (w.markDone s)
    else applyCompletion plan world reach s c w

/-- One round of the loop of `flow_run_message_from_stage`. -/
def dispatchStage (s : ℕ) (w : Workspace) : Except Stop Workspace :=
  if w.done s then .ok w
  else if plan.isBuffer s then .ok (w.markDone s)
  else if plan.isPort s then
    applyCompletion plan world reach s { status := .ok } (w.log (.dispatched s))
  else
    match plan.regionForEntry s with
    | some r =>
      if plan.stageCount ≤ r.exitStage then .error ⟨.malformed, w⟩
      else
        applyCompletion plan world reach r.exitStage { status := world.regionStatus s }
          (markMembers r (w.log (.dispatched s)))
    | none => runStage plan world reach s (w.log (.dispatched s))

def preparedStages : List ℕ :=
  (List.range plan.stageCount).filter fun s =>
    reach s ∧ s ≠ origin ∧ ¬ plan.isSource s ∧ ¬ plan.isPort s ∧ ¬ plan.isBuffer s

/-- `remaining[]` before the dispatch: one for every edge of the region. -/
def countEdges : ℕ → ℕ :=
  plan.edges.foldl
    (fun remaining e =>
      if reach e.fromStage ∧ reach e.toStage then
        Function.update remaining e.toStage (remaining e.toStage + 1)
      else remaining)
    fun _ => 0

/-- The loop of `flow_run_message_from_stage`, after the completion of the origin. -/
def dispatchRegion : Except Stop Workspace :=
  applyCompletion plan world reach origin { status := .ok }
      { Workspace.empty with remaining := countEdges plan reach } >>=
    drain Workspace.queue (dispatchStage plan world reach) (fun w => ⟨.unfinished, w⟩)
      (plan.stageCount + 1) 0

/-- `flow_run_message_from_stage` up to its `cleanup` label. -/
def execute : Except Stop Workspace :=
  match plan.markExecutionRegionFromStage origin with
  | .error cause => .error ⟨cause, .empty⟩
  | .ok m =>
    let stages := preparedStages plan origin m.reachable
    match ((stages.filter fun s => !plan.inRegion s).map world.validate).find? (· ≠ .ok) with
    | some status => .error ⟨.validation status, .empty⟩
    | none =>
      match (stages.map world.reserve).find? (· ≠ .ok) with
      | some status => .error ⟨.reservation status, .empty⟩
      | none => dispatchRegion plan world origin m.reachable

def workspace : Except Stop Workspace → Workspace
  | .ok w => w
  | .error stop => stop.workspace

def runMessageFromStage : Status :=
  match execute plan world origin with
  | .ok _ => world.cleanup
  | .error stop => stop.cause.status

end Dispatch

end TurboFlow.Graph
