import TurboFlow.Graph.Plan

/-!
# Routes of a completed stage

Which outgoing edges a completed stage selects. `World` holds what the runtime asks while a message
travels: results, predicates, data decisions and statuses of services. Each is asked at most once,
so an assignment of answers is as general as a sequence.

`offer` is what `flow_apply_completion` hands to `flow_release_downstream`: the status with which
the outgoing edges are evaluated, or nothing when they are released without being selected.
-/

namespace TurboFlow.Graph

/-- `msg->data_decision`, where its stage index is the stage that completes. -/
structure Decision where
  route : String
  dropped : Bool
  deadLetter : Bool

inductive Predicate
  /-- The edge has no compiled predicate. -/
  | missing
  /-- The evaluation failed. -/
  | failed (status : Status)
  /-- The value is not of type `BOOL`. -/
  | untyped
  | value (selected : Bool)

/-- The part of `flow_stage_completion_t` that the dispatcher reads. -/
structure Completion where
  status : Status
  terminal : Bool := false
  asyncPending : Bool := false

structure World where
  /-- `flow_dispatch_validate_stage`. -/
  validate : ℕ → Status
  /-- `flow_reorder_reserve`. -/
  reserve : ℕ → Status
  /-- `flow_dispatch_stage`. Its return code is the status of the completion. -/
  dispatch : ℕ → Completion
  /-- `flow_cflow_region_execute`, by the entry of the region. -/
  regionStatus : ℕ → Status
  /-- `flow_cancel_emission_descendant_reorders`. -/
  cancelReorders : ℕ → Status
  /-- The runs of the outputs of an emitting stage. -/
  outputs : ℕ → List Status
  /-- The data decision that the message holds when the stage completes. -/
  decision : ℕ → Option Decision
  /-- `turbo_flow_expr_evaluate`. -/
  predicate : Edge → Predicate
  /-- `flow_durable_buffer_admit_stage`. -/
  admission : ℕ → Status
  /-- `flow_msg_set_failure`. -/
  capture : ℕ → Status
  /-- The first error of the reorder cancellations at the end of the call. -/
  cleanup : Status

namespace World

variable (plan : CompiledPlan) (world : World)

def route? (s : ℕ) : Option String :=
  (world.decision s).bind fun d => if d.route = "" then none else some d.route

def dropped (s : ℕ) : Bool := (world.decision s).any fun d => d.dropped || d.deadLetter

def routeEdgeActive (e : Edge) (status : Status) : Except Status Bool :=
  if status ≠ .ok then .ok (e.kind = .reject)
  else if e.kind = .reject then .ok false
  else
    match world.route? e.fromStage with
    | some route => .ok (plan.named e.toStage route)
    | none =>
      if e.kind = .unconditional then .ok true
      else
        match world.predicate e with
        | .missing => .error .einval
        | .failed status => .error status
        | .untyped => .error .eproto
        | .value selected => .ok selected

theorem routeEdgeActive_of_value (h : world.predicate e = .value selected) (status : Status) :
    ∃ active, world.routeEdgeActive plan e status = .ok active := by
  rw [routeEdgeActive, h]
  split_ifs
  · exact ⟨_, rfl⟩
  · exact ⟨_, rfl⟩
  all_goals
    cases world.route? e.fromStage with
    | none | some route => exact ⟨_, rfl⟩

def dataRouteExists (s : ℕ) (route : String) : Bool :=
  (plan.outgoing? s).any fun outgoing =>
    outgoing.any fun e => e.fromStage = s ∧ e.kind ≠ .reject ∧ plan.named e.toStage route

def unknownRoute (s : ℕ) : Bool := (world.route? s).any fun route => !dataRouteExists plan s route

def hasRejectEdge (s : ℕ) : Bool :=
  (plan.outgoing? s).any fun outgoing => outgoing.any fun e => e.fromStage = s ∧ e.kind = .reject

def verdict (selection : Option Status) (e : Edge) : Except Status Bool :=
  match selection with
  | none => .ok false
  | some status => world.routeEdgeActive plan e status

def offer (s : ℕ) (c : Completion) : Option Status :=
  if world.dropped s ∨ c.terminal then none else some c.status

def emissionStatus (s : ℕ) : Status :=
  ((world.cancelReorders s :: world.outputs s).find? (· ≠ .ok)).getD .ok

/-- The completion of a stage that is dispatched by itself. That of an emitting stage is terminal
once its outputs have been run. -/
def stageCompletion (s : ℕ) : Completion :=
  if plan.emitting s ∧ (world.dispatch s).status = .ok then
    { world.dispatch s with terminal := true }
  else world.dispatch s

/-- The completion of the unit that starts at `s`: a port, a region or a stage. -/
def unitCompletion (s : ℕ) : Completion :=
  if plan.isPort s then { status := .ok }
  else
    match plan.regionForEntry s with
    | some _ => { status := world.regionStatus s }
    | none => world.stageCompletion plan s

def unitOffer (s : ℕ) : Option Status :=
  world.offer (plan.unitExit s) (world.unitCompletion plan s)

def Fails (s : ℕ) : Prop :=
  ∃ status, world.unitOffer plan s = some status ∧ status ≠ .ok ∧
    hasRejectEdge plan (plan.unitExit s) = false

end World

end TurboFlow.Graph
