import TurboFlow.Reorder.Tickets

/-!
# Publications through the reorder boundaries

The part of `flow_run_message_from_stage` that uses the reorder boundaries. A publication takes its
number of the flow and, in one pass under the runtime mutex, one from every boundary it can reach;
an emission cancels the numbers of its descendants, and the cleanup those that are left. A step is
one iteration of a loop or one call of `flow_reorder_*`. `owner` is history.
-/

namespace TurboFlow.Reorder

open Transition List

/-- Where a publication stands in `flow_run_message_from_stage`, with the stages the loop has still
to visit. -/
inductive Phase
  | reserving (stages : List ℕ)
  | running
  | waiting (stage : ℕ)
  | inside (stage : ℕ)
  | emitting (stages : List ℕ)
  | cleanup (stages : List ℕ)
  | finished
  deriving DecidableEq

/-- The locals of one publication; `refused` is the stage whose boundary gave no number. -/
structure Publication where
  sequence : ℕ
  stageSequences : ℕ → ℕ
  dispatched : Finset ℕ
  refused : Option ℕ
  phase : Phase

/-- A started flow. A stage without `reorder` has no boundary. -/
structure Flow where
  stageCount : ℕ
  nextSequence : ℕ
  runtimeMutex : Option ℕ
  boundary : ℕ → Option Tickets
  publication : ℕ → Option Publication
  owner : ℕ → ℕ → Option ℕ

/-- The steps. `number` is any other user of the counter of the flow. -/
inductive Call
  | number
  | begin (publication : ℕ) (stages : List ℕ)
  | reserve (publication : ℕ)
  | enter (publication stage : ℕ)
  | resume (publication : ℕ) (timedOut : Bool)
  | leave (publication : ℕ)
  | emit (publication stage : ℕ) (descendants : List ℕ)
  | cancelDescendant (publication : ℕ)
  | finish (publication : ℕ)
  | cancelStage (publication : ℕ)
  | stop (stage : ℕ)

inductive Answer
  | done
  | entered (stage : ℕ) (rc : Status)
  | waits

namespace Tickets

/-- `flow_reorder_cancel`: the history records the cancels that have an effect. -/
def cancelNumber (t : Tickets) (sequence : ℕ) : Tickets :=
  { t with
    boundary := t.boundary.cancel sequence
    withdrawn := if t.boundary.next ≤ sequence then insert sequence t.withdrawn else t.withdrawn }

end Tickets

namespace Flow

/-- `flow_start_reorder_states`: the counter of the flow is not reset by a restart. -/
def start (stageCount number : ℕ) (capacity : ℕ → ℕ) : Flow where
  stageCount := stageCount
  nextSequence := number
  runtimeMutex := none
  boundary := fun stage =>
    if stage < stageCount ∧ capacity stage ≠ 0 then some (Tickets.start (capacity stage)) else none
  publication := fun _ => none
  owner := fun _ _ => none

@[simp] def setBoundary (s : Flow) (stage : ℕ) (t : Tickets) : Flow :=
  { s with boundary := Function.update s.boundary stage (some t) }

@[simp] def setPublication (s : Flow) (p : ℕ) (pub : Publication) : Flow :=
  { s with publication := Function.update s.publication p (some pub) }

def setOwner (s : Flow) (stage sequence p : ℕ) : Flow :=
  { s with
    owner := Function.update s.owner stage
      (Function.update (s.owner stage) sequence (some p)) }

theorem setOwner_owner (s : Flow) (stage sequence p i q : ℕ) :
    (s.setOwner stage sequence p).owner i q =
      if i = stage ∧ q = sequence then some p else s.owner i q := by
  unfold setOwner
  by_cases hi : i = stage
  · subst hi
    by_cases hq : q = sequence <;> simp [hq]
  · simp [hi]

/-- `flow_reorder_cancel` by stage index. -/
def reorderCancel (s : Flow) (stage sequence : ℕ) : Flow :=
  match s.boundary stage with
  | none => s
  | some t => s.setBoundary stage (t.cancelNumber sequence)

/-- One iteration of the reservation loop, or its end. The flow number stands in the array before
the boundary is asked, and stays when it refuses. -/
def reserveStage (s : Flow) (p : ℕ) (pub : Publication) : Option (Flow × Answer) :=
  match pub.phase with
  | .reserving [] =>
    some ({ s.setPublication p { pub with phase := .running } with runtimeMutex := none }, .done)
  | .reserving (stage :: stages) =>
    let stageSequences := Function.update pub.stageSequences stage pub.sequence
    match s.boundary stage with
    | none =>
      some (s.setPublication p { pub with stageSequences, phase := .reserving stages }, .done)
    | some t =>
      match t.boundary.reserve with
      | (boundary, .ok sequence) =>
        let pub :=
          { pub with
            stageSequences := Function.update stageSequences stage sequence
            phase := .reserving stages }
        let s := (s.setBoundary stage { t with boundary }).setPublication p pub
        some (s.setOwner stage sequence p, .done)
      | (boundary, .error _) =>
        let pub :=
          { pub with
            stageSequences
            refused := some stage
            phase := .cleanup (range s.stageCount) }
        let s := (s.setBoundary stage { t with boundary }).setPublication p pub
        some ({ s with runtimeMutex := none }, .done)
  | _ => none

/-- `flow_reorder_enter` at the dispatch of a stage. A number zero is passed at every boundary. -/
def enterStage (s : Flow) (p : ℕ) (pub : Publication) (stage : ℕ) : Option (Flow × Answer) :=
  if pub.phase = .running ∧ stage ∉ pub.dispatched then
    let pub := { pub with dispatched := insert stage pub.dispatched }
    match s.boundary stage with
    | none => some (s.setPublication p { pub with phase := .inside stage }, .entered stage .ok)
    | some t =>
      if pub.stageSequences stage = 0 then
        match t.boundary.enter 0 with
        | (_, .returned rc) => some (s.setPublication p pub, .entered stage rc)
        | (_, .waits) => none
      else
        match t.act (.enter (pub.stageSequences stage)) with
        | some (t, .entered _ rc) =>
          let phase := if rc = .ok then .inside stage else .running
          some ((s.setBoundary stage t).setPublication p { pub with phase }, .entered stage rc)
        | some (t, .waits) =>
          some ((s.setBoundary stage t).setPublication p { pub with phase := .waiting stage },
            .waits)
        | _ => none
  else none

/-- A waiting `flow_reorder_enter` returns. -/
def resumeStage (s : Flow) (p : ℕ) (pub : Publication) (timedOut : Bool) :
    Option (Flow × Answer) :=
  match pub.phase with
  | .waiting stage =>
    match s.boundary stage with
    | none => none
    | some t =>
      match t.act (.resume (pub.stageSequences stage) timedOut) with
      | some (t, .entered _ rc) =>
        let phase := if rc = .ok then .inside stage else .running
        some ((s.setBoundary stage t).setPublication p { pub with phase }, .entered stage rc)
      | _ => none
  | _ => none

/-- `flow_reorder_leave` after the dispatch. -/
def leaveStage (s : Flow) (p : ℕ) (pub : Publication) : Option (Flow × Answer) :=
  match pub.phase with
  | .inside stage =>
    match s.boundary stage with
    | none => some (s.setPublication p { pub with phase := .running }, .done)
    | some t =>
      match t.act (.leave (pub.stageSequences stage)) with
      | some (t, _) =>
        some ((s.setBoundary stage t).setPublication p { pub with phase := .running }, .done)
      | none => none
  | _ => none

/-- One iteration of `flow_cancel_emission_descendant_reorders`, or its end. -/
def cancelDescendantStage (s : Flow) (p : ℕ) (pub : Publication) : Option (Flow × Answer) :=
  match pub.phase with
  | .emitting [] => some (s.setPublication p { pub with phase := .running }, .done)
  | .emitting (stage :: stages) =>
    if pub.stageSequences stage = 0 then
      some (s.setPublication p { pub with phase := .emitting stages }, .done)
    else
      let pub' :=
        { pub with
          stageSequences := Function.update pub.stageSequences stage 0
          phase := .emitting stages }
      some ((s.reorderCancel stage (pub.stageSequences stage)).setPublication p pub', .done)
  | _ => none

/-- One iteration of the cleanup of `flow_run_message_from_stage`, or its end. -/
def cancelCleanupStage (s : Flow) (p : ℕ) (pub : Publication) : Option (Flow × Answer) :=
  match pub.phase with
  | .cleanup [] => some (s.setPublication p { pub with phase := .finished }, .done)
  | .cleanup (stage :: stages) =>
    if pub.stageSequences stage = 0 then
      some (s.setPublication p { pub with phase := .cleanup stages }, .done)
    else
      some ((s.reorderCancel stage (pub.stageSequences stage)).setPublication p
        { pub with phase := .cleanup stages }, .done)
  | _ => none

def act (s : Flow) : Call → Option (Flow × Answer)
  | .number => some ({ s with nextSequence := s.nextSequence + 1 }, .done)
  | .begin p stages =>
    if s.runtimeMutex = none ∧ s.publication p = none ∧ stages.Nodup ∧
        ∀ stage ∈ stages, stage < s.stageCount then
      let sequence := s.nextSequence + 1
      let pub :=
        { sequence
          stageSequences := fun _ => 0
          dispatched := ∅
          refused := none
          phase := .reserving stages }
      some ({ s.setPublication p pub with nextSequence := sequence, runtimeMutex := some p }, .done)
    else none
  | .reserve p => (s.publication p).bind (s.reserveStage p)
  | .enter p stage => (s.publication p).bind fun pub => s.enterStage p pub stage
  | .resume p timedOut => (s.publication p).bind fun pub => s.resumeStage p pub timedOut
  | .leave p => (s.publication p).bind (s.leaveStage p)
  | .emit p stage descendants =>
    (s.publication p).bind fun pub =>
      if pub.phase = .running ∧ stage ∈ pub.dispatched ∧ stage ∉ descendants then
        some (s.setPublication p { pub with phase := .emitting descendants }, .done)
      else none
  | .cancelDescendant p => (s.publication p).bind (s.cancelDescendantStage p)
  | .finish p =>
    (s.publication p).bind fun pub =>
      if pub.phase = .running then
        some (s.setPublication p { pub with phase := .cleanup (range s.stageCount) }, .done)
      else none
  | .cancelStage p => (s.publication p).bind (s.cancelCleanupStage p)
  | .stop stage =>
    (s.boundary stage).bind fun t =>
      some (s.setBoundary stage { t with boundary := t.boundary.stop }, .done)

end Flow

end TurboFlow.Reorder
