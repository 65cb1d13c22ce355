import TurboFlow.Graph.Marking

/-!
# The broadcast data plane

For a static graph with one source `flow_start_data_planes` creates a broadcast ring: every other
stage becomes a consumer, linked after those of the stages before it. A publication claims a
sequence and visits the consumers round by round; one that may read it executes its stage and
releases it.

The disruptor is not part of the repository. A ring refuses a claim when the slowest consumer is a
full capacity behind, and a consumer may read a published sequence that all consumers before it
released.

`FlowPlan` carries what the compiler has checked of reusable stages: an internal edge stays inside
one composite stage, a source belongs to none, and a stage that no source leads to belongs to a
template that no external edge touches.
-/

namespace TurboFlow.Graph

open Fallible List CompiledPlan

/-- What the data planes read of a stage, beside `Stage`. The scope is its name up to the first dot:
the composite stage it belongs to. -/
structure PlaneStage where
  scope : Option String := none
  workerPool : Bool := false
  reorderCapacity : ℕ := 0
  inlineExec : Bool := true
  keyed : Bool := false
  dynamicDecision : Bool := false
  adapter : Bool := false

namespace CompiledPlan

variable (plan : CompiledPlan)

def Linked (a b : ℕ) : Prop := ∃ e ∈ plan.edges, e.fromStage = a ∧ e.toStage = b

/-- `mark_reachable_from_stage` of the compiler. -/
def Leads (a b : ℕ) : Prop := Relation.ReflTransGen plan.Linked a b

/-- One round of the outer loop of `flow_mark_reachable_from_stage`. -/
def markOutgoing (current : ℕ) (m : Marking) : Except Cause Marking :=
  match plan.outgoing? current with
  | none => .error .malformed
  | some outgoing => outgoing.foldlM (plan.markEdge current) m

def markReachableFromStage (origin : ℕ) : Except Cause Marking :=
  if plan.stageCount ≤ origin then .error .invalidOrigin
  else
    drain Marking.worklist plan.markOutgoing (fun _ => .unfinished) (plan.stageCount + 1) 0
      { reachable := Function.update (fun _ => false) origin true, worklist := [origin] }

end CompiledPlan

/-- `stage_in_inactive_template`: no external edge touches the composite stage. -/
def InactiveTemplate (plan : CompiledPlan) (planes : ℕ → PlaneStage) (internal : Edge → Bool)
    (s : ℕ) : Prop :=
  ∃ scope, (planes s).scope = some scope ∧ ∀ e ∈ plan.edges, internal e = false →
    (planes e.fromStage).scope ≠ some scope ∧ (planes e.toStage).scope ≠ some scope

/-- A compiled flow. `internal` tells the edges inside a composite stage. -/
structure FlowPlan where
  plan : CompiledPlan
  planes : ℕ → PlaneStage
  internal : Edge → Bool
  internal_scope : ∀ e ∈ plan.edges, internal e = true →
    (planes e.fromStage).scope = (planes e.toStage).scope
  source_scope : ∀ s, plan.isSource s = true → (planes s).scope = none
  source_reachable : ∀ s < plan.stageCount,
    (∃ source, plan.isSource source = true ∧ plan.Leads source s) ∨
      InactiveTemplate plan planes internal s

namespace FlowPlan

variable (f : FlowPlan)

def stages : List ℕ := range f.plan.stageCount

def consumers : List ℕ := f.stages.filter fun s => !f.plan.isSource s

def sourceCount : ℕ := f.stages.countP fun s => f.plan.isSource s

def hasDynamicEdges : Bool := f.plan.edges.any fun e => e.kind ≠ .unconditional

def executors : List ℕ :=
  f.stages.filter fun s => !f.plan.isSource s && !f.plan.isPort s && !f.plan.isBuffer s

def requiresExecutorDataPath : Bool :=
  !f.plan.regions.isEmpty || f.stages.any (fun s => f.plan.isBuffer s) ||
    f.executors.any fun s =>
      !(f.planes s).inlineExec || f.plan.emitting s || (f.planes s).keyed ||
        (f.planes s).dynamicDecision || (f.planes s).adapter

/-- The condition under which `flow_start_data_planes` creates the broadcast ring. -/
def selectsBroadcast : Bool :=
  !(f.stages.any (fun s => (f.planes s).workerPool) || f.sourceCount != 1 || f.hasDynamicEdges ||
      f.stages.any (fun s => 0 < (f.planes s).reorderCapacity) || f.requiresExecutorDataPath) &&
    !f.consumers.isEmpty

def linkedAfter (c : ℕ) : List ℕ :=
  (f.plan.edges.filter fun e => e.toStage = c && !f.plan.isSource e.fromStage).map Edge.fromStage

end FlowPlan

def broadcastRingCapacity : ℕ := 1024

/-- The ring: the number of published sequences, and for every consumer its `next_sequence`. -/
structure Ring where
  published : ℕ
  next : ℕ → ℕ

def Ring.empty : Ring := ⟨0, fun _ => 0⟩

/-- `disruptor_publisher_try_claim` fails. -/
def Ring.full (ring : Ring) (consumers : List ℕ) : Bool :=
  consumers.any fun c => broadcastRingCapacity ≤ ring.published - ring.next c

/-- What the callbacks answer during one publication: validation and result of every stage, and
whether the message fits its header. -/
structure Answers where
  validate : ℕ → Status
  headerValid : ℕ → Bool
  result : ℕ → Status

inductive Exit
  | finished
  /-- `flow_mark_reachable_from_stage` failed. -/
  | malformed (cause : Cause)
  /-- `flow_dispatch_validate_stage` failed. -/
  | invalid (status : Status)
  /-- The ring refused the claim. -/
  | full
  /-- The message does not fit the header of its entry. -/
  | header
  /-- A stage failed. -/
  | failed (stage : ℕ) (status : Status)
  /-- A round has not released anything. -/
  | noProgress
  /-- The loop has not ended. -/
  | unfinished

namespace Exit

/-- The status that the source returns. The code of a loop that has not ended is never used. -/
def status : Exit → Status
  | finished => .ok
  | malformed cause => cause.status
  | invalid status => status
  | full => .enospc
  | header => .eproto
  | failed _ status => status
  | noProgress => .einval
  | unfinished => .other 0

def claimed : Exit → Bool
  | malformed _ | invalid _ | full => false
  | _ => true

end Exit

/-- The state of the loop: the released sequences, `done[]`, the consumers to come, whether the
round released one, and who took the message. -/
structure Sweep where
  next : ℕ → ℕ
  done : ℕ → Bool
  pending : ℕ
  progressed : Bool
  order : List ℕ

structure Abort where
  exit : Exit
  sweep : Sweep

structure Publication where
  ring : Ring
  order : List ℕ
  exit : Exit

namespace Sweep

/-- `disruptor_consumer_release_entry` and the lines behind it. -/
def release (sweep : Sweep) (c : ℕ) : Sweep where
  next := Function.update sweep.next c (sweep.next c + 1)
  done := Function.update sweep.done c true
  pending := sweep.pending - 1
  progressed := true
  order := sweep.order ++ [c]

end Sweep

namespace FlowPlan

variable (f : FlowPlan) (answers : Answers) (reach : ℕ → Bool) (published : ℕ)

def readable (sweep : Sweep) (c : ℕ) : Bool :=
  sweep.next c < published && (f.linkedAfter c).all fun p => sweep.next c < sweep.next p

def visit (sweep : Sweep) (c : ℕ) : Except Abort Sweep :=
  if !reach c || sweep.done c then .ok sweep
  else if !f.readable published sweep c then .ok sweep
  else if !answers.headerValid c then .error ⟨.header, sweep⟩
  else if f.plan.isPort c then .ok (sweep.release c)
  else if answers.result c ≠ .ok then
    .error ⟨.failed c (answers.result c), { sweep with order := sweep.order ++ [c] }⟩
  else .ok (sweep.release c)

def sweepOnce (sweep : Sweep) : Except Abort Sweep :=
  f.consumers.foldlM (f.visit answers reach published) { sweep with progressed := false }

/-- The loop of `flow_publish_broadcast_data_plane`. -/
def rounds : ℕ → Sweep → Except Abort Sweep
  | 0, sweep => .error ⟨.unfinished, sweep⟩
  | fuel + 1, sweep =>
    if sweep.pending = 0 then .ok sweep
    else
      f.sweepOnce answers reach published sweep >>= fun sweep =>
        if sweep.progressed then rounds fuel sweep else .error ⟨.noProgress, sweep⟩

def releaseRemaining (sweep : Sweep) (c : ℕ) : ℕ :=
  if c ∈ f.consumers ∧ reach c ∧ sweep.done c = false then sweep.next c + 1 else sweep.next c

def deliver (next : ℕ → ℕ) : Except Abort Sweep :=
  f.rounds answers reach published (f.consumers.length + 1)
    { next
      done := fun _ => false
      pending := f.consumers.countP fun c => reach c
      progressed := false
      order := [] }

def refusal : Option Status :=
  ((f.consumers.filter fun c => reach c && !f.plan.isPort c).map answers.validate).find? (· ≠ .ok)

def publish (source : ℕ) (ring : Ring) : Publication :=
  match f.plan.markReachableFromStage source with
  | .error cause => ⟨ring, [], .malformed cause⟩
  | .ok m =>
    match f.refusal answers m.reachable with
    | some status => ⟨ring, [], .invalid status⟩
    | none =>
      if ring.full f.consumers then ⟨ring, [], .full⟩
      else
        let published := ring.published + 1
        match f.deliver answers m.reachable published ring.next with
        | .ok sweep => ⟨⟨published, sweep.next⟩, sweep.order, .finished⟩
        | .error abort =>
          ⟨⟨published, f.releaseRemaining m.reachable abort.sweep⟩, abort.sweep.order, abort.exit⟩

def publishAct (source : ℕ) (ring : Ring) (answers : Answers) : Option (Ring × Publication) :=
  let publication := f.publish answers source ring
  some (publication.ring, publication)

end FlowPlan

/-! ### Reachability -/

namespace FlowPlan

variable {f : FlowPlan} {s : ℕ}

theorem mem_consumers : s ∈ f.consumers ↔ s < f.plan.stageCount ∧ f.plan.isSource s = false := by
  simp [consumers, stages]

theorem consumers_nodup (f : FlowPlan) : f.consumers.Nodup := nodup_range.filter _

theorem mem_linkedAfter : p ∈ f.linkedAfter c ↔ f.plan.isSource p = false ∧ f.plan.Linked p c := by
  simp only [linkedAfter, Linked, mem_map, mem_filter, Bool.and_eq_true,
    decide_eq_true_eq, Bool.not_eq_true']
  constructor
  · rintro ⟨e, ⟨he, hto, hsource⟩, rfl⟩
    exact ⟨hsource, e, he, rfl, hto⟩
  rintro ⟨hsource, e, he, rfl, hto⟩
  exact ⟨e, ⟨he, hto, hsource⟩, rfl⟩

section Selected

variable (h : f.selectsBroadcast = true)
include h

theorem sourceCount_eq : f.sourceCount = 1 := by
  simp only [selectsBroadcast, Bool.and_eq_true, Bool.not_eq_true', Bool.or_eq_false_iff] at h
  simpa using h.1.1.1.1.2

theorem executorDataPath_eq : f.requiresExecutorDataPath = false := by
  simp only [selectsBroadcast, Bool.and_eq_true, Bool.not_eq_true', Bool.or_eq_false_iff] at h
  exact h.1.2

theorem kind_eq (he : e ∈ f.plan.edges) : e.kind = .unconditional := by
  simp only [selectsBroadcast, Bool.and_eq_true, Bool.not_eq_true', Bool.or_eq_false_iff] at h
  have hstatic : f.hasDynamicEdges = false := h.1.1.1.2
  simpa using any_eq_false.mp hstatic e he

theorem regions_eq : f.plan.regions = [] := by
  have hpath := executorDataPath_eq h
  simp only [requiresExecutorDataPath, Bool.or_eq_false_iff] at hpath
  simpa using hpath.1.1

theorem isBuffer_eq (s : ℕ) : f.plan.isBuffer s = false := by
  by_cases hs : s < f.plan.stageCount
  · have hpath := executorDataPath_eq h
    simp only [requiresExecutorDataPath, Bool.or_eq_false_iff] at hpath
    simpa using any_eq_false.mp hpath.1.2 s (mem_range.mpr hs)
  have hnone : f.plan.stages[s]? = none := getElem?_eq_none (Nat.le_of_not_lt hs)
  rw [isBuffer, hnone]
  rfl

theorem source_unique (hsource : f.plan.isSource source = true) (hs : f.plan.isSource s = true) :
    s = source := by
  have hlt : ∀ t, f.plan.isSource t = true → t ∈ f.stages := by
    intro t ht
    refine mem_range.mpr ?_
    by_contra hge
    have hnone : f.plan.stages[t]? = none := getElem?_eq_none (Nat.le_of_not_lt hge)
    rw [isSource, hnone] at ht
    cases ht
  have hone : (f.stages.filter fun s => f.plan.isSource s).length = 1 := by
    rw [← countP_eq_length_filter]
    exact sourceCount_eq h
  obtain ⟨t, ht⟩ := length_eq_one_iff.mp hone
  have hmem : ∀ s, f.plan.isSource s = true → s = t := by
    intro s hs
    have := mem_filter.mpr ⟨hlt s hs, hs⟩
    rw [ht] at this
    exact mem_singleton.mp this
  rw [hmem s hs, hmem source hsource]

theorem executor_plain (hs : s ∈ f.executors) : f.plan.emitting s = false := by
  have hpath := executorDataPath_eq h
  simp only [requiresExecutorDataPath, Bool.or_eq_false_iff] at hpath
  have hplain := any_eq_false.mp hpath.2 s hs
  simp only [Bool.not_eq_true, Bool.or_eq_false_iff] at hplain
  exact hplain.1.1.1.2

theorem reaches_iff_leads : f.plan.Reaches origin s ↔ f.plan.Leads origin s := by
  constructor
  · intro hreach
    induction hreach with
    | origin => exact .refl
    | @edge e he _ _ ih => exact ih.tail ⟨e, he, rfl, rfl⟩
  intro hleads
  induction hleads with
  | refl => exact .origin
  | tail _ hlink ih =>
    obtain ⟨e, he, rfl, rfl⟩ := hlink
    exact .edge he ih (.inr (isBuffer_eq h _))

theorem markReachable_spec (horigin : origin < f.plan.stageCount) :
    ∃ m, f.plan.markReachableFromStage origin = .ok m ∧
      ∀ s, m.reachable s = true ↔ f.plan.Reaches origin s := by
  have hstep : f.plan.markOutgoing = f.plan.markStage origin := by
    funext current m
    rw [markOutgoing, markStage]
    cases f.plan.outgoing? current with
    | none => rfl
    | some outgoing => simp [isBuffer_eq h]
  rw [markReachableFromStage, hstep]
  exact mark_spec horigin

end Selected

theorem not_inactive_of_leads (hsource : f.plan.isSource source = true)
    (hs : f.plan.Leads source s) : ¬ InactiveTemplate f.plan f.planes f.internal s := by
  induction hs with
  | refl =>
    rintro ⟨scope, hscope, -⟩
    rw [f.source_scope source hsource] at hscope
    cases hscope
  | tail _ hlink ih =>
    obtain ⟨e, he, rfl, rfl⟩ := hlink
    rintro ⟨scope, hscope, hexternal⟩
    cases hinternal : f.internal e with
    | true =>
      exact ih ⟨scope, (f.internal_scope e he hinternal).trans hscope, hexternal⟩
    | false => exact (hexternal e he hinternal).2 hscope

theorem leads_of_linked (h : f.selectsBroadcast = true) (hsource : f.plan.isSource source = true)
    (hlink : f.plan.Linked p c) (hc : f.plan.Leads source c) : f.plan.Leads source p := by
  obtain ⟨e, he, rfl, rfl⟩ := hlink
  rcases f.source_reachable e.fromStage (f.plan.edges_lt e he).1 with
    ⟨source', hsource', hleads⟩ | ⟨scope, hscope, hexternal⟩
  · rwa [source_unique h hsource hsource'] at hleads
  -- The tail belongs to an inactive template, and so would the head.
  refine absurd ?_ (not_inactive_of_leads hsource hc)
  cases hinternal : f.internal e with
  | true =>
    exact ⟨scope, (f.internal_scope e he hinternal).symm.trans hscope, hexternal⟩
  | false => exact absurd hscope (hexternal e he hinternal).1

end FlowPlan

end TurboFlow.Graph
