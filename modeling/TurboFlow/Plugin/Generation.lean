import TurboFlow.Lib.Stages
import TurboFlow.Status

/-!
# Retirement of a plugin generation

`turbo_flow_plugin_generation_destroy` takes down the Graph, the runtime owners, the sessions and
the projection owners of a generation in stages and returns at the first that fails; the caller
repeats it until it returns `SALTS_OK` (`flow_plugin_generation.c`, `flow_provider_generation.c`,
`flow_provider_instance.c`, `flow_plugin_operation.c`).

`Answers` is what the environment answers during a call, an `Event` what can be observed of a
callback.
-/

namespace TurboFlow.Plugin

open Stages

structure ConfigError where
  status : Status
  path : String
  message : String

def generationError (status : Status) (path message : String) : ConfigError :=
  ⟨status, path, message⟩

@[simp] def providerGenerationError (status : Status) (stageName phase message : String) :
    ConfigError :=
  ⟨status, "$.stages." ++ stageName ++ "." ++ phase, message⟩

def operationError (index : ℕ) (field : String) (status : Status) : ConfigError :=
  ⟨status, "$.operation_bindings[" ++ toString index ++ "]." ++ field,
    "operation " ++ field ++ " failed"⟩

/-- `flow_plugin_generation_materializer_error` without a field. -/
def materializerError (status : Status) (index : ℕ) (message : String) : ConfigError :=
  generationError status ("$.materializer_bindings[" ++ toString index ++ "]") message

inductive Callback
  | quiesce
  | drain
  | shutdown
  | destroy
  deriving DecidableEq

inductive Event
  /-- A callback of the owner with index `i`. -/
  | call (c : Callback) (i : ℕ) (status : Status)
  /-- The Graph was started, or its start left adapters to stop; also shown for a refused start of a
  live Graph. -/
  | start
  /-- `turbo_flow_stop`. -/
  | stop (status : Status)
  /-- `release_session` of the operation binding with index `j`. -/
  | session (j : ℕ) (status : Status)
  /-- `turbo_flow_destroy`. -/
  | graphDestroyed
  /-- `flow_compiled_provider_instance_release` of the entry with index `i`. -/
  | lease (i : ℕ) (status : Status)
  deriving DecidableEq

/-! ### The Graph -/

inductive FlowState
  | new
  | parsed
  | compiled
  | started
  | stopped
  | failed
  deriving DecidableEq

inductive Admission
  | closed
  | opened
  | paused
  | resizing
  | stopping
  deriving DecidableEq

/-- What starting and stopping read and write of a `turbo_flow_t`. -/
structure Graph where
  state : FlowState
  admission : Admission
  adapterStopRetryable : Bool

/-- `turbo_flow_stop`: `nonSource` and `source` are what the adapters' stop callbacks return. -/
def turboFlowStop (nonSource source : Status) (graph : Graph) : Status × Graph :=
  if graph.admission = .stopping then (.ebusy, graph)
  else if graph.state ≠ .started ∧
    ¬ (graph.state = .failed ∧ graph.adapterStopRetryable = true) then
    (.einval, graph)
  else if graph.admission = .resizing then (.ebusy, graph)
  else
    let status := if nonSource ≠ .ok then nonSource else source
    if status ≠ .ok then (status, ⟨.failed, .closed, true⟩)
    else (.ok, ⟨.stopped, .closed, false⟩)

inductive StartAnswer
  | started
  /-- A check or a resource failed and what had been started is stopped again. -/
  | refused (status : Status)
  /-- An adapter failed to start and the adapters before it did not stop. -/
  | rollbackFailed (status : Status)

def turboFlowStart (answer : StartAnswer) (graph : Graph) : Status × Graph :=
  if graph.state ≠ .compiled ∧ graph.state ≠ .stopped then (.einval, graph)
  else
    match answer with
    | .started => (.ok, ⟨.started, .opened, false⟩)
    | .refused status => (status, graph)
    | .rollbackFailed status => (status, ⟨.failed, .closed, true⟩)

inductive ResizeAnswer
  | refused (status : Status)
  | timedOut
  | resized
  /-- The new pools could not be built; the old ones were. -/
  | restored (status : Status)
  /-- Neither the new nor the old pools could be built, and `adapterStop` is what stopping the
  adapters returned. -/
  | rollbackFailed (status adapterStop : Status)

def turboFlowResizePool (answer : ResizeAnswer) (graph : Graph) : Status × Graph :=
  if graph.state ≠ .started then (.einval, graph)
  else if graph.admission = .stopping then (.eshutdown, graph)
  else if graph.admission = .resizing then (.ebusy, graph)
  else
    match answer with
    | .refused status => (status, graph)
    | .timedOut => (.etimedout, { graph with admission := .paused })
    | .resized => (.ok, graph)
    | .restored status => (status, graph)
    | .rollbackFailed status adapterStop =>
      (if adapterStop ≠ .ok then adapterStop else status,
        ⟨.failed, .closed, decide (adapterStop ≠ .ok)⟩)

/-! ### Providers and their owners -/

inductive OwnerState
  | prepared
  | materialized
  | quiesced
  | drained
  | shutdown
  | ownerDestroyed
  deriving DecidableEq

def OwnerState.rank : OwnerState → ℕ
  | .prepared => 0
  | .materialized => 1
  | .quiesced => 2
  | .drained => 3
  | .shutdown => 4
  | .ownerDestroyed => 5

/-- `flow_compiled_provider_instance_t`: owner, typed configuration and two bindings with a plugin
lease each. -/
structure Instance where
  ownerLive : Bool
  /-- `turbo_flow_runtime_owner_contract_valid`. -/
  ownerValid : Bool
  typedConfig : Bool
  resourceBinding : Bool
  providerBinding : Bool

structure Entry where
  name : String
  state : OwnerState
  compiled : Option Instance

/-- A loop of `flow_provider_generation.c` that makes one callback for every owner. -/
structure Phase where
  callback : Callback
  target : OwnerState
  /-- The state an owner must have reached, and the message when it has not. -/
  requires : Option (OwnerState × String)
  field : String
  message : String

def Phase.misses (p : Phase) (e : Entry) : Option String :=
  match p.requires with
  | some (needed, message) => if e.state.rank < needed.rank then some message else none
  | none => none

def Phase.visit (p : Phase) (answer : ℕ → Status) (i : ℕ) (e : Entry) :
    Outcome Entry Event ConfigError :=
  if e.state = .prepared then ⟨e, [], none⟩
  else
    match p.misses e with
    | some message => ⟨e, [], some (providerGenerationError .ebusy e.name p.field message)⟩
    | none =>
      if p.target.rank ≤ e.state.rank then ⟨e, [], none⟩
      else if answer i ≠ .ok then
        ⟨e, [.call p.callback i (answer i)],
          some (providerGenerationError (answer i) e.name p.field p.message)⟩
      else ⟨{ e with state := p.target }, [.call p.callback i .ok], none⟩

def quiescing : Phase :=
  ⟨.quiesce, .quiesced, none, "quiesce", "provider runtime owner quiesce failed"⟩

def draining : Phase :=
  ⟨.drain, .drained, some (.quiesced, "provider owner must quiesce before drain"), "drain",
    "provider runtime owner drain failed"⟩

def shuttingDown : Phase :=
  ⟨.shutdown, .shutdown, some (.drained, "provider owner must drain before shutdown"), "shutdown",
    "provider runtime owner shutdown failed"⟩

def flowProviderGenerationQuiesce (answer : ℕ → Status) :
    List Entry → Outcome (List Entry) Event ConfigError :=
  backward (quiescing.visit answer) 0

def flowProviderGenerationDrain (answer : ℕ → Status) :
    List Entry → Outcome (List Entry) Event ConfigError :=
  backward (draining.visit answer) 0

def flowProviderGenerationShutdown (answer : ℕ → Status) :
    List Entry → Outcome (List Entry) Event ConfigError :=
  backward (shuttingDown.visit answer) 0

def instanceOwnerDestroy (c : Instance) : Status × Instance :=
  if c.ownerLive = false then (.einval, c)
  else if c.ownerValid = false then (.eproto, c)
  else (.ok, { c with ownerLive := false, ownerValid := false })

/-- The body of the loop of `flow_provider_generation_owner_destroy`. The callback returns
nothing. -/
def visitOwnerDestroy (i : ℕ) (e : Entry) : Outcome Entry Event ConfigError :=
  if e.state = .prepared ∨ OwnerState.rank .ownerDestroyed ≤ e.state.rank then ⟨e, [], none⟩
  else if e.state.rank < OwnerState.rank .shutdown then
    ⟨e, [], some (providerGenerationError .ebusy e.name "destroy"
      "provider owner must shut down before destroy")⟩
  else
    match e.compiled with
    | none =>
      ⟨e, [], some (providerGenerationError .einval e.name "destroy"
        "provider runtime owner destroy failed")⟩
    | some c =>
      let r := instanceOwnerDestroy c
      if r.1 ≠ .ok then
        ⟨e, [], some (providerGenerationError r.1 e.name "destroy"
          "provider runtime owner destroy failed")⟩
      else
        ⟨{ e with compiled := some r.2, state := .ownerDestroyed }, [.call .destroy i .ok], none⟩

def flowProviderGenerationOwnerDestroy :
    List Entry → Outcome (List Entry) Event ConfigError :=
  backward visitOwnerDestroy 0

structure LeaseAnswers where
  typedConfig : Status
  resource : Status
  provider : Status

/-- The first status that is not `SALTS_OK`. -/
def firstFailure (first rc : Status) : Status :=
  if rc ≠ .ok ∧ first = .ok then rc else first

/-- `compiled_provider_cleanup`: a part whose release fails stays, the typed configuration apart. -/
def compiledProviderCleanup (a : LeaseAnswers) (c : Instance) : Status × Instance :=
  if c.ownerLive = true then (.ebusy, c)
  else
    let first := if c.typedConfig = true then firstFailure .ok a.typedConfig else .ok
    let first := if c.resourceBinding = true then firstFailure first a.resource else first
    let first := if c.providerBinding = true then firstFailure first a.provider else first
    (first, { c with
        typedConfig := false
        resourceBinding := c.resourceBinding && decide (a.resource ≠ .ok)
        providerBinding := c.providerBinding && decide (a.provider ≠ .ok) })

/-- `flow_compiled_provider_instance_release`: `none` is the freed instance. -/
def instanceRelease (a : LeaseAnswers) (c : Instance) : Status × Option Instance :=
  let r := compiledProviderCleanup a c
  if r.2.resourceBinding = true ∨ r.2.providerBinding = true then
    (if r.1 ≠ .ok then r.1 else .ebusy, some r.2)
  else (r.1, none)

/-- Where the loop of `flow_provider_generation_release` stands: `first` is the failure it
remembers, `returned` that it returned with. -/
structure Releasing where
  entries : List Entry
  events : List Event
  first : Option ConfigError
  returned : Option ConfigError

/-- The loop of `flow_provider_generation_release`, from the last entry. A live owner stops it, a
failed release does not. -/
def releaseEntries (answer : ℕ → LeaseAnswers) (i : ℕ) : List Entry → Releasing
  | [] => ⟨[], [], none, none⟩
  | e :: es =>
    let r := releaseEntries answer (i + 1) es
    match r.returned, e.compiled with
    | some _, _ => { r with entries := e :: r.entries }
    | none, none => { r with entries := e :: r.entries }
    | none, some c =>
      if e.state ≠ .prepared ∧ e.state.rank < OwnerState.rank .ownerDestroyed then
        { r with
          entries := e :: r.entries
          returned := some (providerGenerationError .ebusy e.name "release"
            "provider owner is still live") }
      else
        let q := instanceRelease (answer i) c
        if q.1 ≠ .ok then
          { entries := { e with compiled := q.2 } :: r.entries
            events := r.events ++ [.lease i q.1]
            first := r.first.or (some (providerGenerationError q.1 e.name "release"
              "provider/resource lease release failed"))
            returned := none }
        else
          { r with
            entries := ⟨"", .prepared, none⟩ :: r.entries
            events := r.events ++ [.lease i .ok] }

/-- `flow_provider_generation_release`: the entries are freed where no release failed. -/
def flowProviderGenerationRelease (answer : ℕ → LeaseAnswers) (entries : List Entry) :
    Outcome (Option (List Entry)) Event ConfigError :=
  let r := releaseEntries answer 0 entries
  match r.returned.or r.first with
  | some failure => ⟨some r.entries, r.events, some failure⟩
  | none => ⟨none, r.events, none⟩

/-! ### Operations and materializers -/

/-- The admission word and the session of a `flow_plugin_operation_binding_t`. -/
structure OperationBinding where
  session : Bool
  closed : Bool
  inFlight : ℕ
  maxInflight : ℕ

def flowPluginOperationsClose (bindings : List OperationBinding) :
    Status × List OperationBinding :=
  (if bindings.any fun b => b.inFlight ≠ 0 then .ebusy else .ok,
    bindings.map fun b => { b with closed := true })

/-- The body of the loop of `flow_plugin_operations_release`. -/
def visitSession (answer : ℕ → Status) (j : ℕ) (b : OperationBinding) :
    Outcome OperationBinding Event ConfigError :=
  if b.session = false then ⟨b, [], none⟩
  else if answer j ≠ .ok then
    ⟨b, [.session j (answer j)], some (operationError j "release_session" (answer j))⟩
  else ⟨{ b with session := false }, [.session j .ok], none⟩

def flowPluginOperationsRelease (answer : ℕ → Status) :
    List OperationBinding → Outcome (List OperationBinding) Event ConfigError :=
  backward (visitSession answer) 0

/-- What admission reads of a `turbo_flow_projection_owner_t`. -/
structure ProjectionOwner where
  accepting : Bool
  outstanding : ℕ
  capacity : ℕ

structure Materializer where
  owner : Option ProjectionOwner
  configIndex : ℕ

def flowPluginMaterializersStopAndCheck :
    List Materializer → List Materializer × Option ConfigError
  | [] => ([], none)
  | m :: ms =>
    match m.owner with
    | none =>
      let r := flowPluginMaterializersStopAndCheck ms
      (m :: r.1, r.2)
    | some o =>
      let m' := { m with owner := some { o with accepting := false } }
      if o.outstanding ≠ 0 then
        (m' :: ms, some (materializerError .ebusy m.configIndex
          "materialized projections are still outstanding"))
      else
        let r := flowPluginMaterializersStopAndCheck ms
        (m' :: r.1, r.2)

/-- `flow_plugin_materializer_owner_discard`; `context` is what `release_context` returns. -/
def materializerOwnerDiscard (context : Status) (m : Materializer) : Status :=
  match m.owner with
  | none => .ok
  | some o => if o.outstanding ≠ 0 then .ebusy else context

/-- `flow_plugin_materializers_discard`, from the last binding on. The table is destroyed whatever
the status. -/
def flowPluginMaterializersDiscard (context : ℕ → Status) (i : ℕ) : List Materializer → Status
  | [] => .ok
  | m :: ms =>
    let rest := flowPluginMaterializersDiscard context (i + 1) ms
    if rest ≠ .ok then rest else materializerOwnerDiscard (context i) m

/-! ### The generation -/

inductive GenerationState
  | invalid
  | compiled
  | active
  | quiesced
  | stopped
  | drained
  | shutdown
  | failedCleanup

structure Generation where
  flow : Option Graph
  /-- Creating the generation failed; its Graph never ran. -/
  failed : Bool
  state : GenerationState
  leases : ℕ
  pollClosed : Bool
  providers : Option (List Entry)
  bindings : List OperationBinding
  materializers : List Materializer
  snapshot : Bool
  domain : Bool
  cleanupError : Option ConfigError

/-- What the environment answers during one call of `turbo_flow_plugin_generation_destroy`. -/
structure Answers where
  /-- `flow_durable_buffers_prepare_retire`. -/
  buffers : Status
  quiesce : ℕ → Status
  nonSource : Status
  source : Status
  drain : ℕ → Status
  session : ℕ → Status
  shutdown : ℕ → Status
  lease : ℕ → LeaseAnswers
  /-- The `release_context` callbacks of the materializers. -/
  context : ℕ → Status

structure Answers.Quiet (a : Answers) : Prop where
  buffers : a.buffers = .ok
  quiesce : ∀ i, a.quiesce i = .ok
  nonSource : a.nonSource = .ok
  source : a.source = .ok
  drain : ∀ i, a.drain i = .ok
  session : ∀ i, a.session i = .ok
  shutdown : ∀ i, a.shutdown i = .ok
  lease : ∀ i, a.lease i = ⟨.ok, .ok, .ok⟩
  context : ∀ i, a.context i = .ok

def failing (status : Status) (path message : String) : Option ConfigError :=
  if status ≠ .ok then some (generationError status path message) else none

def checkBuffers (a : Answers) (_ : Generation) : Option ConfigError :=
  failing a.buffers "$.generation.buffers" "durable backlog must settle before retirement"

def checkLeases (g : Generation) : Option ConfigError :=
  if g.leases ≠ 0 then
    some (generationError .ebusy "$.generation.leases" "Graph generation still has active leases")
  else none

def stopMaterializers (g : Generation) : Outcome Generation Event ConfigError :=
  let r := flowPluginMaterializersStopAndCheck g.materializers
  ⟨{ g with materializers := r.1 }, [], r.2⟩

def closeOperations (g : Generation) : Outcome Generation Event ConfigError :=
  let r := flowPluginOperationsClose g.bindings
  ⟨{ g with bindings := r.2 }, [],
    failing r.1 "$.generation.inflight" "operation still executing"⟩

def onProviders (pass : List Entry → Outcome (List Entry) Event ConfigError) (g : Generation) :
    Outcome Generation Event ConfigError :=
  match g.providers with
  | none => ⟨g, [], none⟩
  | some entries =>
    let r := pass entries
    ⟨{ g with providers := some r.state }, r.events, r.failure⟩

def Graph.live (graph : Graph) : Bool :=
  graph.state = .started || graph.state = .failed

def stopGraph (a : Answers) (g : Generation) : Outcome Generation Event ConfigError :=
  match g.flow with
  | none => ⟨g, [], none⟩
  | some graph =>
    if g.failed = false ∧ graph.live = true then
      let r := turboFlowStop a.nonSource a.source graph
      ⟨{ g with flow := some r.2 }, [.stop r.1],
        failing r.1 "$.generation.graph.stop" "Graph stop failed"⟩
    else ⟨g, [], none⟩

def releaseSessions (a : Answers) (g : Generation) : Outcome Generation Event ConfigError :=
  let r := flowPluginOperationsRelease a.session g.bindings
  ⟨{ g with bindings := r.state }, r.events, r.failure⟩

def destroyGraph (g : Generation) : Outcome Generation Event ConfigError :=
  ⟨{ g with flow := none }, [.graphDestroyed], none⟩

def releaseProviders (a : Answers) (g : Generation) : Outcome Generation Event ConfigError :=
  match g.providers with
  | none => ⟨g, [], none⟩
  | some entries =>
    let r := flowProviderGenerationRelease a.lease entries
    ⟨{ g with providers := r.state }, r.events, r.failure⟩

def discardMaterializers (a : Answers) (g : Generation) : Outcome Generation Event ConfigError :=
  ⟨{ g with domain := false, materializers := [] }, [],
    failing (flowPluginMaterializersDiscard a.context 0 g.materializers)
      "$.generation.materializers" "materializer projection owner cleanup failed"⟩

/-- The part of `flow_plugin_generation_retire` for a generation without a Graph. -/
def retireDetached (a : Answers) : Generation → Outcome Generation Event ConfigError :=
  andThen (checking checkLeases) <|
  andThen (releaseProviders a) <|
  silently fun g =>
    { g with snapshot := false, domain := false, materializers := [], bindings := [] }

def retireOwners (a : Answers) : Generation → Outcome Generation Event ConfigError :=
  andThen (silently fun g => { g with pollClosed := true }) <|
  andThen (onProviders (flowProviderGenerationQuiesce a.quiesce)) <|
  andThen (silently fun g => { g with state := .quiesced }) <|
  andThen (stopGraph a) <|
  andThen (silently fun g => { g with state := .stopped }) <|
  andThen (onProviders (flowProviderGenerationDrain a.drain)) <|
  andThen (silently fun g => { g with state := .drained }) <|
  andThen (releaseSessions a) <|
  andThen (onProviders (flowProviderGenerationShutdown a.shutdown)) <|
  andThen (silently fun g => { g with state := .shutdown }) <|
  andThen destroyGraph <|
  onProviders flowProviderGenerationOwnerDestroy

/-- The part of `flow_plugin_generation_retire` for a generation with its Graph. -/
def retireAttached (a : Answers) : Generation → Outcome Generation Event ConfigError :=
  andThen (checking (checkBuffers a)) <|
  andThen stopMaterializers <|
  andThen closeOperations <|
  andThen (checking checkLeases) <|
  andThen (retireOwners a) <|
  andThen (releaseProviders a) <|
  andThen (discardMaterializers a) <|
  silently fun g => { g with snapshot := false, bindings := [] }

def flowPluginGenerationRetire (a : Answers) (g : Generation) :
    Outcome Generation Event ConfigError :=
  match g.flow with
  | none => retireDetached a g
  | some _ => retireAttached a g

/-! ### Runs -/

inductive Operation
  | destroy (a : Answers)
  | leaseAcquire
  | leaseRelease
  | start (answer : StartAnswer)
  | stop (nonSource source : Status)
  | resizePool (answer : ResizeAnswer)
  | beginOperation (j : ℕ)
  | endOperation (j : ℕ)
  | reserveProjection (j : ℕ)
  | releaseProjection (j : ℕ)

structure Reply where
  status : Status
  error : Option ConfigError
  events : List Event

def Reply.plain (status : Status) (events : List Event) : Reply :=
  ⟨status, none, events⟩

/-- `turbo_flow_plugin_generation_destroy`: `none` is the freed generation. -/
def turboFlowPluginGenerationDestroy (a : Answers) (g : Generation) : Option Generation × Reply :=
  let r := flowPluginGenerationRetire a g
  match r.failure with
  | some error =>
    (some { r.state with cleanupError := some error }, ⟨error.status, error, r.events⟩)
  | none => (none, ⟨.ok, none, r.events⟩)

/-- The greatest `size_t`. -/
def sizeMax : ℕ := 2 ^ 64 - 1

def turboFlowPluginGenerationLeaseAcquire (g : Generation) : Generation × Status :=
  if g.leases = sizeMax then (g, .enospc) else ({ g with leases := g.leases + 1 }, .ok)

def turboFlowPluginGenerationLeaseRelease (g : Generation) : Generation × Status :=
  if g.leases = 0 then (g, .einval) else ({ g with leases := g.leases - 1 }, .ok)

def OperationBinding.begin (b : OperationBinding) : OperationBinding × Status :=
  if b.closed = true then (b, .ebusy)
  else if b.maxInflight ≤ b.inFlight then (b, .enospc)
  else ({ b with inFlight := b.inFlight + 1 }, .ok)

def ProjectionOwner.reserve (o : ProjectionOwner) : ProjectionOwner × Status :=
  if o.accepting = false then (o, .ecanceled)
  else if o.capacity ≤ o.outstanding then (o, .enospc)
  else ({ o with outstanding := o.outstanding + 1 }, .ok)

def onGraph (f : Graph → Status × Graph) (shown : Status × Graph → List Event) (g : Generation) :
    Option (Option Generation × Reply) :=
  match g.flow with
  | none => none
  | some graph =>
    if g.failed = true then none
    else
      some (some { g with flow := some (f graph).2 }, .plain (f graph).1 (shown (f graph)))

def onBinding (j : ℕ) (f : OperationBinding → Option (OperationBinding × Status)) (g : Generation) :
    Option (Option Generation × Reply) :=
  match g.bindings[j]? with
  | none => none
  | some b =>
    (f b).map fun r => (some { g with bindings := g.bindings.set j r.1 }, .plain r.2 [])

def onProjection (j : ℕ) (f : ProjectionOwner → Option (ProjectionOwner × Status))
    (g : Generation) : Option (Option Generation × Reply) :=
  match g.materializers[j]? with
  | none => none
  | some m =>
    match m.owner with
    | none => none
    | some o =>
      (f o).map fun r =>
        (some { g with materializers := g.materializers.set j { m with owner := some r.1 } },
          .plain r.2 [])

/-- One call. A freed generation serves none, and only what is outstanding can end. -/
def act : Option Generation → Operation → Option (Option Generation × Reply)
  | none, _ => none
  | some g, .destroy a => some (turboFlowPluginGenerationDestroy a g)
  | some g, .leaseAcquire =>
    let r := turboFlowPluginGenerationLeaseAcquire g
    some (some r.1, .plain r.2 [])
  | some g, .leaseRelease =>
    let r := turboFlowPluginGenerationLeaseRelease g
    some (some r.1, .plain r.2 [])
  | some g, .start answer =>
    onGraph (turboFlowStart answer) (fun r => if r.2.live = true then [.start] else []) g
  | some g, .stop nonSource source =>
    onGraph (turboFlowStop nonSource source) (fun r => [.stop r.1]) g
  | some g, .resizePool answer => onGraph (turboFlowResizePool answer) (fun _ => []) g
  | some g, .beginOperation j => onBinding j (fun b => some b.begin) g
  | some g, .endOperation j =>
    onBinding j
      (fun b => if b.inFlight = 0 then none else some ({ b with inFlight := b.inFlight - 1 }, .ok))
      g
  | some g, .reserveProjection j => onProjection j (fun o => some o.reserve) g
  | some g, .releaseProjection j =>
    onProjection j
      (fun o =>
        if o.outstanding = 0 then none
        else some ({ o with outstanding := o.outstanding - 1 }, .ok))
      g

end TurboFlow.Plugin
