import TurboFlow.Lib.Run
import TurboFlow.Lib.Saga
import TurboFlow.Status

/-!
# The discovery controller

A controller reconciles versioned peer lists onto a fixed set of adapter slots. A list is turned
into one target per slot; the owners are then commanded, first those that get an endpoint, then
those that lose their peer. If a command fails, the applied ones are undone in reverse phase order.

The model keeps each owner beside its slot. A command answered with `SALTS_OK` does `Owner.obey`,
any other nothing; `answer n` is the answer to the `n`-th command. Allocation failures are left out.
-/

namespace TurboFlow.Discovery

open Saga (Outcome pass sweep)

/-- The address part of `turbo_flow_discovery_peer_t`. -/
structure Endpoint where
  host : String
  path : String
  port : ℤ
  deriving DecidableEq

/-- The copied fields of `turbo_flow_discovery_peer_t`. -/
structure Peer extends Endpoint where
  peerId : String
  deriving DecidableEq

/-- The fields of `flow_discovery_slot_t`. The peer of an inactive slot is absent. -/
structure Slot where
  adapterName : String
  peer : Option Peer
  deriving DecidableEq

/-- The `active` flag. -/
def Slot.active (s : Slot) : Bool :=
  s.peer.isSome

structure Owner where
  endpoint : Endpoint
  running : Bool
  deriving DecidableEq

/-- `turbo_flow_resource_command_kind_t`, as far as the controller uses it. -/
inductive Command
  | quiesce
  | resume
  | replaceEndpoint (e : Endpoint)

def Owner.obey (o : Owner) : Command → Owner
  | .quiesce => { o with running := false }
  | .resume => { o with running := true }
  | .replaceEndpoint e => { o with endpoint := e }

inductive Action
  | none
  | add
  | replace
  | remove
  deriving DecidableEq

structure Place where
  slot : Slot
  owner : Owner
  deriving DecidableEq

structure Cell extends Place where
  target : Option Peer
  action : Action

/-- `turbo_flow_discovery_controller_t` and the owners it manages. -/
structure World where
  places : List Place
  registryVersion : ℕ
  consistent : Bool
  deriving DecidableEq

def World.slots (w : World) : List Slot :=
  w.places.map (·.slot)

def maxPeers : ℕ := 256

/-! ### Targets -/

def peerValid (p : Peer) : Bool :=
  p.peerId ≠ "" &&
    if p.host ≠ "" then 0 < p.port && p.port ≤ 65535 else p.path ≠ "" && p.port = 0

def slotEndpointEqual (s : Slot) (target : Peer) : Bool :=
  match s.peer with
  | none => false
  | some p =>
    p.port = target.port && p.peerId = target.peerId && p.host = target.host &&
      p.path = target.path

def findActivePeer (slots : List Slot) (peerId : String) : Option ℕ :=
  slots.findIdx? fun s => s.peer.any fun p => p.peerId = peerId

def targetSet (targets : List (Option Peer)) (i : ℕ) (p : Peer) :
    Except Status (List (Option Peer)) :=
  match targets[i]? with
  | some none => .ok (targets.set i (some p))
  | _ => .error .einval

/-- The first loop of `flow_discovery_build_targets`: a peer that is active keeps its slot. -/
def keepActive (slots : List Slot) :
    List Peer → List Peer → List (Option Peer) → Except Status (List (Option Peer))
  | _, [], targets => .ok targets
  | prior, p :: rest, targets =>
    if !peerValid p then .error .einval
    else if prior.any (fun q => q.peerId = p.peerId) then .error .eproto
    else
      match findActivePeer slots p.peerId with
      | none => keepActive slots (prior ++ [p]) rest targets
      | some i =>
        match targetSet targets i p with
        | .error rc => .error rc
        | .ok targets => keepActive slots (prior ++ [p]) rest targets

/-- The slot for a peer that is not active: without a target, and inactive if there is such a
slot. -/
def selectSlot (slots : List Slot) (targets : List (Option Peer)) : Option ℕ :=
  match (slots.zip targets).findIdx? fun e => !e.1.active && e.2.isNone with
  | some i => some i
  | none => targets.findIdx? Option.isNone

/-- The second loop of `flow_discovery_build_targets`. -/
def placeNew (slots : List Slot) :
    List Peer → List (Option Peer) → Except Status (List (Option Peer))
  | [], targets => .ok targets
  | p :: rest, targets =>
    match findActivePeer slots p.peerId with
    | some _ => placeNew slots rest targets
    | none =>
      match selectSlot slots targets with
      | none => .error .enospc
      | some i =>
        match targetSet targets i p with
        | .error rc => .error rc
        | .ok targets => placeNew slots rest targets

def buildTargets (slots : List Slot) (registryVersion : ℕ) (peers : List Peer) :
    Except Status (List (Option Peer)) :=
  if registryVersion = 0 ∨ slots.length < peers.length ∨ maxPeers < peers.length then
    .error (if slots.length < peers.length then .enospc else .einval)
  else
    match keepActive slots [] peers (List.replicate slots.length none) with
    | .error rc => .error rc
    | .ok targets => placeNew slots peers targets

def targetsEqual (slots : List Slot) (targets : List (Option Peer)) : Bool :=
  (slots.zip targets).all fun e =>
    match e.2 with
    | none => !e.1.active
    | some p => e.1.active && slotEndpointEqual e.1 p

/-! ### Commands -/

/-- `flow_discovery_command`: the `n`-th command of a call, sent to the owner of a cell. -/
def command (answer : ℕ → Status) (n : ℕ) (c : Cell) (kind : Command) : Outcome Cell Status :=
  if answer n = .ok then ⟨{ c with owner := c.owner.obey kind }, n + 1, .ok⟩
  else ⟨c, n + 1, answer n⟩

/-- The body of the first command loop: a new target gets its endpoint, and an inactive slot is
resumed. -/
def applyTarget (answer : ℕ → Status) (n : ℕ) (c : Cell) : Outcome Cell Status :=
  match c.target with
  | none => ⟨c, n, .ok⟩
  | some p =>
    if slotEndpointEqual c.slot p then ⟨c, n, .ok⟩
    else
      let r := command answer n c (.replaceEndpoint p.toEndpoint)
      if r.status ≠ .ok then r
      else if c.slot.active then ⟨{ r.value with action := .replace }, r.next, .ok⟩
      else command answer r.next { r.value with action := .add } .resume

def applyRemoval (answer : ℕ → Status) (n : ℕ) (c : Cell) : Outcome Cell Status :=
  if c.target.isSome ∨ c.slot.active = false then ⟨c, n, .ok⟩
  else
    let r := command answer n c .quiesce
    if r.status ≠ .ok then r else ⟨{ r.value with action := .remove }, r.next, .ok⟩

/-- The two command loops of `turbo_flow_discovery_replace_peer_list`. -/
def applyAll (answer : ℕ → Status) (cells : List Cell) : Outcome (List Cell) Status :=
  let r := pass .ok (applyTarget answer) 0 cells
  if r.status = .ok then pass .ok (applyRemoval answer) r.next r.value else r

/-- The body of the first loop of `flow_discovery_rollback`. -/
def undoRemoval (answer : ℕ → Status) (n : ℕ) (c : Cell) : Outcome Cell Status :=
  if c.action = .remove then command answer n c .resume else ⟨c, n, .ok⟩

/-- The body of the second loop of `flow_discovery_rollback`. A replaced slot has a peer to
restore. -/
def undoTarget (answer : ℕ → Status) (n : ℕ) (c : Cell) : Outcome Cell Status :=
  match c.action, c.slot.peer with
  | .add, _ => command answer n c .quiesce
  | .replace, some p => command answer n c (.replaceEndpoint p.toEndpoint)
  | _, _ => ⟨c, n, .ok⟩

def rollback (answer : ℕ → Status) (n : ℕ) (cells : List Cell) : Outcome (List Cell) Status :=
  let r := sweep .ok (undoRemoval answer) n cells
  let r' := sweep .ok (undoTarget answer) r.next r.value
  ⟨r'.value, r'.next, if r.status = .ok then r'.status else r.status⟩

/-! ### Replacement -/

structure Result where
  status : Status
  rollbackStatus : Status
  versionBefore : ℕ
  versionAfter : ℕ
  added : ℕ
  updated : ℕ
  removed : ℕ
  unchanged : ℕ

/-- A call of `turbo_flow_discovery_replace_peer_list`: whether the flow is STARTED, the list, and
the answers it gets. -/
structure Request where
  started : Bool
  registryVersion : ℕ
  peers : List Peer
  scope : Status
  answer : ℕ → Status

/-- What a call returns and writes. The commands from `attempted` up to `issued` are
compensations. -/
structure Reply where
  returned : Status
  result : Option Result
  attempted : ℕ
  issued : ℕ

def Reply.refused : Reply :=
  { returned := .einval, result := none, attempted := 0, issued := 0 }

def World.settle (w : World) (rc : Status) (unchanged : ℕ) : Reply :=
  { returned := rc
    result := some
      { status := rc, rollbackStatus := .ok, versionBefore := w.registryVersion, versionAfter :=
        w.registryVersion, added := 0, updated := 0, removed := 0, unchanged := unchanged }
    attempted := 0
    issued := 0 }

def World.cells (w : World) (targets : List (Option Peer)) : List Cell :=
  List.zipWith (fun p t => { p with target := t, action := .none }) w.places targets

def Cell.budget (c : Cell) : ℕ :=
  match c.target with
  | some p => if slotEndpointEqual c.slot p then 0 else if c.slot.active then 2 else 3
  | none => if c.slot.active then 2 else 0

/-- What `flow_discovery_commit` makes of one slot. -/
def Cell.commit (c : Cell) : Place :=
  { slot := { c.slot with peer := c.target }, owner := c.owner }

/-- Whether `flow_discovery_commit` counts the slot as unchanged. -/
def Cell.unchanged (c : Cell) : Bool :=
  c.target.any (slotEndpointEqual c.slot)

def commitResult (w : World) (registryVersion : ℕ) (cells : List Cell) : Result :=
  { status := .ok
    rollbackStatus := .ok
    versionBefore := w.registryVersion
    versionAfter := registryVersion
    added := cells.countP fun c => c.target.isSome && !c.slot.active
    updated := cells.countP fun c => c.target.isSome && c.slot.active && !c.unchanged
    removed := cells.countP fun c => c.target.isNone && c.slot.active
    unchanged := cells.countP fun c => c.target.isSome && c.slot.active && c.unchanged }

/-- The part of `turbo_flow_discovery_replace_peer_list` that commands the owners. -/
def World.commandOwners (w : World) (q : Request) (targets : List (Option Peer)) : World × Reply :=
  let r := applyAll q.answer (w.cells targets)
  if r.status = .ok then
    ({ w with places := r.value.map Cell.commit, registryVersion := q.registryVersion },
      { returned := .ok, result := some (commitResult w q.registryVersion r.value),
        attempted := r.next, issued := r.next })
  else
    let undone := rollback q.answer r.next r.value
    ({ w with places := undone.value.map Cell.toPlace, consistent := undone.status = .ok },
      { returned := if undone.status = .ok then r.status else undone.status
        result := some
          { status := r.status, rollbackStatus := undone.status,
            versionBefore := w.registryVersion, versionAfter := w.registryVersion,
            added := 0, updated := 0, removed := 0, unchanged := 0 }
        attempted := r.next
        issued := undone.next })

def World.replacePeerList (w : World) (q : Request) : World × Reply :=
  if !w.consistent || !q.started then (w, Reply.refused)
  else
    match buildTargets w.slots q.registryVersion q.peers with
    | .error rc => (w, w.settle rc 0)
    | .ok targets =>
      if q.registryVersion < w.registryVersion then (w, w.settle .ealready 0)
      else if q.registryVersion = w.registryVersion then
        if targetsEqual w.slots targets then (w, w.settle .ok q.peers.length)
        else (w, w.settle .eproto 0)
      else if ((w.cells targets).map Cell.budget).sum ≠ 0 ∧ q.scope ≠ .ok then
        (w, w.settle q.scope 0)
      else w.commandOwners q targets

/-- What a registry source's `fetch` answers: status, stored peers, and the number of them it
claims. -/
structure Fetch where
  status : Status
  count : ℕ

/-- `turbo_flow_discovery_poll`. The peers of the request are the array the source filled. -/
def World.poll (w : World) (fetch : Fetch) (q : Request) : World × Reply :=
  if !w.consistent || !q.started then (w, Reply.refused)
  else if fetch.status ≠ .ok then (w, w.settle fetch.status 0)
  else if w.slots.length < fetch.count then (w, w.settle .enospc 0)
  else w.replacePeerList { q with peers := q.peers.take fetch.count }

/-! ### Creation -/

/-- A configured adapter: what `flow_find_adapter_command_resource` answers, and the owner found. -/
structure Adapter where
  name : String
  lookup : Status
  owner : Owner

/-- A call of `turbo_flow_discovery_controller_create`. -/
structure Setup where
  started : Bool
  adapters : List Adapter
  scope : Status
  answer : ℕ → Status

def checkAdapters : List Adapter → List Adapter → Status
  | _, [] => .ok
  | prior, a :: rest =>
    if a.name = "" then .einval
    else if prior.any (fun b => b.name = a.name) then .eproto
    else if a.lookup ≠ .ok then a.lookup
    else checkAdapters (prior ++ [a]) rest

def Adapter.cell (a : Adapter) : Cell :=
  { slot := { adapterName := a.name, peer := none }, owner := a.owner, target := none,
    action := .none }

def quiesceSlot (answer : ℕ → Status) (n : ℕ) (c : Cell) : Outcome Cell Status :=
  let r := command answer n c .quiesce
  if r.status ≠ .ok then r else ⟨{ r.value with action := .remove }, r.next, .ok⟩

/-- `turbo_flow_discovery_controller_create`: the controller, or the owners it leaves behind and its
status. -/
def create (c : Setup) : World ⊕ (List Owner × Status) :=
  let owners := c.adapters.map (·.owner)
  if c.adapters.length = 0 ∨ maxPeers < c.adapters.length ∨ c.started = false then
    .inr (owners, .einval)
  else if checkAdapters [] c.adapters ≠ .ok then .inr (owners, checkAdapters [] c.adapters)
  else if c.scope ≠ .ok then .inr (owners, c.scope)
  else
    let r := pass .ok (quiesceSlot c.answer) 0 (c.adapters.map Adapter.cell)
    if r.status = .ok then
      .inl { places := r.value.map Cell.toPlace, registryVersion := 0, consistent := true }
    else
      let undone := sweep .ok (undoRemoval c.answer) r.next r.value
      .inr (undone.value.map (·.owner), if undone.status = .ok then r.status else undone.status)

/-! ### Runs -/

inductive Operation
  | replace (q : Request)
  | poll (fetch : Fetch) (q : Request)

def act (w : World) : Operation → Option (World × Reply)
  | .replace q => some (w.replacePeerList q)
  | .poll fetch q => some (w.poll fetch q)

end TurboFlow.Discovery
