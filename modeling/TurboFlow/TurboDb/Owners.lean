import TurboFlow.TurboDb.Intact
import TurboFlow.Inbox.Scan
import TurboFlow.Lib.Run

/-!
# Owners of a namespace

Processes open a namespace, take it over from each other, crash and destroy their provider. The
calls of an owner run concurrently: a call starts with the argument checks and what it reserves,
takes a connection, runs its transaction, and a failed settlement reads the metadata once more.

The SQL engine answers every transaction with a status; one that it fails has no effect. `act`
performs one step, and `act_effect` says once what a step can do.
-/

namespace TurboFlow.TurboDb

open Inbox List Option

/-- `orm_status_t`. -/
inductive OrmStatus
  | ok
  | invalidArgument
  | abiMismatch
  | typeError
  | nullValue
  | constraint
  | outOfMemory
  | outOfRange
  | limitExceeded
  | busy
  | invalidState
  | unsupported
  | failed
  deriving DecidableEq

def inboxOrmStatus : OrmStatus → Status
  | .ok => .ok
  | .invalidArgument => .einval
  | .abiMismatch | .typeError | .nullValue | .constraint => .eproto
  | .outOfMemory => .enomem
  | .outOfRange => .erange
  | .limitExceeded => .enospc
  | .busy | .invalidState => .ebusy
  | .unsupported => .enotsup
  | .failed => .eio

def transact {α : Type} (engine : OrmStatus) (body : Except Status α) : Except Status α :=
  if engine = .ok then body else .error (inboxOrmStatus engine)

variable {i : ℕ} {engine : OrmStatus}

theorem transact_eq_ok {α : Type} {body : Except Status α} {a : α}
    (h : transact engine body = .ok a) : body = .ok a := by
  unfold transact at h
  split at h
  · exact h
  · cases h

inductive LeaseState
  | free
  | reserved
  | active
  | settling
  deriving DecidableEq

/-- `inbox_lease_t`; the record is present while the lease has storage. -/
structure Lease where
  state : LeaseState
  recordId : ℕ
  claimToken : ℕ
  record : Option Record

/-- A lease after `inbox_lease_release`. -/
def Lease.free : Lease := ⟨.free, 0, 0, none⟩

inductive Operation
  | admitRecord (record : CallerRecord)
  | claim
  | claimEx (request : ClaimRequest)
  | complete (recordId claimToken : ℕ)
  | fail (recordId claimToken : ℕ) (status : Status)
  | retry (recordId : ℕ)
  | discard (recordId : ℕ)
  | forget (recordId : ℕ)
  | scanFailed (afterId capacity : ℕ)
  | scanHistory (afterId capacity : ℕ)
  | close
  | snapshot

abbrev ValidRecord := { record : Record // WellFormed record ∧ Representable record }

abbrev Settlement := { mv : Move // mv.before = .claimed ∧ mv ≠ .fail .ok }

abbrev FailedMove := { mv : Move // mv.before = .failed }

/-- A call in progress, at the step that is due. A claim and a settlement hold an index into the
lease table. -/
inductive Call
  | admitRecord (record : ValidRecord)
  | claim (connected : Bool) (lease : ℕ) (request : ClaimRequest)
  | settle (connected : Bool) (lease recordId claimToken : ℕ) (mv : Settlement)
  | reread (lease : ℕ) (rc : Status)
  | failedTransition (recordId : ℕ) (mv : FailedMove)
  | forget (recordId : ℕ)
  | scanFailed (afterId capacity : ℕ)
  | scanHistory (afterId capacity : ℕ)
  | close
  | snapshot

def Call.connected : Call → Bool
  | .claim connected _ _ => connected
  | .settle connected _ _ _ _ => connected
  | _ => true

inductive Result
  | admitted (rc : Status) (recordId : ℕ)
  | claimed (claim : Except Status Claim)
  | status (rc : Status)
  | failed (page : Except Status (List FailedEntry))
  | history (page : Except Status (List HistoryEntry))
  | snapshot (snapshot : Except Status Snapshot)

/-- `inbox_owner_t`, with the calls in progress. A busy connection is one that a call holds. -/
structure Owner where
  limits : Limits
  connectionCount : ℕ
  generation : ℤ
  accepting : Bool
  closing : Bool
  leases : List Lease
  calls : List Call

def newOwner (config : Config) (generation : ℤ) : Owner where
  limits := config.limits
  connectionCount := config.connectionCount
  generation := generation
  accepting := true
  closing := false
  leases := replicate config.limits.maxClaims Lease.free
  calls := []

namespace Owner

def connectionFree (o : Owner) : Bool :=
  o.calls.countP Call.connected < o.connectionCount

/-- `inbox_lease_reserve`, the index of the first free lease. -/
def leaseReserve (o : Owner) : Option ℕ :=
  o.leases.findIdx? fun lease => lease.state = .free

def leaseBeginSettle (o : Owner) (recordId claimToken : ℕ) : Option ℕ :=
  o.leases.findIdx? fun lease =>
    lease.state = .active ∧ lease.recordId = recordId ∧ lease.claimToken = claimToken

def setState (o : Owner) (k : ℕ) (state : LeaseState) : Owner :=
  { o with leases := o.leases.modify k fun lease => { lease with state } }

def leaseActivate (o : Owner) (k : ℕ) (claim : Claim) : Owner :=
  { o with
    leases := o.leases.set k ⟨.active, claim.recordId, claim.claimToken, some claim.record⟩ }

def leaseRestore (o : Owner) (k : ℕ) : Owner :=
  { o with
    leases := o.leases.modify k fun lease =>
      if lease.state = .settling then { lease with state := .active } else lease }

def leaseRelease (o : Owner) (k : ℕ) : Owner :=
  { o with leases := o.leases.set k Lease.free }

def hasLiveLease (o : Owner) : Bool :=
  o.leases.any fun lease => lease.state ≠ .free

def connecting (o : Owner) (call : Call) (busy : Result) : Owner × (Call ⊕ Result) :=
  if o.connectionFree then (o, .inl call) else (o, .inr busy)

/-- The start of `inbox_claim_select`. -/
def startClaim (o : Owner) (request : ClaimRequest) : Owner × (Call ⊕ Result) :=
  if ¬ claimRequestValid request then (o, .inr (.claimed (.error .einval)))
  else
    match o.leaseReserve with
    | none => (o, .inr (.claimed (.error .enospc)))
    | some k => (o.setState k .reserved, .inl (.claim false k request))

/-- The start of `inbox_claim_transition`. -/
def startSettle (o : Owner) (recordId claimToken : ℕ) (mv : Settlement) :
    Owner × (Call ⊕ Result) :=
  if (recordId : ℤ) > int64Max ∨ (claimToken : ℤ) > int64Max then (o, .inr (.status .erange))
  else
    match o.leaseBeginSettle recordId claimToken with
    | none => (o, .inr (.status .ealready))
    | some k => (o.setState k .settling, .inl (.settle false k recordId claimToken mv))

def startWithId (o : Owner) (recordId : ℕ) (call : Call) : Owner × (Call ⊕ Result) :=
  if recordId = 0 then (o, .inr (.status .einval))
  else if (recordId : ℤ) > int64Max then (o, .inr (.status .erange))
  else o.connecting call (.status .ebusy)

/-- The start of `inbox_close`: the connection and the first critical section. -/
def startClose (o : Owner) : Owner × (Call ⊕ Result) :=
  if ¬ o.connectionFree then (o, .inr (.status .ebusy))
  else if ¬ o.accepting then (o, .inr (.status (if o.closing then .ebusy else .ok)))
  else if o.calls.any Call.connected then (o, .inr (.status .ebusy))
  else ({ o with accepting := false, closing := true }, .inl .close)

def start (o : Owner) : Operation → Owner × (Call ⊕ Result)
  | .admitRecord record =>
    if h : recordValid record.1 = .ok then
      o.connecting (.admitRecord ⟨record.1, recordValid_iff.mp h, record.2⟩) (.admitted .ebusy 0)
    else (o, .inr (.admitted (recordValid record.1) 0))
  | .claim => o.startClaim claimRequestInit
  | .claimEx request => o.startClaim request
  | .complete recordId claimToken =>
    if recordId = 0 ∨ claimToken = 0 then (o, .inr (.status .einval))
    else o.startSettle recordId claimToken ⟨.complete, rfl, by decide⟩
  | .fail recordId claimToken status =>
    if recordId = 0 ∨ claimToken = 0 then (o, .inr (.status .einval))
    else if h : status = .ok then (o, .inr (.status .einval))
    else
      o.startSettle recordId claimToken
        ⟨.fail status, rfl, fun heq => h (Move.fail.inj heq)⟩
  | .retry recordId =>
    o.startWithId recordId (.failedTransition recordId ⟨.retry, rfl⟩)
  | .discard recordId =>
    o.startWithId recordId (.failedTransition recordId ⟨.discard, rfl⟩)
  | .forget recordId => o.startWithId recordId (.forget recordId)
  | .scanFailed afterId capacity =>
    if (afterId : ℤ) > int64Max ∨ (capacity : ℤ) > int64Max then
      (o, .inr (.failed (.error .erange)))
    else o.connecting (.scanFailed afterId capacity) (.failed (.error .ebusy))
  | .scanHistory afterId capacity =>
    if (afterId : ℤ) > int64Max ∨ (capacity : ℤ) > int64Max then
      (o, .inr (.history (.error .erange)))
    else o.connecting (.scanHistory afterId capacity) (.history (.error .ebusy))
  | .close => o.startClose
  | .snapshot => o.connecting .snapshot (.snapshot (.error .ebusy))

end Owner

/-- The last check of `turbo_flow_inbox_admit`. -/
def receiptOf : Except Status ℤ → Result
  | .error rc => .admitted rc 0
  | .ok recordId =>
    if recordId.toNat = 0 then .admitted .eproto 0 else .admitted .ok recordId.toNat

/-- The last check of `turbo_flow_inbox_claim_ex`. -/
def claimOf (claim : Claim) : Except Status Claim :=
  if claim.recordId = 0 ∨ claim.claimToken = 0 ∨ recordValid claim.record ≠ .ok then .error .eproto
  else .ok claim

/-- The last check of `turbo_flow_inbox_snapshot`. -/
def snapshotOf (snapshot : Snapshot) : Except Status Snapshot :=
  if snapshotValid snapshot then .ok snapshot else .error .eproto

def statusOf {α : Type} : Except Status α → Status
  | .ok _ => .ok
  | .error rc => rc

def committed (db : Database) : Except Status Database → Database
  | .ok db' => db'
  | .error _ => db

def Owner.advance (o : Owner) (db : Database) (engine : OrmStatus) :
    Call → Owner × Database × (Call ⊕ Result)
  | .admitRecord record =>
    match transact engine (inboxAdmit o.limits o.generation o.accepting record.1 db) with
    | .ok (db', recordId) => (o, db', .inr (receiptOf (.ok recordId)))
    | .error rc => (o, db, .inr (receiptOf (.error rc)))
  | .claim false k request =>
    if o.connectionFree then (o, db, .inl (.claim true k request))
    else (o.leaseRelease k, db, .inr (.claimed (.error .ebusy)))
  | .claim true k request =>
    match transact engine (inboxClaimSelect o.limits o.generation request db) with
    | .ok (db', claim) => (o.leaseActivate k claim, db', .inr (.claimed (claimOf claim)))
    | .error rc => (o.leaseRelease k, db, .inr (.claimed (.error rc)))
  | .settle false k recordId claimToken mv =>
    if o.connectionFree then (o, db, .inl (.settle true k recordId claimToken mv))
    else (o.leaseRestore k, db, .inr (.status .ebusy))
  | .settle true k recordId claimToken mv =>
    match transact engine (inboxClaimTransition o.generation recordId claimToken mv.1 db) with
    | .ok db' => (o.leaseRelease k, db', .inr (.status .ok))
    | .error rc => (o, db, .inl (.reread k rc))
  | .reread k rc =>
    if engine = .ok ∧ db.metaRow.generation ≠ o.generation then
      (o.leaseRelease k, db, .inr (.status .ecanceled))
    else (o.leaseRestore k, db, .inr (.status rc))
  | .failedTransition recordId mv =>
    let r := transact engine (inboxFailedTransition o.generation recordId mv.1 db)
    (o, committed db r, .inr (.status (statusOf r)))
  | .forget recordId =>
    let r := transact engine (inboxForget o.generation recordId db)
    (o, committed db r, .inr (.status (statusOf r)))
  | .scanFailed afterId capacity =>
    let r := transact engine (inboxScanFailed o.generation afterId capacity db)
    (o, db, .inr (.failed (r >>= failedPage afterId capacity)))
  | .scanHistory afterId capacity =>
    let r := transact engine (inboxScanHistory o.generation afterId capacity db)
    (o, db, .inr (.history (r >>= historyPage afterId capacity)))
  | .close =>
    match transact engine (inboxClose o.generation db) with
    | .ok db' => ({ o with closing := false }, db', .inr (.status .ok))
    | .error rc => ({ o with closing := false, accepting := true }, db, .inr (.status rc))
  | .snapshot =>
    let r := transact engine (inboxSnapshot o.generation o.accepting db)
    (o, db, .inr (.snapshot (r >>= snapshotOf)))

structure System where
  db : Database
  owners : List (Option Owner)

def System.init (limits : Limits) : System := ⟨emptySchema limits, []⟩

inductive Action
  | create (config : Config) (engine : OrmStatus)
  | crash (i : ℕ)
  | destroy (i : ℕ) (engine : OrmStatus)
  | call (i : ℕ) (op : Operation)
  | advance (i k : ℕ) (engine : OrmStatus)

inductive Outcome
  | created (r : Except Status ℤ)
  | crashed
  | destroyed (rc : Status)
  | continues
  | returned (result : Result)

def System.Live (s : System) (i : ℕ) (o : Owner) : Prop :=
  s.owners[i]? = some (some o)

def System.create (s : System) (config : Config) (engine : OrmStatus) : System × Outcome :=
  if ¬ inboxConfigValid config then (s, .created (.error .einval))
  else
    match transact engine (inboxCreate config s.db) with
    | .ok (db, generation) =>
      (⟨db, s.owners ++ [some (newOwner config generation)]⟩, .created (.ok generation))
    | .error rc => (s, .created (.error rc))

/-- `inbox_destroy`, which the host calls when the owner has no call in progress. -/
def System.destroy (s : System) (i : ℕ) (o : Owner) (engine : OrmStatus) : System × Outcome :=
  if engine ≠ .ok then (s, .destroyed (inboxOrmStatus engine))
  else if s.db.metaRow.generation ≠ o.generation then
    if o.hasLiveLease then (s, .destroyed .ebusy)
    else (⟨s.db, s.owners.set i none⟩, .destroyed .ok)
  else
    match inboxDestroy o.generation o.accepting s.db with
    | .ok db => (⟨db, s.owners.set i none⟩, .destroyed .ok)
    | .error rc => (s, .destroyed rc)

def System.callStarted (s : System) (i : ℕ) : Owner × (Call ⊕ Result) → System × Outcome
  | (o, .inl call) =>
    (⟨s.db, s.owners.set i (some { o with calls := o.calls ++ [call] })⟩, .continues)
  | (o, .inr result) => (⟨s.db, s.owners.set i (some o)⟩, .returned result)

/-- The `k`-th call of an owner took a step. -/
def System.callAdvanced (s : System) (i k : ℕ) :
    Owner × Database × (Call ⊕ Result) → System × Outcome
  | (o, db, .inl call) =>
    (⟨db, s.owners.set i (some { o with calls := o.calls.set k call })⟩, .continues)
  | (o, db, .inr result) =>
    (⟨db, s.owners.set i (some { o with calls := o.calls.eraseIdx k })⟩, .returned result)

def act (s : System) : Action → Option (System × Outcome)
  | .create config engine => some (s.create config engine)
  | .crash i =>
    match s.owners[i]? with
    | some (some _) => some (⟨s.db, s.owners.set i none⟩, .crashed)
    | _ => none
  | .destroy i engine =>
    match s.owners[i]? with
    | some (some o) => if o.calls ≠ [] then none else some (s.destroy i o engine)
    | _ => none
  | .call i op =>
    match s.owners[i]? with
    | some (some o) => some (s.callStarted i (o.start op))
    | _ => none
  | .advance i k engine =>
    match s.owners[i]? with
    | some (some o) =>
      match o.calls[k]? with
      | some call => some (s.callAdvanced i k (o.advance s.db engine call))
      | none => none
    | _ => none

variable {s : System} {call : Call}

theorem act_call {o : Owner} (ho : s.Live i o) (op : Operation) :
    act s (.call i op) = some (s.callStarted i (o.start op)) := by
  have hget : s.owners[i]? = some (some o) := ho
  simp only [act, hget]

theorem act_advance {k : ℕ} {o : Owner} (ho : s.Live i o) (hk : o.calls[k]? = some call) :
    act s (.advance i k engine) =
      some (s.callAdvanced i k (o.advance s.db engine call)) := by
  have hget : s.owners[i]? = some (some o) := ho
  simp only [act, hget, hk]

/-! ### What a step can do -/

def Call.lease : Call → Option ℕ
  | .claim _ l _ => some l
  | .settle _ l _ _ _ => some l
  | .reread l _ => some l
  | _ => none

def Operation.settlement : Operation → Option (ℕ × ℕ × Settlement)
  | .complete recordId claimToken => some (recordId, claimToken, ⟨.complete, rfl, by decide⟩)
  | .fail recordId claimToken status =>
    if h : status = .ok then none
    else some (recordId, claimToken, ⟨.fail status, rfl, fun heq => h (Move.fail.inj heq)⟩)
  | _ => none

inductive Starts (o : Owner) (op : Operation) : Owner → Call ⊕ Result → Prop
  | returned (result : Result) : Starts o op o (.inr result)
  | entered {call : Call} (hnone : call.lease = none) : Starts o op o (.inl call)
  | closing : Starts o op { o with accepting := false, closing := true } (.inl .close)
  | reserved {l : ℕ} {lease : Lease} {request : ClaimRequest} (hl : o.leases[l]? = some lease)
      (hfree : lease.state = .free) :
      Starts o op (o.setState l .reserved) (.inl (.claim false l request))
  | settling {l recordId claimToken : ℕ} {lease : Lease} {mv : Settlement}
      (hop : op.settlement = some (recordId, claimToken, mv)) (hl : o.leases[l]? = some lease)
      (hactive : lease.state = .active) (hid : lease.recordId = recordId)
      (htoken : lease.claimToken = claimToken) :
      Starts o op (o.setState l .settling) (.inl (.settle false l recordId claimToken mv))

namespace Owner

variable (o : Owner) {op : Operation}

theorem connecting_starts (hnone : call.lease = none) (busy : Result) :
    Starts o op (o.connecting call busy).1 (o.connecting call busy).2 := by
  unfold connecting
  split
  · exact .entered hnone
  · exact .returned busy

theorem startClaim_starts (request : ClaimRequest) :
    Starts o op (o.startClaim request).1 (o.startClaim request).2 := by
  unfold startClaim
  split
  · exact .returned _
  split
  · exact .returned _
  rename_i l hl
  obtain ⟨hlt, hfree, -⟩ := findIdx?_eq_some_iff_getElem.mp hl
  exact .reserved (getElem?_eq_getElem hlt) (by simpa using hfree)

theorem startSettle_starts {recordId claimToken : ℕ} {mv : Settlement}
    (hop : op.settlement = some (recordId, claimToken, mv)) :
    Starts o op (o.startSettle recordId claimToken mv).1
      (o.startSettle recordId claimToken mv).2 := by
  unfold startSettle
  split
  · exact .returned _
  split
  · exact .returned _
  rename_i l hl
  obtain ⟨hlt, hfound, -⟩ := findIdx?_eq_some_iff_getElem.mp hl
  obtain ⟨hactive, hid, htoken⟩ := decide_eq_true_eq.mp hfound
  exact .settling hop (getElem?_eq_getElem hlt) hactive hid htoken

theorem startWithId_starts (recordId : ℕ) (hnone : call.lease = none) :
    Starts o op (o.startWithId recordId call).1 (o.startWithId recordId call).2 := by
  unfold startWithId
  split
  · exact .returned _
  split
  · exact .returned _
  · exact o.connecting_starts hnone _

theorem startClose_starts : Starts o op o.startClose.1 o.startClose.2 := by
  unfold startClose
  split
  · exact .returned _
  split
  · exact .returned _
  split
  · exact .returned _
  · exact .closing

theorem start_starts (op : Operation) : Starts o op (o.start op).1 (o.start op).2 := by
  cases op with
  | admitRecord record =>
    simp only [start]
    split
    · exact o.connecting_starts rfl _
    · exact .returned _
  | claim | claimEx request => exact o.startClaim_starts _
  | complete recordId claimToken =>
    simp only [start]
    split
    · exact .returned _
    · exact o.startSettle_starts rfl
  | fail recordId claimToken status =>
    simp only [start]
    split
    · exact .returned _
    split
    · exact .returned _
    rename_i hstatus
    exact o.startSettle_starts (dif_neg hstatus)
  | retry recordId | discard recordId | forget recordId => exact o.startWithId_starts _ rfl
  | scanFailed afterId capacity | scanHistory afterId capacity =>
    simp only [start]
    split
    · exact .returned _
    · exact o.connecting_starts rfl _
  | close => exact o.startClose_starts
  | snapshot => exact o.connecting_starts rfl _

end Owner

def callsStarted (calls : List Call) : Call ⊕ Result → List Call
  | .inl call => calls ++ [call]
  | .inr _ => calls

/-- The calls of an owner after the `k`-th call took a step. -/
def callsAdvanced (calls : List Call) (k : ℕ) : Call ⊕ Result → List Call
  | .inl call => calls.set k call
  | .inr _ => calls.eraseIdx k

def shown : Call ⊕ Result → Outcome
  | .inl _ => .continues
  | .inr result => .returned result

inductive Acted (s : System) : Action → System → Outcome → Prop
  | notOpened {config : Config} {engine : OrmStatus} {rc : Status} :
      Acted s (.create config engine) s (.created (.error rc))
  | opened {config : Config} {engine : OrmStatus} {db : Database} {generation : ℤ}
      (hvalid : inboxConfigValid config) (h : inboxCreate config s.db = .ok (db, generation)) :
      Acted s (.create config engine) ⟨db, s.owners ++ [some (newOwner config generation)]⟩
        (.created (.ok generation))
  | crashed {i : ℕ} {o : Owner} (ho : s.Live i o) :
      Acted s (.crash i) ⟨s.db, s.owners.set i none⟩ .crashed
  | stayed {i : ℕ} {o : Owner} {engine : OrmStatus} {rc : Status} (ho : s.Live i o) :
      Acted s (.destroy i engine) s (.destroyed rc)
  | left {i : ℕ} {o : Owner} {engine : OrmStatus} (ho : s.Live i o) :
      Acted s (.destroy i engine) ⟨s.db, s.owners.set i none⟩ (.destroyed .ok)
  | finished {i : ℕ} {o : Owner} {engine : OrmStatus} (ho : s.Live i o)
      (hcurrent : s.db.metaRow.generation = o.generation) (hempty : s.db.metaRow.records = 0) :
      Acted s (.destroy i engine)
        ⟨⟨{ s.db.metaRow with ownerState := .closed }, s.db.rows⟩, s.owners.set i none⟩
        (.destroyed .ok)
  | started {i : ℕ} {o o' : Owner} {op : Operation} {r : Call ⊕ Result} (ho : s.Live i o)
      (h : Starts o op o' r) :
      Acted s (.call i op)
        ⟨s.db, s.owners.set i (some { o' with calls := callsStarted o'.calls r })⟩ (shown r)
  | advanced {i k : ℕ} {o o' : Owner} {engine : OrmStatus} {call : Call} {db : Database}
      {r : Call ⊕ Result} (ho : s.Live i o) (hk : o.calls[k]? = some call)
      (h : o.advance s.db engine call = (o', db, r)) :
      Acted s (.advance i k engine)
        ⟨db, s.owners.set i (some { o' with calls := callsAdvanced o'.calls k r })⟩ (shown r)

theorem destroy_acted {o : Owner} (ho : s.Live i o) (engine : OrmStatus) :
    Acted s (.destroy i engine) (s.destroy i o engine).1 (s.destroy i o engine).2 := by
  unfold System.destroy
  split
  · exact .stayed ho
  split
  · split
    · exact .stayed ho
    · exact .left ho
  split
  · rename_i db h
    obtain ⟨hcurrent, hempty, rfl⟩ := inboxDestroy_eq_ok h
    exact .finished ho hcurrent hempty
  · exact .stayed ho

theorem act_acted (h : act s a = some (s', out)) : Acted s a s' out := by
  cases a with
  | create config engine =>
    have heq := some.inj h
    unfold System.create at heq
    split at heq
    · cases heq
      exact .notOpened
    rename_i hvalid
    split at heq <;> cases heq
    · rename_i hcreated
      exact .opened (not_not.mp hvalid) (transact_eq_ok hcreated)
    · exact .notOpened
  | crash i =>
    simp only [act] at h
    split at h
    · rename_i o ho
      cases h
      exact .crashed ho
    · cases h
  | destroy i engine =>
    simp only [act] at h
    split at h
    · rename_i o ho
      split at h
      · cases h
      have heq := some.inj h
      have hacted := destroy_acted ho engine
      rwa [heq] at hacted
    · cases h
  | call i op =>
    simp only [act] at h
    split at h
    · rename_i o ho
      have hstarts := o.start_starts op
      rcases hstart : o.start op with ⟨o', call | result⟩
      all_goals
        rw [hstart] at h hstarts
        cases h
        exact .started ho hstarts
    · cases h
  | advance i k engine =>
    simp only [act] at h
    split at h
    · rename_i o ho
      split at h
      · rename_i call hk
        rcases hadvance : o.advance s.db engine call with ⟨o', db, call' | result⟩
        all_goals
          rw [hadvance] at h
          cases h
          exact .advanced ho hk hadvance
      · cases h
    · cases h

structure SameOwner (o o' : Owner) : Prop where
  limits : o'.limits = o.limits
  generation : o'.generation = o.generation

theorem SameOwner.refl (o : Owner) : SameOwner o o := ⟨rfl, rfl⟩

inductive Effect (s : System) : System → Prop
  | idle : Effect s s
  | opened {config : Config} {db : Database} {generation : ℤ} (hvalid : inboxConfigValid config)
      (h : inboxCreate config s.db = .ok (db, generation)) :
      Effect s ⟨db, s.owners ++ [some (newOwner config generation)]⟩
  | served {i : ℕ} {o o' : Owner} {db : Database} (ho : s.Live i o) (hsame : SameOwner o o')
      (hchange : Change o.limits o.generation s.db db) :
      Effect s ⟨db, s.owners.set i (some o')⟩
  | left {i : ℕ} {o : Owner} (ho : s.Live i o) : Effect s ⟨s.db, s.owners.set i none⟩
  | finished {i : ℕ} {o : Owner} (ho : s.Live i o)
      (hcurrent : s.db.metaRow.generation = o.generation) (hempty : s.db.metaRow.records = 0) :
      Effect s
        ⟨⟨{ s.db.metaRow with ownerState := .closed }, s.db.rows⟩, s.owners.set i none⟩

theorem Starts.same {o o' : Owner} {op : Operation} {r : Call ⊕ Result} (h : Starts o op o' r) :
    SameOwner o o' := by
  cases h <;> exact ⟨rfl, rfl⟩

theorem Owner.advance_spec (o : Owner) (db : Database) (engine : OrmStatus) (call : Call) :
    SameOwner o (o.advance db engine call).1 ∧
      Change o.limits o.generation db (o.advance db engine call).2.1 := by
  cases call with
  | admitRecord record =>
    simp only [Owner.advance]
    split
    · rename_i db' recordId h
      rcases inboxAdmit_eq_ok (transact_eq_ok h) with rfl | ⟨hcurrent, bytes, hadmissible, rfl⟩
      · exact ⟨.refl o, .keep⟩
      · exact ⟨.refl o, .insert hcurrent hadmissible record.2.1 record.2.2⟩
    · exact ⟨.refl o, .keep⟩
  | claim connected k request =>
    cases connected with
    | false =>
      simp only [Owner.advance]
      split <;> exact ⟨⟨rfl, rfl⟩, .keep⟩
    | true =>
      simp only [Owner.advance]
      split
      · rename_i db' claim h
        exact ⟨⟨rfl, rfl⟩, inboxClaimSelect_change (transact_eq_ok h)⟩
      · exact ⟨⟨rfl, rfl⟩, .keep⟩
  | settle connected k recordId claimToken mv =>
    cases connected with
    | false =>
      simp only [Owner.advance]
      split <;> exact ⟨⟨rfl, rfl⟩, .keep⟩
    | true =>
      simp only [Owner.advance]
      split
      · rename_i db' h
        exact ⟨⟨rfl, rfl⟩, inboxClaimTransition_change mv.2.1 mv.2.2 (transact_eq_ok h)⟩
      · exact ⟨.refl o, .keep⟩
  | reread k rc =>
    simp only [Owner.advance]
    split <;> exact ⟨⟨rfl, rfl⟩, .keep⟩
  | failedTransition recordId mv =>
    refine ⟨.refl o, ?_⟩
    simp only [Owner.advance]
    cases h : transact engine (inboxFailedTransition o.generation recordId mv.1 db) with
    | ok db' => exact inboxFailedTransition_change mv.2 (transact_eq_ok h)
    | error rc => exact .keep
  | forget recordId =>
    refine ⟨.refl o, ?_⟩
    simp only [Owner.advance]
    cases h : transact engine (inboxForget o.generation recordId db) with
    | ok db' =>
      obtain ⟨hcurrent, _, _, _, hsplit, -, hphase, rfl⟩ := inboxForget_eq_ok (transact_eq_ok h)
      exact .forget hcurrent hsplit hphase
    | error rc => exact .keep
  | scanFailed afterId capacity | scanHistory afterId capacity | snapshot => exact ⟨.refl o, .keep⟩
  | close =>
    simp only [Owner.advance]
    split
    · rename_i db' h
      obtain rfl := inboxClose_change (transact_eq_ok h)
      exact ⟨⟨rfl, rfl⟩, .keep⟩
    · exact ⟨⟨rfl, rfl⟩, .keep⟩

theorem act_effect (h : act s a = some (s', out)) : Effect s s' := by
  cases act_acted h with
  | notOpened | stayed => exact .idle
  | opened hvalid hcreate => exact .opened hvalid hcreate
  | crashed ho | left ho => exact .left ho
  | finished ho hcurrent hempty => exact .finished ho hcurrent hempty
  | started ho hstarts => exact .served ho ⟨hstarts.same.limits, hstarts.same.generation⟩ .keep
  | @advanced i k o o' engine call db r ho hk hadvance =>
    obtain ⟨hsame, hchange⟩ := o.advance_spec s.db engine call
    rw [hadvance] at hsame hchange
    exact .served ho ⟨hsame.limits, hsame.generation⟩ hchange

end TurboFlow.TurboDb
