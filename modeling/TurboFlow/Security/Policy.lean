import TurboFlow.Lib.Postings
import TurboFlow.Status

/-!
# Security policies

Rules, principals and requests of a security realm, the index that a policy snapshot is compiled to
and the evaluation on it (`flow_security.c`). A hash map is a function to `Option`. A `char` array
is the text up to its first NUL byte; one without is too long for its capacity.
-/

namespace TurboFlow.Security

open Postings Function List

abbrev Text := List UInt8

inductive Effect
  | deny
  | allow
  deriving DecidableEq

inductive SubjectKind
  | any
  | principal
  | role
  | group
  deriving DecidableEq

def SubjectKind.value : SubjectKind → ℕ
  | .any => 0
  | .principal => 1
  | .role => 2
  | .group => 3

inductive MatchKind
  | exact
  | prefixed
  | adapter
  deriving DecidableEq

inductive ResourceType
  | generic
  | mqttTopic
  | flowResource
  | sqlObject
  | secret
  deriving DecidableEq

def ResourceType.column : ResourceType → ℕ
  | .generic => 0
  | .mqttTopic => 1
  | .flowResource => 2
  | .sqlObject => 3
  | .secret => 4

inductive Scope
  | self
  | group
  | domain
  | system
  deriving DecidableEq

def idMax : ℕ := 255
def typeMax : ℕ := 63
def patternMax : ℕ := 511
def maxRoles : ℕ := 8
def maxGroups : ℕ := 16
def maxRules : ℕ := 4096
def actionConnect : ℕ := 1
def actionAll : ℕ := 0x7f
def sizeMax : ℕ := 2 ^ 64 - 1

/-- `turbo_flow_security_rule_t`; the action mask is a `uint32_t`. -/
structure Rule where
  effect : Effect
  subjectKind : SubjectKind
  subject : Text
  domainId : Text
  actionMask : ℕ
  resourceType : ResourceType
  matchKind : MatchKind
  pattern : Text

structure Principal where
  principalId : Text
  principalType : Text
  domainId : Text
  authMethod : Text
  scope : Scope
  roles : List Text
  groups : List Text
  expiresAt : ℕ
  policyVersion : ℕ

structure Request where
  principal : Principal
  domainId : Text
  action : ℕ
  resourceType : ResourceType
  resource : Text

/-- `turbo_flow_security_matcher_t`: what its callbacks return for a leaf. `evaluateLeaf` also shows
the positions it emits. -/
structure Matcher where
  compileLeaf : List Rule → List ℕ → Status
  evaluateLeaf : List Rule → List ℕ → Request → Status × List ℕ

def cstrValid (value : Text) (capacity : ℕ) (required : Bool) : Bool :=
  value.length < capacity && !value.contains 0 && (!required || value ≠ [])

/-- The bits that are not in `TURBO_FLOW_SECURITY_ACTION_ALL`. -/
def actionOutside (mask : ℕ) : Bool :=
  mask &&& (2 ^ 32 - 1 - actionAll) ≠ 0

def ruleValid (matcher : Option Matcher) (rule : Rule) : Bool :=
  let allowEmptyPattern := rule.actionMask = actionConnect ∧ rule.resourceType = .generic ∧
    rule.matchKind = .prefixed
  cstrValid rule.subject (idMax + 1) false && cstrValid rule.domainId (idMax + 1) true &&
    rule.actionMask ≠ 0 && rule.actionMask < 2 ^ 32 && !actionOutside rule.actionMask &&
    cstrValid rule.pattern (patternMax + 1) (!allowEmptyPattern) &&
    (if rule.subjectKind = .any then rule.subject = [] else rule.subject ≠ []) &&
    (rule.matchKind ≠ .adapter || matcher.isSome)

def distinct : List Text → Bool
  | [] => true
  | t :: ts => !ts.contains t && distinct ts

def principalValid (p : Principal) : Bool :=
  cstrValid p.principalId (idMax + 1) true && cstrValid p.principalType (typeMax + 1) true &&
    cstrValid p.domainId (idMax + 1) false && cstrValid p.authMethod (typeMax + 1) true &&
    p.roles.length ≤ maxRoles && p.groups.length ≤ maxGroups && p.policyVersion ≠ 0 &&
    !(p.scope = .group && p.groups.isEmpty) && !(p.scope ≠ .system && p.domainId = []) &&
    (p.roles.all fun r => cstrValid r (typeMax + 1) true) &&
    (p.groups.all fun g => cstrValid g (idMax + 1) true) && distinct p.groups

def requestValid (r : Request) : Bool :=
  principalValid r.principal && r.domainId ≠ [] && r.resource ≠ [] && r.action ≠ 0 &&
    r.action < 2 ^ 32 && r.action &&& (r.action - 1) = 0 && !actionOutside r.action

/-! ### The index -/

structure Leaf where
  entries : List ℕ
  compiled : Bool

structure SubjectKey where
  kind : SubjectKind
  subject : Text
  deriving DecidableEq

structure PatternKey where
  subjectKind : SubjectKind
  subject : Text
  pattern : Text
  deriving DecidableEq

structure Bucket where
  anyAdapter : Leaf
  subjects : List SubjectKey
  subjectIndex : SubjectKey → Option Leaf
  exactIndex : PatternKey → Option (List ℕ)
  prefixIndex : PatternKey → Option (List ℕ)
  candidateSubjectMask : ℕ
  exactSubjectMask : ℕ
  prefixSubjectMask : ℕ
  maxPrefixSize : ℕ
  initialized : Bool

def Bucket.zero : Bucket where
  anyAdapter := ⟨[], false⟩
  subjects := []
  subjectIndex := fun _ => none
  exactIndex := fun _ => none
  prefixIndex := fun _ => none
  candidateSubjectMask := 0
  exactSubjectMask := 0
  prefixSubjectMask := 0
  maxPrefixSize := 0
  initialized := false

def maskBit (kind : SubjectKind) : ℕ :=
  1 <<< kind.value

def masked (mask : ℕ) (kind : SubjectKind) : Bool :=
  mask &&& maskBit kind ≠ 0

def Rule.patternKey (rule : Rule) : PatternKey :=
  ⟨rule.subjectKind, rule.subject, rule.pattern⟩

def Rule.subjectKey (rule : Rule) : SubjectKey :=
  ⟨rule.subjectKind, rule.subject⟩

/-- `flow_security_rule_bucket_insert_pattern`: the mask changes with a new key only. -/
def insertPattern (index : PatternKey → Option (List ℕ)) (mask : ℕ) (rule : Rule) (i : ℕ) :
    (PatternKey → Option (List ℕ)) × ℕ :=
  (post index rule.patternKey i,
    if (index rule.patternKey).isSome then mask else mask ||| maskBit rule.subjectKind)

def pushSubject (bucket : Bucket) (key : SubjectKey) (i : ℕ) : Bucket :=
  match bucket.subjectIndex key with
  | some leaf =>
    { bucket with
      subjectIndex := update bucket.subjectIndex key
        (some { leaf with entries := leaf.entries ++ [i] }) }
  | none =>
    { bucket with
      subjects := bucket.subjects ++ [key]
      subjectIndex := update bucket.subjectIndex key (some ⟨[i], false⟩) }

def bucketInsert (bucket : Bucket) (rule : Rule) (i : ℕ) : Bucket :=
  let bucket := { bucket with initialized := true }
  match rule.matchKind with
  | .exact =>
    let r := insertPattern bucket.exactIndex bucket.exactSubjectMask rule i
    { bucket with exactIndex := r.1, exactSubjectMask := r.2 }
  | .prefixed =>
    let r := insertPattern bucket.prefixIndex bucket.prefixSubjectMask rule i
    { bucket with
      prefixIndex := r.1
      prefixSubjectMask := r.2
      maxPrefixSize :=
        if bucket.maxPrefixSize < rule.pattern.length then rule.pattern.length
        else bucket.maxPrefixSize }
  | .adapter =>
    let bucket :=
      { bucket with
        candidateSubjectMask := bucket.candidateSubjectMask ||| maskBit rule.subjectKind }
    if rule.subjectKind = .any then
      { bucket with
        anyAdapter := { bucket.anyAdapter with entries := bucket.anyAdapter.entries ++ [i] } }
    else pushSubject bucket rule.subjectKey i

/-- The buckets of a `flow_security_root_index_t`, by action and column. -/
abbrev Root := ℕ → ℕ → Bucket

structure Index where
  roots : List Text
  rootIndex : Text → Option Root

def snapshotRoot (index : Index) (domainId : Text) : Root × Index :=
  match index.rootIndex domainId with
  | some root => (root, index)
  | none =>
    (fun _ _ => .zero,
      { roots := index.roots ++ [domainId]
        rootIndex := update index.rootIndex domainId (some fun _ _ => .zero) })

/-- The loop of `flow_security_policy_snapshot_create` over the actions of one rule. -/
def insertActions (root : Root) (rule : Rule) (i : ℕ) : Root :=
  (range 7).foldl
    (fun root action =>
      if decide (rule.actionMask &&& (1 <<< action) ≠ 0) = true then
        update root action
          (update (root action) rule.resourceType.column
            (bucketInsert (root action rule.resourceType.column) rule i))
      else root)
    root

def insertRule (index : Index) (rule : Rule) (i : ℕ) : Index :=
  let r := snapshotRoot index rule.domainId
  { r.2 with rootIndex := update r.2.rootIndex rule.domainId (some (insertActions r.1 rule i)) }

/-- The loop of `flow_security_policy_snapshot_create` over the rules from number `i` on. -/
def insertRules (index : Index) (i : ℕ) : List Rule → Index
  | [] => index
  | rule :: rules => insertRules (insertRule index rule i) (i + 1) rules

def leafCompile (matcher : Option Matcher) (rules : List Rule) (leaf : Leaf) : Except Status Leaf :=
  if leaf.entries = [] then .ok leaf
  else
    match matcher with
    | none => .error .einval
    | some m =>
      if leaf.compiled = true then .error .ealready
      else
        match m.compileLeaf rules leaf.entries with
        | .ok => .ok { leaf with compiled := true }
        | status => .error status

def subjectCompile (matcher : Option Matcher) (rules : List Rule) (bucket : Bucket)
    (key : SubjectKey) : Except Status Bucket :=
  match bucket.subjectIndex key with
  | none => .error .eproto
  | some leaf =>
    (leafCompile matcher rules leaf).map fun leaf' =>
      { bucket with subjectIndex := update bucket.subjectIndex key (some leaf') }

def bucketCompile (matcher : Option Matcher) (rules : List Rule) (bucket : Bucket) :
    Except Status Bucket :=
  if bucket.initialized = false then .ok bucket
  else
    (leafCompile matcher rules bucket.anyAdapter).bind fun leaf =>
      bucket.subjects.foldlM (subjectCompile matcher rules) { bucket with anyAdapter := leaf }

def cellCompile (matcher : Option Matcher) (rules : List Rule) (index : Index)
    (cell : Text × ℕ × ℕ) : Except Status Index :=
  match index.rootIndex cell.1 with
  | none => .error .eproto
  | some root =>
    (bucketCompile matcher rules (root cell.2.1 cell.2.2)).map fun bucket =>
      { index with
        rootIndex := update index.rootIndex cell.1
          (some (update root cell.2.1 (update (root cell.2.1) cell.2.2 bucket))) }

def cells (index : Index) : List (Text × ℕ × ℕ) :=
  index.roots.flatMap fun domain =>
    (range 7).flatMap fun action => (range 5).map fun resource => (domain, action, resource)

/-- `flow_security_policy_snapshot_t` without its reference count. -/
structure Snapshot where
  policyVersion : ℕ
  expiresAt : ℕ
  rules : List Rule
  index : Index

def snapshotCreate (matcher : Option Matcher) (policyVersion expiresAt : ℕ) (rules : List Rule) :
    Except Status Snapshot :=
  if policyVersion = 0 ∨ rules = [] ∨ maxRules < rules.length then .error .einval
  else if rules.all (ruleValid matcher) = false then .error .einval
  else
    let index := insertRules ⟨[], fun _ => none⟩ 0 rules
    ((cells index).foldlM (cellCompile matcher rules) index).map fun index =>
      ⟨policyVersion, expiresAt, rules, index⟩

/-! ### Evaluation -/

inductive Reason
  | defaultDeny
  | allowRule
  | denyRule
  | domainMismatch
  | principalExpired
  | policyVersionMismatch
  deriving DecidableEq

structure Decision where
  effect : Effect
  reason : Reason
  matchedRule : ℕ
  policyVersion : ℕ
  deriving DecidableEq

def Decision.init : Decision :=
  ⟨.deny, .defaultDeny, sizeMax, 0⟩

/-- `deny_rule` and `allow_rule` of an evaluation. -/
structure Best where
  deny : ℕ
  allow : ℕ

def Best.note (best : Best) (rule : Rule) (i : ℕ) : Best :=
  match rule.effect with
  | .deny => { best with deny := keep sizeMax best.deny i }
  | .allow => { best with allow := keep sizeMax best.allow i }

def subjectMatches (rule : Rule) (principal : Principal) : Bool :=
  match rule.subjectKind with
  | .any => true
  | .principal => rule.subject = principal.principalId
  | .role => principal.roles.any fun role => rule.subject = role
  | .group => principal.groups.any fun group => rule.subject = group

def resourceMatches (rule : Rule) (request : Request) : Except Status Bool :=
  match rule.matchKind with
  | .exact => .ok (rule.pattern = request.resource)
  | .prefixed => .ok (rule.pattern.isPrefixOf request.resource)
  | .adapter => .error .enotsup

/-- One turn of the loop of `flow_security_evaluate_entries`. -/
def evaluateEntry (rules : List Rule) (request : Request) (best : Best) (i : ℕ) :
    Except Status Best :=
  match rules[i]? with
  | none => .ok best
  | some rule =>
    if subjectMatches rule request.principal = false then .ok best
    else
      (resourceMatches rule request).map fun matched =>
        if matched = true then best.note rule i else best

def evaluateEntries (rules : List Rule) (request : Request) (entries : List ℕ) (best : Best) :
    Except Status Best :=
  entries.foldlM (evaluateEntry rules request) best

/-- `flow_security_adapter_emit`, as a step of the emit context. -/
def adapterEmit (rules : List Rule) (entries : List ℕ) (emit : Status × Best) (position : ℕ) :
    Status × Best :=
  if emit.1 ≠ .ok then (.eproto, emit.2)
  else
    match entries[position]? with
    | none => (.eproto, emit.2)
    | some i =>
      match rules[i]? with
      | none => (.eproto, emit.2)
      | some rule =>
        if rule.matchKind ≠ .adapter then (.eproto, emit.2) else (.ok, emit.2.note rule i)

def evaluateAdapterLeaf (matcher : Option Matcher) (rules : List Rule) (request : Request)
    (leaf : Option Leaf) (best : Best) : Except Status Best :=
  match leaf with
  | none => .ok best
  | some leaf =>
    if leaf.entries = [] then .ok best
    else
      match matcher with
      | none => .error .eproto
      | some m =>
        if leaf.compiled = false then .error .eproto
        else
          let r := m.evaluateLeaf rules leaf.entries request
          let emitted := r.2.foldl (adapterEmit rules leaf.entries) (.ok, best)
          if r.1 ≠ .ok then .error r.1
          else if emitted.1 ≠ .ok then .error emitted.1
          else .ok emitted.2

/-- `flow_security_rule_bucket_pattern`: the entries of a pattern, none where there are none. -/
def bucketPattern (bucket : Bucket) (index : PatternKey → Option (List ℕ)) (mask : ℕ)
    (kind : SubjectKind) (subject pattern : Text) : List ℕ :=
  if bucket.initialized = false then []
  else if masked mask kind = false then []
  else postings index ⟨kind, subject, pattern⟩

def bucketSubject (bucket : Bucket) (kind : SubjectKind) (subject : Text) : Option Leaf :=
  if bucket.initialized = false ∨ subject = [] then none
  else if masked bucket.candidateSubjectMask kind = false then none
  else bucket.subjectIndex ⟨kind, subject⟩

def prefixEntries (bucket : Bucket) (request : Request) (kind : SubjectKind) (subject : Text)
    (size : ℕ) : List ℕ :=
  bucketPattern bucket bucket.prefixIndex bucket.prefixSubjectMask kind subject
    (request.resource.take size)

/-- The prefix probes of `flow_security_evaluate_subject`: from the empty prefix up to the longest
of the bucket. -/
def evaluatePrefixes (rules : List Rule) (request : Request) (bucket : Bucket) (kind : SubjectKind)
    (subject : Text) (best : Best) : Except Status Best :=
  if masked bucket.prefixSubjectMask kind = true then
    (evaluateEntries rules request (prefixEntries bucket request kind subject 0) best).bind
      fun best =>
      let limit :=
        if request.resource.length < bucket.maxPrefixSize then request.resource.length
        else bucket.maxPrefixSize
      (range' 1 limit).foldlM
        (fun best size =>
          evaluateEntries rules request (prefixEntries bucket request kind subject size) best)
        best
  else .ok best

def evaluateSubject (matcher : Option Matcher) (rules : List Rule) (request : Request)
    (bucket : Bucket) (kind : SubjectKind) (subject : Text) (best : Best) : Except Status Best :=
  (evaluateEntries rules request
      (bucketPattern bucket bucket.exactIndex bucket.exactSubjectMask kind subject request.resource)
      best).bind fun best =>
    (evaluatePrefixes rules request bucket kind subject best).bind fun best =>
      evaluateAdapterLeaf matcher rules request
        (if kind = .any then some bucket.anyAdapter else bucketSubject bucket kind subject) best

/-- The loop of `flow_security_action_index`. An action has 32 bits. -/
def actionIndexFrom (action : ℕ) : ℕ → ℕ → ℕ
  | index, 0 => index
  | index, fuel + 1 =>
    if 1 <<< index ≠ action then actionIndexFrom action (index + 1) fuel else index

def actionIndex (action : ℕ) : ℕ :=
  actionIndexFrom action 0 32

/-- The subjects that `flow_security_realm_evaluate_validated` looks up, in their order. -/
def subjectsOf (principal : Principal) : List (SubjectKind × Text) :=
  (.any, []) :: (.principal, principal.principalId) ::
    (principal.roles.map fun role => (.role, role)) ++
    principal.groups.map fun group => (.group, group)

/-- The index lookups of `flow_security_realm_evaluate_validated`. -/
def evaluateIndex (matcher : Option Matcher) (snapshot : Snapshot) (request : Request) :
    Except Status Best :=
  match snapshot.index.rootIndex request.domainId with
  | none => .ok ⟨sizeMax, sizeMax⟩
  | some root =>
    let bucket := root (actionIndex request.action) request.resourceType.column
    if bucket.initialized = true then
      (subjectsOf request.principal).foldlM
        (fun best s => evaluateSubject matcher snapshot.rules request bucket s.1 s.2 best)
        ⟨sizeMax, sizeMax⟩
    else .ok ⟨sizeMax, sizeMax⟩

/-- `expires_at` has passed. -/
def expired (expiresAt now : ℕ) : Bool :=
  expiresAt ≠ 0 && (now = 0 || expiresAt ≤ now)

def Best.decision (best : Best) (policyVersion : ℕ) : Decision :=
  if best.deny ≠ sizeMax then ⟨.deny, .denyRule, best.deny, policyVersion⟩
  else if best.allow ≠ sizeMax then ⟨.allow, .allowRule, best.allow, policyVersion⟩
  else ⟨.deny, .defaultDeny, sizeMax, policyVersion⟩

/-- `flow_security_realm_evaluate_validated` on the snapshot that it has acquired. -/
def evaluateOn (matcher : Option Matcher) (snapshot : Option Snapshot) (request : Request)
    (now : ℕ) : Status × Decision :=
  let result := { Decision.init with
    policyVersion := (snapshot.map Snapshot.policyVersion).getD 0 }
  if request.principal.scope ≠ .system ∧
      (request.domainId = [] ∨ request.principal.domainId ≠ request.domainId) then
    (.ok, { result with reason := .domainMismatch })
  else if request.principal.expiresAt ≠ 0 ∧ now = 0 then (.einval, result)
  else if request.principal.expiresAt ≠ 0 ∧ request.principal.expiresAt ≤ now then
    (.ok, { result with reason := .principalExpired })
  else
    match snapshot with
    | none => (.ok, { result with reason := .policyVersionMismatch })
    | some s =>
      if request.principal.policyVersion ≠ s.policyVersion ∨ expired s.expiresAt now = true then
        (.ok, { result with reason := .policyVersionMismatch })
      else
        match evaluateIndex matcher s request with
        | .error status => (status, result)
        | .ok best => (.ok, best.decision s.policyVersion)

end TurboFlow.Security
