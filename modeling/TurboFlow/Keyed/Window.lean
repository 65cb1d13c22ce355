import TurboFlow.Keyed.Transactions
import TurboFlow.Lib.LittleEndian
import Mathlib.Data.List.Sort

/-!
# Event-time windows

An event-time store keeps one entry for each window of each application key, and an event is a
transaction on the entry of its window. An advance publishes the watermark and collects the windows
whose end and allowed lateness it has reached in one critical section, and then hands them to the
close callback and deletes their entries one by one. `windowAct` performs one atomic step.
-/

namespace TurboFlow.Keyed

open Word Version Transition List

structure WindowStoreConfig where
  maxWindows : ℕ
  maxKeySize : ℕ
  maxValueSize : ℕ
  maxTotalBytes : ℕ
  windowSizeNs : ℕ
  allowedLatenessNs : ℕ

def keyPrefixSize : ℕ := 8

/-- `turbo_flow_event_time_window_store_create`, where the allocations succeed. -/
def windowStoreCreate (config : WindowStoreConfig) : Option Store :=
  if config.maxWindows = 0 ∨ config.maxKeySize = 0 ∨ config.maxValueSize = 0 ∨
      config.maxTotalBytes = 0 ∨ config.windowSizeNs = 0 ∨
      config.maxKeySize > maxKeySizeLimit - keyPrefixSize then none
  else
    (storeCreate
        { maxEntries := config.maxWindows
          maxKeySize := config.maxKeySize + keyPrefixSize
          maxValueSize := config.maxValueSize
          maxTotalBytes := config.maxTotalBytes }).map fun store =>
      { store with
        windows := some
          { applicationKeySize := config.maxKeySize
            windowSizeNs := config.windowSizeNs
            allowedLatenessNs := config.allowedLatenessNs } }

structure Bounds where
  startNs : ℕ
  endNs : ℕ
  closeAtNs : ℕ

/-- `flow_event_time_bounds`: the window a timestamp falls in. -/
def eventTimeBounds (windows : WindowConfig) (timestampNs : ℕ) : Except Status Bounds :=
  let start := timestampNs / windows.windowSizeNs * windows.windowSizeNs
  if start > max64 - windows.windowSizeNs then .error .erange
  else
    let ends := start + windows.windowSizeNs
    .ok
      { startNs := start
        endNs := ends
        closeAtNs :=
          if ends > max64 - windows.allowedLatenessNs then max64
          else ends + windows.allowedLatenessNs }

/-- `flow_event_time_key_copy`: the key of the entry of a window. -/
def eventTimeKey (startNs : ℕ) (applicationKey : Bytes) : Bytes :=
  LittleEndian.encode keyPrefixSize startNs ++ applicationKey

def startOf (key : Bytes) : ℕ :=
  LittleEndian.decode (key.take keyPrefixSize)

/-- `flow_event_time_window_execute` up to its first critical section: the key and closing time of
its window. -/
def eventWindow (windows : WindowConfig) (selected : Except Status Bytes) (timestampNs : ℕ) :
    Except Status (Bytes × ℕ) :=
  match selected with
  | .error rc => .error rc
  | .ok applicationKey =>
    if applicationKey = [] then .error .einval
    else if applicationKey.length > windows.applicationKeySize then .error .enospc
    else
      match eventTimeBounds windows timestampNs with
      | .error rc => .error rc
      | .ok bounds => .ok (eventTimeKey bounds.startNs applicationKey, bounds.closeAtNs)

structure Candidate where
  key : Bytes
  value : Bytes
  revision : ℕ
  startNs : ℕ

/-- `flow_event_time_candidate_compare`: by the start of the window, then by the application key. -/
def Candidate.Before (lhs rhs : Candidate) : Prop :=
  lhs.startNs < rhs.startNs ∨
    (lhs.startNs = rhs.startNs ∧ lhs.key.drop keyPrefixSize ≤ rhs.key.drop keyPrefixSize)

instance (lhs rhs : Candidate) : Decidable (lhs.Before rhs) :=
  inferInstanceAs (Decidable (_ ∨ _))

/-- The windows that an advance to a watermark has to close. The list can grow `room` times. -/
def collectCandidates (windows : WindowConfig) (watermarkNs : ℕ) :
    ℕ → List (Sigma fun _ : Bytes => Entry) → Except Status (List Candidate)
  | _, [] => .ok []
  | room, ⟨key, entry⟩ :: rest =>
    match entry.value with
    | none => collectCandidates windows watermarkNs room rest
    | some value =>
      if key.length ≤ keyPrefixSize then .error .eproto
      else
        match eventTimeBounds windows (startOf key) with
        | .error rc => .error rc
        | .ok bounds =>
          if bounds.closeAtNs > watermarkNs then
            collectCandidates windows watermarkNs room rest
          else
            match room with
            | 0 => .error .enomem
            | room + 1 =>
              match collectCandidates windows watermarkNs room rest with
              | .error rc => .error rc
              | .ok candidates =>
                .ok (⟨key, value, entry.revision, bounds.startNs⟩ :: candidates)

def Candidate.txn (candidate : Candidate) : Txn where
  key := candidate.key
  observed := some ⟨some candidate.value, candidate.revision⟩
  closeAt := none
  status := .ok
  mutation := .delete

/-- What the parties around a close do: the emitter is set up or not, the callback and its emissions
return, the map can write or not, the stages behind return. -/
structure CloseAnswers where
  emitterInit : Status
  callback : Status
  mapped : Bool
  downstream : Status

/-- `flow_event_time_close_candidate`: the store, the status of the delete commit if reached, and
that returned. -/
def closeCandidate (windows : WindowConfig) (store : Store) (candidate : Candidate)
    (answers : CloseAnswers) : Store × Option Status × Status :=
  match eventTimeBounds windows candidate.startNs with
  | .error rc => (store, none, rc)
  | .ok _ =>
    if candidate.key.length ≤ keyPrefixSize then (store, none, .eproto)
    else if answers.emitterInit ≠ .ok then (store, none, answers.emitterInit)
    else if answers.callback ≠ .ok then (store, none, answers.callback)
    else
      let closed := store.close candidate.txn answers.callback answers.mapped
      (closed.1, some closed.2, if closed.2 = .ok then answers.downstream else closed.2)

inductive EventState
  | gated (key : Bytes) (closeAtNs : ℕ)
  | opened (txn : Txn)

/-- The advance between its atomic steps: the watermark is reserved, it closes candidates, of which
it has `closed` some, or it failed. -/
inductive Advance
  | idle
  | reserved (watermarkNs : ℕ)
  | closing (watermarkNs : ℕ) (candidates : List Candidate) (closed : ℕ)
  | failed (watermarkNs : ℕ) (rc : Status) (closed : ℕ)

/-- An event-time store, the events in progress, by processor, and the advance in progress. -/
structure WindowSystem where
  store : Store
  events : ℕ → Option EventState
  advance : Advance

def WindowSystem.init (store : Store) : WindowSystem := ⟨store, fun _ => none, .idle⟩

inductive WindowOperation
  | enter (id : ℕ) (selected : Except Status Bytes) (timestampNs : ℕ)
  | snapshot (id : ℕ) (copied : Bool)
  | call (id : ℕ) (c : Call)
  | commit (id : ℕ) (callback : Status) (mapped : Bool)
  | reserve (watermarkNs : ℕ)
  | publish (candidatesInit : Status) (room : ℕ)
  | close (answers : CloseAnswers)
  | finish

/-- What a step returns. A commit reports the key and its value; a close its candidate, the status
of the delete commit if reached, and its status. -/
inductive WindowOutcome
  | refused (rc : Status)
  | done
  | answered (answer : Answer)
  | committed (key : Bytes) (closeAtNs : ℕ) (rc : Status) (left : Option Bytes)
  | closed (candidate : Candidate) (commit : Option Status) (rc : Status)
  | advanced (watermarkNs : ℕ) (rc : Status) (closed : ℕ)

namespace WindowSystem

def setEvent (s : WindowSystem) (id : ℕ) (event : Option EventState) : WindowSystem :=
  { s with events := Function.update s.events id event }

/-- The first critical section of `flow_event_time_window_advance`. -/
def reserve (s : WindowSystem) (watermarkNs : ℕ) : WindowSystem × WindowOutcome :=
  if s.store.watermarkAdvancing then (s, .refused .ebusy)
  else if s.store.watermark.any fun current => watermarkNs < current then (s, .refused .einval)
  else
    ({ s with
        store := { s.store with watermarkAdvancing := true }
        advance := .reserved watermarkNs }, .done)

/-- The second critical section of `flow_event_time_window_advance`, and the sort behind it. -/
def publish (s : WindowSystem) (windows : WindowConfig) (watermarkNs : ℕ) (candidatesInit : Status)
    (room : ℕ) : WindowSystem :=
  if candidatesInit ≠ .ok then { s with advance := .failed watermarkNs candidatesInit 0 }
  else
    { s with
      store := { s.store with watermark := some watermarkNs }
      advance :=
        match collectCandidates windows watermarkNs room s.store.entries.entries with
        | .error rc => .failed watermarkNs rc 0
        | .ok candidates =>
          .closing watermarkNs (candidates.insertionSort Candidate.Before) 0 }

/-- One round of the loop of `flow_event_time_window_advance`. -/
def closeNext (s : WindowSystem) (windows : WindowConfig) (watermarkNs : ℕ) (candidate : Candidate)
    (candidates : List Candidate) (closed : ℕ) (answers : CloseAnswers) :
    WindowSystem × WindowOutcome :=
  let r := closeCandidate windows s.store candidate answers
  let closed := if r.2.1 = some .ok then closed + 1 else closed
  ({ s with
      store := r.1
      advance :=
        if r.2.2 = .ok then .closing watermarkNs candidates closed
        else .failed watermarkNs r.2.2 closed }, .closed candidate r.2.1 r.2.2)

/-- The end of `flow_event_time_window_advance`. -/
def finish (s : WindowSystem) (watermarkNs : ℕ) (rc : Status) (closed : ℕ) :
    WindowSystem × WindowOutcome :=
  ({ s with store := { s.store with watermarkAdvancing := false }, advance := .idle },
    .advanced watermarkNs rc closed)

end WindowSystem

def windowStep (windows : WindowConfig) (s : WindowSystem) :
    WindowOperation → Option (WindowSystem × WindowOutcome)
  | .enter id selected timestampNs =>
    match s.events id with
    | some _ => none
    | none =>
      match eventWindow windows selected timestampNs with
      | .error rc => some (s, .refused rc)
      | .ok (key, closeAtNs) =>
        if s.store.watermark.any fun watermark => watermark ≥ closeAtNs then
          some (s, .refused .etimedout)
        else some (s.setEvent id (some (.gated key closeAtNs)), .done)
  | .snapshot id copied =>
    match s.events id with
    | some (.gated key closeAtNs) =>
      if copied then
        some (s.setEvent id (some (.opened (Txn.snapshot s.store key (some closeAtNs)))), .done)
      else some (s.setEvent id none, .refused .enomem)
    | _ => none
  | .call id c =>
    match s.events id with
    | some (.opened txn) =>
      let called := txn.call s.store.config.maxValueSize c
      some (s.setEvent id (some (.opened called.1)), .answered called.2)
    | _ => none
  | .commit id callback mapped =>
    match s.events id with
    | some (.opened txn) =>
      let closed := s.store.close txn callback mapped
      some ({ s with store := closed.1, events := Function.update s.events id none },
        .committed txn.key (txn.closeAt.getD 0) closed.2 (closed.1.valueAt txn.key))
    | _ => none
  | .reserve watermarkNs => some (s.reserve watermarkNs)
  | .publish candidatesInit room =>
    match s.advance with
    | .reserved watermarkNs => some (s.publish windows watermarkNs candidatesInit room, .done)
    | _ => none
  | .close answers =>
    match s.advance with
    | .closing watermarkNs (candidate :: candidates) closed =>
      some (s.closeNext windows watermarkNs candidate candidates closed answers)
    | _ => none
  | .finish =>
    match s.advance with
    | .closing watermarkNs [] closed => some (s.finish watermarkNs .ok closed)
    | .failed watermarkNs rc closed => some (s.finish watermarkNs rc closed)
    | _ => none

def windowAct (s : WindowSystem) (op : WindowOperation) : Option (WindowSystem × WindowOutcome) :=
  match s.store.windows with
  | none => none
  | some windows => windowStep windows s op

section Keys

variable {windows : WindowConfig}

def closeAtOf (windows : WindowConfig) (key : Bytes) : ℕ :=
  match eventTimeBounds windows (startOf key) with
  | .error _ => 0
  | .ok bounds => bounds.closeAtNs

structure WellKeyed (windows : WindowConfig) (key : Bytes) : Prop where
  length : keyPrefixSize < key.length
  bounds : ∃ bounds, eventTimeBounds windows (startOf key) = .ok bounds ∧
    bounds.startNs = startOf key

theorem eventTimeBounds_eq (h : eventTimeBounds windows timestampNs = .ok bounds) :
    bounds.startNs = timestampNs / windows.windowSizeNs * windows.windowSizeNs ∧
      bounds.startNs ≤ max64 - windows.windowSizeNs := by
  unfold eventTimeBounds at h
  dsimp only at h
  split at h
  · cases h
  rename_i hstart
  cases h
  exact ⟨rfl, Nat.le_of_not_lt hstart⟩

theorem eventTimeBounds_start (h : eventTimeBounds windows timestampNs = .ok bounds) :
    eventTimeBounds windows bounds.startNs = .ok bounds := by
  have hround : bounds.startNs / windows.windowSizeNs * windows.windowSizeNs =
      timestampNs / windows.windowSizeNs * windows.windowSizeNs := by
    rw [(eventTimeBounds_eq h).1]
    rcases Nat.eq_zero_or_pos windows.windowSizeNs with hzero | hpos
    · simp [hzero]
    · rw [Nat.mul_div_cancel _ hpos]
  rw [← h]
  simp only [eventTimeBounds, hround]

theorem startOf_eventTimeKey (applicationKey : Bytes) (h : startNs ≤ max64) :
    startOf (eventTimeKey startNs applicationKey) = startNs := by
  have hlt : startNs < 256 ^ keyPrefixSize := by
    simp only [max64, keyPrefixSize] at *
    omega
  rw [startOf, eventTimeKey, take_left' (LittleEndian.length_encode _ _),
    LittleEndian.decode_encode hlt]

theorem eventWindow_spec (h : eventWindow windows selected timestampNs = .ok (key, closeAtNs)) :
    WellKeyed windows key ∧ closeAtNs = closeAtOf windows key := by
  unfold eventWindow at h
  split at h
  · cases h
  rename_i applicationKey
  split at h
  · cases h
  rename_i hne
  split at h
  · cases h
  split at h
  · cases h
  rename_i bounds hbounds
  obtain ⟨rfl, rfl⟩ := Prod.mk.inj (Except.ok.inj h)
  have hstart : startOf (eventTimeKey bounds.startNs applicationKey) = bounds.startNs := by
    refine startOf_eventTimeKey applicationKey ?_
    have := (eventTimeBounds_eq hbounds).2
    omega
  have hsame := eventTimeBounds_start hbounds
  refine ⟨⟨?_, bounds, ?_, hstart.symm⟩, ?_⟩
  · have := length_pos_iff.mpr hne
    simp only [eventTimeKey, length_append, LittleEndian.length_encode]
    omega
  · rw [hstart, hsame]
  · rw [closeAtOf, hstart, hsame]

end Keys

section Candidates

variable {windows : WindowConfig} {watermarkNs : ℕ}

def IsCandidate (windows : WindowConfig) (watermarkNs : ℕ)
    (entries : List (Sigma fun _ : Bytes => Entry)) (candidate : Candidate) : Prop :=
  ⟨candidate.key, ⟨some candidate.value, candidate.revision⟩⟩ ∈ entries ∧
    closeAtOf windows candidate.key ≤ watermarkNs

theorem collectCandidates_spec
    (h : collectCandidates windows watermarkNs room entries = .ok candidates) :
    (candidates.map Candidate.key).Sublist entries.keys ∧
      (∀ candidate ∈ candidates, IsCandidate windows watermarkNs entries candidate) ∧
      ∀ key value revision, ⟨key, ⟨some value, revision⟩⟩ ∈ entries →
        closeAtOf windows key ≤ watermarkNs → key ∈ candidates.map Candidate.key := by
  induction entries generalizing room candidates with
  | nil =>
    cases h
    simp
  | cons e entries ih =>
    obtain ⟨key, entry⟩ := e
    -- An entry that is passed over is absent, or its window stays open.
    have hskip : collectCandidates windows watermarkNs room entries = .ok candidates →
        (∀ value, entry.value = some value → watermarkNs < closeAtOf windows key) →
        (candidates.map Candidate.key).Sublist (List.keys (⟨key, entry⟩ :: entries)) ∧
          (∀ candidate ∈ candidates,
            IsCandidate windows watermarkNs (⟨key, entry⟩ :: entries) candidate) ∧
          ∀ key' value revision, ⟨key', ⟨some value, revision⟩⟩ ∈ (⟨key, entry⟩ :: entries) →
            closeAtOf windows key' ≤ watermarkNs → key' ∈ candidates.map Candidate.key := by
      intro hrest hopen
      obtain ⟨hsub, hsound, hcomplete⟩ := ih hrest
      refine ⟨hsub.cons key, fun c hc => ?_, fun key' value revision hmem hclose => ?_⟩
      · exact ⟨mem_cons_of_mem _ (hsound c hc).1, (hsound c hc).2⟩
      rcases mem_cons.mp hmem with heq | hmem
      · cases heq
        have := hopen value rfl
        omega
      · exact hcomplete key' value revision hmem hclose
    rw [collectCandidates] at h
    split at h
    · rename_i hvalue
      exact hskip h (by simp [hvalue])
    rename_i value hvalue
    split at h
    · cases h
    split at h
    · cases h
    rename_i bounds hbounds
    have hcloseAt : closeAtOf windows key = bounds.closeAtNs := by rw [closeAtOf, hbounds]
    split at h
    · rename_i hlate
      exact hskip h fun _ _ => by omega
    rename_i hlate
    split at h
    · cases h
    split at h
    · cases h
    rename_i room rest hrest
    cases h
    obtain ⟨hsub, hsound, hcomplete⟩ := ih hrest
    refine ⟨hsub.cons_cons key, fun c hc => ?_, fun key' value' revision hmem hclose => ?_⟩
    · rcases mem_cons.mp hc with rfl | hc
      · refine ⟨mem_cons.mpr (.inl ?_), hcloseAt.trans_le (Nat.le_of_not_lt hlate)⟩
        obtain ⟨entryValue, revision⟩ := entry
        obtain rfl : entryValue = some value := hvalue
        rfl
      · exact ⟨mem_cons_of_mem _ (hsound c hc).1, (hsound c hc).2⟩
    rcases mem_cons.mp hmem with heq | hmem
    · cases heq
      exact mem_cons_self
    · exact mem_cons_of_mem _ (hcomplete key' value' revision hmem hclose)

end Candidates

end TurboFlow.Keyed
