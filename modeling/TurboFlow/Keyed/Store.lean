import TurboFlow.Status
import TurboFlow.Lib.Version
import TurboFlow.Lib.Word
import Mathlib.Data.List.AList

/-!
# The keyed-state store

A processor works on one key in a transaction: opening it takes a snapshot of the entry, the
callback stages one mutation, and closing it commits the mutation if the entry has not been written
meanwhile. A deleted entry keeps its slot and its revision. In an event-time store the gate refuses
to commit once the watermark has reached the closing time of the window.
-/

namespace TurboFlow.Keyed

open Word Version

abbrev Bytes := List UInt8

abbrev Entry := Cell (Option Bytes)

structure StoreConfig where
  maxEntries : ℕ
  maxKeySize : ℕ
  maxValueSize : ℕ
  maxTotalBytes : ℕ

structure WindowConfig where
  applicationKeySize : ℕ
  windowSizeNs : ℕ
  allowedLatenessNs : ℕ

/-- `turbo_flow_keyed_state_store_t`. The watermark is absent until it is initialized. -/
structure Store where
  config : StoreConfig
  entries : AList fun _ : Bytes => Entry
  currentBytes : ℕ
  presentCount : ℕ
  windows : Option WindowConfig
  watermark : Option ℕ
  watermarkAdvancing : Bool

def maxEntriesLimit : ℕ := 1048576

def maxKeySizeLimit : ℕ := 1048576

def maxValueSizeLimit : ℕ := 16777216

def configValid (config : StoreConfig) : Bool :=
  ¬ (config.maxEntries = 0 ∨ config.maxKeySize = 0 ∨ config.maxValueSize = 0 ∨
      config.maxTotalBytes = 0) ∧
    ¬ (config.maxEntries > maxEntriesLimit ∨ config.maxKeySize > maxKeySizeLimit ∨
      config.maxValueSize > maxValueSizeLimit ∨ config.maxKeySize > config.maxTotalBytes ∨
      config.maxValueSize > config.maxTotalBytes)

/-- `turbo_flow_keyed_state_store_create`, where the allocations succeed. -/
def storeCreate (config : StoreConfig) : Option Store :=
  if configValid config then
    some
      { config
        entries := ∅
        currentBytes := 0
        presentCount := 0
        windows := none
        watermark := none
        watermarkAdvancing := false }
  else none

namespace Store

def lookup (store : Store) (key : Bytes) : Option Entry :=
  store.entries.lookup key

def valueAt (store : Store) (key : Bytes) : Option Bytes :=
  (store.lookup key).bind Cell.value

def insert (store : Store) (key : Bytes) (entry : Entry) : Store :=
  { store with entries := store.entries.insert key entry }

end Store

/-- `flow_keyed_state_mutation_t` with the pending value. -/
inductive Mutation
  | none
  | put (value : Bytes)
  | delete

/-- `turbo_flow_keyed_state_t` of an open transaction. `observed` is the entry of the snapshot,
`closeAt` the closing time of the window. -/
structure Txn where
  key : Bytes
  observed : Option Entry
  closeAt : Option ℕ
  status : Status
  mutation : Mutation

/-- The calls of a callback. An allocation of `put` may fail. -/
inductive Call
  | get
  | put (value : Bytes) (copied : Bool)
  | delete

/-- What a call returns: `get` the value and the revision. -/
inductive Answer
  | got (result : Except Status (Bytes × ℕ))
  | status (rc : Status)

namespace Txn

def start (key : Bytes) (observed : Option Entry) (closeAt : Option ℕ) : Txn where
  key
  observed
  closeAt
  status := .ok
  mutation := .none

def snapshot (store : Store) (key : Bytes) (closeAt : Option ℕ) : Txn :=
  start key (store.lookup key) closeAt

def value (t : Txn) : Option Bytes :=
  t.observed.bind Cell.value

def revision (t : Txn) : ℕ :=
  (t.observed.map Cell.revision).getD 0

def get (t : Txn) : Except Status (Bytes × ℕ) :=
  match t.mutation, t.value with
  | .delete, _ => .error .enoent
  | .put value, _ => .ok (value, t.revision)
  | .none, some value => .ok (value, t.revision)
  | .none, none => .error .enoent

def put (t : Txn) (maxValueSize : ℕ) (value : Bytes) (copied : Bool) : Txn × Status :=
  if t.status ≠ .ok then (t, t.status)
  else if value.length > maxValueSize then ({ t with status := .enospc }, .enospc)
  else if ¬ copied then ({ t with status := .enomem }, .enomem)
  else ({ t with mutation := .put value }, .ok)

def delete (t : Txn) : Txn × Status :=
  if t.status ≠ .ok then (t, t.status)
  else
    match t.mutation, t.value with
    | .put _, none => ({ t with mutation := .none }, .ok)
    | .delete, _ | .none, none => (t, .enoent)
    | .put _, some _ | .none, some _ => ({ t with mutation := .delete }, .ok)

def call (t : Txn) (maxValueSize : ℕ) : Call → Txn × Answer
  | .get => (t, .got t.get)
  | .put value copied =>
    let (t, rc) := t.put maxValueSize value copied
    (t, .status rc)
  | .delete =>
    let (t, rc) := t.delete
    (t, .status rc)

def calls (t : Txn) (maxValueSize : ℕ) : List Call → Txn × List Answer
  | [] => (t, [])
  | c :: cs =>
    let (t, answer) := t.call maxValueSize c
    let (t, answers) := t.calls maxValueSize cs
    (t, answer :: answers)

end Txn

namespace Store

def gate (store : Store) (t : Txn) : Status :=
  match t.closeAt, store.watermark with
  | some closeAt, some watermark => if watermark ≥ closeAt then .etimedout else .ok
  | _, _ => .ok

def bytesWith (store : Store) (key : Bytes) (entry : Option Entry) (value : Bytes) : Option ℕ :=
  let oldBytes := ((entry.bind Cell.value).map List.length).getD 0
  let kept := sub64 store.currentBytes oldBytes
  let keyBytes := if entry.isNone then key.length else 0
  if kept > max64 - keyBytes then none
  else
    let newBytes := kept + keyBytes
    if newBytes > max64 - value.length ∨ newBytes + value.length > store.config.maxTotalBytes then
      none
    else some (newBytes + value.length)

/-- `flow_keyed_commit_put`. `mapped` says whether the map could write the entry. -/
def commitPut (store : Store) (t : Txn) (value : Bytes) (mapped : Bool) : Store × Status :=
  if store.gate t ≠ .ok then (store, store.gate t)
  else
    let entry := store.lookup t.key
    if conflict t.observed entry then (store, .ebusy)
    else if entry.isNone ∧ store.entries.entries.length ≥ store.config.maxEntries then
      (store, .enospc)
    else if entry.any fun entry => entry.revision = max64 then (store, .erange)
    else
      match store.bytesWith t.key entry value with
      | none => (store, .enospc)
      | some newBytes =>
        if ¬ mapped then (store, .enomem)
        else
          let revision := (entry.map Cell.revision).getD 0 + 1
          ({ store.insert t.key ⟨some value, revision⟩ with
              presentCount :=
                if (entry.bind Cell.value).isSome then store.presentCount
                else add64 store.presentCount 1
              currentBytes := newBytes }, .ok)

def commitDelete (store : Store) (t : Txn) (mapped : Bool) : Store × Status :=
  if store.gate t ≠ .ok then (store, store.gate t)
  else
    let entry := store.lookup t.key
    if conflict t.observed entry then (store, .ebusy)
    else
      match entry with
      | some ⟨some value, revision⟩ =>
        if revision = max64 then (store, .erange)
        else if ¬ mapped then (store, .enomem)
        else
          ({ store.insert t.key ⟨none, revision + 1⟩ with
              currentBytes := sub64 store.currentBytes value.length
              presentCount := sub64 store.presentCount 1 }, .ok)
      | _ => (store, .enoent)

def validateSnapshot (store : Store) (t : Txn) : Status :=
  if store.gate t ≠ .ok then store.gate t
  else if conflict t.observed (store.lookup t.key) then .ebusy
  else .ok

def commit (store : Store) (t : Txn) (mapped : Bool) : Store × Status :=
  match t.mutation with
  | .none => (store, store.validateSnapshot t)
  | .put value => store.commitPut t value mapped
  | .delete => store.commitDelete t mapped

def close (store : Store) (t : Txn) (callback : Status) (mapped : Bool) : Store × Status :=
  if callback ≠ .ok then (store, callback)
  else if t.status ≠ .ok then (store, t.status)
  else store.commit t mapped

/-- `flow_keyed_state_open` up to the snapshot; `selected` is the answer of the key selector. -/
def keyOf (store : Store) (selected : Except Status Bytes) (copied : Bool) : Except Status Bytes :=
  match selected with
  | .error rc => .error rc
  | .ok key =>
    if key = [] then .error .einval
    else if key.length > store.config.maxKeySize then .error .enospc
    else if ¬ copied then .error .enomem
    else .ok key

/-- `flow_keyed_state_execute` of a callback that makes the given calls. -/
def execute (store : Store) (key : Bytes) (cs : List Call) (callback : Status) (mapped : Bool) :
    Store × List Answer × Status :=
  let (t, answers) := (Txn.snapshot store key none).calls store.config.maxValueSize cs
  let (store, rc) := store.close t callback mapped
  (store, answers, rc)

def mutated (before : Option Entry) : Mutation → Option Entry
  | .none => before
  | .put value => some ⟨some value, (before.map Cell.revision).getD 0 + 1⟩
  | .delete => some ⟨none, (before.map Cell.revision).getD 0 + 1⟩

section Commit

variable {store store' : Store} {t : Txn} {mapped : Bool} {rc : Status}

@[simp] theorem lookup_insert (store : Store) (key : Bytes) (entry : Entry) :
    (store.insert key entry).lookup key = some entry :=
  AList.lookup_insert store.entries

theorem lookup_insert_of_ne (store : Store) (entry : Entry) (h : other ≠ key) :
    (store.insert key entry).lookup other = store.lookup other :=
  AList.lookup_insert_ne h

structure Committed (store : Store) (t : Txn) (store' : Store) : Prop where
  gate : store.gate t = .ok
  unchanged : conflict t.observed (store.lookup t.key) = false
  written : store'.lookup t.key = mutated (store.lookup t.key) t.mutation
  others : ∀ key, key ≠ t.key → store'.lookup key = store.lookup key
  config : store'.config = store.config
  windows : store'.windows = store.windows
  watermark : store'.watermark = store.watermark
  advancing : store'.watermarkAdvancing = store.watermarkAdvancing

theorem refused_of_eq (hrc : rc' ≠ .ok) (h : (store, rc') = (store', rc)) :
    (rc ≠ .ok ∧ store' = store) ∨ P := by
  cases h
  exact .inl ⟨hrc, rfl⟩

theorem commitPut_spec (h : store.commitPut t value mapped = (store', rc))
    (hmutation : t.mutation = .put value) :
    (rc ≠ .ok ∧ store' = store) ∨ (rc = .ok ∧ Committed store t store') := by
  unfold commitPut at h
  split at h
  · exact refused_of_eq ‹_› h
  rename_i hgate
  dsimp only at h
  split at h
  · exact refused_of_eq (by simp) h
  rename_i hconflict
  split at h
  · exact refused_of_eq (by simp) h
  split at h
  · exact refused_of_eq (by simp) h
  split at h
  · exact refused_of_eq (by simp) h
  split at h
  · exact refused_of_eq (by simp) h
  cases h
  refine .inr ⟨rfl, ?_⟩
  exact
    { gate := not_not.mp hgate
      unchanged := by simpa using hconflict
      written := by
        rw [hmutation]
        exact lookup_insert store t.key _
      others := fun key hkey => lookup_insert_of_ne store _ hkey
      config := rfl
      windows := rfl
      watermark := rfl
      advancing := rfl }

theorem commitDelete_spec (h : store.commitDelete t mapped = (store', rc))
    (hmutation : t.mutation = .delete) :
    (rc ≠ .ok ∧ store' = store) ∨ (rc = .ok ∧ Committed store t store') := by
  unfold commitDelete at h
  split at h
  · exact refused_of_eq ‹_› h
  rename_i hgate
  dsimp only at h
  split at h
  · exact refused_of_eq (by simp) h
  rename_i hconflict
  split at h
  · rename_i value revision hentry
    split at h
    · exact refused_of_eq (by simp) h
    split at h
    · exact refused_of_eq (by simp) h
    cases h
    refine .inr ⟨rfl, ?_⟩
    exact
      { gate := not_not.mp hgate
        unchanged := by simpa using hconflict
        written := by
          rw [hmutation, hentry]
          exact lookup_insert store t.key _
        others := fun key hkey => lookup_insert_of_ne store _ hkey
        config := rfl
        windows := rfl
        watermark := rfl
        advancing := rfl }
  · exact refused_of_eq (by simp) h

theorem commit_spec (h : store.commit t mapped = (store', rc)) :
    (rc ≠ .ok ∧ store' = store) ∨ (rc = .ok ∧ Committed store t store') := by
  unfold commit at h
  split at h
  · rename_i hmutation
    cases h
    unfold validateSnapshot
    split
    · rename_i hgate
      exact .inl ⟨hgate, rfl⟩
    rename_i hgate
    split
    · exact .inl ⟨by simp, rfl⟩
    rename_i hconflict
    refine .inr ⟨rfl, ?_⟩
    exact
      { gate := not_not.mp hgate
        unchanged := by simpa using hconflict
        written := by rw [hmutation]; rfl
        others := fun _ _ => rfl
        config := rfl
        windows := rfl
        watermark := rfl
        advancing := rfl }
  · rename_i value hmutation
    exact commitPut_spec h hmutation
  rename_i hmutation
  exact commitDelete_spec h hmutation

theorem close_spec (h : store.close t callback mapped = (store', rc)) :
    (rc ≠ .ok ∧ store' = store) ∨
      (rc = .ok ∧ Committed store t store' ∧ callback = .ok ∧ t.status = .ok) := by
  unfold close at h
  split at h
  · rename_i hcallback
    cases h
    exact .inl ⟨hcallback, rfl⟩
  rename_i hcallback
  split at h
  · rename_i hstatus
    cases h
    exact .inl ⟨hstatus, rfl⟩
  rename_i hstatus
  rcases commit_spec h with hfailed | ⟨hrc, hcommitted⟩
  · exact .inl hfailed
  · exact .inr ⟨hrc, hcommitted, not_not.mp hcallback, not_not.mp hstatus⟩

theorem later_mutated (before : Option Entry) (mutation : Mutation) :
    Later before (mutated before mutation) := by
  cases before with
  | none => exact Later.none
  | some entry =>
    cases mutation with
    | none => exact Later.refl _
    | put value => exact Later.write entry (some value)
    | delete => exact Later.write entry none

theorem Committed.later (h : Committed store t store') (key : Bytes) :
    Later (store.lookup key) (store'.lookup key) := by
  by_cases hkey : key = t.key
  · rw [hkey, h.written]
    exact later_mutated _ _
  rw [h.others key hkey]
  exact Later.refl _

end Commit

end Store

end TurboFlow.Keyed
