import TurboFlow.Status
import Mathlib.Data.List.Basic

/-!
# Asynchronous publications

A publication counts the claims to be completed, and knows whether its owner has sealed and left it.
Each function is one critical section and says whether the caller has to run the finish callback.

`onValue` and `asyncPublishTaskRun` are the functions that create a publication, as lists of what
they do to it, for every way their calls can end.
-/

namespace TurboFlow.Publication

open List

/-- The fields of `flow_async_publication_s` under its mutex. -/
structure Tracker where
  pending : ℕ
  isSealed : Bool
  ownerActive : Bool
  status : Status

namespace Tracker

def create : Tracker where
  pending := 0
  isSealed := false
  ownerActive := true
  status := .ok

def record (t : Tracker) (status : Status) : Tracker :=
  if t.status = .ok ∧ status ≠ .ok then { t with status } else t

def isDone (t : Tracker) : Bool :=
  t.isSealed && !t.ownerActive && t.pending == 0

def submit (t : Tracker) : Tracker :=
  { t with pending := t.pending + 1 }

def release (t : Tracker) (status : Status) : Tracker × Bool :=
  let t := t.record status
  let t := if t.pending > 0 then { t with pending := t.pending - 1 } else t
  (t, t.isSealed && !t.ownerActive && t.pending == 0)

def sealPublication (t : Tracker) (status : Status) : Tracker × Bool :=
  let t := { t.record status with isSealed := true }
  (t, !t.ownerActive && t.pending == 0)

def ownerLeave (t : Tracker) : Tracker × Bool :=
  let t := { t with ownerActive := false }
  (t, t.isSealed && t.pending == 0)

section

variable (t : Tracker)
include t

section

variable (status : Status)
include status

@[simp]
theorem record_pending : (t.record status).pending = t.pending := by
  unfold record
  split <;> rfl

@[simp]
theorem record_isSealed :
    (t.record status).isSealed = t.isSealed := by
  unfold record
  split <;> rfl

@[simp]
theorem record_ownerActive :
    (t.record status).ownerActive = t.ownerActive := by
  unfold record
  split <;> rfl

@[simp]
theorem release_ownerActive :
    (t.release status).1.ownerActive = t.ownerActive := by
  unfold release
  dsimp only
  split <;> simp

theorem release_isDone :
    (t.release status).2 = (t.release status).1.isDone := rfl

theorem sealPublication_isDone :
    (t.sealPublication status).2 = (t.sealPublication status).1.isDone := by
  simp [sealPublication, isDone]

end

theorem ownerLeave_isDone : t.ownerLeave.2 = t.ownerLeave.1.isDone := by
  simp [ownerLeave, isDone]

end

theorem release_fst {t : Tracker} (h : 0 < t.pending) (status : Status) :
    (t.release status).1 = { t.record status with pending := t.pending - 1 } := by
  simp [release, h]

end Tracker

def firstFailure (results : List Status) : Status :=
  (results.find? fun status => status ≠ .ok).getD .ok

theorem firstFailure_append (results : List Status) (status : Status) :
    firstFailure (results ++ [status]) =
      if firstFailure results = .ok ∧ status ≠ .ok then status else firstFailure results := by
  unfold firstFailure
  rw [find?_append]
  rcases hfind : results.find? (fun status => decide (status ≠ Status.ok)) with _ | failure
  · by_cases hok : status = .ok <;> simp [hok]
  have hne := find?_some hfind
  simp_all

theorem firstFailure_eq_ok_iff (results : List Status) :
    firstFailure results = .ok ↔ ∀ status ∈ results, status = .ok := by
  unfold firstFailure
  rcases hfind : results.find? (fun status => decide (status ≠ Status.ok)) with _ | failure
  · simpa using find?_eq_none.mp hfind
  have hne : failure ≠ .ok := by simpa using find?_some hfind
  have hmem := mem_of_find?_eq_some hfind
  simp only [Option.getD_some]
  exact ⟨fun heq => absurd heq hne, fun hall => hall failure hmem⟩

inductive OwnerCall
  | run
  | seal (status : Status)
  | leave
  deriving DecidableEq

/-- `flow_publish_local` with a publication: the graph runs and its result seals. -/
def publishLocal (graph : Status) : List OwnerCall :=
  [.run, .seal graph]

/-- `flow_publish_message_entered`: every failure before the graph runs seals as well. -/
def publishMessageEntered (payloadValid : Bool) (source clone graph : Status) : List OwnerCall :=
  if payloadValid = false then [.seal .einval]
  else if source ≠ .ok then [.seal source]
  else if clone ≠ .ok then [.seal clone]
  else publishLocal graph

/-- `flow_run_on_value` from the creation of its publication on. -/
def onValue (bufferOrigin payloadValid : Bool) (source clone graph : Status) : List OwnerCall :=
  let body :=
    if bufferOrigin then
      if clone = .ok then [.run, .seal graph] else [.seal clone]
    else publishMessageEntered payloadValid source clone graph
  body ++ [.leave]

/-- `flow_async_publish_task_run` from the creation of its publication on. -/
def asyncPublishTaskRun (graph : Status) : List OwnerCall :=
  publishLocal graph ++ [.leave]

inductive Creator : List OwnerCall → Prop
  | byValue (bufferOrigin payloadValid : Bool) (source clone graph : Status) :
      Creator (onValue bufferOrigin payloadValid source clone graph)
  | byTask (graph : Status) : Creator (asyncPublishTaskRun graph)

theorem Creator.seals_and_leaves (h : Creator path) :
    ∃ status, path = [.run, .seal status, .leave] ∨ path = [.seal status, .leave] := by
  cases h with
  | byValue bufferOrigin payloadValid source clone graph =>
    unfold onValue publishMessageEntered publishLocal
    split
    · split
      · exact ⟨graph, .inl rfl⟩
      · exact ⟨clone, .inr rfl⟩
    split
    · exact ⟨.einval, .inr rfl⟩
    split
    · exact ⟨source, .inr rfl⟩
    split
    · exact ⟨clone, .inr rfl⟩
    · exact ⟨graph, .inl rfl⟩
  | byTask graph => exact ⟨graph, .inl rfl⟩

end TurboFlow.Publication
