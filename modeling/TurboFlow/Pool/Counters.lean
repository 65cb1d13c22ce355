import TurboFlow.Lib.Run
import TurboFlow.Lib.Table
import TurboFlow.Status

/-!
# The counters of a pool

The executors count a stage execution in the record of its pool, one atomic update after the other,
on the submitting thread, which waits, and on the worker. Executions of different messages
interleave. `queued` and `active` count the executions that wait and those that run, but not one
that is between the two: a pool whose only execution is there looks drained.
-/

namespace TurboFlow.Pool

open Transition List

inductive Counter
  | submitted
  | started
  | completed
  | failed
  | canceled
  | rejected
  | queued
  | active
  deriving DecidableEq

/-- An `atomic_fetch_add` or `atomic_fetch_sub`. -/
structure Update where
  counter : Counter
  amount : ℤ
  deriving DecidableEq

@[simp] def add (c : Counter) : Update := ⟨c, 1⟩

@[simp] def sub (c : Counter) : Update := ⟨c, -1⟩

@[simp] def recordSubmitted : List Update := [add .submitted, add .queued]

@[simp] def recordAttempted : List Update := [add .submitted]

@[simp] def recordQueued : List Update := [add .queued]

@[simp] def recordStarted : List Update := [sub .queued, add .started, add .active]

def terminal (status : Status) : Counter :=
  if status = .ecanceled ∨ status = .eshutdown then .canceled
  else if status = .ok then .completed
  else .failed

@[simp] def recordFinished (status : Status) : List Update := [sub .active, add (terminal status)]

@[simp] def recordRejected : List Update := [sub .queued, add .rejected]

@[simp] def recordRejectedUnqueued : List Update := [add .rejected]

@[simp] def recordCanceledUnqueued : List Update := [add .canceled]

/-- A stage execution, with what pool, ring and stage answer. One that counts nothing is left
out. -/
inductive Execution
  /-- `flow_execute_threadpool_stage` and `flow_threadpool_task_run`; `none` if the pool rejects the
  task. -/
  | thread (status : Option Status)
  /-- `flow_execute_coro_stage` -/
  | coro (rc : Status)
  /-- The submission to the worker ring and `flow_worker_pool_run`; the error of
  `flow_worker_pool_claim`, or the status. -/
  | ring (claimed : Except Status Status)

def Execution.updates : Execution → List Update
  | thread none => recordSubmitted ++ recordRejected
  | thread (some status) => recordSubmitted ++ (recordStarted ++ recordFinished status)
  | coro rc => recordSubmitted ++ (recordStarted ++ recordFinished rc)
  | ring (.error rc) =>
    recordAttempted ++ if rc = .ecanceled then recordCanceledUnqueued else recordRejectedUnqueued
  | ring (.ok status) =>
    recordAttempted ++ (recordQueued ++ (recordStarted ++ recordFinished status))

/-- The record of a pool, and what the executions still have to count. -/
structure System where
  record : Counter → ℤ
  jobs : List (List Update)

def System.init : System := ⟨fun _ => 0, []⟩

inductive Operation
  | enter (e : Execution)
  | update (job : ℕ)

def act (s : System) : Operation → Option (System × Unit)
  | .enter e => some ({ s with jobs := s.jobs ++ [e.updates] }, ())
  | .update i =>
    match s.jobs[i]? with
    | some (u :: rest) =>
      some (⟨Function.update s.record u.counter (s.record u.counter + u.amount),
        s.jobs.set i rest⟩, ())
    | _ => none

/-- No submission or worker is inside a stage execution. -/
def System.Idle (s : System) : Prop := ∀ job ∈ s.jobs, job = []

structure Snapshot where
  queued : ℤ
  active : ℤ

/-- The two fields of `turbo_flow_pool_snapshot_at` that `drained` reads. `queued` is loaded in the
state `s` and `active` later, in `t`; a running thread pool reports the `stats` of its library. -/
def poolSnapshot (stats : Option Snapshot) (s t : System) : Snapshot :=
  match stats with
  | some stats => ⟨max stats.queued 0, max stats.active 0⟩
  | none => ⟨s.record .queued, t.record .active⟩

def Snapshot.drained (out : Snapshot) : Bool := out.queued == 0 && out.active == 0

/-- The next update of the execution takes it from the counter: it waits in the queue until
`flow_pool_record_started` or `flow_pool_record_rejected`, or runs until
`flow_pool_record_finished`. -/
def Leaves (c : Counter) (job : List Update) : Prop := job.head? = some (sub c)

instance (c : Counter) : DecidablePred (Leaves c) := fun _ => inferInstanceAs (Decidable (_ = _))

/-- What an execution still has to take from a counter, less what it has to add. -/
@[simp] def owed (c : Counter) : List Update → ℤ
  | [] => 0
  | u :: job => owed c job - if u.counter = c then u.amount else 0

/-- At every point the execution owes one to the counter exactly if it is about to take it. -/
@[simp] def Returns (c : Counter) : List Update → Prop
  | [] => True
  | u :: job => (owed c (u :: job) = if Leaves c (u :: job) then 1 else 0) ∧ Returns c job

theorem Returns.owed_eq {c : Counter} {job : List Update} (h : Returns c job) :
    owed c job = if Leaves c job then 1 else 0 := by
  cases job with
  | nil => rfl
  | cons => exact h.1

@[simp] def outcomes (f : Counter → ℤ) : ℤ :=
  f .completed + f .failed + f .canceled + f .rejected

theorem Execution.balanced (e : Execution) :
    (Returns .queued e.updates ∧ Returns .active e.updates) ∧ owed .queued e.updates = 0 ∧
      owed .active e.updates = 0 ∧
      owed .submitted e.updates = outcomes fun c => owed c e.updates := by
  rcases e with (_ | status) | status | rc | status
  · simp [updates, Leaves]
  all_goals
    simp only [updates, recordFinished, terminal]
    split_ifs <;> simp [Leaves]

def System.total (s : System) (c : Counter) : ℤ := s.record c - (s.jobs.map (owed c)).sum

structure Counted (s : System) : Prop where
  queued : s.total .queued = 0
  active : s.total .active = 0
  balanced : s.total .submitted = outcomes s.total
  returns : ∀ job ∈ s.jobs, Returns .queued job ∧ Returns .active job

variable {s s' t : System} {op : Operation} {out : Unit} {tr tr' : List (Operation × Unit)}

theorem Counted.act (h : Counted s) (hact : act s op = some (s', out)) : Counted s' := by
  cases op with
  | enter e =>
    cases hact
    have htotal : ∀ c, System.total ⟨s.record, s.jobs ++ [e.updates]⟩ c =
        s.total c - owed c e.updates := by
      simp [System.total, sub_sub]
    obtain ⟨hreturns, hqueued, hactive, hbalanced⟩ := e.balanced
    have := h.balanced
    simp only [outcomes] at this hbalanced
    refine ⟨?_, ?_, ?_, forall_mem_append.mpr ⟨h.returns, by simpa using hreturns⟩⟩
    · rw [htotal, h.queued, hqueued, sub_zero]
    · rw [htotal, h.active, hactive, sub_zero]
    simp only [outcomes, htotal]
    omega
  | update i =>
    rw [Pool.act] at hact
    split at hact
    · rename_i u rest hjob
      cases hact
      obtain ⟨before, behind, hjobs, hset, -⟩ := Table.exists_around hjob
      have hreturns := h.returns (u :: rest) (mem_of_getElem? hjob)
      have htotal : System.total ⟨Function.update s.record u.counter
          (s.record u.counter + u.amount), s.jobs.set i rest⟩ = s.total := by
        funext c
        rw [System.total, System.total, hset, hjobs]
        simp only [map_append, map_cons, sum_append, sum_cons, owed]
        by_cases hc : u.counter = c
        · subst hc
          simp only [Function.update_self, if_true]
          omega
        · simp [Function.update_of_ne (Ne.symm hc), hc]
      refine ⟨htotal ▸ h.queued, htotal ▸ h.active, htotal ▸ h.balanced, fun job hjob => ?_⟩
      rcases mem_or_eq_of_mem_set hjob with hjob | rfl
      · exact h.returns job hjob
      · exact ⟨hreturns.1.2, hreturns.2.2⟩
    · cases hact

theorem counted_of_run (h : Run (Acts act) System.init tr s) : Counted s :=
  h.invariant ⟨rfl, rfl, rfl, by simp [System.init]⟩ fun _ _ _ hs hstep => hs.act hstep

/-- A counter that the executions take back counts those that are about to do so. -/
theorem Counted.counter {c : Counter} (h : Counted s) (hc : c = .queued ∨ c = .active) :
    s.record c = s.jobs.countP (Leaves c) := by
  obtain ⟨htotal, hreturns⟩ : s.total c = 0 ∧ ∀ job ∈ s.jobs, Returns c job := by
    rcases hc with rfl | rfl
    · exact ⟨h.queued, fun job hjob => (h.returns job hjob).1⟩
    · exact ⟨h.active, fun job hjob => (h.returns job hjob).2⟩
  rw [sub_eq_zero.mp htotal]
  generalize s.jobs = jobs at hreturns
  induction jobs with
  | nil => rfl
  | cons job jobs ih =>
    obtain ⟨hjob, hjobs⟩ := forall_mem_cons.mp hreturns
    rw [map_cons, sum_cons, ih hjobs, hjob.owed_eq, countP_cons]
    split_ifs <;> simp_all [add_comm]

theorem Counted.record_eq_zero_iff {c : Counter} (h : Counted s) (hc : c = .queued ∨ c = .active) :
    s.record c = 0 ↔ ∀ job ∈ s.jobs, ¬ Leaves c job := by
  simp [h.counter hc]

/-- `queued` and `active` count the executions that wait and those that run, so they never go below
zero; without an execution inside the counters are settled. A snapshot is drained exactly if no
execution waits at its first load and none runs at its second. If nothing changes between the loads
and no execution is in the middle of its updates, that is exactly if nothing is in progress. -/
theorem pool_counts (h : Run (Acts act) System.init tr s) (h' : Run (Acts act) s tr' t) :
    (s.record .queued = s.jobs.countP (Leaves .queued) ∧
      s.record .active = s.jobs.countP (Leaves .active)) ∧
    (0 ≤ s.record .queued ∧ 0 ≤ s.record .active) ∧
    (s.Idle → s.record .queued = 0 ∧ s.record .active = 0 ∧
      s.record .submitted = outcomes s.record) ∧
    ((poolSnapshot none s t).drained ↔
      (∀ job ∈ s.jobs, ¬ Leaves .queued job) ∧ ∀ job ∈ t.jobs, ¬ Leaves .active job) ∧
    ((∀ job ∈ s.jobs, job = [] ∨ Leaves .queued job ∨ Leaves .active job) →
      ((poolSnapshot none s s).drained ↔ s.Idle)) := by
  have hs := counted_of_run h
  have ht := counted_of_run (h.append h')
  have hqueued := hs.counter (.inl rfl)
  have hactive := hs.counter (.inr rfl)
  have hdrained : ∀ {t}, Counted t → ((poolSnapshot none s t).drained ↔
      (∀ job ∈ s.jobs, ¬ Leaves .queued job) ∧ ∀ job ∈ t.jobs, ¬ Leaves .active job) := by
    intro t ht
    rw [← hs.record_eq_zero_iff (.inl rfl), ← ht.record_eq_zero_iff (.inr rfl)]
    simp [poolSnapshot, Snapshot.drained]
  have hidle : s.Idle → ∀ c, ∀ job ∈ s.jobs, ¬ Leaves c job := by
    intro h c job hjob
    simp [h job hjob, Leaves]
  refine ⟨⟨hqueued, hactive⟩, ⟨by omega, by omega⟩, fun h => ?_, hdrained ht, ?_⟩
  · have htotal : s.total = s.record := by
      funext c
      have hzero : ∀ x ∈ s.jobs.map (owed c), x = 0 := by
        simpa using fun job hjob => by simp [h job hjob]
      rw [System.total, sum_eq_zero hzero, sub_zero]
    exact ⟨(hs.record_eq_zero_iff (.inl rfl)).mpr (hidle h _),
      (hs.record_eq_zero_iff (.inr rfl)).mpr (hidle h _), htotal ▸ hs.balanced⟩
  intro hrest
  rw [hdrained hs]
  refine ⟨fun ⟨hwaits, hruns⟩ job hjob => ?_, fun h => ⟨hidle h _, hidle h _⟩⟩
  rcases hrest job hjob with hend | hwait | hrun
  · exact hend
  · exact absurd hwait (hwaits job hjob)
  · exact absurd hrun (hruns job hjob)

/-- A coroutine has taken the only task of the pool from the queue and has not counted it as
active. -/
theorem pool_drained_starting :
    ∃ s outs, exec act System.init
        [.enter (.coro .ok), .update 0, .update 0, .update 0] = some (s, outs) ∧
      (poolSnapshot none s s).drained ∧ s.record .submitted = 1 ∧ ¬ s.Idle :=
  ⟨_, _, rfl, rfl, rfl, by simp [System.Idle, System.init, Execution.updates, recordSubmitted]⟩

theorem pool_counts_queued :
    ∃ s outs, exec act System.init [.enter (.ring (.ok .ok)), .update 0, .update 0] =
        some (s, outs) ∧ ¬ s.Idle ∧ ((poolSnapshot none s s).drained ↔ s.Idle) := by
  refine ⟨_, _, and_of_imp rfl fun hexec => ⟨?_, ?_⟩⟩
  · simp [System.Idle, System.init, Execution.updates]
  refine (pool_counts (run_of_exec hexec) .nil).2.2.2.2 ?_
  simp [System.init, Execution.updates, Leaves]

end TurboFlow.Pool
