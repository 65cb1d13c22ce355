import TurboFlow.Lib.Run
import TurboFlow.Status

/-!
# The interval and the one-shot schedule

The timer callback reserves the single publication slot, checks again that the schedule has not
completed, and submits. The completion counts the publication, completes the schedule at the limit
or a failure, and then gives the slot back. Every access to a shared word is a step. Within one
start the word `started` is one.
-/

namespace TurboFlow.Schedule

open Transition Option List

inductive TimerMode
  | interval
  | oneShot
  deriving DecidableEq

structure TimerConfig where
  mode : TimerMode
  repeatLimit : ℕ
  delayMs : ℕ

def TimerConfig.bound (c : TimerConfig) : Option ℕ :=
  if c.mode = .oneShot then some 1 else if 0 < c.repeatLimit then some c.repeatLimit else none

/-- The next step of `flow_schedule_timer_callback` behind its guard. -/
inductive Callback
  | check
  | reserve
  | exchange
  | recheck
  | unreserve
  | due
  | early
  | submit
  | rejected (rc : Status)
  | fail
  | done
  deriving DecidableEq

/-- The next step of `flow_schedule_publish_complete`; `pending` is a publication that has not been
completed. -/
inductive Completion
  | pending
  | fire
  | finish
  | rearm
  | note
  | fail (status : Status)
  | release
  deriving DecidableEq

/-- The shared words of a schedule, its callback and its publications. `timer_callback_active` is
set while there is a callback. -/
structure Timer where
  completed : Bool
  asyncInflight : ℕ
  runFired : ℕ
  nextDueMs : ℕ
  fired : ℕ
  lastStatus : Status
  callback : Option Callback
  publications : List Completion

def Timer.start : Timer :=
  { completed := false, asyncInflight := 0, runFired := 0, nextDueMs := 0, fired := 0,
    lastStatus := .ok, callback := none, publications := [] }

/-- What a step of the callback reads: the clock, whether the timer restarts, and the answer of
`turbo_flow_publish_async`, if it is called. -/
structure TimerAnswers where
  now : ℕ
  restarts : Bool
  submission : Option Status

inductive TimerOp
  | timer
  | callback (answers : TimerAnswers)
  | complete (k : ℕ) (status : Status)
  | completion (k now : ℕ)
  | armed (now : ℕ)
  | armFailed (rc : Status)

inductive TimerOutcome
  | done
  | submitted
  | succeeded
  | failed
  deriving DecidableEq

def nativeTimerMaxMs : ℕ :=
  2 ^ 32 - 2

def addDelay (nowMs delayMs : ℕ) : ℕ :=
  if 2 ^ 64 - 1 - nowMs < delayMs then 2 ^ 64 - 1 else nowMs + delayMs

/-- `atomic_fetch_sub` of one from an `atomic_uint`. -/
def fetchSub (n : ℕ) : ℕ :=
  if n = 0 then 2 ^ 32 - 1 else n - 1

@[simp] def Timer.at (s : Timer) (pc : Callback) : Timer :=
  { s with callback := some pc }

def Timer.callbackStep (c : TimerConfig) (s : Timer) (a : TimerAnswers) :
    Callback → Timer × TimerOutcome
  | .check => (s.at (if s.completed then .done else .reserve), .done)
  | .reserve => (s.at (if s.completed then .done else .exchange), .done)
  | .exchange =>
    if s.asyncInflight = 0 then (Timer.at { s with asyncInflight := 1 } .recheck, .done)
    else (s.at .done, .done)
  | .recheck => (s.at (if s.completed then .unreserve else .due), .done)
  | .unreserve => (Timer.at { s with asyncInflight := 0 } .done, .done)
  | .due => (s.at (if a.now < s.nextDueMs then .early else .submit), .done)
  | .early =>
    if c.mode = .oneShot ∧ c.delayMs ≤ nativeTimerMaxMs ∧ ¬ a.restarts then
      (Timer.at { s with asyncInflight := 0, lastStatus := .eio } .fail, .done)
    else (Timer.at { s with asyncInflight := 0 } .done, .done)
  | .submit =>
    match a.submission with
    | none => (Timer.at { s with asyncInflight := 0 } .fail, .failed)
    | some .ok =>
      (Timer.at { s with publications := s.publications ++ [.pending] } .done, .submitted)
    | some rc => (s.at (.rejected rc), .failed)
  | .rejected rc =>
    (Timer.at { s with asyncInflight := fetchSub s.asyncInflight, lastStatus := rc } .fail, .done)
  | .fail => (Timer.at { s with completed := true } .done, .done)
  | .done => ({ s with callback := none }, .done)

def Timer.setPublication (s : Timer) (k : ℕ) (pc : Completion) : Timer :=
  { s with publications := s.publications.set k pc }

/-- A step of the completion of the `k`-th publication. -/
def Timer.completionStep (c : TimerConfig) (s : Timer) (k now : ℕ) : Completion → Option Timer
  | .pending => none
  | .fire =>
    let runFired := s.runFired + 1
    let last := c.mode = .oneShot ∨ 0 < c.repeatLimit ∧ c.repeatLimit ≤ runFired
    some (Timer.setPublication { s with fired := s.fired + 1, runFired } k
      (if last then .finish else .rearm))
  | .finish => some (Timer.setPublication { s with completed := true } k .note)
  | .rearm => some (Timer.setPublication { s with nextDueMs := addDelay now c.delayMs } k .note)
  | .note =>
    some (Timer.setPublication
      { s with lastStatus := if s.completed then s.lastStatus else .ok } k .release)
  | .fail status =>
    some (Timer.setPublication { s with lastStatus := status, completed := true } k .release)
  | .release =>
    some { s with
      asyncInflight := fetchSub s.asyncInflight
      publications := s.publications.eraseIdx k }

def Timer.act (c : TimerConfig) (s : Timer) : TimerOp → Option (Timer × TimerOutcome)
  | .timer => some (if s.callback.isSome then s else s.at .check, .done)
  | .callback a => s.callback.map (s.callbackStep c a)
  | .complete k status =>
    if s.publications[k]? = some .pending then
      if status = .ok then some (s.setPublication k .fire, .succeeded)
      else some (s.setPublication k (.fail status), .failed)
    else none
  | .completion k now =>
    (s.publications[k]?).bind fun pc => (s.completionStep c k now pc).map fun s => (s, .done)
  | .armed now => some ({ s with nextDueMs := addDelay now c.delayMs }, .done)
  | .armFailed rc => some ({ s with lastStatus := rc, completed := true }, .done)

@[simp] def Callback.reserved : Callback → ℕ
  | .recheck | .unreserve | .due | .early | .submit | .rejected _ => 1
  | _ => 0

@[simp] def Timer.reserved (s : Timer) : ℕ :=
  s.callback.elim 0 Callback.reserved

abbrev TimerTrace := List (TimerOp × TimerOutcome)

def successes (tr : TimerTrace) : ℕ :=
  tr.countP fun e => e.2 = .succeeded

def Failed (tr : TimerTrace) : Prop :=
  ∃ e ∈ tr, e.2 = .failed

def Reached (c : TimerConfig) (tr : TimerTrace) : Prop :=
  ∃ b ∈ c.bound, b ≤ successes tr

/-- The invariant. What ends the schedule is on record, or will be put there by the publication or
callback that has the slot. -/
structure Timer.Sound (c : TimerConfig) (tr : TimerTrace) (s : Timer) : Prop where
  inflight : s.asyncInflight = s.publications.length + s.reserved
  le_one : s.asyncInflight ≤ 1
  fired : successes tr = s.runFired + s.publications.count .fire
  bound : ∀ b ∈ c.bound, successes tr ≤ b
  reached : s.completed = false → .fire ∉ s.publications → .finish ∉ s.publications → ¬ Reached c tr
  failed : s.completed = false → (∀ st, .fail st ∉ s.publications) →
    (∀ rc, s.callback ≠ some (.rejected rc)) → s.callback ≠ some .fail → ¬ Failed tr
  pending : .pending ∈ s.publications → ¬ Reached c tr
  ready : s.callback = some .due ∨ s.callback = some .submit → ¬ Reached c tr ∧ ¬ Failed tr

variable {c : TimerConfig} {tr : TimerTrace} {s s' : Timer} {op : TimerOp} {out : TimerOutcome}

@[simp] theorem successes_snoc : successes (tr ++ [(op, out)]) =
    successes tr + if out = .succeeded then 1 else 0 := by
  by_cases h : out = .succeeded <;> simp [successes, h]

theorem failed_snoc : Failed (tr ++ [(op, out)]) ↔ Failed tr ∨ out = .failed := by
  simp [Failed, or_and_right, exists_or]

theorem reached_snoc_of_ne (h : out ≠ .succeeded) :
    Reached c (tr ++ [(op, out)]) ↔ Reached c tr := by
  simp [Reached, h]

section

variable (h : s.Sound c tr)

include h

theorem Timer.Sound.only (hk : s.publications[k]? = some pc) :
    k = 0 ∧ s.publications = [pc] ∧ s.reserved = 0 := by
  have hle := h.inflight ▸ h.le_one
  obtain ⟨hlt, rfl⟩ := List.getElem?_eq_some_iff.mp hk
  obtain ⟨pc, hpc⟩ := length_eq_one_iff.mp (show s.publications.length = 1 by omega)
  have hlen : s.publications.length = 1 := by simp [hpc]
  obtain rfl : k = 0 := by omega
  exact ⟨rfl, by simp [hpc], by omega⟩

theorem Timer.Sound.of_quiet (hout : out ≠ .succeeded)
    (hpublications : s'.publications = s.publications) (hrunFired : s'.runFired = s.runFired)
    (hcompleted : s'.completed = false → s.completed = false)
    (hinflight : s'.asyncInflight = s.publications.length + s'.reserved)
    (hle : s'.asyncInflight ≤ 1)
    (hfailed : s'.completed = false → (∀ rc, s'.callback ≠ some (.rejected rc)) →
      s'.callback ≠ some .fail → out ≠ .failed ∧
        (∀ rc, s.callback ≠ some (.rejected rc)) ∧ s.callback ≠ some .fail)
    (hready : s'.callback = some .due ∨ s'.callback = some .submit →
      ¬ Reached c tr ∧ ¬ Failed (tr ++ [(op, out)])) : s'.Sound c (tr ++ [(op, out)]) where
  inflight := by rw [hpublications, hinflight]
  le_one := hle
  fired := by simp [hout, hpublications, hrunFired, h.fired]
  bound := by simpa [hout] using h.bound
  reached hc hfire hfinish := by
    rw [hpublications] at hfire hfinish
    rw [reached_snoc_of_ne hout]
    exact h.reached (hcompleted hc) hfire hfinish
  failed hc hpubs hrejected hfail := by
    obtain ⟨hne, hrejected', hfail'⟩ := hfailed hc hrejected hfail
    rw [hpublications] at hpubs
    rw [failed_snoc]
    exact not_or.mpr ⟨h.failed (hcompleted hc) hpubs hrejected' hfail', hne⟩
  pending hp := by
    rw [hpublications] at hp
    rw [reached_snoc_of_ne hout]
    exact h.pending hp
  ready hr := by
    rw [reached_snoc_of_ne hout]
    exact hready hr

theorem Timer.Sound.ready_snoc (hready : s.callback = some .due ∨ s.callback = some .submit) :
    ¬ Reached c tr ∧ ¬ Failed (tr ++ [(op, .done)]) := by
  rw [failed_snoc]
  exact ⟨(h.ready hready).1, not_or.mpr ⟨(h.ready hready).2, by simp⟩⟩

theorem Timer.Sound.unreserved (hone : s.reserved = 1) :
    s.publications = [] ∧ s.asyncInflight = 1 := by
  have hinflight := h.inflight
  have hle := h.le_one
  exact ⟨length_eq_zero_iff.mp (by omega), by omega⟩

theorem Timer.Sound.callbackStep (hpc : s.callback = some pc)
    (hact : s.callbackStep c a pc = (s', out)) : s'.Sound c (tr ++ [(op, out)]) := by
  have hinflight := h.inflight
  have hle := h.le_one
  have hready := h.ready
  have hreserved : s.reserved = pc.reserved := by simp [hpc]
  cases pc with
  | check | reserve =>
    cases hact
    refine h.of_quiet (by simp) rfl rfl id ?_ hle (by simp [hpc]) ?_
    all_goals cases s.completed <;> simp_all
  | exchange =>
    by_cases hfree : s.asyncInflight = 0
    · obtain ⟨rfl, rfl⟩ := Prod.mk.inj ((if_pos hfree).symm.trans hact)
      refine h.of_quiet (by simp) rfl rfl id ?_ le_rfl (by simp [hpc]) (by simp)
      simp_all
    obtain ⟨rfl, rfl⟩ := Prod.mk.inj ((if_neg hfree).symm.trans hact)
    refine h.of_quiet (by simp) rfl rfl id ?_ hle (by simp [hpc]) (by simp)
    simp_all
  | recheck =>
    obtain ⟨hnil, hone⟩ := h.unreserved hreserved
    cases hact
    refine h.of_quiet (by simp) rfl rfl id ?_ hle (by simp [hpc]) ?_
    · cases s.completed <;> simp_all
    rcases hc : s.completed
    · intro _
      refine ⟨h.reached hc (by simp [hnil]) (by simp [hnil]), ?_⟩
      rw [failed_snoc]
      exact not_or.mpr ⟨h.failed hc (by simp [hnil]) (by simp [hpc]) (by simp [hpc]), by simp⟩
    · simp
  | unreserve =>
    obtain ⟨hnil, -⟩ := h.unreserved hreserved
    cases hact
    refine h.of_quiet (by simp) rfl rfl id ?_ (Nat.zero_le 1) (by simp [hpc]) (by simp)
    simp [hnil]
  | early =>
    obtain ⟨hnil, -⟩ := h.unreserved hreserved
    rw [Timer.callbackStep] at hact
    split at hact
    all_goals
      cases hact
      refine h.of_quiet (by simp) rfl rfl id ?_ (Nat.zero_le 1) (by simp [hpc]) (by simp)
      simp [hnil]
  | due =>
    obtain ⟨hnil, hone⟩ := h.unreserved hreserved
    cases hact
    refine h.of_quiet (by simp) rfl rfl id ?_ hle (by simp [hpc])
      fun _ => h.ready_snoc (.inl hpc)
    simp only [Timer.at, Timer.reserved]
    split <;> simp [hone, hnil]
  | submit =>
    obtain ⟨hnil, hone⟩ := h.unreserved hreserved
    obtain ⟨hreached, hfailed⟩ := hready (.inr hpc)
    rcases hsub : a.submission with _ | rc
    · obtain ⟨rfl, rfl⟩ : Timer.at { s with asyncInflight := 0 } .fail = s' ∧ .failed = out := by
        simpa [Timer.callbackStep, hsub] using hact
      refine h.of_quiet (by simp) rfl rfl id ?_ (Nat.zero_le 1) (by simp)
        (by simp)
      simp [hnil]
    by_cases hrc : rc = .ok
    · obtain ⟨rfl, rfl⟩ : Timer.at { s with publications := s.publications ++ [.pending] } .done =
          s' ∧ .submitted = out := by
        simpa [Timer.callbackStep, hsub, hrc] using hact
      have hfired := h.fired
      have hbound := h.bound
      constructor
      all_goals simp_all [failed_snoc, reached_snoc_of_ne]
    obtain ⟨rfl, rfl⟩ : s.at (.rejected rc) = s' ∧ .failed = out := by
      simpa [Timer.callbackStep, hsub, hrc] using hact
    refine h.of_quiet (by simp) rfl rfl id ?_ hle (by simp) (by simp)
    simp_all
  | rejected rc =>
    obtain ⟨hnil, hone⟩ := h.unreserved hreserved
    cases hact
    refine h.of_quiet (by simp) rfl rfl id ?_ ?_ (by simp) (by simp)
    all_goals simp [fetchSub, hone, hnil]
  | fail | done =>
    cases hact
    refine h.of_quiet (by simp) rfl rfl ?_ ?_ hle ?_ (by simp)
    all_goals simp_all

omit h in
theorem reached_iff (hpos : 0 < successes tr) : Reached c tr ↔
    c.mode = .oneShot ∨ 0 < c.repeatLimit ∧ c.repeatLimit ≤ successes tr := by
  rw [Reached, TimerConfig.bound]
  split
  · simp_all [Nat.one_le_iff_ne_zero, Nat.pos_iff_ne_zero]
  · split <;> simp_all

/-- A step that is done with nothing to report leaves the trace as it was. -/
theorem Timer.Sound.done : s.Sound c (tr ++ [(op, .done)]) := by
  have hsuccesses : successes (tr ++ [(op, .done)]) = successes tr := by simp
  have hfailed : Failed (tr ++ [(op, .done)]) ↔ Failed tr := by simp [failed_snoc]
  cases h
  constructor
  all_goals simpa only [Reached, hsuccesses, hfailed]

theorem Timer.Sound.completionStep (hk : s.publications[k]? = some pc)
    (hact : s.completionStep c k now pc = some s') : s'.Sound c tr := by
  obtain ⟨rfl, hpubs, hreserved⟩ := h.only hk
  have hidle : s.callback ≠ some .due ∧ s.callback ≠ some .submit ∧
      ∀ rc, s.callback ≠ some (.rejected rc) := by
    refine ⟨?_, ?_, fun rc => ?_⟩ <;> rintro heq <;> simp [heq] at hreserved
  obtain ⟨hinflight, hle, hfired, hbound, hreached, hfailed, -, -⟩ := h
  simp only [hpubs] at hinflight hfired hreached hfailed
  cases pc with
  | pending => cases hact
  | fire =>
    obtain ⟨pc, hpc, rfl⟩ : ∃ pc, pc = (if c.mode = .oneShot ∨ 0 < c.repeatLimit ∧
        c.repeatLimit ≤ s.runFired + 1 then .finish else .rearm) ∧
        Timer.setPublication { s with fired := s.fired + 1, runFired := s.runFired + 1 } 0 pc =
          s' :=
      ⟨_, rfl, some.inj hact⟩
    have hreached_iff : 0 < successes tr → _ := reached_iff (c := c)
    split at hpc
    all_goals constructor
    all_goals simp_all [Timer.setPublication]
  | finish | rearm | note | fail | release =>
    cases hact
    constructor
    all_goals simp_all [Timer.setPublication, fetchSub]

theorem Timer.Sound.complete (hact : s.act c (.complete k status) = some (s', out)) :
    s'.Sound c (tr ++ [(.complete k status, out)]) := by
  rw [Timer.act] at hact
  split at hact
  · rename_i hk
    obtain ⟨rfl, hpubs, hreserved⟩ := h.only hk
    have hidle : s.callback ≠ some .due ∧ s.callback ≠ some .submit := by
      refine ⟨?_, ?_⟩ <;> rintro heq <;> simp [heq] at hreserved
    have hbelow : ∀ b ∈ c.bound, successes tr + 1 ≤ b := by
      intro b hb
      by_contra hle
      exact h.pending (by simp [hpubs]) ⟨b, hb, by omega⟩
    obtain ⟨hinflight, hle, hfired, hbound, hreached, hfailed, hpending, hready⟩ := h
    split at hact
    all_goals
      cases hact
      constructor
    all_goals simp_all [Timer.setPublication, failed_snoc, reached_snoc_of_ne]
  · cases hact

theorem Timer.Sound.act (hact : s.act c op = some (s', out)) : s'.Sound c (tr ++ [(op, out)]) := by
  cases op with
  | timer =>
    cases hact
    rcases hcallback : s.callback with _ | pc
    · refine h.of_quiet (by simp) rfl rfl id ?_ h.le_one (by simp [hcallback]) (by simp)
      simpa [hcallback] using h.inflight
    exact h.of_quiet (by simp) rfl rfl id h.inflight h.le_one (fun _ hr hf => ⟨by simp, hr, hf⟩)
      h.ready_snoc
  | callback a =>
    obtain ⟨pc, hpc, hstep⟩ := map_eq_some_iff.mp hact
    exact h.callbackStep hpc hstep
  | complete k status => exact h.complete hact
  | completion k now =>
    obtain ⟨pc, hk, hact⟩ := bind_eq_some_iff.mp hact
    obtain ⟨t, hstep, heq⟩ := map_eq_some_iff.mp hact
    cases heq
    exact (h.completionStep hk hstep).done
  | armed now =>
    cases hact
    exact h.of_quiet (by simp) rfl rfl id h.inflight h.le_one (fun _ hr hf => ⟨by simp, hr, hf⟩)
      h.ready_snoc
  | armFailed rc =>
    cases hact
    exact h.of_quiet (by simp) rfl rfl (by simp) h.inflight h.le_one (by simp) h.ready_snoc

end

theorem TimerConfig.bound_pos (h : b ∈ c.bound) : 0 < b := by
  unfold bound at h
  split at h
  · cases h
    exact Nat.one_pos
  · split at h <;> simp_all

theorem Timer.sound_start (c : TimerConfig) : Timer.start.Sound c [] := by
  have hreached : ¬ Reached c [] := fun ⟨b, hb, hle⟩ =>
    Nat.not_lt.mpr hle (TimerConfig.bound_pos hb)
  constructor
  case reached => exact fun _ _ _ => hreached
  case bound => exact fun _ _ => Nat.zero_le _
  case failed => simp [Failed]
  all_goals simp [Timer.start, successes]

theorem Timer.callbackStep_done (hne : pc ≠ .submit) : (s.callbackStep c a pc).2 = .done := by
  cases pc with
  | submit => exact absurd rfl hne
  | exchange | early =>
    rw [callbackStep]
    split <;> rfl
  | _ => rfl

theorem Timer.submits_ready (hact : s.act c op = some (s', .submitted)) :
    s.callback = some .submit := by
  cases op with
  | callback a =>
    obtain ⟨pc, hpc, hstep⟩ := map_eq_some_iff.mp hact
    by_contra hne
    have hdone := s.callbackStep_done (c := c) (a := a) fun heq => hne (heq ▸ hpc)
    simp [hstep] at hdone
  | complete k status =>
    rw [Timer.act] at hact
    split at hact
    · split at hact <;> cases hact
    · cases hact
  | completion k now =>
    obtain ⟨pc, -, hact⟩ := bind_eq_some_iff.mp hact
    obtain ⟨t, -, heq⟩ := map_eq_some_iff.mp hact
    cases heq
  | timer | armed | armFailed => cases hact

/-- In every interleaving within one start at most one publication is in flight, `async_inflight`
counts it and the reservation of the callback, the limit is kept, and nothing is submitted after a
failure. -/
theorem timer_publishes_within_bound (h : Run (Acts (Timer.act c)) Timer.start tr s) :
    s.publications.length ≤ 1 ∧ s.asyncInflight ≤ 1 ∧
      s.asyncInflight = s.publications.length + s.reserved ∧
      (∀ b ∈ c.bound, successes tr ≤ b) ∧
      (Failed tr → ∀ op s', s.act c op ≠ some (s', .submitted)) := by
  have hs : s.Sound c tr := h.invariant_trace (Timer.sound_start c) fun _ _ _ _ ht hact =>
    ht.act hact
  refine ⟨?_, hs.le_one, hs.inflight, hs.bound, fun hfailed op s' hact => ?_⟩
  · exact Nat.le_trans (Nat.le_add_right _ _) (hs.inflight ▸ hs.le_one)
  · exact (hs.ready (.inr (Timer.submits_ready hact))).2 hfailed

/-- A one-shot schedule is armed for the time 5. Its callback at 3 restarts the timer, the one at 5
submits the publication, which succeeds. -/
def earlyThenDue : List TimerOp :=
  [.armed 0, .timer] ++ replicate 7 (.callback ⟨3, true, some .ok⟩) ++
    .timer :: replicate 7 (.callback ⟨5, true, some .ok⟩) ++ [.complete 0 .ok]

theorem timer_publishes_within_bound_once : ∃ s outs,
    exec (Timer.act ⟨.oneShot, 0, 5⟩) Timer.start earlyThenDue = some (s, outs) ∧
      outs.count .submitted = 1 ∧ s.publications.length ≤ 1 := by
  exact ⟨_, _, and_of_imp rfl fun hexec => ⟨rfl,
    (timer_publishes_within_bound (run_of_exec hexec)).1⟩⟩

end TurboFlow.Schedule
