import TurboFlow.Lib.Run
import TurboFlow.Status
import Mathlib.Data.List.Sort
import Mathlib.Order.Bounds.Basic

/-!
# The cron schedule

An advance to a later minute publishes the matching minutes since the last advance, oldest first, up
to the catch-up limit, and drops the rest. The cursor is zero before the first advance, so the
minute zero of the epoch cannot be told from no advance.
-/

namespace TurboFlow.Schedule

open Transition List

/-- `flow_schedule_floor_minute`; the remainder of a negative time is negative in C. No subtraction
leaves `time_t` where the minute before is one, see `Advance.InTime`. -/
def floorMinute (value : ℤ) : ℤ :=
  let remainder := value.tmod 60
  value - if remainder < 0 then remainder + 60 else remainder

theorem sixty_dvd_floorMinute (value : ℤ) : 60 ∣ floorMinute value := by
  have h := Int.mul_tdiv_add_tmod value 60
  unfold floorMinute
  dsimp only
  split <;> omega

/-- The fields of `turbo_flow_schedule_s` that a manual cron schedule uses. -/
structure Cron where
  catchUpLimit : ℕ
  cronCursorMinute : ℤ
  started : Bool
  fired : ℕ
  catchUpTruncations : ℕ
  lastStatus : Status

/-- The part of `flow_schedule_start` for a manual clock. -/
def Cron.start (s : Cron) : Cron :=
  { s with cronCursorMinute := 0, started := true, lastStatus := .ok }

/-- A call of `turbo_flow_schedule_advance`, with what the flow answers to a publication. -/
structure Advance where
  now : ℤ
  publish : ℤ → Status

structure Advanced where
  result : Except Status ℕ
  published : List ℤ

def publishSync (publish : ℤ → Status) (s : Cron) (scheduledAt : ℤ) : Status × Cron :=
  if s.started then
    let rc := publish scheduledAt
    (rc, { s with lastStatus := rc, fired := if rc = .ok then s.fired + 1 else s.fired })
  else (.eshutdown, s)

section

variable (next : ℤ → Option ℤ)

/-- The emission loop, with the number of emissions that are left; it ends with the truncation
flag or an error. -/
def emit (publish : ℤ → Status) (currentMinute : ℤ) :
    ℕ → ℤ → Cron → Cron × List ℤ × Except Status Bool
  | left, check, s =>
    match next check with
    | none => ({ s with lastStatus := .einval }, [], .error .einval)
    | some nextFire =>
      if currentMinute < nextFire then (s, [], .ok false)
      else
        match left with
        | 0 => (s, [], .ok true)
        | left + 1 =>
          match publishSync publish s nextFire with
          | (.ok, s) =>
            let (s, fires, rc) := emit publish currentMinute left nextFire s
            (s, nextFire :: fires, rc)
          | (rc, s) => (s, [], .error rc)

def advanceCron (s : Cron) (op : Advance) : Cron × Advanced :=
  let currentMinute := floorMinute op.now
  if s.cronCursorMinute ≠ 0 ∧ currentMinute ≤ s.cronCursorMinute then (s, ⟨.ok 0, []⟩)
  else
    let check := if s.cronCursorMinute = 0 then currentMinute - 60 else s.cronCursorMinute
    let s := { s with cronCursorMinute := currentMinute }
    match emit next op.publish currentMinute (s.catchUpLimit + 1) check s with
    | (s, fires, .error rc) => (s, ⟨.error rc, fires⟩)
    | (s, fires, .ok truncated) =>
      ({ s with catchUpTruncations := s.catchUpTruncations + truncated.toNat },
        ⟨.ok fires.length, fires⟩)

/-- `turbo_flow_schedule_advance` of a manual schedule. -/
def advance (s : Cron) (op : Advance) : Option (Cron × Advanced) :=
  some (if s.started then advanceCron next s op else (s, ⟨.error .einval, []⟩))

end

/-- `salts_cron_next` gives the least matching minute after a time. -/
structure NextOf (matching : ℤ → Bool) (next : ℤ → Option ℤ) : Prop where
  minute : ∀ {u}, matching u → 60 ∣ u
  least : ∀ t, ∃ m, next t = some m ∧ IsLeast {u | t < u ∧ matching u} m

section

variable (matching : ℤ → Bool)

/-- The matching times after `a` up to `b`, in increasing order. -/
def due (a b : ℤ) : List ℤ :=
  ((range (b - a).toNat).map fun i : ℕ => a + 1 + i).filter matching

variable {matching}

theorem mem_due : u ∈ due matching a b ↔ (a < u ∧ u ≤ b) ∧ matching u := by
  simp only [due, mem_filter, mem_map, mem_range]
  refine and_congr_left fun _ => ⟨?_, fun hu => ⟨(u - a - 1).toNat, by omega, by omega⟩⟩
  rintro ⟨i, hi, rfl⟩
  omega

theorem pairwise_due : (due matching a b).Pairwise (· < ·) := by
  refine .filter _ (pairwise_map.mpr ?_)
  exact pairwise_lt_range.imp fun hlt => by omega

theorem due_eq_nil (h : ∀ u, a < u → matching u → b < u) : due matching a b = [] := by
  rw [eq_nil_iff_forall_not_mem]
  intro u hu
  obtain ⟨⟨hlt, hle⟩, hmatch⟩ := mem_due.mp hu
  exact absurd (h u hlt hmatch) (not_lt.mpr hle)

theorem due_eq_nil_of_lt (hleast : IsLeast {u | a < u ∧ matching u} m) (hlt : b < m) :
    due matching a b = [] :=
  due_eq_nil fun _ hu hu' => lt_of_lt_of_le hlt (hleast.2 ⟨hu, hu'⟩)

theorem due_eq_cons (hleast : IsLeast {u | a < u ∧ matching u} m) (hle : m ≤ b) :
    due matching a b = m :: due matching m b := by
  obtain ⟨⟨hlt, hmatch⟩, hmin⟩ := hleast
  have hsorted : (m :: due matching m b).Pairwise (· < ·) :=
    .cons (fun u hu => (mem_due.mp hu).1.1) pairwise_due
  refine pairwise_due.eq_of_mem_iff hsorted fun u => ?_
  rw [mem_cons, mem_due, mem_due]
  constructor
  · rintro ⟨⟨hu, hub⟩, hu'⟩
    rcases (hmin ⟨hu, hu'⟩).eq_or_lt with heq | hmu
    · exact .inl heq.symm
    · exact .inr ⟨⟨hmu, hub⟩, hu'⟩
  rintro (rfl | ⟨⟨hu, hub⟩, hu'⟩)
  · exact ⟨⟨hlt, hle⟩, hmatch⟩
  · exact ⟨⟨hlt.trans hu, hub⟩, hu'⟩

end

variable {matching : ℤ → Bool} {next : ℤ → Option ℤ} {s s' : Cron} {op : Advance} {out : Advanced}

def Advance.Succeeds (op : Advance) : Prop :=
  ∀ t, op.publish t = .ok

section

variable (hnext : NextOf matching next)

include hnext

theorem emit_eq (hok : ∀ t, publish t = .ok) (b : ℤ) (left : ℕ) (check : ℤ) (hs : s.started) :
    ∃ fired lastStatus, emit next publish b left check s =
      ({ s with fired, lastStatus }, (due matching check b).take left,
        .ok (decide (left < (due matching check b).length))) := by
  induction left generalizing check s with
  | zero =>
    obtain ⟨m, hm, hleast⟩ := hnext.least check
    by_cases hlt : b < m
    · have hnil := due_eq_nil_of_lt hleast hlt
      exact ⟨s.fired, s.lastStatus, by simp [emit, hm, hlt, hnil]⟩
    have hcons := due_eq_cons hleast (not_lt.mp hlt)
    exact ⟨s.fired, s.lastStatus, by simp [emit, hm, hlt, hcons]⟩
  | succ left ih =>
    obtain ⟨m, hm, hleast⟩ := hnext.least check
    by_cases hlt : b < m
    · have hnil := due_eq_nil_of_lt hleast hlt
      exact ⟨s.fired, s.lastStatus, by simp [emit, hm, hlt, hnil]⟩
    have hcons := due_eq_cons hleast (not_lt.mp hlt)
    have hpublish : publishSync publish s m =
        (.ok, { s with lastStatus := .ok, fired := s.fired + 1 }) := by
      simp [publishSync, hs, hok]
    obtain ⟨fired, lastStatus, heq⟩ :=
      ih (s := { s with lastStatus := .ok, fired := s.fired + 1 }) m hs
    refine ⟨fired, lastStatus, ?_⟩
    rw [emit]
    simp [hm, hlt, hpublish, heq, hcons]

theorem advanceCron_eq (hs : s.started) (hop : op.Succeeds) (check : ℤ)
    (hgo : ¬ (s.cronCursorMinute ≠ 0 ∧ floorMinute op.now ≤ s.cronCursorMinute))
    (hcheck : check = if s.cronCursorMinute = 0 then floorMinute op.now - 60
      else s.cronCursorMinute) :
    ∃ fired lastStatus, advanceCron next s op =
      ({ s with
          cronCursorMinute := floorMinute op.now
          catchUpTruncations := s.catchUpTruncations +
            if s.catchUpLimit + 1 < (due matching check (floorMinute op.now)).length then 1 else 0
          fired
          lastStatus },
        ⟨.ok (min (due matching check (floorMinute op.now)).length (s.catchUpLimit + 1)),
          (due matching check (floorMinute op.now)).take (s.catchUpLimit + 1)⟩) := by
  obtain ⟨fired, lastStatus, heq⟩ := emit_eq hnext hop (floorMinute op.now) (s.catchUpLimit + 1)
    check (s := { s with cronCursorMinute := floorMinute op.now }) hs
  refine ⟨fired, lastStatus, ?_⟩
  rw [advanceCron]
  dsimp only
  rw [if_neg hgo, ← hcheck, heq]
  simp only [length_take, min_comm, Prod.mk.injEq, and_true, Cron.mk.injEq, true_and]
  split <;> simp_all

end

def reached (tr : List (Advance × Advanced)) : Option ℤ :=
  tr.foldl (fun r e => some (r.elim (floorMinute e.1.now) (max (floorMinute e.1.now)))) none

theorem reached_snoc (tr : List (Advance × Advanced)) :
    reached (tr ++ [(op, out)]) =
      some ((reached tr).elim (floorMinute op.now) (max (floorMinute op.now))) := by
  simp [reached]

/-- What an advance to the minute `m` does when the latest minute so far is `r`. -/
def Publishes (matching : ℤ → Bool) (s : Cron) (m : ℤ) (s' : Cron) (out : Advanced) :
    Option ℤ → Prop
  | none => out = ⟨.ok (if matching m then 1 else 0), if matching m then [m] else []⟩ ∧
      s'.catchUpTruncations = s.catchUpTruncations
  | some r =>
    if m ≤ r then out = ⟨.ok 0, []⟩ ∧ s'.catchUpTruncations = s.catchUpTruncations
    else
      out = ⟨.ok (min (due matching r m).length (1 + s.catchUpLimit)),
        (due matching r m).take (1 + s.catchUpLimit)⟩ ∧
      s'.catchUpTruncations = s.catchUpTruncations +
        if 1 + s.catchUpLimit < (due matching r m).length then 1 else 0

/-- The time and the minute before its own are values of `time_t`, which has 64 bits. -/
def Advance.InTime (op : Advance) : Prop :=
  -2 ^ 63 ≤ floorMinute op.now - 60 ∧ op.now < 2 ^ 63

def Advance.Regular (op : Advance) : Prop :=
  floorMinute op.now ≠ 0 ∧ op.InTime ∧ op.Succeeds

structure Tracks (limit : ℕ) (tr : List (Advance × Advanced)) (s : Cron) : Prop where
  started : s.started
  limit : s.catchUpLimit = limit
  cursor : s.cronCursorMinute = (reached tr).getD 0
  nonzero : reached tr ≠ some 0
  sorted : (tr.flatMap fun e => e.2.published).Pairwise (· < ·)
  below : ∀ u ∈ tr.flatMap fun e => e.2.published, ∃ r, reached tr = some r ∧ u ≤ r

theorem due_minute (hnext : NextOf matching next) (hm : 60 ∣ m) :
    due matching (m - 60) m = if matching m then [m] else [] := by
  have hmin : ∀ v, m - 60 < v → matching v → m ≤ v := by
    intro v hv hmatch
    have hdvd := hnext.minute hmatch
    omega
  by_cases hmatch : matching m
  · have hself : IsLeast {u | m - 60 < u ∧ matching u} m :=
      ⟨⟨by omega, hmatch⟩, fun v hv => hmin v hv.1 hv.2⟩
    rw [if_pos hmatch, due_eq_cons hself le_rfl]
    exact congrArg _ (due_eq_nil fun v hv _ => hv)
  rw [if_neg hmatch]
  refine due_eq_nil fun v hv hv' => lt_of_le_of_ne (hmin v hv hv') ?_
  rintro rfl
  exact hmatch hv'

theorem Tracks.publishes {limit : ℕ} {tr : List (Advance × Advanced)} (hnext : NextOf matching next)
    (h : Tracks limit tr s) (hop : op.Regular) (hact : advance next s op = some (s', out)) :
    Publishes matching s (floorMinute op.now) s' out (reached tr) ∧ s'.started ∧
      s'.catchUpLimit = limit ∧
      s'.cronCursorMinute = (reached tr).elim (floorMinute op.now) (max (floorMinute op.now)) := by
  have hact : advanceCron next s op = (s', out) := by simpa [advance, h.started] using hact
  have hcursor := h.cursor
  rcases hreached : reached tr with _ | r
  · have hzero : s.cronCursorMinute = 0 := by simpa [hreached] using hcursor
    obtain ⟨fired, lastStatus, heq⟩ := advanceCron_eq hnext h.started hop.2.2
      (floorMinute op.now - 60) (by simp [hzero]) (by simp [hzero])
    rw [due_minute hnext (sixty_dvd_floorMinute op.now)] at heq
    obtain ⟨rfl, rfl⟩ := Prod.mk.inj (hact.symm.trans heq)
    refine ⟨?_, h.started, h.limit, rfl⟩
    by_cases hmatch : matching (floorMinute op.now) <;> simp [Publishes, hmatch]
  have hr : s.cronCursorMinute = r := by simpa [hreached] using hcursor
  have hne : r ≠ 0 := fun heq => h.nonzero (heq ▸ hreached)
  by_cases hle : floorMinute op.now ≤ r
  · obtain ⟨rfl, rfl⟩ : s = s' ∧ (⟨.ok 0, []⟩ : Advanced) = out := by
      simpa [advanceCron, hr, hne, hle] using hact
    exact ⟨by simp [Publishes, hle], h.started, h.limit, by simp [hr, hle]⟩
  obtain ⟨fired, lastStatus, heq⟩ := advanceCron_eq hnext h.started hop.2.2 r
    (by simp [hr, hle]) (by simp [hr, hne])
  obtain ⟨rfl, rfl⟩ := Prod.mk.inj (hact.symm.trans heq)
  refine ⟨by simp [Publishes, hle, Nat.add_comm], h.started, h.limit, ?_⟩
  exact (max_eq_left (le_of_not_ge hle)).symm

theorem Publishes.bounds (h : Publishes matching s m s' out r) :
    out.published.Pairwise (· < ·) ∧
      ∀ u ∈ out.published, u ≤ m ∧ ∀ v, r = some v → v < u := by
  rcases r with _ | r
  · obtain ⟨rfl, -⟩ := h
    by_cases hmatch : matching m <;> simp [hmatch]
  rw [Publishes] at h
  split at h
  · obtain ⟨rfl, -⟩ := h
    simp
  obtain ⟨rfl, -⟩ := h
  refine ⟨pairwise_due.sublist (take_sublist _ _), fun u hu => ?_⟩
  obtain ⟨⟨hlt, hle⟩, -⟩ := mem_due.mp (mem_of_mem_take hu)
  exact ⟨hle, fun v hv => Option.some.inj hv ▸ hlt⟩

theorem Tracks.step {limit : ℕ} {tr : List (Advance × Advanced)} (hnext : NextOf matching next)
    (h : Tracks limit tr s) (hop : op.Regular) (hact : advance next s op = some (s', out)) :
    Tracks limit (tr ++ [(op, out)]) s' := by
  obtain ⟨hpub, hstarted, hlimit, hcursor⟩ := h.publishes hnext hop hact
  obtain ⟨hsorted, hbounds⟩ := hpub.bounds
  constructor
  case started => exact hstarted
  case limit => exact hlimit
  case cursor => rw [reached_snoc, hcursor, Option.getD_some]
  case nonzero =>
    have hne := hop.1
    rw [reached_snoc]
    rcases hreached : reached tr with _ | r
    · simpa using hne
    have hr : r ≠ 0 := fun heq => h.nonzero (heq ▸ hreached)
    simp only [Option.elim_some, ne_eq, Option.some.injEq]
    omega
  case sorted =>
    rw [flatMap_append, flatMap_singleton, pairwise_append]
    refine ⟨h.sorted, hsorted, fun u hu v hv => ?_⟩
    obtain ⟨r, hr, hle⟩ := h.below u hu
    exact lt_of_le_of_lt hle ((hbounds v hv).2 r hr)
  case below =>
    intro u hu
    refine ⟨_, reached_snoc tr, ?_⟩
    rw [flatMap_append, flatMap_singleton, mem_append] at hu
    rcases hu with hu | hu
    · obtain ⟨r, hr, hle⟩ := h.below u hu
      rw [hr]
      exact hle.trans (le_max_right _ _)
    have hle := (hbounds u hu).1
    rcases reached tr with _ | r
    · exact hle
    · exact hle.trans (le_max_left _ _)

/-- Where no advance comes to the minute zero or leaves `time_t` and all publications succeed, the
published minutes increase, and every advance publishes what its minute and the latest so far ask
for. -/
theorem cron_publishes_due (hnext : NextOf matching next) {s₀ : Cron}
    {tr : List (Advance × Advanced)}
    (h : Run (Meeting (Acts (advance next)) fun _ e => e.1.Regular) s₀.start tr s) :
    (tr.flatMap fun e => e.2.published).Pairwise (· < ·) ∧
      ∀ op : Advance, op.Regular → ∃ s' out, advance next s op = some (s', out) ∧
        Publishes matching s (floorMinute op.now) s' out (reached tr) := by
  have htracks : Tracks s₀.catchUpLimit tr s :=
    h.invariant_trace ⟨rfl, rfl, rfl, by simp [reached], .nil, by simp⟩
      fun _ _ _ _ ht hstep => ht.step hnext hstep.2 hstep.1
  refine ⟨htracks.sorted, fun op hop => ⟨_, _, rfl, ?_⟩⟩
  exact (htracks.publishes hnext hop rfl).1

def everyMinute (u : ℤ) : Bool :=
  60 ∣ u

def nextMinute (t : ℤ) : Option ℤ :=
  some ((t / 60 + 1) * 60)

theorem nextOf_everyMinute : NextOf everyMinute nextMinute where
  minute hu := by simpa [everyMinute] using hu
  least t := by
    refine ⟨_, rfl, ⟨by omega, by simp [everyMinute]⟩, fun u hu => ?_⟩
    obtain ⟨hlt, hdvd⟩ : t < u ∧ 60 ∣ u := by simpa [everyMinute] using hu
    omega

def registered : Cron :=
  { catchUpLimit := 1, cronCursorMinute := 0, started := false, fired := 0,
    catchUpTruncations := 0, lastStatus := .ok }

theorem cron_repeats_zero : NextOf everyMinute nextMinute ∧
    ∃ s outs, exec (advance nextMinute) registered.start [⟨0, fun _ => .ok⟩, ⟨30, fun _ => .ok⟩] =
      some (s, outs) ∧ (outs.flatMap fun out => out.published) = [0, 0] :=
  ⟨nextOf_everyMinute, _, _, rfl, rfl⟩

/-- After an advance to minute 1 one to minute 4 publishes the minutes 2 and 3 and is truncated. -/
theorem cron_publishes_due_truncated : ∃ s s' outs,
    exec (advance nextMinute) registered.start [⟨61, fun _ => .ok⟩] = some (s, outs) ∧
      Publishes everyMinute s 240 s' ⟨.ok 2, [120, 180]⟩ (some 60) := by
  have hrun : Run (Meeting (Acts (advance nextMinute)) fun _ e => e.1.Regular) registered.start
      [(⟨61, fun _ => .ok⟩, ⟨.ok 1, [60]⟩)] _ :=
    Run.single_iff.mpr ⟨rfl, by decide, ⟨by decide, by decide⟩, fun _ => rfl⟩
  obtain ⟨s', out, hact, hpub⟩ := (cron_publishes_due nextOf_everyMinute hrun).2
    ⟨245, fun _ => .ok⟩ ⟨by decide, ⟨by decide, by decide⟩, fun _ => rfl⟩
  cases hact
  exact ⟨_, _, _, rfl, hpub⟩

end TurboFlow.Schedule
