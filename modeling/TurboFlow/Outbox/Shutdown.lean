import TurboFlow.Outbox.Source

/-!
# Settlement before and after a stop

A stop turns every slot over to the requeue, but only behind the cancel of the fetch and of the
runs. Where these succeed, no other call is made for a held token. A poll comes to a settlement
whenever it comes to its loop and no snapshot fails in front of the first due slot; a source that
waits for new records does not before it is woken.
-/

namespace TurboFlow.Outbox

open Transition List Option

variable {c : Config} {s s' : Source} {a : SettleAnswers}

theorem firstDue_some {slots : List Slot} {k i : ℕ} {r : Except Status Slot}
    (h : firstDue c a slots k = some (i, r)) :
    k ≤ i ∧ (∃ slot, slots[i - k]? = some slot ∧ slot.inspect c a i = some r) ∧
      ∀ j slot, k + j < i → slots[j]? = some slot → slot.inspect c a (k + j) = none := by
  induction slots generalizing k with
  | nil => cases h
  | cons slot slots ih =>
    rw [firstDue] at h
    split at h
    · rename_i hnone
      obtain ⟨hle, ⟨found, hget, hinspect⟩, hbefore⟩ := ih h
      refine ⟨by omega, ⟨found, ?_, hinspect⟩, fun j other hj hother => ?_⟩
      · rwa [show i - k = i - (k + 1) + 1 by omega, getElem?_cons_succ]
      rcases j with _ | j
      · cases hother
        exact hnone
      rw [show k + (j + 1) = k + 1 + j by omega] at hj ⊢
      exact hbefore j other hj (by simpa using hother)
    rename_i result hsome
    cases h
    exact ⟨le_rfl, ⟨slot, by simp, hsome⟩, fun j _ hj => absurd hj (by omega)⟩

theorem firstDue_none {slots : List Slot} {k : ℕ}
    (h : firstDue c a slots k = none) {j : ℕ} {slot : Slot} (hj : slots[j]? = some slot) :
    slot.inspect c a (k + j) = none := by
  induction slots generalizing k j with
  | nil => simp at hj
  | cons first slots ih =>
    rw [firstDue] at h
    split at h
    · rename_i hnone
      rcases j with _ | j
      · cases hj
        exact hnone
      rw [show k + (j + 1) = k + 1 + j by omega]
      exact ih h (by simpa using hj)
    · cases h

def Halted (s : Source) : Prop :=
  ∀ slot ∈ s.slots, slot.phase = .empty ∨ slot.phase = .requeuePending

structure Requeues (s : Source) (events : List Event) : Prop where
  halted : Halted s
  state : s.state ≠ .running ∧ s.state ≠ .waiting
  events : ∀ e ∈ events, ∃ token rc, e = .requeue token rc

theorem Halted.setSlot (h : Halted s) (index : ℕ) {slot : Slot}
    (hslot : slot.phase = .empty ∨ slot.phase = .requeuePending) :
    Halted (s.setSlot index slot) := by
  intro other hother
  rcases mem_or_eq_of_mem_set hother with hmem | rfl
  · exact h other hmem
  · exact hslot

theorem requeues_settleOne (a : SettleAnswers) (h : Halted s)
    (hstate : s.state ≠ .running ∧ s.state ≠ .waiting) :
    Requeues (settleOne c a s).source (settleOne c a s).events := by
  rcases hdue : firstDue c a s.slots 0 with _ | ⟨i, result⟩
  · simpa [settleOne, hdue] using (⟨h, hstate, by simp⟩ : Requeues s [])
  obtain ⟨-, ⟨slot, hget, hinspect⟩, -⟩ := firstDue_some hdue
  rcases h slot (mem_of_getElem? hget) with hphase | hphase
  · simp [Slot.inspect, hphase] at hinspect
  obtain rfl : .ok slot = result := by simpa [Slot.inspect, hphase] using hinspect
  have hzero := @Halted.setSlot s h i .zero (.inl rfl)
  have hkept := h.setSlot i (.inr hphase)
  by_cases hrc : a.settlement = .ok
  · rcases hfailure : slot.sourceFailure with _ | f
    all_goals simp only [settleOne, hdue, Source.settleSlot, hphase, hrc, hfailure, if_true,
      elim_none, elim_some]
    · split
      all_goals exact ⟨hzero, by simpa [Source.release, Source.clear, Source.setSlot] using hstate,
        by simp⟩
    · exact ⟨hzero, by simp, by simp⟩
  simp only [settleOne, hdue, Source.settleSlot, hphase, hrc, if_false]
  exact ⟨hkept, by simpa [Source.setSlot] using hstate, by simp⟩

theorem requeues_pollLoop (answers : List StepAnswers) (h : Halted s)
    (hstate : s.state ≠ .running ∧ s.state ≠ .waiting) :
    Requeues (pollLoop c answers s).source (pollLoop c answers s).events := by
  induction answers generalizing s with
  | nil => exact ⟨h, hstate, by simp [pollLoop]⟩
  | cons a rest ih =>
    have hsettled := requeues_settleOne (c := c) a.settle h hstate
    have hlater := ih hsettled.halted hsettled.state
    rw [pollLoop]
    dsimp only
    split
    · exact hsettled
    split
    · exact hsettled
    simp only [hsettled.state.1, and_false, if_false, append_nil]
    split
    · exact hsettled
    · exact ⟨hlater.halted, hlater.state, forall_mem_append.mpr ⟨hsettled.events, hlater.events⟩⟩

theorem requeues_drain {answers : List SettleAnswers} {r : Reply} (h : Halted s)
    (hstate : s.state ≠ .running ∧ s.state ≠ .waiting) (hdrain : drain c s answers = some r) :
    Requeues r.source r.events := by
  induction answers generalizing s r with
  | nil =>
    rw [drain] at hdrain
    split at hdrain
    · cases hdrain
      exact ⟨h, by simp [Source.clear], by simp⟩
    · cases hdrain
  | cons a rest ih =>
    have hsettled := requeues_settleOne (c := c) a h hstate
    rw [drain] at hdrain
    dsimp only at hdrain
    split at hdrain
    · cases hdrain
    split at hdrain
    · cases hdrain
      exact hsettled
    split at hdrain
    · cases hdrain
      exact ⟨hsettled.halted, hsettled.state, hsettled.events⟩
    obtain ⟨later, hlater, rfl⟩ := map_eq_some_iff.mp hdrain
    have hrest := ih hsettled.halted hsettled.state hlater
    exact ⟨hrest.halted, hrest.state, forall_mem_append.mpr ⟨hsettled.events, hrest.events⟩⟩

theorem cancelSlots_halted {cancel : ℕ → Status} {slots : List Slot} {k : ℕ}
    (h : ∀ i slot, slots[i]? = some slot → slot.phase = .graphRunning →
      cancel (k + i) = .ok ∨ cancel (k + i) = .ealready) :
    (cancelSlots cancel slots k).2 = .ok ∧ ∀ slot ∈ (cancelSlots cancel slots k).1,
      slot.phase = .empty ∨ slot.phase = .requeuePending := by
  induction slots generalizing k with
  | nil => simp [cancelSlots]
  | cons first slots ih =>
    obtain ⟨hrc, hslots⟩ := @ih (k + 1) fun i slot hi hphase => by
      have := h (i + 1) slot (by simpa using hi) hphase
      rwa [show k + 1 + i = k + (i + 1) by omega]
    have hfirst : ¬ (first.phase = .graphRunning ∧ cancel k ≠ .ok ∧ cancel k ≠ .ealready) :=
      fun ⟨hphase, hok, halready⟩ => (h 0 first rfl hphase).elim hok halready
    rw [cancelSlots, if_neg hfirst]
    refine ⟨hrc, fun slot hslot => ?_⟩
    dsimp only at hslot
    split at hslot
    · rename_i hempty
      rcases mem_cons.mp hslot with rfl | hmem
      · exact .inl hempty
      · exact hslots slot hmem
    rcases mem_cons.mp hslot with rfl | hmem
    · exact .inr rfl
    · exact hslots slot hmem

def CleanStop (s : Source) : Operation → Prop
  | .stop a => a.cancelFetch = .ok ∧ ∀ i slot, s.slots[i]? = some slot →
      slot.phase = .graphRunning → a.cancel i = .ok ∨ a.cancel i = .ealready
  | _ => True

/-- A source in shutdown has nothing left but requeues. -/
def Settling (s : Source) : Prop :=
  s.state = .stopping ∨ s.state = .stopped → Halted s

/-- The source is not in shutdown. -/
@[simp] def Working (s : Source) : Prop :=
  s.state ≠ .stopping ∧ s.state ≠ .stopped

theorem working_settleOne (a : SettleAnswers) (h : Working s) :
    Working (settleOne c a s).source := by
  unfold settleOne
  split
  · exact h
  · simp
  rename_i index slot _
  rcases slot with ⟨_ | _ | _ | _ | _, token, bytes, status, _ | failure⟩
  all_goals simp only [Source.settleSlot]
  all_goals repeat' split
  all_goals simp_all [Source.release, Source.clear, Source.setSlot]

theorem working_reject (index token : ℕ) (rc failure : Status) (stage : String) (h : Working s) :
    Working (s.requeueRejected rc index token failure stage).source := by
  unfold Source.requeueRejected
  split
  · simp
  dsimp only
  split
  · simp
  · exact h

theorem working_startRun (a : FetchAnswers) (index : ℕ) (r : Record) (bytes : ℕ) (h : Working s) :
    Working (s.startRun a index r bytes).source := by
  unfold Source.startRun
  split
  · exact working_reject _ _ _ _ _ h
  split
  · exact working_reject _ _ _ _ _ h
  split
  · exact working_reject _ _ _ _ _ h
  dsimp only
  repeat' split
  all_goals first | exact h | simp

theorem working_fetchOne (a : FetchAnswers) (h : Working s) : Working (fetchOne c a s).source := by
  unfold fetchOne Source.takeStep
  repeat' first
    | exact h | exact working_reject _ _ _ _ _ h | exact working_startRun _ _ _ _ h | split
  all_goals simp [Source.reject]

theorem working_pollLoop (answers : List StepAnswers) (h : Working s) :
    Working (pollLoop c answers s).source := by
  induction answers generalizing s with
  | nil => exact h
  | cons a rest ih =>
    have hsettled := working_settleOne (c := c) a.settle h
    have hfetched := working_fetchOne (c := c) a.fetch hsettled
    rw [pollLoop]
    dsimp only
    repeat' split
    all_goals first | exact hsettled | exact hfetched | exact ih hsettled | exact ih hfetched

variable {out : List Event × Status}

theorem requeues_stop {a : StopAnswers} (h : Settling s) (hclean : CleanStop s (.stop a))
    (hact : act c s (.stop a) = some (s', out)) : Requeues s' out.1 := by
  obtain ⟨r, hstop, heq⟩ := map_eq_some_iff.mp hact
  cases heq
  rw [stop] at hstop
  split at hstop
  · rename_i hstopped
    cases hstop
    exact ⟨h (.inr hstopped), by simp [hstopped], by simp⟩
  obtain ⟨hrc, hslots⟩ := @cancelSlots_halted a.cancel s.slots 0 (by simpa using hclean.2)
  simp only [hclean.1, ne_eq, not_true_eq_false, if_false, hrc] at hstop
  refine requeues_drain ?_ ?_ hstop
  · exact hslots
  · simp

/-- After a stop every call keeps to requeues. -/
theorem Requeues.act {events : List Event} (h : Requeues s events) (hclean : CleanStop s op)
    (hact : act c s op = some (s', out)) : Requeues s' out.1 := by
  cases op with
  | request demand =>
    cases hact
    rw [request]
    split
    · exact ⟨h.halted, h.state, by simp⟩
    split
    · exact ⟨h.halted, h.state, by simp⟩
    · rename_i hrunning
      exact absurd hrunning h.state.1
    · rename_i hwaiting
      exact absurd hwaiting h.state.2
    · exact ⟨h.halted, h.state, by simp⟩
  | poll answers =>
    cases hact
    rw [poll]
    split
    · exact ⟨h.halted, h.state, by simp⟩
    split
    · exact ⟨h.halted, h.state, by simp⟩
    · exact ⟨h.halted, h.state, by simp⟩
    · rename_i hwaiting
      exact absurd hwaiting h.state.2
    · exact requeues_pollLoop answers h.halted h.state
  | stop a => exact requeues_stop (fun _ => h.halted) hclean hact
  | wake =>
    cases hact
    exact ⟨h.halted, h.state, by simp⟩

/-- Outside a stop no call enters the shutdown. -/
theorem Settling.act (h : Settling s) (hclean : CleanStop s op)
    (hact : act c s op = some (s', out)) :
    Settling s' := by
  by_cases hshut : s.state = .stopping ∨ s.state = .stopped
  · have hstate : s.state ≠ .running ∧ s.state ≠ .waiting := by
      rcases hshut with hs | hs <;> simp [hs]
    have hrequeues : Requeues s [] := ⟨h hshut, hstate, by simp⟩
    exact fun _ => (hrequeues.act hclean hact).halted
  have hworking : Working s := not_or.mp hshut
  suffices hnext : Working s' ∨ Halted s' from fun hs' => hnext.resolve_left fun hw => by
    exact hs'.elim hw.1 hw.2
  cases op with
  | request demand =>
    cases hact
    unfold request
    repeat' split
    all_goals exact .inl hworking
  | poll answers =>
    cases hact
    unfold poll
    repeat' split
    all_goals first
      | exact .inl hworking
      | exact .inl (working_pollLoop answers hworking)
      | exact .inl (working_pollLoop answers (by simp))
  | stop a => exact .inr (requeues_stop h hclean hact).halted
  | wake =>
    cases hact
    exact .inl hworking

/-- Where the provider and the canceled runs answer every stop well, every event from the first stop
on is a requeue. -/
theorem stop_leaves_requeues {tr : List (Operation × List Event × Status)}
    (h : Run (Meeting (Acts (act c)) fun s e => CleanStop s e.1) (Source.open c) tr s)
    {before after : List (Operation × List Event × Status)} {a : StopAnswers}
    (htr : tr = before ++ (.stop a, out) :: after) :
    ∀ e ∈ (Operation.stop a, out) :: after, ∀ event ∈ e.2.1, ∃ token rc,
      event = .requeue token rc := by
  subst htr
  obtain ⟨t, hbefore, hrest⟩ := h.split
  obtain ⟨u, hstop, hafter⟩ := Run.cons_iff.mp hrest
  have ht : Settling t :=
    hbefore.invariant (by simp [Settling, Source.open])
      fun _ _ _ hs hstep => hs.act hstep.2 hstep.1
  have hu := requeues_stop ht hstop.2 hstop.1
  have hlater := hafter.invariant_trace
    (P := fun tr s => (∃ events, Requeues s events) ∧
      ∀ e ∈ tr, ∀ event ∈ e.2.1, ∃ token rc, event = .requeue token rc)
    ⟨⟨_, hu⟩, by simp⟩ fun tr s e s' hs hstep => by
      obtain ⟨⟨events, hs⟩, htr⟩ := hs
      have hnext := hs.act hstep.2 hstep.1
      exact ⟨⟨_, hnext⟩, forall_mem_append.mpr ⟨htr, forall_mem_singleton.mpr hnext.events⟩⟩
  intro e he
  rcases mem_cons.mp he with rfl | he
  · exact hu.events
  · exact hlater.2 e he

def smallConfig : Config :=
  ⟨false, 1, 2, 100, 10, 10, 3, 1, 8⟩

/-- A step in which all calls succeed. -/
def stepWith (snapshot : RunSnapshot) (step : FetchStep) : StepAnswers :=
  ⟨⟨fun _ => snapshot, fun _ => .retryable, .ok⟩,
    ⟨step, true, .ok, true, .ok, .ok, .live, .ok, .ok⟩⟩

/-- A record is fetched and its run goes on. -/
def runningStep : StepAnswers :=
  stepWith .live (.record .ok ⟨true, 7, 1, 1, 1, 1, 1⟩)

def runningSource : Source :=
  (poll smallConfig [runningStep] (request 2 (Source.open smallConfig)).source).source

def cleanStop : Operation :=
  .stop ⟨.ok, fun _ => .ok, [⟨fun _ => .live, fun _ => .retryable, .ok⟩]⟩

/-- A stop whose cancel of the fetch fails leaves the slot as it is, and the next poll acknowledges
it. -/
theorem stopped_acknowledges : ∃ s outs, exec (act smallConfig) (Source.open smallConfig)
    [.request 2, .poll [runningStep], .stop ⟨.eio, fun _ => .ok, []⟩,
      .poll [stepWith (.ended true .ok) (.idle .ok)]] = some (s, outs) ∧
      .acknowledge 7 .ok ∈ (outs.getLast?.map Prod.fst).getD [] :=
  ⟨_, _, rfl, by decide⟩

theorem stop_leaves_requeues_one : ∃ out, act smallConfig runningSource cleanStop = some out ∧
    out.2.1 = [.requeue 7 .ok] ∧ ∀ event ∈ out.2.1, ∃ token rc, event = .requeue token rc := by
  have hrun : Run (Meeting (Acts (act smallConfig)) fun s e => CleanStop s e.1)
      (Source.open smallConfig) _ runningSource :=
    (Run.nil.snoc (e := (Operation.request 2, _)) ⟨rfl, trivial⟩).snoc
      (e := (Operation.poll [runningStep], _)) ⟨rfl, trivial⟩
  obtain ⟨s', out, hact, hout⟩ : ∃ s' out, act smallConfig runningSource cleanStop =
      some (s', out) ∧ out.1 = [.requeue 7 .ok] := ⟨_, _, rfl, rfl⟩
  have hstop := hrun.snoc (e := (cleanStop, out)) ⟨hact, rfl, fun _ _ _ _ => .inl rfl⟩
  exact ⟨_, hact, hout, stop_leaves_requeues hstop rfl _ mem_cons_self⟩

/-- The slot waits for a settlement, or its run has ended. -/
def Slot.Ready (a : SettleAnswers) (index : ℕ) (slot : Slot) : Prop :=
  slot.phase ≠ .empty ∧
    (slot.phase = .graphRunning → ∃ completed status, a.snapshot index = .ended completed status)

/-- The snapshot of a run fails, and the slots in front of it are empty or have runs that go on. -/
def Blocked (a : SettleAnswers) (slots : List Slot) : Prop :=
  ∃ (j : ℕ) (slot : Slot) (status : Status), slots[j]? = some slot ∧
    (slot.phase = .graphRunning ∧ a.snapshot j = .error status) ∧
      ∀ (k : ℕ) (other : Slot), k < j → slots[k]? = some other →
        other.phase = .empty ∨ other.phase = .graphRunning ∧ a.snapshot k = .live

variable {i : ℕ}

theorem inspect_none_iff {slot : Slot} : slot.inspect c a i = none ↔
    slot.phase = .empty ∨ slot.phase = .graphRunning ∧ a.snapshot i = .live := by
  rcases hphase : slot.phase <;> simp only [Slot.inspect, hphase]
  case graphRunning => rcases a.snapshot i <;> simp
  all_goals simp

theorem inspect_error_iff {slot : Slot} {status : Status} :
    slot.inspect c a i = some (.error status) ↔
      slot.phase = .graphRunning ∧ a.snapshot i = .error status := by
  rcases hphase : slot.phase <;> simp only [Slot.inspect, hphase]
  case graphRunning => rcases a.snapshot i <;> simp
  all_goals simp

theorem Slot.Ready.inspect {slot : Slot} (h : slot.Ready a i) : slot.inspect c a i ≠ none := by
  rw [Ne, inspect_none_iff]
  rintro (hempty | ⟨hrunning, hlive⟩)
  · exact h.1 hempty
  obtain ⟨completed, status, hended⟩ := h.2 hrunning
  simp [hlive] at hended

theorem settleSlot_settles {slot slot' : Slot}
    (h : slot.inspect c a i = some (.ok slot')) (rc : Status) :
    ∃ e ∈ (s.settleSlot rc i slot').events, e.settles := by
  have hphase : slot'.phase ≠ .empty ∧ slot'.phase ≠ .graphRunning := by
    unfold Slot.inspect Slot.ended at h
    grind
  rcases hslot : slot'.phase <;> simp only [Source.settleSlot, hslot]
  · exact absurd hslot hphase.1
  · exact absurd hslot hphase.2
  all_goals split <;> simp [Event.settles]

theorem pollLoop_settles {a : StepAnswers} {slot : Slot} (rest : List StepAnswers)
    (hslot : s.slots[i]? = some slot) (hready : slot.Ready a.settle i) :
    (∃ e ∈ (pollLoop c (a :: rest) s).events, e.settles) ↔ ¬ Blocked a.settle s.slots := by
  rcases hdue : firstDue c a.settle s.slots 0 with _ | ⟨j, status | slot'⟩
  · exact absurd (by simpa using firstDue_none hdue hslot) hready.inspect
  all_goals obtain ⟨-, ⟨found, hfound, hinspect⟩, hbefore⟩ := firstDue_some hdue
  all_goals simp only [Nat.zero_add, Nat.sub_zero, inspect_none_iff] at hfound hbefore
  · have hblocked : Blocked a.settle s.slots :=
      ⟨j, found, status, hfound, inspect_error_iff.mp hinspect, hbefore⟩
    by_cases hstatus : status = .ok <;> simp [pollLoop, settleOne, hdue, hstatus, hblocked]
  have hfree : ¬ Blocked a.settle s.slots := by
    rintro ⟨k, other, status, hother, herror, hk⟩
    rw [← inspect_error_iff (c := c)] at herror
    rcases lt_trichotomy j k with hlt | rfl | hlt
    · simp [inspect_none_iff.mpr (hk j found hlt hfound)] at hinspect
    · simp_all
    · simp [inspect_none_iff.mpr (hbefore k other hlt hother)] at herror
  obtain ⟨e, he, hsettle⟩ : ∃ e ∈ (settleOne c a.settle s).events, e.settles := by
    simpa only [settleOne, hdue] using settleSlot_settles hinspect a.settle.settlement
  refine iff_of_true ⟨e, ?_, hsettle⟩ hfree
  rw [pollLoop]
  dsimp only
  split_ifs <;> simp [he]

/-- A poll with a ready slot settles a slot, unless the source waits for records and was not woken,
or the snapshot of an earlier run fails. -/
theorem poll_settles_iff {a : StepAnswers} {i : ℕ} {slot : Slot} (rest : List StepAnswers)
    (hstate : s.state ≠ .failed ∧ s.state ≠ .stopped) (hslot : s.slots[i]? = some slot)
    (hready : slot.Ready a.settle i) :
    (∃ e ∈ (poll c (a :: rest) s).events, e.settles) ↔
      (s.state = .waiting → s.fetchWakePending) ∧ ¬ Blocked a.settle s.slots := by
  have hloop := pollLoop_settles (c := c) rest hslot hready
  rcases hs : s.state <;> simp only [poll, hs, isEmpty_cons, Bool.false_eq_true, if_false]
  case waiting =>
    by_cases hwake : s.fetchWakePending
    · simpa [hwake] using pollLoop_settles (c := c)
        (s := { s with fetchWakePending := false, fetchWaitArmed := false, state := .running })
        rest hslot hready
    · simp [hwake]
  case failed => exact absurd hs hstate.1
  case stopped => exact absurd hs hstate.2
  all_goals simpa using hloop

/-- A run that has ended while the source waits for records is not settled. -/
theorem waiting_unsettled : ∃ s outs, exec (act smallConfig) (Source.open smallConfig)
    [.request 2, .poll [runningStep, stepWith .live (.wait .ok true)],
      .poll [stepWith (.ended true .ok) (.idle .ok)]] = some (s, outs) ∧ s.state = .waiting ∧
      (outs.getLast?.map Prod.fst) = some [] ∧ ∃ slot ∈ s.slots, slot.phase = .graphRunning :=
  ⟨_, _, rfl, by decide⟩

theorem poll_settles_iff_one : ∃ e ∈ (poll smallConfig [stepWith (.ended true .ok) (.idle .ok)]
    runningSource).events, e.settles := by
  refine (poll_settles_iff (i := 0) [] (by decide) rfl ⟨by decide, fun _ => ⟨_, _, rfl⟩⟩).mpr
    ⟨by decide, ?_⟩
  rintro ⟨j, slot, status, -, herror, -⟩
  simp [stepWith] at herror

end TurboFlow.Outbox
