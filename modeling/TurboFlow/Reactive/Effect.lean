import TurboFlow.Reactive.System

/-!
# What a step of the reactive system does

Every step replaces the frame of at most one call, touches at most one run and one publication, and
moves `active_publishes` by at most one. Every invariant is proved over the moves listed here.
-/

namespace TurboFlow.Reactive

open Transition Table TurboFlow.Publication Option Exchange

/-- How a section moves `active_publishes`. -/
inductive Bump
  | up
  | keep
  | down

def Bump.apply : Bump → ℕ → ℕ
  | .up, n => n + 1
  | .keep, n => n
  | .down, n => n - 1

inductive FlowMove : List Frame → List Frame → Bump → Prop
  | idle : FlowMove [] [] .keep
  | enter : FlowMove [] [.region] .up
  | open {d m b : Bool} : FlowMove [] [.opening d m b] .up
  | openFails {d m b : Bool} : FlowMove [.opening d m b] [.failing] .keep
  | fail : FlowMove [.failing] [.returned] .down
  | leave : FlowMove [.region] [.returned] .down

/-- Moves of a call about the run `r`, which goes from the first to the second run. -/
inductive RunMove (r : ℕ) (run : Run) : Run → List Frame → List Frame → Bump → Prop
  -- `flow_run_open_origin_internal` after the registration
  | subscribed :
      RunMove r run { run with setupComplete := true } [.subscribing r]
        [if run.deadlineFired then .canceling r .etimedout else .returned] .keep
  | unsubscribed :
      RunMove r run { run with connected := false } [.subscribing r] [.unwinding r] .keep
  | unwound :
      RunMove r run { run.deregister with abandoned := true } [.unwinding r] [.leaving r] .keep
  | left : RunMove r run run.release [.leaving r] [.returned] .down
  -- the deadline and the calls of the owner and of a stop
  | expired (h : run.setupComplete = true) :
      RunMove r run run [] [.finish r .failed .etimedout false .transition none] .keep
  | expiredEarly : RunMove r run { run with deadlineFired := true } [] [] .keep
  | request {fenced : Bool} (h : run.setupComplete = true) :
      RunMove r run run [] [.requesting r fenced] .keep
  | requestRefused {fenced : Bool} : RunMove r run run [.requesting r fenced] [.returned] .keep
  | requestFenced : RunMove r run run [.requesting r true] [.requesting r false] .keep
  | requested (h : run.terminal = false) :
      RunMove r run { run with state := .active } [.requesting r false] [.returned] .keep
  | cancel (h : run.setupComplete = true) : RunMove r run run [] [.canceling r .ecanceled] .keep
  | close (h : run.setupComplete = true) : RunMove r run run [] [.closing r] .keep
  | sweep (h : run.registered = true) : RunMove r run run [] [.sweeping r] .keep
  | canceledLate {status : Status} (h : run.terminal = true) :
      RunMove r run run [.canceling r status] [.returned] .keep
  | canceling {status : Status} {state : RunState} (h : state ≠ .completed) :
      RunMove r run run [.canceling r status] [.finish r state status true .transition none] .keep
  | closed : RunMove r run run.deregister [.closing r] [.returned] .keep
  | sweptLate : RunMove r run run [.sweeping r] [.closing r] .keep
  | swept : RunMove r run run [.sweeping r] [.canceling r .ecanceled] .keep
  -- `flow_run_finish`
  | lost {state : RunState} {status : Status} {detach : Bool} {k : Option ℕ}
      (h : run.terminal = true) :
      RunMove r run run [.finish r state status detach .transition k] [Flow.after k] .keep
  | won {state : RunState} {status : Status} {detach : Bool} {k : Option ℕ}
      (h : run.terminal = false) :
      RunMove r run (run.terminate state status) [.finish r state status detach .transition k]
        [.finish r state status detach (if detach then .deregister else .release) k] .keep
  | deregistered {state : RunState} {status : Status} {detach : Bool} {k : Option ℕ} :
      RunMove r run run.deregister [.finish r state status detach .deregister k]
        [.finish r state status detach .release k] .keep
  | released {state : RunState} {status : Status} {detach : Bool} {k : Option ℕ} :
      RunMove r run { run.release with lifetimeCounted := false }
        [.finish r state status detach .release k]
        [if detach then .finish r state status detach .detach k else Flow.after k] .down
  | detached {state : RunState} {status : Status} {detach : Bool} {k : Option ℕ} :
      RunMove r run { run with attached := false } [.finish r state status detach .detach k]
        [Flow.after k] .keep
  -- the callbacks of the subscription
  | delivered (hc : run.connected = true) (hu : run.upstream = .ready) (ht : run.terminal = false) :
      RunMove r run { run with upstream := .delivering, accepted := run.accepted + 1 } []
        [.value r .admitting false none .ok] .keep
  | errored {status : Status} (hc : run.connected = true) (hu : run.upstream = .ready) :
      RunMove r run { run with upstream := .ended } []
        [.finish r .failed status true .transition none] .keep
  | completing (hc : run.connected = true) (hu : run.upstream = .ready)
      (ht : run.terminal = false) (hp : run.pendingValues = 0) :
      RunMove r run { run with upstream := .ended, upstreamDone := true } []
        [.finish r .completed .ok true .transition none] .keep
  | ended (hc : run.connected = true) (hu : run.upstream = .ready) :
      RunMove r run { run with upstream := .ended, upstreamDone := true } [] [] .keep
  -- `flow_run_on_value`
  | entered {region : Bool} {k : Option ℕ} {rc : Status} :
      RunMove r run run [.value r .admitting region k rc] [.value r .preparing true none rc] .up
  | refused {region : Bool} {k : Option ℕ} {rc rc' : Status} :
      RunMove r run run [.value r .admitting region k rc] [.value r .recording false none rc'] .keep
  | unfenced {region : Bool} {k : Option ℕ} {rc : Status} :
      RunMove r run run [.value r .admitting region k rc] [.value r .preparing false none rc] .keep
  | prepared {region : Bool} {k : Option ℕ} {rc : Status} :
      RunMove r run { run with pendingValues := run.pendingValues + 1 }
        [.value r .preparing region k rc] [.value r .creating region none rc] .keep
  | synchronous {region : Bool} {k : Option ℕ} {rc : Status} :
      RunMove r run run [.value r .preparing region k rc] [.value r .running region none rc] .keep
  | uncreated {region : Bool} {k : Option ℕ} {rc : Status} :
      RunMove r run { run with pendingValues := run.pendingValues - 1 }
        [.value r .creating region k rc] [.value r .recording region none .enomem] .keep
  | ran {region : Bool} {rc rc' : Status} :
      RunMove r run run [.value r .running region none rc]
        [.value r .recording region none rc'] .keep
  | recorded {region : Bool} {rc : Status} :
      RunMove r run (run.recordResult rc) [.value r .recording region none rc]
        [.value r .leaving region none rc] .keep
  | unrecorded {region : Bool} {k : ℕ} {rc : Status} :
      RunMove r run run [.value r .recording region (some k) rc]
        [.value r .ownerLeaving region (some k) rc] .keep
  | valueLeft {region : Bool} {k : Option ℕ} {rc : Status} :
      RunMove r run { run with upstream := .ready } [.value r .leaving region k rc] [.returned]
        (if region then .down else .keep)

theorem RunMove.terminal (h : RunMove r run run' old new b) (hterminal : run.terminal = true) :
    run'.terminal = true ∧ run'.state = run.state ∧ run'.status = run.status := by
  cases h <;> simp_all

/-- Moves that create the publication `k`, for a value of a run or for a direct publisher. -/
inductive CreateMove (k : ℕ) : Option ℕ → List Frame → List Frame → Prop
  | direct : CreateMove k none [.region] [.publishing k]
  | value {r : ℕ} {region : Bool} {k' : Option ℕ} {rc : Status} :
      CreateMove k (some r) [.value r .creating region k' rc] [.value r .running region (some k) rc]

/-- Moves of the tracker of the publication `k`, with whether its callback is due. -/
inductive TrackerMove (k : ℕ) (p : AsyncPublication) :
    Tracker × Bool → List Frame → List Frame → Prop
  | submit (h : p.phase = .open) : TrackerMove k p (p.tracker.submit, false) [] []
  | release {status : Status} (h : p.phase = .open) :
      TrackerMove k p (p.tracker.release status) [] []
  | sealValue {r : ℕ} {region : Bool} {rc rc' : Status} :
      TrackerMove k p (p.tracker.sealPublication rc') [.value r .running region (some k) rc]
        [.value r .recording region (some k) rc']
  | sealDirect {rc : Status} :
      TrackerMove k p (p.tracker.sealPublication rc) [.publishing k] [.unowning k]
  | leaveValue {r : ℕ} {region : Bool} {rc : Status} :
      TrackerMove k p p.tracker.ownerLeave [.value r .ownerLeaving region (some k) rc]
        [.value r .leaving region (some k) rc]
  | leaveDirect : TrackerMove k p p.tracker.ownerLeave [.unowning k] [.region]

/-- Where `flow_run_async_value_finish` goes on, for the publication `k` of a value of the run `r`
that finished with the status. -/
inductive FinishMove (k r : ℕ) (run : Run) (status : Status) : Frame → Prop
  | late (h : run.terminal = true) : FinishMove k r run status (.unpublishing k)
  | counted (h : run.terminal = false) (hs : status = .ok) :
      FinishMove k r run status (.unpublishing k)
  | completing (h : run.terminal = false) (hs : status = .ok) (hd : run.upstreamDone = true)
      (hp : run.pendingValues - 1 = 0) :
      FinishMove k r run status (.finish r .completed .ok true .transition (some k))
  | failing (h : run.terminal = false) (hs : status ≠ .ok) :
      FinishMove k r run status (.finish r .failed status true .transition (some k))

def AsyncPublication.settle (p : AsyncPublication) (t : Tracker × Bool) : AsyncPublication :=
  { p with tracker := t.1, phase := if t.2 then .finalizing else p.phase }

def Operation.Advances (op : Operation) (s : Flow) (old : List Frame) : Prop :=
  ∀ f ∈ old, ∃ j ok rc, op = .step j ok rc ∧ s.frames[j]? = some f

inductive Effect (s : Flow) (op : Operation) (s' : Flow) : Prop
  | flow {old new : List Frame} {b : Bump} (hmove : FlowMove old new b)
      (hframes : Exchange s.frames s'.frames old new) (hruns : s'.runs = s.runs)
      (hpubs : s'.publications = s.publications)
      (hcount : s'.activePublishes = b.apply s.activePublishes)
  | register {d m b : Bool}
      (hframes : Exchange s.frames s'.frames [.opening d m b] [.subscribing s.runs.length])
      (hruns : s'.runs = s.runs ++ [Run.create d m])
      (hpubs : s'.publications = s.publications)
      (hcount : s'.activePublishes = s.activePublishes)
  | run {r : ℕ} {run run' : Run} {old new : List Frame} {b : Bump} (hrun : s.runs[r]? = some run)
      (hmove : RunMove r run run' old new b) (hadvances : op.Advances s old)
      (hframes : Exchange s.frames s'.frames old new) (hruns : s'.runs = s.runs.set r run')
      (hpubs : s'.publications = s.publications)
      (hcount : s'.activePublishes = b.apply s.activePublishes)
  | create {owner : Option ℕ} {old new : List Frame}
      (hmove : CreateMove s.publications.length owner old new)
      (howner : ∀ r ∈ owner, r < s.runs.length)
      (hframes : Exchange s.frames s'.frames old new) (hruns : s'.runs = s.runs)
      (hpubs : s'.publications = s.publications ++
        [{ run := owner, tracker := Tracker.create, phase := .open }])
      (hcount : s'.activePublishes = s.activePublishes + 1)
  | tracker {k : ℕ} {p : AsyncPublication} {t : Tracker × Bool} {old new : List Frame}
      (hpub : s.publications[k]? = some p) (hmove : TrackerMove k p t old new)
      (hframes : Exchange s.frames s'.frames old (new ++ if t.2 then [.finalizing k] else []))
      (hruns : s'.runs = s.runs) (hpubs : s'.publications = s.publications.set k (p.settle t))
      (hcount : s'.activePublishes = s.activePublishes)
  | finalizeDirect {k : ℕ} {p : AsyncPublication} (hpub : s.publications[k]? = some p)
      (howner : p.run = none)
      (hframes : Exchange s.frames s'.frames [.finalizing k] [.unpublishing k])
      (hruns : s'.runs = s.runs)
      (hpubs : s'.publications = s.publications.set k { p with phase := .settled })
      (hcount : s'.activePublishes = s.activePublishes)
  | finalizeValue {k r : ℕ} {p : AsyncPublication} {run : Run} {new : Frame}
      (hpub : s.publications[k]? = some p) (howner : p.run = some r)
      (hrun : s.runs[r]? = some run) (hmove : FinishMove k r run p.tracker.status new)
      (hframes : Exchange s.frames s'.frames [.finalizing k] [new])
      (hruns : s'.runs = s.runs.set r (run.valueFinish p.tracker.status))
      (hpubs : s'.publications = s.publications.set k { p with phase := .settled })
      (hcount : s'.activePublishes = s.activePublishes)
  | unpublish {k : ℕ} {p : AsyncPublication} (hpub : s.publications[k]? = some p)
      (hframes : Exchange s.frames s'.frames [.unpublishing k] [.returned])
      (hruns : s'.runs = s.runs)
      (hpubs : s'.publications = s.publications.set k { p with phase := .gone })
      (hcount : s'.activePublishes = s.activePublishes - 1)

namespace Flow

variable {s : Flow} {j k r : ℕ} {ok : Bool} {rc : Status} {f : Frame} {run : Run}
  {p : AsyncPublication}

theorem publishLeave_eq (s : Flow) :
    s.publishLeave = { s with activePublishes := s.activePublishes - 1 } := by
  unfold publishLeave
  split
  · rfl
  have hzero : s.activePublishes - 1 = s.activePublishes := by omega
  rw [hzero]

theorem advances_step (hj : s.frames[j]? = some f) : (Operation.step j ok rc).Advances s [f] := by
  intro g hg
  obtain rfl := List.mem_singleton.mp hg
  exact ⟨j, ok, rc, rfl, hj⟩

variable {op : Operation}

theorem advances_nil : op.Advances s [] := by
  intro g hg
  cases hg

theorem effect_read (hj : s.frames[j]? = some f) (hrun : s.runs[r]? = some run)
    (hmove : RunMove r run run [f] [f'] .keep) : Effect s (.step j ok rc) (s.setFrame j f') :=
  .run hrun hmove (advances_step hj) (modify hj f') (set_eq_self hrun).symm rfl rfl

theorem effect_write (hj : s.frames[j]? = some f) (hrun : s.runs[r]? = some run)
    (hmove : RunMove r run (g run) [f] [f'] .keep) :
    Effect s (.step j ok rc) ((s.modifyRun r g).setFrame j f') :=
  .run hrun hmove (advances_step hj) (modify hj f') (modify_eq_set hrun g) rfl rfl

theorem effect_return (hj : s.frames[j]? = some f) (hrun : s.runs[r]? = some run)
    (hmove : RunMove r run (g run) [f] [f'] .down) :
    Effect s (.step j ok rc) ((s.publishLeave.modifyRun r g).setFrame j f') := by
  rw [publishLeave_eq]
  exact .run hrun hmove (advances_step hj) (modify hj f') (modify_eq_set hrun g) rfl rfl

theorem effect_call (hrun : s.runs[r]? = some run) (hmove : RunMove r run (g run) [] [f] .keep) :
    Effect s op ((s.modifyRun r g).addFrame f) :=
  .run hrun hmove advances_nil (append s.frames f) (modify_eq_set hrun g) rfl rfl

theorem effect_start (hrun : s.runs[r]? = some run) (hmove : RunMove r run run [] [f] .keep) :
    Effect s op (s.addFrame f) :=
  .run hrun hmove advances_nil (append s.frames f) (set_eq_self hrun).symm rfl rfl

theorem effect_event (hrun : s.runs[r]? = some run) (hmove : RunMove r run (g run) [] [] .keep) :
    Effect s op (s.modifyRun r g) :=
  .run hrun hmove advances_nil (refl s.frames) (modify_eq_set hrun g) rfl rfl

theorem effect_idle : Effect s op s :=
  .flow .idle (refl s.frames) rfl rfl rfl

theorem effect_settle (hpub : s.publications[k]? = some p) (hmove : TrackerMove k p t [] []) :
    Effect s op (s.settleTracker k t) := by
  unfold settleTracker
  split
  · rename_i ht
    refine .tracker hpub hmove ?_ rfl ?_ rfl
    · rw [if_pos ht]
      exact append s.frames _
    refine (modify_eq_set hpub _).trans ?_
    rw [AsyncPublication.settle, if_pos ht]
  rename_i ht
  refine .tracker hpub hmove ?_ rfl ?_ rfl
  · rw [if_neg ht]
    exact refl s.frames
  refine (modify_eq_set hpub _).trans ?_
  rw [AsyncPublication.settle, if_neg ht]

theorem effect_settle_step (hj : s.frames[j]? = some f) (hpub : s.publications[k]? = some p)
    (hmove : TrackerMove k p t [f] [f']) :
    Effect s (.step j ok rc) ((s.settleTracker k t).setFrame j f') := by
  unfold settleTracker
  split
  · rename_i ht
    refine .tracker hpub hmove ?_ rfl ?_ rfl
    · rw [if_pos ht]
      exact append_modify hj f' _
    refine (modify_eq_set hpub _).trans ?_
    rw [AsyncPublication.settle, if_pos ht]
  rename_i ht
  refine .tracker hpub hmove ?_ rfl ?_ rfl
  · rw [if_neg ht]
    exact modify hj f'
  refine (modify_eq_set hpub _).trans ?_
  rw [AsyncPublication.settle, if_neg ht]

theorem stepOpening_effect {d m b : Bool} (hj : s.frames[j]? = some (.opening d m b)) :
    Effect s (.step j ok rc) (s.stepOpening j ok d m b) := by
  unfold stepOpening
  split
  · exact .register (modify hj _) rfl rfl rfl
  · exact .flow .openFails (modify hj _) rfl rfl rfl

theorem stepSubscribing_effect (hj : s.frames[j]? = some (.subscribing r))
    (hrun : s.runs[r]? = some run) : Effect s (.step j ok rc) (s.stepSubscribing j ok r run) := by
  unfold stepSubscribing
  split
  · exact effect_write hj hrun .subscribed
  · exact effect_write hj hrun .unsubscribed

theorem stepRequesting_effect {fenced : Bool} (hj : s.frames[j]? = some (.requesting r fenced))
    (hrun : s.runs[r]? = some run) :
    Effect s (.step j ok rc) (s.stepRequesting j r run fenced) := by
  unfold stepRequesting
  cases fenced with
  | true =>
    rw [if_pos rfl]
    split
    · exact effect_read hj hrun .requestFenced
    · exact effect_read hj hrun .requestRefused
  | false =>
    rw [if_neg Bool.false_ne_true]
    split
    · exact effect_read hj hrun .requestRefused
    rename_i hterminal
    exact effect_write hj hrun (.requested (Bool.eq_false_iff.mpr hterminal))

theorem stepFinish_effect {state : RunState} {detach : Bool} {stage : FinishStage}
    (hj : s.frames[j]? = some (.finish r state status detach stage o))
    (hrun : s.runs[r]? = some run) :
    Effect s (.step j ok rc) (s.stepFinish j r run state status detach o stage) := by
  cases stage with
  | transition =>
    unfold stepFinish
    dsimp only
    split
    · rename_i hterminal
      exact effect_read hj hrun (.lost hterminal)
    rename_i hterminal
    exact effect_write hj hrun (.won (Bool.eq_false_iff.mpr hterminal))
  | deregister => exact effect_write hj hrun .deregistered
  | release => exact effect_return hj hrun .released
  | detach => exact effect_write hj hrun .detached

theorem stepValue_effect {stage : ValueStage} {region : Bool}
    (hj : s.frames[j]? = some (.value r stage region o status)) (hrun : s.runs[r]? = some run)
    (h : s.stepValue j ok rc r run region o status stage = some s') :
    Effect s (.step j ok rc) s' := by
  cases stage with
  | admitting =>
    simp only [stepValue] at h
    split at h
    · split at h
      · cases h
        exact .run hrun .entered (advances_step hj) (modify hj _)
          (set_eq_self hrun).symm rfl rfl
      cases h
      exact effect_read hj hrun .refused
    cases h
    exact effect_read hj hrun .unfenced
  | preparing =>
    simp only [stepValue] at h
    split at h
    · cases h
      exact effect_write hj hrun .prepared
    cases h
    exact effect_read hj hrun .synchronous
  | creating =>
    simp only [stepValue] at h
    split at h
    · cases h
      refine .create .value ?_ (modify hj _) rfl rfl rfl
      intro r' hr'
      cases hr'
      exact (List.getElem?_eq_some_iff.mp hrun).1
    cases h
    exact effect_write hj hrun .uncreated
  | running =>
    cases o with
    | none =>
      cases h
      exact effect_read hj hrun .ran
    | some k =>
      simp only [stepValue] at h
      split at h
      · cases h
      rename_i p hpub
      cases h
      exact effect_settle_step hj hpub .sealValue
  | recording =>
    cases o with
    | none =>
      cases h
      exact effect_write hj hrun .recorded
    | some k =>
      cases h
      exact effect_read hj hrun .unrecorded
  | ownerLeaving =>
    cases o with
    | none => cases h
    | some k =>
      simp only [stepValue] at h
      split at h
      · cases h
      rename_i p hpub
      cases h
      exact effect_settle_step hj hpub .leaveValue
  | leaving =>
    cases h
    cases region with
    | false => exact effect_write hj hrun (@RunMove.valueLeft r run false o status)
    | true => exact effect_return hj hrun (@RunMove.valueLeft r run true o status)

theorem stepFinalizing_effect (hj : s.frames[j]? = some (.finalizing k))
    (hpub : s.publications[k]? = some p) (h : s.stepFinalizing j k p = some s') :
    Effect s (.step j ok rc) s' := by
  unfold stepFinalizing at h
  dsimp only at h
  split at h
  · rename_i howner
    cases h
    exact .finalizeDirect hpub howner (modify hj _) rfl (modify_eq_set hpub _) rfl
  rename_i r howner
  split at h
  · cases h
  rename_i run hrun
  have heffect : ∀ new, FinishMove k r run p.tracker.status new →
      Effect s (.step j ok rc)
        (((s.modifyPublication k fun p => { p with phase := .settled }).modifyRun r fun run =>
          run.valueFinish p.tracker.status).setFrame j new) := by
    intro new hmove
    exact .finalizeValue hpub howner hrun hmove (modify hj _) (modify_eq_set hrun _)
      (modify_eq_set hpub _) rfl
  split at h
  · rename_i hterminal
    cases h
    exact heffect _ (.late hterminal)
  rename_i hterminal
  have hterminal : run.terminal = false := Bool.eq_false_iff.mpr hterminal
  split at h
  · rename_i hok
    split at h
    · rename_i hlast
      cases h
      exact heffect _ (.completing hterminal hok hlast.1 hlast.2)
    cases h
    exact heffect _ (.counted hterminal hok)
  rename_i hfail
  cases h
  exact heffect _ (.failing hterminal hfail)

theorem advance_effect (hj : s.frames[j]? = some f) (h : s.advance j ok rc f = some s') :
    Effect s (.step j ok rc) s' := by
  cases f with
  | returned => cases h
  | region => cases h
  | opening d m b =>
    cases h
    exact stepOpening_effect hj
  | failing =>
    cases h
    rw [publishLeave_eq]
    exact .flow .fail (modify hj _) rfl rfl rfl
  | subscribing r =>
    obtain ⟨run, hrun, rfl⟩ := map_eq_some_iff.mp h
    exact stepSubscribing_effect hj hrun
  | unwinding r =>
    obtain ⟨run, hrun, rfl⟩ := map_eq_some_iff.mp h
    exact effect_write hj hrun .unwound
  | leaving r =>
    obtain ⟨run, hrun, rfl⟩ := map_eq_some_iff.mp h
    exact effect_return hj hrun .left
  | canceling r status =>
    obtain ⟨run, hrun, rfl⟩ := map_eq_some_iff.mp h
    split
    · rename_i hterminal
      exact effect_read hj hrun (.canceledLate hterminal)
    refine effect_read hj hrun (.canceling ?_)
    split <;> simp
  | closing r =>
    obtain ⟨run, hrun, h⟩ := bind_eq_some_iff.mp h
    split at h
    · cases h
    cases h
    exact effect_write hj hrun .closed
  | sweeping r =>
    obtain ⟨run, hrun, rfl⟩ := map_eq_some_iff.mp h
    split
    · exact effect_read hj hrun .sweptLate
    · exact effect_read hj hrun .swept
  | requesting r fenced =>
    obtain ⟨run, hrun, rfl⟩ := map_eq_some_iff.mp h
    exact stepRequesting_effect hj hrun
  | finish r state status detach stage o =>
    obtain ⟨run, hrun, rfl⟩ := map_eq_some_iff.mp h
    exact stepFinish_effect hj hrun
  | value r stage region o status =>
    obtain ⟨run, hrun, h⟩ := bind_eq_some_iff.mp h
    exact stepValue_effect hj hrun h
  | publishing k =>
    obtain ⟨p, hpub, rfl⟩ := map_eq_some_iff.mp h
    exact effect_settle_step hj hpub .sealDirect
  | unowning k =>
    obtain ⟨p, hpub, rfl⟩ := map_eq_some_iff.mp h
    exact effect_settle_step hj hpub .leaveDirect
  | finalizing k =>
    obtain ⟨p, hpub, h⟩ := bind_eq_some_iff.mp h
    exact stepFinalizing_effect hj hpub h
  | unpublishing k =>
    obtain ⟨p, hpub, rfl⟩ := map_eq_some_iff.mp h
    rw [publishLeave_eq]
    exact .unpublish hpub (modify hj _) rfl (modify_eq_set hpub _) rfl

theorem act_effect (h : s.act op = some (s', a)) : Effect s op s' := by
  cases op with
  | control state admission scheduler =>
    cases h
    exact .flow .idle (refl s.frames) rfl rfl rfl
  | enter =>
    simp only [act] at h
    split at h
    · cases h
      exact .flow .enter (append s.frames _) rfl rfl rfl
    cases h
    exact effect_idle
  | «open» d m b =>
    simp only [act] at h
    split at h
    · cases h
      exact .flow .open (append s.frames _) rfl rfl rfl
    cases h
    exact effect_idle
  | deliver r =>
    obtain ⟨run, hrun, h⟩ := bind_eq_some_iff.mp h
    split at h
    · rename_i hready
      simp only [callback] at h
      split at h
      · cases h
        exact effect_idle
      rename_i hlive
      cases h
      have hterminal : run.terminal = false := by
        cases hrt : run.terminal with
        | false => rfl
        | true => exact absurd (.inl hrt) hlive
      exact effect_call hrun (.delivered hready.1 hready.2 hterminal)
    · cases h
  | error r status =>
    obtain ⟨run, hrun, h⟩ := bind_eq_some_iff.mp h
    split at h
    · rename_i hready
      cases h
      exact effect_call hrun (.errored hready.1 hready.2)
    · cases h
  | done r =>
    obtain ⟨run, hrun, h⟩ := bind_eq_some_iff.mp h
    split at h
    · rename_i hready
      simp only [callback] at h
      split at h
      · rename_i hlast
        cases h
        exact effect_call hrun (.completing hready.1 hready.2 hlast.1 hlast.2)
      cases h
      exact effect_event hrun (.ended hready.1 hready.2)
    · cases h
  | deadline r =>
    obtain ⟨run, hrun, h⟩ := map_eq_some_iff.mp h
    split at h
    · rename_i hsetup
      cases h
      exact effect_start hrun (.expired hsetup)
    cases h
    exact effect_event hrun .expiredEarly
  | request r =>
    obtain ⟨run, hrun, h⟩ := bind_eq_some_iff.mp h
    split at h
    · cases h
    rename_i hsetup
    split at h
    · cases h
      exact effect_idle
    cases h
    exact effect_start hrun (.request (Bool.not_eq_false _ ▸ hsetup))
  | cancel r =>
    obtain ⟨run, hrun, h⟩ := bind_eq_some_iff.mp h
    split at h
    · rename_i hsetup
      cases h
      exact effect_start hrun (.cancel hsetup)
    · cases h
  | close r =>
    obtain ⟨run, hrun, h⟩ := bind_eq_some_iff.mp h
    split at h
    · rename_i hsetup
      cases h
      split
      · exact effect_start hrun (.close hsetup)
      · exact effect_start hrun (.cancel hsetup)
    · cases h
  | sweep r =>
    obtain ⟨run, hrun, h⟩ := bind_eq_some_iff.mp h
    split at h
    · rename_i hregistered
      cases h
      exact effect_start hrun (.sweep hregistered.1)
    · cases h
  | publish j =>
    simp only [act] at h
    split at h
    · rename_i hj
      cases h
      exact .create .direct (fun _ h => nomatch h) (modify hj _) rfl rfl rfl
    · cases h
  | leave j =>
    simp only [act] at h
    split at h
    · rename_i hj
      cases h
      rw [publishLeave_eq]
      exact .flow .leave (modify hj _) rfl rfl rfl
    · cases h
  | submitClaim k =>
    obtain ⟨p, hpub, h⟩ := bind_eq_some_iff.mp h
    split at h
    · rename_i hopen
      cases h
      exact .tracker hpub (.submit hopen.1) (refl s.frames) rfl (modify_eq_set hpub _) rfl
    · cases h
  | releaseClaim k status =>
    obtain ⟨p, hpub, h⟩ := bind_eq_some_iff.mp h
    split at h
    · rename_i hopen
      cases h
      exact effect_settle hpub (.release hopen.1)
    · cases h
  | step j ok rc =>
    obtain ⟨t, ht, h⟩ := map_eq_some_iff.mp h
    obtain ⟨f, hj, hadvance⟩ := bind_eq_some_iff.mp ht
    cases h
    exact advance_effect hj hadvance

end Flow

end TurboFlow.Reactive
