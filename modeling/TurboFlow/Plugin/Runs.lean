import TurboFlow.Plugin.Destroy

/-!
# Runs of a generation

A run interleaves destroy calls, in which anything may fail, with the calls that use the generation.
Its events are those of a run of the protocol (`refines`).
-/

namespace TurboFlow.Plugin

open Stages Transition List Generation Option

def Abstracts : Option Generation → Retiring → Prop
  | none, _ => True
  | some g, t => g.Sound ∧ g.retiring = t

structure Observed (f : Graph → Status × Graph) (shown : Status × Graph → List Event) : Prop where
  admission : ∀ graph, graph.admission ≠ .stopping ∧ graph.admission ≠ .resizing →
    (f graph).2.admission ≠ .stopping ∧ (f graph).2.admission ≠ .resizing
  run : ∀ (t : Retiring) (graph : Graph), t.running = graph.live →
    Run Retiring.Step t (shown (f graph)) { t with running := (f graph).2.live }

theorem observed_start (answer : StartAnswer) :
    Observed (turboFlowStart answer) (fun r => if r.2.live = true then [.start] else []) where
  admission graph h := by
    unfold turboFlowStart
    split
    · exact h
    cases answer with
    | started => simp
    | refused status => exact h
    | rollbackFailed status => simp
  run t graph ht := by
    by_cases hlive : (turboFlowStart answer graph).2.live = true
    · simp only [hlive, if_true]
      exact Run.single_iff.mpr Retiring.Step.started
    have hsame : (turboFlowStart answer graph).2 = graph := by
      unfold turboFlowStart at hlive ⊢
      split
      · rfl
      rename_i hstate
      rw [if_neg hstate] at hlive
      cases answer with
      | started | rollbackFailed status => exact absurd rfl hlive
      | refused status => rfl
    rw [if_neg hlive, hsame, ← ht]
    exact Run.nil

theorem observed_stop (nonSource source : Status) :
    Observed (turboFlowStop nonSource source) (fun r => [.stop r.1]) where
  admission _ h := turboFlowStop_admission nonSource source h
  run t graph ht := by
    rw [turboFlowStop_live]
    by_cases hok : (turboFlowStop nonSource source graph).1 = .ok
    · rw [if_pos hok, hok]
      exact Run.single_iff.mpr Retiring.Step.stopped
    rw [if_neg hok, ← ht]
    exact Run.single_iff.mpr (Retiring.Step.stopFailed hok)

theorem observed_resizePool (answer : ResizeAnswer) :
    Observed (turboFlowResizePool answer) (fun _ => []) where
  admission graph h := by
    unfold turboFlowResizePool
    rw [if_neg h.1, if_neg h.2]
    split
    · exact h
    cases answer with
    | refused status => exact h
    | timedOut => simp
    | resized => exact h
    | restored status => exact h
    | rollbackFailed status adapterStop => simp
  run t graph ht := by
    have hlive : (turboFlowResizePool answer graph).2.live = graph.live := by
      unfold turboFlowResizePool
      split
      · rfl
      rename_i hstate
      have hstarted : graph.state = .started := not_not.mp hstate
      split
      · rfl
      split
      · rfl
      cases answer with
      | refused status => rfl
      | timedOut => rfl
      | resized => rfl
      | restored status => rfl
      | rollbackFailed status adapterStop => simp [Graph.live, hstarted]
    rw [hlive, ← ht]
    exact Run.nil

variable {g : Generation} {w : Option Generation} {t : Retiring}

theorem abstracts_onGraph (hf : Observed f shown) (hg : g.Sound)
    (h : onGraph f shown g = some (w, r)) :
    ∃ t, Run Retiring.Step g.retiring r.events t ∧ Abstracts w t := by
  unfold onGraph at h
  split at h
  · cases h
  rename_i graph hgraph
  split at h
  · cases h
  rename_i hfailed
  cases h
  have hnext : { g with flow := some (f graph).2 }.retiring =
      { g.retiring with running := (f graph).2.live } := by
    simp [retiring, entries, running, hgraph, hfailed]
  refine ⟨_, hf.run g.retiring graph (by simp [retiring, running, hgraph, hfailed]),
    ⟨hg.entries, fun graph' hgraph' => ?_, fun hnone => ?_⟩, hnext⟩
  · cases hgraph'
    exact hf.admission graph (hg.settled graph hgraph)
  · cases hnone

theorem abstracts_onBinding (hf : ∀ b r, f b = some r → r.1.session = b.session) (hg : g.Sound)
    (h : onBinding j f g = some (w, r)) :
    ∃ t, Run Retiring.Step g.retiring r.events t ∧ Abstracts w t := by
  unfold onBinding at h
  split at h
  · cases h
  rename_i b hb
  obtain ⟨⟨b', status⟩, hfb, heq⟩ := map_eq_some_iff.mp h
  cases heq
  have hsession : b'.session = b.session := hf b (b', status) hfb
  have hK : { g with bindings := g.bindings.set j b' }.retiring = g.retiring :=
    congrArg (fun session => { g.retiring with session := session }) (column_set hb hsession)
  refine ⟨g.retiring, Run.nil, ⟨hg.entries, hg.settled, fun hnone => ?_⟩, hK⟩
  obtain ⟨hgone, hunheld⟩ := hg.detached hnone
  refine ⟨hgone, fun c hc => ?_⟩
  rcases mem_or_eq_of_mem_set hc with hc | rfl
  · exact hunheld c hc
  rw [hsession]
  exact hunheld b (mem_of_getElem? hb)

theorem abstracts_onProjection (hg : g.Sound) (h : onProjection j f g = some (w, r)) :
    ∃ t, Run Retiring.Step g.retiring r.events t ∧ Abstracts w t := by
  unfold onProjection at h
  split at h
  · cases h
  split at h
  · cases h
  obtain ⟨⟨o', status⟩, -, heq⟩ := map_eq_some_iff.mp h
  cases heq
  exact ⟨g.retiring, Run.nil, ⟨hg.entries, hg.settled, hg.detached⟩, rfl⟩

theorem abstracts_destroy (a : Answers) (hg : g.Sound) :
    ∃ t, Run Retiring.Step g.retiring (turboFlowPluginGenerationDestroy a g).2.events t ∧
      Abstracts (turboFlowPluginGenerationDestroy a g).1 t := by
  have hleads := follows_retire a g hg
  refine ⟨(flowPluginGenerationRetire a g).state.retiring, ?_⟩
  unfold turboFlowPluginGenerationDestroy
  simp only
  split
  · rename_i x hx
    have hsound := hleads.fails (by simp [hx])
    exact ⟨hleads.run, ⟨hsound.entries, hsound.settled, hsound.detached⟩, rfl⟩
  · exact ⟨hleads.run, trivial⟩

theorem refines (habs : Abstracts w t) (h : act w op = some (w', r)) :
    ∃ t', Run Retiring.Step t r.events t' ∧ Abstracts w' t' := by
  cases w with
  | none => cases h
  | some g =>
    obtain ⟨hg, rfl⟩ := habs
    cases op with
    | destroy a =>
      obtain ⟨rfl, rfl⟩ := Prod.mk.inj (some.inj h)
      exact abstracts_destroy a hg
    | leaseAcquire =>
      obtain ⟨rfl, rfl⟩ := Prod.mk.inj (some.inj h)
      refine ⟨g.retiring, Run.nil, ?_⟩
      unfold turboFlowPluginGenerationLeaseAcquire
      split
      · exact ⟨hg, rfl⟩
      · exact ⟨⟨hg.entries, hg.settled, hg.detached⟩, rfl⟩
    | leaseRelease =>
      obtain ⟨rfl, rfl⟩ := Prod.mk.inj (some.inj h)
      refine ⟨g.retiring, Run.nil, ?_⟩
      unfold turboFlowPluginGenerationLeaseRelease
      split
      · exact ⟨hg, rfl⟩
      · exact ⟨⟨hg.entries, hg.settled, hg.detached⟩, rfl⟩
    | start answer => exact abstracts_onGraph (observed_start answer) hg h
    | stop nonSource source => exact abstracts_onGraph (observed_stop nonSource source) hg h
    | resizePool answer => exact abstracts_onGraph (observed_resizePool answer) hg h
    | beginOperation j =>
      refine abstracts_onBinding (fun b r hr => ?_) hg h
      obtain rfl := some.inj hr
      unfold OperationBinding.begin
      split
      · rfl
      · split <;> rfl
    | endOperation j =>
      refine abstracts_onBinding (fun b r hr => ?_) hg h
      split at hr
      · cases hr
      obtain rfl := some.inj hr
      rfl
    | reserveProjection j | releaseProjection j => exact abstracts_onProjection hg h

structure Generation.Materialized (g : Generation) : Prop where
  attached : g.flow.isSome = true
  settled : ∀ graph, g.flow = some graph →
    graph.admission ≠ .stopping ∧ graph.admission ≠ .resizing
  owners : ∀ e ∈ g.entries, e.state = .materialized ∧
    ∃ c, e.compiled = some c ∧ c.ownerLive = true ∧ c.ownerValid = true

def Generation.held (g : Generation) : ℕ → Bool :=
  column false OperationBinding.session g.bindings

theorem Generation.Materialized.sound (h : g.Materialized) : g.Sound where
  entries e he := by
    obtain ⟨hstate, c, hcompiled, hlive, hvalid⟩ := h.owners e he
    obtain ⟨name, state, compiled⟩ := e
    obtain rfl : state = .materialized := hstate
    obtain rfl : compiled = some c := hcompiled
    exact Entry.Sound.live (by decide) (by decide) hlive hvalid
  settled := h.settled
  detached hnone := by
    have hsome := h.attached
    rw [hnone] at hsome
    cases hsome

theorem Generation.Materialized.retiring_eq (h : g.Materialized) :
    g.retiring = Retiring.initial g.entries.length g.held g.running := by
  have hprogress : column 4 Entry.progress g.entries =
      fun i => if i < g.entries.length then 0 else 4 := by
    funext i
    unfold column
    cases hi : g.entries[i]? with
    | none =>
      have hlen : g.entries.length ≤ i := List.getElem?_eq_none_iff.mp hi
      simp [Nat.not_lt.mpr hlen]
    | some e =>
      obtain ⟨hlt, -⟩ := List.getElem?_eq_some_iff.mp hi
      obtain ⟨hstate, c, hcompiled, -⟩ := h.owners e (mem_of_getElem? hi)
      simp [hlt, Entry.progress, hstate, hcompiled, OwnerState.rank]
  simp only [retiring, Retiring.initial, hprogress, h.attached, held]

def shown (tr : List (Operation × Reply)) : List Event :=
  tr.flatMap fun e => e.2.events

theorem Generation.Materialized.run_protocol (h : g.Materialized) {tr : List (Operation × Reply)}
    (hrun : Run (Acts act) (some g) tr w) :
    ∃ t, Run Retiring.Step (Retiring.initial g.entries.length g.held g.running) (shown tr) t ∧
      Abstracts w t := by
  have hinitial : Abstracts (some g) (Retiring.initial g.entries.length g.held g.running) :=
    ⟨h.sound, h.retiring_eq⟩
  refine hrun.refine (fun e => e.2.events) hinitial fun _ _ _ _ habs hstep => ?_
  exact refines habs hstep

/-- The events of a retirement are in order: an owner completes quiesce, drain, shutdown and
destroy, in this order and each at most once; a completed callback is not made again; every event
comes after those it requires; and no owner is drained while the Graph has to be stopped. -/
structure InOrder (n : ℕ) (sessions : ℕ → Bool) (running : Bool) (tr : List Event) : Prop where
  lifecycle : ∀ i, completed i tr <+: lifecycle
  not_repeated : ∀ pre c i post, tr = pre ++ .call c i .ok :: post →
    ∀ st, Event.call c i st ∉ post
  ordered : Precedence.Ordered (Requires n sessions) tr
  rests : ∀ pre i st post, tr = pre ++ .call .drain i st :: post → runningAfter running pre = false

theorem inOrder_of_run {n : ℕ} {sessions : ℕ → Bool} {running : Bool} {tr : List Event}
    (h : Run Retiring.Step (Retiring.initial n sessions running) tr t) :
    InOrder n sessions running tr where
  lifecycle i := by
    by_cases hi : i < n
    · rw [(Retiring.records_of_run h).completed_eq i hi]
      exact take_prefix _ _
    have hnone : completed i tr = [] := by
      rw [eq_nil_iff_forall_not_mem]
      intro c hc
      obtain ⟨pre, post, hsplit⟩ := append_of_mem (mem_completed.mp hc)
      exact hi (Retiring.owner_of_split h hsplit)
    rw [hnone]
    exact nil_prefix
  not_repeated _ _ _ _ hsplit st := Retiring.not_repeated h hsplit st
  ordered := Retiring.ordered_of_run h
  rests _ _ _ _ hsplit := by
    obtain ⟨u, hrun, -, hready⟩ := Retiring.turn_of_split h hsplit
    rw [← (Retiring.records_of_run hrun).running_eq]
    exact hready.2

theorem destroy_ok_iff (a : Answers) (g : Generation) :
    (turboFlowPluginGenerationDestroy a g).2.status = .ok ↔
      (flowPluginGenerationRetire a g).failure = none := by
  cases h : (flowPluginGenerationRetire a g).failure with
  | none => simp [turboFlowPluginGenerationDestroy, h]
  | some x =>
    have hstatus : x.status ≠ .ok := failsWith_retire a g x h
    simp [turboFlowPluginGenerationDestroy, h, hstatus]

/-- Over every run of a generation whose providers all materialized valid owners the events are in
order, a destroy call makes no callback while leases are held, and an undisturbed one returns
`SALTS_OK` exactly when the Graph is not stuck: failed with all of its adapters stopped. -/
theorem Generation.Materialized.retires_in_order {g₀ : Generation} (h₀ : g₀.Materialized)
    {tr : List (Operation × Reply)} {w : Option Generation} (hrun : Run (Acts act) (some g₀) tr w) :
    InOrder g₀.entries.length g₀.held g₀.running (shown tr) ∧
      ∀ g, w = some g → ∀ a : Answers,
        (g.leases ≠ 0 → (turboFlowPluginGenerationDestroy a g).2.events = []) ∧
          (a.Quiet → g.Idle →
            ((turboFlowPluginGenerationDestroy a g).2.status = .ok ↔ ¬ g.Stuck)) := by
  obtain ⟨t, hprotocol, habs⟩ := h₀.run_protocol hrun
  refine ⟨inOrder_of_run hprotocol, ?_⟩
  rintro g rfl a
  refine ⟨fun hleases => ?_, fun hquiet hidle => ?_⟩
  swap
  · rw [destroy_ok_iff]
    exact ⟨fun hok hstuck => retire_stuck a habs.1 hstuck hok, fun hstuck =>
      ((follows_retire a g habs.1).completes ⟨hquiet, hidle, hstuck⟩).1⟩
  have hsilent := retire_events_of_leases a hleases
  unfold turboFlowPluginGenerationDestroy
  simp only
  split
  · exact hsilent
  · exact hsilent

@[simp] def pairGeneration : Generation where
  flow := some ⟨.compiled, .closed, false⟩
  failed := false
  state := .compiled
  leases := 0
  pollClosed := false
  providers := some
    [⟨"a", .materialized, some ⟨true, true, true, true, true⟩⟩,
      ⟨"b", .materialized, some ⟨true, true, true, true, true⟩⟩]
  bindings := [⟨true, false, 0, 1⟩]
  materializers := []
  snapshot := true
  domain := true
  cleanupError := none

theorem pairGeneration_materialized : pairGeneration.Materialized :=
  ⟨rfl, by simp, by simp [entries]⟩

def quietAnswers : Answers :=
  ⟨.ok, fun _ => .ok, .ok, .ok, fun _ => .ok, fun _ => .ok, fun _ => .ok, fun _ => ⟨.ok, .ok, .ok⟩,
    fun _ => .ok⟩

theorem quietAnswers_quiet : quietAnswers.Quiet :=
  ⟨rfl, fun _ => rfl, rfl, rfl, fun _ => rfl, fun _ => rfl, fun _ => rfl, fun _ => rfl,
    fun _ => rfl⟩

/-- The first drain of the second owner succeeds and that of the first times out. -/
theorem retires_in_order_pair :
    ∃ tr g, Run (Acts act) (some pairGeneration) tr (some g) ∧
      shown tr = [.start, .call .quiesce 1 .ok, .call .quiesce 0 .ok, .stop .ok,
        .call .drain 1 .ok, .call .drain 0 .etimedout] ∧
      InOrder 2 pairGeneration.held pairGeneration.running (shown tr) ∧
      (turboFlowPluginGenerationDestroy quietAnswers g).2.status = .ok := by
  have hrun : Run (Acts act) (some pairGeneration) _ (some { pairGeneration with
      flow := some ⟨.stopped, .closed, false⟩
      state := .stopped
      pollClosed := true
      providers := some
        [⟨"a", .quiesced, some ⟨true, true, true, true, true⟩⟩,
          ⟨"b", .drained, some ⟨true, true, true, true, true⟩⟩]
      bindings := [⟨true, true, 0, 1⟩]
      cleanupError :=
        some ⟨.etimedout, "$.stages.a.drain", "provider runtime owner drain failed"⟩ }) :=
    @run_of_exec _ _ _ act (some pairGeneration) _ [.start .started,
      .destroy { quietAnswers with drain := fun i => if i = 0 then .etimedout else .ok }] _ rfl
  have hretires := pairGeneration_materialized.retires_in_order hrun
  refine ⟨_, _, hrun, rfl, hretires.1,
    ((hretires.2 _ rfl quietAnswers).2 quietAnswers_quiet ?_).mpr ?_⟩
  · exact ⟨rfl, by simp, by simp [Returned]⟩
  rintro ⟨-, graph, hgraph, hstate, -⟩
  cases hgraph
  cases hstate

/-- A pool resize and its rollback fail and all adapters stop. Every destroy call then fails at the
stop of the Graph, and the owners stay quiesced. -/
theorem failed_resize_not_retired :
    ∃ tr g, pairGeneration.Materialized ∧ Run (Acts act) (some pairGeneration) tr (some g) ∧
      g.Idle ∧ quietAnswers.Quiet ∧
      (turboFlowPluginGenerationDestroy quietAnswers g).2 =
        ⟨.einval, some ⟨.einval, "$.generation.graph.stop", "Graph stop failed"⟩,
          [.call .quiesce 1 .ok, .call .quiesce 0 .ok, .stop .einval]⟩ := by
  have hrun : Run (Acts act) (some pairGeneration) _
      (some { pairGeneration with flow := some ⟨.failed, .closed, false⟩ }) :=
    @run_of_exec _ _ _ act (some pairGeneration) _
      [.start .started, .resizePool (.rollbackFailed .enomem .ok)] _ rfl
  refine ⟨_, _, pairGeneration_materialized, hrun, ?_, quietAnswers_quiet, rfl⟩
  exact ⟨rfl, by simp, by simp [Returned]⟩

end TurboFlow.Plugin
