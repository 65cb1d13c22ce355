import TurboFlow.Plugin.Owners

/-!
# A call of destroy follows the protocol

`Generation.retiring` is what the protocol sees of a generation. Every stage of
`flow_plugin_generation_retire` follows the protocol from what the stages before it establish; the
calm half of the conditions is what it takes for the call to succeed.
-/

namespace TurboFlow.Plugin

open Stages Transition Retiring

def Generation.entries (g : Generation) : List Entry :=
  g.providers.getD []

def Generation.running (g : Generation) : Bool :=
  match g.flow with
  | none => false
  | some graph => !g.failed && graph.live

def Generation.retiring (g : Generation) : Retiring where
  progress := column 4 Entry.progress g.entries
  session := column false OperationBinding.session g.bindings
  graph := g.flow.isSome
  running := g.running

def Generation.Unheld (g : Generation) : Prop :=
  ∀ b ∈ g.bindings, b.session = false

/-- What holds between two calls: the Graph is not in a stop or a resize, and is gone only with all
sessions released and all owners destroyed. -/
structure Generation.Sound (g : Generation) : Prop where
  entries : ∀ e ∈ g.entries, e.Sound
  settled : ∀ graph, g.flow = some graph →
    graph.admission ≠ .stopping ∧ graph.admission ≠ .resizing
  detached : g.flow = none → (∀ e ∈ g.entries, e.progress = 4) ∧ g.Unheld

/-- `turbo_flow_stop` refuses the Graph for good: it failed, and its adapters are stopped
already. -/
def Generation.Stuck (g : Generation) : Prop :=
  g.failed = false ∧
    ∃ graph, g.flow = some graph ∧ graph.state = .failed ∧ graph.adapterStopRetryable = false

def Generation.Returned (g : Generation) : Prop :=
  ∀ m ∈ g.materializers, ∀ o, m.owner = some o → o.outstanding = 0

structure Generation.Idle (g : Generation) : Prop where
  leases : g.leases = 0
  operations : ∀ b ∈ g.bindings, b.inFlight = 0
  projections : g.Returned

/-! ### The Graph -/

theorem turboFlowStop_cases (nonSource source : Status) (graph : Graph) :
    turboFlowStop nonSource source graph = (.ok, ⟨.stopped, .closed, false⟩) ∨
      ∃ status, status ≠ .ok ∧
        (turboFlowStop nonSource source graph = (status, graph) ∨
          (graph.live = true ∧
            turboFlowStop nonSource source graph = (status, ⟨.failed, .closed, true⟩))) := by
  unfold turboFlowStop
  split
  · exact .inr ⟨.ebusy, by decide, .inl rfl⟩
  split
  · exact .inr ⟨.einval, by decide, .inl rfl⟩
  rename_i hstate
  split
  · exact .inr ⟨.ebusy, by decide, .inl rfl⟩
  simp only
  generalize (if nonSource ≠ .ok then nonSource else source) = status
  by_cases hok : status = .ok
  · exact .inl (by rw [if_neg (by simp [hok])])
  refine .inr ⟨status, hok, .inr ⟨?_, by rw [if_pos hok]⟩⟩
  simp only [Graph.live, Bool.or_eq_true, decide_eq_true_eq]
  tauto

theorem turboFlowStop_live (nonSource source : Status) (graph : Graph) :
    (turboFlowStop nonSource source graph).2.live =
      if (turboFlowStop nonSource source graph).1 = .ok then false else graph.live := by
  rcases turboFlowStop_cases nonSource source graph with h | ⟨st, hst, h | ⟨hlive, h⟩⟩
  · rw [h]
    rfl
  · rw [h, if_neg hst]
  rw [h, if_neg hst, hlive]
  rfl

variable {graph : Graph} {p : ℕ} {L R : Generation → Prop} {g : Generation}

theorem turboFlowStop_admission (nonSource source : Status)
    (hgraph : graph.admission ≠ .stopping ∧ graph.admission ≠ .resizing) :
    (turboFlowStop nonSource source graph).2.admission ≠ .stopping ∧
      (turboFlowStop nonSource source graph).2.admission ≠ .resizing := by
  rcases turboFlowStop_cases nonSource source graph with h | ⟨st, hst, h | ⟨hlive, h⟩⟩
  · simp [h]
  · rw [h]
    exact hgraph
  · simp [h]

theorem turboFlowStop_ok (h : graph.admission ≠ .stopping ∧ graph.admission ≠ .resizing)
    (hstate : graph.state = .started ∨
      (graph.state = .failed ∧ graph.adapterStopRetryable = true)) :
    (turboFlowStop .ok .ok graph).1 = .ok := by
  unfold turboFlowStop
  rw [if_neg h.1, if_neg (by tauto), if_neg h.2]
  simp

/-! ### Conditions between the stages -/

/-- The generation has its Graph, and every owner has completed `p` callbacks. -/
structure Reached (p : ℕ) (g : Generation) : Prop where
  sound : g.Sound
  attached : g.flow.isSome = true
  due : ∀ e ∈ g.entries, p ≤ e.progress

structure Detaching (g : Generation) : Prop where
  entries : ∀ e ∈ g.entries, e.Sound
  gone : g.flow = none
  due : ∀ e ∈ g.entries, 3 ≤ e.progress
  unheld : g.Unheld

structure Detached (g : Generation) : Prop where
  sound : g.Sound
  gone : g.flow = none

/-- The rule for the stages of the retirement: their events are steps of the protocol. -/
abbrev Retires (P : Assertion Generation)
    (f : Generation → Outcome Generation Event ConfigError) (Q : Assertion Generation) : Prop :=
  Follows Step Generation.retiring Generation.Sound P f Q

theorem Reached.with_owners (h : Reached p g) (hsound : ∀ e ∈ entries, e.Sound)
    (hdue : ∀ e ∈ entries, q ≤ e.progress) : Reached q { g with providers := some entries } where
  sound :=
    { entries := hsound
      settled := h.sound.settled
      detached := fun hnone => by
        have hsome := h.attached
        rw [show g.flow = none from hnone] at hsome
        cases hsome }
  attached := h.attached
  due := hdue

theorem follows_onProviders {c : Callback} {f : ℕ → Entry → Outcome Entry Event ConfigError}
    (hf : Visits c f) (hR : ∀ g entries, R g → R { g with providers := some entries })
    (hL : ∀ g entries, L g → L { g with providers := some entries })
    (hready : ∀ g, R g → (∀ j, c.index ≤ g.retiring.progress j) → g.retiring.Ready c)
    (hok : ∀ g, L g → ∀ i e, e.Sound → e.progress = c.index → (f i e).failure = none) :
    Retires ⟨fun g => Reached c.index g ∧ R g, L⟩ (onProviders (backward f 0))
      ⟨fun g => Reached (c.index + 1) g ∧ R g, L⟩ := by
  rintro g ⟨hreached, hRg⟩
  cases hp : g.providers with
  | none =>
    have hskip : onProviders (backward f 0) g = ⟨g, [], none⟩ := by rw [onProviders, hp]
    have hempty : g.entries = [] := by simp [Generation.entries, hp]
    rw [hskip]
    refine leads_silent rfl ⟨⟨hreached.sound, hreached.attached, ?_⟩, hRg⟩ id
    simp [hempty]
  | some entries =>
    have hpass : onProviders (backward f 0) g =
        ⟨{ g with providers := some (backward f 0 entries).state },
          (backward f 0 entries).events, (backward f 0 entries).failure⟩ := by
      rw [onProviders, hp]
    have hentries : g.entries = entries := by simp [Generation.entries, hp]
    have hdue : NoneBehind c entries := by
      rw [← hentries]
      exact ⟨hreached.sound.entries, hreached.due⟩
    have hstart : g.retiring = g.retiring.owning entries := by
      simp [Generation.retiring, owning, hentries]
    obtain ⟨hrun, hbehind, hdone⟩ := run_pass (t := g.retiring) hf
      (fun es hes => hready _ (hR g es hRg) fun j =>
        column_of_forall (Nat.le_of_lt c.index_lt) hes.due j) hdue
    rw [hpass]
    constructor
    · rw [hstart]
      exact hrun
    · exact fun _ => (hreached.with_owners hbehind.sound hbehind.due).sound
    · exact fun hsucc => ⟨hreached.with_owners hbehind.sound (hdone hsucc), hR g _ hRg⟩
    · exact fun hLg => ⟨pass_failure_eq_none hf (hok g hLg) hdue, hL g _ hLg⟩

section Stages

variable (a : Answers)

def Stoppable (g : Generation) : Prop :=
  a.Quiet ∧ g.Returned ∧ ¬ g.Stuck

def Calm (g : Generation) : Prop :=
  a.Quiet ∧ g.Returned

variable {a}

theorem Phase.visit_ok {p : Phase} (h : p.Regular) (hok : ∀ i, answer i = .ok) (i : ℕ) (e : Entry)
    (hsound : e.Sound) (hturn : e.progress = p.callback.index) :
    (p.visit answer i e).failure = none := by
  rcases (h.visits answer).turn i e hsound hturn with ⟨e', -, -, heq⟩ | ⟨st, x, hst, heq⟩
  · rw [heq]
  have hindex := h.index_le
  obtain ⟨c, -, hprepared, hrank, -, -⟩ := hsound.of_progress_lt (by omega)
  unfold Phase.visit
  rw [if_neg hprepared, h.misses_eq_none (by omega)]
  simp [hok i]
  split <;> rfl

theorem follows_quiesce :
    Retires ⟨fun g => Reached 0 g ∧ True, Stoppable a⟩
      (onProviders (flowProviderGenerationQuiesce a.quiesce))
      ⟨fun g => Reached 1 g ∧ True, Stoppable a⟩ :=
  follows_onProviders (quiescing_regular.visits a.quiesce) (fun _ _ h => h) (fun _ _ h => h)
    (fun _ _ _ => trivial) fun _ hcalm => Phase.visit_ok quiescing_regular hcalm.1.quiesce

theorem follows_drain :
    Retires ⟨fun g => Reached 1 g ∧ g.running = false, Calm a⟩
      (onProviders (flowProviderGenerationDrain a.drain))
      ⟨fun g => Reached 2 g ∧ g.running = false, Calm a⟩ :=
  follows_onProviders (draining_regular.visits a.drain) (fun _ _ h => h) (fun _ _ h => h)
    (fun _ hrests hdue => ⟨hdue, hrests⟩) fun _ hcalm =>
      Phase.visit_ok draining_regular hcalm.1.drain

theorem follows_shutdown :
    Retires ⟨fun g => Reached 2 g ∧ g.running = false ∧ g.Unheld, Calm a⟩
      (onProviders (flowProviderGenerationShutdown a.shutdown))
      ⟨fun g => Reached 3 g ∧ g.running = false ∧ g.Unheld, Calm a⟩ :=
  follows_onProviders (shuttingDown_regular.visits a.shutdown) (fun _ _ h => h) (fun _ _ h => h)
    (fun _ hR hdue => ⟨hdue, column_of_forall (P := fun held => held = false) rfl hR.2⟩)
    fun _ hcalm => Phase.visit_ok shuttingDown_regular hcalm.1.shutdown

theorem Reached.marked (h : Reached p g) (state : GenerationState) (pollClosed : Bool) :
    Reached p { g with state := state, pollClosed := pollClosed } :=
  ⟨⟨h.sound.entries, h.sound.settled, h.sound.detached⟩, h.attached, h.due⟩

theorem follows_state (state : GenerationState) (hR : ∀ g, R g → R { g with state := state })
    (hL : ∀ g, L g → L { g with state := state }) :
    Retires ⟨fun g => Reached p g ∧ R g, L⟩
      (silently fun g => { g with state := state } : Generation →
        Outcome Generation Event ConfigError)
      ⟨fun g => Reached p g ∧ R g, L⟩ :=
  follows_silently (fun _ _ => rfl) (fun g h => ⟨h.1.marked state g.pollClosed, hR g h.2⟩) hL

theorem follows_stopGraph :
    Retires ⟨fun g => Reached 1 g ∧ True, Stoppable a⟩ (stopGraph a)
      ⟨fun g => Reached 1 g ∧ g.running = false, Calm a⟩ := by
  rintro g ⟨hg, -⟩
  obtain ⟨graph, hgraph⟩ := Option.isSome_iff_exists.mp hg.attached
  by_cases hlive : g.failed = false ∧ graph.live = true
  · have hstop : stopGraph a g =
        ⟨{ g with flow := some (turboFlowStop a.nonSource a.source graph).2 },
          [.stop (turboFlowStop a.nonSource a.source graph).1],
          failing (turboFlowStop a.nonSource a.source graph).1 "$.generation.graph.stop"
            "Graph stop failed"⟩ := by
      rw [stopGraph, hgraph]
      exact if_pos hlive
    have hreached : Reached 1
        { g with flow := some (turboFlowStop a.nonSource a.source graph).2 } := by
      refine ⟨⟨hg.sound.entries, fun graph' hgraph' => ?_, fun hnone => ?_⟩, rfl, hg.due⟩
      · cases hgraph'
        exact turboFlowStop_admission _ _ (hg.sound.settled graph hgraph)
      · cases hnone
    have hrunning := turboFlowStop_live a.nonSource a.source graph
    rw [hstop]
    constructor
    · by_cases hok : (turboFlowStop a.nonSource a.source graph).1 = .ok
      · have hnext : { g with flow := some (turboFlowStop a.nonSource a.source graph).2 }.retiring =
            { g.retiring with running := false } := by
          simp [Generation.retiring, Generation.running, Generation.entries, hgraph, hrunning, hok]
        simp only [hnext, hok]
        exact Run.single_iff.mpr Step.stopped
      have hnext : { g with flow := some (turboFlowStop a.nonSource a.source graph).2 }.retiring =
          g.retiring := by
        simp [Generation.retiring, Generation.running, Generation.entries, hgraph, hrunning, hok]
      simp only [hnext]
      exact Run.single_iff.mpr (Step.stopFailed hok)
    · exact fun _ => hreached.sound
    · intro hok
      have hstatus : (turboFlowStop a.nonSource a.source graph).1 = .ok := by
        by_contra hne
        simp [failing, hne] at hok
      refine ⟨hreached, ?_⟩
      simp [Generation.running, hrunning, hstatus]
    rintro ⟨hquiet, hreturned, hstuck⟩
    have hstate : graph.state = .started ∨
        (graph.state = .failed ∧ graph.adapterStopRetryable = true) := by
      have hor : graph.state = .started ∨ graph.state = .failed := by
        simpa [Graph.live] using hlive.2
      refine hor.imp_right fun hfailed => ⟨hfailed, ?_⟩
      by_contra hretry
      exact hstuck ⟨hlive.1, graph, hgraph, hfailed, by simpa using hretry⟩
    simp only [hquiet.nonSource, hquiet.source,
      turboFlowStop_ok (hg.sound.settled graph hgraph) hstate]
    exact ⟨rfl, hquiet, hreturned⟩
  have hskip : stopGraph a g = ⟨g, [], none⟩ := by
    rw [stopGraph, hgraph]
    exact if_neg hlive
  have hrests : g.running = false := by
    simp only [Generation.running, hgraph]
    cases hfailed : g.failed with
    | true => rfl
    | false =>
      rw [hfailed] at hlive
      simpa using hlive
  rw [hskip]
  exact leads_silent rfl ⟨hg, hrests⟩ fun hcalm => ⟨hcalm.1, hcalm.2.1⟩

theorem visitSession_unheld (hok : (visitSession answer j b).failure = none) :
    (visitSession answer j b).state.session = false := by
  unfold visitSession at hok ⊢
  split at hok
  · rename_i hfree
    rw [if_pos hfree]
    exact hfree
  rename_i hheld
  split at hok
  · cases hok
  rename_i hanswer
  rw [if_neg hheld, if_neg hanswer]

theorem visitSession_ok (h : answer j = .ok) : (visitSession answer j b).failure = none := by
  unfold visitSession
  split
  · rfl
  · rw [if_neg (by simp [h])]

theorem run_visitSession (g : Generation) (pre : List OperationBinding) (b : OperationBinding)
    (post : List OperationBinding) :
    Run Step { g with bindings := pre ++ b :: post }.retiring
      (visitSession answer pre.length b).events
      { g with bindings := pre ++ (visitSession answer pre.length b).state :: post }.retiring := by
  unfold visitSession
  split
  · exact Run.nil
  split
  · rename_i hfailed
    exact Run.single_iff.mpr (Step.releaseFailed hfailed)
  have hnext : { g with bindings := pre ++ { b with session := false } :: post }.retiring =
      { { g with bindings := pre ++ b :: post }.retiring with
        session := Function.update
          { g with bindings := pre ++ b :: post }.retiring.session pre.length false } := by
    simp only [Generation.retiring, mk.injEq, true_and]
    exact ⟨rfl, column_replace, rfl⟩
  rw [hnext]
  exact Run.single_iff.mpr Step.released

theorem follows_releaseSessions :
    Retires ⟨fun g => Reached 2 g ∧ g.running = false, Calm a⟩ (releaseSessions a)
      ⟨fun g => Reached 2 g ∧ g.running = false ∧ g.Unheld, Calm a⟩ := by
  rintro g ⟨hg, hrests⟩
  obtain ⟨hrun, -, hdone⟩ :
      Run Step g.retiring (releaseSessions a g).events (releaseSessions a g).state.retiring ∧
        True ∧ ((releaseSessions a g).failure = none →
          ∀ b ∈ (releaseSessions a g).state.bindings, b.session = false) := by
    have hvisit : ∀ (pre : List OperationBinding) (b : OperationBinding)
        (post : List OperationBinding), True → (∀ b' ∈ post, b'.session = false) →
          Run Step { g with bindings := pre ++ b :: post }.retiring
              (visitSession a.session pre.length b).events
              { g with
                bindings := pre ++ (visitSession a.session pre.length b).state :: post }.retiring ∧
            True ∧ ((visitSession a.session pre.length b).failure = none →
              (visitSession a.session pre.length b).state.session = false) :=
      fun pre b post _ _ => ⟨run_visitSession g pre b post, trivial, visitSession_unheld⟩
    exact run_backward (K := fun bs => { g with bindings := bs }.retiring) (C := fun _ => True)
      hvisit trivial
  have hreached : Reached 2 (releaseSessions a g).state := by
    refine ⟨⟨hg.sound.entries, hg.sound.settled, fun hnone => ?_⟩, hg.attached, hg.due⟩
    have hsome := hg.attached
    rw [show g.flow = none from hnone] at hsome
    cases hsome
  refine ⟨hrun, fun _ => hreached.sound, fun hok => ⟨hreached, hrests, hdone hok⟩, ?_⟩
  rintro ⟨hquiet, hreturned⟩
  exact ⟨backward_failure_eq_none (fun j b _ => visitSession_ok (hquiet.session j)) 0, hquiet,
    hreturned⟩

theorem follows_destroyGraph :
    Retires ⟨fun g => Reached 3 g ∧ g.running = false ∧ g.Unheld, Calm a⟩ destroyGraph
      ⟨Detaching, Calm a⟩ := by
  rintro g ⟨hg, hrests, hunheld⟩
  have hnext : (destroyGraph g).state.retiring = { g.retiring with graph := false } := by
    simp only [destroyGraph, Generation.retiring, hrests]
    rfl
  refine ⟨?_, absurd rfl, fun _ => ⟨hg.sound.entries, rfl, hg.due, hunheld⟩,
    fun hcalm => ⟨rfl, hcalm⟩⟩
  rw [hnext]
  refine Run.single_iff.mpr (Step.destroyed hrests fun j => ?_)
  exact column_of_forall (by decide) hg.due j

end Stages

end TurboFlow.Plugin
