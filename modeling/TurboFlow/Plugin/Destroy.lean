import TurboFlow.Plugin.Retirement

/-!
# One call of destroy

The last stages of retirement, and the whole call: `follows_retire`. A Graph that failed and has
nothing left to stop cannot be retired (`retire_stuck`): `turbo_flow_stop` refuses it.
-/

namespace TurboFlow.Plugin

open Stages Transition List

/-! ### Owners and leases after the Graph -/

variable {g : Generation} {e : Entry}

theorem Entry.Sound.progress_le (h : e.Sound) : e.progress ≤ 4 := by
  cases h with
  | live materialized before owned valid =>
    simp only [OwnerState.rank_ownerDestroyed] at before
    simp only [Entry.progress]
    omega
  | dead gone | freed rests => exact le_rfl

variable {a : Answers}

theorem follows_ownerDestroy :
    Retires ⟨Detaching, Calm a⟩
      (onProviders flowProviderGenerationOwnerDestroy) ⟨Detached, Calm a⟩ := by
  intro g hg
  have hdetached : ∀ entries : List Entry, (∀ e ∈ entries, e.Sound) →
      (∀ e ∈ entries, Callback.destroy.index < e.progress) →
        Detached { g with providers := some entries } := by
    intro entries hsound hdone
    refine ⟨⟨hsound, fun graph hgraph => ?_, fun _ => ⟨fun e he => ?_, hg.unheld⟩⟩, hg.gone⟩
    · have hnone : g.flow = none := hg.gone
      rw [show g.flow = some graph from hgraph] at hnone
      cases hnone
    · exact Nat.le_antisymm (hsound e he).progress_le (hdone e he)
  cases hp : g.providers with
  | none =>
    have hskip : onProviders flowProviderGenerationOwnerDestroy g = ⟨g, [], none⟩ := by
      rw [onProviders, hp]
    have hempty : g.entries = [] := by simp [Generation.entries, hp]
    rw [hskip]
    refine leads_silent rfl ⟨⟨hg.entries, fun graph hgraph => ?_, fun _ => ⟨?_, hg.unheld⟩⟩,
      hg.gone⟩ id
    · rw [hg.gone] at hgraph
      cases hgraph
    · simp [hempty]
  | some entries =>
    have hpass : onProviders flowProviderGenerationOwnerDestroy g =
        ⟨{ g with providers := some (backward visitOwnerDestroy 0 entries).state }, (backward
          visitOwnerDestroy 0 entries).events, (backward visitOwnerDestroy 0 entries).failure⟩ := by
      rw [onProviders, hp]
      rfl
    have hentries : g.entries = entries := by simp [Generation.entries, hp]
    have hdue : NoneBehind .destroy entries := by
      rw [← hentries]
      exact ⟨hg.entries, hg.due⟩
    have hstart : g.retiring = g.retiring.owning entries := by
      simp [Generation.retiring, Retiring.owning, hentries]
    have hgone : g.flow.isSome = false := by simp [hg.gone]
    obtain ⟨hrun, hbehind, hdone⟩ := run_pass (t := g.retiring) visitOwnerDestroy_visits
      (fun _ _ => hgone) hdue
    have hok : (backward visitOwnerDestroy 0 entries).failure = none := by
      refine pass_failure_eq_none visitOwnerDestroy_visits (fun i e hsound hturn => ?_) hdue
      obtain ⟨e', -, -, heq⟩ := visitOwnerDestroy_of_turn i hsound hturn
      rw [heq]
    rw [hpass]
    refine ⟨?_, absurd hok, fun _ => hdetached _ hbehind.sound (hdone hok),
      fun hcalm => ⟨hok, hcalm⟩⟩
    rw [hstart]
    exact hrun

def Gone (e : Entry) : Prop :=
  e.Sound ∧ e.progress = 4

theorem Gone.cases (h : Gone e) :
    e.compiled = none ∨
      ∃ c, e.compiled = some c ∧ e.state = .ownerDestroyed ∧ c.ownerLive = false := by
  obtain ⟨hsound, hprogress⟩ := h
  cases hsound with
  | live materialized before owned valid =>
    simp only [OwnerState.rank_ownerDestroyed] at before
    simp only [Entry.progress] at hprogress
    omega
  | @dead _ c gone => exact .inr ⟨c, rfl, rfl, gone⟩
  | freed rests => exact .inl rfl

theorem instanceRelease_cases (answers : LeaseAnswers) (h : c.ownerLive = false) :
    (instanceRelease answers c).2 = none ∨
      ∃ c', (instanceRelease answers c).2 = some c' ∧ c'.ownerLive = false := by
  unfold instanceRelease
  simp only
  split
  · exact .inr ⟨_, rfl, by simp [compiledProviderCleanup, h]⟩
  · exact .inl rfl

theorem instanceRelease_ok (h : c.ownerLive = false) :
    (instanceRelease ⟨.ok, .ok, .ok⟩ c).1 = .ok := by
  simp [instanceRelease, compiledProviderCleanup, h, firstFailure]

def IsLease (e : Event) : Prop :=
  ∃ i status, e = .lease i status

structure Releases (answer : ℕ → LeaseAnswers) (r : Releasing) : Prop where
  visited : r.returned = none
  gone : ∀ e ∈ r.entries, Gone e
  leases : ∀ e ∈ r.events, IsLease e
  quiet : (∀ i, answer i = ⟨.ok, .ok, .ok⟩) → r.first = none

theorem releases_entries (answer : ℕ → LeaseAnswers) (i : ℕ) (h : ∀ e ∈ entries, Gone e) :
    Releases answer (releaseEntries answer i entries) := by
  induction entries generalizing i with
  | nil => exact ⟨rfl, by simp [releaseEntries], by simp [releaseEntries], fun _ => rfl⟩
  | cons e es ih =>
    obtain ⟨he, hes⟩ := forall_mem_cons.mp h
    obtain ⟨hvisited, hgone, hleases, hquiet⟩ := ih (i + 1) hes
    rcases he.cases with hfreed | ⟨c, hcompiled, hstate, hlive⟩
    · simp only [releaseEntries, hvisited, hfreed]
      exact ⟨rfl, forall_mem_cons.mpr ⟨he, hgone⟩, hleases, hquiet⟩
    simp only [releaseEntries, hvisited, hcompiled]
    rw [if_neg (by simp [hstate])]
    split
    · rename_i hfailed
      refine ⟨rfl, forall_mem_cons.mpr ⟨?_, hgone⟩, ?_, fun hanswers => ?_⟩
      · rcases instanceRelease_cases (answer i) hlive with hnone | ⟨c', hsome, hlive'⟩
        · rw [hnone]
          exact ⟨Entry.Sound.freed (.inr hstate), rfl⟩
        rw [hsome, hstate]
        exact ⟨Entry.Sound.dead hlive', rfl⟩
      · simp only [forall_mem_append, forall_mem_singleton]
        exact ⟨hleases, i, _, rfl⟩
      · exact absurd (by rw [hanswers i]; exact instanceRelease_ok hlive) hfailed
    refine ⟨rfl, forall_mem_cons.mpr ⟨?_, hgone⟩, ?_, hquiet⟩
    · exact ⟨Entry.Sound.freed (.inl rfl), rfl⟩
    simp only [forall_mem_append, forall_mem_singleton]
    exact ⟨hleases, i, _, rfl⟩

theorem run_leases (hgone : ∀ i, t.progress i = 4) (h : ∀ e ∈ events, IsLease e) :
    Run Retiring.Step t events t := by
  induction events with
  | nil => exact Run.nil
  | cons e events ih =>
    obtain ⟨⟨i, status, rfl⟩, hrest⟩ := forall_mem_cons.mp h
    refine Run.cons_iff.mpr ⟨t, Retiring.Step.lease ?_, ih hrest⟩
    rw [hgone i]
    decide

theorem Generation.retiring_progress (h : ∀ e ∈ g.entries, e.progress = 4) (i : ℕ) :
    g.retiring.progress i = 4 :=
  column_of_forall (P := fun k => k = 4) rfl h i

theorem Detached.gone_entries (h : Detached g) : ∀ e ∈ g.entries, Gone e :=
  fun e he => ⟨h.sound.entries e he, (h.sound.detached h.gone).1 e he⟩

theorem Detached.with_entries (h : Detached g) (hgone : ∀ e ∈ providers.getD [], Gone e) :
    Detached { g with providers := providers } ∧
      { g with providers := providers }.retiring = g.retiring := by
  have hentries : ∀ e ∈ { g with providers := providers }.entries, e.progress = 4 :=
    fun e he => (hgone e he).2
  refine ⟨⟨⟨fun e he => (hgone e he).1, h.sound.settled,
    fun _ => ⟨hentries, (h.sound.detached h.gone).2⟩⟩, h.gone⟩, ?_⟩
  have hprogress : { g with providers := providers }.retiring.progress = g.retiring.progress := by
    funext i
    rw [Generation.retiring_progress hentries,
      Generation.retiring_progress fun e he => (h.gone_entries e he).2]
  exact congrArg (fun progress => { g.retiring with progress := progress }) hprogress

theorem follows_releaseProviders {L : Generation → Prop} (hquiet : ∀ g, L g → a.Quiet)
    (hL : ∀ g providers, L g → L { g with providers := providers }) :
    Retires ⟨Detached, L⟩ (releaseProviders a)
      ⟨Detached, L⟩ := by
  intro g hg
  cases hp : g.providers with
  | none =>
    have hskip : releaseProviders a g = ⟨g, [], none⟩ := by rw [releaseProviders, hp]
    rw [hskip]
    exact leads_silent rfl hg id
  | some entries =>
    have hentries : g.entries = entries := by simp [Generation.entries, hp]
    have hr := releases_entries a.lease 0 (hentries ▸ hg.gone_entries)
    have hrun := run_leases
      (Generation.retiring_progress fun e he => (hg.gone_entries e he).2) hr.leases
    cases hfirst : (releaseEntries a.lease 0 entries).first with
    | some x =>
      have hfail : releaseProviders a g =
          ⟨{ g with providers := some (releaseEntries a.lease 0 entries).entries },
            (releaseEntries a.lease 0 entries).events, some x⟩ := by
        simp [releaseProviders, hp, flowProviderGenerationRelease, hr.visited, hfirst]
      obtain ⟨hdetached, hK⟩ := hg.with_entries
        (show ∀ e ∈ (some (releaseEntries a.lease 0 entries).entries).getD [], Gone e from hr.gone)
      rw [hfail]
      refine ⟨?_, fun _ => hdetached.sound, fun hok => ?_, fun hcalm => ?_⟩
      · rw [hK]
        exact hrun
      · cases hok
      rw [hr.quiet (hquiet g hcalm).lease] at hfirst
      cases hfirst
    | none =>
      have hok : releaseProviders a g =
          ⟨{ g with providers := none }, (releaseEntries a.lease 0 entries).events, none⟩ := by
        simp [releaseProviders, hp, flowProviderGenerationRelease, hr.visited, hfirst]
      obtain ⟨hdetached, hK⟩ := hg.with_entries
        (show ∀ e ∈ (none : Option (List Entry)).getD [], Gone e by simp)
      rw [hok]
      refine ⟨?_, absurd rfl, fun _ => hdetached, fun hcalm => ⟨rfl, hL g none hcalm⟩⟩
      rw [hK]
      exact hrun

/-! ### The whole call -/

theorem Detached.without_bindings {g' : Generation} (h : Detached g) (hflow : g'.flow = g.flow)
    (hfailed : g'.failed = g.failed) (hproviders : g'.providers = g.providers)
    (hbindings : g'.bindings = []) : g'.retiring = g.retiring := by
  have hsession : column false OperationBinding.session g.bindings = fun _ => false := by
    funext k
    exact column_of_forall (P := fun held => held = false) rfl (h.sound.detached h.gone).2 k
  simp only [Generation.retiring, Generation.entries, Generation.running, hflow, hfailed,
    hproviders, hbindings, hsession, Retiring.mk.injEq, true_and, and_true]
  funext k
  simp [column]

theorem follows_retireDetached :
    Retires ⟨Detached, fun g => a.Quiet ∧ g.leases = 0⟩ (retireDetached a)
      ⟨fun _ => True, fun _ => True⟩ := by
  refine Follows.andThen (Q := ⟨Detached, fun _ => a.Quiet⟩)
    (follows_checking (fun _ hg => hg.sound) (fun _ hg => hg) fun g hcalm => ⟨?_, hcalm.1⟩)
    (Follows.andThen (follows_releaseProviders (fun _ h => h) fun _ _ h => h) ?_)
  · simp [checkLeases, hcalm.2]
  exact follows_silently (fun g hg => hg.without_bindings rfl rfl rfl rfl) (fun _ _ => trivial)
    fun _ _ => trivial

theorem follows_retireOwners :
    Retires ⟨fun g => Reached 0 g ∧ True, Stoppable a⟩ (retireOwners a) ⟨Detached, Calm a⟩ := by
  have hstart : Retires ⟨fun g => Reached 0 g ∧ True, Stoppable a⟩
      (silently fun g => { g with pollClosed := true } :
        Generation → Outcome Generation Event ConfigError)
      ⟨fun g => Reached 0 g ∧ True, Stoppable a⟩ :=
    follows_silently (fun _ _ => rfl) (fun g h => ⟨h.1.marked g.state true, h.2⟩) fun _ h => h
  exact hstart.andThen <|
    follows_quiesce.andThen <|
    (follows_state .quiesced (fun _ h => h) fun _ h => h).andThen <|
    follows_stopGraph.andThen <|
    (follows_state .stopped (fun _ h => h) fun _ h => h).andThen <|
    follows_drain.andThen <|
    (follows_state .drained (fun _ h => h) fun _ h => h).andThen <|
    follows_releaseSessions.andThen <|
    follows_shutdown.andThen <|
    (follows_state .shutdown (fun _ h => h) fun _ h => h).andThen <|
    follows_destroyGraph.andThen follows_ownerDestroy

def Undisturbed (a : Answers) (g : Generation) : Prop :=
  a.Quiet ∧ g.Idle ∧ ¬ g.Stuck

theorem stopAndCheck_returned (h : ∀ m ∈ ms, ∀ o, m.owner = some o → o.outstanding = 0) :
    (flowPluginMaterializersStopAndCheck ms).2 = none ∧
      ∀ m ∈ (flowPluginMaterializersStopAndCheck ms).1, ∀ o, m.owner = some o →
        o.outstanding = 0 := by
  induction ms with
  | nil => exact ⟨rfl, by simp [flowPluginMaterializersStopAndCheck]⟩
  | cons m ms ih =>
    obtain ⟨hm, hms⟩ := forall_mem_cons.mp h
    obtain ⟨hok, hreturned⟩ := ih hms
    cases howner : m.owner with
    | none =>
      simp only [flowPluginMaterializersStopAndCheck, howner]
      exact ⟨hok, forall_mem_cons.mpr ⟨hm, hreturned⟩⟩
    | some o =>
      have hzero : o.outstanding = 0 := hm o howner
      simp only [flowPluginMaterializersStopAndCheck, howner]
      rw [if_neg (by simp [hzero])]
      refine ⟨hok, forall_mem_cons.mpr ⟨fun o' ho' => ?_, hreturned⟩⟩
      cases ho'
      exact hzero

theorem discard_ok {context : ℕ → Status} (hcontext : ∀ i, context i = .ok) (i : ℕ)
    (h : ∀ m ∈ ms, ∀ o, m.owner = some o → o.outstanding = 0) :
    flowPluginMaterializersDiscard context i ms = .ok := by
  induction ms generalizing i with
  | nil => rfl
  | cons m ms ih =>
    obtain ⟨hm, hms⟩ := forall_mem_cons.mp h
    rw [flowPluginMaterializersDiscard, ih (i + 1) hms]
    simp only [ne_eq, not_true_eq_false, if_false]
    unfold materializerOwnerDiscard
    split
    · rfl
    rename_i o howner
    rw [if_neg (by simp [hm o howner]), hcontext i]

theorem follows_checks {R : Generation → Prop} {Q : Assertion Generation}
    (hR : ∀ g materializers bindings, R g →
      R { g with materializers := materializers, bindings := bindings })
    {rest : Generation → Outcome Generation Event ConfigError}
    (hrest : Retires ⟨fun g => Reached 0 g ∧ R g, Stoppable a⟩ rest Q) :
    Retires ⟨fun g => Reached 0 g ∧ R g, Undisturbed a⟩
      (andThen (checking (checkBuffers a)) <| andThen stopMaterializers <|
        andThen closeOperations <|
        andThen (checking checkLeases) rest) Q := by
  have hbuffers : Retires ⟨fun g => Reached 0 g ∧ R g, Undisturbed a⟩ (checking (checkBuffers a))
      ⟨fun g => Reached 0 g ∧ R g, Undisturbed a⟩ := by
    refine follows_checking (fun _ h => h.1.sound) (fun _ h => h) fun g h => ⟨?_, h⟩
    simp [checkBuffers, failing, h.1.buffers]
  have hmaterializers : Retires ⟨fun g => Reached 0 g ∧ R g, Undisturbed a⟩ stopMaterializers
      ⟨fun g => Reached 0 g ∧ R g, Undisturbed a⟩ := by
    rintro g ⟨hg, hRg⟩
    have hreached : Reached 0 (stopMaterializers g).state :=
      ⟨⟨hg.sound.entries, hg.sound.settled, hg.sound.detached⟩, hg.attached, hg.due⟩
    refine ⟨Run.nil, fun _ => hreached.sound, fun _ => ⟨hreached, hR g _ g.bindings hRg⟩, ?_⟩
    rintro ⟨hquiet, hidle, hstuck⟩
    obtain ⟨hok, hreturned⟩ := stopAndCheck_returned hidle.projections
    exact ⟨hok, hquiet, ⟨hidle.leases, hidle.operations, hreturned⟩, hstuck⟩
  have hoperations : Retires ⟨fun g => Reached 0 g ∧ R g, Undisturbed a⟩ closeOperations
      ⟨fun g => Reached 0 g ∧ R g, Undisturbed a⟩ := by
    rintro g ⟨hg, hRg⟩
    have hreached : Reached 0 (closeOperations g).state := by
      refine ⟨⟨hg.sound.entries, hg.sound.settled, fun hnone => ?_⟩, hg.attached, hg.due⟩
      have hsome := hg.attached
      rw [show g.flow = none from hnone] at hsome
      cases hsome
    have hK : (closeOperations g).state.retiring = g.retiring := by
      have hsession :
        column false OperationBinding.session (flowPluginOperationsClose g.bindings).2 =
          column false OperationBinding.session g.bindings := by
        funext k
        simp only [column, flowPluginOperationsClose, getElem?_map, Option.map_map]
        rfl
      exact congrArg (fun session => { g.retiring with session := session }) hsession
    refine ⟨?_, fun _ => hreached.sound, fun _ => ⟨hreached, hR g g.materializers _ hRg⟩, ?_⟩
    · rw [hK]
      exact Run.nil
    rintro ⟨hquiet, hidle, hstuck⟩
    refine ⟨?_, hquiet, ⟨hidle.leases, ?_, hidle.projections⟩, hstuck⟩
    · simpa [closeOperations, flowPluginOperationsClose, failing] using hidle.operations
    · simpa [closeOperations, flowPluginOperationsClose] using hidle.operations
  have hleases : Retires ⟨fun g => Reached 0 g ∧ R g, Undisturbed a⟩ (checking checkLeases)
      ⟨fun g => Reached 0 g ∧ R g, Stoppable a⟩ := by
    refine follows_checking (fun _ h => h.1.sound) (fun _ h => h) fun g h => ?_
    exact ⟨by simp [checkLeases, h.2.1.leases], h.1, h.2.1.projections, h.2.2⟩
  exact hbuffers.andThen <| hmaterializers.andThen <| hoperations.andThen <| hleases.andThen hrest

theorem follows_retireAttached :
    Retires ⟨fun g => Reached 0 g ∧ True, Undisturbed a⟩ (retireAttached a)
      ⟨fun _ => True, fun _ => True⟩ := by
  have hdiscard : Retires
      ⟨Detached, Calm a⟩ (discardMaterializers a) ⟨Detached, fun _ => True⟩ := by
    intro g hg
    have hdetached : Detached (discardMaterializers a g).state :=
      ⟨⟨hg.sound.entries, hg.sound.settled, hg.sound.detached⟩, hg.gone⟩
    refine ⟨Run.nil, fun _ => hdetached.sound, fun _ => hdetached, fun hcalm => ⟨?_, trivial⟩⟩
    simp [discardMaterializers, failing, discard_ok hcalm.1.context 0 hcalm.2]
  refine follows_checks (fun _ _ _ h => h) <| follows_retireOwners.andThen <|
    (follows_releaseProviders (fun _ h => h.1) fun _ _ h => h).andThen <| hdiscard.andThen ?_
  exact follows_silently (fun g hg => hg.without_bindings rfl rfl rfl rfl) (fun _ _ => trivial)
    fun _ _ => trivial

theorem follows_retire (a : Answers) :
    Retires ⟨Generation.Sound, Undisturbed a⟩ (flowPluginGenerationRetire a)
      ⟨fun _ => True, fun _ => True⟩ := by
  intro g hg
  cases hflow : g.flow with
  | none =>
    have heq : flowPluginGenerationRetire a g = retireDetached a g := by
      simp only [flowPluginGenerationRetire, hflow]
    have hleads := follows_retireDetached (a := a) g ⟨hg, hflow⟩
    rw [heq]
    exact ⟨hleads.run, hleads.fails, hleads.succeeds,
      fun hcalm => hleads.completes ⟨hcalm.1, hcalm.2.1.leases⟩⟩
  | some graph =>
    have heq : flowPluginGenerationRetire a g = retireAttached a g := by
      simp only [flowPluginGenerationRetire, hflow]
    rw [heq]
    exact follows_retireAttached g ⟨⟨hg, by simp [hflow], fun _ _ => Nat.zero_le _⟩, trivial⟩

/-! ### Graphs that cannot be stopped -/

theorem follows_stopGraph_stuck :
    Retires
      ⟨fun g => Reached 1 g ∧ g.Stuck, Stoppable a⟩ (stopGraph a) ⟨fun _ => False, Calm a⟩ := by
  rintro g ⟨hg, hfailed, graph, hgraph, hstate, hretry⟩
  have hrefuse : stopGraph a g =
      ⟨{ g with flow := some graph }, [.stop .einval],
        some (generationError .einval "$.generation.graph.stop" "Graph stop failed")⟩ := by
    rw [stopGraph, hgraph]
    simp only [hfailed, Graph.live, hstate, decide_true, Bool.or_true, and_self, if_true,
      turboFlowStop, (hg.sound.settled graph hgraph).1, hretry, if_false]
    rfl
  have hsame : { g with flow := some graph } = g := by rw [← hgraph]
  rw [hrefuse, hsame]
  refine ⟨Run.single_iff.mpr (Retiring.Step.stopFailed (by decide)), fun _ => hg.sound,
    fun hok => ?_, fun hcalm => ?_⟩
  · cases hok
  · exact absurd ⟨hfailed, graph, hgraph, hstate, hretry⟩ hcalm.2.2

theorem retire_stuck (a : Answers) (hg : g.Sound) (hstuck : g.Stuck) :
    (flowPluginGenerationRetire a g).failure ≠ none := by
  have hstart : Retires ⟨fun g => Reached 0 g ∧ g.Stuck, Stoppable a⟩
      (silently fun g => { g with pollClosed := true } :
        Generation → Outcome Generation Event ConfigError)
      ⟨fun g => Reached 0 g ∧ g.Stuck, Stoppable a⟩ :=
    follows_silently (fun _ _ => rfl) (fun g h => ⟨h.1.marked g.state true, h.2⟩) fun _ h => h
  have hquiesce : Retires ⟨fun g => Reached 0 g ∧ g.Stuck, Stoppable a⟩
      (onProviders (flowProviderGenerationQuiesce a.quiesce))
      ⟨fun g => Reached 1 g ∧ g.Stuck, Stoppable a⟩ :=
    follows_onProviders (quiescing_regular.visits a.quiesce) (fun _ _ h => h) (fun _ _ h => h)
      (fun _ _ _ => trivial) fun _ hcalm => Phase.visit_ok quiescing_regular hcalm.1.quiesce
  have howners : Retires
      ⟨fun g => Reached 0 g ∧ g.Stuck, Stoppable a⟩ (retireOwners a) ⟨fun _ => False, Calm a⟩ :=
    hstart.andThen <| hquiesce.andThen <|
      (follows_state .quiesced (fun _ h => h) fun _ h => h).andThen <|
      follows_stopGraph_stuck.andThen fun _ h => absurd h id
  have hattached : Retires ⟨fun g => Reached 0 g ∧ g.Stuck, Undisturbed a⟩ (retireAttached a)
      ⟨fun _ => False, fun _ => True⟩ :=
    follows_checks (fun _ _ _ h => h) (howners.andThen fun _ h => absurd h id)
  obtain ⟨-, graph, hgraph, -⟩ := id hstuck
  have heq : flowPluginGenerationRetire a g = retireAttached a g := by
    simp only [flowPluginGenerationRetire, hgraph]
  rw [heq]
  exact (hattached g ⟨⟨hg, by simp [hgraph], fun _ _ => Nat.zero_le _⟩, hstuck⟩).succeeds

/-! ### Leases and statuses -/

theorem retire_events_of_leases (a : Answers) (hleases : g.leases ≠ 0) :
    (flowPluginGenerationRetire a g).events = [] := by
  have hcheck : ∀ (g : Generation) (rest : Generation → Outcome Generation Event ConfigError),
      g.leases ≠ 0 → (andThen (checking checkLeases) rest g).events = [] := by
    intro g rest hg
    refine andThen_events_eq_nil rfl fun hok => ?_
    simp [checking, checkLeases, hg] at hok
  unfold flowPluginGenerationRetire
  split
  · exact hcheck g _ hleases
  refine andThen_events_eq_nil rfl fun _ => ?_
  refine andThen_events_eq_nil rfl fun _ => ?_
  refine andThen_events_eq_nil rfl fun _ => ?_
  exact hcheck _ _ hleases

/-- A failure has a status that is not `SALTS_OK`. -/
def Failed (x : ConfigError) : Prop :=
  x.status ≠ .ok

theorem failed_failing (h : failing status path message = some x) : Failed x := by
  unfold failing at h
  split at h
  · rename_i hne
    cases h
    exact hne
  · cases h

theorem failsWith_onProviders {pass : List Entry → Outcome (List Entry) Event ConfigError}
    (h : FailsWith Failed pass) : FailsWith Failed (onProviders pass) := by
  intro g x hx
  unfold onProviders at hx
  split at hx
  · cases hx
  · exact h _ x hx

theorem Phase.failsWith_visit (p : Phase) (answer : ℕ → Status) (i : ℕ) :
    FailsWith Failed (p.visit answer i) := by
  intro e x hx
  unfold Phase.visit at hx
  split at hx
  · cases hx
  split at hx
  · cases hx
    simp [Failed]
  split at hx
  · cases hx
  split at hx
  · rename_i hne
    cases hx
    exact hne
  · cases hx

theorem failsWith_visitOwnerDestroy (i : ℕ) : FailsWith Failed (visitOwnerDestroy i) := by
  intro e x hx
  unfold visitOwnerDestroy at hx
  split at hx
  · cases hx
  split at hx
  · cases hx
    simp [Failed]
  split at hx
  · cases hx
    simp [Failed]
  simp only at hx
  split at hx
  · rename_i hne
    cases hx
    exact hne
  · cases hx

theorem failsWith_visitSession (answer : ℕ → Status) (j : ℕ) :
    FailsWith Failed (visitSession answer j) := by
  intro b x hx
  unfold visitSession at hx
  split at hx
  · cases hx
  split at hx
  · rename_i hne
    cases hx
    exact hne
  · cases hx

theorem releaseEntries_failed (answer : ℕ → LeaseAnswers) (i : ℕ) (entries : List Entry) :
    (∀ x, (releaseEntries answer i entries).first = some x → Failed x) ∧
      ∀ x, (releaseEntries answer i entries).returned = some x → Failed x := by
  induction entries generalizing i with
  | nil => simp [releaseEntries]
  | cons e es ih =>
    obtain ⟨hfirst, hreturned⟩ := ih (i + 1)
    unfold releaseEntries
    simp only
    split
    · exact ⟨hfirst, hreturned⟩
    · exact ⟨hfirst, hreturned⟩
    split
    · refine ⟨hfirst, fun x hx => ?_⟩
      cases hx
      simp [Failed]
    split
    · rename_i hne
      refine ⟨fun x hx => ?_, by simp⟩
      rcases Option.or_eq_some_iff.mp hx with hx | ⟨-, hx⟩
      · exact hfirst x hx
      cases hx
      exact hne
    · exact ⟨hfirst, hreturned⟩

theorem failsWith_releaseProviders (a : Answers) : FailsWith Failed (releaseProviders a) := by
  intro g x hx
  unfold releaseProviders at hx
  split at hx
  · cases hx
  rename_i entries _
  simp only [flowProviderGenerationRelease] at hx
  split at hx
  · rename_i failure hfailure
    cases hx
    obtain ⟨hfirst, hreturned⟩ := releaseEntries_failed a.lease 0 entries
    rcases Option.or_eq_some_iff.mp hfailure with h | ⟨-, h⟩
    · exact hreturned _ h
    · exact hfirst _ h
  · cases hx

section Busy

variable {X : ConfigError → Prop} (h : ∀ x, x.status = .ebusy → X x)
include h

theorem failsWith_checkLeases :
    FailsWith X (checking checkLeases : Generation → Outcome Generation Event ConfigError) := by
  intro g x hx
  simp only [checking, checkLeases] at hx
  split at hx
  · cases hx
    exact h _ rfl
  · cases hx

theorem failsWith_stopMaterializers : FailsWith X stopMaterializers := by
  intro g x hx
  simp only [stopMaterializers] at hx
  generalize g.materializers = ms at hx
  induction ms with
  | nil => cases hx
  | cons m ms ih =>
    unfold flowPluginMaterializersStopAndCheck at hx
    split at hx
    · exact ih hx
    simp only at hx
    split at hx
    · cases hx
      exact h _ rfl
    · exact ih hx

end Busy

theorem failsWith_stopGraph (a : Answers) : FailsWith Failed (stopGraph a) := by
  intro g x hx
  unfold stopGraph at hx
  split at hx
  · cases hx
  split at hx
  · exact failed_failing hx
  · cases hx

theorem failsWith_retire (a : Answers) : FailsWith Failed (flowPluginGenerationRetire a) := by
  have hbusy : ∀ x : ConfigError, x.status = .ebusy → Failed x := fun x hx => by simp [Failed, hx]
  have hdetached : FailsWith Failed (retireDetached a) :=
    (failsWith_checkLeases hbusy).andThen <|
      (failsWith_releaseProviders a).andThen (failsWith_silently _)
  have howners : FailsWith Failed (retireOwners a) :=
    (failsWith_silently _).andThen <|
    (failsWith_onProviders (FailsWith.backward (quiescing.failsWith_visit _) 0)).andThen <|
    (failsWith_silently _).andThen <|
    (failsWith_stopGraph a).andThen <|
    (failsWith_silently _).andThen <|
    (failsWith_onProviders (FailsWith.backward (draining.failsWith_visit _) 0)).andThen <|
    (failsWith_silently _).andThen <|
    (FailsWith.andThen (fun g x hx =>
      FailsWith.backward (failsWith_visitSession a.session) 0 g.bindings x hx) <|
    (failsWith_onProviders (FailsWith.backward (shuttingDown.failsWith_visit _) 0)).andThen <|
    (failsWith_silently _).andThen <|
    FailsWith.andThen (fun _ _ hx => by cases hx) <|
    failsWith_onProviders (FailsWith.backward failsWith_visitOwnerDestroy 0))
  have hattached : FailsWith Failed (retireAttached a) :=
    FailsWith.andThen (fun _ _ hx => failed_failing hx) <|
    (failsWith_stopMaterializers hbusy).andThen <|
    FailsWith.andThen (fun _ _ hx => failed_failing hx) <|
    (failsWith_checkLeases hbusy).andThen <|
    howners.andThen <|
    (failsWith_releaseProviders a).andThen <|
    FailsWith.andThen (fun _ _ hx => failed_failing hx) (failsWith_silently _)
  intro g x hx
  unfold flowPluginGenerationRetire at hx
  split at hx
  · exact hdetached g x hx
  · exact hattached g x hx

end TurboFlow.Plugin
