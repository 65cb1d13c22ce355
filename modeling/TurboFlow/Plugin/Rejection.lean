import TurboFlow.Plugin.Destroy

/-!
# Owners that fail the contract check

A provider may return `SALTS_OK` with an owner that fails the contract check. The owner is recorded
in the compiled instance only: retirement passes over its entry, retires the owners in front of it
and destroys the Graph before the release of the instance is refused.
-/

namespace TurboFlow.Plugin

open Stages List Option

/-- What the `materialize` of a provider returns: an error, or an owner that meets the contract or
not. -/
inductive MaterializeAnswer
  | failed (status : Status) (h : status ≠ .ok)
  | owner (valid : Bool)

def instanceMaterialize (answer : MaterializeAnswer) (c : Instance) : Status × Instance :=
  if c.providerBinding = false then (.einval, c)
  else if c.ownerLive = true then (.ealready, c)
  else
    match answer with
    | .failed status _ => (status, c)
    | .owner valid =>
      (if valid then .ok else .eproto, { c with ownerLive := true, ownerValid := valid })

def flowProviderGenerationMaterialize (answer : ℕ → MaterializeAnswer) (i : ℕ) :
    List Entry → Status × List Entry
  | [] => (.ok, [])
  | e :: es =>
    match e.compiled with
    | none => (.eproto, e :: es)
    | some c =>
      let rest := flowProviderGenerationMaterialize answer (i + 1) es
      let r := instanceMaterialize (answer i) c
      if OwnerState.rank .materialized ≤ e.state.rank then (rest.1, e :: rest.2)
      else if r.1 ≠ .ok then (r.1, { e with compiled := some r.2 } :: es)
      else (rest.1, { e with compiled := some r.2, state := .materialized } :: rest.2)

/-- The generation of `turbo_flow_plugin_generation_create` when a provider has failed, before its
cleanup. -/
def Generation.rejected (answer : ℕ → MaterializeAnswer) (entries : List Entry) (g : Generation) :
    Generation :=
  { g with
    providers := some (flowProviderGenerationMaterialize answer 0 entries).2
    failed := true
    state := .failedCleanup }

def Entry.Prepared (e : Entry) : Prop :=
  e.state = .prepared ∧ ∃ c, e.compiled = some c ∧ c.providerBinding = true ∧ c.ownerLive = false

/-- What retirement reads of a generation whose providers were not all materialized; no session is
open. -/
structure Generation.Rejected (g : Generation) (entries : List Entry) : Prop where
  flow : g.flow ≠ none
  failed : g.failed = true
  providers : g.providers = some entries
  entries : ∀ e ∈ entries, e.state = .prepared ∨ e.state = .materialized
  sessions : ∀ b ∈ g.bindings, b.session = false

/-- What the header promises of a destroy call: `SALTS_EINVAL`, without a callback, and Graph,
result domain, modules and providers stay. -/
structure Pinned (g : Generation) (r : Option Generation × Reply) : Prop where
  status : r.2.status = .einval
  events : r.2.events = []
  kept : ∃ g', r.1 = some g' ∧ g'.flow = g.flow ∧ g'.domain = g.domain ∧ g'.snapshot = g.snapshot ∧
    g'.providers = g.providers

/-- The promise, for the calls of destroy one after the other. -/
def PinnedAlong (g : Generation) : List Answers → Prop
  | [] => True
  | a :: calls => Pinned g (turboFlowPluginGenerationDestroy a g) ∧
      ∀ g', (turboFlowPluginGenerationDestroy a g).1 = some g' → PinnedAlong g' calls

variable {g : Generation} {entries : List Entry} {answer : ℕ → MaterializeAnswer} {a : Answers}

/-- The materialization ends at the owner that fails the check. -/
theorem materialize_invalid (hprepared : ∀ e ∈ entries, e.Prepared) (hj : j < entries.length)
    (hinvalid : answer (i + j) = .owner false) (hvalid : ∀ k < j, answer (i + k) = .owner true) :
    (flowProviderGenerationMaterialize answer i entries).1 = .eproto ∧
      ∀ e ∈ (flowProviderGenerationMaterialize answer i entries).2,
        e.state = .prepared ∨ e.state = .materialized := by
  induction entries generalizing i j with
  | nil => cases hj
  | cons e es ih =>
    obtain ⟨⟨hstate, c, hc, hbinding, hlive⟩, hes⟩ := forall_mem_cons.mp hprepared
    have hrank : ¬ OwnerState.rank .materialized ≤ e.state.rank := by simp [hstate, OwnerState.rank]
    cases j with
    | zero =>
      have hanswer : answer i = .owner false := hinvalid
      simp only [flowProviderGenerationMaterialize, hc, hrank, instanceMaterialize, hbinding, hlive,
        hanswer]
      simpa [hstate] using fun e he => .inl (hes e he).1
    | succ j =>
      have hanswer : answer i = .owner true := hvalid 0 (Nat.succ_pos _)
      have hrest := ih (i := i + 1) hes (Nat.lt_of_succ_lt_succ hj)
        (by rwa [Nat.add_right_comm]) fun k hk => by
          rw [Nat.add_right_comm]
          exact hvalid (k + 1) (Nat.succ_lt_succ hk)
      simp only [flowProviderGenerationMaterialize, hc, hrank, instanceMaterialize, hbinding, hlive,
        hanswer]
      simpa using hrest

theorem backward_quiet {α : Type*} {f : ℕ → α → Outcome α Event ConfigError} {as : List α}
    (h : ∀ i, ∀ b ∈ as, f i b = ⟨b, [], none⟩) (i : ℕ) : backward f i as = ⟨as, [], none⟩ := by
  induction as generalizing i with
  | nil => rfl
  | cons b as ih =>
    have hrest := ih (fun i c hc => h i c (mem_cons_of_mem _ hc)) (i + 1)
    rw [backward_cons_of_none (by rw [hrest]), hrest, h i b mem_cons_self, append_nil]

/-- Owners that were materialized are called. -/
theorem quiesce_events (hentries : ∀ e ∈ entries, e.state = .prepared ∨ e.state = .materialized)
    (i : ℕ) :
    let r := backward (quiescing.visit a.quiesce) i entries
    (r.failure ≠ none ∨ ∃ e ∈ entries, e.state = .materialized) → r.events ≠ [] := by
  induction entries generalizing i with
  | nil => simp [backward]
  | cons e es ih =>
    obtain ⟨he, hes⟩ := forall_mem_cons.mp hentries
    have hrest := ih hes (i + 1)
    cases hfail : (backward (quiescing.visit a.quiesce) (i + 1) es).failure with
    | some x =>
      rw [backward_cons_of_failure hfail]
      exact fun _ => hrest (.inl (by simp [hfail]))
    | none =>
      rw [backward_cons_of_none hfail]
      rcases he with he | he
      · simp_all [Phase.visit]
      have hvisit : (quiescing.visit a.quiesce i e).events ≠ [] := by
        by_cases hanswer : a.quiesce i = .ok <;>
          simp [Phase.visit, Phase.misses, quiescing, he, OwnerState.rank, hanswer]
      simp [hvisit]

theorem andThen_events_ne_nil {f f' : Generation → Outcome Generation Event ConfigError}
    (h : (f g).events ≠ []) : (andThen f f' g).events ≠ [] := by
  unfold andThen
  split <;> simp [h]

/-- Whatever is answered, an owner is called or the Graph is destroyed. -/
theorem retireOwners_events (h : g.Rejected entries) : (retireOwners a g).events ≠ [] := by
  by_cases hmaterialized : ∃ e ∈ entries, e.state = .materialized
  · rw [retireOwners, andThen_of_none rfl]
    refine andThen_events_ne_nil ?_
    simp only [silently, onProviders, h.providers]
    exact quiesce_events h.entries 0 (.inr hmaterialized)
  have hprepared : ∀ e ∈ entries, e.state = .prepared := fun e he =>
    (h.entries e he).resolve_right fun hstate => hmaterialized ⟨e, he, hstate⟩
  have hphase : ∀ (p : Phase) answer, backward (p.visit answer) 0 entries = ⟨entries, [], none⟩ :=
    fun p answer => backward_quiet (fun i e he => by simp [Phase.visit, hprepared e he]) 0
  have hsessions : backward (visitSession a.session) 0 g.bindings = ⟨g.bindings, [], none⟩ :=
    backward_quiet (fun i b hb => by simp [visitSession, h.sessions b hb]) 0
  have hstop : ∀ g' : Generation, g'.failed = true → stopGraph a g' = ⟨g', [], none⟩ := by
    intro g' hfailed
    cases hflow : g'.flow <;> simp [stopGraph, hflow, hfailed]
  simp [retireOwners, andThen, silently, onProviders, h.providers, flowProviderGenerationQuiesce,
    flowProviderGenerationDrain, flowProviderGenerationShutdown, hphase, hstop, h.failed,
    releaseSessions, flowPluginOperationsRelease, hsessions, destroyGraph]

def Busy (x : ConfigError) : Prop :=
  x.status = .ebusy

theorem failsWith_close : FailsWith Busy closeOperations := by
  intro g x hx
  simp only [closeOperations, flowPluginOperationsClose, failing] at hx
  split_ifs at hx
  · exact some.inj hx ▸ rfl
  · simp_all

/-- The call fails with `SALTS_EBUSY`, or it has made a callback or destroyed the Graph. -/
def Loud (o : Outcome Generation Event ConfigError) : Prop :=
  (∃ x, o.failure = some x ∧ Busy x) ∨ o.events ≠ []

theorem andThen_loud (hf : FailsWith Busy f) (hf' : Loud (f' (f g).state)) :
    Loud (andThen f f' g) := by
  cases hfail : (f g).failure with
  | some x =>
    rw [andThen_of_failure hfail]
    exact .inl ⟨x, hfail, hf g x hfail⟩
  | none =>
    rw [andThen_of_none hfail]
    exact hf'.imp id fun hevents => by simp [hevents]

theorem retireAttached_loud (h : g.Rejected entries) (hbuffers : a.buffers = .ok) :
    Loud (retireAttached a g) := by
  have hcheck : checkBuffers a g = none := by simp [checkBuffers, failing, hbuffers]
  have hclosed : Generation.Rejected (closeOperations (stopMaterializers g).state).state entries :=
    { h with
      sessions := by
        intro b hb
        obtain ⟨b', hb', rfl⟩ := List.mem_map.mp hb
        exact h.sessions b' hb' }
  rw [retireAttached, andThen_of_none hcheck]
  refine andThen_loud (failsWith_stopMaterializers fun _ => id) (andThen_loud failsWith_close
    (andThen_loud (failsWith_checkLeases fun _ => id) ?_))
  exact .inr (andThen_events_ne_nil (retireOwners_events hclosed))

theorem retire_of_flow (h : g.flow ≠ none) :
    flowPluginGenerationRetire a g = retireAttached a g := by
  obtain ⟨graph, hflow⟩ := ne_none_iff_exists'.mp h
  simp only [flowPluginGenerationRetire, hflow]

theorem destroy_of_buffers (h : g.flow ≠ none) (hbuffers : a.buffers ≠ .ok) :
    let error := generationError a.buffers "$.generation.buffers"
      "durable backlog must settle before retirement"
    turboFlowPluginGenerationDestroy a g =
      (some { g with cleanupError := some error }, ⟨a.buffers, error, []⟩) := by
  rw [turboFlowPluginGenerationDestroy, retire_of_flow h, retireAttached,
    andThen_of_failure (by simp only [checking, checkBuffers, failing, if_pos hbuffers]; rfl)]
  simp [checking, checkBuffers, failing, hbuffers, generationError]

theorem pinned_iff (h : g.Rejected entries) :
    Pinned g (turboFlowPluginGenerationDestroy a g) ↔ a.buffers = .einval := by
  constructor
  · rintro ⟨hstatus, hevents, -⟩
    by_cases hbuffers : a.buffers = .ok
    · rw [turboFlowPluginGenerationDestroy, retire_of_flow h.flow] at hstatus hevents
      rcases retireAttached_loud h hbuffers with ⟨x, hx, hbusy⟩ | hloud
      · simp only [hx, show x.status = .ebusy from hbusy] at hstatus
        cases hstatus
      · cases hx : (retireAttached a g).failure <;> simp_all
    · rwa [destroy_of_buffers h.flow hbuffers] at hstatus
  intro hbuffers
  rw [destroy_of_buffers h.flow (by simp [hbuffers])]
  exact ⟨hbuffers, rfl, _, rfl, rfl, rfl, rfl, rfl⟩

/-- The calls after an invalid owner was published keep the promise exactly when the preparation of
the durable buffers answers `SALTS_EINVAL` in each of them. -/
theorem invalid_owner_pinned_iff {j : ℕ} (hflow : g.flow ≠ none)
    (hsessions : ∀ b ∈ g.bindings, b.session = false) (hprepared : ∀ e ∈ entries, e.Prepared)
    (hj : j < entries.length) (hinvalid : answer j = .owner false)
    (hvalid : ∀ k < j, answer k = .owner true) (calls : List Answers) :
    (flowProviderGenerationMaterialize answer 0 entries).1 = .eproto ∧
      (PinnedAlong (g.rejected answer entries) calls ↔ ∀ a ∈ calls, a.buffers = .einval) := by
  obtain ⟨hstatus, hentries⟩ := materialize_invalid (i := 0) hprepared hj (by simpa using hinvalid)
    (by simpa using hvalid)
  refine ⟨hstatus, ?_⟩
  have hrejected : (g.rejected answer entries).Rejected _ := ⟨hflow, rfl, rfl, hentries, hsessions⟩
  generalize g.rejected answer entries = g' at hrejected
  induction calls generalizing g' with
  | nil => simp [PinnedAlong]
  | cons a calls ih =>
    rw [PinnedAlong, pinned_iff hrejected, forall_mem_cons]
    refine and_congr_right fun hbuffers => ?_
    rw [destroy_of_buffers hrejected.flow (by simp [hbuffers])]
    simp only [some.injEq, forall_eq']
    exact ih _ ⟨hrejected.flow, hrejected.failed, hrejected.providers, hrejected.entries,
      hrejected.sessions⟩

def preparedEntry (name : String) : Entry :=
  ⟨name, .prepared, some ⟨false, false, true, false, true⟩⟩

def preflighted : Generation :=
  ⟨some ⟨.parsed, .closed, false⟩, false, .invalid, 0, false, none, [], [], true, true, none⟩

def answering (buffers : Status) : Answers :=
  ⟨buffers, fun _ => .ok, .ok, .ok, fun _ => .ok, fun _ => .ok, fun _ => .ok,
    fun _ => ⟨.ok, .ok, .ok⟩, fun _ => .ok⟩

/-- The reply to the cleanup of create when the second of two owners is invalid. -/
def pairReply : Reply :=
  (turboFlowPluginGenerationDestroy (answering .ok) (preflighted.rejected
    (fun i => .owner (i == 0)) [preparedEntry "a", preparedEntry "b"])).2

/-- The first owner is retired and the Graph destroyed, and the call returns `SALTS_EBUSY`. -/
theorem invalid_owner_retired :
    pairReply.status = .ebusy ∧ pairReply.events = [.call .quiesce 0 .ok, .call .drain 0 .ok, .call
      .shutdown 0 .ok, .graphDestroyed, .call .destroy 0 .ok, .lease 1 .ebusy, .lease 0 .ok] := by
  decide

theorem invalid_owner_pinned_iff_one :
    PinnedAlong (preflighted.rejected (fun _ => .owner false) [preparedEntry "a"])
      [answering .einval] :=
  (invalid_owner_pinned_iff (j := 0) (by decide) (by decide)
    (by simp [Entry.Prepared, preparedEntry]) (by decide) rfl (by simp) _).2.mpr (by decide)

end TurboFlow.Plugin
