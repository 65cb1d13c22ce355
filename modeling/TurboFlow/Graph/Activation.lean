import TurboFlow.Graph.Refinement

/-!
# Which stages are executed

A stage should be executed, and a buffer take the message, exactly when an edge into it is active
(`RoutedExactly`). `Fires` says which these are, from the plan and the answers alone.

The edges out of a buffer that took the message are never resolved, so a stage below it waits for
ever. The dispatcher routes exactly if and only if nothing that fires lies below a buffer that
fires.
-/

namespace TurboFlow.Graph

open Fallible Dispatch List CompiledPlan Relation

section Semantics

variable (plan : CompiledPlan) (world : World) (origin : ℕ)

inductive Fires : ℕ → Prop
  | start {e : Edge} : e ∈ plan.edges → e.fromStage = origin →
      world.verdict plan (world.offer origin { status := .ok }) e = .ok true → Fires e.toStage
  | next {u : ℕ} {e : Edge} : Fires u → plan.isBuffer u = false → e ∈ plan.edges →
      e.fromStage = plan.unitExit u → world.verdict plan (world.unitOffer plan u) e = .ok true →
      Fires e.toStage

/-- An edge of the execution region leads from `a` to `b`. -/
def Precedes (a b : ℕ) : Prop :=
  ∃ e ∈ plan.edges, e.fromStage = a ∧ e.toStage = b ∧ plan.Reaches origin a ∧ plan.Reaches origin b

def Blocked (s : ℕ) : Prop :=
  ∃ b, plan.isBuffer b = true ∧ b ≠ origin ∧ Fires plan world origin b ∧
    TransGen (Precedes plan origin) b s

/-- The edge is active: its tail is the origin or was executed, and it is selected for the status of
the tail, or lies inside a region. -/
def Active (tr : List Event) (e : Edge) : Prop :=
  (e.fromStage = origin ∧
      world.verdict plan (world.offer origin { status := .ok }) e = .ok true) ∨
    ∃ u, .dispatched u ∈ tr ∧
      ((e.fromStage = plan.unitExit u ∧
          world.verdict plan (world.unitOffer plan u) e = .ok true) ∨
        (e.fromStage ∈ plan.unit u ∧ e.fromStage ≠ plan.unitExit u))

/-- A stage that can be visited is executed, and a buffer takes the message, exactly when an edge
into it is active. -/
def RoutedExactly (tr : List Event) : Prop :=
  ∀ s, plan.Reaches origin s → s ≠ origin →
    (s ∈ (if plan.isBuffer s then admissions tr else executed plan tr) ↔
      ∃ e ∈ plan.edges, e.toStage = s ∧ Active plan world origin tr e)

def StopsAtFirstFailure (tr : List Event) (status : Status) : Prop :=
  ∃ us u, dispatchedStages tr = us ++ [u] ∧ world.unitOffer plan u = some status ∧ status ≠ .ok ∧
    World.hasRejectEdge plan (plan.unitExit u) = false ∧ ∀ u' ∈ us, ¬ world.Fails plan u'

def Routes : Prop :=
  (runMessageFromStage plan world origin = .ok →
      RoutedExactly plan world origin (workspace (execute plan world origin)).trace) ∧
    (runMessageFromStage plan world origin ≠ .ok →
      StopsAtFirstFailure plan world (workspace (execute plan world origin)).trace
        (runMessageFromStage plan world origin))

/-- Only stages fail: predicates have values, data routes exist, stages complete within the call,
and the services succeed. -/
structure Quiet : Prop where
  validate : ∀ s, world.validate s = .ok
  reserve : ∀ s, world.reserve s = .ok
  predicate : ∀ e, ∃ selected, world.predicate e = .value selected
  route : ∀ s, world.unknownRoute plan s = false
  admission : ∀ s, world.admission s = .ok
  capture : ∀ s, world.capture s = .ok
  emission : ∀ s, world.emissionStatus s = .ok
  settled : ∀ s, ¬ Pending plan world s
  cleanup : world.cleanup = .ok

end Semantics

variable {plan : CompiledPlan} {world : World} {origin : ℕ} {reach : ℕ → Bool} {tr : List Event}
  {s u : ℕ} {e : Edge}

variable {b : ℕ} {ev : Event} {selection : Option Status}

theorem arrival_cases (h : ev.slot = .arrival s) :
    ev = .readied s ∨ ev = .admitted s ∨ ev = .skipped s := by
  cases ev with
  | readied t => cases h; exact .inl rfl
  | admitted t => cases h; exact .inr (.inl rfl)
  | skipped t => cases h; exact .inr (.inr rfl)
  | released | resolved | dispatched => cases h

theorem isBuffer_unitExit (h : plan.isBuffer u = false) :
    plan.isBuffer (plan.unitExit u) = false := by
  rcases plan.unit_cases u with ⟨-, -, hexit⟩ | ⟨r, hr, -, -, hexit⟩
  · rw [hexit]
    exact h
  rw [hexit]
  exact plan.isBuffer_of_mem hr r.exitStage_mem

theorem reaches_unitExit (h : plan.Reaches origin u) : plan.Reaches origin (plan.unitExit u) := by
  rcases plan.unit_cases u with ⟨-, -, hexit⟩ | ⟨r, hr, rfl, -, hexit⟩
  · rw [hexit]
    exact h
  rw [hexit]
  exact h.member hr r.exitStage_mem

theorem rank_le_unitExit {rank : ℕ → ℕ}
    (hrank : ∀ e ∈ plan.edges, rank e.fromStage < rank e.toStage) (u : ℕ) :
    rank u ≤ rank (plan.unitExit u) := by
  rcases plan.unit_cases u with ⟨-, -, hexit⟩ | ⟨r, hr, rfl, -, hexit⟩
  · rw [hexit]
  rw [hexit]
  exact rank_entryStage_le hrank hr r.exitStage_mem

theorem not_precedes_origin : ¬ TransGen (Precedes plan origin) b origin := by
  intro hpath
  obtain ⟨p, -, e, he, hfrom, hto, hreach, -⟩ := TransGen.tail'_iff.mp hpath
  exact Reaches.ne_origin (hfrom ▸ hreach) he hto

theorem precedes_unit (hout : ∀ r ∈ plan.regions, b ∉ r.members)
    (hpath : TransGen (Precedes plan origin) b (plan.unitExit u)) :
    TransGen (Precedes plan origin) b u := by
  rcases plan.unit_cases u with ⟨-, -, hexit⟩ | ⟨r, hr, rfl, -, hexit⟩
  · rwa [hexit] at hpath
  rw [hexit] at hpath
  refine region_induction (P := fun m => TransGen (Precedes plan origin) b m →
      TransGen (Precedes plan origin) b r.entryStage) hr id ?_ _ r.exitStage_mem hpath
  intro p m hp _ _ hfused ih hm
  obtain ⟨p', hpath', e, he, hfrom, hto, -⟩ := TransGen.tail'_iff.mp hm
  obtain rfl : p' = p := by
    rw [← hfrom, Fused.eq_of_to hfused he hto]
  rcases reflTransGen_iff_eq_or_transGen.mp hpath' with rfl | hpath'
  · exact absurd hp (hout r hr)
  · exact ih hpath'

namespace Fires

theorem reaches (h : Fires plan world origin s) : plan.Reaches origin s := by
  induction h with
  | start he hfrom _ => exact .edge he (hfrom ▸ .origin) (.inl hfrom)
  | next _ hbuffer he hfrom _ ih =>
    exact .edge he (hfrom ▸ reaches_unitExit ih) (.inr (hfrom ▸ isBuffer_unitExit hbuffer))

theorem ne_origin (h : Fires plan world origin s) : s ≠ origin := by
  cases h with
  | start he hfrom _ => exact Reaches.ne_origin (hfrom ▸ .origin) he
  | next hu _ he hfrom _ =>
    exact Reaches.ne_origin (hfrom ▸ reaches_unitExit hu.reaches) he

theorem origin_mem_of_inner (hr : r ∈ plan.regions) (h : Fires plan world origin s)
    (hs : s ∈ r.inner) : origin ∈ r.members := by
  induction h with
  | start he hfrom _ => exact hfrom ▸ (from_of_to_inner hr he hs).1
  | next _ _ he hfrom _ ih =>
    obtain ⟨hmem, hne⟩ := from_of_to_inner hr he hs
    rw [hfrom] at hmem hne
    exact ih (inner_of_unitExit hr hmem hne).2

end Fires

namespace Legal

variable (h : Legal plan world origin reach tr)
  (hreach : ∀ s, reach s = true ↔ plan.Reaches origin s)
include h

theorem active_of_resolved (he : .resolved e true ∈ tr) :
    (e.fromStage = origin ∧
        world.verdict plan (world.offer origin { status := .ok }) e = .ok true) ∨
      ∃ u, .dispatched u ∈ tr ∧ e.fromStage = plan.unitExit u ∧
        world.verdict plan (world.unitOffer plan u) e = .ok true := by
  obtain ⟨-, selection, hrel, hverdict⟩ := h.resolved_spec he
  obtain ⟨-, ⟨horigin, rfl⟩ | ⟨-, rfl⟩ | ⟨u, hu, hexit, rfl⟩⟩ := h.released_spec hrel
  · exact .inl ⟨horigin, hverdict⟩
  · cases hverdict
  · exact .inr ⟨u, hu, hexit.symm, hverdict⟩

theorem fires_of_activated (hs : Activated tr s) : Fires plan world origin s := by
  obtain ⟨rank, hrank⟩ := plan.acyclic
  induction hn : rank s using Nat.strong_induction_on generalizing s with
  | _ n ih =>
    obtain ⟨e, rfl, he⟩ := hs
    have hedge := (h.resolved_spec he).1.1
    rcases h.active_of_resolved he with ⟨hfrom, hverdict⟩ | ⟨u, hu, hfrom, hverdict⟩
    · exact .start hedge hfrom hverdict
    obtain ⟨hbuffer, hactive⟩ := h.readied_spec (h.dispatched_spec hu)
    have hlt : rank u < n := by
      have hle := rank_le_unitExit hrank u
      have hstep := hrank e hedge
      rw [hfrom] at hstep
      omega
    exact .next (ih (rank u) hlt hactive rfl) hbuffer hedge hfrom hverdict

theorem fires_of_dispatched (hu : .dispatched u ∈ tr) : Fires plan world origin u :=
  h.fires_of_activated (h.readied_spec (h.dispatched_spec hu)).2

include hreach

theorem offer_of_released_origin (hrel : .released origin selection ∈ tr) :
    selection = world.offer origin { status := .ok } := by
  obtain ⟨-, ⟨-, heq⟩ | ⟨hskip, -⟩ | ⟨u, hu, hexit, -⟩⟩ := h.released_spec hrel
  · exact heq
  · exact absurd rfl (h.reached hreach hskip rfl).2
  obtain ⟨hreached, hne⟩ := h.reached hreach (h.dispatched_spec hu) rfl
  rcases plan.unit_cases u with ⟨-, -, hself⟩ | ⟨r, hr, rfl, -, hself⟩
  · exact absurd (hself.symm.trans hexit) hne
  · exact absurd (hexit ▸ hself ▸ r.exitStage_mem) (origin_not_mem_of_entry hreach hr hreached hne)

theorem offer_of_released_exit (hfires : Fires plan world origin u) (hskip : .skipped u ∉ tr)
    (hrel : .released (plan.unitExit u) selection ∈ tr) : selection = world.unitOffer plan u := by
  have hreached : reach u = true := (hreach u).mpr hfires.reaches
  have hne := hfires.ne_origin
  rcases plan.unit_cases u with ⟨hnone, -, hself⟩ | ⟨r, hr, rfl, -, hself⟩
  · -- A single stage: no region can have completed in its place.
    rw [hself] at hrel
    obtain ⟨-, ⟨heq, -⟩ | ⟨hskip', -⟩ | ⟨u', hu', hexit, heq⟩⟩ := h.released_spec hrel
    · exact absurd heq hne
    · exact absurd hskip' hskip
    obtain ⟨hreached', hne'⟩ := h.reached hreach (h.dispatched_spec hu') rfl
    rcases plan.unit_cases u' with ⟨-, -, hself'⟩ | ⟨r', hr', rfl, -, hself'⟩
    · rw [heq, ← hself', hexit]
    have hmem : u ∈ r'.members := by
      rw [← hexit, hself']
      exact r'.exitStage_mem
    rcases mem_cons.mp hmem with rfl | hinner
    · rw [regionForEntry_entryStage hr'] at hnone
      cases hnone
    exact absurd (hfires.origin_mem_of_inner hr' hinner)
      (origin_not_mem_of_entry hreach hr' hreached' hne')
  -- A region: its exit has not been released by itself.
  rw [hself] at hrel
  have hexit_cases : ∀ ev ∈ tr, ev.slot = .arrival r.exitStage →
      r.exitStage = r.entryStage := by
    intro ev hev hslot
    rcases mem_cons.mp r.exitStage_mem with heq | hinner
    · exact heq
    · exact absurd (h.arrives hev hslot) (inner_not_arrives hreach hr hreached hne h hskip hinner)
  obtain ⟨-, ⟨heq, -⟩ | ⟨hskip', -⟩ | ⟨u', hu', hexit, heq⟩⟩ := h.released_spec hrel
  · exact absurd (heq ▸ r.exitStage_mem) (origin_not_mem_of_entry hreach hr hreached hne)
  · exact absurd (hexit_cases _ hskip' rfl ▸ hskip') hskip
  rcases plan.unit_cases u' with ⟨hnone', -, hself'⟩ | ⟨r', hr', rfl, -, hself'⟩
  · have heq' : u' = r.exitStage := hself'.symm.trans hexit
    rw [heq', hexit_cases _ (heq' ▸ h.dispatched_spec hu') rfl,
      regionForEntry_entryStage hr] at hnone'
    cases hnone'
  have hsame : r' = r := region_unique hr' hr r'.exitStage_mem
    (hself'.symm.trans hexit ▸ r.exitStage_mem)
  rw [heq, hsame]

theorem not_skipped_of_fires (hs : Fires plan world origin s) : .skipped s ∉ tr := by
  induction hs with
  | @start e he hfrom hverdict =>
    intro hskip
    obtain ⟨a, ha⟩ := (h.arrives hskip rfl).2 e
      ⟨he, (hreach _).mpr (hfrom ▸ .origin), (h.reached hreach hskip rfl).1⟩ rfl
    obtain ⟨-, selection, hrel, hverdict'⟩ := h.resolved_spec ha
    have hselection : selection = world.offer origin { status := .ok } :=
      h.offer_of_released_origin hreach (hfrom ▸ hrel)
    rw [hselection, hverdict] at hverdict'
    cases hverdict'
    exact h.not_activated_of_skipped hskip ⟨e, rfl, ha⟩
  | @next u e hu hbuffer he hfrom hverdict ih =>
    intro hskip
    obtain ⟨a, ha⟩ := (h.arrives hskip rfl).2 e
      ⟨he, (hreach _).mpr (hfrom ▸ reaches_unitExit hu.reaches), (h.reached hreach hskip rfl).1⟩ rfl
    obtain ⟨-, selection, hrel, hverdict'⟩ := h.resolved_spec ha
    have hselection : selection = world.unitOffer plan u :=
      h.offer_of_released_exit hreach hu ih (hfrom ▸ hrel)
    rw [hselection, hverdict] at hverdict'
    cases hverdict'
    exact h.not_activated_of_skipped hskip ⟨e, rfl, ha⟩

/-- A stage that fires belongs to no dispatched unit but its own. -/
theorem eq_of_fires_mem_unit (hs : Fires plan world origin s) (hu : .dispatched u ∈ tr)
    (hmem : s ∈ plan.unit u) : s = u := by
  obtain ⟨hreached, hne⟩ := h.reached hreach (h.dispatched_spec hu) rfl
  rcases plan.unit_cases u with ⟨-, hunit, -⟩ | ⟨r, hr, rfl, hunit, -⟩
  · simpa [hunit] using hmem
  rw [hunit] at hmem
  rcases mem_cons.mp hmem with heq | hinner
  · exact heq
  · exact absurd (hs.origin_mem_of_inner hr hinner) (origin_not_mem_of_entry hreach hr hreached hne)

omit hreach in
theorem exists_active_of_activated (hs : Activated tr s) :
    ∃ e ∈ plan.edges, e.toStage = s ∧ Active plan world origin tr e := by
  obtain ⟨e, hto, he⟩ := hs
  refine ⟨e, (h.resolved_spec he).1.1, hto, ?_⟩
  rcases h.active_of_resolved he with hstart | ⟨u, hu, hnext⟩
  · exact .inl hstart
  · exact .inr ⟨u, hu, .inl hnext⟩

omit hreach in
theorem exists_active_of_executed (hs : s ∈ executed plan tr) :
    ∃ e ∈ plan.edges, e.toStage = s ∧ Active plan world origin tr e := by
  obtain ⟨u, hu, hmem⟩ := mem_executed.mp hs
  have hself := (h.readied_spec (h.dispatched_spec hu)).2
  rcases plan.unit_cases u with ⟨-, hunit, -⟩ | ⟨r, hr, rfl, hunit, hexit⟩
  · obtain rfl : s = u := by simpa [hunit] using hmem
    exact h.exists_active_of_activated hself
  rw [hunit] at hmem
  rcases mem_cons.mp hmem with rfl | hinner
  · exact h.exists_active_of_activated hself
  obtain ⟨p, hp, hne, hfused⟩ := exists_fused_before hr hinner
  refine ⟨⟨p, s, .unconditional⟩, Fused.mem hfused, rfl, .inr ⟨_, hu, .inr ?_⟩⟩
  exact ⟨hunit ▸ hp, hexit ▸ hne⟩

theorem released_of_above (hev : ev ∈ tr) (hslot : ev.slot = .arrival s)
    (hout : ∀ r ∈ plan.regions, b ∉ r.members) (hpath : TransGen (Precedes plan origin) b s) :
    ∃ selection, .released b selection ∈ tr := by
  obtain ⟨rank, hrank⟩ := plan.acyclic
  induction hn : rank s using Nat.strong_induction_on generalizing s ev with
  | _ n ih =>
    have hresolved : ∀ p, Precedes plan origin p s → ∃ selection, .released p selection ∈ tr := by
      rintro p ⟨e, he, rfl, rfl, hfrom, hto⟩
      obtain ⟨a, ha⟩ := (h.arrives hev hslot).2 e
        ⟨he, (hreach _).mpr hfrom, (hreach _).mpr hto⟩ rfl
      obtain ⟨-, selection, hrel, -⟩ := h.resolved_spec ha
      exact ⟨selection, hrel⟩
    cases hpath with
    | single hstep => exact hresolved b hstep
    | @tail p _ hpath hstep =>
      obtain ⟨selection, hrel⟩ := hresolved p hstep
      have hlt : rank p < n := by
        obtain ⟨e, he, rfl, rfl, -⟩ := hstep
        exact hn ▸ hrank e he
      obtain ⟨-, ⟨rfl, -⟩ | ⟨hskip, -⟩ | ⟨u, hu, rfl, -⟩⟩ := h.released_spec hrel
      · exact absurd hpath (not_precedes_origin)
      · exact ih (rank p) hlt hskip rfl hpath rfl
      have hle := rank_le_unitExit hrank u
      exact ih (rank u) (by omega) (h.dispatched_spec hu) rfl (precedes_unit hout hpath) rfl

theorem not_blocked (hev : ev ∈ tr) (hslot : ev.slot = .arrival s) :
    ¬ Blocked plan world origin s := by
  rintro ⟨b, hb, hne, hfires, hpath⟩
  have hout : ∀ r ∈ plan.regions, b ∉ r.members := fun r hr hmem => by
    simp [plan.isBuffer_of_mem hr hmem] at hb
  obtain ⟨selection, hrel⟩ := h.released_of_above hreach hev hslot hout hpath
  obtain ⟨-, ⟨heq, -⟩ | ⟨hskip, -⟩ | ⟨u, hu, rfl, -⟩⟩ := h.released_spec hrel
  · exact hne heq
  · exact h.not_skipped_of_fires hreach hfires hskip
  have hbuffer := isBuffer_unitExit (h.readied_spec (h.dispatched_spec hu)).1
  rw [hb] at hbuffer
  cases hbuffer

end Legal

section Finished

variable {w : Workspace} (hreach : ∀ s, reach s = true ↔ plan.Reaches origin s)
  (hquiet : Quiet plan world)
  (h : Resting plan world origin reach w.queue.length w)
include h

theorem dispatched_of_readied (hs : .readied s ∈ w.trace) : .dispatched s ∈ w.trace := by
  rw [h.tracks.dispatched_iff, take_length]
  exact h.tracks.readied_iff.mpr hs

theorem resolved_of_released (hwithin : Within plan reach e)
    (hrel : .released e.fromStage selection ∈ w.trace) : ∃ a, .resolved e a ∈ w.trace := by
  rcases h.tracks.closed _ selection hrel e hwithin rfl with hmem | hres
  · cases hmem
  · exact hres

theorem released_of_skipped (hs : .skipped s ∈ w.trace) :
    ∃ selection, .released s selection ∈ w.trace := by
  by_contra hnone
  have hwaiting := (h.tracks.waiting_iff s).mpr ⟨hs, not_exists.mp hnone⟩
  rw [drop_length] at hwaiting
  cases hwaiting

include hreach hquiet

theorem arrived_or_executed (hs : plan.Reaches origin s) (hne : s ≠ origin)
    (hblocked : ¬ Blocked plan world origin s) :
    (∃ ev ∈ w.trace, ev.slot = .arrival s) ∨ ∃ u, .dispatched u ∈ w.trace ∧ s ∈ plan.unit u := by
  obtain ⟨rank, hrank⟩ := plan.acyclic
  induction hn : rank s using Nat.strong_induction_on generalizing s with
  | _ n ih =>
    by_contra hcontra
    rw [not_or] at hcontra
    -- All edges into the stage are resolved, so it has arrived.
    have hresolved : ∀ e, Within plan reach e → e.toStage = s →
        ∃ a, .resolved e a ∈ w.trace := by
      rintro e hwithin rfl
      have hfrom := (hreach _).mp hwithin.2.1
      have hstep : Precedes plan origin e.fromStage e.toStage := ⟨e, hwithin.1, rfl, rfl, hfrom, hs⟩
      by_cases horigin : e.fromStage = origin
      · obtain ⟨selection, hrel⟩ := h.completed.origin
        exact resolved_of_released h hwithin (horigin ▸ hrel)
      have hfree : ¬ Blocked plan world origin e.fromStage := by
        rintro ⟨b, hb, hborigin, hfires, hpath⟩
        exact hblocked ⟨b, hb, hborigin, hfires, hpath.tail hstep⟩
      have hunit : ∀ u, .dispatched u ∈ w.trace → e.fromStage ∈ plan.unit u →
          ∃ a, .resolved e a ∈ w.trace := by
        intro u hu hmem
        by_cases hexit : e.fromStage = plan.unitExit u
        · rcases h.completed.unit u hu with hpending | ⟨selection, hrel⟩
          · exact absurd hpending (hquiet.settled u)
          · exact resolved_of_released h hwithin (hexit ▸ hrel)
        have hto := (to_mem_unit hwithin.1 hmem hexit).1
        exact absurd ⟨u, hu, hto⟩ hcontra.2
      rcases ih (rank e.fromStage) (hn ▸ hrank e hwithin.1) hfrom horigin hfree rfl with
        ⟨ev, hev, hslot⟩ | ⟨u, hu, hmem⟩
      · rcases arrival_cases hslot with rfl | rfl | rfl
        · exact hunit _ (dispatched_of_readied h hev) (mem_unit_self _)
        · obtain ⟨hbuffer, hactive⟩ := h.tracks.legal.admitted_spec hev
          exact absurd ⟨_, hbuffer, horigin, h.tracks.legal.fires_of_activated hactive,
            .single hstep⟩ hblocked
        obtain ⟨selection, hrel⟩ := released_of_skipped h hev
        exact resolved_of_released h hwithin hrel
      · exact hunit u hu hmem
    refine hcontra.1 (h.arrived s ⟨?_, hresolved⟩)
    cases hs with
    | origin => exact absurd rfl hne
    | @edge e he hfrom hopen =>
      exact ⟨e, ⟨he, (hreach _).mpr hfrom, (hreach _).mpr (.edge he hfrom hopen)⟩, rfl⟩

theorem dispatched_or_admitted (hs : Fires plan world origin s)
    (hblocked : ¬ Blocked plan world origin s) :
    (plan.isBuffer s = false ∧ .dispatched s ∈ w.trace) ∨
      (plan.isBuffer s = true ∧ .admitted s ∈ w.trace) := by
  have hlegal := h.tracks.legal
  rcases arrived_or_executed hreach hquiet h hs.reaches hs.ne_origin hblocked with
    ⟨ev, hev, hslot⟩ | ⟨u, hu, hmem⟩
  · rcases arrival_cases hslot with rfl | rfl | rfl
    · exact .inl ⟨(hlegal.readied_spec hev).1, dispatched_of_readied h hev⟩
    · exact .inr ⟨(hlegal.admitted_spec hev).1, hev⟩
    · exact absurd hev (hlegal.not_skipped_of_fires hreach hs)
  obtain rfl := hlegal.eq_of_fires_mem_unit hreach hs hu hmem
  exact .inl ⟨(hlegal.readied_spec (hlegal.dispatched_spec hu)).1, hu⟩

theorem routedExactly_iff :
    RoutedExactly plan world origin w.trace ↔
      ∀ s, Fires plan world origin s → ¬ Blocked plan world origin s := by
  have hlegal := h.tracks.legal
  constructor
  · intro hexact
    -- If the routing is exact, everything that fires arrives.
    have hmem : ∀ s, Fires plan world origin s →
        (∃ e ∈ plan.edges, e.toStage = s ∧ Active plan world origin w.trace e) →
        (plan.isBuffer s = false → .dispatched s ∈ w.trace) ∧
          ∃ ev ∈ w.trace, ev.slot = .arrival s := by
      intro s hs hactive
      have hs' := (hexact s hs.reaches hs.ne_origin).mpr hactive
      cases hbuffer : plan.isBuffer s with
      | true =>
        rw [hbuffer, if_pos rfl, mem_admissions] at hs'
        exact ⟨by simp, _, hs', rfl⟩
      | false =>
        rw [hbuffer, if_neg (by simp), mem_executed] at hs'
        obtain ⟨u, hu, hmem⟩ := hs'
        obtain rfl := hlegal.eq_of_fires_mem_unit hreach hs hu hmem
        exact ⟨fun _ => hu, _, hlegal.dispatched_spec hu, rfl⟩
    have harrives : ∀ s, Fires plan world origin s →
        (plan.isBuffer s = false → .dispatched s ∈ w.trace) ∧
          ∃ ev ∈ w.trace, ev.slot = .arrival s := by
      intro s hs
      induction hs with
      | start he hfrom hverdict =>
        exact hmem _ (.start he hfrom hverdict) ⟨_, he, rfl, .inl ⟨hfrom, hverdict⟩⟩
      | next hu hbuffer he hfrom hverdict ih =>
        exact hmem _ (.next hu hbuffer he hfrom hverdict)
          ⟨_, he, rfl, .inr ⟨_, ih.1 hbuffer, .inl ⟨hfrom, hverdict⟩⟩⟩
    intro s hs
    obtain ⟨-, ev, hev, hslot⟩ := harrives s hs
    exact hlegal.not_blocked hreach hev hslot
  intro hfree s hs hne
  have hfires : Fires plan world origin s →
      s ∈ (if plan.isBuffer s then admissions w.trace else executed plan w.trace) := by
    intro hfires
    rcases dispatched_or_admitted hreach hquiet h hfires (hfree s hfires) with
      ⟨hbuffer, hu⟩ | ⟨hbuffer, hev⟩
    · rw [hbuffer, if_neg (by simp), mem_executed]
      exact ⟨s, hu, mem_unit_self s⟩
    rw [hbuffer, if_pos rfl, mem_admissions]
    exact hev
  constructor
  · intro hmem
    split at hmem
    · exact hlegal.exists_active_of_activated (hlegal.admitted_spec (mem_admissions.mp hmem)).2
    · exact hlegal.exists_active_of_executed hmem
  rintro ⟨e, he, rfl, ⟨hfrom, hverdict⟩ | ⟨u, hu, ⟨hfrom, hverdict⟩ | ⟨hmem, hexit⟩⟩⟩
  · exact hfires (.start he hfrom hverdict)
  · have hbuffer := (hlegal.readied_spec (hlegal.dispatched_spec hu)).1
    exact hfires (.next (hlegal.fires_of_dispatched hu) hbuffer he hfrom hverdict)
  obtain ⟨hto, hbuffer⟩ := to_mem_unit he hmem hexit
  rw [hbuffer, if_neg (by simp), mem_executed]
  exact ⟨u, hu, hto⟩

end Finished

theorem Quiet.failure (hquiet : Quiet plan world) (h : Explained plan world tr cause) :
    ∃ u status, cause = .failure (plan.unitExit u) status ∧ .dispatched u ∈ tr ∧
      world.Fails plan u ∧ StopsAtFirstFailure plan world tr status := by
  cases cause with
  | failure s status =>
    obtain ⟨us, u, hsplit, rfl, hoffer, hne, hreject, hothers⟩ := h
    refine ⟨u, status, rfl, ?_, ⟨status, hoffer, hne, hreject⟩,
      ⟨us, u, hsplit, hoffer, hne, hreject, hothers⟩⟩
    rw [← mem_dispatchedStages, hsplit]
    simp
  | route status =>
    obtain ⟨e, st, herror⟩ := h
    obtain ⟨selected, hvalue⟩ := hquiet.predicate e
    obtain ⟨active, hactive⟩ := world.routeEdgeActive_of_value plan hvalue st
    rw [hactive] at herror
    cases herror
  | unknownRoute =>
    obtain ⟨s, hs⟩ := h
    simp [hquiet.route s] at hs
  | admission status =>
    obtain ⟨s, rfl, hne⟩ := h
    exact absurd (hquiet.admission s) hne
  | capture status =>
    obtain ⟨s, rfl, hne⟩ := h
    exact absurd (hquiet.capture s) hne
  | emission status =>
    obtain ⟨s, rfl, hne⟩ := h
    exact absurd (hquiet.emission s) hne
  | invalidOrigin | invalidStage | malformed | full | underflow | unfinished | validation
  | reservation => exact h.elim

/-- With quiet services, a call from any stage of any plan routes exactly, or stops at the first
failed stage without a reject edge, if and only if such a failure occurs at a stage that fires and
is not blocked, or nothing that fires is blocked. -/
theorem routes_iff (hquiet : Quiet plan world) (horigin : origin < plan.stageCount) :
    Routes plan world origin ↔
      (∃ u, Fires plan world origin u ∧ plan.isBuffer u = false ∧
          ¬ Blocked plan world origin u ∧ world.Fails plan u) ∨
        ∀ s, Fires plan world origin s → ¬ Blocked plan world origin s := by
  have hrun : ∃ reach, (∀ s, reach s = true ↔ plan.Reaches origin s) ∧
      execute plan world origin = dispatchRegion plan world origin reach := by
    rcases execute_cases plan world origin with
      ⟨_, -, ⟨-, hle⟩ | ⟨status, -, hne, s, hs⟩ | ⟨status, -, hne, s, hs⟩⟩ | ⟨reach, -, hrun⟩
    · exact absurd horigin (not_lt.mpr hle)
    · exact absurd (hs.symm.trans (hquiet.validate s)) hne
    · exact absurd (hs.symm.trans (hquiet.reserve s)) hne
    · exact ⟨reach, hrun⟩
  obtain ⟨reach, hreach, hrun⟩ := hrun
  have hends : Ends (fun w => Resting plan world origin reach w.queue.length w)
      (Halted plan world origin reach) (execute plan world origin) :=
    hrun ▸ dispatchRegion_ends horigin hreach
  unfold Routes runMessageFromStage
  cases hresult : execute plan world origin with
  | ok w =>
    rw [hresult, ends_ok] at hends
    have hexact := routedExactly_iff hreach hquiet hends
    simp only [workspace, hquiet.cleanup, ne_eq, not_true_eq_false, false_implies, and_true,
      true_implies, hexact]
    constructor
    · exact .inr
    rintro (⟨u, hfires, hbuffer, hfree, hfails⟩ | hfree)
    · rcases dispatched_or_admitted hreach hquiet hends hfires hfree with
        ⟨-, hu⟩ | ⟨hbuffer', -⟩
      · exact absurd hfails (hends.completed.sound u hu)
      rw [hbuffer] at hbuffer'
      cases hbuffer'
    · exact hfree
  | error stop =>
    rw [hresult, ends_error] at hends
    obtain ⟨u, status, hcause, hu, hfails, hstops⟩ := hquiet.failure hends.explained
    have hstatus : stop.cause.status = status := by rw [hcause]; rfl
    have hne : status ≠ .ok := by
      obtain ⟨_, _, _, _, hne, _⟩ := hstops
      exact hne
    simp only [workspace, hstatus, ne_eq, hne, false_implies, not_false_eq_true, true_implies,
      true_and, hstops, true_iff]
    have hready := hends.legal.dispatched_spec hu
    exact .inl ⟨u, hends.legal.fires_of_dispatched hu, (hends.legal.readied_spec hready).1,
      hends.legal.not_blocked hreach hready rfl, hfails⟩

/-! ### A buffer beside a stage -/

def calmWorld : World where
  validate := fun _ => .ok
  reserve := fun _ => .ok
  dispatch := fun _ => { status := .ok }
  regionStatus := fun _ => .ok
  cancelReorders := fun _ => .ok
  outputs := fun _ => []
  decision := fun _ => none
  predicate := fun _ => .value true
  admission := fun _ => .ok
  capture := fun _ => .ok
  cleanup := .ok

theorem not_pending (h : ∀ s, (world.dispatch s).asyncPending = false) (s : ℕ) :
    ¬ Pending plan world s := by
  rintro ⟨-, hpending⟩
  have hnone : (world.unitCompletion plan s).asyncPending = false := by
    unfold World.unitCompletion World.stageCompletion
    split_ifs
    · rfl
    all_goals cases plan.regionForEntry s <;> first | rfl | exact h s
  rw [hnone] at hpending
  cases hpending

theorem calmWorld_quiet (plan : CompiledPlan) : Quiet plan calmWorld where
  validate := fun _ => rfl
  reserve := fun _ => rfl
  predicate := fun _ => ⟨true, rfl⟩
  route := fun _ => rfl
  admission := fun _ => rfl
  capture := fun _ => rfl
  emission := fun _ => rfl
  settled := not_pending fun _ => rfl
  cleanup := rfl

def splitPlan : CompiledPlan where
  stages := [{ name := "events", isSource := true }, { name := "parse" },
    { name := "intake", isBuffer := true }]
  nodes := [⟨0, 2⟩, ⟨2, 0⟩, ⟨2, 0⟩]
  edges := [⟨0, 1, .unconditional⟩, ⟨0, 2, .unconditional⟩]

/-- Behind the stage and the buffer of `splitPlan` a further stage joins the two branches. -/
def joinPlan : CompiledPlan where
  stages := [{ name := "events", isSource := true }, { name := "parse" },
    { name := "intake", isBuffer := true }, { name := "store" }]
  nodes := [⟨0, 2⟩, ⟨2, 1⟩, ⟨3, 1⟩, ⟨4, 0⟩]
  edges := [⟨0, 1, .unconditional⟩, ⟨0, 2, .unconditional⟩, ⟨1, 3, .unconditional⟩,
    ⟨2, 3, .unconditional⟩]

/-- Without a join nothing lies below the buffer, and the call routes exactly. -/
theorem routes_split :
    Quiet splitPlan calmWorld ∧ 0 < splitPlan.stageCount ∧ Routes splitPlan calmWorld 0 := by
  refine ⟨calmWorld_quiet _, by decide, ?_⟩
  refine (routes_iff (calmWorld_quiet splitPlan) (by decide)).mpr (.inr ?_)
  rintro s - ⟨b, hb, hne, -, hpath⟩
  obtain ⟨t, ⟨e, he, rfl, -⟩, -⟩ := TransGen.head'_iff.mp hpath
  have hfrom : e.fromStage = 0 := by
    have hall : ∀ e ∈ splitPlan.edges, e.fromStage = 0 := by decide
    exact hall e he
  exact hne hfrom

/-- The call succeeds and the buffer takes the message, but the last stage is never executed,
although the edge into it is active. -/
theorem join_not_executed :
    Quiet joinPlan calmWorld ∧ runMessageFromStage joinPlan calmWorld 0 = .ok ∧
      2 ∈ admissions (workspace (execute joinPlan calmWorld 0)).trace ∧
      Active joinPlan calmWorld 0 (workspace (execute joinPlan calmWorld 0)).trace
        ⟨1, 3, .unconditional⟩ ∧
      3 ∉ executed joinPlan (workspace (execute joinPlan calmWorld 0)).trace ∧
      ¬ Routes joinPlan calmWorld 0 := by
  have hrun : runMessageFromStage joinPlan calmWorld 0 = .ok := by decide
  have hactive : Active joinPlan calmWorld 0 (workspace (execute joinPlan calmWorld 0)).trace
      ⟨1, 3, .unconditional⟩ :=
    .inr ⟨1, by decide, .inl ⟨by decide, by decide⟩⟩
  have hnot : 3 ∉ executed joinPlan (workspace (execute joinPlan calmWorld 0)).trace := by decide
  refine ⟨calmWorld_quiet _, hrun, by decide, hactive, hnot, fun hroutes => ?_⟩
  have hreach : joinPlan.Reaches 0 3 :=
    .edge (e := ⟨1, 3, .unconditional⟩) (by decide)
      (.edge (e := ⟨0, 1, .unconditional⟩) (by decide) .origin (.inl rfl)) (.inr (by decide))
  have hmem := (hroutes.1 hrun 3 hreach (by decide)).mpr ⟨_, by decide, rfl, hactive⟩
  rw [if_neg (by decide)] at hmem
  exact hnot hmem

end TurboFlow.Graph
