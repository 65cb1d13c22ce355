import TurboFlow.Graph.Dispatch

/-!
# The dispatcher follows the schedule

`Tracks` relates the workspace to the events so far: `remaining[s]` counts the edges into `s` that
are not resolved, `activated[s]` is positive when one of them was active, and the queues list the
stages that became ready and that were skipped. Every step keeps it, so no guard of the dispatcher
is reached.
-/

namespace TurboFlow.Graph

open Fallible Dispatch List Workspace Event CompiledPlan Function Option World

/-- An edge into `s` that is not resolved yet. -/
def Outstanding (reach : ℕ → Bool) (tr : List Event) (s : ℕ) (e : Edge) : Prop :=
  (reach e.fromStage = true ∧ reach e.toStage = true) ∧ e.toStage = s ∧
    Slot.edge e ∉ tr.map slot

instance (reach : ℕ → Bool) (tr : List Event) (s : ℕ) (e : Edge) :
    Decidable (Outstanding reach tr s e) :=
  inferInstanceAs (Decidable (_ ∧ _ ∧ _))

variable {tr : List Event} {ev : Event} {u : ℕ} {selection : Option Status} {a : Bool}

theorem outstanding_snoc :
    Outstanding reach (tr ++ [ev]) s e ↔ Outstanding reach tr s e ∧ ev.slot ≠ .edge e := by
  simp only [Outstanding, map_append, map_cons, map_nil, mem_append,
    mem_singleton, not_or, ne_eq, eq_comm]
  tauto

theorem activated_snoc_resolved :
    Activated (tr ++ [.resolved e a]) s ↔ Activated tr s ∨ (e.toStage = s ∧ a = true) := by
  simp only [Activated, mem_append, mem_singleton, resolved.injEq]
  constructor
  · rintro ⟨e', hto, hmem | ⟨rfl, rfl⟩⟩
    · exact .inl ⟨e', hto, hmem⟩
    · exact .inr ⟨hto, rfl⟩
  rintro (⟨e', hto, hmem⟩ | ⟨hto, rfl⟩)
  · exact ⟨e', hto, .inl hmem⟩
  · exact ⟨e, hto, .inr ⟨rfl, rfl⟩⟩

theorem edge_mem_slots : Slot.edge e ∈ tr.map slot ↔ ∃ a, resolved e a ∈ tr := by
  rw [List.mem_map]
  constructor
  · rintro ⟨ev, hev, hslot⟩
    cases ev with
    | resolved e' a => cases hslot; exact ⟨a, hev⟩
    | released | readied | admitted | skipped | dispatched => cases hslot
  rintro ⟨a, hev⟩
  exact ⟨_, hev, rfl⟩

/-- The unit that starts at `u` has been handed over and completes later. -/
def Pending (plan : CompiledPlan) (world : World) (u : ℕ) : Prop :=
  (world.unitCompletion plan u).status = .ok ∧ (world.unitCompletion plan u).asyncPending = true

@[simp] def Finished (tr : List Event) (s : ℕ) : Prop :=
  (∃ selection, .released s selection ∈ tr) ∨ .admitted s ∈ tr ∨ .skipped s ∈ tr

/-- The workspace agrees with the events so far. The ready queue has been processed up to `head`,
the skipped queue up to `skipHead`; `pending` are edges of the stage that is being released. -/
structure Tracks (plan : CompiledPlan) (world : World) (origin : ℕ) (reach : ℕ → Bool)
    (head skipHead : ℕ) (pending : List Edge) (w : Workspace) : Prop where
  legal : Legal plan world origin reach w.trace
  remaining_eq : ∀ s, w.remaining s = plan.edges.countP (Outstanding reach w.trace s ·)
  activated_iff : ∀ s, 0 < w.activated s ↔ Activated w.trace s
  queue_eq : w.queue = w.trace.filterMap readied?
  head_le : head ≤ w.queue.length
  dispatched_iff : ∀ s, .dispatched s ∈ w.trace ↔ s ∈ w.queue.take head
  done_of : ∀ s, Finished w.trace s → w.done s = true
  done_cases : ∀ s, w.done s = true →
    Finished w.trace s ∨ ∃ u, .dispatched u ∈ w.trace ∧ s ∈ plan.unit u
  pending_nodup : pending.Nodup
  pending_spec : ∀ e ∈ pending, e ∈ plan.edges ∧ Slot.edge e ∉ w.trace.map slot
  closed : ∀ s selection, .released s selection ∈ w.trace → ∀ e, Within plan reach e →
    e.fromStage = s → e ∈ pending ∨ ∃ a, .resolved e a ∈ w.trace
  skip_le : skipHead ≤ w.skippedQueue.length
  skipped_nodup : w.skippedQueue.Nodup
  skipped_mem : ∀ s ∈ w.skippedQueue, .skipped s ∈ w.trace
  waiting_iff : ∀ s, s ∈ w.skippedQueue.drop skipHead ↔
    .skipped s ∈ w.trace ∧ ∀ selection, .released s selection ∉ w.trace

structure AllCompleted (plan : CompiledPlan) (world : World) (origin : ℕ) (tr : List Event) :
    Prop where
  origin : ∃ selection, .released origin selection ∈ tr
  sound : ∀ u, .dispatched u ∈ tr → ¬ world.Fails plan u
  unit : ∀ u, .dispatched u ∈ tr →
    Pending plan world u ∨ ∃ selection, .released (plan.unitExit u) selection ∈ tr

def AllArrived (plan : CompiledPlan) (reach : ℕ → Bool) (tr : List Event) : Prop :=
  ∀ s, Arrives plan reach tr s → ∃ ev ∈ tr, ev.slot = .arrival s

def Explained (plan : CompiledPlan) (world : World) (tr : List Event) : Cause → Prop
  | .route status => ∃ e st, world.routeEdgeActive plan e st = .error status
  | .unknownRoute => ∃ s, world.unknownRoute plan s = true
  | .admission status => ∃ s, world.admission s = status ∧ status ≠ .ok
  | .capture status => ∃ s, world.capture s = status ∧ status ≠ .ok
  | .emission status => ∃ s, world.emissionStatus s = status ∧ status ≠ .ok
  | .failure s status => ∃ us u, dispatchedStages tr = us ++ [u] ∧ plan.unitExit u = s ∧
      world.unitOffer plan u = some status ∧ status ≠ .ok ∧
      hasRejectEdge plan s = false ∧ ∀ u' ∈ us, ¬ world.Fails plan u'
  | _ => False

structure Halted (plan : CompiledPlan) (world : World) (origin : ℕ) (reach : ℕ → Bool)
    (stop : Stop) : Prop where
  legal : Legal plan world origin reach stop.workspace.trace
  queue_length : stop.workspace.queue.length ≤ plan.stageCount
  skippedQueue_length : stop.workspace.skippedQueue.length ≤ plan.stageCount
  explained : Explained plan world stop.workspace.trace stop.cause

theorem markDone_done_iff {w : Workspace} {s t : ℕ} :
    (w.markDone s).done t = true ↔ t = s ∨ w.done t = true := by
  by_cases ht : t = s
  · simp [ht]
  · simp [ht]

theorem markDone_eq_self {w : Workspace} {s : ℕ} (h : w.done s = true) : w.markDone s = w := by
  rw [markDone, ← h, update_eq_self]

theorem finished_snoc {s t : ℕ}
    (hev : ev = .admitted s ∨ ev = .skipped s ∨ ∃ selection, ev = .released s selection) :
    Finished (tr ++ [ev]) t ↔ t = s ∨ Finished tr t := by
  rcases hev with rfl | rfl | ⟨selection, rfl⟩ <;>
    simp only [Finished, mem_append, mem_singleton, reduceCtorEq, admitted.injEq, skipped.injEq,
      released.injEq, or_false, exists_or, exists_and_left, exists_eq, and_true] <;>
    tauto

variable {plan : CompiledPlan} {world : World} {origin head skipHead s : ℕ} {reach : ℕ → Bool}
  {pending rest : List Edge} {w : Workspace} {e : Edge}

namespace Tracks

variable (h : Tracks plan world origin reach head skipHead pending w)

include h

theorem readied_iff : s ∈ w.queue ↔ .readied s ∈ w.trace := by
  rw [h.queue_eq]
  exact mem_filterMap_event readied?_eq_some

theorem resolved_iff (hs : w.remaining s = 0) : ∀ e, Within plan reach e → e.toStage = s →
      ∃ a, .resolved e a ∈ w.trace := by
  intro e hwithin hto
  rw [h.remaining_eq, countP_eq_zero] at hs
  by_contra hopen
  exact hs e hwithin.1 (decide_eq_true ⟨hwithin.2, hto, fun hmem => hopen (edge_mem_slots.mp hmem)⟩)

theorem remaining_eq_zero (harrives : Arrives plan reach w.trace s) : w.remaining s = 0 := by
  rw [h.remaining_eq, countP_eq_zero]
  intro e hedge hout
  obtain ⟨hends, hto, hopen⟩ := of_decide_eq_true hout
  exact hopen (edge_mem_slots.mpr (harrives.2 e ⟨hedge, hends⟩ hto))

theorem remaining_pos (hwithin : Within plan reach e) (hopen : Slot.edge e ∉ w.trace.map slot) :
    0 < w.remaining e.toStage := by
  rw [h.remaining_eq, countP_pos_iff]
  exact ⟨e, hwithin.1, decide_eq_true ⟨hwithin.2, rfl, hopen⟩⟩

omit h in
theorem resolve (h : Tracks plan world origin reach head skipHead (e :: rest) w)
    (hreach : reach e.toStage = true) (hrel : .released e.fromStage selection ∈ w.trace)
    (hverdict : world.verdict plan selection e = .ok a) :
    Tracks plan world origin reach head skipHead rest
      ((w.resolve e a).log (.resolved e a)) := by
  obtain ⟨hedge, hopen⟩ := h.pending_spec e mem_cons_self
  have hwithin : Within plan reach e := ⟨hedge, (h.legal.released_spec hrel).1, hreach⟩
  have hrest := nodup_cons.mp h.pending_nodup
  refine
    { legal := h.legal.snoc ⟨hwithin, selection, hrel, hverdict⟩ ?_
      remaining_eq := ?_
      activated_iff := ?_
      queue_eq := ?_
      head_le := h.head_le
      dispatched_iff := ?_
      done_of := ?_
      done_cases := ?_
      pending_nodup := hrest.2
      pending_spec := ?_
      closed := ?_
      skip_le := h.skip_le
      skipped_nodup := h.skipped_nodup
      skipped_mem := ?_
      waiting_iff := ?_ }
  · intro ev hev hslot
    exact hopen (List.mem_map.mpr ⟨ev, hev, hslot⟩)
  · intro t
    rw [log_trace, resolve_trace, log_remaining, resolve_remaining]
    by_cases ht : t = e.toStage
    · subst ht
      have hcount := countP_ne_add_one (p := (Outstanding reach w.trace e.toStage ·))
        plan.edges_nodup hedge (decide_eq_true ⟨hwithin.2, rfl, hopen⟩)
      rw [update_self, h.remaining_eq, ← hcount, Nat.add_sub_cancel]
      refine countP_congr fun x _ => ?_
      simp only [decide_eq_true_eq, outstanding_snoc, slot, ne_eq, Slot.edge.injEq,
        Bool.and_eq_true, bne_iff_ne, eq_comm (a := e)]
    rw [update_of_ne ht, h.remaining_eq]
    refine countP_congr fun x _ => ?_
    simp only [decide_eq_true_eq, outstanding_snoc, slot, ne_eq, Slot.edge.injEq]
    refine ⟨fun hx => ⟨hx, fun heq => ht ?_⟩, And.left⟩
    rw [heq, hx.2.1]
  · intro t
    rw [log_trace, resolve_trace, log_activated,
      resolve_activated, activated_snoc_resolved, ← h.activated_iff]
    by_cases ht : t = e.toStage
    · subst ht
      cases a <;> simp
    · simp [update_of_ne ht, Ne.symm ht]
  · rw [log_queue, resolve_queue, h.queue_eq]
    simp [filterMap_cons, readied?]
  · simpa using h.dispatched_iff
  · simpa using h.done_of
  · simpa using h.done_cases
  · intro e' he'
    obtain ⟨hedge', hopen'⟩ := h.pending_spec e' (mem_cons_of_mem _ he')
    have hne : e' ≠ e := fun heq => hrest.1 (heq ▸ he')
    exact ⟨hedge', by simpa [slot, hne] using hopen'⟩
  · intro t selection' hrel' e' hwithin' hfrom
    rcases h.closed t selection' (by simpa using hrel') e' hwithin' hfrom with hmem | ⟨a', ha'⟩
    · rcases mem_cons.mp hmem with rfl | hmem
      · exact .inr ⟨a, by simp⟩
      · exact .inl hmem
    · exact .inr ⟨a', by simp [ha']⟩
  · simpa using h.skipped_mem
  · simpa using h.waiting_iff

omit h in
theorem pass (h : Tracks plan world origin reach head skipHead (e :: rest) w)
    (hto : reach e.toStage = false) : Tracks plan world origin reach head skipHead rest w :=
  { h with
    pending_nodup := (nodup_cons.mp h.pending_nodup).2
    pending_spec := fun e' he' => h.pending_spec e' (mem_cons_of_mem _ he')
    closed := by
      intro s selection hrel e' hwithin hfrom
      rcases h.closed s selection hrel e' hwithin hfrom with hmem | hres
      · rcases mem_cons.mp hmem with rfl | hmem
        · simp [hwithin.2.2] at hto
        · exact .inl hmem
      · exact .inr hres }

theorem ready (hbuffer : plan.isBuffer s = false) (harrives : Arrives plan reach w.trace s)
    (hactive : Activated w.trace s) (hnew : ∀ ev ∈ w.trace, ev.slot ≠ .arrival s) :
    Tracks plan world origin reach head skipHead pending
      ({ w with queue := w.queue ++ [s] }.log (.readied s)) where
  legal := h.legal.snoc ⟨hbuffer, harrives, hactive⟩ hnew
  remaining_eq := by simpa [outstanding_snoc, slot] using h.remaining_eq
  activated_iff := by simpa using h.activated_iff
  queue_eq := by simp [h.queue_eq, readied?]
  head_le := by
    have := h.head_le
    simp only [log_queue, length_append]
    omega
  dispatched_iff := by simpa [take_append_of_le_length h.head_le] using h.dispatched_iff
  done_of := by simpa using h.done_of
  done_cases := by simpa using h.done_cases
  pending_nodup := h.pending_nodup
  pending_spec := by simpa [slot] using h.pending_spec
  closed := by simpa using h.closed
  skip_le := h.skip_le
  skipped_nodup := h.skipped_nodup
  skipped_mem := by simpa using h.skipped_mem
  waiting_iff := by simpa using h.waiting_iff

theorem done_of_snoc
    (hev : ev = .admitted s ∨ ev = .skipped s ∨ ∃ selection, ev = .released s selection) (t : ℕ)
    (ht : Finished (w.trace ++ [ev]) t) : (w.markDone s).done t = true := by
  rw [markDone_done_iff]
  exact ((finished_snoc hev).mp ht).imp_right (h.done_of t)

theorem done_cases_snoc
    (hev : ev = .admitted s ∨ ev = .skipped s ∨ ∃ selection, ev = .released s selection) (t : ℕ)
    (ht : (w.markDone s).done t = true) :
    Finished (w.trace ++ [ev]) t ∨ ∃ u, .dispatched u ∈ w.trace ++ [ev] ∧ t ∈ plan.unit u := by
  rw [finished_snoc hev]
  rcases markDone_done_iff.mp ht with heq | ht
  · exact .inl (.inl heq)
  rcases h.done_cases t ht with hfinished | ⟨u, hu, hmem⟩
  · exact .inl (.inr hfinished)
  · exact .inr ⟨u, mem_append_left _ hu, hmem⟩

theorem admission (hbuffer : plan.isBuffer s = true) (harrives : Arrives plan reach w.trace s)
    (hactive : Activated w.trace s) (hnew : ∀ ev ∈ w.trace, ev.slot ≠ .arrival s) :
    Tracks plan world origin reach head skipHead pending
      ((w.markDone s).log (.admitted s)) where
  legal := h.legal.snoc ⟨hbuffer, harrives, hactive⟩ hnew
  remaining_eq := by simpa [outstanding_snoc, slot] using h.remaining_eq
  activated_iff := by simpa using h.activated_iff
  queue_eq := by simp [h.queue_eq, filterMap_cons, readied?]
  head_le := h.head_le
  dispatched_iff := by simpa using h.dispatched_iff
  done_of := h.done_of_snoc (.inl rfl)
  done_cases := h.done_cases_snoc (.inl rfl)
  pending_nodup := h.pending_nodup
  pending_spec := by simpa [slot] using h.pending_spec
  closed := by simpa using h.closed
  skip_le := h.skip_le
  skipped_nodup := h.skipped_nodup
  skipped_mem := by simpa using h.skipped_mem
  waiting_iff := by simpa using h.waiting_iff

theorem skip (harrives : Arrives plan reach w.trace s) (hactive : ¬ Activated w.trace s)
    (hnew : ∀ ev ∈ w.trace, ev.slot ≠ .arrival s) (hdone : w.done s = false) :
    Tracks plan world origin reach head skipHead pending
      ({ w.markDone s with skippedQueue := w.skippedQueue ++ [s] }.log (.skipped s)) where
  legal := h.legal.snoc ⟨harrives, hactive⟩ hnew
  remaining_eq := by simpa [outstanding_snoc, slot] using h.remaining_eq
  activated_iff := by simpa using h.activated_iff
  queue_eq := by simp [h.queue_eq, filterMap_cons, readied?]
  head_le := h.head_le
  dispatched_iff := by simpa using h.dispatched_iff
  done_of := h.done_of_snoc (.inr (.inl rfl))
  done_cases := h.done_cases_snoc (.inr (.inl rfl))
  pending_nodup := h.pending_nodup
  pending_spec := by simpa [slot] using h.pending_spec
  closed := by simpa using h.closed
  skip_le := by
    have := h.skip_le
    simp only [log_skippedQueue, length_append]
    omega
  skipped_nodup := by
    refine nodup_append_comm.mpr (nodup_cons.mpr ⟨fun hs => ?_, h.skipped_nodup⟩)
    exact hnew _ (h.skipped_mem s hs) rfl
  skipped_mem := by
    refine forall_mem_append.mpr ⟨fun t ht => ?_, by simp⟩
    exact mem_append_left _ (h.skipped_mem t ht)
  waiting_iff := by
    have hopen : ∀ selection, .released s selection ∉ w.trace := by
      intro selection hrel
      have := h.done_of s (.inl ⟨selection, hrel⟩)
      simp [this] at hdone
    intro t
    rw [log_skippedQueue, drop_append_of_le_length h.skip_le, mem_append, h.waiting_iff]
    by_cases ht : t = s
    · subst ht
      simp [hopen]
    · simp [ht]

omit h in
theorem release (h : Tracks plan world origin reach head skipHead [] w) {q : List ℕ} {k : ℕ}
    (henabled : Enabled plan world origin reach w.trace (.released s selection))
    (hnew : ∀ selection', .released s selection' ∉ w.trace) (hk : k ≤ q.length) (hq : q.Nodup)
    (hmem : ∀ t ∈ q, .skipped t ∈ w.trace) (hwaiting : ∀ t, t ∈ q.drop k ↔
      t ≠ s ∧ .skipped t ∈ w.trace ∧ ∀ selection', .released t selection' ∉ w.trace) :
    Tracks plan world origin reach head k (plan.edges.filter fun e => e.fromStage = s)
      ({ w.markDone s with skippedQueue := q }.log (.released s selection)) where
  legal := by
    refine h.legal.snoc henabled fun ev hev hslot => ?_
    cases ev with
    | released t selection' => cases hslot; exact hnew selection' hev
    | resolved | readied | admitted | skipped | dispatched => cases hslot
  remaining_eq := by simpa [outstanding_snoc, slot] using h.remaining_eq
  activated_iff := by simpa using h.activated_iff
  queue_eq := by simp [h.queue_eq, filterMap_cons, readied?]
  head_le := h.head_le
  dispatched_iff := by simpa using h.dispatched_iff
  done_of := h.done_of_snoc (.inr (.inr ⟨selection, rfl⟩))
  done_cases := h.done_cases_snoc (.inr (.inr ⟨selection, rfl⟩))
  pending_nodup := plan.edges_nodup.filter _
  pending_spec := by
    intro e he
    obtain ⟨hedge, hfrom⟩ := mem_filter.mp he
    refine ⟨hedge, ?_⟩
    simp only [log_trace, markDone_trace, map_append, map_cons, map_nil, slot, mem_append,
      mem_singleton, reduceCtorEq, or_false, edge_mem_slots]
    rintro ⟨a, ha⟩
    obtain ⟨-, selection', hrel, -⟩ := h.legal.resolved_spec ha
    exact hnew selection' (of_decide_eq_true hfrom ▸ hrel)
  closed := by
    intro t selection' hrel e hwithin hfrom
    rcases mem_append.mp hrel with hrel | hrel
    · obtain hnil | ⟨a, ha⟩ := h.closed t selection' hrel e hwithin hfrom
      · cases hnil
      · exact .inr ⟨a, mem_append_left _ ha⟩
    have ht : t = s := by simpa using (released.inj (mem_singleton.mp hrel)).1
    exact .inl (mem_filter.mpr ⟨hwithin.1, decide_eq_true (hfrom.trans ht)⟩)
  skip_le := hk
  skipped_nodup := hq
  skipped_mem := fun t ht => mem_append_left _ (hmem t ht)
  waiting_iff := by
    intro t
    simp only [log_skippedQueue, hwaiting, log_trace, markDone_trace,
      mem_append, mem_singleton, reduceCtorEq, or_false, released.injEq]
    constructor
    · rintro ⟨hne, hskip, hopen⟩
      exact ⟨hskip, fun selection' hor => hor.elim (hopen selection') fun heq => hne heq.1⟩
    rintro ⟨hskip, hopen⟩
    exact ⟨fun heq => hopen selection (.inr ⟨heq, rfl⟩), hskip,
      fun selection' hrel => hopen selection' (.inl hrel)⟩

theorem queue_nodup : w.queue.Nodup := by
  rw [h.queue_eq]
  exact h.legal.filterMap_nodup readied?_eq_some

theorem not_dispatched_of_head (hu : w.queue[head]? = some u) : .dispatched u ∉ w.trace := by
  intro hev
  have hnodup := h.queue_nodup
  have hbefore := (h.dispatched_iff u).mp hev
  have hafter : u ∈ w.queue.drop head := by
    refine mem_of_getElem? (i := 0) ?_
    rw [getElem?_drop, Nat.add_zero, hu]
  rw [← take_append_drop head w.queue, nodup_append] at hnodup
  exact hnodup.2.2 u hbefore u hafter rfl

omit h in
theorem dispatch (h : Tracks plan world origin reach head skipHead [] w)
    (hu : w.queue[head]? = some u) (hdone : ∀ s, w.done s = true → d s = true)
    (hunit : ∀ s, d s = true → w.done s = true ∨ s ∈ plan.unit u) :
    Tracks plan world origin reach (head + 1) skipHead []
      ({ w with done := d }.log (.dispatched u)) where
  legal := by
    have hready : .readied u ∈ w.trace := h.readied_iff.mp (mem_of_getElem? hu)
    refine h.legal.snoc hready fun ev hev hslot => ?_
    cases ev with
    | dispatched t => cases hslot; exact h.not_dispatched_of_head hu hev
    | released | resolved | readied | admitted | skipped => cases hslot
  remaining_eq := by simpa [outstanding_snoc, slot] using h.remaining_eq
  activated_iff := by simpa using h.activated_iff
  queue_eq := by simp [h.queue_eq, filterMap_cons, readied?]
  head_le := (List.getElem?_eq_some_iff.mp hu).1
  dispatched_iff := by
    intro s
    rw [log_queue, take_add_one, hu, log_trace, mem_append, h.dispatched_iff]
    simp
  done_of := by
    intro s hs
    exact hdone s (h.done_of s (by simpa using hs))
  done_cases := by
    intro s hs
    rcases hunit s hs with hs | hs
    · rcases h.done_cases s hs with hfinished | ⟨u', hu', hmem⟩
      · exact .inl (by simpa using hfinished)
      · exact .inr ⟨u', mem_append_left _ hu', hmem⟩
    · exact .inr ⟨u, by simp, hs⟩
  pending_nodup := h.pending_nodup
  pending_spec := by simp
  closed := by simpa using h.closed
  skip_le := h.skip_le
  skipped_nodup := h.skipped_nodup
  skipped_mem := by simpa using h.skipped_mem
  waiting_iff := by simpa using h.waiting_iff

section Bounds

variable (horigin : origin < plan.stageCount) (hreach : ∀ s, reach s = true ↔ plan.Reaches origin s)
include horigin hreach

theorem lt_of_arrival (hev : ev ∈ w.trace) (hslot : ev.slot = .arrival s) : s < plan.stageCount :=
  ((hreach s).mp (h.legal.reached hreach hev hslot).1).lt horigin

theorem queue_length_le : w.queue.length ≤ plan.stageCount := by
  exact length_le_of_lt h.queue_nodup fun s hs =>
    h.lt_of_arrival horigin hreach (h.readied_iff.mp hs) rfl

theorem skippedQueue_length_le : w.skippedQueue.length ≤ plan.stageCount :=
  length_le_of_lt h.skipped_nodup fun s hs =>
    h.lt_of_arrival horigin hreach (h.skipped_mem s hs) rfl

theorem halted (hcause : Explained plan world w.trace cause) :
    Halted plan world origin reach ⟨cause, w⟩ :=
  ⟨h.legal, h.queue_length_le horigin hreach, h.skippedQueue_length_le horigin hreach, hcause⟩

end Bounds

end Tracks

section Ends

variable (horigin : origin < plan.stageCount) (hreach : ∀ s, reach s = true ↔ plan.Reaches origin s)

structure Resting (plan : CompiledPlan) (world : World) (origin : ℕ) (reach : ℕ → Bool)
    (head : ℕ) (w : Workspace) : Prop where
  tracks : Tracks plan world origin reach head w.skippedQueue.length [] w
  arrived : AllArrived plan reach w.trace
  completed : AllCompleted plan world origin w.trace

/-- What holds between two edges of the stage `current` that is being released. -/
structure Releasing (plan : CompiledPlan) (world : World) (origin : ℕ) (reach : ℕ → Bool)
    (head skipHead current : ℕ) (selection : Option Status) (rest : List Edge)
    (w : Workspace) : Prop where
  tracks : Tracks plan world origin reach head skipHead rest w
  arrived : AllArrived plan reach w.trace
  completed : AllCompleted plan world origin w.trace
  released : .released current selection ∈ w.trace
  from_current : ∀ e ∈ rest, e.fromStage = current

theorem AllCompleted.mono (h : AllCompleted plan world origin tr) (hev : ∀ u, ev ≠ .dispatched u) :
    AllCompleted plan world origin (tr ++ [ev]) := by
  have hold : ∀ u, .dispatched u ∈ tr ++ [ev] → .dispatched u ∈ tr := by
    intro u hu
    rcases mem_append.mp hu with hu | hu
    · exact hu
    · exact absurd (mem_singleton.mp hu).symm (hev u)
  refine ⟨h.origin.imp fun _ => mem_append_left _, fun u hu => h.sound u (hold u hu),
    fun u hu => ?_⟩
  exact (h.unit u (hold u hu)).imp_right fun hrel => hrel.imp fun _ => mem_append_left _

theorem AllCompleted.snoc {post : List Event} (h : AllCompleted plan world origin tr)
    (hpost : ∀ u', .dispatched u' ∉ post) (hfails : ¬ world.Fails plan u)
    (hunit : Pending plan world u ∨ ∃ selection, .released (plan.unitExit u) selection ∈ post) :
    AllCompleted plan world origin (tr ++ .dispatched u :: post) := by
  have hcases : ∀ u', .dispatched u' ∈ tr ++ .dispatched u :: post →
      u' = u ∨ .dispatched u' ∈ tr := by
    intro u' hu'
    have hmem := mem_append.mp hu'
    simp only [mem_cons, dispatched.injEq, hpost, or_false] at hmem
    exact hmem.symm
  refine ⟨h.origin.imp fun _ => mem_append_left _, fun u' hu' => ?_, fun u' hu' => ?_⟩
  · rcases hcases u' hu' with rfl | hold
    · exact hfails
    · exact h.sound u' hold
  rcases hcases u' hu' with rfl | hold
  · exact hunit.imp_right fun hrel => hrel.imp fun _ hmem => by simp [hmem]
  · exact (h.unit u' hold).imp_right fun hrel => hrel.imp fun _ => mem_append_left _

theorem Pending.not_fails (h : Pending plan world u) : ¬ world.Fails plan u := by
  rintro ⟨status, hoffer, hne, -⟩
  rw [unitOffer, offer] at hoffer
  split at hoffer
  · cases hoffer
  · exact hne (some.inj hoffer ▸ h.1)

theorem arrives_snoc (hev : ∀ e a, ev ≠ .resolved e a) :
    Arrives plan reach (tr ++ [ev]) s ↔ Arrives plan reach tr s := by
  have hmem : ∀ e a, .resolved e a ∈ tr ++ [ev] ↔ .resolved e a ∈ tr := by
    intro e a
    rw [mem_append, mem_singleton]
    exact or_iff_left fun heq => hev e a heq.symm
  simp only [Arrives, hmem]

theorem arrives_of_snoc_resolved (hne : s ≠ e.toStage)
    (h : Arrives plan reach (tr ++ [.resolved e a]) s) : Arrives plan reach tr s := by
  refine ⟨h.1, fun e' hwithin hto => ?_⟩
  obtain ⟨a', ha'⟩ := h.2 e' hwithin hto
  rcases mem_append.mp ha' with ha' | ha'
  · exact ⟨a', ha'⟩
  have heq := (resolved.inj (mem_singleton.mp ha')).1
  exact absurd (heq ▸ hto.symm) hne

theorem AllArrived.mono (h : AllArrived plan reach tr) (hev : ∀ e a, ev ≠ .resolved e a) :
    AllArrived plan reach (tr ++ [ev]) := by
  intro s hs
  obtain ⟨ev', hev', hslot⟩ := h s ((arrives_snoc hev).mp hs)
  exact ⟨ev', mem_append_left _ hev', hslot⟩

theorem AllArrived.snoc (hslot : ev.slot = .arrival s)
    (hothers : ∀ t, t ≠ s → Arrives plan reach tr t → ∃ ev ∈ tr, ev.slot = .arrival t) :
    AllArrived plan reach (tr ++ [ev]) := by
  intro t ht
  have hev : ∀ e a, ev ≠ .resolved e a := by
    rintro e a rfl
    cases hslot
  by_cases heq : t = s
  · exact ⟨ev, by simp, heq ▸ hslot⟩
  obtain ⟨ev', hev', hslot'⟩ := hothers t heq ((arrives_snoc hev).mp ht)
  exact ⟨ev', mem_append_left _ hev', hslot'⟩

include hreach in
theorem Tracks.done_of_arrives (h : Tracks plan world origin reach head skipHead pending w)
    (harrives : Arrives plan reach w.trace s) (hdone : w.done s = true) :
    .skipped s ∈ w.trace ∨ .admitted s ∈ w.trace ∨ .dispatched s ∈ w.trace := by
  have hunit : ∀ u, .dispatched u ∈ w.trace → s ∈ plan.unit u → .dispatched s ∈ w.trace := by
    intro u hu hmem
    rw [h.legal.eq_of_arrives_mem_unit hreach harrives hu hmem]
    exact hu
  rcases h.done_cases s hdone with (⟨selection, hrel⟩ | hadmitted | hskipped) | ⟨u, hu, hmem⟩
  · obtain ⟨-, ⟨heq, -⟩ | ⟨hskipped, -⟩ | ⟨u, hu, rfl, -⟩⟩ := h.legal.released_spec hrel
    · exact absurd heq (harrives.reached hreach).2
    · exact .inl hskipped
    · exact .inr (.inr (hunit u hu (unitExit_mem_unit u)))
  · exact .inr (.inl hadmitted)
  · exact .inl hskipped
  · exact .inr (.inr (hunit u hu hmem))

include horigin hreach

theorem arrive_ends (h : Tracks plan world origin reach head skipHead rest w)
    (hothers : ∀ t, t ≠ s → Arrives plan reach w.trace t → ∃ ev ∈ w.trace, ev.slot = .arrival t)
    (hcompleted : AllCompleted plan world origin w.trace) (harrives : Arrives plan reach w.trace s)
    (hnew : ∀ ev ∈ w.trace, ev.slot ≠ .arrival s) :
    Ends (fun w' => Tracks plan world origin reach head skipHead rest w' ∧
        AllArrived plan reach w'.trace ∧ AllCompleted plan world origin w'.trace ∧
          w.trace ⊆ w'.trace)
      (Halted plan world origin reach) (arrive plan world s w) := by
  unfold arrive
  by_cases hactive : 0 < w.activated s
  · have hactive' := (h.activated_iff s).mp hactive
    rw [if_pos hactive]
    cases hbuffer : plan.isBuffer s with
    | true =>
      by_cases hstatus : world.admission s = .ok
      · rw [if_pos rfl, if_neg (not_not.mpr hstatus)]
        exact ⟨h.admission hbuffer harrives hactive' hnew, AllArrived.snoc rfl hothers,
          hcompleted.mono (by simp), by simp⟩
      rw [if_pos rfl, if_pos hstatus]
      exact h.halted horigin hreach ⟨s, rfl, hstatus⟩
    | false =>
      have hready := h.ready hbuffer harrives hactive' hnew
      have hlength := hready.queue_length_le horigin hreach
      rw [log_queue, length_append, length_singleton] at hlength
      rw [if_neg (by simp), enqueueReady, if_neg (by omega)]
      exact ⟨hready, AllArrived.snoc rfl hothers, hcompleted.mono (by simp), by simp⟩
  have hinactive : ¬ Activated w.trace s := fun hact => hactive ((h.activated_iff s).mpr hact)
  have hdone : w.done s = false := by
    by_contra hdone
    rcases h.done_of_arrives hreach harrives (by simpa using hdone) with hev | hev | hev
    · exact hnew _ hev rfl
    · exact hnew _ hev rfl
    · exact hnew _ (h.legal.dispatched_spec hev) rfl
  have hskip := h.skip harrives hinactive hnew hdone
  have hlength := hskip.skippedQueue_length_le horigin hreach
  rw [log_skippedQueue, length_append, length_singleton] at hlength
  rw [if_neg hactive, if_neg (by simp [hdone]), enqueueSkipped, markDone_skippedQueue,
    if_neg (by omega)]
  exact ⟨hskip, AllArrived.snoc rfl hothers, hcompleted.mono (by simp), by simp⟩

theorem releaseEdge_ends
    (h : Releasing plan world origin reach head skipHead current selection (e :: rest) w) :
    Ends (Releasing plan world origin reach head skipHead current selection rest)
      (Halted plan world origin reach) (releaseEdge plan world reach current selection w e) := by
  have hfrom : e.fromStage = current := h.from_current e mem_cons_self
  have hrest : ∀ e' ∈ rest, e'.fromStage = current :=
    fun e' he' => h.from_current e' (mem_cons_of_mem _ he')
  obtain ⟨hedge, hopen⟩ := h.tracks.pending_spec e mem_cons_self
  rw [releaseEdge, if_neg (not_not.mpr hfrom)]
  by_cases hto : reach e.toStage = true
  swap
  · have hto' : reach e.toStage = false := by simpa using hto
    rw [if_pos hto']
    exact ⟨h.tracks.pass hto', h.arrived, h.completed, h.released, hrest⟩
  have hrel : .released e.fromStage selection ∈ w.trace := hfrom ▸ h.released
  have hwithin : Within plan reach e := ⟨hedge, (h.tracks.legal.released_spec hrel).1, hto⟩
  have hpos := h.tracks.remaining_pos hwithin hopen
  rw [if_neg (by simp [hto]), if_neg (by omega)]
  cases hverdict : world.verdict plan selection e with
  | error status =>
    refine h.tracks.halted horigin hreach ?_
    cases selection with
    | none => cases hverdict
    | some st => exact ⟨e, st, hverdict⟩
  | ok active =>
    have htracks := h.tracks.resolve hto hrel hverdict
    have hcompleted : AllCompleted plan world origin (w.trace ++ [.resolved e active]) :=
      h.completed.mono (by simp)
    have hrel' : .released current selection ∈ w.trace ++ [.resolved e active] :=
      mem_append_left _ h.released
    have hothers : ∀ t, t ≠ e.toStage → Arrives plan reach (w.trace ++ [.resolved e active]) t →
        ∃ ev ∈ w.trace ++ [.resolved e active], ev.slot = .arrival t := by
      intro t ht harrives
      obtain ⟨ev, hev, hslot⟩ := h.arrived t (arrives_of_snoc_resolved ht harrives)
      exact ⟨ev, mem_append_left _ hev, hslot⟩
    dsimp only
    split
    case isTrue hzero =>
      have harrives : Arrives plan reach (w.trace ++ [.resolved e active]) e.toStage :=
        ⟨⟨e, hwithin, rfl⟩, htracks.resolved_iff hzero⟩
      have hnew : ∀ ev ∈ w.trace ++ [.resolved e active], ev.slot ≠ .arrival e.toStage := by
        refine forall_mem_append.mpr ⟨fun ev hev hslot => ?_, by simp [slot]⟩
        exact hopen (edge_mem_slots.mpr ((h.tracks.legal.arrives hev hslot).2 e hwithin rfl))
      refine (arrive_ends horigin hreach htracks hothers hcompleted harrives hnew).mono ?_
        fun _ => id
      rintro w' ⟨htracks', harrived', hcompleted', hsub⟩
      exact ⟨htracks', harrived', hcompleted', hsub hrel', hrest⟩
    case isFalse hzero =>
      refine ⟨htracks, fun t ht => ?_, hcompleted, hrel', hrest⟩
      by_cases heq : t = e.toStage
      · exact absurd (htracks.remaining_eq_zero (heq ▸ ht)) hzero
      · exact hothers t heq ht

theorem releaseStage_ends (hlt : current < plan.stageCount)
    (h : Tracks plan world origin reach head skipHead
      (plan.edges.filter fun e => e.fromStage = current) (w.log (.released current selection)))
    (harrived : AllArrived plan reach w.trace)
    (hcompleted : AllCompleted plan world origin (w.trace ++ [.released current selection])) :
    Ends (fun w' => Tracks plan world origin reach head skipHead [] w' ∧
        AllArrived plan reach w'.trace ∧ AllCompleted plan world origin w'.trace)
      (Halted plan world origin reach) (releaseStage plan world reach selection current w) := by
  rw [releaseStage, plan.outgoing?_eq hlt]
  have hstart : Releasing plan world origin reach head skipHead current selection
      (plan.edges.filter fun e => e.fromStage = current) (w.log (.released current selection)) :=
    ⟨h, harrived.mono (by simp), hcompleted, by simp, by simp⟩
  refine (Ends.foldlM
    (fun e rest w => releaseEdge_ends horigin hreach) _ _ hstart).mono ?_ fun _ => id
  intro w' hw'
  exact ⟨hw'.tracks, hw'.arrived, hw'.completed⟩

theorem releaseDownstream_ends (h : Tracks plan world origin reach head w.skippedQueue.length [] w)
    (henabled : Enabled plan world origin reach w.trace (.released s selection))
    (hnew : ∀ selection', .released s selection' ∉ w.trace)
    (harrived : AllArrived plan reach w.trace)
    (hcompleted : AllCompleted plan world origin (w.trace ++ [.released s selection])) :
    Ends (Resting plan world origin reach head) (Halted plan world origin reach)
      (releaseDownstream plan world reach s selection (w.markDone s)) := by
  have hlt : ∀ t, reach t = true → t < plan.stageCount := fun t ht => ((hreach t).mp ht).lt horigin
  have hwaiting : ∀ t, t ∈ ([] : List ℕ).drop 0 ↔
      t ≠ s ∧ .skipped t ∈ w.trace ∧ ∀ selection', .released t selection' ∉ w.trace := by
    intro t
    have hnone := h.waiting_iff t
    rw [drop_length] at hnone
    exact ⟨fun hmem => by simp at hmem, fun hwait => by simpa using hnone.mpr hwait.2⟩
  have hstart := h.release henabled hnew (by simp) (by simp) (by simp) hwaiting
  refine (releaseStage_ends horigin hreach (hlt s henabled.1) hstart harrived hcompleted).bind ?_
  rintro w₁ ⟨htracks, harrived₁, hcompleted₁⟩
  -- The queue of skipped stages grows while it is processed.
  refine (Ends.drain (n := plan.stageCount)
    (I := fun k w => Tracks plan world origin reach head k [] w ∧ AllArrived plan reach w.trace ∧
      AllCompleted plan world origin w.trace) ?_ ?_ _ 0 w₁ ⟨htracks, harrived₁, hcompleted₁⟩
      (by omega)).mono ?_ fun _ => id
  · intro k w' hw'
    exact ⟨hw'.1.skip_le, hw'.1.skippedQueue_length_le horigin hreach⟩
  · rintro k w' t ⟨htracks', harrived', hcompleted'⟩ ht
    have hlength : k < w'.skippedQueue.length := (List.getElem?_eq_some_iff.mp ht).1
    have hdrop : w'.skippedQueue.drop k = t :: w'.skippedQueue.drop (k + 1) := by
      rw [drop_eq_getElem_cons hlength, (List.getElem?_eq_some_iff.mp ht).2]
    obtain ⟨hskip, hopen⟩ := (htracks'.waiting_iff t).mp (by simp [hdrop])
    have hdone : w'.markDone t = w' := markDone_eq_self (htracks'.done_of t (.inr (.inr hskip)))
    have hreached := (htracks'.legal.reached hreach hskip rfl).1
    have hnotin : t ∉ w'.skippedQueue.drop (k + 1) := by
      have hnodup := htracks'.skipped_nodup.sublist (drop_sublist k _)
      rw [hdrop] at hnodup
      exact (nodup_cons.mp hnodup).1
    have hrelease := htracks'.release
      ⟨hreached, .inr (.inl ⟨hskip, rfl⟩)⟩ hopen hlength htracks'.skipped_nodup
      htracks'.skipped_mem ?_
    · rw [hdone] at hrelease
      exact releaseStage_ends horigin hreach (hlt t hreached) hrelease harrived'
        (hcompleted'.mono (by simp))
    intro t'
    rw [← htracks'.waiting_iff, hdrop, mem_cons]
    constructor
    · intro hmem
      exact ⟨fun heq => hnotin (heq ▸ hmem), .inr hmem⟩
    rintro ⟨hne, heq | hmem⟩
    · exact absurd heq hne
    · exact hmem
  intro w' hw'
  exact ⟨hw'.1, hw'.2.1, hw'.2.2⟩

theorem applyCompletion_ends (h : Tracks plan world origin reach head w.skippedQueue.length [] w)
    (hdone : w.done s = false)
    (henabled : Enabled plan world origin reach w.trace (.released s (world.offer s c)))
    (harrived : AllArrived plan reach w.trace)
    (hcompleted : (∀ status, world.offer s c = some status → status ≠ .ok →
        hasRejectEdge plan s = true) →
      AllCompleted plan world origin (w.trace ++ [.released s (world.offer s c)]))
    (hfailure : ∀ status, world.offer s c = some status → status ≠ .ok →
      hasRejectEdge plan s = false → Explained plan world w.trace (.failure s status)) :
    Ends (Resting plan world origin reach head) (Halted plan world origin reach)
      (applyCompletion plan world reach s c w) := by
  have hlt : s < plan.stageCount := ((hreach s).mp henabled.1).lt horigin
  have hnew : ∀ selection, .released s selection ∉ w.trace := by
    intro selection hrel
    simp [h.done_of s (.inl ⟨selection, hrel⟩)] at hdone
  have hrelease : (∀ status, world.offer s c = some status → status ≠ .ok →
        hasRejectEdge plan s = true) →
      Ends (Resting plan world origin reach head) (Halted plan world origin reach)
        (releaseOnce plan world reach s (world.offer s c) w) := by
    intro hreject
    rw [releaseOnce, if_neg (by simp [hdone])]
    exact releaseDownstream_ends horigin hreach h henabled hnew harrived (hcompleted hreject)
  rw [applyCompletion, if_neg (by omega)]
  split
  case isTrue hunknown => exact h.halted horigin hreach ⟨s, hunknown⟩
  case isFalse =>
    by_cases hdropped : world.dropped s = true ∨ c.terminal = true
    · have hoffer : world.offer s c = none := if_pos hdropped
      rw [hoffer] at hrelease
      have hends := hrelease (by simp)
      rcases hdropped with hdropped | hterminal
      · rw [if_pos hdropped]
        exact hends
      rw [if_pos hterminal, ite_self]
      exact hends
    have hoffer : world.offer s c = some c.status := if_neg hdropped
    rw [not_or] at hdropped
    rw [if_neg hdropped.1, if_neg hdropped.2]
    rw [hoffer] at hrelease
    by_cases hstatus : c.status = .ok
    · rw [if_neg (not_not.mpr hstatus)]
      refine hrelease fun status heq hne => absurd hstatus ?_
      exact some.inj heq ▸ hne
    rw [if_pos hstatus]
    cases hreject : hasRejectEdge plan s with
    | false =>
      rw [if_pos rfl]
      exact h.halted horigin hreach (hfailure c.status hoffer hstatus hreject)
    | true =>
      rw [if_neg (by simp)]
      by_cases hcapture : world.capture s = .ok
      · rw [if_neg (not_not.mpr hcapture)]
        exact hrelease fun _ _ _ => hreject
      rw [if_pos hcapture]
      exact h.halted horigin hreach ⟨s, rfl, hcapture⟩

omit horigin in
theorem Tracks.unit_undone (h : Tracks plan world origin reach head skipHead [] w) {m : ℕ}
    (hu : w.queue[head]? = some u) (hm : m ∈ plan.unit u) : w.done m = false := by
  have hready : .readied u ∈ w.trace := h.readied_iff.mp (mem_of_getElem? hu)
  have hnot := h.not_dispatched_of_head hu
  -- In the schedule that goes on with this unit, its stages belong to no other unit.
  have hlegal := (h.dispatch hu (fun _ => id) (fun _ => .inl)).legal
  have hmem : .dispatched u ∈ w.trace ++ [.dispatched u] := by simp
  have hother : ∀ u', .dispatched u' ∈ w.trace → m ∉ plan.unit u' := by
    intro u' hu' hm'
    have heq := hlegal.unit_unique hreach hmem (mem_append_left _ hu') hm hm'
    exact hnot (heq ▸ hu')
  have hself : ∀ ev ∈ w.trace, ev.slot = .arrival m → ev = .readied u := by
    intro ev hev hslot
    have hev' : ev ∈ w.trace ++ [.dispatched u] := mem_append_left _ hev
    have heq := hlegal.eq_of_arrives_mem_unit hreach (hlegal.arrives hev' hslot) hmem hm
    exact h.legal.unique hev hready (heq ▸ hslot)
  obtain ⟨hreached, hne⟩ := h.legal.reached hreach hready rfl
  by_contra hdone
  rcases h.done_cases m (by simpa using hdone) with
    (⟨selection, hrel⟩ | hadmitted | hskipped) | ⟨u', hu', hm'⟩
  · obtain ⟨-, ⟨rfl, -⟩ | ⟨hskipped, -⟩ | ⟨u', hu', rfl, -⟩⟩ := h.legal.released_spec hrel
    · rcases plan.unit_cases u with ⟨-, hunit, -⟩ | ⟨r, hr, rfl, hunit, -⟩
      · rw [hunit] at hm
        exact hne (mem_singleton.mp hm).symm
      · exact origin_not_mem_of_entry hreach hr hreached hne (hunit ▸ hm)
    · cases hself _ hskipped rfl
    · exact hother u' hu' (unitExit_mem_unit u')
  · cases hself _ hadmitted rfl
  · cases hself _ hskipped rfl
  · exact hother u' hu' hm'

theorem applyUnit_ends (h : Resting plan world origin reach head w) (hu : w.queue[head]? = some u)
    (hdone : ∀ s, w.done s = true → d s = true)
    (hunit : ∀ s, d s = true → w.done s = true ∨ s ∈ plan.unit u)
    (hexit : d (plan.unitExit u) = false) :
    Ends (Resting plan world origin reach (head + 1)) (Halted plan world origin reach)
      (applyCompletion plan world reach (plan.unitExit u) (world.unitCompletion plan u)
        ({ w with done := d }.log (.dispatched u))) := by
  have hready : .readied u ∈ w.trace := h.tracks.readied_iff.mp (mem_of_getElem? hu)
  obtain ⟨hreached, -⟩ := h.tracks.legal.reached hreach hready rfl
  have hexit_reached : reach (plan.unitExit u) = true := by
    rcases plan.unit_cases u with ⟨-, -, heq⟩ | ⟨r, hr, rfl, -, heq⟩
    · rw [heq]
      exact hreached
    rw [heq]
    exact members_reached hreach hr hreached r.exitStage_mem
  refine applyCompletion_ends horigin hreach (h.tracks.dispatch hu hdone hunit) hexit
    ⟨hexit_reached, .inr (.inr ⟨u, by simp, rfl, rfl⟩)⟩ (h.arrived.mono (by simp)) ?_ ?_
  · intro hreject
    have hfails : ¬ world.Fails plan u := by
      rintro ⟨status, hoffer, hne, hnone⟩
      rw [hreject status hoffer hne] at hnone
      cases hnone
    rw [log_trace, append_assoc]
    exact h.completed.snoc (by simp) hfails (.inr ⟨_, mem_singleton_self _⟩)
  intro status hoffer hne hnone
  refine ⟨dispatchedStages w.trace, u, ?_, rfl, hoffer, hne, hnone, fun u' hu' => ?_⟩
  · simp [dispatchedStages, dispatched?]
  · exact h.completed.sound u' (mem_dispatchedStages.mp hu')

theorem dispatchStage_ends (h : Resting plan world origin reach head w)
    (hu : w.queue[head]? = some u) :
    Ends (Resting plan world origin reach (head + 1)) (Halted plan world origin reach)
      (dispatchStage plan world reach u w) := by
  have hready : .readied u ∈ w.trace := h.tracks.readied_iff.mp (mem_of_getElem? hu)
  have hbuffer := (h.tracks.legal.readied_spec hready).1
  have hself : w.done u = false := h.tracks.unit_undone hreach hu (mem_unit_self u)
  have hexit : w.done (plan.unitExit u) = false :=
    h.tracks.unit_undone hreach hu (unitExit_mem_unit u)
  have hplain := applyUnit_ends horigin hreach h hu (fun _ => id) (fun _ => .inl) hexit
  rw [dispatchStage, if_neg (by simp [hself]), if_neg (by simp [hbuffer])]
  cases hregion : plan.regionForEntry u with
  | some r =>
    obtain ⟨hr, rfl⟩ := regionForEntry_some hregion
    have hport := plan.isPort_of_mem hr r.entryStage_mem
    have hunit : plan.unit r.entryStage = r.members := by rw [unit, hregion]
    have hexit_eq : plan.unitExit r.entryStage = r.exitStage := by
      rw [unitExit, hregion]
    have hcompletion : world.unitCompletion plan r.entryStage =
        { status := world.regionStatus r.entryStage } := by
      rw [unitCompletion, hport, hregion]
      rfl
    have hlt : r.exitStage < plan.stageCount := (plan.regions_executable r hr _ r.exitStage_mem).1
    rw [hexit_eq] at hexit
    have hends := applyUnit_ends horigin hreach h hu
      (d := fun s => (s ∈ r.members ∧ s ≠ r.exitStage) || w.done s)
      (fun s hs => by simp [hs])
      (fun s hs => by
        rcases (Bool.or_eq_true _ _).mp hs with hs | hs
        · exact .inr (hunit ▸ (of_decide_eq_true hs).1)
        · exact .inl hs)
      (by simp [hexit_eq, hexit])
    rw [hexit_eq, hcompletion] at hends
    rw [if_neg (by simp [hport])]
    dsimp only
    rw [if_neg (by omega)]
    exact hends
  | none =>
    have hexit_eq : plan.unitExit u = u := by rw [unitExit, hregion]
    rw [hexit_eq] at hplain
    cases hport : plan.isPort u with
    | true =>
      have hcompletion : world.unitCompletion plan u = { status := .ok } := by
        rw [unitCompletion, hport]
        rfl
      rw [hcompletion] at hplain
      exact hplain
    | false =>
      have hcompletion : world.unitCompletion plan u = world.stageCompletion plan u := by
        rw [unitCompletion, hport, hregion]
        rfl
      rw [hcompletion] at hplain
      rw [if_neg (by simp)]
      dsimp only
      rw [runStage]
      split
      case isTrue hemission =>
        have htracks := h.tracks.dispatch hu (fun _ => id) (fun _ => .inl)
        exact htracks.halted horigin hreach ⟨u, rfl, hemission.2.2⟩
      case isFalse =>
        dsimp only
        split
        case isTrue hpending =>
          rw [← hcompletion] at hpending
          have htracks := h.tracks.dispatch (d := update w.done u true) hu
            (fun s hs => (markDone_done_iff (w := w)).mpr (.inr hs))
            (fun s hs => by
              rcases (markDone_done_iff (w := w)).mp hs with rfl | hs
              · exact .inr (mem_unit_self s)
              · exact .inl hs)
          exact ⟨htracks, h.arrived.mono (by simp),
            h.completed.snoc (by simp) (Pending.not_fails hpending) (.inl hpending)⟩
        case isFalse => exact hplain

omit horigin hreach in
theorem countEdges_eq (s : ℕ) :
    countEdges plan reach s = plan.edges.countP (Outstanding reach [] s ·) := by
  have hfold : ∀ (l : List Edge) (init : ℕ → ℕ), l.foldl (fun remaining e =>
        if reach e.fromStage ∧ reach e.toStage then
          update remaining e.toStage (remaining e.toStage + 1)
        else remaining) init s = init s + l.countP (Outstanding reach [] s ·) := by
    intro l
    induction l with
    | nil => simp
    | cons e l ih =>
      intro init
      rw [foldl_cons, ih, countP_cons]
      by_cases hends : reach e.fromStage = true ∧ reach e.toStage = true
      · rw [if_pos hends]
        by_cases hto : e.toStage = s
        · subst hto
          rw [update_self, if_pos (decide_eq_true ⟨hends, rfl, by simp⟩)]
          omega
        · simp [Outstanding, hto, update_of_ne (Ne.symm hto)]
      rw [if_neg hends]
      simp [Outstanding, hends]
  simpa [countEdges] using hfold plan.edges fun _ => 0

theorem dispatchRegion_ends :
    Ends (fun w => Resting plan world origin reach w.queue.length w)
      (Halted plan world origin reach) (dispatchRegion plan world origin reach) := by
  have hstart : Tracks plan world origin reach 0 0 []
      { empty with remaining := countEdges plan reach } :=
    { legal := .nil
      remaining_eq := countEdges_eq
      activated_iff := by simp [empty]
      queue_eq := rfl
      head_le := by simp
      dispatched_iff := by simp [empty]
      done_of := by simp [empty]
      done_cases := by simp [empty]
      pending_nodup := by simp
      pending_spec := by simp
      closed := by simp [empty]
      skip_le := by simp
      skipped_nodup := by simp [empty]
      skipped_mem := by simp [empty]
      waiting_iff := by simp [empty] }
  have hok : ∀ status, world.offer origin { status := .ok } = some status → status = .ok := by
    intro status hoffer
    rw [offer] at hoffer
    split at hoffer
    · cases hoffer
    · exact (some.inj hoffer).symm
  refine (applyCompletion_ends horigin hreach hstart rfl
    ⟨(hreach origin).mpr .origin, .inl ⟨rfl, rfl⟩⟩ ?_ ?_ ?_).bind ?_
  · rintro s ⟨⟨e, hwithin, hto⟩, hall⟩
    obtain ⟨a, ha⟩ := hall e hwithin hto
    cases ha
  · intro _
    exact ⟨⟨_, mem_append_right _ (mem_singleton_self _)⟩, by simp [empty], by simp [empty]⟩
  · intro status hoffer hne
    exact absurd (hok status hoffer) hne
  intro w hw
  refine Ends.drain
    (fun head w hw => ⟨hw.tracks.head_le, hw.tracks.queue_length_le horigin hreach⟩)
    (fun head w u hw hu => dispatchStage_ends horigin hreach hw hu) _ 0 w hw (by omega)

end Ends

/-! ### Whole calls -/

section Calls

theorem execute_cases (plan : CompiledPlan) (world : World) (origin : ℕ) :
    (∃ cause, execute plan world origin = .error ⟨cause, .empty⟩ ∧
        ((cause = .invalidOrigin ∧ plan.stageCount ≤ origin) ∨
          (∃ status, cause = .validation status ∧ status ≠ .ok ∧
            ∃ s, world.validate s = status) ∨
          ∃ status, cause = .reservation status ∧ status ≠ .ok ∧ ∃ s, world.reserve s = status)) ∨
      ∃ reach, origin < plan.stageCount ∧ (∀ s, reach s = true ↔ plan.Reaches origin s) ∧
        execute plan world origin = dispatchRegion plan world origin reach := by
  by_cases horigin : origin < plan.stageCount
  swap
  · left
    refine ⟨.invalidOrigin, ?_, .inl ⟨rfl, by omega⟩⟩
    rw [execute, markExecutionRegionFromStage, if_pos (by omega)]
  obtain ⟨m, hmark, hreach⟩ := mark_spec horigin
  have hfailed : ∀ (l : List ℕ) (f : ℕ → Status) (status : Status),
      (l.map f).find? (· ≠ .ok) = some status → status ≠ .ok ∧ ∃ s, f s = status := by
    intro l f status hfind
    obtain ⟨s, -, hs⟩ := List.mem_map.mp (mem_of_find?_eq_some hfind)
    exact ⟨by simpa using find?_some hfind, s, hs⟩
  rw [execute, hmark]
  dsimp only
  split
  case h_1 status hfind => exact .inl ⟨_, rfl, .inr (.inl ⟨status, rfl, hfailed _ _ _ hfind⟩)⟩
  case h_2 =>
    split
    case h_1 status hfind => exact .inl ⟨_, rfl, .inr (.inr ⟨status, rfl, hfailed _ _ _ hfind⟩)⟩
    case h_2 => exact .inr ⟨m.reachable, horigin, hreach, rfl⟩

theorem Explained.isGuard_eq_false (h : Explained plan world tr cause) : cause.isGuard = false := by
  cases cause <;> first | rfl | exact h.elim

theorem execute_legal (plan : CompiledPlan) (world : World) (origin : ℕ) :
    (∀ stop, execute plan world origin = .error stop → stop.cause.isGuard = false) ∧
      (workspace (execute plan world origin)).queue.length ≤ plan.stageCount ∧
      (workspace (execute plan world origin)).skippedQueue.length ≤ plan.stageCount ∧
      ∃ reach, (∀ s, reach s = true ↔ plan.Reaches origin s) ∧
        Legal plan world origin reach (workspace (execute plan world origin)).trace := by
  rcases execute_cases plan world origin with ⟨cause, hrun, hcause⟩ | ⟨reach, horigin, hreach, hrun⟩
  · rw [hrun]
    refine ⟨?_, by simp [workspace, empty], by simp [workspace, empty], ?_⟩
    · rintro stop hstop
      cases hstop
      rcases hcause with ⟨rfl, -⟩ | ⟨_, rfl, -⟩ | ⟨_, rfl, -⟩ <;> rfl
    classical
    exact ⟨fun s => decide (plan.Reaches origin s), by simp, .nil⟩
  have hends : Ends (fun w => Resting plan world origin reach w.queue.length w)
      (Halted plan world origin reach) (dispatchRegion plan world origin reach) :=
    dispatchRegion_ends horigin hreach
  rw [hrun]
  cases hresult : dispatchRegion plan world origin reach with
  | ok w =>
    rw [hresult] at hends
    have htracks := Resting.tracks hends
    exact ⟨by simp, htracks.queue_length_le horigin hreach,
      htracks.skippedQueue_length_le horigin hreach, reach, hreach, htracks.legal⟩
  | error stop =>
    rw [hresult] at hends
    refine ⟨?_, Halted.queue_length hends, Halted.skippedQueue_length hends, reach, hreach,
      Halted.legal hends⟩
    rintro stop' hstop
    cases hstop
    exact (Halted.explained hends).isGuard_eq_false

/-- For every plan, origin and world: no guard of the dispatcher is reached, so the queues never
overflow, `remaining[]` never falls below zero and the loops end; no stage is executed twice and no
buffer takes the message twice; a unit is dispatched only after every edge into it from a reachable
stage was resolved, and an edge is resolved only after its tail was executed or skipped. -/
theorem dispatch_safe (plan : CompiledPlan) (world : World) (origin : ℕ) :
    let run := execute plan world origin
    let tr := (workspace run).trace
    (∀ stop, run = .error stop →
        stop.cause ≠ .full ∧ stop.cause ≠ .underflow ∧ stop.cause ≠ .unfinished) ∧
      (workspace run).queue.length ≤ plan.stageCount ∧
      (workspace run).skippedQueue.length ≤ plan.stageCount ∧
      (executed plan tr).Nodup ∧ (dispatchedStages tr).Nodup ∧ (admissions tr).Nodup ∧
      (∀ pre u post, tr = pre ++ .dispatched u :: post →
        ∀ e ∈ plan.edges, plan.Reaches origin e.fromStage → e.toStage = u →
          ∃ active, .resolved e active ∈ pre) ∧
      ∀ pre e active post, tr = pre ++ .resolved e active :: post →
        e.fromStage = origin ∨ .skipped e.fromStage ∈ pre ∨
          ∃ u, .dispatched u ∈ pre ∧ plan.unitExit u = e.fromStage := by
  obtain ⟨hguard, hqueue, hskipped, reach, hreach, hlegal⟩ := execute_legal plan world origin
  refine ⟨?_, hqueue, hskipped, hlegal.executed_nodup hreach, hlegal.dispatchedStages_nodup,
    hlegal.admissions_nodup, ?_, ?_⟩
  · intro stop hstop
    have hcause := hguard stop hstop
    refine ⟨?_, ?_, ?_⟩ <;> · intro heq; rw [heq] at hcause; cases hcause
  · rintro pre u post hsplit e hedge hfrom rfl
    have hpre : Legal plan world origin reach pre := (hsplit ▸ hlegal).of_append
    have hready : .readied e.toStage ∈ pre := hlegal.enabled pre _ post hsplit
    have harrives := hpre.arrives hready rfl
    exact harrives.2 e ⟨hedge, (hreach _).mpr hfrom, (harrives.reached hreach).1⟩ rfl
  intro pre e active post hsplit
  have hpre : Legal plan world origin reach pre := (hsplit ▸ hlegal).of_append
  obtain ⟨-, selection, hrel, -⟩ := hlegal.enabled pre _ post hsplit
  obtain ⟨-, ⟨horigin, -⟩ | ⟨hskip, -⟩ | ⟨u, hu, hexit, -⟩⟩ := hpre.released_spec hrel
  · exact .inl horigin
  · exact .inr (.inl hskip)
  · exact .inr (.inr ⟨u, hu, hexit⟩)

end Calls

end TurboFlow.Graph
