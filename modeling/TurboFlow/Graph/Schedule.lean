import TurboFlow.Graph.Marking
import TurboFlow.Graph.Routes
import TurboFlow.Lib.Precedence

/-!
# Schedules of one message

The events of one call of the runtime, and the rules of their sequence, without counters and queues.
A stage becomes ready when all edges into it are resolved and one is active, a buffer admits the
message under the same condition, one without an active edge is skipped, and an edge is resolved
when its tail is released. Every event happens at most once.

Within a selected region no inner edge is resolved (`inner_unreleased`), so the stages of two
dispatched units never overlap.
-/

namespace TurboFlow.Graph

open List CompiledPlan

inductive Event
  /-- The outgoing edges of a stage are about to be resolved with a selection. -/
  | released (stage : ℕ) (selection : Option Status)
  | resolved (e : Edge) (active : Bool)
  /-- The stage enters the ready queue. -/
  | readied (stage : ℕ)
  /-- The buffer takes the message. -/
  | admitted (stage : ℕ)
  /-- The stage enters the skipped queue. -/
  | skipped (stage : ℕ)
  /-- The unit that starts at the stage is executed. -/
  | dispatched (stage : ℕ)
  deriving DecidableEq

inductive Slot
  | release (stage : ℕ)
  | edge (e : Edge)
  | arrival (stage : ℕ)
  | dispatch (stage : ℕ)
  deriving DecidableEq

namespace Event

def slot : Event → Slot
  | released s _ => .release s
  | resolved e _ => .edge e
  | readied s => .arrival s
  | admitted s => .arrival s
  | skipped s => .arrival s
  | dispatched s => .dispatch s

def dispatched? : Event → Option ℕ
  | dispatched s => some s
  | _ => none

def admitted? : Event → Option ℕ
  | admitted s => some s
  | _ => none

def readied? : Event → Option ℕ
  | readied s => some s
  | _ => none

theorem dispatched?_eq_some (ev : Event) (s : ℕ) :
    ev.dispatched? = some s ↔ ev = .dispatched s := by
  cases ev <;> simp [dispatched?]

theorem admitted?_eq_some (ev : Event) (s : ℕ) : ev.admitted? = some s ↔ ev = .admitted s := by
  cases ev <;> simp [admitted?]

theorem readied?_eq_some (ev : Event) (s : ℕ) : ev.readied? = some s ↔ ev = .readied s := by
  cases ev <;> simp [readied?]

end Event

def dispatchedStages (tr : List Event) : List ℕ := tr.filterMap Event.dispatched?

def admissions (tr : List Event) : List ℕ := tr.filterMap Event.admitted?

def executed (plan : CompiledPlan) (tr : List Event) : List ℕ :=
  (dispatchedStages tr).flatMap plan.unit

variable {tr : List Event}

theorem mem_filterMap_event {f : Event → Option ℕ} {g : ℕ → Event}
    (hf : ∀ ev s, f ev = some s ↔ ev = g s) {s : ℕ} : s ∈ tr.filterMap f ↔ g s ∈ tr := by
  simp [mem_filterMap, hf]

theorem mem_dispatchedStages {u : ℕ} : u ∈ dispatchedStages tr ↔ .dispatched u ∈ tr :=
  mem_filterMap_event Event.dispatched?_eq_some

theorem dispatchedStages_split (h : dispatchedStages tr = pre ++ u :: post) :
    ∃ tr₁ tr₂, tr = tr₁ ++ .dispatched u :: tr₂ ∧ dispatchedStages tr₁ = pre := by
  obtain ⟨l₁, l₂, rfl, hpre, hrest⟩ := filterMap_eq_append_iff.mp h
  obtain ⟨l₃, ev, l₄, rfl, hnone, hev, -⟩ := filterMap_eq_cons_iff.mp hrest
  obtain rfl := (ev.dispatched?_eq_some u).mp hev
  refine ⟨l₁ ++ l₃, l₄, by simp, ?_⟩
  rw [dispatchedStages, filterMap_append, hpre, filterMap_eq_nil_iff.mpr hnone, append_nil]

theorem mem_admissions {s : ℕ} : s ∈ admissions tr ↔ .admitted s ∈ tr :=
  mem_filterMap_event Event.admitted?_eq_some

theorem mem_executed : s ∈ executed plan tr ↔ ∃ u, .dispatched u ∈ tr ∧ s ∈ plan.unit u := by
  simp only [executed, mem_flatMap, mem_dispatchedStages]

section Schedule

variable (plan : CompiledPlan) (world : World) (origin : ℕ) (reach : ℕ → Bool)

def Within (e : Edge) : Prop :=
  e ∈ plan.edges ∧ reach e.fromStage = true ∧ reach e.toStage = true

def Arrives (tr : List Event) (s : ℕ) : Prop :=
  (∃ e, Within plan reach e ∧ e.toStage = s) ∧
    ∀ e, Within plan reach e → e.toStage = s → ∃ a, Event.resolved e a ∈ tr

@[simp] def Activated (tr : List Event) (s : ℕ) : Prop :=
  ∃ e : Edge, e.toStage = s ∧ Event.resolved e true ∈ tr

def Enabled (tr : List Event) : Event → Prop
  | .released s selection => reach s = true ∧
      ((s = origin ∧ selection = world.offer origin { status := .ok }) ∨
        (.skipped s ∈ tr ∧ selection = none) ∨
        ∃ u, .dispatched u ∈ tr ∧ plan.unitExit u = s ∧ selection = world.unitOffer plan u)
  | .resolved e a => Within plan reach e ∧
      ∃ selection, .released e.fromStage selection ∈ tr ∧ world.verdict plan selection e = .ok a
  | .readied s => plan.isBuffer s = false ∧ Arrives plan reach tr s ∧ Activated tr s
  | .admitted s => plan.isBuffer s = true ∧ Arrives plan reach tr s ∧ Activated tr s
  | .skipped s => Arrives plan reach tr s ∧ ¬ Activated tr s
  | .dispatched u => .readied u ∈ tr

structure Legal (tr : List Event) : Prop where
  once : (tr.map Event.slot).Nodup
  enabled : ∀ pre ev post, tr = pre ++ ev :: post → Enabled plan world origin reach pre ev

end Schedule

variable {plan : CompiledPlan} {world : World} {origin : ℕ} {reach : ℕ → Bool} {tr : List Event}
  {s u : ℕ} {e : Edge} {ev : Event}

namespace Legal

theorem nil : Legal plan world origin reach [] :=
  ⟨by simp, fun pre ev post h => by simp at h⟩

theorem snoc (h : Legal plan world origin reach tr) (hev : Enabled plan world origin reach tr ev)
    (hnew : ∀ ev' ∈ tr, ev'.slot ≠ ev.slot) : Legal plan world origin reach (tr ++ [ev]) := by
  constructor
  · rw [map_append]
    exact nodup_append_comm.mpr (nodup_cons.mpr ⟨by simpa using hnew, h.once⟩)
  intro pre ev' post hsplit
  rcases Precedence.split_snoc hsplit with ⟨rfl, rfl⟩ | ⟨post', hsplit'⟩
  · exact hev
  · exact h.enabled pre ev' post' hsplit'

theorem of_append (h : Legal plan world origin reach (tr ++ post)) :
    Legal plan world origin reach tr := by
  refine ⟨?_, fun pre ev mid hsplit => h.enabled pre ev (mid ++ post) (by simp [hsplit])⟩
  have honce := h.once
  rw [map_append] at honce
  exact (nodup_append.mp honce).1

variable (h : Legal plan world origin reach tr)
include h

theorem unique (hev : ev ∈ tr) (hev' : ev' ∈ tr) (hslot : ev.slot = ev'.slot) : ev = ev' :=
  inj_on_of_nodup_map h.once hev hev' hslot

theorem enabled_of_mem (hev : ev ∈ tr) :
    ∃ pre, (∀ ev' ∈ pre, ev' ∈ tr) ∧ Enabled plan world origin reach pre ev := by
  obtain ⟨pre, post, hsplit⟩ := append_of_mem hev
  refine ⟨pre, fun ev' hev' => ?_, h.enabled pre ev post hsplit⟩
  rw [hsplit]
  exact mem_append_left _ hev'

theorem released_spec (hev : .released s selection ∈ tr) :
    reach s = true ∧
      ((s = origin ∧ selection = world.offer origin { status := .ok }) ∨
        (.skipped s ∈ tr ∧ selection = none) ∨
        ∃ u, .dispatched u ∈ tr ∧ plan.unitExit u = s ∧ selection = world.unitOffer plan u) := by
  obtain ⟨pre, hpre, hreach, horigin | ⟨hskip, hnone⟩ | ⟨u, hu, hexit⟩⟩ := h.enabled_of_mem hev
  · exact ⟨hreach, .inl horigin⟩
  · exact ⟨hreach, .inr (.inl ⟨hpre _ hskip, hnone⟩)⟩
  · exact ⟨hreach, .inr (.inr ⟨u, hpre _ hu, hexit⟩)⟩

theorem resolved_spec (hev : .resolved e a ∈ tr) :
    Within plan reach e ∧
      ∃ selection, .released e.fromStage selection ∈ tr ∧
        world.verdict plan selection e = .ok a := by
  obtain ⟨pre, hpre, hwithin, selection, hrel, hverdict⟩ := h.enabled_of_mem hev
  exact ⟨hwithin, selection, hpre _ hrel, hverdict⟩

theorem dispatched_spec (hev : .dispatched u ∈ tr) : .readied u ∈ tr := by
  obtain ⟨pre, hpre, hready⟩ := h.enabled_of_mem hev
  exact hpre _ hready

theorem arrives (hev : ev ∈ tr) (hslot : ev.slot = .arrival s) : Arrives plan reach tr s := by
  obtain ⟨pre, hpre, henabled⟩ := h.enabled_of_mem hev
  have harrives : Arrives plan reach pre s := by
    cases ev with
    | readied t | admitted t => cases hslot; exact henabled.2.1
    | skipped t => cases hslot; exact henabled.1
    | released | resolved | dispatched => cases hslot
  refine ⟨harrives.1, fun e hwithin hto => ?_⟩
  obtain ⟨a, ha⟩ := harrives.2 e hwithin hto
  exact ⟨a, hpre _ ha⟩

theorem readied_spec (hev : .readied s ∈ tr) : plan.isBuffer s = false ∧ Activated tr s := by
  obtain ⟨pre, hpre, hbuffer, -, e, hto, hactive⟩ := h.enabled_of_mem hev
  exact ⟨hbuffer, e, hto, hpre _ hactive⟩

theorem admitted_spec (hev : .admitted s ∈ tr) : plan.isBuffer s = true ∧ Activated tr s := by
  obtain ⟨pre, hpre, hbuffer, -, e, hto, hactive⟩ := h.enabled_of_mem hev
  exact ⟨hbuffer, e, hto, hpre _ hactive⟩

theorem not_activated_of_skipped (hev : .skipped s ∈ tr) : ¬ Activated tr s := by
  obtain ⟨pre, hpre, harrives, hactive⟩ := h.enabled_of_mem hev
  rintro ⟨e, hto, he⟩
  obtain ⟨a, ha⟩ := harrives.2 e (h.resolved_spec he).1 hto
  have heq := h.unique he (hpre _ ha) rfl
  rw [Event.resolved.injEq] at heq
  exact hactive ⟨e, hto, heq.2 ▸ ha⟩

end Legal

/-! ### Regions within a schedule -/

section Reached

variable (hreach : ∀ s, reach s = true ↔ plan.Reaches origin s)
include hreach

theorem Within.ne_origin (h : Within plan reach e) : e.toStage ≠ origin :=
  ((hreach _).mp h.2.1).ne_origin h.1

theorem Arrives.reached (h : Arrives plan reach tr s) : reach s = true ∧ s ≠ origin := by
  obtain ⟨⟨e, hwithin, rfl⟩, -⟩ := h
  exact ⟨hwithin.2.2, hwithin.ne_origin hreach⟩

variable {r : Region} (hr : r ∈ plan.regions) (hentry : reach r.entryStage = true)
  (hne : r.entryStage ≠ origin)
include hr hentry hne

theorem origin_not_mem_of_entry : origin ∉ r.members := by
  obtain ⟨rank, hrank⟩ := plan.acyclic
  intro hmem
  have hle := rank_entryStage_le hrank hr hmem
  rcases ((hreach _).mp hentry).rank_lt hrank with heq | hlt
  · exact hne heq
  · exact absurd hlt (not_lt.mpr hle)

omit hne in
theorem members_reached (hm : m ∈ r.members) : reach m = true :=
  (hreach m).mpr (((hreach _).mp hentry).member hr hm)

variable (h : Legal plan world origin reach tr) (hskip : .skipped r.entryStage ∉ tr)
include h hskip

/-- If the entry of a region is not skipped, the stages before its exit are never released: every
one would need its predecessor. -/
theorem inner_unreleased (hm : m ∈ r.members) (hexit : m ≠ r.exitStage)
    {selection : Option Status} : .released m selection ∉ tr := by
  have horigin := origin_not_mem_of_entry hreach hr hentry hne
  revert hexit selection
  -- Along the region: a released stage has arrived, so its predecessor was released before.
  refine region_induction
    (P := fun m => m ≠ r.exitStage → ∀ {selection}, .released m selection ∉ tr) hr ?_ ?_ m hm
  · intro hexit selection hrel
    obtain ⟨-, ⟨heq, -⟩ | ⟨hskip', -⟩ | ⟨u, -, heq', -⟩⟩ := h.released_spec hrel
    · exact hne heq
    · exact hskip hskip'
    have hinner := inner_of_unitExit (u := u) hr (heq' ▸ r.entryStage_mem)
      (heq' ▸ hexit)
    have hself : r.entryStage = u := heq'.symm.trans hinner.1
    exact (nodup_cons.mp (members_nodup hr)).1 (hself ▸ hinner.2)
  intro p m hp hpexit hinner hfused ih hexit selection hrel
  have hm : m ∈ r.members := Region.mem_members_of_inner hinner
  have hwithin : Within plan reach ⟨p, m, .unconditional⟩ :=
    ⟨Fused.mem hfused, members_reached hreach hr hentry hp, members_reached hreach hr hentry hm⟩
  have harrived : ∀ ev ∈ tr, ev.slot ≠ .arrival m := by
    intro ev hev hslot
    obtain ⟨a, ha⟩ := (h.arrives hev hslot).2 _ hwithin rfl
    obtain ⟨-, _, hrel', -⟩ := h.resolved_spec ha
    exact ih hpexit hrel'
  obtain ⟨-, ⟨rfl, -⟩ | ⟨hskip', -⟩ | ⟨u, hu, heq, -⟩⟩ := h.released_spec hrel
  · exact horigin hm
  · exact harrived _ hskip' rfl
  have hself := (inner_of_unitExit (u := u) hr (heq ▸ hm) (heq ▸ hexit)).1
  exact harrived _ (h.dispatched_spec hu) (by rw [Event.slot, ← heq, hself])

theorem inner_not_arrives (hm : m ∈ r.inner) : ¬ Arrives plan reach tr m := by
  intro harrives
  obtain ⟨p, hp, hpexit, hfused⟩ := exists_fused_before hr hm
  have hwithin : Within plan reach ⟨p, m, .unconditional⟩ :=
    ⟨Fused.mem hfused, members_reached hreach hr hentry hp,
      members_reached hreach hr hentry (Region.mem_members_of_inner hm)⟩
  obtain ⟨a, ha⟩ := harrives.2 _ hwithin rfl
  obtain ⟨-, _, hrel, -⟩ := h.resolved_spec ha
  exact inner_unreleased hreach hr hentry hne h hskip hp hpexit hrel

end Reached

namespace Legal

variable (h : Legal plan world origin reach tr)
include h

theorem nodup : tr.Nodup := h.once.of_map

theorem filterMap_nodup {f : Event → Option ℕ} {g : ℕ → Event}
    (hf : ∀ ev s, f ev = some s ↔ ev = g s) : (tr.filterMap f).Nodup := by
  refine h.nodup.filterMap fun ev ev' s hs hs' => ?_
  rw [(hf ev s).mp hs, (hf ev' s).mp hs']

theorem dispatchedStages_nodup : (dispatchedStages tr).Nodup :=
  h.filterMap_nodup Event.dispatched?_eq_some

theorem admissions_nodup : (admissions tr).Nodup :=
  h.filterMap_nodup Event.admitted?_eq_some

theorem not_skipped_of_readied (hev : .readied s ∈ tr) : .skipped s ∉ tr := by
  intro hskip
  have heq := h.unique hev hskip rfl
  cases heq

variable (hreach : ∀ s, reach s = true ↔ plan.Reaches origin s)
include hreach

theorem reached (hev : ev ∈ tr) (hslot : ev.slot = .arrival s) : reach s = true ∧ s ≠ origin :=
  (h.arrives hev hslot).reached hreach

theorem eq_of_arrives_mem_unit (hs : Arrives plan reach tr s) (hu : .dispatched u ∈ tr)
    (hmem : s ∈ plan.unit u) : s = u := by
  have hready := h.dispatched_spec hu
  obtain ⟨hureach, huorigin⟩ := h.reached hreach hready rfl
  have huskip := h.not_skipped_of_readied hready
  rcases plan.unit_cases u with ⟨-, hunit, -⟩ | ⟨r, hr, rfl, hunit, -⟩
  · rw [hunit] at hmem
    exact mem_singleton.mp hmem
  rw [hunit] at hmem
  rcases mem_cons.mp hmem with heq | hinner
  · exact heq
  · exact absurd hs (inner_not_arrives hreach hr hureach huorigin h huskip hinner)

theorem unit_unique (hu : .dispatched u ∈ tr) (hu' : .dispatched u' ∈ tr) (hs : s ∈ plan.unit u)
    (hs' : s ∈ plan.unit u') : u = u' := by
  rcases plan.unit_cases u with ⟨-, hunit, -⟩ | ⟨r, hr, hentry, hunit, -⟩
  · obtain rfl : s = u := by simpa [hunit] using hs
    exact h.eq_of_arrives_mem_unit hreach (h.arrives (h.dispatched_spec hu) rfl) hu' hs'
  rcases plan.unit_cases u' with ⟨-, hunit', -⟩ | ⟨r', hr', hentry', hunit', -⟩
  · obtain rfl : s = u' := by simpa [hunit'] using hs'
    exact (h.eq_of_arrives_mem_unit hreach (h.arrives (h.dispatched_spec hu') rfl) hu hs).symm
  rw [hunit] at hs
  rw [hunit'] at hs'
  rw [← hentry, ← hentry', region_unique hr hr' hs hs']

theorem executed_nodup : (executed plan tr).Nodup := by
  rw [executed, nodup_flatMap]
  constructor
  · intro u _
    rcases plan.unit_cases u with ⟨-, hunit, -⟩ | ⟨r, hr, -, hunit, -⟩
    · simp [hunit]
    rw [hunit]
    exact members_nodup hr
  refine h.dispatchedStages_nodup.pairwise_of_forall_ne fun u hu u' hu' hne s hs hs' => hne ?_
  exact h.unit_unique hreach (mem_dispatchedStages.mp hu) (mem_dispatchedStages.mp hu') hs hs'

end Legal

end TurboFlow.Graph
