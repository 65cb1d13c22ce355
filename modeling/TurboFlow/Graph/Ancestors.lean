import TurboFlow.Graph.Activation

/-!
# Ancestors in a schedule

When a unit is dispatched, everything above it was executed or released without it
(`Legal.settled_above`). So a stage is executed after those of its ancestors that are executed at
all (`Legal.executed_before`), which are the ones that the selected edges lead to.
-/

namespace TurboFlow.Graph

open List CompiledPlan
open Relation (ReflTransGen TransGen)

/-- The stages executed before the stage `s`. -/
def executedBefore (order : List ℕ) (s : ℕ) : List ℕ :=
  order.takeWhile (· ≠ s)

theorem executedBefore_of_split {pre post : List ℕ} {s : ℕ} (hs : s ∉ pre) :
    executedBefore (pre ++ s :: post) s = pre := by
  have hpre : ∀ a ∈ pre, decide (a ≠ s) = true := by
    intro a ha
    rw [decide_eq_true_eq]
    rintro rfl
    exact hs ha
  rw [executedBefore, takeWhile_append_of_pos hpre]
  simp

variable {plan : CompiledPlan} {world : World} {origin : ℕ} {reach : ℕ → Bool} {tr : List Event}
  {s u a : ℕ}

theorem executed_append (pre post : List Event) :
    executed plan (pre ++ post) = executed plan pre ++ executed plan post := by
  simp [executed, dispatchedStages]

/-! ### Units -/

theorem precedes_of_mem_unit (hu : plan.Reaches origin u) (ha : a ∈ plan.unit u) :
    ReflTransGen (Precedes plan origin) u a := by
  rcases plan.unit_cases u with ⟨-, hunit, -⟩ | ⟨r, hr, rfl, hunit, -⟩
  · obtain rfl : a = u := by simpa [hunit] using ha
    exact .refl
  rw [hunit] at ha
  refine region_induction
    hr .refl ?_ a ha
  intro p m hp _ hm hfused ih
  exact ih.tail ⟨_, Fused.mem hfused, rfl, rfl, hu.member hr hp,
    hu.member hr (Region.mem_members_of_inner hm)⟩

theorem precedes_entry (hs : s ∈ plan.unit u) (ha : a ∉ plan.unit u)
    (hpath : TransGen (Precedes plan origin) a s) : TransGen (Precedes plan origin) a u := by
  rcases plan.unit_cases u with ⟨-, hunit, -⟩ | ⟨r, hr, rfl, hunit, -⟩
  · obtain rfl : s = u := by simpa [hunit] using hs
    exact hpath
  rw [hunit] at hs ha
  refine region_induction (P := fun m => TransGen (Precedes plan origin) a m →
      TransGen (Precedes plan origin) a r.entryStage) hr id ?_ s hs hpath
  intro p m hp _ _ hfused ih hm
  obtain ⟨p', hpath', e, he, hfrom, hto, -⟩ := TransGen.tail'_iff.mp hm
  obtain rfl : p' = p := by
    rw [← hfrom, Fused.eq_of_to hfused he hto]
  rcases Relation.reflTransGen_iff_eq_or_transGen.mp hpath' with rfl | hpath'
  · exact absurd hp ha
  · exact ih hpath'

theorem unit_pairwise {rank : ℕ → ℕ}
    (hrank : ∀ e ∈ plan.edges, rank e.fromStage < rank e.toStage) (u : ℕ) :
    (plan.unit u).Pairwise fun a b => rank a < rank b := by
  rcases plan.unit_cases u with ⟨-, hunit, -⟩ | ⟨r, hr, -, hunit, -⟩
  · simp [hunit]
  rw [hunit]
  have : Trans (fun a b => rank a < rank b) (fun a b => rank a < rank b)
      fun a b : ℕ => rank a < rank b := ⟨fun hab hbc => hab.trans hbc⟩
  exact ((plan.regions_fused r hr).imp fun a b hfused =>
    hrank _ (Fused.mem hfused)).pairwise

theorem rank_lt_of_precedes {rank : ℕ → ℕ}
    (hrank : ∀ e ∈ plan.edges, rank e.fromStage < rank e.toStage)
    (hpath : TransGen (Precedes plan origin) a s) : rank a < rank s := by
  induction hpath with
  | single hstep =>
    obtain ⟨e, he, rfl, rfl, -⟩ := hstep
    exact hrank e he
  | tail _ hstep ih =>
    obtain ⟨e, he, rfl, rfl, -⟩ := hstep
    exact ih.trans (hrank e he)

/-! ### Settled stages -/

def Settled (plan : CompiledPlan) (tr : List Event) (a : ℕ) : Prop :=
  (∃ selection, .released a selection ∈ tr) ∨ a ∈ executed plan tr

def Executes (plan : CompiledPlan) (world : World) (origin a : ℕ) : Prop :=
  ∃ u, Fires plan world origin u ∧ plan.isBuffer u = false ∧ a ∈ plan.unit u

namespace Legal

variable (h : Legal plan world origin reach tr)
  (hreach : ∀ s, reach s = true ↔ plan.Reaches origin s)
include h

theorem executes_of_executed (ha : a ∈ executed plan tr) : Executes plan world origin a := by
  obtain ⟨u, hu, hmem⟩ := mem_executed.mp ha
  exact ⟨u, h.fires_of_dispatched hu, (h.readied_spec (h.dispatched_spec hu)).1, hmem⟩

include hreach

theorem settled_above (hev : ev ∈ tr) (hslot : ev.slot = .arrival s)
    (hpath : TransGen (Precedes plan origin) a s) : Settled plan tr a := by
  obtain ⟨rank, hrank⟩ := plan.acyclic
  induction hn : rank s using Nat.strong_induction_on generalizing s ev with
  | _ n ih =>
    -- The last stage before `s` was released, so it has arrived or completes a unit.
    obtain ⟨p, hap, e, he, rfl, rfl, hfrom, hto⟩ := TransGen.tail'_iff.mp hpath
    obtain ⟨b, hb⟩ := (h.arrives hev hslot).2 e
      ⟨he, (hreach _).mpr hfrom, (hreach _).mpr hto⟩ rfl
    obtain ⟨-, selection, hrel, -⟩ := h.resolved_spec hb
    have hlt : rank e.fromStage < n := hn ▸ hrank e he
    rcases Relation.reflTransGen_iff_eq_or_transGen.mp hap with heq | hap'
    · exact .inl ⟨selection, heq ▸ hrel⟩
    obtain ⟨-, ⟨horigin, -⟩ | ⟨hskip, -⟩ | ⟨u, hu, hexit, -⟩⟩ := h.released_spec hrel
    · exact absurd (horigin ▸ hap') not_precedes_origin
    · exact ih _ hlt hskip rfl hap' rfl
    by_cases hmem : a ∈ plan.unit u
    · exact .inr (mem_executed.mpr ⟨u, hu, hmem⟩)
    have hle : rank u ≤ rank e.fromStage := hexit ▸ rank_le_unitExit hrank u
    exact ih _ (hle.trans_lt hlt) (h.dispatched_spec hu) rfl
      (precedes_entry (hexit ▸ unitExit_mem_unit u) hmem hap') rfl

theorem not_skipped_of_executes (ha : Executes plan world origin a) :
    a ≠ origin ∧ .skipped a ∉ tr := by
  obtain ⟨u, hfires, -, hmem⟩ := ha
  have hskip := h.not_skipped_of_fires hreach hfires
  have hentry : reach u = true := (hreach u).mpr hfires.reaches
  rcases plan.unit_cases u with ⟨-, hunit, -⟩ | ⟨r, hr, rfl, hunit, -⟩
  · obtain rfl : a = u := by simpa [hunit] using hmem
    exact ⟨hfires.ne_origin, hskip⟩
  rw [hunit] at hmem
  have horigin := origin_not_mem_of_entry hreach hr hentry hfires.ne_origin
  refine ⟨fun heq => horigin (heq ▸ hmem), fun hskipped => ?_⟩
  rcases mem_cons.mp hmem with rfl | hinner
  · exact hskip hskipped
  exact inner_not_arrives hreach hr hentry hfires.ne_origin h hskip hinner
    (h.arrives hskipped rfl)

theorem executed_of_settled (hsettled : Settled plan tr a) (ha : Executes plan world origin a) :
    a ∈ executed plan tr := by
  rcases hsettled with ⟨selection, hrel⟩ | hexecuted
  · obtain ⟨hne, hskip⟩ := h.not_skipped_of_executes hreach ha
    obtain ⟨-, ⟨heq, -⟩ | ⟨hskipped, -⟩ | ⟨u, hu, rfl, -⟩⟩ := h.released_spec hrel
    · exact absurd heq hne
    · exact absurd hskipped hskip
    · exact mem_executed.mpr ⟨u, hu, unitExit_mem_unit u⟩
  · exact hexecuted

theorem settled_before {pre post : List Event} (hsplit : tr = pre ++ .dispatched u :: post)
    (hs : s ∈ plan.unit u) (hpath : TransGen (Precedes plan origin) a s) :
    a ∈ plan.unit u ∨ Settled plan pre a := by
  have hpre : Legal plan world origin reach pre := (hsplit ▸ h).of_append
  have hready : .readied u ∈ pre := h.enabled pre _ post hsplit
  by_cases hmem : a ∈ plan.unit u
  · exact .inl hmem
  · exact .inr (hpre.settled_above hreach hready rfl (precedes_entry hs hmem hpath))

theorem executed_iff_executes (hs : s ∈ executed plan tr)
    (hpath : TransGen (Precedes plan origin) a s) :
    a ∈ executed plan tr ↔ Executes plan world origin a := by
  refine ⟨h.executes_of_executed, fun ha => ?_⟩
  obtain ⟨u, hu, hmem⟩ := mem_executed.mp hs
  obtain ⟨pre, post, hsplit⟩ := append_of_mem hu
  rcases h.settled_before hreach hsplit hmem hpath with hunit | hsettled
  · exact mem_executed.mpr ⟨u, hu, hunit⟩
  have hpre : Legal plan world origin reach pre := (hsplit ▸ h).of_append
  rw [hsplit, executed_append]
  exact mem_append_left _ (hpre.executed_of_settled hreach hsettled ha)

theorem executed_before (hs : s ∈ executed plan tr) (ha : a ∈ executed plan tr)
    (hpath : TransGen (Precedes plan origin) a s) : a ∈ executedBefore (executed plan tr) s := by
  obtain ⟨rank, hrank⟩ := plan.acyclic
  have hnodup := h.executed_nodup hreach
  have hexecutes := h.executes_of_executed ha
  obtain ⟨u, hu, hmem⟩ := mem_executed.mp hs
  obtain ⟨pre, post, hsplit⟩ := append_of_mem hu
  have hpre : Legal plan world origin reach pre := (hsplit ▸ h).of_append
  have horder : executed plan tr = executed plan pre ++ (plan.unit u ++ executed plan post) := by
    rw [hsplit, executed_append]
    simp [executed, dispatchedStages, Event.dispatched?]
  obtain ⟨before, after, hunit⟩ := append_of_mem hmem
  have hshape : executed plan tr =
      (executed plan pre ++ before) ++ s :: (after ++ executed plan post) := by
    rw [horder, hunit]
    simp
  have hnot : s ∉ executed plan pre ++ before := by
    rw [hshape] at hnodup
    exact fun hin => (nodup_append.mp hnodup).2.2 s hin s (by simp) rfl
  rw [hshape, executedBefore_of_split hnot]
  rcases h.settled_before hreach hsplit hmem hpath with haunit | hsettled
  · -- Inside the unit the order is that of the chain.
    have hlt := rank_lt_of_precedes hrank hpath
    have hsorted := unit_pairwise hrank u
    rw [hunit] at haunit hsorted
    rcases mem_append.mp haunit with hbefore | hafter
    · exact mem_append_right _ hbefore
    rcases mem_cons.mp hafter with rfl | hafter
    · exact absurd hlt (lt_irrefl _)
    have hgt := (pairwise_cons.mp (pairwise_append.mp hsorted).2.1).1 a hafter
    exact absurd hlt hgt.not_gt
  · exact mem_append_left _ (hpre.executed_of_settled hreach hsettled hexecutes)

theorem isBuffer_of_executed (hs : s ∈ executed plan tr) :
    plan.isBuffer s = false ∧ plan.Reaches origin s := by
  obtain ⟨u, hu, hmem⟩ := mem_executed.mp hs
  have hready := h.dispatched_spec hu
  have hreached := (hreach u).mp (h.reached hreach hready rfl).1
  rcases plan.unit_cases u with ⟨-, hunit, -⟩ | ⟨r, hr, rfl, hunit, -⟩
  · obtain rfl : s = u := by simpa [hunit] using hmem
    exact ⟨(h.readied_spec hready).1, hreached⟩
  rw [hunit] at hmem
  exact ⟨plan.isBuffer_of_mem hr hmem, hreached.member hr hmem⟩

end Legal

end TurboFlow.Graph
