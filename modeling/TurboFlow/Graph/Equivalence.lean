import TurboFlow.Graph.Activation
import TurboFlow.Graph.Delivery

/-!
# The two data planes of a static graph

A flow with a broadcast ring still has the dispatcher. They end alike
(`broadcast_refines_dispatch`), but only the ring checks before every consumer that the message
still has the identity under which it was published.
-/

namespace TurboFlow.Graph

open Fallible Precedence Transition Dispatch List Relation World

/-- The answers of the same callbacks to the dispatcher, which also obeys the data decisions that a
stage leaves on the message. Where the ring is selected there are no reorder stages, regions,
emitters or buffers. -/
def Answers.world (answers : Answers) (decision : ℕ → Option Decision) : World where
  validate := answers.validate
  reserve := fun _ => .ok
  dispatch := fun s => { status := answers.result s }
  regionStatus := fun _ => .ok
  cancelReorders := fun _ => .ok
  outputs := fun _ => []
  decision
  predicate := fun _ => .value true
  admission := fun _ => .ok
  capture := fun _ => .ok
  cleanup := .ok

def Answers.validated (answers : Answers) : Answers := { answers with validate := fun _ => .ok }

/-- No stage leaves a decision that routes, drops or dead-letters the message. -/
def Undecided (decision : ℕ → Option Decision) : Prop :=
  ∀ s, ∀ d ∈ decision s, d.route = "" ∧ d.dropped = false ∧ d.deadLetter = false

variable {decision : ℕ → Option Decision}

theorem Undecided.route? (h : Undecided decision) (answers : Answers) (s : ℕ) :
    (answers.world decision).route? s = none := by
  rw [World.route?, Option.bind_eq_none_iff]
  exact fun d hd => if_pos (h s d hd).1

theorem Undecided.offer (h : Undecided decision) (answers : Answers) (s : ℕ) {c : Completion}
    (hc : c.terminal = false) : (answers.world decision).offer s c = some c.status := by
  have hdropped : (answers.world decision).dropped s = false := by
    rw [World.dropped, Option.any_eq_false]
    exact fun d hd => by simp [h s d hd]
  simp [World.offer, hdropped, hc]

theorem Answers.world_quiet (answers : Answers) (plan : CompiledPlan) (h : Undecided decision) :
    Quiet plan (answers.validated.world decision) where
  validate := fun _ => rfl
  reserve := fun _ => rfl
  predicate := fun _ => ⟨true, rfl⟩
  route s := by simp [unknownRoute, h.route?]
  admission := fun _ => rfl
  capture := fun _ => rfl
  emission := fun _ => rfl
  settled := not_pending fun _ => rfl
  cleanup := rfl

variable {reach : ℕ → Bool}

theorem Published.exit_ne (h : Published f answers reach ring publication) :
    publication.exit ≠ .noProgress ∧ publication.exit ≠ .unfinished := by
  cases h with
  | invalid | full | finished => exact ⟨Exit.noConfusion, Exit.noConfusion⟩
  | aborted abort _ _ habort =>
    rcases habort.givenUp with ⟨_, _, hexit, -⟩ | ⟨hexit, -⟩ <;> rw [hexit] <;>
      exact ⟨Exit.noConfusion, Exit.noConfusion⟩

theorem Published.eq_of_refusal (h : Published f answers reach ring publication)
    (hrefusal : f.refusal answers reach = some status) :
    publication = ⟨ring, [], .invalid status⟩ := by
  cases h with
  | invalid status' hrefusal' =>
    rw [hrefusal] at hrefusal'
    rw [Option.some.inj hrefusal']
  | full hnone | finished _ hnone | aborted _ hnone =>
    rw [hrefusal] at hnone
    cases hnone

namespace FlowPlan

def Executable (f : FlowPlan) (source s : ℕ) : Prop :=
  f.plan.Leads source s ∧ f.plan.isSource s = false ∧ f.plan.isPort s = false

def FailsAt (f : FlowPlan) (source : ℕ) (answers : Answers) (s : ℕ) : Prop :=
  f.Executable source s ∧ answers.result s ≠ .ok

structure ExecutesAll (f : FlowPlan) (source : ℕ) (stages : List ℕ) : Prop where
  nodup : stages.Nodup
  mem_iff : ∀ s, s ∈ stages ↔ f.Executable source s
  ordered : Ordered (fun a c => TransGen f.plan.Linked a c ∧ f.Executable source a) stages

/-- The last stage that is executed is `t`, and none of its descendants is executed. -/
structure StopsAt (f : FlowPlan) (t : ℕ) (stages : List ℕ) : Prop where
  last : stages.getLast? = some t
  spared : ∀ d, TransGen f.plan.Linked t d → d ∉ stages

def callbacks (f : FlowPlan) (visited : List ℕ) : List ℕ := visited.filter fun s => !f.plan.isPort s

variable {f : FlowPlan} {source s t : ℕ} {answers : Answers} {ring : Ring} {l : List ℕ}

theorem not_linked_self : ¬ TransGen f.plan.Linked s s := by
  obtain ⟨rank, hrank⟩ := f.plan.acyclic
  have hlt : ∀ b, TransGen f.plan.Linked s b → rank s < rank b := by
    intro b hpath
    induction hpath with
    | single hlink =>
      obtain ⟨e, he, rfl, rfl⟩ := hlink
      exact hrank e he
    | tail _ hlink ih =>
      obtain ⟨e, he, rfl, rfl⟩ := hlink
      exact ih.trans (hrank e he)
  exact fun hpath => lt_irrefl _ (hlt s hpath)

theorem leads_lt (hsource : f.plan.isSource source = true) (hs : f.plan.Leads source s) :
    s < f.plan.stageCount := by
  rcases ReflTransGen.cases_tail hs with rfl | ⟨b, -, e, he, -, rfl⟩
  · exact source_lt hsource
  · exact (f.plan.edges_lt e he).2

section Selected

variable (hselect : f.selectsBroadcast = true) (hsource : f.plan.isSource source = true)
  (hundecided : Undecided decision)
include hselect hsource

theorem leads_of_path (hs : f.plan.Leads source s) (hpath : TransGen f.plan.Linked t s) :
    f.plan.Leads source t := by
  induction hpath using TransGen.head_induction_on with
  | single hlink => exact leads_of_linked hselect hsource hlink hs
  | head hlink _ ih => exact leads_of_linked hselect hsource hlink ih

theorem isSource_eq_false_of_path (hs : f.plan.Leads source s)
    (hpath : TransGen f.plan.Linked t s) : f.plan.isSource s = false := by
  by_contra hs'
  obtain rfl := source_unique hselect hsource (by simpa using hs')
  exact not_linked_self (hpath.trans_right (leads_of_path hselect hsource hs hpath))

theorem transGen_linkedAfter (hs : f.plan.Leads source s)
    (hpath : TransGen f.plan.Linked t s) (ht : f.plan.isSource t = false) :
    TransGen (fun p c => p ∈ f.linkedAfter c) t s := by
  induction hpath with
  | single hlink => exact .single (mem_linkedAfter.mpr ⟨ht, hlink⟩)
  | tail hpath hlink ih =>
    have hb := leads_of_linked hselect hsource hlink hs
    have hplain := isSource_eq_false_of_path hselect hsource hb hpath
    exact (ih hb).tail (mem_linkedAfter.mpr ⟨hplain, hlink⟩)

theorem executesAll_callbacks (hnodup : l.Nodup)
    (hmem : ∀ s, s ∈ l ↔ f.plan.Leads source s ∧ f.plan.isSource s = false)
    (hordered : Ordered (fun p c => p ∈ f.linkedAfter c) l) :
    f.ExecutesAll source (f.callbacks l) := by
  refine ⟨hnodup.filter _, fun s => ?_, ?_⟩
  · simp [callbacks, mem_filter, hmem, Executable, and_assoc]
  refine (hordered.transGen.filter fun s => !f.plan.isPort s).mono ?_
  rintro a c hc ⟨hpath, -, hplain, hport⟩
  have hleads := ((hmem c).mp (mem_filter.mp hc).1).1
  exact ⟨transGen_linkedAfter hselect hsource hleads hpath hplain, by simp [hport]⟩

/-! ### The dispatcher -/

omit hsource in
theorem regionForEntry_eq (s : ℕ) : f.plan.regionForEntry s = none := by
  rw [CompiledPlan.regionForEntry, regions_eq hselect]
  rfl

omit hsource in
theorem unitExit_eq (s : ℕ) : f.plan.unitExit s = s := by
  rw [CompiledPlan.unitExit, regionForEntry_eq hselect]

omit hsource in
theorem hasRejectEdge_eq (hs : s < f.plan.stageCount) : hasRejectEdge f.plan s = false := by
  rw [hasRejectEdge, f.plan.outgoing?_eq hs, Option.any_some, any_eq_false]
  intro e he hreject
  have hkind := kind_eq hselect (mem_filter.mp he).1
  simp [hkind] at hreject

omit hsource in
include hundecided in
theorem verdict_eq (he : e ∈ f.plan.edges) :
    (answers.world decision).verdict f.plan (some .ok) e = .ok true := by
  have hkind := kind_eq hselect he
  simp [verdict, routeEdgeActive, hundecided.route?, hkind]

include hundecided in
theorem unitOffer_eq (answers : Answers) (hs : f.plan.Leads source s)
    (hplain : f.plan.isSource s = false) :
    (answers.world decision).unitOffer f.plan s =
      some (if f.plan.isPort s then .ok else answers.result s) := by
  rw [unitOffer, unitCompletion, regionForEntry_eq hselect]
  cases hport : f.plan.isPort s with
  | true => exact hundecided.offer answers _ rfl
  | false =>
    have hexecutor : s ∈ f.executors := mem_filter.mpr
      ⟨mem_range.mpr (leads_lt hsource hs), by simp [hplain, hport, isBuffer_eq hselect]⟩
    have hcompletion : stageCompletion f.plan (answers.world decision) s =
        { status := answers.result s } := by
      simp [stageCompletion, executor_plain hselect hexecutor, Answers.world]
    simp [hcompletion, hundecided.offer]

include hundecided in
theorem fails_iff (answers : Answers) (hs : f.plan.Leads source s)
    (hplain : f.plan.isSource s = false) :
    (answers.world decision).Fails f.plan s ↔ f.FailsAt source answers s := by
  rw [Fails, unitOffer_eq hselect hsource hundecided answers hs hplain, unitExit_eq hselect,
    hasRejectEdge_eq hselect (leads_lt hsource hs)]
  cases hport : f.plan.isPort s <;> simp [FailsAt, Executable, hs, hplain, hport]

include hundecided in
theorem fires_of_leads (hs : f.plan.Leads source s) (hplain : f.plan.isSource s = false)
    (habove : ∀ a, TransGen f.plan.Linked a s → ¬ f.FailsAt source answers a) :
    Fires f.plan (answers.world decision) source s := by
  induction hs with
  | refl =>
    rw [hsource] at hplain
    cases hplain
  | @tail b c hb hlink ih =>
    obtain ⟨e, he, rfl, rfl⟩ := hlink
    have hstep : f.plan.Linked e.fromStage e.toStage := ⟨e, he, rfl, rfl⟩
    cases hfrom : f.plan.isSource e.fromStage with
    | true =>
      have horigin := source_unique hselect hsource hfrom
      refine .start he horigin ?_
      rw [hundecided.offer answers _ rfl]
      exact verdict_eq hselect hundecided he
    | false =>
      have hfires := ih hfrom fun a ha => habove a (ha.tail hstep)
      refine .next hfires (isBuffer_eq hselect _) he (unitExit_eq hselect _).symm ?_
      have hoffer : (answers.world decision).unitOffer f.plan e.fromStage = some .ok := by
        have hnot := habove _ (.single hstep)
        rw [unitOffer_eq hselect hsource hundecided answers hb hfrom]
        cases hport : f.plan.isPort e.fromStage with
        | true => rfl
        | false => simpa [FailsAt, Executable, show f.plan.Leads source _ from hb, hfrom, hport]
            using hnot
      rw [hoffer]
      exact verdict_eq hselect hundecided he

theorem execute_eq (hreach : ∀ s, reach s = true ↔ f.plan.Leads source s) :
    execute f.plan (answers.world decision) source =
      match f.refusal answers reach with
      | some status => .error ⟨.validation status, .empty⟩
      | none => dispatchRegion f.plan (answers.validated.world decision) source reach := by
  obtain ⟨m, hm, hspec⟩ := CompiledPlan.mark_spec (source_lt hsource)
  have hsame : m.reachable = reach := by
    funext s
    rw [Bool.eq_iff_iff, hspec, hreach, reaches_iff_leads hselect]
  have hstages : (preparedStages f.plan source reach).filter (fun s => !f.plan.inRegion s) =
      f.consumers.filter fun c => reach c && !f.plan.isPort c := by
    rw [preparedStages, consumers, stages, filter_filter, filter_filter]
    refine filter_congr fun s _ => ?_
    have hregion : f.plan.inRegion s = false := by
      rw [CompiledPlan.inRegion, regions_eq hselect]
      rfl
    by_cases hs : s = source
    · simp [hs, hsource]
    · simp [hregion, isBuffer_eq hselect, hs, Bool.and_comm, Bool.and_assoc]
  have hreserve : ((preparedStages f.plan source reach).map (answers.world decision).reserve).find?
      (· ≠ .ok) = none := by simp [Answers.world]
  simp only [execute, hm, hsame, hstages, hreserve]
  rfl

theorem precedes_of_path (hs : f.plan.Leads source s) (hpath : TransGen f.plan.Linked t s) :
    TransGen (Precedes f.plan source) t s := by
  have hreaches : ∀ u, f.plan.Leads source u → f.plan.Reaches source u :=
    fun u => (reaches_iff_leads hselect).mpr
  have hstep : ∀ b c, f.plan.Leads source c → f.plan.Linked b c → Precedes f.plan source b c := by
    intro b c hc hlink
    have hb := leads_of_linked hselect hsource hlink hc
    obtain ⟨e, he, rfl, rfl⟩ := hlink
    exact ⟨e, he, rfl, rfl, hreaches _ hb, hreaches _ hc⟩
  induction hpath with
  | single hlink => exact .single (hstep _ _ hs hlink)
  | tail _ hlink ih =>
    exact (ih (leads_of_linked hselect hsource hlink hs)).tail (hstep _ _ hs hlink)

section Events

variable {world : World} {tr : List Event} (hreach : ∀ s, reach s = true ↔ f.plan.Reaches source s)
  (hlegal : Legal f.plan world source reach tr)
include hreach hlegal

theorem leads_of_dispatched (hs : .dispatched s ∈ tr) :
    f.plan.Leads source s ∧ f.plan.isSource s = false := by
  obtain ⟨hreached, hne⟩ := hlegal.reached hreach (hlegal.dispatched_spec hs) rfl
  refine ⟨(reaches_iff_leads hselect).mp ((hreach s).mp hreached), ?_⟩
  by_contra hs'
  exact hne (source_unique hselect hsource (by simpa using hs'))

theorem dispatched_before (hsplit : tr = tr₁ ++ .dispatched s :: tr₂)
    (hpath : TransGen f.plan.Linked t s) (ht : f.plan.isSource t = false) :
    .skipped t ∈ tr₁ ∨ .dispatched t ∈ tr₁ := by
  have hdispatched : .dispatched s ∈ tr := by simp [hsplit]
  have hs := (leads_of_dispatched hselect hsource hreach hlegal hdispatched).1
  have hbefore : Legal f.plan world source reach tr₁ := (hsplit ▸ hlegal).of_append
  have hready : .readied s ∈ tr₁ := hlegal.enabled tr₁ _ tr₂ hsplit
  have hout : ∀ r ∈ f.plan.regions, t ∉ r.members := by simp [regions_eq hselect]
  obtain ⟨selection, hrel⟩ := hbefore.released_of_above hreach hready rfl hout
    (precedes_of_path hselect hsource hs hpath)
  obtain ⟨-, ⟨rfl, -⟩ | ⟨hskip, -⟩ | ⟨u, hu, hexit, -⟩⟩ := hbefore.released_spec hrel
  · rw [hsource] at ht
    cases ht
  · exact .inl hskip
  rw [unitExit_eq hselect] at hexit
  exact .inr (hexit ▸ hu)

theorem dispatched_ordered (hskip : ∀ s, .skipped s ∉ tr) :
    Ordered (fun p c => p ∈ f.linkedAfter c) (dispatchedStages tr) := by
  intro pre c post hsplit p hp
  obtain ⟨hplain, hlink⟩ := mem_linkedAfter.mp hp
  obtain ⟨tr₁, tr₂, htr, rfl⟩ := dispatchedStages_split hsplit
  rcases dispatched_before hselect hsource hreach hlegal htr (.single hlink) hplain with h | h
  · exact absurd (by simp [htr, h]) (hskip p)
  · exact mem_dispatchedStages.mpr h

theorem stopsAt_dispatched (ht : f.Executable source t) (hlast : dispatchedStages tr = l ++ [t]) :
    f.StopsAt t (f.callbacks (dispatchedStages tr)) := by
  constructor
  · simp [callbacks, hlast, filter_append, ht.2.2]
  intro d hpath hd
  obtain ⟨pre, post, hsplit⟩ := append_of_mem (mem_filter.mp hd).1
  obtain ⟨tr₁, tr₂, htr, rfl⟩ := dispatchedStages_split hsplit
  have hdispatched : .dispatched t ∈ tr := mem_dispatchedStages.mp (by simp [hlast])
  have hnot : .skipped t ∉ tr₁ := fun hskip =>
    hlegal.not_skipped_of_readied (hlegal.dispatched_spec hdispatched) (by simp [htr, hskip])
  have hbefore : t ∈ dispatchedStages tr₁ := mem_dispatchedStages.mpr
    ((dispatched_before hselect hsource hreach hlegal htr hpath ht.2.1).resolve_left hnot)
  have hnodup := hlegal.dispatchedStages_nodup
  rw [hlast] at hsplit hnodup
  rcases split_snoc hsplit with ⟨hl, rfl⟩ | ⟨post', rfl⟩
  · exact not_linked_self hpath
  · exact (nodup_append.mp hnodup).2.2 t (mem_append_left _ hbefore) t (by simp) rfl

end Events

section Dispatcher

variable (hreach : ∀ s, reach s = true ↔ f.plan.Reaches source s)
include hundecided hreach

omit hsource in
theorem dispatched_of_fires
    (h : Resting f.plan (answers.validated.world decision) source reach w.queue.length w)
    (hs : Fires f.plan (answers.validated.world decision) source s) : .dispatched s ∈ w.trace := by
  have hfree : ¬ Blocked f.plan (answers.validated.world decision) source s := by
    rintro ⟨b, hb, -⟩
    rw [isBuffer_eq hselect] at hb
    cases hb
  rcases dispatched_or_admitted hreach (answers.world_quiet f.plan hundecided) h hs hfree with
    ⟨-, hdispatched⟩ | ⟨hbuffer, -⟩
  · exact hdispatched
  rw [isBuffer_eq hselect] at hbuffer
  cases hbuffer

theorem failsAt_of_halted (h : Halted f.plan (answers.validated.world decision) source reach stop) :
    ∃ t l, stop.cause = .failure t (answers.result t) ∧ f.FailsAt source answers t ∧
      dispatchedStages stop.workspace.trace = l ++ [t] := by
  obtain ⟨u, status, hcause, hdispatched, hfails, us, u', hlast, hoffer', -, -, hothers⟩ :=
    (answers.world_quiet f.plan hundecided).failure h.explained
  obtain ⟨hleads, hplain⟩ := leads_of_dispatched hselect hsource hreach h.legal hdispatched
  have hfailsAt : f.FailsAt source answers u :=
    (fails_iff hselect hsource hundecided answers.validated hleads hplain).mp hfails
  -- All other dispatched stages succeed, so the failed one is the last.
  obtain rfl : u = u' := by
    have hmem : u ∈ us ++ [u'] := hlast ▸ mem_dispatchedStages.mpr hdispatched
    rcases mem_append.mp hmem with hmem | hmem
    · exact absurd hfails (hothers u hmem)
    · exact mem_singleton.mp hmem
  have hoffer := unitOffer_eq hselect hsource hundecided answers.validated hleads hplain
  rw [hoffer', hfailsAt.1.2.2] at hoffer
  refine ⟨u, us, ?_, hfailsAt, hlast⟩
  rw [hcause, unitExit_eq hselect, Option.some.inj hoffer]
  rfl

theorem dispatchRegion_calm (hnone : ∀ s, ¬ f.FailsAt source answers s) :
    ∃ w, dispatchRegion f.plan (answers.validated.world decision) source reach = .ok w ∧
      f.ExecutesAll source (f.callbacks (dispatchedStages w.trace)) := by
  have hends : Ends _ _ (dispatchRegion f.plan (answers.validated.world decision) source reach) :=
    dispatchRegion_ends (source_lt hsource) hreach
  cases hrun : dispatchRegion f.plan (answers.validated.world decision) source reach with
  | error stop =>
    rw [hrun] at hends
    obtain ⟨t, _, -, hfails, -⟩ := failsAt_of_halted hselect hsource hundecided hreach hends
    exact absurd hfails (hnone t)
  | ok w =>
    rw [hrun] at hends
    have hlegal : Legal f.plan (answers.validated.world decision) source reach w.trace :=
      (Resting.tracks hends).legal
    have hfires : ∀ s, f.plan.Leads source s → f.plan.isSource s = false →
        Fires f.plan (answers.validated.world decision) source s := fun s hs hplain =>
      fires_of_leads hselect hsource hundecided hs hplain fun a _ => hnone a
    have hskip : ∀ s, .skipped s ∉ w.trace := by
      intro s hskipped
      obtain ⟨hreached, hne⟩ := hlegal.reached hreach hskipped rfl
      have hplain : f.plan.isSource s = false := by
        by_contra hs
        exact hne (source_unique hselect hsource (by simpa using hs))
      have hs := (reaches_iff_leads hselect).mp ((hreach s).mp hreached)
      exact hlegal.not_skipped_of_fires hreach (hfires s hs hplain) hskipped
    refine ⟨w, rfl, executesAll_callbacks hselect hsource hlegal.dispatchedStages_nodup
      (fun s => ?_) (dispatched_ordered hselect hsource hreach hlegal hskip)⟩
    rw [mem_dispatchedStages]
    constructor
    · exact leads_of_dispatched hselect hsource hreach hlegal
    rintro ⟨hs, hplain⟩
    exact dispatched_of_fires hselect hundecided hreach hends (hfires s hs hplain)

theorem dispatchRegion_failing (ht : f.FailsAt source answers t)
    (hone : ∀ s, f.FailsAt source answers s → s = t) :
    ∃ w, dispatchRegion f.plan (answers.validated.world decision) source reach =
        .error ⟨.failure t (answers.result t), w⟩ ∧
      f.StopsAt t (f.callbacks (dispatchedStages w.trace)) := by
  have hends : Ends _ _ (dispatchRegion f.plan (answers.validated.world decision) source reach) :=
    dispatchRegion_ends (source_lt hsource) hreach
  cases hrun : dispatchRegion f.plan (answers.validated.world decision) source reach with
  | error stop =>
    rw [hrun] at hends
    obtain ⟨t', l, hcause, hfails, hlast⟩ :=
      failsAt_of_halted hselect hsource hundecided hreach hends
    obtain rfl := hone t' hfails
    refine ⟨stop.workspace, by rw [← hcause], ?_⟩
    exact stopsAt_dispatched hselect hsource hreach (Halted.legal hends) ht.1 hlast
  | ok w =>
    rw [hrun] at hends
    have hfires : Fires f.plan (answers.validated.world decision) source t := by
      refine fires_of_leads hselect hsource hundecided ht.1.1 ht.1.2.1 fun a hpath hfails => ?_
      obtain rfl := hone a hfails
      exact not_linked_self hpath
    have hdispatched := dispatched_of_fires hselect hundecided hreach hends hfires
    have hfails : (answers.validated.world decision).Fails f.plan t :=
      (fails_iff hselect hsource hundecided answers.validated ht.1.1 ht.1.2.1).mpr ht
    exact absurd hfails ((Resting.completed hends).sound t hdispatched)

end Dispatcher

/-! ### The ring -/

omit hselect in
theorem refusal_eq_none_iff (hreach : ∀ s, reach s = true ↔ f.plan.Leads source s) :
    f.refusal answers reach = none ↔ ∀ c, f.Executable source c → answers.validate c = .ok := by
  rw [refusal, find?_eq_none, forall_mem_map]
  constructor
  · rintro hall c ⟨hleads, hplain, hport⟩
    have hc : c ∈ f.consumers := mem_consumers.mpr ⟨leads_lt hsource hleads, hplain⟩
    have hmem : c ∈ f.consumers.filter fun c => reach c && !f.plan.isPort c :=
      mem_filter.mpr ⟨hc, by simp [hport, (hreach c).mpr hleads]⟩
    simpa using hall c hmem
  intro hall c hmem
  obtain ⟨hc, hprops⟩ := mem_filter.mp hmem
  rw [Bool.and_eq_true, Bool.not_eq_true'] at hprops
  simpa using hall c ⟨(hreach c).mp hprops.1, (mem_consumers.mp hc).2, hprops.2⟩

section Ring

variable (hreach : ∀ s, reach s = true ↔ f.plan.Leads source s)
include hreach

theorem failsAt_of_aborted (h : Aborted f answers reach next₀ n abort)
    (hheader : ∀ c ∈ f.consumers, answers.headerValid c = true) :
    ∃ t, abort.exit = .failed t (answers.result t) ∧ f.FailsAt source answers t ∧
      f.StopsAt t (f.callbacks abort.sweep.order) := by
  rcases h.givenUp with ⟨l, t, hexit, hresult, hport, horder, -⟩ | ⟨-, c, hc, -, hinvalid⟩
  · have hvisited : ∀ s ∈ abort.sweep.order, f.plan.Leads source s := fun s hs =>
      (hreach s).mp (h.reached s hs).2
    have hlast : t ∈ abort.sweep.order := by simp [horder]
    have hexecutable : f.Executable source t :=
      ⟨hvisited t hlast, (mem_consumers.mp (h.reached t hlast).1).2, hport⟩
    have hnodup := h.nodup
    have hordered := h.ordered
    rw [horder] at hnodup hordered hvisited
    refine ⟨t, hexit, ⟨hexecutable, hresult⟩, ?_⟩
    rw [horder]
    refine ⟨by simp [callbacks, filter_append, hport], fun d hpath hd => ?_⟩
    have hmem := (mem_filter.mp hd).1
    refine hordered.not_mem_of_last hnodup ?_ hmem
    exact transGen_linkedAfter hselect hsource (hvisited d hmem) hpath hexecutable.2.1
  rw [hheader c hc] at hinvalid
  cases hinvalid

omit hselect in
theorem mem_order_iff (h : Sweeping f answers reach next₀ n sweep) (hpending : sweep.pending = 0) :
    s ∈ sweep.order ↔ f.plan.Leads source s ∧ f.plan.isSource s = false := by
  constructor
  · intro hs
    obtain ⟨hc, hreached⟩ := h.reached s hs
    exact ⟨(hreach s).mp hreached, (mem_consumers.mp hc).2⟩
  rintro ⟨hleads, hplain⟩
  have hc : s ∈ f.consumers := mem_consumers.mpr ⟨leads_lt hsource hleads, hplain⟩
  exact (h.done_iff s).mp (h.done_of_pending hpending hc ((hreach s).mpr hleads))

variable {publication : Publication} (hpub : Published f answers reach ring publication)
  (hrefusal : f.refusal answers reach = none) (hfull : ring.full f.consumers = false)
  (hheader : ∀ c ∈ f.consumers, answers.headerValid c = true)
include hpub hrefusal hfull hheader

theorem publication_calm (hnone : ∀ s, ¬ f.FailsAt source answers s) :
    publication.exit = .finished ∧ f.ExecutesAll source (f.callbacks publication.order) := by
  cases hpub with
  | invalid _ hrefusal' =>
    rw [hrefusal] at hrefusal'
    cases hrefusal'
  | full _ hfull' =>
    rw [hfull] at hfull'
    cases hfull'
  | finished sweep _ _ hsweep hpending =>
    exact ⟨rfl, executesAll_callbacks hselect hsource hsweep.nodup
      (fun s => mem_order_iff hsource hreach hsweep hpending) hsweep.ordered⟩
  | aborted abort _ _ habort =>
    obtain ⟨t, -, hfails, -⟩ := failsAt_of_aborted hselect hsource hreach habort hheader
    exact absurd hfails (hnone t)

theorem publication_failing (ht : f.FailsAt source answers t)
    (hone : ∀ s, f.FailsAt source answers s → s = t) :
    publication.exit = .failed t (answers.result t) ∧
      f.StopsAt t (f.callbacks publication.order) := by
  cases hpub with
  | invalid _ hrefusal' =>
    rw [hrefusal] at hrefusal'
    cases hrefusal'
  | full _ hfull' =>
    rw [hfull] at hfull'
    cases hfull'
  | finished sweep _ _ hsweep hpending =>
    have hmem := (mem_order_iff hsource hreach hsweep hpending).mpr ⟨ht.1.1, ht.1.2.1⟩
    rcases hsweep.succeeded t hmem with hport | hresult
    · rw [ht.1.2.2] at hport
      cases hport
    · exact absurd hresult ht.2
  | aborted abort _ _ habort =>
    obtain ⟨t', hexit, hfails, hstops⟩ := failsAt_of_aborted hselect hsource hreach habort hheader
    obtain rfl := hone t' hfails
    exact ⟨hexit, hstops⟩

end Ring

end Selected

/-- For a flow whose messages take the broadcast ring, after any publications: the ring always makes
progress. If it takes a message whose identity no stage changes, no stage leaves a decision on it,
and at most one stage fails, it ends like the dispatcher, with the same status; neither executes
anything if a stage is not valid; without a failure both execute all stages in the order of the
graph; and with a failure both stop at the failed stage. -/
theorem broadcast_refines_dispatch (hselect : f.selectsBroadcast = true)
    (hsource : f.plan.isSource source = true) {tr : List (Answers × Publication)}
    (hrun : Run (Acts (f.publishAct source)) Ring.empty tr ring) (answers : Answers)
    (decision : ℕ → Option Decision) :
    let publication := f.publish answers source ring
    let status := runMessageFromStage f.plan (answers.world decision) source
    let onRing := f.callbacks publication.order
    let dispatched :=
      f.callbacks
        (dispatchedStages (workspace (execute f.plan (answers.world decision) source)).trace)
    publication.exit ≠ .noProgress ∧ publication.exit ≠ .unfinished ∧
      (ring.full f.consumers = false → (∀ c ∈ f.consumers, answers.headerValid c = true) →
        Undecided decision →
        (∀ s t, f.FailsAt source answers s → f.FailsAt source answers t → s = t) →
        publication.exit.status = status ∧
          ((∃ c, f.Executable source c ∧ answers.validate c ≠ .ok) →
            onRing = [] ∧ dispatched = []) ∧
          ((∀ c, f.Executable source c → answers.validate c = .ok) →
            ((∀ s, ¬ f.FailsAt source answers s) →
              status = .ok ∧ f.ExecutesAll source onRing ∧ f.ExecutesAll source dispatched) ∧
            ∀ t, f.FailsAt source answers t →
              status = answers.result t ∧ f.StopsAt t onRing ∧ f.StopsAt t dispatched)) := by
  obtain ⟨reach, hreach, hpub⟩ :=
    publish_published hselect hsource answers (level_of_run hselect hsource hrun)
  have hreaches : ∀ s, reach s = true ↔ f.plan.Reaches source s := fun s =>
    (hreach s).trans (reaches_iff_leads hselect).symm
  have hexecute : execute f.plan (answers.world decision) source =
      match f.refusal answers reach with
      | some status => .error ⟨.validation status, .empty⟩
      | none => dispatchRegion f.plan (answers.validated.world decision) source reach :=
    execute_eq hselect hsource hreach
  have hvalid : f.refusal answers reach = none ↔
      ∀ c, f.Executable source c → answers.validate c = .ok := refusal_eq_none_iff hsource hreach
  intro publication status onRing dispatched
  refine ⟨hpub.exit_ne.1, hpub.exit_ne.2, fun hfull hheader hundecided hone => ?_⟩
  simp only [status, dispatched, onRing, runMessageFromStage, hexecute]
  cases hrefusal : f.refusal answers reach with
  | some reason =>
    have hinvalid : ¬ ∀ c, f.Executable source c → answers.validate c = .ok := by
      rw [← hvalid, hrefusal]
      exact Option.some_ne_none _
    have hpublication : publication = ⟨ring, [], .invalid reason⟩ := hpub.eq_of_refusal hrefusal
    rw [hpublication]
    exact ⟨rfl, fun _ => ⟨rfl, rfl⟩, fun hall => absurd hall hinvalid⟩
  | none =>
    have hall := hvalid.mp hrefusal
    have hnever : ¬ ∃ c, f.Executable source c ∧ answers.validate c ≠ .ok := by
      rintro ⟨c, hc, hne⟩
      exact hne (hall c hc)
    by_cases hfailing : ∃ t, f.FailsAt source answers t
    · obtain ⟨t, ht⟩ := hfailing
      have hone' : ∀ s, f.FailsAt source answers s → s = t := fun s hs => hone s t hs ht
      obtain ⟨w, hdispatch, hstops⟩ :=
        dispatchRegion_failing hselect hsource hundecided hreaches ht hone'
      obtain ⟨hexit, hstops'⟩ := publication_failing hselect hsource hreach hpub hrefusal hfull
        hheader ht hone'
      simp only [hdispatch, publication, hexit]
      refine ⟨rfl, fun hex => absurd hex hnever, fun _ => ⟨fun hnone => absurd ht (hnone t), ?_⟩⟩
      intro t' ht'
      obtain rfl := hone' t' ht'
      exact ⟨rfl, hstops', hstops⟩
    have hnone : ∀ s, ¬ f.FailsAt source answers s := not_exists.mp hfailing
    obtain ⟨w, hdispatch, hexecutes⟩ :=
      dispatchRegion_calm hselect hsource hundecided hreaches hnone
    obtain ⟨hexit, hexecutes'⟩ := publication_calm hselect hsource hreach hpub hrefusal hfull
      hheader hnone
    simp only [hdispatch, publication, hexit]
    exact ⟨rfl, fun hex => absurd hex hnever, fun _ => ⟨fun _ => ⟨rfl, hexecutes', hexecutes⟩,
      fun t ht => absurd ht (hnone t)⟩⟩

/-- One message without failures. -/
theorem broadcast_refines_dispatch_plainFlow :
    plainFlow.selectsBroadcast = true ∧ plainFlow.plan.isSource 0 = true ∧
      Run (Acts (plainFlow.publishAct 0)) Ring.empty [] Ring.empty ∧
      (plainFlow.publish calmAnswers 0 Ring.empty).exit.status =
        runMessageFromStage plainFlow.plan (calmAnswers.world fun _ => none) 0 := by
  have hselect : plainFlow.selectsBroadcast = true := by decide
  have hsource : plainFlow.plan.isSource 0 = true := by decide
  refine ⟨hselect, hsource, .nil, ?_⟩
  obtain ⟨-, -, hsame⟩ := broadcast_refines_dispatch hselect hsource .nil calmAnswers fun _ => none
  exact (hsame (by decide) (fun _ _ => rfl) (by simp [Undecided]) fun s _ hs => absurd rfl hs.2).1

/-- The flow `input -> tag -> load`. -/
def taggedPlan : CompiledPlan where
  stages := [{ name := "input", isSource := true }, { name := "tag" }, { name := "load" }]
  nodes := [⟨0, 1⟩, ⟨1, 1⟩, ⟨2, 0⟩]
  edges := [⟨0, 1, .unconditional⟩, ⟨1, 2, .unconditional⟩]

theorem taggedPlan_leads : ∀ s < 3, taggedPlan.Leads 0 s := by
  have htag : taggedPlan.Leads 0 1 := .single ⟨⟨0, 1, .unconditional⟩, by decide, rfl, rfl⟩
  have hload : taggedPlan.Leads 0 2 := htag.tail ⟨⟨1, 2, .unconditional⟩, by decide, rfl, rfl⟩
  intro s hs
  rcases (by omega : s = 0 ∨ s = 1 ∨ s = 2) with rfl | rfl | rfl
  · exact .refl
  · exact htag
  · exact hload

def taggedFlow : FlowPlan where
  plan := taggedPlan
  planes _ := {}
  internal _ := false
  internal_scope := by simp
  source_scope := by simp
  source_reachable s hs := .inl ⟨0, by decide, taggedPlan_leads s hs⟩

/-- The stage `tag` succeeds and gives the message a new id. -/
def taggedAnswers : Answers := { calmAnswers with headerValid := fun c => c ≠ 2 }

/-- The ring gives the message up before `load`, although no stage failed; the dispatcher executes
both. -/
theorem taggedFlow_differs :
    taggedFlow.selectsBroadcast = true ∧ taggedFlow.plan.isSource 0 = true ∧
      (∀ s, ¬ taggedFlow.FailsAt 0 taggedAnswers s) ∧
      (taggedFlow.publish taggedAnswers 0 Ring.empty).exit.status = .eproto ∧
      taggedFlow.callbacks (taggedFlow.publish taggedAnswers 0 Ring.empty).order = [1] ∧
      runMessageFromStage taggedFlow.plan (taggedAnswers.world fun _ => none) 0 = .ok ∧
      taggedFlow.callbacks (dispatchedStages
        (workspace (execute taggedFlow.plan (taggedAnswers.world fun _ => none) 0)).trace) =
          [1, 2] :=
  ⟨by decide, by decide, fun _ hs => hs.2 rfl, by decide, by decide, by decide, by decide⟩

end FlowPlan

end TurboFlow.Graph
