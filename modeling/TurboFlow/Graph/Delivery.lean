import TurboFlow.Graph.Broadcast
import TurboFlow.Lib.Precedence
import TurboFlow.Lib.Run

/-!
# Deliveries over the broadcast ring

The rounds of a publication visit every consumer that the source leads to, each after those it is
linked after; of those left, the first in the order of the graph may read. However the publication
ends, these consumers have released the sequence (`publish_claimed`). The others, in the templates
of reusable stages, never do, so the ring runs full unless the source leads to all consumers.
-/

namespace TurboFlow.Graph

open Fallible Precedence Transition List

variable {f : FlowPlan} {answers : Answers} {c : ℕ}

section Loop

/-- What holds between two visits. Sequence `n` is being delivered. -/
structure Sweeping (f : FlowPlan) (answers : Answers) (reach : ℕ → Bool) (next₀ : ℕ → ℕ) (n : ℕ)
    (sweep : Sweep) : Prop where
  next_eq : ∀ c ∈ f.consumers, reach c = true → sweep.next c = n + (sweep.done c).toNat
  frame : ∀ c, (c ∈ f.consumers → reach c = false) → sweep.next c = next₀ c
  done_iff : ∀ c, sweep.done c = true ↔ c ∈ sweep.order
  nodup : sweep.order.Nodup
  reached : ∀ c ∈ sweep.order, c ∈ f.consumers ∧ reach c = true
  ordered : Ordered (fun p c => p ∈ f.linkedAfter c) sweep.order
  succeeded : ∀ c ∈ sweep.order, f.plan.isPort c = true ∨ answers.result c = .ok
  pending_eq : sweep.pending = f.consumers.countP fun c => reach c && !sweep.done c

def GivenUp (f : FlowPlan) (answers : Answers) (reach : ℕ → Bool) (abort : Abort) : Prop :=
  (∃ l s, abort.exit = .failed s (answers.result s) ∧ answers.result s ≠ .ok ∧
      f.plan.isPort s = false ∧ abort.sweep.order = l ++ [s] ∧
      ∀ c ∈ l, f.plan.isPort c = true ∨ answers.result c = .ok) ∨
    (abort.exit = .header ∧ ∃ c ∈ f.consumers, reach c = true ∧ answers.headerValid c = false)

structure Aborted (f : FlowPlan) (answers : Answers) (reach : ℕ → Bool) (next₀ : ℕ → ℕ) (n : ℕ)
    (abort : Abort) : Prop where
  next_eq : ∀ c ∈ f.consumers, reach c = true →
    abort.sweep.next c = n + (abort.sweep.done c).toNat
  frame : ∀ c, (c ∈ f.consumers → reach c = false) → abort.sweep.next c = next₀ c
  nodup : abort.sweep.order.Nodup
  reached : ∀ c ∈ abort.sweep.order, c ∈ f.consumers ∧ reach c = true
  ordered : Ordered (fun p c => p ∈ f.linkedAfter c) abort.sweep.order
  givenUp : GivenUp f answers reach abort

variable {reach : ℕ → Bool} {next₀ : ℕ → ℕ} {n : ℕ} {sweep : Sweep}

section

variable (h : Sweeping f answers reach next₀ n sweep)
include h

theorem Sweeping.readable_iff (hback : ∀ p ∈ f.linkedAfter c, p ∈ f.consumers ∧ reach p = true)
    (hc : c ∈ f.consumers) (hreach : reach c = true) (hdone : sweep.done c = false) :
    f.readable (n + 1) sweep c = true ↔ ∀ p ∈ f.linkedAfter c, sweep.done p = true := by
  have hnext : sweep.next c = n := by simp [h.next_eq c hc hreach, hdone]
  simp only [FlowPlan.readable, hnext, Bool.and_eq_true, decide_eq_true_eq, all_eq_true,
    Nat.lt_succ_self, true_and]
  refine forall₂_congr fun p hp => ?_
  rw [h.next_eq p (hback p hp).1 (hback p hp).2]
  cases sweep.done p <;> simp

theorem Sweeping.release (hc : c ∈ f.consumers) (hreach : reach c = true)
    (hdone : sweep.done c = false) (hbefore : ∀ p ∈ f.linkedAfter c, sweep.done p = true)
    (hresult : f.plan.isPort c = true ∨ answers.result c = .ok) :
    Sweeping f answers reach next₀ n (sweep.release c) ∧
      (sweep.release c).pending + 1 = sweep.pending := by
  have hnew : c ∉ sweep.order := fun hmem => by simp [(h.done_iff c).mpr hmem] at hdone
  have hcount : (f.consumers.countP fun d => reach d && !(sweep.release c).done d) + 1 =
      sweep.pending := by
    rw [h.pending_eq, ← countP_ne_add_one (p := fun d => reach d && !sweep.done d)
      f.consumers_nodup hc (by simp [hreach, hdone])]
    congr 2
    funext d
    by_cases hd : d = c
    all_goals simp [Sweep.release, hd]
  refine ⟨⟨?_, ?_, ?_, ?_, ?_, ?_, ?_, ?_⟩, ?_⟩
  · intro d hd hdreach
    by_cases heq : d = c
    · subst heq
      simp [Sweep.release, h.next_eq d hd hdreach, hdone]
    simp only [Sweep.release, Function.update_of_ne heq]
    exact h.next_eq d hd hdreach
  · intro d hd
    have hne : d ≠ c := by
      rintro rfl
      rw [hd hc] at hreach
      cases hreach
    simp only [Sweep.release, Function.update_of_ne hne]
    exact h.frame d hd
  · intro d
    by_cases heq : d = c
    · simp [Sweep.release, heq]
    · simp [Sweep.release, heq, h.done_iff]
  · exact nodup_append_comm.mpr (nodup_cons.mpr ⟨hnew, h.nodup⟩)
  · exact forall_mem_append.mpr ⟨h.reached, forall_mem_singleton.mpr ⟨hc, hreach⟩⟩
  · exact h.ordered.snoc fun p hp => (h.done_iff p).mp (hbefore p hp)
  · exact forall_mem_append.mpr ⟨h.succeeded, forall_mem_singleton.mpr hresult⟩
  all_goals
    have hpending : (sweep.release c).pending = sweep.pending - 1 := rfl
    omega

theorem Sweeping.abort (hgivenUp : GivenUp f answers reach ⟨exit, sweep⟩) :
    Aborted f answers reach next₀ n ⟨exit, sweep⟩ :=
  ⟨h.next_eq, h.frame, h.nodup, h.reached, h.ordered, hgivenUp⟩

theorem Sweeping.fail (hc : c ∈ f.consumers) (hreach : reach c = true)
    (hdone : sweep.done c = false)
    (hbefore : ∀ p ∈ f.linkedAfter c, sweep.done p = true) (hport : f.plan.isPort c = false)
    (hresult : answers.result c ≠ .ok) :
    Aborted f answers reach next₀ n
      ⟨.failed c (answers.result c), { sweep with order := sweep.order ++ [c] }⟩ := by
  have hnew : c ∉ sweep.order := fun hmem => by simp [(h.done_iff c).mpr hmem] at hdone
  refine ⟨h.next_eq, h.frame, ?_, ?_, ?_, ?_⟩
  · exact nodup_append_comm.mpr (nodup_cons.mpr ⟨hnew, h.nodup⟩)
  · exact forall_mem_append.mpr ⟨h.reached, forall_mem_singleton.mpr ⟨hc, hreach⟩⟩
  · exact h.ordered.snoc fun p hp => (h.done_iff p).mp (hbefore p hp)
  · exact .inl ⟨sweep.order, c, rfl, hresult, hport, rfl, h.succeeded⟩

theorem Sweeping.done_of_pending (hpending : sweep.pending = 0) (hc : c ∈ f.consumers)
    (hreach : reach c = true) : sweep.done c = true := by
  rw [h.pending_eq, countP_eq_zero] at hpending
  simpa [hreach] using hpending c hc

end

variable (hback : ∀ c, reach c = true → ∀ p ∈ f.linkedAfter c, p ∈ f.consumers ∧ reach p = true)
include hback

section

variable (h : Sweeping f answers reach next₀ n sweep)
include h

theorem visit_ends (hc : c ∈ f.consumers) :
    Ends (fun sweep' =>
        (sweep' = sweep ∧ ¬ (reach c = true ∧ sweep.done c = false ∧
          ∀ p ∈ f.linkedAfter c, sweep.done p = true)) ∨
        (sweep' = sweep.release c ∧ Sweeping f answers reach next₀ n sweep' ∧
          sweep'.pending + 1 = sweep.pending))
      (Aborted f answers reach next₀ n) (f.visit answers reach (n + 1) sweep c) := by
  unfold FlowPlan.visit
  split
  · rename_i hskip
    refine .inl ⟨rfl, fun hready => ?_⟩
    simp [hready.1, hready.2.1] at hskip
  rename_i hskip
  rw [Bool.not_eq_true, Bool.or_eq_false_iff, Bool.not_eq_false'] at hskip
  obtain ⟨hreach, hdone⟩ := hskip
  have hreadable := h.readable_iff (hback c hreach) hc hreach hdone
  split
  · rename_i hwait
    refine .inl ⟨rfl, fun hready => ?_⟩
    rw [hreadable.mpr hready.2.2] at hwait
    cases hwait
  rename_i hread
  have hbefore := hreadable.mp (by simpa using hread)
  split
  · rename_i hheader
    exact h.abort (.inr ⟨rfl, c, hc, hreach, by simpa using hheader⟩)
  split
  · rename_i hport
    have hrelease := h.release hc hreach hdone hbefore (.inl hport)
    exact .inr ⟨rfl, hrelease⟩
  rename_i hport
  split
  · rename_i hresult
    exact h.fail hc hreach hdone hbefore (by simpa using hport) hresult
  rename_i hresult
  have hrelease := h.release hc hreach hdone hbefore (.inr (not_not.mp hresult))
  exact .inr ⟨rfl, hrelease⟩

theorem exists_ready (hpending : sweep.pending ≠ 0) :
    ∃ c ∈ f.consumers, reach c = true ∧ sweep.done c = false ∧
      ∀ p ∈ f.linkedAfter c, sweep.done p = true := by
  obtain ⟨rank, hrank⟩ := f.plan.acyclic
  have hleft : ∃ c ∈ f.consumers, reach c = true ∧ sweep.done c = false := by
    rw [h.pending_eq, ← Nat.pos_iff_ne_zero, countP_pos_iff] at hpending
    simpa using hpending
  obtain ⟨c, hc, hreach, hdone⟩ := hleft
  induction hn : rank c using Nat.strong_induction_on generalizing c with
  | _ k ih =>
    by_cases hready : ∀ p ∈ f.linkedAfter c, sweep.done p = true
    · exact ⟨c, hc, hreach, hdone, hready⟩
    push Not at hready
    obtain ⟨p, hp, hpdone⟩ := hready
    obtain ⟨hpc, hpreach⟩ := hback c hreach p hp
    obtain ⟨-, e, he, rfl, rfl⟩ := FlowPlan.mem_linkedAfter.mp hp
    exact ih (rank e.fromStage) (hn ▸ hrank e he) e.fromStage hpc hpreach
      (by simpa using hpdone) rfl

theorem sweepOnce_ends (hpending : sweep.pending ≠ 0) :
    Ends (fun sweep' => Sweeping f answers reach next₀ n sweep' ∧ sweep'.progressed = true ∧
        sweep'.pending < sweep.pending)
      (Aborted f answers reach next₀ n) (f.sweepOnce answers reach (n + 1) sweep) := by
  obtain ⟨c₀, hc₀, hreach, hdone, hbefore⟩ := exists_ready hback h hpending
  have hstart : Sweeping f answers reach next₀ n { sweep with progressed := false } :=
    ⟨h.next_eq, h.frame, h.done_iff, h.nodup, h.reached, h.ordered, h.succeeded, h.pending_eq⟩
  -- The round makes progress at the latest when it comes to `c₀`.
  refine (Ends.foldlM (I := fun rest sweep' => (∀ c ∈ rest, c ∈ f.consumers) ∧
      Sweeping f answers reach next₀ n sweep' ∧
      (sweep'.progressed = true ∧ sweep'.pending < sweep.pending ∨
        c₀ ∈ rest ∧ sweep'.done = sweep.done ∧ sweep'.pending = sweep.pending)) ?_ f.consumers
    { sweep with progressed := false }
    ⟨fun _ hc => hc, hstart, .inr ⟨hc₀, rfl, rfl⟩⟩).mono ?_ fun _ => id
  · rintro c rest sweep' ⟨hrest, hsweep, hprogress⟩
    refine (visit_ends hback hsweep (hrest c mem_cons_self)).mono ?_ fun _ => id
    rintro sweep'' (⟨rfl, hidle⟩ | ⟨rfl, hsweep', hcount⟩)
    · refine ⟨fun d hd => hrest d (mem_cons_of_mem _ hd), hsweep, ?_⟩
      rcases hprogress with hprogress | ⟨hmem, hsame, hleft⟩
      · exact .inl hprogress
      rcases mem_cons.mp hmem with rfl | hmem
      · rw [hsame] at hidle
        exact absurd ⟨hreach, hdone, hbefore⟩ hidle
      · exact .inr ⟨hmem, hsame, hleft⟩
    refine ⟨fun d hd => hrest d (mem_cons_of_mem _ hd), hsweep', .inl ⟨rfl, ?_⟩⟩
    rcases hprogress with ⟨-, hlt⟩ | ⟨-, -, hleft⟩ <;> omega
  rintro sweep' ⟨-, hsweep, hprogress | ⟨hmem, -⟩⟩
  · exact ⟨hsweep, hprogress⟩
  · cases hmem

end

theorem rounds_ends (fuel : ℕ) :
    ∀ sweep, Sweeping f answers reach next₀ n sweep → sweep.pending < fuel →
      Ends (fun sweep' => Sweeping f answers reach next₀ n sweep' ∧ sweep'.pending = 0)
        (Aborted f answers reach next₀ n) (f.rounds answers reach (n + 1) fuel sweep) := by
  induction fuel with
  | zero =>
    intro sweep _ hfuel
    exact absurd hfuel (Nat.not_lt_zero _)
  | succ fuel ih =>
    intro sweep h hfuel
    rw [FlowPlan.rounds]
    split
    · rename_i hpending
      exact ⟨h, hpending⟩
    rename_i hpending
    refine (sweepOnce_ends hback h hpending).bind ?_
    rintro sweep' ⟨h', hprogressed, hlt⟩
    rw [if_pos hprogressed]
    exact ih sweep' h' (by omega)

theorem deliver_ends (answers : Answers)
    (hlevel : ∀ c ∈ f.consumers, reach c = true → next₀ c = n) :
    Ends (fun sweep => Sweeping f answers reach next₀ n sweep ∧ sweep.pending = 0)
      (Aborted f answers reach next₀ n) (f.deliver answers reach (n + 1) next₀) := by
  refine rounds_ends hback _ _ ?_ (Nat.lt_succ_of_le countP_le_length)
  exact
    { next_eq := by simpa using hlevel
      frame := fun _ _ => rfl
      done_iff := by simp
      nodup := nodup_nil
      reached := by simp
      ordered := Ordered.nil
      succeeded := by simp
      pending_eq := by simp }

end Loop

/-! ### Publications -/

/-- How a publication goes, `reach` being the stages that the source leads to. -/
inductive Published (f : FlowPlan) (answers : Answers) (reach : ℕ → Bool) (ring : Ring) :
    Publication → Prop
  | invalid (status : Status) (hrefusal : f.refusal answers reach = some status) :
      Published f answers reach ring ⟨ring, [], .invalid status⟩
  | full (hrefusal : f.refusal answers reach = none) (hfull : ring.full f.consumers = true) :
      Published f answers reach ring ⟨ring, [], .full⟩
  | finished (sweep : Sweep) (hrefusal : f.refusal answers reach = none)
      (hfull : ring.full f.consumers = false)
      (hsweep : Sweeping f answers reach ring.next ring.published sweep)
      (hpending : sweep.pending = 0) :
      Published f answers reach ring
        ⟨⟨ring.published + 1, sweep.next⟩, sweep.order, .finished⟩
  | aborted (abort : Abort) (hrefusal : f.refusal answers reach = none)
      (hfull : ring.full f.consumers = false)
      (habort : Aborted f answers reach ring.next ring.published abort) :
      Published f answers reach ring
        ⟨⟨ring.published + 1, f.releaseRemaining reach abort.sweep⟩, abort.sweep.order, abort.exit⟩

namespace FlowPlan

def Level (f : FlowPlan) (source : ℕ) (ring : Ring) : Prop :=
  ∀ c ∈ f.consumers, f.plan.Leads source c → ring.next c = ring.published

variable {source : ℕ} {ring : Ring}

theorem source_lt (hsource : f.plan.isSource source = true) : source < f.plan.stageCount := by
  by_contra hge
  have hnone : f.plan.stages[source]? = none := getElem?_eq_none (Nat.le_of_not_lt hge)
  rw [CompiledPlan.isSource, hnone] at hsource
  cases hsource

section Selected

variable (hselect : f.selectsBroadcast = true) (hsource : f.plan.isSource source = true)
include hselect hsource

theorem publish_published (answers : Answers) (hlevel : f.Level source ring) :
    ∃ reach, (∀ s, reach s = true ↔ f.plan.Leads source s) ∧
      Published f answers reach ring (f.publish answers source ring) := by
  obtain ⟨m, hm, hspec⟩ := markReachable_spec hselect (source_lt hsource)
  have hreach : ∀ s, m.reachable s = true ↔ f.plan.Leads source s := fun s =>
    (hspec s).trans (reaches_iff_leads hselect)
  refine ⟨m.reachable, hreach, ?_⟩
  have hback : ∀ c, m.reachable c = true → ∀ p ∈ f.linkedAfter c,
      p ∈ f.consumers ∧ m.reachable p = true := by
    intro c hc p hp
    obtain ⟨hplain, hlink⟩ := mem_linkedAfter.mp hp
    have hlt : p < f.plan.stageCount := by
      obtain ⟨e, he, rfl, -⟩ := hlink
      exact (f.plan.edges_lt e he).1
    have hleads := leads_of_linked hselect hsource hlink ((hreach c).mp hc)
    exact ⟨mem_consumers.mpr ⟨hlt, hplain⟩, (hreach p).mpr hleads⟩
  have hends := deliver_ends hback answers fun c hc hc' => hlevel c hc ((hreach c).mp hc')
  simp only [publish, hm]
  cases hrefusal : f.refusal answers m.reachable with
  | some status => exact .invalid status hrefusal
  | none =>
    cases hfull : ring.full f.consumers with
    | true => exact .full hrefusal hfull
    | false =>
      cases hdeliver : f.deliver answers m.reachable (ring.published + 1) ring.next with
      | ok sweep =>
        rw [hdeliver] at hends
        exact .finished sweep hrefusal hfull hends.1 hends.2
      | error abort =>
        rw [hdeliver] at hends
        exact .aborted abort hrefusal hfull hends

/-- Once a publication has claimed a sequence, exactly the consumers that the source leads to
release it. -/
theorem publish_claimed (hlevel : f.Level source ring)
    (hclaimed : (f.publish answers source ring).exit.claimed = true) :
    (f.publish answers source ring).ring.published = ring.published + 1 ∧
      (∀ c ∈ f.consumers, f.plan.Leads source c →
        (f.publish answers source ring).ring.next c = ring.next c + 1) ∧
      ∀ c, ¬ f.plan.Leads source c →
        (f.publish answers source ring).ring.next c = ring.next c := by
  obtain ⟨reach, hreach, hpub⟩ := publish_published hselect hsource answers hlevel
  have hnot : ∀ c, ¬ f.plan.Leads source c → reach c = false := fun c hc => by
    simpa using mt (hreach c).mp hc
  generalize f.publish answers source ring = publication at hpub hclaimed ⊢
  cases hpub with
  | invalid | full => cases hclaimed
  | finished sweep _ _ hsweep hpending =>
    refine ⟨rfl, fun c hc hleads => ?_, fun c hc => hsweep.frame c fun _ => hnot c hc⟩
    have hreached := (hreach c).mpr hleads
    change sweep.next c = _
    rw [hsweep.next_eq c hc hreached, hsweep.done_of_pending hpending hc hreached,
      hlevel c hc hleads]
    rfl
  | aborted abort _ _ habort =>
    refine ⟨rfl, fun c hc hleads => ?_, fun c hc => ?_⟩
    · have hreached := (hreach c).mpr hleads
      change f.releaseRemaining reach abort.sweep c = _
      rw [releaseRemaining, habort.next_eq c hc hreached, hlevel c hc hleads]
      cases hdone : abort.sweep.done c <;> simp [hc, hreached]
    change f.releaseRemaining reach abort.sweep c = _
    rw [releaseRemaining, hnot c hc]
    simpa using habort.frame c fun _ => hnot c hc

theorem publish_refused (hlevel : f.Level source ring)
    (hclaimed : (f.publish answers source ring).exit.claimed = false) :
    (f.publish answers source ring).ring = ring ∧ (f.publish answers source ring).order = [] := by
  obtain ⟨reach, -, hpub⟩ := publish_published hselect hsource answers hlevel
  generalize f.publish answers source ring = publication at hpub hclaimed ⊢
  cases hpub with
  | invalid | full => exact ⟨rfl, rfl⟩
  | finished => cases hclaimed
  | aborted abort _ _ habort =>
    rcases habort.givenUp with ⟨l, s, hexit, -⟩ | ⟨hexit, -⟩
    all_goals
      rw [hexit] at hclaimed
      cases hclaimed

theorem Level.publish (hlevel : f.Level source ring) :
    f.Level source (f.publish answers source ring).ring := by
  cases hclaimed : (f.publish answers source ring).exit.claimed with
  | false => rwa [(publish_refused hselect hsource hlevel hclaimed).1]
  | true =>
    obtain ⟨hpublished, hnext, -⟩ := publish_claimed hselect hsource hlevel hclaimed
    intro c hc hleads
    rw [hnext c hc hleads, hpublished, hlevel c hc hleads]

theorem level_of_run (h : Run (Acts (f.publishAct source)) Ring.empty tr ring) :
    f.Level source ring := by
  refine h.invariant (fun _ _ _ => rfl) fun ring e ring' hlevel hstep => ?_
  obtain rfl : (f.publish e.1 source ring).ring = ring' := congrArg Prod.fst (Option.some.inj hstep)
  exact hlevel.publish hselect hsource

end Selected

/-- Whatever has been published, every consumer has released all sequences, the ring takes the next
message, and every consumer releases the next sequence that is claimed. -/
def ReleasesEvenly (f : FlowPlan) (source : ℕ) : Prop :=
  ∀ tr ring, Run (Acts (f.publishAct source)) Ring.empty tr ring →
    (∀ c ∈ f.consumers, ring.next c = ring.published) ∧
      ∀ answers, (f.publish answers source ring).exit ≠ .full ∧
        ∀ c ∈ f.consumers, (f.publish answers source ring).ring.next c =
          ring.next c + (f.publish answers source ring).exit.claimed.toNat

def calmAnswers : Answers := ⟨fun _ => .ok, fun _ => true, fun _ => .ok⟩

theorem refusal_calm (reach : ℕ → Bool) : f.refusal calmAnswers reach = none := by
  simp [refusal, calmAnswers]

section Selected

variable (hselect : f.selectsBroadcast = true) (hsource : f.plan.isSource source = true)
include hselect hsource

theorem exit_calm (hlevel : f.Level source ring) :
    (f.publish calmAnswers source ring).exit =
      if ring.full f.consumers then .full else .finished := by
  obtain ⟨reach, -, hpub⟩ := publish_published hselect hsource calmAnswers hlevel
  generalize f.publish calmAnswers source ring = publication at hpub ⊢
  cases hpub with
  | invalid _ hrefusal =>
    rw [refusal_calm] at hrefusal
    cases hrefusal
  | full _ hfull | finished _ _ hfull => rw [hfull]; rfl
  | aborted abort _ _ habort =>
    rcases habort.givenUp with ⟨_, s, -, hresult, -⟩ | ⟨-, c, -, -, hheader⟩
    · exact absurd rfl hresult
    · cases hheader

omit hselect hsource in
theorem full_eq_false (h : ∀ c ∈ f.consumers, ring.next c = ring.published) :
    ring.full f.consumers = false := by
  rw [Ring.full, any_eq_false]
  intro c hc
  simp [h c hc, broadcastRingCapacity]

theorem releases_evenly (hall : ∀ c ∈ f.consumers, f.plan.Leads source c) :
    f.ReleasesEvenly source := by
  intro tr ring hrun
  have hlevel := level_of_run hselect hsource hrun
  have heven : ∀ c ∈ f.consumers, ring.next c = ring.published :=
    fun c hc => hlevel c hc (hall c hc)
  refine ⟨heven, fun answers => ⟨?_, fun c hc => ?_⟩⟩
  · obtain ⟨reach, -, hpub⟩ := publish_published hselect hsource answers hlevel
    generalize f.publish answers source ring = publication at hpub ⊢
    cases hpub with
    | invalid | finished => simp
    | full _ hfull =>
      rw [full_eq_false heven] at hfull
      cases hfull
    | aborted _ _ _ habort =>
      rcases habort.givenUp with ⟨_, _, hexit, -⟩ | ⟨hexit, -⟩
      all_goals
        rw [hexit]
        exact Exit.noConfusion
  cases hclaimed : (f.publish answers source ring).exit.claimed with
  | false =>
    rw [(publish_refused hselect hsource hlevel hclaimed).1]
    rfl
  | true => exact (publish_claimed hselect hsource hlevel hclaimed).2.1 c hc (hall c hc)

/-- While fewer messages than the capacity have been published the ring takes the next one. -/
theorem exists_calm_run (hk : k ≤ broadcastRingCapacity) :
    ∃ tr ring, Run (Acts (f.publishAct source)) Ring.empty tr ring ∧ tr.length = k ∧
      (∀ e ∈ tr, e.1 = calmAnswers ∧ e.2.exit = .finished) ∧ ring.published = k ∧
      ∀ c, ¬ f.plan.Leads source c → ring.next c = 0 := by
  induction k with
  | zero => exact ⟨[], Ring.empty, .nil, rfl, by simp, rfl, fun _ _ => rfl⟩
  | succ k ih =>
    obtain ⟨tr, ring, hrun, hlength, hfinished, hpublished, hidle⟩ := ih (by omega)
    have hlevel := level_of_run hselect hsource hrun
    have hfull : ring.full f.consumers = false := by
      rw [Ring.full, any_eq_false]
      intro c _
      simp only [decide_eq_true_eq, Nat.not_le]
      omega
    have hexit : (f.publish calmAnswers source ring).exit = .finished := by
      rw [exit_calm hselect hsource hlevel, hfull]
      rfl
    have hclaimed : (f.publish calmAnswers source ring).exit.claimed = true := by rw [hexit]; rfl
    obtain ⟨hnext, -, hframe⟩ := publish_claimed hselect hsource hlevel hclaimed
    refine ⟨tr ++ [(calmAnswers, f.publish calmAnswers source ring)], _, hrun.snoc rfl,
      by simp [hlength], ?_, by rw [hnext, hpublished], fun c hc => ?_⟩
    · exact forall_mem_append.mpr ⟨hfinished, forall_mem_singleton.mpr ⟨rfl, hexit⟩⟩
    · rw [hframe c hc, hidle c hc]

theorem exists_refused (hc : c ∈ f.consumers) (hnot : ¬ f.plan.Leads source c) :
    ∃ tr ring, Run (Acts (f.publishAct source)) Ring.empty tr ring ∧
      tr.length = broadcastRingCapacity ∧
      (∀ e ∈ tr, e.1 = calmAnswers ∧ e.2.exit = .finished) ∧
      (f.publish calmAnswers source ring).exit = .full := by
  obtain ⟨tr, ring, hrun, hlength, hfinished, hpublished, hidle⟩ :=
    exists_calm_run hselect hsource le_rfl
  have hfull : ring.full f.consumers = true := by
    rw [Ring.full, any_eq_true]
    exact ⟨c, hc, by simp [hpublished, hidle c hnot]⟩
  refine ⟨tr, ring, hrun, hlength, hfinished, ?_⟩
  rw [exit_calm hselect hsource (level_of_run hselect hsource hrun), hfull]
  rfl

/-- The consumers release evenly, and the ring never runs full, if and only if the source leads to
every other stage. -/
theorem releases_evenly_iff :
    f.ReleasesEvenly source ↔
      ∀ s < f.plan.stageCount, f.plan.isSource s = false → f.plan.Leads source s := by
  constructor
  · intro heven s hs hplain
    by_contra hnot
    obtain ⟨tr, ring, hrun, -, -, hexit⟩ :=
      exists_refused hselect hsource (mem_consumers.mpr ⟨hs, hplain⟩) hnot
    exact ((heven tr ring hrun).2 calmAnswers).1 hexit
  intro hall
  refine releases_evenly hselect hsource fun c hc => ?_
  obtain ⟨hlt, hplain⟩ := mem_consumers.mp hc
  exact hall c hlt hplain

end Selected

end FlowPlan

/-- The flow `input -> c -> load`, where `c` uses the reusable stage `cleanse` and has a port on
either side. -/
def aliasPlan : CompiledPlan where
  stages := [{ name := "cleanse.raw", isPort := true }, { name := "cleanse.trim" },
    { name := "cleanse.clean", isPort := true }, { name := "input", isSource := true },
    { name := "load" }, { name := "c.raw", isPort := true }, { name := "c.trim" },
    { name := "c.clean", isPort := true }]
  nodes := [⟨0, 1⟩, ⟨1, 1⟩, ⟨2, 0⟩, ⟨2, 1⟩, ⟨3, 0⟩, ⟨3, 1⟩, ⟨4, 1⟩, ⟨5, 1⟩]
  edges := [⟨0, 1, .unconditional⟩, ⟨1, 2, .unconditional⟩, ⟨3, 5, .unconditional⟩,
    ⟨5, 6, .unconditional⟩, ⟨6, 7, .unconditional⟩, ⟨7, 4, .unconditional⟩]
  acyclic := ⟨fun s => if s = 4 then 8 else s, by decide⟩

theorem aliasPlan_leads : ∀ s ∈ [3, 5, 6, 7, 4], aliasPlan.Leads 3 s := by
  have hinput : aliasPlan.Leads 3 3 := .refl
  have hraw : aliasPlan.Leads 3 5 := hinput.tail ⟨⟨3, 5, .unconditional⟩, by decide, rfl, rfl⟩
  have htrim : aliasPlan.Leads 3 6 := hraw.tail ⟨⟨5, 6, .unconditional⟩, by decide, rfl, rfl⟩
  have hclean : aliasPlan.Leads 3 7 := htrim.tail ⟨⟨6, 7, .unconditional⟩, by decide, rfl, rfl⟩
  have hload : aliasPlan.Leads 3 4 := hclean.tail ⟨⟨7, 4, .unconditional⟩, by decide, rfl, rfl⟩
  simp [hinput, hraw, htrim, hclean, hload]

/-- The scopes of the stages of `aliasPlan`. -/
def aliasScope : ℕ → Option String
  | 0 | 1 | 2 => some "cleanse"
  | 5 | 6 | 7 => some "c"
  | _ => none

def aliasFlow : FlowPlan where
  plan := aliasPlan
  planes s := { scope := aliasScope s }
  internal e := e.fromStage = 0 || e.fromStage = 1 || e.fromStage = 5 || e.fromStage = 6
  internal_scope := by decide
  source_scope := by
    intro s hs
    by_cases hlt : s < 8
    · have hall : ∀ s < 8, aliasPlan.isSource s = true → aliasScope s = none := by decide
      exact hall s hlt hs
    have hnone : aliasPlan.stages[s]? = none := getElem?_eq_none (Nat.le_of_not_lt hlt)
    rw [CompiledPlan.isSource, hnone] at hs
    cases hs
  source_reachable := by
    intro s hs
    have hcases : s ∈ [0, 1, 2] ∨ s ∈ [3, 5, 6, 7, 4] := by
      have hall : ∀ s < 8, s ∈ [0, 1, 2] ∨ s ∈ [3, 5, 6, 7, 4] := by decide
      exact hall s hs
    rcases hcases with htemplate | hreached
    · have hscope : ∀ s ∈ [0, 1, 2], aliasScope s = some "cleanse" := by decide
      exact .inr ⟨"cleanse", hscope s htemplate, by decide⟩
    · exact .inl ⟨3, by decide, aliasPlan_leads s hreached⟩

def plainPlan : CompiledPlan where
  stages := [{ name := "input", isSource := true }, { name := "load" }]
  nodes := [⟨0, 1⟩, ⟨1, 0⟩]
  edges := [⟨0, 1, .unconditional⟩]

theorem plainPlan_leads : ∀ s < 2, plainPlan.Leads 0 s := by
  have hload : plainPlan.Leads 0 1 := .single ⟨⟨0, 1, .unconditional⟩, by decide, rfl, rfl⟩
  intro s hs
  rcases Nat.lt_succ_iff_lt_or_eq.mp hs with hzero | rfl
  · rw [Nat.lt_one_iff.mp hzero]
    exact .refl
  · exact hload

def plainFlow : FlowPlan where
  plan := plainPlan
  planes _ := {}
  internal _ := false
  internal_scope := by simp
  source_scope := by simp
  source_reachable s hs := .inl ⟨0, by decide, plainPlan_leads s hs⟩

namespace FlowPlan

theorem releases_evenly_plainFlow :
    plainFlow.selectsBroadcast = true ∧ plainFlow.plan.isSource 0 = true ∧
      plainFlow.ReleasesEvenly 0 := by
  refine ⟨by decide, by decide, (releases_evenly_iff (by decide) (by decide)).mpr ?_⟩
  exact fun s hs _ => plainPlan_leads s hs

/-- The template of `cleanse` is never reached, so the flow delivers 1024 messages and refuses the
next one. -/
theorem aliasFlow_runs_full :
    aliasFlow.selectsBroadcast = true ∧ aliasFlow.plan.isSource 3 = true ∧
      (∃ tr ring, Run (Acts (aliasFlow.publishAct 3)) Ring.empty tr ring ∧ tr.length = 1024 ∧
        (∀ e ∈ tr, e.1 = calmAnswers ∧ e.2.exit = .finished) ∧
        (aliasFlow.publish calmAnswers 3 ring).exit = .full ∧
        (aliasFlow.publish calmAnswers 3 ring).exit.status = .enospc) ∧
      ¬ aliasFlow.ReleasesEvenly 3 := by
  have hinactive : InactiveTemplate aliasFlow.plan aliasFlow.planes aliasFlow.internal 0 :=
    ⟨"cleanse", rfl, by decide⟩
  have hnot : ¬ aliasFlow.plan.Leads 3 0 := fun hleads =>
    not_inactive_of_leads (by decide) hleads hinactive
  have hselect : aliasFlow.selectsBroadcast = true := by decide
  have hsource : aliasFlow.plan.isSource 3 = true := by decide
  have hconsumer : 0 ∈ aliasFlow.consumers := by decide
  obtain ⟨tr, ring, hrun, hlength, hfinished, hexit⟩ :=
    exists_refused hselect hsource hconsumer hnot
  refine ⟨hselect, hsource, ⟨tr, ring, hrun, hlength, hfinished, hexit, by rw [hexit]; rfl⟩,
    fun heven => ?_⟩
  exact ((heven tr ring hrun).2 calmAnswers).1 hexit

end FlowPlan

end TurboFlow.Graph
