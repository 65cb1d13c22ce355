import TurboFlow.Reactive.Consistency
import TurboFlow.Inbox.Driver

/-!
# Completed runs

A run is completed when its upstream is done and no value is pending. The last value that fails
records its failure in one section and makes the run fail in a later one; a completion in between
wins. Apart from that, and from an upstream that reports done after a failure, a completed run
accepted no failure.
-/

namespace TurboFlow.Reactive

open Transition Table TurboFlow.Publication List Option AsyncPublication

variable {f : Frame} {r : ℕ} {run run' : Run} {old new frames : List Frame} {b : Bump} {s s' : Flow}
  {op : Operation}

namespace Frame

@[simp] def delivers (r : ℕ) : Frame → ℕ
  | .value r' _ _ _ _ => if r' = r then 1 else 0
  | _ => 0

@[simp] def unrecorded (r : ℕ) : Frame → ℕ
  | .value r' .admitting _ _ _ | .value r' .preparing _ _ _ | .value r' .creating _ _ _
  | .value r' .running _ none _ | .value r' .recording _ none _ => if r' = r then 1 else 0
  | _ => 0

def prepared (r : ℕ) : Frame → ℕ
  | .value r' .creating _ _ _ => if r' = r then 1 else 0
  | _ => 0

@[simp] def completes (r : ℕ) : Frame → ℕ
  | .finish r' .completed _ _ .transition _ => if r' = r then 1 else 0
  | _ => 0

def fails (r : ℕ) : Frame → ℕ
  | .finish r' .failed _ _ .transition (some _) => if r' = r then 1 else 0
  | _ => 0

def Honest : Frame → Prop
  | .finish _ .completed status _ _ _ => status = .ok
  | _ => True

/-- What the frames report to the run. -/
def reports (r : ℕ) : List (Frame → ℕ) :=
  [delivers r, unrecorded r, prepared r, completes r, fails r]

theorem reports_zero_of_other (h : f.run? ≠ some r) : ∀ w ∈ reports r, w f = 0 := by
  simp only [reports, forall_mem_cons]
  cases f with
  | value r' stage region o rc =>
    cases stage <;> cases o <;> simp_all [run?, prepared, fails]
  | finish r' state status detach stage o =>
    cases state <;> cases stage <;> cases o <;> simp_all [run?, prepared, fails]
  | _ => simp_all [prepared, fails]

theorem reports_zero_after (o : Option ℕ) (r : ℕ) :
    (Flow.after o).delivers r = 0 ∧ (Flow.after o).unrecorded r = 0 ∧
      (Flow.after o).prepared r = 0 ∧ (Flow.after o).completes r = 0 ∧
      (Flow.after o).fails r = 0 := by
  simpa [reports] using reports_zero_of_other (by simp)

theorem honest_finish :
    (Frame.finish r state status detach stage o).Honest ↔ (state = .completed → status = .ok) := by
  cases state <;> simp [Honest]

theorem honest_after (o : Option ℕ) : (Flow.after o).Honest := by
  cases o <;> trivial

theorem unrecorded_le_delivers (f : Frame) (r : ℕ) : f.unrecorded r ≤ f.delivers r := by
  cases f with
  | value r' stage region o rc =>
    cases stage <;> cases o <;> simp
  | _ => exact Nat.zero_le _

end Frame

open TurboFlow.Reactive.Frame

/-- The upstream is inside `on_value`. -/
def Upstream.busy : Upstream → ℕ
  | .delivering => 1
  | .ready | .ended => 0

@[simp]
theorem Upstream.busy_ready : Upstream.ready.busy = 0 := rfl

@[simp]
theorem Upstream.busy_delivering : Upstream.delivering.busy = 1 := rfl

@[simp]
theorem Upstream.busy_ended : Upstream.ended.busy = 0 := rfl

theorem Upstream.eq_delivering_of_busy {u : Upstream} (h : 0 < u.busy) : u = .delivering := by
  cases u with
  | delivering => rfl
  | ready => cases h
  | ended => cases h

/-- The accepted values are those that finished, those a call still delivers and those whose
publications have not reported; a failure that has finished is known to the run, the upstream or the
callback that reported it. -/
structure Reported (frames : List Frame) (publications : List AsyncPublication) (r : ℕ)
    (run : Run) : Prop where
  accepted : run.accepted = run.results.length + tally (unrecorded r) frames +
    tally (unsettled r) publications
  pending : run.pendingValues = tally (prepared r) frames +
    tally (unsettled r) publications
  delivering : tally (delivers r) frames = run.upstream.busy
  ended : run.upstreamDone = true → run.upstream = .ended
  completing : 0 < tally (completes r) frames → run.upstream = .ended ∧ run.pendingValues = 0
  known : 0 < tally (fails r) frames ∨ run.syncFailed = true → ∃ x ∈ run.results, x ≠ .ok
  failed : (∃ x ∈ run.results, x ≠ .ok) →
    run.terminal = true ∨ run.syncFailed = true ∨ 0 < tally (fails r) frames

section Moves

section

variable (h : RunMove r run run' old new b)

include h

theorem accepted_of_move :
    run'.accepted + (run.results.length + tally (unrecorded r) old) =
      run.accepted + (run'.results.length + tally (unrecorded r) new) := by
  cases h <;> simp only [tally_cons, tally_nil] at * <;> (try split) <;>
    (try rw [(reports_zero_after _ _).2.1]) <;>
    simp_all [Nat.add_comm, Nat.add_left_comm]

theorem pending_of_move (hle : tally (prepared r) old ≤ run.pendingValues) :
    run'.pendingValues + tally (prepared r) old = run.pendingValues + tally (prepared r) new := by
  cases h <;> simp only [tally_cons, tally_nil] at * <;> (try split) <;>
    (try rw [(reports_zero_after _ _).2.2.1]) <;>
    simp_all [prepared]

theorem delivering_of_move (hbusy : 0 < tally (delivers r) old → run.upstream = .delivering) :
    tally (delivers r) new + run.upstream.busy = tally (delivers r) old + run'.upstream.busy := by
  cases h <;> simp only [tally_cons, tally_nil] at * <;> (try split) <;>
    (try rw [(reports_zero_after _ _).1]) <;>
    simp_all

theorem ended_of_move (hended : run.upstream = .ended) (hidle : tally (delivers r) old = 0) :
    run'.upstream = .ended ∧ run'.pendingValues = run.pendingValues ∧
      run'.results = run.results := by
  cases h <;> simp_all

theorem done_of_move (hdone : run'.upstreamDone = true) :
    run.upstreamDone = true ∨ run'.upstream = .ended := by
  cases h <;> simp_all

theorem completing_of_move (hnew : 0 < tally (completes r) new) :
    0 < tally (completes r) old ∨ run'.upstream = .ended ∧ run'.pendingValues = 0 := by
  cases h <;> simp only [tally_cons, tally_nil] at * <;> (try split at hnew) <;>
    (try rw [(reports_zero_after _ _).2.2.2.1] at hnew) <;> simp_all

theorem results_of_move :
    run'.results = run.results ∧ run'.syncFailed = run.syncFailed ∨
      ∃ rc, run'.results = run.results ++ [rc] ∧
        run'.syncFailed = (run.syncFailed || decide (rc ≠ .ok)) := by
  cases h <;> simp

theorem fails_of_move :
    tally (fails r) new ≤ tally (fails r) old ∧
      (tally (fails r) old = tally (fails r) new ∨ run'.terminal = true) := by
  cases h <;> simp only [tally_cons, tally_nil] at * <;> (try split) <;>
    (try rw [(reports_zero_after _ _).2.2.2.2]) <;> simp_all [fails]

theorem honest_of_move (hold : ∀ f ∈ old, f.Honest) : ∀ f ∈ new, f.Honest := by
  intro f hf
  cases h <;> simp only [not_mem_nil, mem_singleton] at hf <;> subst hf <;>
    (try split) <;> (try exact honest_after _) <;> simp_all [honest_finish] <;> trivial

theorem completed_of_move (hstate : run'.state = .completed) :
    run.state = .completed ∧ run'.status = run.status ∧ run'.terminal = run.terminal ∨
      ∃ status detach o, old = [.finish r .completed status detach .transition o] ∧
        run.terminal = false ∧ run' = run.terminate .completed status := by
  cases h <;> simp_all

end

end Moves

namespace Reported

variable {publications : List AsyncPublication}

section

variable (h : Reported frames publications r run)

include h

theorem idle_of_ended (hended : run.upstream = .ended) : tally (delivers r) frames = 0 := by
  rw [h.delivering, hended, Upstream.busy_ended]

theorem all_finished (hended : run.upstream = .ended) (hpending : run.pendingValues = 0) :
    run.results.length = run.accepted := by
  have hidle := h.idle_of_ended hended
  have hunrecorded : tally (unrecorded r) frames = 0 :=
    tally_eq_zero_iff.mpr fun f hf =>
      Nat.le_zero.mp ((unrecorded_le_delivers f r).trans (tally_eq_zero_iff.mp hidle f hf).le)
  have haccepted := h.accepted
  have hunsettled := h.pending
  omega

theorem completing_move (hmove : RunMove r run run' old new b)
    (hx : Exchange frames frames' old new) (hcompletes : 0 < tally (completes r) frames') :
    run'.upstream = .ended ∧ run'.pendingValues = 0 := by
  -- a completion that was there before waits on a run that has stopped changing
  have hbefore : 0 < tally (completes r) frames →
      run'.upstream = .ended ∧ run'.pendingValues = 0 := by
    intro hpos
    obtain ⟨hended, hpending⟩ := h.completing hpos
    have hidle := h.idle_of_ended hended
    have hle := hx.old_le (delivers r)
    obtain ⟨hended', hpending', -⟩ := ended_of_move hmove hended (by omega)
    exact ⟨hended', hpending'.trans hpending⟩
  have hadd := hx.tally_add (completes r)
  rcases Nat.eq_zero_or_pos (tally (completes r) new) with hzero | hpos
  · exact hbefore (by omega)
  rcases completing_of_move hmove hpos with hold | hdone
  · exact hbefore (hold.trans_le (hx.old_le _))
  · exact hdone

theorem run_move (hmove : RunMove r run run' old new b) (hx : Exchange frames frames' old new) :
    Reported frames' publications r run' := by
  have hbusy : 0 < tally (delivers r) old → run.upstream = .delivering := by
    intro hold
    refine Upstream.eq_delivering_of_busy ?_
    rw [← h.delivering]
    exact hold.trans_le (hx.old_le _)
  have hfails := hx.tally_add (fails r)
  obtain ⟨hfewer, hlost⟩ := fails_of_move hmove
  constructor
  · have haccepted := h.accepted
    have hmoved := accepted_of_move hmove
    have hadd := hx.tally_add (unrecorded r)
    omega
  · have hpending := h.pending
    have hle := hx.old_le (prepared r)
    have hmoved := pending_of_move hmove (by omega)
    have hadd := hx.tally_add (prepared r)
    omega
  · have hdelivering := h.delivering
    have hmoved := delivering_of_move hmove hbusy
    have hadd := hx.tally_add (delivers r)
    omega
  · intro hdone
    rcases done_of_move hmove hdone with hbefore | hended
    · have hended := h.ended hbefore
      have hidle := h.idle_of_ended hended
      have hle := hx.old_le (delivers r)
      exact (ended_of_move hmove hended (by omega)).1
    · exact hended
  · exact h.completing_move hmove hx
  · intro hknown
    rcases results_of_move hmove with ⟨hresults, hsync⟩ | ⟨rc, hresults, hsync⟩
    · rw [hresults]
      rw [hsync] at hknown
      exact h.known (hknown.imp_left fun hpos => by omega)
    rw [hresults]
    rw [hsync, Bool.or_eq_true, decide_eq_true_eq] at hknown
    have hbefore : 0 < tally (fails r) frames ∨ run.syncFailed = true →
        ∃ x ∈ run.results ++ [rc], x ≠ .ok := by
      intro hbefore
      obtain ⟨x, hx, hne⟩ := h.known hbefore
      exact ⟨x, mem_append_left _ hx, hne⟩
    rcases hknown with hpos | hsync | hrc
    · exact hbefore (.inl (by omega))
    · exact hbefore (.inr hsync)
    · exact ⟨rc, by simp, hrc⟩
  rintro ⟨x, hmem, hne⟩
  have hbefore : x ∈ run.results →
      run'.terminal = true ∨ run.syncFailed = true ∨ 0 < tally (fails r) frames' := by
    intro hmem
    rcases h.failed ⟨x, hmem, hne⟩ with hterminal | hsync | hpos
    · exact .inl (hmove.terminal hterminal).1
    · exact .inr (.inl hsync)
    rcases hlost with heq | hterminal
    · exact .inr (.inr (by omega))
    · exact .inl hterminal
  rcases results_of_move hmove with ⟨hresults, hsync⟩ | ⟨rc, hresults, hsync⟩
  · rw [hresults] at hmem
    rw [hsync]
    exact hbefore hmem
  rw [hresults, mem_append, mem_singleton] at hmem
  rw [hsync, Bool.or_eq_true, decide_eq_true_eq]
  rcases hmem with hmem | rfl
  · rcases hbefore hmem with hterminal | hsync | hpos
    · exact .inl hterminal
    · exact .inr (.inl (.inl hsync))
    · exact .inr (.inr hpos)
  · exact .inr (.inl (.inr hne))

theorem of_tally_eq (hframes : SameTallies (reports r) frames frames')
    (hunsettled : tally (unsettled r) publications' =
      tally (unsettled r) publications) : Reported frames' publications' r run := by
  simp only [SameTallies, reports, forall_mem_cons] at hframes
  obtain ⟨hdelivers, hunrecorded, hprepared, hcompletes, hfails, -⟩ := hframes
  obtain ⟨haccepted, hpending, hdelivering, hended, hcompleting, hknown, hfailed⟩ := h
  constructor
  · rw [hunrecorded, hunsettled]
    exact haccepted
  · rw [hprepared, hunsettled]
    exact hpending
  · rw [hdelivers]
    exact hdelivering
  · exact hended
  · rw [hcompletes]
    exact hcompleting
  · rw [hfails]
    exact hknown
  rw [hfails]
  exact hfailed

end

end Reported

section Frames

theorem reports_eq_of_other (hx : Exchange frames frames' old new)
    (hf : ∀ f ∈ old ++ new, f.run? ≠ some r) : SameTallies (reports r) frames frames' :=
  .of_zero hx fun f h => reports_zero_of_other (hf f h)

theorem reports_eq_of_tracker (h : TrackerMove k p t old new)
    (hx : Exchange frames frames' old (new ++ if t.2 then [.finalizing k] else [])) (r : ℕ) :
    SameTallies (reports r) frames frames' := by
  intro w hw
  simp only [reports, mem_cons, not_mem_nil, or_false] at hw
  refine tally_eq_of_due hx ?_ ?_
  · rcases hw with rfl | rfl | rfl | rfl | rfl <;> rfl
  · rcases hw with rfl | rfl | rfl | rfl | rfl <;> cases h <;> rfl

theorem honest_of_tracker (h : TrackerMove k p t old new) (hf : f ∈ new) : f.Honest := by
  cases h <;> simp at hf <;> subst hf <;> trivial

theorem reports_of_create (h : CreateMove k owner old new) (r : ℕ) :
    tally (delivers r) new = tally (delivers r) old ∧
      tally (unrecorded r) old = tally (unrecorded r) new +
        unsettled r { run := owner, tracker := Tracker.create, phase := .open } ∧
      tally (prepared r) old = tally (prepared r) new +
        unsettled r { run := owner, tracker := Tracker.create, phase := .open } ∧
      tally (completes r) new = tally (completes r) old ∧
      tally (fails r) new = tally (fails r) old := by
  cases h <;> simp [prepared, fails, unsettled]

theorem reports_of_finish (h : FinishMove k r run status f) :
    f.delivers r = 0 ∧ f.unrecorded r = 0 ∧ f.prepared r = 0 ∧ f.Honest := by
  cases h <;> exact ⟨rfl, rfl, rfl, by simp [Honest]⟩

end Frames

structure Reporting (s : Flow) : Prop where
  consistent : Consistent s
  honest : ∀ f ∈ s.frames, f.Honest
  reported : ∀ r run, s.runs[r]? = some run → Reported s.frames s.publications r run

namespace Reporting

theorem start (queueCapacity : ℕ) (hasAsyncStage : Bool) :
    Reporting (Flow.start queueCapacity hasAsyncStage) where
  consistent := Consistent.start queueCapacity hasAsyncStage
  honest f hf := nomatch hf
  reported r run hrun := by simp [Flow.start] at hrun

section

variable (h : Reporting s)

include h

theorem registered {b : Bool}
    (hx : Exchange s.frames frames [.opening d m b] [.subscribing s.runs.length]) :
    Reported frames s.publications s.runs.length (Run.create d m) := by
  have hzero : ∀ w ∈ reports s.runs.length, tally w frames = 0 := by
    intro w hw
    refine tally_eq_zero_iff.mpr fun f hf => ?_
    rcases hx.mem_or f hf with hf | hf
    · have hother : f.run? ≠ some s.runs.length :=
        fun hr => Nat.lt_irrefl _ (h.consistent.runs f hf _ hr)
      exact reports_zero_of_other hother w hw
    obtain rfl := mem_singleton.mp hf
    simp only [reports, mem_cons, not_mem_nil, or_false] at hw
    rcases hw with rfl | rfl | rfl | rfl | rfl <;> rfl
  simp only [reports, forall_mem_cons] at hzero
  have hunsettled : tally (unsettled s.runs.length) s.publications = 0 := by
    refine tally_eq_zero_iff.mpr fun p hp => if_neg ?_
    rintro ⟨hrun, -⟩
    exact Nat.lt_irrefl _ (h.consistent.owners p hp _ hrun)
  constructor
  · simp [hzero, hunsettled]
  · simp [hzero, hunsettled]
  · simp [hzero]
  · simp
  · simp [hzero]
  · simp [hzero]
  · simp

theorem created (hrun : s.runs[r]? = some run)
    (hmove : CreateMove s.publications.length owner old new)
    (hx : Exchange s.frames frames old new) :
    Reported frames
      (s.publications ++ [{ run := owner, tracker := Tracker.create, phase := .open }]) r run := by
  obtain ⟨haccepted, hpending, hdelivering, hended, hcompleting, hknown, hfailed⟩ :=
    h.reported r run hrun
  obtain ⟨hdelivers, hunrecorded, hprepared, hcompletes, hfails⟩ := reports_of_create hmove r
  have hsame : tally (fails r) frames = tally (fails r) s.frames := by
    have hadd := hx.tally_add (fails r)
    omega
  constructor
  · have hadd := hx.tally_add (unrecorded r)
    rw [tally_append, tally_cons, tally_nil]
    omega
  · have hadd := hx.tally_add (prepared r)
    rw [tally_append, tally_cons, tally_nil]
    omega
  · have hadd := hx.tally_add (delivers r)
    omega
  · exact hended
  · intro hpos
    have hadd := hx.tally_add (completes r)
    exact hcompleting (by omega)
  · rw [hsame]
    exact hknown
  rw [hsame]
  exact hfailed

theorem value_finished {new : Frame} (hrun : s.runs[r]? = some run)
    (hpub : s.publications[k]? = some p)
    (howner : p.run = some r) (hmove : FinishMove k r run p.tracker.status new)
    (hx : Exchange s.frames frames [.finalizing k] [new]) :
    Reported frames (s.publications.set k { p with phase := .settled }) r
      (run.valueFinish p.tracker.status) := by
  obtain ⟨haccepted, hpending, hdelivering, hended, hcompleting, hknown, hfailed⟩ :=
    h.reported r run hrun
  have hphase := (h.consistent.tracked k p hpub).phase_of_finalizing
    (hx.mem_old mem_cons_self)
  have hset := tally_set (w := unsettled r) hpub { p with phase := .settled }
  have hbefore : p.unsettled r = 1 := by simp [unsettled, howner, hphase]
  have hafter : unsettled r { p with phase := .settled } = 0 := by
    simp [unsettled]
  obtain ⟨hdelivers, hunrecorded, hprepared, -⟩ := reports_of_finish hmove
  have hsame : ∀ w : Frame → ℕ, w (.finalizing k) = 0 → w new = 0 →
      tally w frames = tally w s.frames := by
    intro w hold hnew
    refine hx.tally_eq fun f hf => ?_
    rcases mem_cons.mp hf with rfl | hf
    · exact hold
    · rw [mem_singleton.mp hf, hnew]
  have hcompletes := hx.tally_add (completes r)
  have hfails := hx.tally_add (fails r)
  have hquiet : (Frame.finalizing k).completes r = 0 ∧ (Frame.finalizing k).fails r = 0 :=
    ⟨rfl, rfl⟩
  simp only [tally_cons, tally_nil, hquiet] at hcompletes hfails
  rw [Run.valueFinish_eq]
  constructor
  · rw [hsame (unrecorded r) rfl hunrecorded, length_append, length_singleton]
    dsimp only
    omega
  · rw [hsame (prepared r) rfl hprepared]
    dsimp only
    omega
  · rw [hsame (delivers r) rfl hdelivers]
    exact hdelivering
  · exact hended
  · intro hpos
    -- a completion that was there before would have found this value pending
    have hnone : tally (completes r) s.frames = 0 := by
      by_contra hne
      have hzero := (hcompleting (Nat.pos_of_ne_zero hne)).2
      omega
    cases hmove with
    | completing _ _ hdone hlast => exact ⟨hended hdone, hlast⟩
    | late | counted | failing => simp at hcompletes; omega
  · intro hreported
    have hkept : 0 < tally (fails r) s.frames ∨ run.syncFailed = true →
        ∃ x ∈ run.results ++ [p.tracker.status], x ≠ .ok := by
      intro hbefore
      obtain ⟨x, hmem, hne⟩ := hknown hbefore
      exact ⟨x, mem_append_left _ hmem, hne⟩
    rcases hreported with hpos | hsync
    · cases hmove with
      | failing _ hstatus => exact ⟨p.tracker.status, by simp, hstatus⟩
      | late | counted | completing => exact hkept (.inl (by simp [fails] at hfails; omega))
    · exact hkept (.inr hsync)
  rintro ⟨x, hmem, hne⟩
  rcases mem_append.mp hmem with hmem | hmem
  · rcases hfailed ⟨x, hmem, hne⟩ with hterminal | hsync | hpos
    · exact .inl hterminal
    · exact .inr (.inl hsync)
    · exact .inr (.inr (by omega))
  obtain rfl := mem_singleton.mp hmem
  cases hmove with
  | late hterminal => exact .inl hterminal
  | counted _ hok | completing _ hok => exact absurd hok hne
  | failing =>
    refine .inr (.inr ?_)
    simp [fails] at hfails
    omega

theorem reported_step (heffect : Effect s op s') :
    ∀ r run, s'.runs[r]? = some run → Reported s'.frames s'.publications r run := by
  refine heffect.runs_rule h.consistent h.reported ?_ h.registered ?_ ?_ ?_ ?_ ?_
  · intro r run old new hreported hframes hf
    exact hreported.of_tally_eq (reports_eq_of_other hframes hf) rfl
  · intro r run run' old new b hrun hmove _ hframes
    exact (h.reported r run hrun).run_move hmove hframes
  · intro r run owner old new hrun hmove hframes
    exact h.created hrun hmove hframes
  · intro r k run p t old new hrun hpub hmove hframes
    have hopen := (h.consistent.tracked _ _ hpub).tracker_open (fun _ => hframes.mem_old) hmove
    exact (h.reported r run hrun).of_tally_eq (reports_eq_of_tracker hmove hframes r)
      (tally_unsettled_settle hpub hopen _ r)
  · intro r k run p p' old new hrun hpub hbefore hafter hframes hf
    exact (h.reported r run hrun).of_tally_eq (reports_eq_of_other hframes hf)
      (tally_unsettled_set hpub hbefore hafter)
  intro r k run p new hrun hpub howner hmove hframes
  exact h.value_finished hrun hpub howner hmove hframes

theorem honest_step (heffect : Effect s op s') : ∀ f ∈ s'.frames, f.Honest := by
  intro f hf
  have hnew : ∀ {old new : List Frame}, Exchange s.frames s'.frames old new →
      (f ∈ new → f.Honest) → f.Honest := by
    intro old new hframes hnew
    rcases hframes.mem_or f hf with hf | hf
    · exact h.honest f hf
    · exact hnew hf
  cases heffect with
  | flow hmove hframes _ _ _ | create hmove _ hframes _ _ _ =>
    refine hnew hframes fun hf => ?_
    cases hmove <;> simp at hf <;> subst hf <;> trivial
  | register hframes _ _ _ | finalizeDirect _ _ hframes _ _ _ | unpublish _ hframes _ _ _ =>
    refine hnew hframes fun hf => ?_
    rw [mem_singleton.mp hf]
    trivial
  | run _ hmove _ hframes _ _ _ =>
    exact hnew hframes (honest_of_move hmove (fun g hg => h.honest g (hframes.mem_old hg)) f)
  | tracker _ hmove hframes _ _ _ =>
    refine hnew hframes fun hf => ?_
    rcases mem_append.mp hf with hf | hf
    · exact honest_of_tracker hmove hf
    split at hf
    · rw [mem_singleton.mp hf]
      trivial
    · cases hf
  | finalizeValue _ _ _ hmove hframes _ _ _ =>
    refine hnew hframes fun hf => ?_
    rw [mem_singleton.mp hf]
    exact (reports_of_finish hmove).2.2.2

theorem step (heffect : Effect s op s') : Reporting s' where
  consistent := h.consistent.step heffect
  honest := h.honest_step heffect
  reported := h.reported_step heffect

end

end Reporting

namespace Flow

/-- When a call completes a run, no callback that reported a failure has still to make it fail, and
the upstream was not told of one. -/
def Unopposed (s : Flow) : Operation → Prop
  | .step j _ _ =>
    match s.frames[j]? with
    | some (.finish r .completed _ _ .transition _) =>
      ∀ run ∈ s.runs[r]?, run.terminal = false →
        tally (fails r) s.frames = 0 ∧ run.syncFailed = false
    | _ => True
  | _ => True

instance (s : Flow) (op : Operation) : Decidable (s.Unopposed op) := by
  unfold Unopposed
  split
  · split <;> infer_instance
  · infer_instance

end Flow

def Run.Truthful (run : Run) : Prop :=
  run.state = .completed →
    run.terminal = true ∧ run.status = .ok ∧ run.upstream = .ended ∧ run.pendingValues = 0 ∧
      ∀ x ∈ run.results, x = .ok

namespace Reporting

theorem unopposed_iff (h : Reporting s)
    (hj : s.frames[j]? = some (.finish r .completed status detach .transition o))
    (hrun : s.runs[r]? = some run) (hterminal : run.terminal = false) :
    s.Unopposed (.step j ok rc) ↔ ∀ x ∈ run.results, x = .ok := by
  have hreported := h.reported r run hrun
  simp only [Flow.Unopposed, hj, hrun, mem_def, some.injEq, forall_eq', hterminal, forall_const]
  constructor
  · rintro ⟨hfails, hsync⟩ x hx
    by_contra hne
    rcases hreported.failed ⟨x, hx, hne⟩ with hterminal' | hsync' | hpos
    · rw [hterminal] at hterminal'
      cases hterminal'
    · rw [hsync] at hsync'
      cases hsync'
    · omega
  intro hall
  have hnone : ¬ ∃ x ∈ run.results, x ≠ .ok := fun ⟨x, hx, hne⟩ => hne (hall x hx)
  refine ⟨?_, ?_⟩
  · by_contra hne
    exact hnone (hreported.known (.inl (Nat.pos_of_ne_zero hne)))
  cases hsync : run.syncFailed with
  | false => rfl
  | true => exact absurd (hreported.known (.inr hsync)) hnone

theorem truthful_move (h : Reporting s) (hunopposed : s.Unopposed op)
    (hrun : s.runs[r]? = some run) (hmove : RunMove r run run' old new b)
    (hadvances : op.Advances s old) (hx : Exchange s.frames frames old new)
    (htruthful : run.Truthful) : run'.Truthful := by
  intro hstate
  have hreported := h.reported r run hrun
  rcases completed_of_move hmove hstate with
    ⟨hbefore, hstatus, hsame⟩ | ⟨status, detach, o, rfl, hterminal, rfl⟩
  · obtain ⟨hterminal, hok, hended, hpending, hall⟩ := htruthful hbefore
    have hidle := hreported.idle_of_ended hended
    have hle := hx.old_le (delivers r)
    obtain ⟨hended', hpending', hresults⟩ := ended_of_move hmove hended (by omega)
    rw [hresults]
    exact ⟨hsame.trans hterminal, hstatus.trans hok, hended', hpending'.trans hpending, hall⟩
  obtain ⟨j, ok, rc, rfl, hj⟩ := hadvances _ mem_cons_self
  have hhonest := honest_finish.mp (h.honest _ (mem_of_getElem? hj)) rfl
  obtain ⟨hended, hpending⟩ := hreported.completing (by
    have hle := le_tally (w := completes r) hj
    simp at hle
    exact hle)
  exact ⟨rfl, hhonest, hended, hpending, (h.unopposed_iff hj hrun hterminal).mp hunopposed⟩

theorem truthful_step (h : Reporting s) (heffect : Effect s op s') (hunopposed : s.Unopposed op)
    (htruthful : ∀ (r : ℕ) (run : Run), s.runs[r]? = some run → run.Truthful) :
    ∀ (r : ℕ) (run : Run), s'.runs[r]? = some run → run.Truthful := by
  refine heffect.runs_rule (Q := fun _ _ _ run => run.Truthful) h.consistent htruthful ?_ ?_
    ?_ ?_ ?_
    ?_ ?_
  · intro r run old new h _ _
    exact h
  · intro d m b _ hstate
    cases hstate
  · intro r run run' old new b hrun hmove hadvances hframes
    exact h.truthful_move hunopposed hrun hmove hadvances hframes (htruthful r run hrun)
  · intro r run owner old new hrun _ _
    exact htruthful r run hrun
  · intro r k run p t old new hrun _ _ _
    exact htruthful r run hrun
  · intro r k run p p' old new hrun _ _ _ _ _
    exact htruthful r run hrun
  intro r k run p new hrun hpub howner _ hframes hstate
  -- a completed run waits for no value
  rw [Run.valueFinish_eq] at hstate
  obtain ⟨-, -, -, hpending, -⟩ := htruthful r run hrun hstate
  have hphase := (h.consistent.tracked k p hpub).phase_of_finalizing
    (hframes.mem_old mem_cons_self)
  have hle := le_tally (w := unsettled r) hpub
  have hone : p.unsettled r = 1 := by simp [unsettled, howner, hphase]
  have heq := (h.reported r run hrun).pending
  omega

end Reporting

namespace Flow

variable {queueCapacity : ℕ} {hasAsyncStage : Bool} {tr : List (Operation × Answer)}

theorem reporting_of_run
    (h : Transition.Run (Acts act) (start queueCapacity hasAsyncStage) tr s) : Reporting s := by
  refine h.invariant (Reporting.start queueCapacity hasAsyncStage) ?_
  intro t e t' hreporting hact
  exact hreporting.step (act_effect hact)

theorem truthful_of_run (h : Transition.Run (Meeting (Acts act) fun s e => s.Unopposed e.1)
      (start queueCapacity hasAsyncStage) tr s) :
    Reporting s ∧ ∀ (r : ℕ) (run : Run), s.runs[r]? = some run → run.Truthful := by
  refine h.invariant (P := fun s => Reporting s ∧ ∀ (r : ℕ) (run : Run), s.runs[r]? = some run →
    run.Truthful) ⟨Reporting.start queueCapacity hasAsyncStage, ?_⟩ ?_
  · intro r run hrun
    simp [start] at hrun
  rintro t e t' ⟨hreporting, htruthful⟩ ⟨hact, hunopposed⟩
  have heffect := act_effect hact
  exact ⟨hreporting.step heffect, hreporting.truthful_step heffect hunopposed htruthful⟩

theorem act_complete (hj : s.frames[j]? = some (.finish r .completed status detach .transition o))
    (hrun : s.runs[r]? = some run) (hterminal : run.terminal = false)
    (hact : s.act (.step j ok rc) = some (s', a)) :
    s'.runs[r]? = some (run.terminate .completed status) := by
  have hlt := (List.getElem?_eq_some_iff.mp hrun).1
  simp only [act, hj, bind_some, advance, hrun, map_some, stepFinish, hterminal,
    Bool.false_eq_true, if_false, some.injEq, Prod.mk.injEq] at hact
  rw [← hact.1]
  change (s.runs.modify r fun run => run.terminate .completed status)[r]? = _
  rw [modify_eq_set hrun, getElem?_set_self hlt]

/-- In every run whose completions are unopposed, a completed run has status OK, and every value it
accepted has finished with OK, so that a poll of the inbox driver completes no record with a value
that failed. In any run a completion finds only successes exactly when it is unopposed. -/
theorem completed_values_ok (queueCapacity : ℕ) (hasAsyncStage : Bool) :
    (∀ tr s, Transition.Run (Meeting (Acts act) fun s e => s.Unopposed e.1)
        (start queueCapacity hasAsyncStage) tr s →
      ∀ (r : ℕ) (run : Run), s.runs[r]? = some run →
        (run.state = .completed →
          run.status = .ok ∧ run.results.length = run.accepted ∧ ∀ x ∈ run.results, x = .ok) ∧
        ∀ (d : Inbox.Driver) (pending : Bool) (inbox : Inbox.Settlement → Status),
          (d.poll run pending inbox).settlement = some .complete →
            run.results.length = run.accepted ∧ ∀ x ∈ run.results, x = .ok) ∧
    ∀ tr s, Transition.Run (Acts act) (start queueCapacity hasAsyncStage) tr s →
      ∀ (j r : ℕ) (ok detach : Bool) (rc status : Status) (o : Option ℕ) (run : Run) (s' : Flow)
        (a : Answer), s.frames[j]? = some (.finish r .completed status detach .transition o) →
        s.runs[r]? = some run → run.terminal = false →
        s.act (.step j ok rc) = some (s', a) →
        ∃ run', s'.runs[r]? = some run' ∧ run'.state = .completed ∧
          run'.results.length = run'.accepted ∧
          (s.Unopposed (.step j ok rc) ↔ ∀ x ∈ run'.results, x = .ok) := by
  constructor
  · intro tr s h r run hrun
    obtain ⟨hreporting, htruthful⟩ := truthful_of_run h
    have hcompleted : run.state = .completed →
        run.status = .ok ∧ run.results.length = run.accepted ∧ ∀ x ∈ run.results, x = .ok := by
      intro hstate
      obtain ⟨-, hok, hended, hpending, hall⟩ := htruthful r run hrun hstate
      exact ⟨hok, (hreporting.reported r run hrun).all_finished hended hpending, hall⟩
    exact ⟨hcompleted,
      fun d pending inbox hpoll => (hcompleted (Inbox.Driver.poll_complete hpoll)).2⟩
  intro tr s h j r ok detach rc status o run s' a hj hrun hterminal hact
  have hreporting := reporting_of_run h
  have hreported := hreporting.reported r run hrun
  obtain ⟨hended, hpending⟩ := hreported.completing (by
    have hle := le_tally (w := completes r) hj
    simp at hle
    exact hle)
  have hiff : s.Unopposed (.step j ok rc) ↔ ∀ x ∈ run.results, x = .ok :=
    hreporting.unopposed_iff hj hrun hterminal
  exact ⟨_, act_complete hj hrun hterminal hact, rfl, hreported.all_finished hended hpending, hiff⟩

def waitingValue : List Operation :=
  [.control .started .opened true, .open false false false, .step 0 true .ok, .step 0 true .ok,
    .deliver 0, .step 1 true .ok, .step 1 true .ok, .step 1 true .ok, .submitClaim 0,
    .step 1 true .ok, .step 1 true .ok, .step 1 true .ok, .step 1 true .ok]

def polling : Inbox.Driver where
  phase := .graphRunning
  recordId := 1
  graphStatus := .ok
  settlementStatus := .ok
  requestFailureStatus := .ok

/-- The claim fails, and its callback has recorded the failure when the upstream is done: the run is
completed, and the driver completes the record. -/
theorem completed_with_failure :
    ∃ s outs run, exec act (start 4 true)
        (waitingValue ++ [.releaseClaim 0 .eio, .step 2 true .ok, .done 0, .step 3 true .ok]) =
          some (s, outs) ∧
      s.runs[0]? = some run ∧ run.state = .completed ∧ run.status = .ok ∧ run.results = [.eio] ∧
      (polling.poll run false fun _ => .ok).settlement = some .complete :=
  ⟨_, _, _, rfl, rfl, rfl, rfl, rfl, rfl⟩

/-- The claim succeeds and the callback completes the run. -/
theorem completed_values_ok_late :
    ∃ s outs run, execMeeting act Unopposed (start 4 true)
        (waitingValue ++ [.done 0, .releaseClaim 0 .ok, .step 2 true .ok, .step 2 true .ok]) =
          some (s, outs) ∧
      s.runs[0]? = some run ∧ run.state = .completed ∧ ∀ x ∈ run.results, x = .ok := by
  refine ⟨_, _, _, and_of_imp rfl fun hexec => and_of_imp rfl fun hrun => ⟨rfl, ?_⟩⟩
  exact (((completed_values_ok 4 true).1 _ _ (run_of_execMeeting hexec) 0 _ hrun).1 rfl).2.2

end Flow

end TurboFlow.Reactive
