import TurboFlow.Reactive.Consistency

/-!
# The publish count

`active_publishes` counts the publish regions entered and not left, the runs that are not terminal,
the lifetimes still to be returned, and the publications whose callback has not returned. One path
breaks it: an open whose subscription fails returns the lifetime of its run, also if another call
has finished the run and returned it already. `Undisturbed` excludes those interleavings.
-/

namespace TurboFlow.Reactive

open Transition Table TurboFlow.Publication List AsyncPublication

variable {r k : ℕ} {old new frames : List Frame} {run run' : Run} {b : Bump}
  {publications : List AsyncPublication} {p : AsyncPublication} {s s' : Flow}

namespace Frame

def inRegion : Frame → ℕ
  | .region | .opening _ _ _ | .failing | .publishing _ | .unowning _ => 1
  | .value _ .admitting _ _ _ => 0
  | .value _ _ entered _ _ => entered.toNat
  | _ => 0

@[simp] def owing : Frame → ℕ
  | .leaving _ | .finish _ _ _ _ .deregister _ | .finish _ _ _ _ .release _ => 1
  | _ => 0

def owes (r : ℕ) (f : Frame) : ℕ :=
  if f.run? = some r then f.owing else 0

@[simp] def opens (r : ℕ) : Frame → ℕ
  | .subscribing r' | .unwinding r' => if r' = r then 1 else 0
  | _ => 0

@[simp] def unwinds (r : ℕ) : Frame → ℕ
  | .unwinding r' => if r' = r then 1 else 0
  | _ => 0

def finishes (r : ℕ) : Frame → ℕ
  | .finish _ _ _ _ .transition _ => 0
  | .finish r' _ _ _ _ _ => if r' = r then 1 else 0
  | _ => 0

def uses (r : ℕ) : Frame → ℕ
  | .canceling r' _ | .closing r' | .sweeping r' | .requesting r' _ | .finish r' _ _ _ _ _
  | .value r' _ _ _ _ => if r' = r then 1 else 0
  | _ => 0

/-- What the frames hold of the run. -/
def weights (r : ℕ) : List (Frame → ℕ) :=
  [owes r, opens r, unwinds r, finishes r, uses r]

theorem zero_of_other (h : f.run? ≠ some r) : ∀ w ∈ weights r, w f = 0 := by
  simp only [weights, forall_mem_cons]
  refine ⟨if_neg h, ?_⟩
  cases f with
  | finish r' state status detach stage o =>
    cases stage <;> simp_all [run?, finishes, uses]
  | _ => simp_all [run?, finishes, uses]

@[simp]
theorem inRegion_after (o : Option ℕ) : (Flow.after o).inRegion = 0 := by
  cases o <;> rfl

@[simp]
theorem owing_after (o : Option ℕ) : (Flow.after o).owing = 0 := by
  cases o <;> rfl

theorem zero_after (o : Option ℕ) (r : ℕ) :
    (Flow.after o).owes r = 0 ∧ (Flow.after o).opens r = 0 ∧ (Flow.after o).unwinds r = 0 ∧
      (Flow.after o).finishes r = 0 ∧ (Flow.after o).uses r = 0 := by
  simpa [weights] using zero_of_other (by simp)

end Frame

open TurboFlow.Reactive.Frame

def Run.live (run : Run) : ℕ :=
  (!run.terminal && !run.abandoned).toNat

theorem Run.live_valueFinish (run : Run) (status : Status) :
    (run.valueFinish status).live = run.live := by
  rw [Run.valueFinish_eq]
  rfl

def AsyncPublication.unfinished (p : AsyncPublication) : ℕ :=
  if p.phase = .gone then 0 else 1

namespace Flow

def Unused (s : Flow) (r : ℕ) : Prop :=
  (∀ run ∈ s.runs[r]?, run.terminal = false) ∧ tally (uses r) s.frames = 0 ∧
    tally (unsettled r) s.publications = 0

instance (s : Flow) (r : ℕ) : Decidable (s.Unused r) :=
  inferInstanceAs (Decidable (_ ∧ _ ∧ _))

def Undisturbed (s : Flow) : Operation → Prop
  | .step j _ _ =>
    match s.frames[j]? with
    | some (.unwinding r) => s.Unused r
    | _ => True
  | _ => True

instance (s : Flow) (op : Operation) : Decidable (s.Undisturbed op) := by
  unfold Undisturbed
  induction op using Operation.casesOn with
  | step j _ _ =>
    dsimp only
    rcases s.frames[j]? with _ | frame
    · infer_instance
    · induction frame using Frame.casesOn <;> infer_instance
  | _ => infer_instance

end Flow

def Counted (s : Flow) : Prop :=
  s.activePublishes =
    tally inRegion s.frames + tally owing s.frames + tally Run.live s.runs +
      tally unfinished s.publications

/-- The lifetime is held by the run or by the call that has to return it, or has been returned; and
nothing works on a run whose open failed. -/
structure Accounted (frames : List Frame) (publications : List AsyncPublication) (r : ℕ)
    (run : Run) : Prop where
  returned : run.releases + tally (owes r) frames = run.terminal.toNat + run.abandoned.toNat
  opened : tally (opens r) frames + run.setupComplete.toNat + run.abandoned.toNat = 1
  disconnected : run.connected = true → tally (unwinds r) frames = 0
  attached : run.terminal = false → run.attached = true ∧ tally (finishes r) frames = 0
  failed : run.abandoned = true →
    run.terminal = false ∧ run.registered = false ∧ run.connected = false ∧
      tally (uses r) frames = 0 ∧ tally (unsettled r) publications = 0

def Bump.Balances : Bump → ℕ → ℕ → Prop
  | .up, held, held' => held' = held + 1
  | .keep, held, held' => held' = held
  | .down, held, held' => held = held' + 1

theorem Bump.Balances.apply {b : Bump} {held held' n : ℕ} (h : b.Balances held held') (rest : ℕ)
    (hn : n = held + rest) : b.apply n = held' + rest := by
  cases b <;> simp only [Bump.Balances, Bump.apply] at h ⊢ <;> omega

theorem FlowMove.balances {b : Bump} (h : FlowMove old new b) :
    b.Balances (tally inRegion old + tally owing old) (tally inRegion new + tally owing new) := by
  cases h <;> rfl

namespace RunMove

section

variable (h : RunMove r run run' old new b)

include h

/-- What frames and run hold moves with the count, if the run of a failed open is live and that of a
finishing call has not failed to open. -/
theorem balances (hfailed : .unwinding r ∈ old → run.live = 1)
    (huses : 0 < tally (uses r) old → run.abandoned = false) :
    b.Balances (tally inRegion old + tally owing old + run.live)
      (tally inRegion new + tally owing new + run'.live) := by
  cases h <;> simp only [tally_cons, tally_nil, mem_cons, not_mem_nil, or_false] at * <;>
    (try split) <;> (try rw [inRegion_after]) <;> (try rw [owing_after]) <;>
    simp_all [Bump.Balances, inRegion, Run.live, uses, Nat.add_comm]

theorem returned
    (hopens : 0 < tally (opens r) old → run.setupComplete = false ∧ run.abandoned = false) :
    run'.releases + tally (owes r) new + (run.terminal.toNat + run.abandoned.toNat) =
      run.releases + tally (owes r) old + (run'.terminal.toNat + run'.abandoned.toNat) := by
  cases h <;> simp only [tally_cons, tally_nil] at * <;> (try split) <;>
    (try rw [(zero_after _ _).1]) <;>
    simp_all [owes, run?, Nat.add_comm, Nat.add_left_comm]

theorem opened
    (hopens : 0 < tally (opens r) old → run.setupComplete = false ∧ run.abandoned = false) :
    tally (opens r) new + run'.setupComplete.toNat + run'.abandoned.toNat =
      tally (opens r) old + run.setupComplete.toNat + run.abandoned.toNat := by
  cases h <;> simp only [tally_cons, tally_nil] at * <;> (try split) <;>
    (try rw [(zero_after _ _).2.1]) <;>
    simp_all

theorem disconnected (hconnected : run'.connected = true) :
    run.connected = true ∧ tally (unwinds r) new ≤ tally (unwinds r) old := by
  cases h <;> simp only [tally_cons, tally_nil] at * <;> (try split) <;>
    (try rw [(zero_after _ _).2.2.1]) <;>
    simp_all

theorem attached (hterminal : run'.terminal = false) (hattached : run.attached = true)
    (hfinishes : tally (finishes r) old = 0) :
    run'.attached = true ∧ tally (finishes r) new = 0 := by
  cases h <;> simp only [tally_cons, tally_nil] at * <;> (try split) <;>
    (try rw [(zero_after _ _).2.2.2.1]) <;>
    simp_all [finishes]

theorem abandoned (habandoned : run'.abandoned = true) :
    run.abandoned = true ∨
      old = [.unwinding r] ∧ new = [.leaving r] ∧
        run' = { run.deregister with abandoned := true } := by
  cases h <;> simp_all

theorem idle (hopens : tally (opens r) old = 0) (huses : tally (uses r) old = 0)
    (hsetup : run.setupComplete = false) (hregistered : run.registered = false)
    (hconnected : run.connected = false) :
    run'.terminal = run.terminal ∧ run'.registered = false ∧ run'.connected = false ∧
      tally (uses r) new = 0 := by
  cases h <;> simp_all [uses]

end

end RunMove

namespace Accounted

section

variable (h : Accounted frames publications r run)

include h

theorem of_opens (hopens : 0 < tally (opens r) frames) :
    run.setupComplete = false ∧ run.abandoned = false := by
  have hopened := h.opened
  exact ⟨Bool.toNat_eq_zero.mp (by omega), Bool.toNat_eq_zero.mp (by omega)⟩

theorem not_abandoned_of_uses
    (huses : 0 < tally (uses r) frames ∨ 0 < tally (unsettled r) publications) :
    run.abandoned = false := by
  cases habandoned : run.abandoned with
  | false => rfl
  | true =>
    obtain ⟨-, -, -, hframes, hpublications⟩ := h.failed habandoned
    omega

theorem run_move (hmove : RunMove r run run' old new b) (hx : Exchange frames frames' old new)
    (hunused : .unwinding r ∈ old → run.terminal = false ∧ tally (uses r) frames = 0 ∧
      tally (unsettled r) publications = 0) : Accounted frames' publications r run' := by
  have hopens : 0 < tally (opens r) old → run.setupComplete = false ∧ run.abandoned = false :=
    fun hold => h.of_opens (hold.trans_le (hx.old_le _))
  constructor
  · have hreturned := h.returned
    have hmoved := hmove.returned hopens
    have hadd := hx.tally_add (owes r)
    omega
  · have hopened := h.opened
    have hmoved := hmove.opened hopens
    have hadd := hx.tally_add (opens r)
    omega
  · intro hconnected
    obtain ⟨hconnected, hle⟩ := hmove.disconnected hconnected
    have hzero := h.disconnected hconnected
    have hadd := hx.tally_add (unwinds r)
    omega
  · intro hterminal
    have hbefore : run.terminal = false := by
      cases hrt : run.terminal with
      | false => rfl
      | true => exact absurd (hmove.terminal hrt).1 (by simp [hterminal])
    obtain ⟨hattached, hfinishes⟩ := h.attached hbefore
    have hle := hx.old_le (finishes r)
    obtain ⟨hattached, hnew⟩ := hmove.attached hterminal hattached (by omega)
    have hadd := hx.tally_add (finishes r)
    exact ⟨hattached, by omega⟩
  intro habandoned
  have hadd := hx.tally_add (uses r)
  rcases hmove.abandoned habandoned with hbefore | ⟨rfl, rfl, rfl⟩
  · obtain ⟨hterminal, hregistered, hconnected, huses, hunsettled⟩ := h.failed hbefore
    have hopened := h.opened
    rw [hbefore, Bool.toNat_true] at hopened
    have hsetup : run.setupComplete = false := Bool.toNat_eq_zero.mp (by omega)
    have hle := hx.old_le (opens r)
    have hle' := hx.old_le (uses r)
    obtain ⟨hterminal', hregistered', hconnected', hnew⟩ :=
      hmove.idle (by omega) (by omega) hsetup hregistered hconnected
    exact ⟨hterminal'.trans hterminal, hregistered', hconnected', by omega, hunsettled⟩
  obtain ⟨hterminal, huses, hunsettled⟩ := hunused mem_cons_self
  have hconnected : run.connected = false := by
    cases hconnected : run.connected with
    | false => rfl
    | true =>
      have hzero := h.disconnected hconnected
      have hle := hx.old_le (unwinds r)
      simp at hle
      omega
  have hattached := (h.attached hterminal).1
  simp only [tally_cons, tally_nil, uses] at hadd
  refine ⟨?_, ?_, ?_, by omega, hunsettled⟩ <;> simp [hterminal, hconnected, hattached]

theorem of_tally_eq (hframes : SameTallies (weights r) frames frames')
    (hunsettled : run.abandoned = true → tally (unsettled r) publications' ≤
      tally (unsettled r) publications) : Accounted frames' publications' r run := by
  simp only [SameTallies, weights, forall_mem_cons] at hframes
  obtain ⟨howes, hopens, hunwinds, hfinishes, huses, -⟩ := hframes
  refine ⟨howes ▸ h.returned, hopens ▸ h.opened, hunwinds ▸ h.disconnected,
    hfinishes ▸ h.attached, fun habandoned => ?_⟩
  obtain ⟨hterminal, hregistered, hconnected, hunused, hzero⟩ := h.failed habandoned
  have hle := hunsettled habandoned
  exact ⟨hterminal, hregistered, hconnected, huses ▸ hunused, by omega⟩

end

end Accounted

theorem tally_eq_of_other {r : ℕ}
    (hx : Exchange frames frames' old new) (hf : ∀ f ∈ old ++ new, f.run? ≠ some r) :
    SameTallies (weights r) frames frames' :=
  .of_zero hx fun f h => zero_of_other (hf f h)

theorem TrackerMove.tally_eq {t : Tracker × Bool} (h : TrackerMove k p t old new)
    (hx : Exchange frames frames' old (new ++ if t.2 then [.finalizing k] else [])) (r : ℕ) :
    SameTallies (weights r) frames frames' := by
  intro w hw
  simp only [weights, mem_cons, not_mem_nil, or_false] at hw
  refine tally_eq_of_due hx ?_ ?_
  · rcases hw with rfl | rfl | rfl | rfl | rfl <;> rfl
  · rcases hw with rfl | rfl | rfl | rfl | rfl <;> cases h <;> rfl

theorem CreateMove.tally_eq {owner : Option ℕ}
    (h : CreateMove k owner old new) (hx : Exchange frames frames' old new) (r : ℕ) :
    SameTallies (weights r) frames frames' := by
  intro w hw
  have hadd := hx.tally_add w
  have hsame : tally w new = tally w old := by
    simp only [weights, mem_cons, not_mem_nil, or_false] at hw
    rcases hw with rfl | rfl | rfl | rfl | rfl <;> cases h <;> rfl
  omega

structure Ledger (s : Flow) : Prop where
  consistent : Consistent s
  counted : Counted s
  accounted : ∀ r run, s.runs[r]? = some run → Accounted s.frames s.publications r run

theorem TrackerMove.held {t : Tracker × Bool} (h : TrackerMove k p t old new) :
    tally inRegion new = tally inRegion old ∧ tally owing new = 0 ∧ tally owing old = 0 := by
  cases h <;> exact ⟨rfl, rfl, rfl⟩

theorem CreateMove.held {owner : Option ℕ} (h : CreateMove k owner old new) :
    tally inRegion new = tally inRegion old ∧ tally owing new = 0 ∧ tally owing old = 0 := by
  cases h <;> exact ⟨rfl, rfl, rfl⟩

theorem FinishMove.held {k r : ℕ} {run : Run} {status : Status} {f : Frame}
    (h : FinishMove k r run status f) : f.inRegion = 0 ∧ f.owing = 0 := by
  cases h <;> exact ⟨rfl, rfl⟩

namespace AsyncPublication

theorem tally_unfinished_set (hp : publications[k]? = some p) (hphase : p.phase ≠ .gone)
    (hphase' : p'.phase ≠ .gone) :
    tally unfinished (publications.set k p') = tally unfinished publications := by
  have hset := tally_set (w := unfinished) hp p'
  simp only [unfinished, if_neg hphase, if_neg hphase'] at hset
  omega

end AsyncPublication

namespace Ledger

theorem start (queueCapacity : ℕ) (hasAsyncStage : Bool) :
    Ledger (Flow.start queueCapacity hasAsyncStage) where
  consistent := Consistent.start queueCapacity hasAsyncStage
  counted := rfl
  accounted r run hrun := by simp [Flow.start] at hrun

theorem unused_of_unwinding (hundisturbed : s.Undisturbed op) {old : List Frame}
    (hadvances : op.Advances s old) {r : ℕ} (hold : .unwinding r ∈ old) : s.Unused r := by
  obtain ⟨j, ok, rc, rfl, hj⟩ := hadvances _ hold
  simpa only [Flow.Undisturbed, hj] using hundisturbed

section

variable (h : Ledger s)
include h

theorem registered {d m b : Bool} {frames : List Frame}
    (hx : Exchange s.frames frames [.opening d m b] [.subscribing s.runs.length]) :
    Accounted frames s.publications s.runs.length (Run.create d m) := by
  have hzero : ∀ f ∈ s.frames, f.run? ≠ some s.runs.length := by
    intro f hf hr
    exact Nat.lt_irrefl _ (h.consistent.runs f hf _ hr)
  have hnone : ∀ w ∈ weights s.runs.length, tally w s.frames = 0 := by
    intro w hw
    exact tally_eq_zero_iff.mpr fun f hf => zero_of_other (hzero f hf) w hw
  have howes := hx.tally_add (owes s.runs.length)
  have hopens := hx.tally_add (opens s.runs.length)
  have hunwinds := hx.tally_add (unwinds s.runs.length)
  have hfinishes := hx.tally_add (finishes s.runs.length)
  rw [hnone _ (by simp [weights])] at howes hopens hunwinds hfinishes
  simp [owes, run?, finishes] at howes hopens hunwinds hfinishes
  constructor
  · simp [howes]
  · simp [hopens]
  · simp [hunwinds]
  · simp [hfinishes]
  · simp

theorem value_finished {k r : ℕ} {run : Run} {new : Frame}
    {frames : List Frame} (hpub : s.publications[k]? = some p) (howner : p.run = some r)
    (hrun : s.runs[r]? = some run) (hmove : FinishMove k r run p.tracker.status new)
    (hx : Exchange s.frames frames [.finalizing k] [new]) :
    Accounted frames (s.publications.set k { p with phase := .settled }) r
      (run.valueFinish p.tracker.status) := by
  have haccounted := h.accounted r run hrun
  have hphase := (h.consistent.tracked k p hpub).phase_of_finalizing
    (hx.mem_old mem_cons_self)
  have hunsettled : 0 < tally (unsettled r) s.publications := by
    have hle := le_tally (w := unsettled r) hpub
    simp [unsettled, howner, hphase] at hle
    exact hle
  have habandoned := haccounted.not_abandoned_of_uses (.inr hunsettled)
  have howes := hx.tally_add (owes r)
  have hopens := hx.tally_add (opens r)
  have hunwinds := hx.tally_add (unwinds r)
  have hfinishes := hx.tally_add (finishes r)
  have hnew : tally (owes r) [new] = 0 ∧ tally (opens r) [new] = 0 ∧ tally (unwinds r) [new] = 0 ∧
      tally (finishes r) [new] = 0 := by
    cases hmove <;> simp [owes, run?, finishes]
  rw [hnew.1] at howes
  rw [hnew.2.1] at hopens
  rw [hnew.2.2.1] at hunwinds
  rw [hnew.2.2.2] at hfinishes
  simp [owes, run?, finishes] at howes hopens hunwinds hfinishes
  rw [Run.valueFinish_eq]
  constructor
  · simpa [howes] using haccounted.returned
  · simpa [hopens] using haccounted.opened
  · simpa [hunwinds] using haccounted.disconnected
  · simpa [hfinishes] using haccounted.attached
  · simp [habandoned]

theorem accounted_step (heffect : Effect s op s') (hundisturbed : s.Undisturbed op) :
    ∀ r run, s'.runs[r]? = some run → Accounted s'.frames s'.publications r run := by
  refine heffect.runs_rule h.consistent h.accounted ?_ h.registered ?_ ?_ ?_ ?_ ?_
  · intro r run old new haccounted hframes hf
    exact haccounted.of_tally_eq (tally_eq_of_other hframes hf) fun _ => le_rfl
  · intro r run run' old new b hrun hmove hadvances hframes
    refine (h.accounted r run hrun).run_move hmove hframes fun hold => ?_
    obtain ⟨hterminal, huses, hunsettled⟩ := unused_of_unwinding hundisturbed hadvances hold
    exact ⟨hterminal _ hrun, huses, hunsettled⟩
  · intro r run owner old new hrun hmove hframes
    refine (h.accounted r run hrun).of_tally_eq (hmove.tally_eq hframes r) fun habandoned => ?_
    obtain ⟨-, -, -, huses, -⟩ := (h.accounted r run hrun).failed habandoned
    have hle := hframes.old_le (uses r)
    rw [tally_append, tally_cons, tally_nil]
    cases hmove with
    | direct => simp [unsettled]
    | value =>
      simp only [tally_cons, tally_nil, uses] at hle
      split at hle
      · omega
      rename_i hne
      simp [unsettled, hne]
  · intro r k run p t old new hrun hpub hmove hframes
    have hopen := (h.consistent.tracked _ _ hpub).tracker_open (fun _ => hframes.mem_old) hmove
    refine (h.accounted r run hrun).of_tally_eq (hmove.tally_eq hframes r) fun _ => ?_
    exact (tally_unsettled_settle hpub hopen _ r).le
  · intro r k run p p' old new hrun hpub hbefore hafter hframes hf
    exact (h.accounted r run hrun).of_tally_eq (tally_eq_of_other hframes hf) fun _ =>
      (tally_unsettled_set hpub hbefore hafter).le
  intro r k run p new hrun hpub howner hmove hframes
  exact h.value_finished hpub howner hrun hmove hframes

theorem counted_step (heffect : Effect s op s') (hundisturbed : s.Undisturbed op) : Counted s' := by
  have hcounted := h.counted
  unfold Counted at hcounted ⊢
  cases heffect with
  | @flow old new b hmove hframes hruns hpubs hcount =>
    rw [hcount, hruns, hpubs]
    have hregions := hframes.tally_add inRegion
    have howing := hframes.tally_add owing
    have hold := hframes.old_le inRegion
    have hold' := hframes.old_le owing
    obtain ⟨rest, hrest⟩ := Nat.le.dest (Nat.add_le_add hold hold')
    rw [hmove.balances.apply (rest + tally Run.live s.runs +
      tally unfinished s.publications) (by omega)]
    omega
  | register hframes hruns hpubs hcount =>
    have hregions := hframes.tally_add inRegion
    have howing := hframes.tally_add owing
    simp [inRegion] at hregions howing
    rw [hcount, hruns, hpubs, tally_append, tally_cons, tally_nil]
    have hlive : ∀ d m, (Run.create d m).live = 1 := fun _ _ => rfl
    rw [hlive]
    omega
  | @run r run run' old new b hrun hmove hadvances hframes hruns hpubs hcount =>
    have haccounted := h.accounted r run hrun
    have hbalances := hmove.balances
      (fun hunwinding => by
        obtain ⟨hterminal, -, -⟩ := unused_of_unwinding hundisturbed hadvances hunwinding
        have hopens : 0 < tally (opens r) s.frames := by
          have hle := le_tally_of_mem (w := opens r) (hframes.mem_old hunwinding)
          simp at hle
          exact hle
        simp [Run.live, hterminal run hrun, (haccounted.of_opens hopens).2])
      (fun huses => haccounted.not_abandoned_of_uses
        (.inl (huses.trans_le (hframes.old_le _))))
    have hregions := hframes.tally_add inRegion
    have howing := hframes.tally_add owing
    have hold := hframes.old_le inRegion
    have hold' := hframes.old_le owing
    have hlive := tally_set (w := Run.live) hrun run'
    have hle := le_tally (w := Run.live) hrun
    obtain ⟨rest, hrest⟩ := Nat.le.dest (Nat.add_le_add (Nat.add_le_add hold hold') hle)
    rw [hcount, hruns, hpubs, hbalances.apply (rest +
      tally unfinished s.publications) (by omega)]
    omega
  | create hmove _ hframes hruns hpubs hcount =>
    have hregions := hframes.tally_add inRegion
    have howing := hframes.tally_add owing
    obtain ⟨hheld, hnew, hold⟩ := hmove.held
    rw [hcount, hruns, hpubs, tally_append, tally_cons, tally_nil]
    simp only [unfinished, reduceCtorEq, if_false]
    omega
  | @tracker k p t old new hpub hmove hframes hruns hpubs hcount =>
    have hopen := (h.consistent.tracked k p hpub).tracker_open (fun _ => hframes.mem_old) hmove
    have hregions := hframes.tally_add inRegion
    have howing := hframes.tally_add owing
    obtain ⟨hheld, hnew, hold⟩ := hmove.held
    have hdue : ∀ w ∈ [inRegion, owing], tally w (if t.2 then [.finalizing k] else []) = 0 := by
      intro w hw
      simp only [mem_cons, not_mem_nil, or_false] at hw
      cases t.2 <;> rcases hw with rfl | rfl <;> rfl
    rw [tally_append, hdue _ (by simp)] at hregions howing
    rw [hcount, hruns, hpubs, tally_unfinished_set hpub (by simp [hopen])
      (by cases ht : t.2 <;> simp [settle, hopen, ht])]
    omega
  | finalizeDirect hpub _ hframes hruns hpubs hcount =>
    have hphase := (h.consistent.tracked _ _ hpub).phase_of_finalizing
      (hframes.mem_old mem_cons_self)
    have hregions := hframes.tally_add inRegion
    have howing := hframes.tally_add owing
    simp [inRegion] at hregions howing
    rw [hcount, hruns, hpubs, tally_unfinished_set hpub (by simp [hphase])
      (by simp)]
    omega
  | @finalizeValue k r p run new hpub _ hrun hmove hframes hruns hpubs hcount =>
    have hphase := (h.consistent.tracked _ _ hpub).phase_of_finalizing
      (hframes.mem_old mem_cons_self)
    have hregions := hframes.tally_add inRegion
    have howing := hframes.tally_add owing
    simp only [tally_cons, tally_nil, hmove.held] at hregions howing
    simp only [inRegion, owing] at hregions howing
    have hlive := tally_set (w := Run.live) hrun (run.valueFinish p.tracker.status)
    rw [Run.live_valueFinish] at hlive
    rw [hcount, hruns, hpubs, tally_unfinished_set hpub (by simp [hphase])
      (by simp)]
    omega
  | @unpublish k p hpub hframes hruns hpubs hcount =>
    have hphase := (h.consistent.tracked _ _ hpub).phase_of_unpublishing
      (hframes.mem_old mem_cons_self)
    have hregions := hframes.tally_add inRegion
    have howing := hframes.tally_add owing
    simp [inRegion] at hregions howing
    have hset := tally_set (w := unfinished) hpub { p with phase := .gone }
    have hbefore : p.unfinished = 1 := by simp [unfinished, hphase]
    have hafter : unfinished { p with phase := .gone } = 0 := rfl
    rw [hcount, hruns, hpubs]
    omega

theorem step (heffect : Effect s op s') (hundisturbed : s.Undisturbed op) : Ledger s' where
  consistent := h.consistent.step heffect
  counted := h.counted_step heffect hundisturbed
  accounted := h.accounted_step heffect hundisturbed

theorem count_pos (hf : f ∈ s.frames) (hheld : 0 < f.inRegion + f.owing) :
    0 < s.activePublishes := by
  have hcounted := h.counted
  have hregion := le_tally_of_mem (w := inRegion) hf
  have howing := le_tally_of_mem (w := owing) hf
  unfold Counted at hcounted
  omega

theorem count_pos_of_unpublishing (hf : .unpublishing k ∈ s.frames) : 0 < s.activePublishes := by
  have hk := h.consistent.publications _ hf k rfl
  obtain ⟨p, hp⟩ : ∃ p, s.publications[k]? = some p := ⟨_, getElem?_eq_getElem hk⟩
  have hphase := (h.consistent.tracked k p hp).phase_of_unpublishing hf
  have hunfinished : p.unfinished = 1 := by simp [unfinished, hphase]
  have hle := le_tally (w := unfinished) hp
  have hcounted := h.counted
  unfold Counted at hcounted
  omega

end

end Ledger

namespace Flow

def Returns (s : Flow) : Operation → Bool
  | .leave j => s.frames[j]? = some .region
  | .step j _ _ =>
    match s.frames[j]? with
    | some .failing | some (.leaving _) | some (.finish _ _ _ _ .release _)
    | some (.unpublishing _) => true
    | some (.value _ .leaving entered _ _) => entered
    | _ => false
  | _ => false

theorem count_pos_of_returns {op : Operation} (hreturns : s.Returns op = true) (h : Ledger s) :
    0 < s.activePublishes := by
  cases op with
  | leave j =>
    have hj : s.frames[j]? = some .region := by simpa [Returns] using hreturns
    exact h.count_pos (mem_of_getElem? hj) (by simp [inRegion])
  | step j ok rc =>
    simp only [Returns] at hreturns
    split at hreturns
    case h_4 hj => exact h.count_pos_of_unpublishing (mem_of_getElem? hj)
    case h_6 => cases hreturns
    all_goals
      rename_i hj
      exact h.count_pos (mem_of_getElem? hj) (by simp [inRegion, hreturns])
  | _ => cases hreturns

end Flow

/-- The run has ended as the earlier state of it has. -/
def Flow.Ends (s : Flow) (r : ℕ) (run : Run) : Prop :=
  ∃ run', s.runs[r]? = some run' ∧ run'.terminal = true ∧ run'.state = run.state ∧
    run'.status = run.status

theorem Effect.terminal {s s' : Flow} {op : Operation} (h : Effect s op s') {r : ℕ} {run : Run}
    (hrun : s.runs[r]? = some run) (hterminal : run.terminal = true) : s'.Ends r run := by
  have hlt := (List.getElem?_eq_some_iff.mp hrun).1
  have hkept : s'.runs = s.runs → s'.Ends r run :=
    fun hruns => ⟨run, hruns ▸ hrun, hterminal, rfl, rfl⟩
  have hset : ∀ {r₀ : ℕ} {run₀ run₀' : Run}, s.runs[r₀]? = some run₀ →
      s'.runs = s.runs.set r₀ run₀' →
      (run₀.terminal = true → run₀'.terminal = true ∧ run₀'.state = run₀.state ∧
        run₀'.status = run₀.status) → s'.Ends r run := by
    intro r₀ run₀ run₀' hrun₀ hruns hmove
    rw [Flow.Ends, hruns, getElem?_set]
    split
    · rename_i heq
      subst heq
      obtain rfl := Option.some.inj (hrun₀.symm.trans hrun)
      exact ⟨run₀', by rw [if_pos hlt], hmove hterminal⟩
    · exact ⟨run, hrun, hterminal, rfl, rfl⟩
  cases h with
  | flow _ _ hruns _ _ | create _ _ _ hruns _ _ | tracker _ _ _ hruns _ _
  | finalizeDirect _ _ _ hruns _ _ | unpublish _ _ hruns _ _ => exact hkept hruns
  | register _ hruns _ _ =>
    refine ⟨run, ?_, hterminal, rfl, rfl⟩
    rw [hruns, getElem?_append_left hlt, hrun]
  | run hrun₀ hmove _ _ hruns _ _ => exact hset hrun₀ hruns hmove.terminal
  | finalizeValue _ _ hrun₀ _ _ hruns _ _ =>
    refine hset hrun₀ hruns fun h => ?_
    rw [Run.valueFinish_eq]
    exact ⟨h, rfl, rfl⟩

namespace Flow

variable {queueCapacity : ℕ} {hasAsyncStage : Bool} {tr tr' : List (Operation × Answer)}

theorem terminal_of_run (h : Transition.Run (Acts act) s tr s') {r : ℕ} {run : Run}
    (hrun : s.runs[r]? = some run) (hterminal : run.terminal = true) : s'.Ends r run := by
  refine h.invariant (P := fun t => t.Ends r run) ⟨run, hrun, hterminal, rfl, rfl⟩ ?_
  rintro t e t' ⟨run', hrun', hterminal', hstate, hstatus⟩ hact
  obtain ⟨run'', hrun'', hterminal'', hstate', hstatus'⟩ :=
    (act_effect hact).terminal hrun' hterminal'
  exact ⟨run'', hrun'', hterminal'', hstate'.trans hstate, hstatus'.trans hstatus⟩

theorem ledger_of_run (h : Transition.Run (Meeting (Acts act) fun s e => s.Undisturbed e.1)
      (start queueCapacity hasAsyncStage) tr s) : Ledger s := by
  refine h.invariant (Ledger.start queueCapacity hasAsyncStage) ?_
  rintro t e t' hledger ⟨hact, hundisturbed⟩
  exact hledger.step (act_effect hact) hundisturbed

theorem count_eq_zero (h : Ledger s) (hframes : ∀ f ∈ s.frames, f = .returned)
    (hruns : ∀ run ∈ s.runs, run.terminal = true ∨ run.abandoned = true)
    (hpubs : ∀ p ∈ s.publications, p.phase ≠ .open) : s.activePublishes = 0 := by
  have hzero : ∀ w : Frame → ℕ, w .returned = 0 → tally w s.frames = 0 := by
    intro w hw
    refine tally_eq_zero_iff.mpr fun f hf => ?_
    rw [hframes f hf, hw]
  have hlive : tally Run.live s.runs = 0 := by
    refine tally_eq_zero_iff.mpr fun run hrun => ?_
    rcases hruns run hrun with h | h <;> simp [Run.live, h]
  have hunfinished : tally unfinished s.publications = 0 := by
    refine tally_eq_zero_iff.mpr fun p hp => ?_
    obtain ⟨k, hk⟩ := mem_iff_getElem?.mp hp
    have htracked := h.consistent.tracked k p hk
    have hfinalizer := htracked.finalizer
    have hfollower := htracked.follower
    rw [hzero _ rfl] at hfinalizer hfollower
    cases hphase : p.phase with
    | «open» => exact absurd hphase (hpubs p hp)
    | finalizing => simp [hphase] at hfinalizer
    | settled => simp [hphase] at hfollower
    | gone => simp [unfinished, hphase]
  have hcounted := h.counted
  unfold Counted at hcounted
  have hregion := hzero inRegion rfl
  have howing := hzero owing rfl
  omega

/-- In every run whose failing opens are undisturbed the count is the number of regions entered and
not left, lifetimes a call has still to return, open runs and publications whose callback has not
returned. No return of a count is hidden by a guard. A terminal run keeps its state and status; its
lifetime is returned once, as is that of a run whose open failed. The count is zero when everything
has ended. -/
theorem publish_count
    (h : Transition.Run (Meeting (Acts act) fun s e => s.Undisturbed e.1)
      (start queueCapacity hasAsyncStage) tr s) :
    s.activePublishes =
        tally inRegion s.frames + tally owing s.frames + tally Run.live s.runs +
          tally unfinished s.publications ∧
      (∀ op, s.Returns op = true → 0 < s.activePublishes) ∧
      (∀ r run, s.runs[r]? = some run →
        run.releases + tally (owes r) s.frames = (run.terminal || run.abandoned).toNat ∧
          (run.setupComplete = true → run.abandoned = false) ∧
          (run.terminal = true → ∀ tr' s', Transition.Run (Acts act) s tr' s' →
            ∃ run', s'.runs[r]? = some run' ∧ run'.terminal = true ∧ run'.state = run.state ∧
              run'.status = run.status)) ∧
      ((∀ f ∈ s.frames, f = .returned) →
        (∀ run ∈ s.runs, run.terminal = true ∨ run.abandoned = true) →
        (∀ p ∈ s.publications, p.phase ≠ .open) → s.activePublishes = 0) := by
  have hledger := ledger_of_run h
  refine ⟨hledger.counted, fun op hop => count_pos_of_returns hop hledger, ?_,
    count_eq_zero hledger⟩
  intro r run hrun
  have haccounted := hledger.accounted r run hrun
  refine ⟨?_, ?_, fun hterminal tr' s' h' => terminal_of_run h' hrun hterminal⟩
  · have hreturned := haccounted.returned
    cases habandoned : run.abandoned with
    | false => simpa [habandoned] using hreturned
    | true => simpa [habandoned, (haccounted.failed habandoned).1] using hreturned
  intro hsetup
  have hopened := haccounted.opened
  rw [hsetup, Bool.toNat_true] at hopened
  exact Bool.toNat_eq_zero.mp (by omega)

def started : List Operation :=
  [.control .started .opened true]

def canceledRun : List Operation :=
  [.open false false false, .step 0 true .ok, .step 0 true .ok, .cancel 0, .step 1 true .ok,
    .step 1 true .ok]

/-- A publisher is inside a region when an open registers its run. A stop cancels the run, and then
the subscription fails. -/
def disturbedOpen : List Operation :=
  [.enter, .open false false false, .step 1 true .ok, .sweep 0, .step 2 true .ok, .step 2 true .ok,
    .step 2 true .ok, .step 2 true .ok, .step 2 true .ok, .step 1 false .ok, .step 1 true .ok,
    .step 1 true .ok]

/-- A terminal run is not counted as open, but its lifetime is until it is returned. The failed open
of a run that another call has finished returns it a second time: the count is zero while a
publisher is inside. -/
theorem publish_count_off :
    (∃ s outs, exec act (start 4 false) (started ++ canceledRun) = some (s, outs) ∧
      s.activePublishes = 1 ∧
      tally inRegion s.frames + tally Run.live s.runs +
        tally unfinished s.publications = 0) ∧
    ∃ s outs, exec act (start 4 false) (started ++ disturbedOpen) = some (s, outs) ∧
      s.activePublishes = 0 ∧ Frame.region ∈ s.frames ∧
      ∃ run, s.runs[0]? = some run ∧ run.releases = 2 :=
  ⟨⟨_, _, rfl, rfl, by decide⟩, _, _, rfl, rfl, by decide, _, rfl, rfl⟩

/-- The canceled run ends, and the count with it. -/
theorem publish_count_canceled :
    ∃ s outs, execMeeting act Undisturbed (start 4 false)
        (started ++ canceledRun ++ [.step 1 true .ok, .step 1 true .ok, .step 1 true .ok]) =
          some (s, outs) ∧
      s.activePublishes = 0 := by
  exact ⟨_, _, and_of_imp rfl fun hexec =>
    (publish_count (run_of_execMeeting hexec)).2.2.2 (by decide) (by decide) (by decide)⟩

end Flow

end TurboFlow.Reactive
