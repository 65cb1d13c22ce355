import TurboFlow.Reactive.Effect

/-!
# Calls and publications fit together

In every interleaving, calls refer to runs and publications that exist, a publication has one owner
until it is left, and one call finalises it once its callback is due.
-/

namespace TurboFlow.Reactive

open Transition Table TurboFlow.Publication List AsyncPublication Option

variable {f : Frame} {k : ℕ} {p : AsyncPublication} {t : Tracker × Bool}
  {old new frames frames' : List Frame}

namespace Frame

def run? : Frame → Option ℕ
  | .subscribing r | .unwinding r | .leaving r | .canceling r _ | .closing r | .sweeping r
  | .requesting r _ | .finish r _ _ _ _ _ | .value r _ _ _ _ => some r
  | _ => none

def publication? : Frame → Option ℕ
  | .finish _ _ _ _ _ o | .value _ _ _ o _ => o
  | .publishing k | .unowning k | .finalizing k | .unpublishing k => some k
  | _ => none

@[simp] def owns (k : ℕ) : Frame → ℕ
  | .value _ .running _ o _ | .value _ .recording _ o _ | .value _ .ownerLeaving _ o _ =>
    if o = some k then 1 else 0
  | .publishing k' | .unowning k' => if k' = k then 1 else 0
  | _ => 0

@[simp] def finalizes (k : ℕ) : Frame → ℕ
  | .finalizing k' => if k' = k then 1 else 0
  | _ => 0

@[simp] def follows (k : ℕ) : Frame → ℕ
  | .finish _ _ _ _ _ o => if o = some k then 1 else 0
  | .unpublishing k' => if k' = k then 1 else 0
  | _ => 0

theorem zero_of_unknown (h : f.publication? ≠ some k) :
    f.owns k = 0 ∧ f.finalizes k = 0 ∧ f.follows k = 0 := by
  cases f with
  | value r stage region o rc =>
    cases stage <;> simp_all [publication?]
  | _ => simp_all [publication?]

@[simp]
theorem owns_after (k : ℕ) (o : Option ℕ) : (Flow.after o).owns k = 0 := by
  cases o <;> rfl

@[simp]
theorem finalizes_after (k : ℕ) (o : Option ℕ) : (Flow.after o).finalizes k = 0 := by
  cases o <;> rfl

@[simp]
theorem follows_after (k : ℕ) (o : Option ℕ) :
    (Flow.after o).follows k = if o = some k then 1 else 0 := by
  cases o <;> simp [Flow.after]

@[simp]
theorem run?_after (o : Option ℕ) : (Flow.after o).run? = none := by
  cases o <;> rfl

@[simp]
theorem publication?_after (o : Option ℕ) : (Flow.after o).publication? = o := by
  cases o <;> rfl

end Frame

open TurboFlow.Reactive.Frame

/-- The frames weigh the same before and after. -/
def SameTallies (weights : List (Frame → ℕ)) (frames frames' : List Frame) : Prop :=
  ∀ w ∈ weights, tally w frames' = tally w frames

theorem SameTallies.of_zero (hx : Exchange frames frames' old new)
    (h : ∀ f ∈ old ++ new, ∀ w ∈ weights, w f = 0) : SameTallies weights frames frames' :=
  fun w hw => hx.tally_eq fun f hf => h f hf w hw

theorem tally_eq_of_due {w : Frame → ℕ} {frames frames' old new : List Frame} {f : Frame}
    {due : Bool}
    (hx : Exchange frames frames' old (new ++ if due then [f] else [])) (hf : w f = 0)
    (hsame : tally w new = tally w old) : tally w frames' = tally w frames := by
  have hadd := hx.tally_add w
  rw [tally_append, hsame] at hadd
  cases due <;> simp [hf] at hadd <;> omega

def AsyncPublication.unsettled (r : ℕ) (p : AsyncPublication) : ℕ :=
  if p.run = some r ∧ (p.phase = .open ∨ p.phase = .finalizing) then 1 else 0

variable {owner : Option ℕ} {publications : List AsyncPublication}

theorem AsyncPublication.tally_unsettled_set (hp : publications[k]? = some p)
    (hbefore : p.unsettled r = 0) (hafter : p'.unsettled r = 0) :
    tally (unsettled r) (publications.set k p') = tally (unsettled r) publications := by
  have hset := tally_set (w := unsettled r) hp p'
  omega

theorem AsyncPublication.tally_unsettled_settle (hp : publications[k]? = some p)
    (hopen : p.phase = .open) (t : Tracker × Bool) (r : ℕ) :
    tally (unsettled r) (publications.set k (p.settle t)) = tally (unsettled r) publications := by
  have hset := tally_set (w := unsettled r) hp (p.settle t)
  have heq : (p.settle t).unsettled r = p.unsettled r := by
    cases ht : t.2 <;> simp [unsettled, settle, hopen, ht]
  omega

/-- The calls that work on the publication `k` are those its fields ask for. -/
structure Tracked (frames : List Frame) (k : ℕ) (p : AsyncPublication) : Prop where
  owner : tally (owns k) frames = p.tracker.ownerActive.toNat
  finalizer : tally (finalizes k) frames = if p.phase = .finalizing then 1 else 0
  follower : tally (follows k) frames = if p.phase = .settled then 1 else 0
  left : p.phase ≠ .open → p.tracker.ownerActive = false

structure Consistent (s : Flow) : Prop where
  runs : ∀ f ∈ s.frames, ∀ r ∈ f.run?, r < s.runs.length
  publications : ∀ f ∈ s.frames, ∀ k ∈ f.publication?, k < s.publications.length
  owners : ∀ p ∈ s.publications, ∀ r ∈ p.run, r < s.runs.length
  tracked : ∀ k p, s.publications[k]? = some p → Tracked s.frames k p

section Moves

variable {r : ℕ} {run run' : Run} {b : Bump}

section

variable (h : RunMove r run run' old new b)

include h

theorem RunMove.run?_eq (hf : f ∈ old ++ new) : ∀ r' ∈ f.run?, r' = r := by
  cases h <;> simp at hf <;> rcases hf with rfl | rfl <;> (try split) <;>
    (try rw [run?_after]) <;> simp [run?]

theorem RunMove.publication?_mem (hf : f ∈ new) (hk : k ∈ f.publication?) :
    ∃ g ∈ old, k ∈ g.publication? := by
  cases h <;> simp only [not_mem_nil, mem_singleton] at hf <;> subst hf <;>
    (try split at hk) <;> (try rw [publication?_after] at hk) <;> simp_all [publication?]

theorem RunMove.tally_owns (k : ℕ) : tally (owns k) new = tally (owns k) old := by
  cases h <;> simp only [tally_cons, tally_nil] <;> (try split) <;> (try rw [owns_after]) <;> simp

theorem RunMove.tally_finalizes (k : ℕ) : tally (finalizes k) new = tally (finalizes k) old := by
  cases h <;> simp only [tally_cons, tally_nil] <;> (try split) <;> (try rw [finalizes_after]) <;>
    simp

theorem RunMove.tally_follows (k : ℕ) : tally (follows k) new = tally (follows k) old := by
  cases h <;> simp only [tally_cons, tally_nil] <;> (try split) <;> (try rw [follows_after]) <;>
    simp

end

theorem FlowMove.run?_eq (h : FlowMove old new b) (hf : f ∈ old ++ new) : f.run? = none := by
  cases h <;> simp at hf <;> rcases hf with rfl | rfl <;> rfl

theorem FlowMove.publication?_eq (h : FlowMove old new b) (hf : f ∈ old ++ new) :
    f.publication? = none := by
  cases h <;> simp at hf <;> rcases hf with rfl | rfl <;> rfl

section

variable (h : CreateMove k owner old new)
include h

theorem CreateMove.run?_eq (hf : f ∈ new) : f.run? = owner := by
  cases h <;> simp at hf <;> subst hf <;> rfl

theorem CreateMove.publication?_eq (hf : f ∈ new) : f.publication? = some k := by
  cases h <;> simp at hf <;> subst hf <;> rfl

theorem CreateMove.old_zero (hf : f ∈ old) (k' : ℕ) :
    f.owns k' = 0 ∧ f.finalizes k' = 0 ∧ f.follows k' = 0 := by
  cases h <;> simp at hf <;> subst hf <;> exact ⟨rfl, rfl, rfl⟩

end

theorem TrackerMove.run?_mem (h : TrackerMove k p t old new) (hf : f ∈ new) (hr : r ∈ f.run?) :
    ∃ g ∈ old, r ∈ g.run? := by
  cases h <;> simp at hf <;> subst hf <;> simp_all [run?]

theorem TrackerMove.publication?_eq (h : TrackerMove k p t old new) (hf : f ∈ old ++ new) :
    ∀ k' ∈ f.publication?, k' = k := by
  cases h <;> simp at hf <;> rcases hf with rfl | rfl <;> simp [publication?]

variable {status : Status}

section

variable (h : FinishMove k r run status f)

include h

theorem FinishMove.run?_eq : ∀ r' ∈ f.run?, r' = r := by
  cases h <;> simp [run?]

theorem FinishMove.publication?_eq : f.publication? = some k := by
  cases h <;> rfl

theorem FinishMove.owns_eq (k' : ℕ) : f.owns k' = 0 := by
  cases h <;> rfl

theorem FinishMove.finalizes_eq (k' : ℕ) : f.finalizes k' = 0 := by
  cases h <;> rfl

theorem FinishMove.follows_eq : f.follows k = 1 := by
  cases h <;> simp

end

end Moves

namespace Tracked

section

variable (h : Tracked frames k p)

include h

section

variable (hx : Exchange frames frames' old new)
include hx

theorem of_zero (hf : ∀ f ∈ old ++ new, f.owns k = 0 ∧ f.finalizes k = 0 ∧ f.follows k = 0) :
    Tracked frames' k p where
  owner := (hx.tally_eq fun f h => (hf f h).1).trans h.owner
  finalizer := (hx.tally_eq fun f h => (hf f h).2.1).trans h.finalizer
  follower := (hx.tally_eq fun f h => (hf f h).2.2).trans h.follower
  left := h.left

theorem of_unknown (hf : ∀ f ∈ old ++ new, f.publication? ≠ some k) : Tracked frames' k p :=
  h.of_zero hx fun f h => zero_of_unknown (hf f h)

theorem run_move {r : ℕ} {run run' : Run} {b : Bump}
    (hmove : RunMove r run run' old new b) : Tracked frames' k p where
  owner := by
    have hadd := hx.tally_add (owns k)
    rw [hmove.tally_owns k] at hadd
    rw [← h.owner]
    omega
  finalizer := by
    have hadd := hx.tally_add (finalizes k)
    rw [hmove.tally_finalizes k] at hadd
    rw [← h.finalizer]
    omega
  follower := by
    have hadd := hx.tally_add (follows k)
    rw [hmove.tally_follows k] at hadd
    rw [← h.follower]
    omega
  left := h.left

end

theorem open_of_owner (ho : 0 < tally (owns k) frames) :
    p.phase = .open ∧ p.tracker.ownerActive = true := by
  have hactive : p.tracker.ownerActive = true := by
    cases hactive : p.tracker.ownerActive with
    | true => rfl
    | false =>
      have howner := h.owner
      rw [hactive, Bool.toNat_false] at howner
      omega
  refine ⟨?_, hactive⟩
  by_contra hphase
  rw [h.left hphase] at hactive
  cases hactive

theorem tracker_open (hold : ∀ f ∈ old, f ∈ frames)
    (hmove : TrackerMove k p t old new) : p.phase = .open := by
  have howner : ∀ f ∈ old, f.owns k = 1 → p.phase = .open := by
    intro f hf hk
    have hle := le_tally_of_mem (w := owns k) (hold f hf)
    exact (h.open_of_owner (by omega)).1
  cases hmove with
  | submit hopen | release hopen => exact hopen
  | sealValue | sealDirect | leaveValue | leaveDirect =>
    exact howner _ mem_cons_self (by simp)

theorem tracker_owner (hold : ∀ f ∈ old, f ∈ frames) (hmove : TrackerMove k p t old new) :
    tally (owns k) new + p.tracker.ownerActive.toNat =
      tally (owns k) old + t.1.ownerActive.toNat := by
  have howner : ∀ f ∈ old, f.owns k = 1 → p.tracker.ownerActive = true := by
    intro f hf hk
    have hle := le_tally_of_mem (w := owns k) (hold f hf)
    exact (h.open_of_owner (by omega)).2
  cases hmove with
  | submit => rfl
  | release => rw [Tracker.release_ownerActive]
  | sealValue | sealDirect => simp [Tracker.sealPublication]
  | leaveValue | leaveDirect =>
    have hactive := howner _ mem_cons_self (by simp)
    simp [Tracker.ownerLeave, hactive]

end

end Tracked

theorem TrackerMove.left (h : TrackerMove k p t old new) (ht : t.2 = true) :
    t.1.ownerActive = false := by
  have hdone : t.1.isDone = true → t.1.ownerActive = false := by
    intro hdone
    simp only [Tracker.isDone, Bool.and_eq_true, Bool.not_eq_true'] at hdone
    exact hdone.1.2
  cases h with
  | submit => cases ht
  | release => exact hdone ht
  | sealValue | sealDirect => exact hdone (Tracker.sealPublication_isDone _ _ ▸ ht)
  | leaveValue => rfl
  | leaveDirect => rfl

namespace Tracked

theorem tracker_move (h : Tracked frames k p) (hmove : TrackerMove k p t old new)
    (hx : Exchange frames frames' old (new ++ if t.2 then [.finalizing k] else [])) :
    Tracked frames' k (p.settle t) := by
  have hopen := h.tracker_open (fun _ => hx.mem_old) hmove
  have howner := h.tracker_owner (fun _ => hx.mem_old) hmove
  have hfinalizer := h.finalizer
  have hfollower := h.follower
  simp only [hopen] at hfinalizer hfollower
  have hquiet : ∀ f ∈ old ++ new, f.finalizes k = 0 ∧ f.follows k = 0 := by
    intro f hf
    cases hmove <;> simp at hf <;> rcases hf with rfl | rfl <;> simp
  have hfinalizes : ∀ fs, (∀ f ∈ fs, f.finalizes k = 0 ∧ f.follows k = 0) →
      tally (finalizes k) fs = 0 ∧ tally (follows k) fs = 0 := by
    intro fs hfs
    exact ⟨tally_eq_zero_iff.mpr fun f hf => (hfs f hf).1,
      tally_eq_zero_iff.mpr fun f hf => (hfs f hf).2⟩
  have hold := hfinalizes old fun f hf => hquiet f (mem_append_left _ hf)
  have hnew := hfinalizes new fun f hf => hquiet f (mem_append_right _ hf)
  have howns := hx.tally_add (owns k)
  have hfins := hx.tally_add (finalizes k)
  have hfols := hx.tally_add (follows k)
  have hown := h.owner
  cases ht : t.2 with
  | true =>
    have hleft := hmove.left ht
    simp [ht, hleft] at howns hfins hfols howner hfinalizer hfollower
    constructor
    · simp [settle, hleft]
      omega
    · simp [settle, ht]
      omega
    · simp [settle, ht]
      omega
    · exact fun _ => hleft
  | false =>
    simp [ht] at howns hfins hfols hfinalizer hfollower
    constructor
    · simp only [settle]
      omega
    · simp [settle, ht, hopen]
      omega
    · simp [settle, ht, hopen]
      omega
    intro hphase
    simp [settle, ht, hopen] at hphase

end Tracked

namespace Tracked

section

variable (h : Tracked frames k p)
include h

theorem phase_of_finalizing (hf : .finalizing k ∈ frames) : p.phase = .finalizing := by
  by_contra hphase
  have hle := le_tally_of_mem (w := finalizes k) hf
  have hfinalizer := h.finalizer
  rw [if_neg hphase] at hfinalizer
  simp at hle
  omega

theorem phase_of_unpublishing (hf : .unpublishing k ∈ frames) : p.phase = .settled := by
  by_contra hphase
  have hle := le_tally_of_mem (w := follows k) hf
  have hfollower := h.follower
  rw [if_neg hphase] at hfollower
  simp at hle
  omega

theorem finalized (hx : Exchange frames frames' [.finalizing k] [f])
    (howns : ∀ k, f.owns k = 0) (hfinalizes : ∀ k, f.finalizes k = 0) (hfollows : f.follows k = 1) :
    Tracked frames' k { p with phase := .settled } := by
  have hphase := h.phase_of_finalizing (hx.mem_old mem_cons_self)
  have hown := h.owner
  have hfin := h.finalizer
  have hfol := h.follower
  have hadd := hx.tally_add (owns k)
  have hadd' := hx.tally_add (finalizes k)
  have hadd'' := hx.tally_add (follows k)
  simp only [tally_cons, tally_nil, howns, hfinalizes, hfollows] at hadd hadd' hadd''
  simp [hphase] at hfin hfol hadd hadd' hadd''
  constructor
  · exact hadd.trans hown
  · simp
    omega
  · simp
    omega
  intro _
  exact h.left (by simp [hphase])

theorem gone (hx : Exchange frames frames' [.unpublishing k] [.returned]) :
    Tracked frames' k { p with phase := .gone } := by
  have hphase := h.phase_of_unpublishing (hx.mem_old mem_cons_self)
  have hown := h.owner
  have hfin := h.finalizer
  have hfol := h.follower
  have hadd := hx.tally_add (owns k)
  have hadd' := hx.tally_add (finalizes k)
  have hadd'' := hx.tally_add (follows k)
  simp [hphase] at hfin hfol hadd hadd' hadd''
  constructor
  · exact hadd.trans hown
  · simp
    omega
  · simp
    omega
  intro _
  exact h.left (by simp [hphase])

end

end Tracked

section Steps

variable {s s' : Flow} {op : Operation}

theorem Effect.runs_length_le (h : Effect s op s') : s.runs.length ≤ s'.runs.length := by
  cases h <;> rename_i hruns _ _ <;> simp [hruns]

theorem Effect.publications_length_le (h : Effect s op s') :
    s.publications.length ≤ s'.publications.length := by
  cases h <;> rename_i hpubs _ <;> simp [hpubs]

namespace Consistent

theorem start (queueCapacity : ℕ) (hasAsyncStage : Bool) :
    Consistent (Flow.start queueCapacity hasAsyncStage) where
  runs f hf := nomatch hf
  publications f hf := nomatch hf
  owners p hp := nomatch hp
  tracked k p hp := by simp [Flow.start] at hp

theorem unknown (h : Consistent s) (hk : s.publications.length ≤ k) (hf : f ∈ s.frames) :
    f.publication? ≠ some k := by
  intro hfk
  have hlt := h.publications f hf k hfk
  omega

theorem created (h : Consistent s) {old new frames : List Frame} {k : ℕ}
    (hmove : CreateMove s.publications.length owner old new) (hx : Exchange s.frames frames old new)
    (hp : (s.publications ++ [{ run := owner, tracker := Tracker.create, phase := .open }])[k]? =
      some p) : Tracked frames k p := by
  rcases Nat.lt_or_ge k s.publications.length with hk | hk
  · rw [getElem?_append_left hk] at hp
    refine (h.tracked k p hp).of_zero hx ?_
    intro f hf
    rcases mem_append.mp hf with hf | hf
    · exact hmove.old_zero hf k
    refine zero_of_unknown ?_
    rw [hmove.publication?_eq hf]
    simpa using Nat.ne_of_gt hk
  obtain rfl : k = s.publications.length := by
    have hlt := (List.getElem?_eq_some_iff.mp hp).1
    simp only [length_append, length_singleton] at hlt
    omega
  rw [getElem?_append_right hk, Nat.sub_self] at hp
  cases hp
  have hzero := fun (f : Frame) (hf : f ∈ s.frames) => zero_of_unknown (h.unknown hk hf)
  have howns := hx.tally_add (owns s.publications.length)
  have hfinalizes := hx.tally_add (finalizes s.publications.length)
  have hfollows := hx.tally_add (follows s.publications.length)
  rw [tally_eq_zero_iff.mpr fun f hf => (hzero f hf).1] at howns
  rw [tally_eq_zero_iff.mpr fun f hf => (hzero f hf).2.1] at hfinalizes
  rw [tally_eq_zero_iff.mpr fun f hf => (hzero f hf).2.2] at hfollows
  cases hmove <;> simp at howns hfinalizes hfollows <;>
    exact ⟨howns, hfinalizes, hfollows, absurd rfl⟩

section

variable (h : Consistent s) (heffect : Effect s op s')

include h heffect

theorem runs_step : ∀ f ∈ s'.frames, ∀ r ∈ f.run?, r < s'.runs.length := by
  intro f hf r hr
  have hle := heffect.runs_length_le
  by_cases hold : f ∈ s.frames
  · exact (h.runs f hold r hr).trans_le hle
  have hnew : ∀ {old new : List Frame}, Exchange s.frames s'.frames old new → f ∈ new :=
    fun hframes => (hframes.mem_or f hf).resolve_left hold
  cases heffect with
  | flow hmove hframes hruns _ _ =>
    have hf := hnew hframes
    rw [hmove.run?_eq (mem_append_right _ hf)] at hr
    cases hr
  | register hframes hruns _ _ =>
    obtain rfl := mem_singleton.mp (hnew hframes)
    cases hr
    simp [hruns]
  | run hrun hmove _ hframes hruns _ _ =>
    have hf := hnew hframes
    rw [hmove.run?_eq (mem_append_right _ hf) r hr]
    exact (List.getElem?_eq_some_iff.mp hrun).1.trans_le hle
  | create hmove howner hframes hruns _ _ =>
    have hf := hnew hframes
    rw [hmove.run?_eq hf] at hr
    exact (howner r hr).trans_le hle
  | tracker _ hmove hframes hruns _ _ =>
    rcases mem_append.mp (hnew hframes) with hf | hf
    · obtain ⟨g, hg, hgr⟩ := hmove.run?_mem hf hr
      exact (h.runs g (hframes.mem_old hg) r hgr).trans_le hle
    split at hf
    · obtain rfl := mem_singleton.mp hf
      cases hr
    · cases hf
  | finalizeDirect _ _ hframes hruns _ _ | unpublish _ hframes hruns _ _ =>
    obtain rfl := mem_singleton.mp (hnew hframes)
    cases hr
  | finalizeValue _ _ hrun hmove hframes hruns _ _ =>
    obtain rfl := mem_singleton.mp (hnew hframes)
    rw [hmove.run?_eq r hr]
    exact (List.getElem?_eq_some_iff.mp hrun).1.trans_le hle

theorem publications_step : ∀ f ∈ s'.frames, ∀ k ∈ f.publication?, k < s'.publications.length := by
  intro f hf k hk
  have hle := heffect.publications_length_le
  by_cases hold : f ∈ s.frames
  · exact (h.publications f hold k hk).trans_le hle
  have hnew : ∀ {old new : List Frame}, Exchange s.frames s'.frames old new → f ∈ new :=
    fun hframes => (hframes.mem_or f hf).resolve_left hold
  have hfound : ∀ {k' : ℕ} {p : AsyncPublication}, s.publications[k']? = some p → k = k' →
      k < s'.publications.length := by
    intro k' p hp hkk
    rw [hkk]
    exact (List.getElem?_eq_some_iff.mp hp).1.trans_le hle
  cases heffect with
  | flow hmove hframes _ _ _ =>
    have hf := hnew hframes
    rw [hmove.publication?_eq (mem_append_right _ hf)] at hk
    cases hk
  | register hframes _ _ _ | unpublish _ hframes _ _ _ =>
    obtain rfl := mem_singleton.mp (hnew hframes)
    cases hk
  | run _ hmove _ hframes _ _ _ =>
    have hf := hnew hframes
    obtain ⟨g, hg, hgk⟩ := hmove.publication?_mem hf hk
    exact (h.publications g (hframes.mem_old hg) k hgk).trans_le hle
  | create hmove _ hframes _ hpubs _ =>
    have hf := hnew hframes
    rw [hmove.publication?_eq hf] at hk
    cases hk
    simp [hpubs]
  | tracker hpub hmove hframes _ _ _ =>
    rcases mem_append.mp (hnew hframes) with hf | hf
    · exact hfound hpub (hmove.publication?_eq (mem_append_right _ hf) k hk)
    split at hf
    · obtain rfl := mem_singleton.mp hf
      exact hfound hpub (some.inj hk).symm
    · cases hf
  | finalizeDirect hpub _ hframes _ _ _ =>
    obtain rfl := mem_singleton.mp (hnew hframes)
    exact hfound hpub (some.inj hk).symm
  | finalizeValue hpub _ _ hmove hframes _ _ _ =>
    obtain rfl := mem_singleton.mp (hnew hframes)
    rw [hmove.publication?_eq] at hk
    exact hfound hpub (some.inj hk).symm

theorem owners_step : ∀ p ∈ s'.publications, ∀ r ∈ p.run, r < s'.runs.length := by
  intro p hp r hr
  have hle := heffect.runs_length_le
  have hkept : ∀ q ∈ s.publications, q.run = p.run → r < s'.runs.length :=
    fun q hq hqp => (h.owners q hq r (hqp ▸ hr)).trans_le hle
  have hset : ∀ {k : ℕ} {q q' : AsyncPublication}, s.publications[k]? = some q →
      s'.publications = s.publications.set k q' → q'.run = q.run → r < s'.runs.length := by
    intro k q q' hq hpubs hqq
    rw [hpubs] at hp
    rcases mem_or_eq_of_mem_set hp with hp | rfl
    · exact hkept p hp rfl
    · exact hkept q (mem_of_getElem? hq) hqq.symm
  cases heffect with
  | flow _ _ _ hpubs _ | register _ _ hpubs _ | run _ _ _ _ _ hpubs _ =>
    exact hkept p (hpubs ▸ hp) rfl
  | create _ howner _ _ hpubs _ =>
    rw [hpubs] at hp
    rcases mem_append.mp hp with hp | hp
    · exact hkept p hp rfl
    obtain rfl := mem_singleton.mp hp
    exact (howner r hr).trans_le hle
  | tracker hpub _ _ _ hpubs _ | finalizeDirect hpub _ _ _ hpubs _
  | finalizeValue hpub _ _ _ _ _ hpubs _ | unpublish hpub _ _ hpubs _ => exact hset hpub hpubs rfl

theorem tracked_step : ∀ k p, s'.publications[k]? = some p → Tracked s'.frames k p := by
  intro k p hp
  have hkept : s'.publications = s.publications → Tracked s.frames k p :=
    fun hpubs => h.tracked k p (hpubs ▸ hp)
  -- the entry `k'` changes: either it is the one asked for or the call knows no other
  have hset : ∀ {k' : ℕ} {q q' : AsyncPublication} {old new : List Frame},
      s.publications[k']? = some q → s'.publications = s.publications.set k' q' →
      Exchange s.frames s'.frames old new →
      (∀ f ∈ old ++ new, ∀ k ∈ f.publication?, k = k') →
      (Tracked s.frames k' q → Tracked s'.frames k' q') → Tracked s'.frames k p := by
    intro k' q q' old new hq hpubs hframes hknown hmove
    rw [hpubs] at hp
    rcases getElem?_set_cases hp with ⟨rfl, rfl⟩ | ⟨hkk, hp⟩
    · exact hmove (h.tracked _ _ hq)
    · exact (h.tracked k p hp).of_unknown hframes fun f hf hfk => hkk (hknown f hf k hfk).symm
  cases heffect with
  | flow hmove hframes _ hpubs _ =>
    refine (hkept hpubs).of_unknown hframes fun f hf => ?_
    simp [hmove.publication?_eq hf]
  | register hframes _ hpubs _ =>
    refine (hkept hpubs).of_unknown hframes fun f hf => ?_
    revert f
    simp [publication?]
  | run _ hmove _ hframes _ hpubs _ => exact (hkept hpubs).run_move hframes hmove
  | create hmove _ hframes _ hpubs _ => exact h.created hmove hframes (hpubs ▸ hp)
  | tracker hpub hmove hframes _ hpubs _ =>
    refine hset hpub hpubs hframes ?_ fun htracked => htracked.tracker_move hmove hframes
    intro f hf
    rw [← append_assoc] at hf
    rcases mem_append.mp hf with hf | hf
    · exact hmove.publication?_eq hf
    split at hf
    · obtain rfl := mem_singleton.mp hf
      simp [publication?]
    · cases hf
  | finalizeDirect hpub _ hframes _ hpubs _ =>
    refine hset hpub hpubs hframes ?_ fun htracked =>
      htracked.finalized hframes (fun _ => rfl) (fun _ => rfl) (by simp)
    simp [publication?]
  | finalizeValue hpub _ _ hmove hframes _ hpubs _ =>
    refine hset hpub hpubs hframes ?_ fun htracked =>
      htracked.finalized hframes hmove.owns_eq hmove.finalizes_eq hmove.follows_eq
    intro f hf k' hk'
    rcases mem_cons.mp hf with rfl | hf
    · exact (some.inj hk').symm
    obtain rfl := mem_singleton.mp hf
    rw [hmove.publication?_eq] at hk'
    exact (some.inj hk').symm
  | unpublish hpub hframes _ hpubs _ =>
    refine hset hpub hpubs hframes ?_ fun htracked => htracked.gone hframes
    simp [publication?]

theorem step : Consistent s' where
  runs := h.runs_step heffect
  publications := h.publications_step heffect
  owners := h.owners_step heffect
  tracked := h.tracked_step heffect

end

end Consistent

/-- The rule for properties of every run: `Q` survives changes of calls and publications that are
not about the run, and each move that is. -/
theorem Effect.runs_rule {Q : List Frame → List AsyncPublication → ℕ → Run → Prop}
    (heffect : Effect s op s') (hconsistent : Consistent s)
    (h : ∀ r run, s.runs[r]? = some run → Q s.frames s.publications r run)
    (hother : ∀ {r : ℕ} {run : Run} {old new : List Frame},
      Q s.frames s.publications r run → Exchange s.frames s'.frames old new →
      (∀ f ∈ old ++ new, f.run? ≠ some r) → Q s'.frames s.publications r run)
    (hregistered : ∀ {d m b : Bool},
      Exchange s.frames s'.frames [.opening d m b] [.subscribing s.runs.length] →
      Q s'.frames s.publications s.runs.length (Run.create d m))
    (hmoved : ∀ {r : ℕ} {run run' : Run} {old new : List Frame} {b : Bump},
      s.runs[r]? = some run → RunMove r run run' old new b → op.Advances s old →
      Exchange s.frames s'.frames old new → Q s'.frames s.publications r run')
    (hcreated : ∀ {r : ℕ} {run : Run} {owner : Option ℕ} {old new : List Frame},
      s.runs[r]? = some run → CreateMove s.publications.length owner old new →
      Exchange s.frames s'.frames old new →
      Q s'.frames (s.publications ++ [{ run := owner, tracker := Tracker.create, phase := .open }])
        r run)
    (htracker : ∀ {r k : ℕ} {run : Run} {p : AsyncPublication} {t : Tracker × Bool}
      {old new : List Frame},
      s.runs[r]? = some run → s.publications[k]? = some p → TrackerMove k p t old new →
      Exchange s.frames s'.frames old (new ++ if t.2 then [.finalizing k] else []) →
      Q s'.frames (s.publications.set k (p.settle t)) r run)
    (hsilent : ∀ {r k : ℕ} {run : Run} {p p' : AsyncPublication} {old new : List Frame},
      s.runs[r]? = some run → s.publications[k]? = some p → p.unsettled r = 0 →
      p'.unsettled r = 0 → Exchange s.frames s'.frames old new →
      (∀ f ∈ old ++ new, f.run? ≠ some r) → Q s'.frames (s.publications.set k p') r run)
    (hfinished : ∀ {r k : ℕ} {run : Run} {p : AsyncPublication} {new : Frame},
      s.runs[r]? = some run → s.publications[k]? = some p → p.run = some r →
      FinishMove k r run p.tracker.status new →
      Exchange s.frames s'.frames [.finalizing k] [new] →
      Q s'.frames (s.publications.set k { p with phase := .settled }) r
        (run.valueFinish p.tracker.status)) :
    ∀ r run, s'.runs[r]? = some run → Q s'.frames s'.publications r run := by
  intro r run hr
  cases heffect with
  | flow hmove hframes hruns hpubs _ =>
    rw [hruns] at hr
    rw [hpubs]
    refine hother (h r run hr) hframes fun f hf => ?_
    simp [hmove.run?_eq hf]
  | register hframes hruns hpubs _ =>
    rw [hpubs]
    rw [hruns] at hr
    rcases Nat.lt_or_ge r s.runs.length with hlt | hge
    · rw [getElem?_append_left hlt] at hr
      refine hother (h r run hr) hframes ?_
      simp [run?, Nat.ne_of_gt hlt]
    rw [getElem?_append_right hge] at hr
    obtain rfl : r = s.runs.length := by
      have hlt := (List.getElem?_eq_some_iff.mp hr).1
      simp only [length_singleton] at hlt
      omega
    rw [Nat.sub_self] at hr
    cases hr
    exact hregistered hframes
  | run hrun hmove hadvances hframes hruns hpubs _ =>
    rw [hpubs]
    rw [hruns] at hr
    rcases getElem?_set_cases hr with ⟨rfl, rfl⟩ | ⟨hne, hr⟩
    · exact hmoved hrun hmove hadvances hframes
    · exact hother (h r run hr) hframes fun f hf hfr => hne (hmove.run?_eq hf r hfr).symm
  | create hmove _ hframes hruns hpubs _ =>
    rw [hruns] at hr
    rw [hpubs]
    exact hcreated hr hmove hframes
  | tracker hpub hmove hframes hruns hpubs _ =>
    rw [hruns] at hr
    rw [hpubs]
    exact htracker hr hpub hmove hframes
  | finalizeDirect hpub howner hframes hruns hpubs _ =>
    rw [hruns] at hr
    rw [hpubs]
    refine hsilent hr hpub (by simp [unsettled, howner])
      (by simp [unsettled]) hframes ?_
    simp [run?]
  | finalizeValue hpub howner hrun hmove hframes hruns hpubs _ =>
    rw [hpubs]
    rw [hruns] at hr
    rcases getElem?_set_cases hr with ⟨rfl, rfl⟩ | ⟨hne, hr⟩
    · exact hfinished hrun hpub howner hmove hframes
    refine hsilent hr hpub (by simp [unsettled, howner, hne])
      (by simp [unsettled]) hframes ?_
    intro f hf hfr
    rcases mem_cons.mp hf with rfl | hf
    · cases hfr
    obtain rfl := mem_singleton.mp hf
    exact hne (hmove.run?_eq r hfr).symm
  | unpublish hpub hframes hruns hpubs _ =>
    rw [hruns] at hr
    rw [hpubs]
    have hphase := (hconsistent.tracked _ _ hpub).phase_of_unpublishing
      (hframes.mem_old mem_cons_self)
    refine hsilent hr hpub (by simp [unsettled, hphase])
      (by simp [unsettled]) hframes ?_
    simp [run?]

end Steps

end TurboFlow.Reactive
