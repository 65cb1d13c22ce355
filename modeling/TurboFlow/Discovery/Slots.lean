import TurboFlow.Discovery.Targets

/-!
# Commands and compensations at one slot

What a replacement does to the owner of one slot. `Cell.Advanced` lists what the command loops can
have made of a slot when they stop, `Cell.Done` says that its owner is where its target wants it,
and `Cell.Advanced.restored` that the compensations, if they succeed, bring back what was there.
-/

namespace TurboFlow.Discovery

open Option Cell
open Saga (Reports)

@[simp] def Place.Synced (p : Place) : Prop :=
  match p.slot.peer with
  | none => p.owner.running = false
  | some q => p.owner = { endpoint := q.toEndpoint, running := true }

/-- What the command loops can have made of the cell `a` when they stop. -/
inductive Cell.Advanced (a : Cell) : Cell → Prop
  | untouched : Advanced a a
  | replaced {q p : Peer} (hslot : a.slot.peer = some q) (htarget : a.target = some p) :
      Advanced a
        { a with owner := { a.owner with endpoint := p.toEndpoint }, action := .replace }
  | added {p : Peer} (running : Bool) (hslot : a.slot.peer = none) (htarget : a.target = some p) :
      Advanced a
        { a with owner := { endpoint := p.toEndpoint, running := running }, action := .add }
  | removed {q : Peer} (hslot : a.slot.peer = some q) (htarget : a.target = none) :
      Advanced a { a with owner := { a.owner with running := false }, action := .remove }

variable {answer : ℕ → Status} {n : ℕ} {a b c : Cell}

theorem command_cases (answer : ℕ → Status) (n : ℕ) (c : Cell) (kind : Command) :
    (answer n = .ok ∧ command answer n c kind =
        ⟨{ c with owner := c.owner.obey kind }, n + 1, .ok⟩) ∨
      (answer n ≠ .ok ∧ command answer n c kind = ⟨c, n + 1, answer n⟩) := by
  unfold command
  split
  · rename_i hok
    exact .inl ⟨hok, rfl⟩
  rename_i hfail
  exact .inr ⟨hfail, rfl⟩

theorem command_reports (answer : ℕ → Status) (n : ℕ) (c : Cell) (kind : Command) :
    Reports .ok answer n (command answer n c kind) := by
  rcases command_cases answer n c kind with ⟨hok, h⟩ | ⟨hfail, h⟩ <;> rw [h]
  · refine ⟨Nat.le_succ n, ?_⟩
    simp only [true_iff]
    intro m hm hlt
    obtain rfl : m = n := by omega
    exact hok
  refine ⟨Nat.le_succ n, ?_⟩
  simp only [hfail, false_iff]
  exact fun hall => hfail (hall n le_rfl (Nat.lt_succ_self n))

theorem command_value (h : (command answer n c kind).status = .ok) :
    (command answer n c kind).value = { c with owner := c.owner.obey kind } := by
  rcases command_cases answer n c kind with ⟨_, heq⟩ | ⟨hfail, heq⟩
  · rw [heq]
  rw [heq] at h
  exact absurd h hfail

theorem Slot.active_eq_false {s : Slot} : s.active = false ↔ s.peer = none := by
  simp [Slot.active]

theorem Slot.active_eq_true {s : Slot} : s.active = true ↔ ∃ p, s.peer = some p := by
  simp [Slot.active, isSome_iff_exists]

/-- What the first command loop does at a slot: nothing without a new target; otherwise the endpoint
is replaced, and an inactive slot resumed. -/
theorem applyTarget_cases (answer : ℕ → Status) (n : ℕ) (c : Cell) :
    ((c.target = none ∨ ∃ p, c.target = some p ∧ c.slot.peer = some p) ∧
        applyTarget answer n c = ⟨c, n, .ok⟩) ∨
      (∃ rc, rc ≠ .ok ∧ applyTarget answer n c = ⟨c, n + 1, rc⟩) ∨
      (∃ q p, c.slot.peer = some q ∧ c.target = some p ∧ applyTarget answer n c =
        ⟨{ c with owner := { c.owner with endpoint := p.toEndpoint }, action := .replace },
          n + 1, .ok⟩) ∨
      (∃ p running, c.slot.peer = none ∧ c.target = some p ∧
        (applyTarget answer n c).value =
          { c with owner := { endpoint := p.toEndpoint, running := running }, action := .add } ∧
        ((applyTarget answer n c).status = .ok → running = true)) := by
  unfold applyTarget
  split
  · rename_i hnone
    exact .inl ⟨.inl hnone, rfl⟩
  rename_i p htarget
  split
  · rename_i hequal
    exact .inl ⟨.inr ⟨p, htarget, slotEndpointEqual_iff.mp hequal⟩, rfl⟩
  rcases command_cases answer n c (.replaceEndpoint p.toEndpoint) with ⟨_, h⟩ | ⟨hfail, h⟩
  · simp only [h, ne_eq, not_true_eq_false, if_false]
    split
    · rename_i hactive
      obtain ⟨q, hq⟩ := Slot.active_eq_true.mp hactive
      exact .inr (.inr (.inl ⟨q, p, hq, htarget, rfl⟩))
    rename_i hinactive
    have hnone : c.slot.peer = none := Slot.active_eq_false.mp (by simpa using hinactive)
    refine .inr (.inr (.inr ?_))
    generalize hadded : ({ c with owner := c.owner.obey (.replaceEndpoint p.toEndpoint),
                                  action := Action.add } : Cell) = added
    rcases command_cases answer (n + 1) added .resume with ⟨_, hr⟩ | ⟨hfail, hr⟩
    · refine ⟨p, true, hnone, htarget, ?_, fun _ => rfl⟩
      rw [hr, ← hadded]
      rfl
    refine ⟨p, c.owner.running, hnone, htarget, ?_, ?_⟩
    · rw [hr, ← hadded]
      rfl
    rw [hr]
    exact fun hok => absurd hok hfail
  · exact .inr (.inl ⟨answer n, hfail, by simp [h, hfail]⟩)

theorem advanced_applyTarget (answer : ℕ → Status) (n : ℕ) (c : Cell) :
    c.Advanced (applyTarget answer n c).value := by
  rcases applyTarget_cases answer n c with ⟨_, h⟩ | ⟨_, _, h⟩ | ⟨q, p, hq, hp, h⟩ |
    ⟨p, running, hnone, hp, h, _⟩
  · rw [h]
    exact .untouched
  · rw [h]
    exact .untouched
  · rw [h]
    exact .replaced hq hp
  rw [h]
  exact .added running hnone hp

theorem applyRemoval_cases (answer : ℕ → Status) (n : ℕ) (c : Cell) :
    ((c.target.isSome ∨ c.slot.peer = none) ∧ applyRemoval answer n c = ⟨c, n, .ok⟩) ∨
      (∃ rc, rc ≠ .ok ∧ applyRemoval answer n c = ⟨c, n + 1, rc⟩) ∨
      (∃ q, c.slot.peer = some q ∧ c.target = none ∧ applyRemoval answer n c =
        ⟨{ c with owner := { c.owner with running := false }, action := .remove },
          n + 1, .ok⟩) := by
  unfold applyRemoval
  split
  · rename_i hskip
    exact .inl ⟨hskip.imp_right Slot.active_eq_false.mp, rfl⟩
  rename_i hremove
  push Not at hremove
  obtain ⟨hnone, hactive⟩ := hremove
  obtain ⟨q, hq⟩ := Slot.active_eq_true.mp (by simpa using hactive)
  rcases command_cases answer n c .quiesce with ⟨_, h⟩ | ⟨hfail, h⟩
  · exact .inr (.inr ⟨q, hq, by simpa using hnone, by simp [h, Owner.obey]⟩)
  · exact .inr (.inl ⟨answer n, hfail, by simp [h, hfail]⟩)

theorem Cell.Advanced.removal (h : a.Advanced b) (answer : ℕ → Status) (n : ℕ) :
    a.Advanced (applyRemoval answer n b).value := by
  rcases applyRemoval_cases answer n b with ⟨_, heq⟩ | ⟨_, _, heq⟩ | ⟨q, hq, hnone, heq⟩
  · rwa [heq]
  · rwa [heq]
  rw [heq]
  cases h with
  | untouched => exact .removed hq hnone
  | replaced _ hp | added _ _ hp => exact absurd (hp.symm.trans hnone) (by simp)
  | removed hslot htarget => exact .removed hslot htarget

structure Cell.Done (a b : Cell) : Prop where
  slot : b.slot = a.slot
  target : b.target = a.target
  synced : a.toPlace.Synced → b.commit.Synced

structure Cell.Placed (a b : Cell) : Prop where
  slot : b.slot = a.slot
  target : b.target = a.target
  kept : a.target = none → b.owner = a.owner
  set : ∀ p, a.target = some p → a.toPlace.Synced →
    b.owner = { endpoint := p.toEndpoint, running := true }

theorem placed_applyTarget (h : (applyTarget answer n a).status = .ok) :
    a.Placed (applyTarget answer n a).value := by
  rcases applyTarget_cases answer n a with ⟨hsame, heq⟩ | ⟨rc, hfail, heq⟩ | ⟨q, p, hq, hp, heq⟩ |
    ⟨p, running, hnone, hp, heq, hrun⟩
  · rw [heq]
    refine ⟨rfl, rfl, fun _ => rfl, ?_⟩
    intro p hp hsynced
    have hpeer : a.slot.peer = some p := by
      rcases hsame with hnone | ⟨q, hq, hpeer⟩
      · exact absurd (hnone.symm.trans hp) (by simp)
      · rw [hpeer, ← hq, hp]
    simpa [hpeer] using hsynced
  · rw [heq] at h
    exact absurd h hfail
  · rw [heq]
    refine ⟨rfl, rfl, fun hnone => absurd (hp.symm.trans hnone) (by simp), ?_⟩
    intro p' hp' hsynced
    obtain rfl := some.inj (hp.symm.trans hp')
    have howner : a.owner = { endpoint := q.toEndpoint, running := true } := by
      simpa [hq] using hsynced
    simp [howner]
  rw [heq]
  refine ⟨rfl, rfl, fun hnone' => absurd (hp.symm.trans hnone') (by simp), ?_⟩
  intro p' hp' _
  obtain rfl := some.inj (hp.symm.trans hp')
  simp [hrun h]

theorem Cell.Placed.done (hplaced : a.Placed b) (h : (applyRemoval answer n b).status = .ok) :
    a.Done (applyRemoval answer n b).value := by
  rcases applyRemoval_cases answer n b with ⟨hskip, heq⟩ | ⟨rc, hfail, heq⟩ | ⟨q, hq, hnone, heq⟩
  · rw [heq]
    refine ⟨hplaced.slot, hplaced.target, ?_⟩
    intro hsynced
    cases htarget : a.target with
    | some p =>
      have howner := hplaced.set p htarget hsynced
      simp [commit, hplaced.target, htarget, howner]
    | none =>
      have hpeer : a.slot.peer = none := by
        rw [hplaced.target, htarget, hplaced.slot] at hskip
        simpa using hskip
      have hrunning : a.owner.running = false := by
        simpa [hpeer] using hsynced
      simp [commit, hplaced.target, htarget, hplaced.kept htarget, hrunning]
  · rw [heq] at h
    exact absurd h hfail
  rw [heq]
  refine ⟨hplaced.slot, hplaced.target, ?_⟩
  intro _
  simp [commit, hnone]

/-- A slot after a compensated replacement. The owner of an inactive one is quiesced, with any
endpoint. -/
structure Place.Restored (p p' : Place) : Prop where
  slot : p'.slot = p.slot
  active : p.slot.active = true → p'.owner = p.owner
  inactive : p.slot.active = false → p'.owner.running = false

def Cell.resumed (b : Cell) : Cell :=
  if b.action = .remove then { b with owner := { b.owner with running := true } } else b

theorem undoRemoval_value (h : (undoRemoval answer n b).status = .ok) :
    (undoRemoval answer n b).value = b.resumed := by
  unfold undoRemoval at h ⊢
  unfold resumed
  split
  · rename_i hremove
    rw [if_pos hremove] at h
    exact command_value h
  · rfl

theorem undoRemoval_reports (answer : ℕ → Status) (n : ℕ) (b : Cell) :
    Reports .ok answer n (undoRemoval answer n b) := by
  unfold undoRemoval
  split
  · exact command_reports answer n b .resume
  · exact ⟨le_rfl, by simp only [true_iff]; omega⟩

theorem undoTarget_reports (answer : ℕ → Status) (n : ℕ) (b : Cell) :
    Reports .ok answer n (undoTarget answer n b) := by
  unfold undoTarget
  split
  · exact command_reports answer n b .quiesce
  · exact command_reports answer n b _
  · exact ⟨le_rfl, by simp only [true_iff]; omega⟩

theorem Cell.Advanced.restored {m : ℕ} (h : a.Advanced b) (haction : a.action = .none)
    (hsynced : a.toPlace.Synced) (hok : (undoTarget answer m b.resumed).status = .ok) :
    a.toPlace.Restored (undoTarget answer m b.resumed).value.toPlace := by
  cases h with
  | untouched =>
    have hvalue : (undoTarget answer m a.resumed).value = a := by
      simp [undoTarget, resumed, haction]
    rw [hvalue]
    refine ⟨rfl, fun _ => rfl, ?_⟩
    intro hinactive
    simpa [Slot.active_eq_false.mp hinactive] using hsynced
  | replaced hslot htarget =>
    rename_i q p
    have howner : a.owner = { endpoint := q.toEndpoint, running := true } := by
      simpa [hslot] using hsynced
    simp only [undoTarget, resumed, reduceCtorEq, if_false, hslot] at hok ⊢
    rw [command_value hok]
    refine ⟨rfl, fun _ => ?_, fun hinactive => ?_⟩
    · simp [Owner.obey, howner]
    · exact absurd (Slot.active_eq_false.mp hinactive) (by simp [hslot])
  | added running hslot htarget =>
    simp only [undoTarget, resumed, reduceCtorEq, if_false] at hok ⊢
    rw [command_value hok]
    refine ⟨rfl, fun hactive => ?_, fun _ => rfl⟩
    obtain ⟨q, hq⟩ := Slot.active_eq_true.mp hactive
    exact absurd (hq.symm.trans hslot) (by simp)
  | removed hslot htarget =>
    rename_i q
    have howner : a.owner = { endpoint := q.toEndpoint, running := true } := by
      simpa [hslot] using hsynced
    simp only [undoTarget, resumed, if_true]
    refine ⟨rfl, fun _ => by simp [howner], fun hinactive => ?_⟩
    exact absurd (Slot.active_eq_false.mp hinactive) (by simp [hslot])

end TurboFlow.Discovery
