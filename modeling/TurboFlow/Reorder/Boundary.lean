import TurboFlow.Status
import Mathlib.Data.Finset.Card

/-!
# Reorder boundaries

A reorder boundary issues contiguous tickets and lets their holders enter one at a time in ticket
order. `Boundary.enter` is the critical section up to the wait, `Boundary.resume` the one after a
wakeup or the time-out. Sequence numbers are natural numbers. The storage of the canceled set is
reserved for `capacity + 1` numbers, so adding one does not fail.
-/

namespace TurboFlow.Reorder

structure Boundary where
  capacity : ℕ
  waiting : ℕ
  issued : ℕ
  next : ℕ
  canceled : Finset ℕ
  active : Bool
  stopping : Bool

namespace Boundary

/-- The state that `flow_start_reorder_states` creates. -/
def start (capacity : ℕ) : Boundary where
  capacity
  waiting := 0
  issued := 0
  next := 1
  canceled := ∅
  active := false
  stopping := false

/-- The loop of `flow_reorder_advance_canceled`, for at most `fuel` turns. -/
def advance : ℕ → Boundary → Boundary
  | 0, b => b
  | fuel + 1, b =>
    if b.active = false ∧ b.next ∈ b.canceled then
      advance fuel { b with canceled := b.canceled.erase b.next, next := b.next + 1 }
    else b

/-- `flow_reorder_advance_canceled`. Every turn removes a number, so the set bounds the turns. -/
def advanceCanceled (b : Boundary) : Boundary :=
  advance b.canceled.card b

def reserve (b : Boundary) : Boundary × Except Status ℕ :=
  if b.stopping then (b, .error .eshutdown)
  else if b.issued ≥ b.next ∧ b.issued - b.next ≥ b.capacity then (b, .error .enospc)
  else ({ b with issued := b.issued + 1 }, .ok (b.issued + 1))

def cancel (b : Boundary) (sequence : ℕ) : Boundary :=
  if sequence = 0 then b
  else if sequence ≥ b.next then
    advanceCanceled { b with canceled := insert sequence b.canceled }
  else b

/-- How the first section of `flow_reorder_enter` ends. -/
inductive Entry
  | returned (rc : Status)
  | waits

/-- `flow_reorder_enter` up to its wait. -/
def enter (b : Boundary) (sequence : ℕ) : Boundary × Entry :=
  if b.stopping then (b, .returned .eshutdown)
  else if sequence < b.next then (b, .returned .ealready)
  else if sequence ≠ b.next ∨ b.active then
    if b.waiting ≥ b.capacity then (b, .returned .enospc)
    else ({ b with waiting := b.waiting + 1 }, .waits)
  else ({ b with active := true }, .returned .ok)

/-- `flow_reorder_enter` after a wakeup of its wait; nothing when it goes back to wait. -/
def resume (b : Boundary) (sequence : ℕ) (timedOut : Bool) : Option (Boundary × Status) :=
  if timedOut = false ∧ b.stopping = false ∧ (sequence ≠ b.next ∨ b.active) then none
  else
    let b := { b with waiting := b.waiting - 1 }
    if b.stopping then some (b, .eshutdown)
    else if timedOut then some (b, .etimedout)
    else some ({ b with active := true }, .ok)

def leave (b : Boundary) (sequence : ℕ) : Boundary :=
  if b.active ∧ sequence = b.next then
    advanceCanceled { b with active := false, next := b.next + 1 }
  else b

/-- One boundary of `flow_stop_reorder_states`. -/
def stop (b : Boundary) : Boundary :=
  { b with stopping := true }

/-- What advancing does: it moves `next` over canceled numbers, forgets these and stops in front of
another. -/
structure Advanced (b b' : Boundary) : Prop where
  capacity : b'.capacity = b.capacity
  waiting : b'.waiting = b.waiting
  issued : b'.issued = b.issued
  active : b'.active = b.active
  stopping : b'.stopping = b.stopping
  next_le : b.next ≤ b'.next
  skipped : ∀ q, b.next ≤ q → q < b'.next → q ∈ b.canceled
  mem_canceled : ∀ q, q ∈ b'.canceled ↔ q ∈ b.canceled ∧ (q < b.next ∨ b'.next ≤ q)
  held : b.active → b'.next = b.next
  settled : b'.active = false → b'.next ∉ b'.canceled

theorem advanced_advance (h : b.canceled.card ≤ fuel) : Advanced b (advance fuel b) := by
  induction fuel generalizing b with
  | zero =>
    have hempty : b.canceled = ∅ := Finset.card_eq_zero.mp (Nat.le_zero.mp h)
    refine ⟨rfl, rfl, rfl, rfl, rfl, le_refl _, ?_, ?_, fun _ => rfl, ?_⟩
    · intro q hle hlt
      exact absurd hlt (Nat.not_lt.mpr hle)
    · intro q
      simp [advance, hempty]
    · simp [advance, hempty]
  | succ fuel ih =>
    rw [advance]
    split
    · rename_i hmore
      have hcard : (b.canceled.erase b.next).card ≤ fuel := by
        rw [Finset.card_erase_of_mem hmore.2]
        omega
      obtain ⟨hcapacity, hwaiting, hissued, hactive, hstopping, hle, hskipped, hmem, -, hsettled⟩ :=
        ih (b := { b with canceled := b.canceled.erase b.next, next := b.next + 1 }) hcard
      dsimp only at hle hmem
      refine ⟨hcapacity, hwaiting, hissued, hactive, hstopping, Nat.le_of_succ_le hle, ?_, ?_, ?_,
        hsettled⟩
      · intro q hge hlt
        rcases Nat.eq_or_lt_of_le hge with rfl | hgt
        · exact hmore.2
        · exact Finset.mem_of_mem_erase (hskipped q hgt hlt)
      · intro q
        rw [hmem, Finset.mem_erase]
        constructor
        · rintro ⟨⟨hne, hq⟩, hbound⟩
          exact ⟨hq, by omega⟩
        rintro ⟨hq, hbound⟩
        exact ⟨⟨by omega, hq⟩, by omega⟩
      intro hb
      simp [hmore.1] at hb
    rename_i hdone
    refine ⟨rfl, rfl, rfl, rfl, rfl, le_refl _, ?_, ?_, fun _ => rfl, ?_⟩
    · intro q hle hlt
      exact absurd hlt (Nat.not_lt.mpr hle)
    · intro q
      exact ⟨fun hq => ⟨hq, Nat.lt_or_ge q b.next⟩, And.left⟩
    intro hactive hq
    exact hdone ⟨hactive, hq⟩

theorem advanced_advanceCanceled (b : Boundary) : Advanced b (advanceCanceled b) :=
  advanced_advance (le_refl _)

theorem enter_cases (b : Boundary) (sequence : ℕ) :
    (∃ rc, b.enter sequence = (b, .returned rc) ∧ rc ≠ .ok ∧
        (rc = .ealready → sequence < b.next) ∧
        (rc = .enospc → b.next ≤ sequence ∧ (sequence ≠ b.next ∨ b.active) ∧
          b.capacity ≤ b.waiting)) ∨
      (b.enter sequence = ({ b with waiting := b.waiting + 1 }, .waits) ∧ b.next ≤ sequence ∧
        (sequence ≠ b.next ∨ b.active)) ∨
      (b.enter sequence = ({ b with active := true }, .returned .ok) ∧ sequence = b.next ∧
        b.active = false) := by
  unfold enter
  split
  · exact .inl ⟨_, rfl, by simp, by simp, by simp⟩
  split
  · rename_i hlt
    exact .inl ⟨_, rfl, by simp, fun _ => hlt, by simp⟩
  rename_i hge
  split
  · rename_i hwait
    split
    · rename_i hfull
      exact .inl ⟨_, rfl, by simp, by simp, fun _ => ⟨Nat.le_of_not_lt hge, hwait, hfull⟩⟩
    · exact .inr (.inl ⟨rfl, Nat.le_of_not_lt hge, hwait⟩)
  rename_i hturn
  simp only [ne_eq, not_or, not_not, Bool.not_eq_true] at hturn
  exact .inr (.inr ⟨rfl, hturn.1, hturn.2⟩)

theorem resume_cases {b b' : Boundary} {sequence : ℕ} {timedOut : Bool} {rc : Status}
    (h : b.resume sequence timedOut = some (b', rc)) :
    (rc ≠ .ok ∧ b' = { b with waiting := b.waiting - 1 }) ∨
      (rc = .ok ∧ b' = { b with waiting := b.waiting - 1, active := true } ∧
        sequence = b.next ∧ b.active = false) := by
  unfold resume at h
  split at h
  · cases h
  rename_i hwoken
  dsimp only at h
  split at h
  · cases h
    exact .inl ⟨by simp, rfl⟩
  rename_i hstopping
  split at h
  · cases h
    exact .inl ⟨by simp, rfl⟩
  rename_i htimedOut
  cases h
  simp_all

theorem reserve_cases (b : Boundary) :
    (∃ rc, b.reserve = (b, .error rc)) ∨
      (b.reserve = ({ b with issued := b.issued + 1 }, .ok (b.issued + 1)) ∧
        b.issued + 1 ≤ b.next + b.capacity) := by
  unfold reserve
  split
  · exact .inl ⟨_, rfl⟩
  split
  · exact .inl ⟨_, rfl⟩
  rename_i hroom
  refine .inr ⟨rfl, ?_⟩
  omega

/-- Leaving and canceling change neither capacity nor counts, and `next` does not go back. -/
structure SameCounts (b b' : Boundary) : Prop where
  capacity : b'.capacity = b.capacity
  waiting : b'.waiting = b.waiting
  issued : b'.issued = b.issued
  next_le : b.next ≤ b'.next

theorem sameCounts_leave (b : Boundary) (sequence : ℕ) : SameCounts b (b.leave sequence) := by
  unfold leave
  split
  · have hadv := advanced_advanceCanceled { b with active := false, next := b.next + 1 }
    exact ⟨hadv.capacity, hadv.waiting, hadv.issued, Nat.le_of_succ_le hadv.next_le⟩
  · exact ⟨rfl, rfl, rfl, le_refl _⟩

theorem sameCounts_cancel (b : Boundary) (sequence : ℕ) : SameCounts b (b.cancel sequence) := by
  unfold cancel
  split
  · exact ⟨rfl, rfl, rfl, le_refl _⟩
  split
  · have hadv := advanced_advanceCanceled { b with canceled := insert sequence b.canceled }
    exact ⟨hadv.capacity, hadv.waiting, hadv.issued, hadv.next_le⟩
  · exact ⟨rfl, rfl, rfl, le_refl _⟩

end Boundary

end TurboFlow.Reorder
