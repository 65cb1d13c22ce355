import Mathlib.Algebra.Order.Ring.Int

/-!
# Versioned cells

A cell carries the number of its writes as a revision. Where every write raises it, a reader can
tell later, by the revision alone, whether the cell has been written since, also where a value was
removed and put back. `Later c c'` relates what a reader saw to what it finds later.
-/

namespace Version

/-- A value and the number of its writes. -/
structure Cell (ν : Type*) where
  value : ν
  revision : ℕ
  deriving DecidableEq

variable {ν : Type*} {c c' c'' : Option (Cell ν)}

/-- `c'` is `c` at a later moment: a cell stays, and it is the same one while its revision is. -/
def Later (c c' : Option (Cell ν)) : Prop :=
  ∀ x, c = some x → ∃ y, c' = some y ∧ x.revision ≤ y.revision ∧ (y.revision = x.revision → y = x)

theorem Later.refl (c : Option (Cell ν)) : Later c c :=
  fun x hx => ⟨x, hx, le_refl _, fun _ => rfl⟩

theorem Later.trans (h : Later c c') (h' : Later c' c'') : Later c c'' := by
  intro x hx
  obtain ⟨y, hy, hxy, heq⟩ := h x hx
  obtain ⟨z, hz, hyz, heq'⟩ := h' y hy
  refine ⟨z, hz, Nat.le_trans hxy hyz, fun hzx => ?_⟩
  have hzy : z.revision = y.revision := by omega
  rw [heq' hzy] at hzx ⊢
  exact heq hzx

theorem Later.none : Later none c := by
  intro x hx
  cases hx

theorem Later.write (x : Cell ν) (v : ν) : Later (some x) (some ⟨v, x.revision + 1⟩) := by
  intro y hy
  cases hy
  refine ⟨_, rfl, Nat.le_succ _, fun h => ?_⟩
  simp at h

/-- The cell has been written since it was observed, or it was missing and is there now. -/
def conflict (observed current : Option (Cell ν)) : Bool :=
  match observed, current with
  | .none, current => current.isSome
  | some _, .none => true
  | some x, some y => y.revision ≠ x.revision

@[simp] theorem conflict_self (c : Option (Cell ν)) : conflict c c = false := by
  cases c <;> simp [conflict]

/-- A reader that finds no conflict finds what it saw. -/
theorem Later.eq_of_not_conflict (h : Later c c') (hc : conflict c c' = false) : c' = c := by
  cases c with
  | none => simpa [conflict] using hc
  | some x =>
    obtain ⟨y, rfl, -, heq⟩ := h x rfl
    rw [heq (by simpa [conflict] using hc)]

end Version
