import Mathlib.Algebra.Order.Ring.Int

/-!
# Branches of a relation

Two vertices below a common one are comparable, or the paths to them part (`comparable_or_part`). A
vertex `m` is comparable with everything below a branch as soon as no single step leads out of the
vertices above `m` (`comparable_of_steps`).
-/

namespace Branches

open Relation (ReflTransGen TransGen)

variable {α : Type*} {R : α → α → Prop} {a b m x : α}

/-- One of the two leads to the other. -/
def Comparable (R : α → α → Prop) (a b : α) : Prop :=
  ReflTransGen R a b ∨ ReflTransGen R b a

/-- Two paths from one vertex part at some vertex, unless one ends on the other. -/
theorem comparable_or_part (hx : ReflTransGen R a x) (hm : ReflTransGen R a m) :
    Comparable R x m ∨ ∃ f b c, R f b ∧ R f c ∧ b ≠ c ∧ ReflTransGen R b x ∧
      ReflTransGen R c m := by
  induction hx using ReflTransGen.head_induction_on with
  | refl => exact .inl (.inl hm)
  | @head a b hab hbx ih =>
    rcases ReflTransGen.cases_head hm with rfl | ⟨c, hac, hcm⟩
    · exact .inl (.inr (.head hab hbx))
    by_cases hbc : b = c
    · exact ih (hbc ▸ hcm)
    · exact .inr ⟨a, b, c, hab, hac, hbc, hbx, hcm⟩

/-- A vertex `m` is comparable with everything below `b` if it is with `b` and with what is one step
away from the vertices between `b` and `m`. -/
theorem comparable_of_steps (hb : Comparable R b m)
    (hsteps : ∀ v w, ReflTransGen R b v → ReflTransGen R v m → R v w → Comparable R w m)
    (hx : ReflTransGen R b x) : Comparable R x m := by
  induction hx with
  | refl => exact hb
  | @tail v w hbv hvw ih =>
    rcases ih with hvm | hmv
    · exact hsteps v w hbv hvm hvw
    · exact .inr (hmv.tail hvw)

theorem Comparable.transGen (h : Comparable R a b) (hne : a ≠ b) :
    TransGen R a b ∨ TransGen R b a := by
  rcases h with h | h
  · exact .inl ((Relation.reflTransGen_iff_eq_or_transGen.mp h).resolve_left hne.symm)
  · exact .inr ((Relation.reflTransGen_iff_eq_or_transGen.mp h).resolve_left hne)

end Branches
