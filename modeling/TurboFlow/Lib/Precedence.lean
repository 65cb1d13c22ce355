import Mathlib.Data.List.Nodup
import Mathlib.Algebra.Order.Ring.Int

/-!
# Lists in an order of precedence

`Ordered R l` says that every predecessor of an entry of `l`, in the sense of `R`, stands before
that entry. So a list in such an order has no gaps: it contains all ancestors of its entries.
-/

namespace Precedence

open List

variable {α : Type*} {R : α → α → Prop} {l l' : List α} {a c d : α}

theorem split_snoc {pre post : List α} (h : l ++ [c] = pre ++ d :: post) :
    (pre = l ∧ d = c) ∨ ∃ post', l = pre ++ d :: post' := by
  rcases eq_nil_or_concat post with rfl | ⟨post, last, rfl⟩
  · obtain ⟨hpre, hlast⟩ := append_inj' h rfl
    exact Or.inl ⟨hpre.symm, (singleton_inj.mp hlast).symm⟩
  have hsplit : l ++ [c] = (pre ++ d :: post) ++ [last] := by simpa using h
  exact Or.inr ⟨post, (append_inj' hsplit rfl).1⟩

/-- Every predecessor of an entry stands before it. -/
def Ordered (R : α → α → Prop) (l : List α) : Prop :=
  ∀ pre c post, l = pre ++ c :: post → ∀ a, R a c → a ∈ pre

theorem Ordered.nil : Ordered R [] := by
  intro pre c post h
  simp at h

/-- An entry may be appended when all its predecessors are there. -/
theorem Ordered.snoc (h : Ordered R l) (hc : ∀ a, R a c → a ∈ l) : Ordered R (l ++ [c]) := by
  intro pre d post hsplit a ha
  rcases split_snoc hsplit with ⟨rfl, rfl⟩ | ⟨post', hsplit'⟩
  · exact hc a ha
  · exact h pre d post' hsplit' a ha

theorem Ordered.mono {S : α → α → Prop} (h : Ordered R l) (hmono : ∀ a, ∀ c ∈ l, S a c → R a c) :
    Ordered S l := by
  intro pre c post hsplit a ha
  exact h pre c post hsplit a (hmono a c (by simp [hsplit]) ha)

/-- The ancestors of an entry stand before it, too. -/
theorem Ordered.transGen (h : Ordered R l) : Ordered (Relation.TransGen R) l := by
  intro pre c post hsplit a hac
  induction hac using Relation.TransGen.head_induction_on with
  | single hac => exact h pre c post hsplit _ hac
  | @head a b hab _ ih =>
    obtain ⟨pre', post', rfl⟩ := append_of_mem ih
    have hb : a ∈ pre' := h pre' b (post' ++ c :: post) (by simp [hsplit]) a hab
    exact mem_append_left _ hb

theorem Ordered.filter (h : Ordered R l) (p : α → Bool) :
    Ordered (fun a c => R a c ∧ p a = true) (l.filter p) := by
  intro pre c post hsplit a ⟨hac, ha⟩
  obtain ⟨l₁, l₂, rfl, hl₁, hl₂⟩ := filter_eq_append_iff.mp hsplit
  obtain ⟨l₃, l₄, rfl, hl₃, -⟩ := filter_eq_cons_iff.mp hl₂
  have hmem : a ∈ l₁ ++ l₃ := h (l₁ ++ l₃) c l₄ (by simp) a hac
  rw [← hl₁, mem_filter]
  refine ⟨?_, ha⟩
  rcases mem_append.mp hmem with hmem | hmem
  · exact hmem
  · exact absurd ha (hl₃ a hmem)

theorem Ordered.not_mem_of_last (h : Ordered R (l ++ [c])) (hnodup : (l ++ [c]).Nodup)
    (hcd : Relation.TransGen R c d) : d ∉ l ++ [c] := by
  intro hmem
  obtain ⟨pre, post, hsplit⟩ := append_of_mem hmem
  have hc : c ∈ pre := h.transGen pre d post hsplit c hcd
  have hl : c ∈ l := by
    rcases split_snoc hsplit with ⟨rfl, -⟩ | ⟨post', rfl⟩
    · exact hc
    · exact mem_append_left _ hc
  exact (nodup_append.mp hnodup).2.2 c hl c (by simp) rfl

end Precedence
