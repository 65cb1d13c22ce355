import Mathlib.Algebra.Order.BigOperators.Group.List
import Mathlib.Algebra.Order.Group.Nat
import Mathlib.Data.List.AList
import Mathlib.Algebra.Order.Ring.Int

/-!
# Totals over a map

A map that charges every entry has a total. Writing an entry replaces the share of its key
(`total_insert`), the one rule that an account beside the map has to follow.
-/

namespace Totals

open List Option

section Sums

variable {α : Type*} {β : α → Type*}

def total (f : ∀ a, β a → ℕ) (s : AList β) : ℕ :=
  (s.entries.map fun e => f e.1 e.2).sum

theorem total_add (f g : ∀ a, β a → ℕ) (s : AList β) :
    total (fun a b => f a b + g a b) s = total f s + total g s :=
  sum_map_add

theorem length_eq_total (s : AList β) : s.entries.length = total (fun _ _ => 1) s := by
  simp [total]

theorem countP_eq_total (p : ∀ a, β a → Bool) (s : AList β) :
    s.entries.countP (fun e => p e.1 e.2) = total (fun a b => if p a b = true then 1 else 0) s := by
  unfold total
  induction s.entries with
  | nil => rfl
  | cons e l ih => simp [countP_cons, ih, Nat.add_comm]

end Sums

section Writes

variable {α : Type*} [DecidableEq α] {β : α → Type*}

/-- What the entry under a key adds, if there is one. -/
def share (f : ∀ a, β a → ℕ) (s : AList β) (a : α) : ℕ :=
  ((s.lookup a).map (f a)).getD 0

section

variable (f : ∀ a, β a → ℕ)
include f

theorem sum_kerase (a : α) (l : List (Sigma β)) :
    ((l.kerase a).map fun e => f e.1 e.2).sum + ((l.dlookup a).map (f a)).getD 0 =
      (l.map fun e => f e.1 e.2).sum := by
  induction l with
  | nil => rfl
  | cons e l ih =>
    obtain ⟨a', b'⟩ := e
    by_cases h : a = a'
    · subst h
      have herase : List.kerase a (⟨a, b'⟩ :: l) = l := kerase_cons_eq rfl
      rw [herase, dlookup_cons_eq]
      simp [Nat.add_comm]
    have herase : List.kerase a (⟨a', b'⟩ :: l) = ⟨a', b'⟩ :: List.kerase a l := kerase_cons_ne h
    rw [herase, dlookup_cons_ne _ ⟨a', b'⟩ h]
    simp only [map_cons, sum_cons]
    omega

theorem total_insert (s : AList β) (a : α) (b : β a) :
    total f (s.insert a b) + share f s a = total f s + f a b := by
  have h := sum_kerase f a s.entries
  unfold total share AList.lookup
  rw [AList.entries_insert]
  simp only [map_cons, sum_cons]
  omega

theorem share_le_total (s : AList β) (a : α) : share f s a ≤ total f s := by
  have h := sum_kerase f a s.entries
  unfold total share AList.lookup
  omega

theorem total_single (s : AList β) (a : α) :
    total (fun a' b => if a' = a then f a' b else 0) s = share f s a := by
  obtain ⟨l, hl⟩ := s
  unfold total share AList.lookup
  simp only
  induction l with
  | nil => rfl
  | cons e l ih =>
    obtain ⟨a', b'⟩ := e
    obtain ⟨hnot, hl'⟩ := nodupKeys_cons.mp hl
    have hrest := ih hl'
    simp only [map_cons, sum_cons]
    by_cases h : a' = a
    · subst h
      have hnone : l.dlookup a' = none := dlookup_eq_none.mpr hnot
      rw [hnone] at hrest
      rw [dlookup_cons_eq]
      simp only [if_true, map_some, getD_some, map_none, getD_none] at hrest ⊢
      omega
    rw [dlookup_cons_ne _ ⟨a', b'⟩ (Ne.symm h), if_neg h]
    omega

end

end Writes

end Totals
