import Mathlib.Data.Finset.Card
import Mathlib.Algebra.Order.Ring.Int

/-!
# Exclusive keys

Slots hold keys, such as locks or partitions, and no two slots may hold one key. `held i` is the key
of slot `i`. Keys are released, and a slot acquires a key that no slot holds.

`Lists p held keys` says that `keys` names the keys of the slots in `p`, each once.
-/

namespace Exclusion

open List Option

variable {ι κ : Type*} {held held' : ι → Option κ} {p q : ι → Prop} {keys : List κ} {i : ι} {k : κ}

/-- No two slots hold one key. -/
def Apart (held : ι → Option κ) : Prop :=
  ∀ ⦃i j k⦄, held i = some k → held j = some k → i = j

theorem Apart.release (h : Apart held) (hheld : ∀ i, held' i = held i ∨ held' i = none) :
    Apart held' := by
  have hbefore : ∀ i k, held' i = some k → held i = some k := by
    intro i k hi
    rcases hheld i with hsame | hnone
    · rwa [← hsame]
    · simp [hnone] at hi
  intro i j k hi hj
  exact h (hbefore i k hi) (hbefore j k hj)

theorem Apart.acquire (h : Apart held) (hfresh : ∀ j, held j ≠ some k) (hi : held' i = some k)
    (hother : ∀ j, j ≠ i → held' j = held j) : Apart held' := by
  have hone : ∀ j, held' j = some k → j = i := by
    intro j hj
    by_contra hne
    rw [hother j hne] at hj
    exact hfresh j hj
  intro j j' k' hj hj'
  by_cases hk : k' = k
  · subst hk
    rw [hone j hj, hone j' hj']
  have hne : ∀ j, held' j = some k' → j ≠ i := by
    rintro j hj rfl
    exact hk (some.inj (hj.symm.trans hi))
  rw [hother j (hne j hj)] at hj
  rw [hother j' (hne j' hj')] at hj'
  exact h hj hj'

/-- The list names the keys of the slots in `p`, each once. -/
structure Lists (p : ι → Prop) (held : ι → Option κ) (keys : List κ) : Prop where
  nodup : keys.Nodup
  complete : ∀ i k, p i → held i = some k → k ∈ keys
  sound : ∀ k ∈ keys, ∃ i, p i ∧ held i = some k

theorem Lists.nil (h : ∀ i, p i → held i = none) : Lists p held [] where
  nodup := nodup_nil
  complete := by
    intro i k hi hk
    simp [h i hi] at hk
  sound := by simp

theorem Lists.congr (h : Lists p held keys)
    (hslots : ∀ i k, q i ∧ held' i = some k ↔ p i ∧ held i = some k) : Lists q held' keys where
  nodup := h.nodup
  complete := fun i k hi hk =>
    have hold := (hslots i k).mp ⟨hi, hk⟩
    h.complete i k hold.1 hold.2
  sound := by
    intro k hk
    obtain ⟨i, hi⟩ := h.sound k hk
    exact ⟨i, (hslots i k).mpr hi⟩

theorem Lists.snoc (h : Lists p held keys) (hapart : Apart held) (hvisited : ¬ p i)
    (hi : held i = some k) : Lists (fun j => p j ∨ j = i) held (keys ++ [k]) where
  nodup := by
    refine nodup_append_comm.mpr (nodup_cons.mpr ⟨fun hk => ?_, h.nodup⟩)
    obtain ⟨j, hj, hheld⟩ := h.sound _ hk
    exact hvisited (hapart hheld hi ▸ hj)
  complete := by
    rintro j k' (hj | rfl) hk'
    · exact mem_append_left _ (h.complete j k' hj hk')
    obtain rfl := some.inj (hi.symm.trans hk')
    exact mem_append_right _ (mem_singleton_self _)
  sound := by
    refine forall_mem_append.mpr ⟨fun k' hk' => ?_, forall_mem_singleton.mpr ⟨i, Or.inr rfl, hi⟩⟩
    obtain ⟨j, hj, hheld⟩ := h.sound k' hk'
    exact ⟨j, Or.inl hj, hheld⟩

/-- A list that names all keys in use has no key that could be acquired. -/
theorem Lists.not_held (h : Lists (fun _ => True) held keys) (hk : k ∉ keys) (i : ι) :
    held i ≠ some k :=
  fun hi => hk (h.complete i k trivial hi)

/-- The number of slots in use is bounded where only the first slots are used. -/
theorem card_inUse_le {held : ℕ → Option κ} {n m : ℕ} (h : ∀ i, (held i).isSome → i < m) :
    ((Finset.range n).filter fun i => (held i).isSome).card ≤ m := by
  calc ((Finset.range n).filter fun i => (held i).isSome).card
      ≤ (Finset.range m).card := by
        refine Finset.card_le_card fun i hi => ?_
        exact Finset.mem_range.mpr (h i (Finset.mem_filter.mp hi).2)
    _ = m := Finset.card_range m

end Exclusion
