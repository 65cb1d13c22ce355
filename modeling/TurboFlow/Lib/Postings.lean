import Mathlib.Data.List.Basic
import Mathlib.Order.Nat
import Mathlib.Algebra.Order.Ring.Int

/-!
# Indexes over the positions of a list

An index maps a key to the positions of its entries, and is built one entry after the other. A
search keeps the least position that passes, in whatever order it looks: `Least` says what it has
found so far, and `Least.eq_findIdx` that this is the first of the list.
-/

namespace Postings

open List

variable {κ : Type*} [DecidableEq κ]

def postings (index : κ → Option (List ℕ)) (key : κ) : List ℕ :=
  (index key).getD []

/-- Push a position to the list of its key, which is created where it is missing. -/
def post (index : κ → Option (List ℕ)) (key : κ) (i : ℕ) : κ → Option (List ℕ) :=
  Function.update index key <|
    match index key with
    | some is => some (is ++ [i])
    | none => some [i]

@[simp] theorem postings_post_self (index : κ → Option (List ℕ)) (key : κ) (i : ℕ) :
    postings (post index key i) key = postings index key ++ [i] := by
  unfold post postings
  rw [Function.update_self]
  cases index key with
  | some is => rfl
  | none => rfl

variable {α : Type*} {i : ℕ} {index : κ → Option (List ℕ)} {key key' : κ} {l : List α}

theorem postings_post_of_ne (h : key' ≠ key) (i : ℕ) :
    postings (post index key i) key' = postings index key' := by
  rw [postings, post, Function.update_of_ne h, postings]

theorem mem_postings_post {j : ℕ} :
    j ∈ postings (post index key i) key' ↔ j ∈ postings index key' ∨ (j = i ∧ key = key') := by
  by_cases h : key' = key
  · subst h
    simp
  rw [postings_post_of_ne h]
  simp [Ne.symm h]

theorem exists_getElem?_snoc {as : List α} {a : α} {P : α → Prop} :
    (∃ b, (as ++ [a])[i]? = some b ∧ P b) ↔
      (∃ b, as[i]? = some b ∧ P b) ∨ (i = as.length ∧ P a) := by
  rcases Nat.lt_trichotomy i as.length with hlt | rfl | hgt
  · rw [getElem?_append_left hlt]
    simp [Nat.ne_of_lt hlt]
  · simp
  have hnone : (as ++ [a])[i]? = none := by
    rw [List.getElem?_eq_none_iff]
    simp
    omega
  have hnone' : as[i]? = none := by
    rw [List.getElem?_eq_none_iff]
    omega
  simp [hnone, hnone', Nat.ne_of_gt hgt]

/-- A loop that replaces the values at some positions. -/
theorem foldl_update {β : Type*} [DecidableEq α] (p : α → Bool) (g : α → β → β) (hl : l.Nodup)
    (f : α → β) (x : α) :
    l.foldl (fun f a => if p a = true then Function.update f a (g a (f a)) else f) f x =
      if x ∈ l ∧ p x = true then g x (f x) else f x := by
  induction l generalizing f with
  | nil => simp
  | cons a l ih =>
    obtain ⟨ha, hl⟩ := nodup_cons.mp hl
    rw [foldl_cons, ih hl]
    by_cases hxa : x = a
    · subst hxa
      simp only [ha, false_and, if_false, mem_cons, true_or, true_and]
      split
      · rw [Function.update_self]
      · rfl
    have hsame : (if p a = true then Function.update f a (g a (f a)) else f) x = f x := by
      split
      · rw [Function.update_of_ne hxa]
      · rfl
    simp only [hsame, mem_cons, hxa, false_or]

/-- A loop of fallible steps: what one step establishes holds for every entry in the end. -/
theorem foldlM_ok {σ ε : Type*} {f : σ → α → Except ε σ} {P : σ → Prop} {D : α → σ → Prop}
    (hstep : ∀ s a s', P s → f s a = .ok s' → P s' ∧ D a s' ∧ ∀ b, D b s → D b s') {s s' : σ}
    (hs : P s) (h : l.foldlM f s = .ok s') : P s' ∧ (∀ a ∈ l, D a s') ∧ ∀ b, D b s → D b s' := by
  induction l generalizing s with
  | nil =>
    cases h
    exact ⟨hs, by simp, fun _ hb => hb⟩
  | cons a l ih =>
    rw [foldlM_cons] at h
    cases ha : f s a with
    | error e =>
      rw [ha] at h
      cases h
    | ok t =>
      rw [ha] at h
      obtain ⟨ht, hDa, hkeep⟩ := hstep s a t hs ha
      obtain ⟨hs', hDl, hkeep'⟩ := ih ht h
      refine ⟨hs', fun b hb => ?_, fun b hb => hkeep' b (hkeep b hb)⟩
      rcases mem_cons.mp hb with rfl | hb
      · exact hkeep' b hDa
      · exact hDl b hb

/-- `best` is the least position of `S`, or `top` where `S` is empty. -/
structure Least (top : ℕ) (S : ℕ → Prop) (best : ℕ) : Prop where
  le : ∀ i, S i → best ≤ i
  found : best = top ∨ S best

variable {top best : ℕ} {S T : ℕ → Prop}

theorem Least.empty : Least top (fun _ => False) top :=
  ⟨fun _ h => h.elim, Or.inl rfl⟩

theorem Least.congr (h : Least top S best) (hST : ∀ i, S i ↔ T i) : Least top T best :=
  ⟨fun i hi => h.le i ((hST i).mpr hi), h.found.imp_right (hST best).mp⟩

/-- Keep a position where it is less than the best one so far. -/
def keep (top best i : ℕ) : ℕ :=
  if best = top ∨ i < best then i else best

theorem Least.keep (h : Least top S best) (hi : i < top) :
    Least top (fun j => S j ∨ j = i) (keep top best i) := by
  unfold Postings.keep
  split
  · rename_i hless
    refine ⟨?_, Or.inr (Or.inr rfl)⟩
    rintro j (hj | rfl)
    · have := h.le j hj
      omega
    · exact le_rfl
  rename_i hless
  refine ⟨?_, h.found.imp_right Or.inl⟩
  rintro j (hj | rfl)
  · exact h.le j hj
  · omega

theorem Least.unique {best' : ℕ} (h : Least top S best) (h' : Least top S best')
    (htop : ∀ i, S i → i < top) : best = best' := by
  rcases h.found with rfl | hS
  · rcases h'.found with rfl | hS'
    · rfl
    have := h.le best' hS'
    have := htop best' hS'
    omega
  rcases h'.found with rfl | hS'
  · have := h'.le best hS
    have := htop best hS
    omega
  · exact Nat.le_antisymm (h.le best' hS') (h'.le best hS)

theorem least_findIdx (as : List α) (p : α → Bool) :
    Least top (fun i => ∃ a, as[i]? = some a ∧ p a = true) ((as.findIdx? p).getD top) := by
  cases h : as.findIdx? p with
  | none =>
    have hnone : ∀ a ∈ as, p a = false := findIdx?_eq_none_iff.mp h
    refine ⟨fun i hi => ?_, Or.inl rfl⟩
    obtain ⟨a, ha, hpa⟩ := hi
    rw [hnone a (mem_of_getElem? ha)] at hpa
    cases hpa
  | some k =>
    obtain ⟨hk, hpk, hbefore⟩ := findIdx?_eq_some_iff_getElem.mp h
    refine ⟨fun i hi => ?_, Or.inr ⟨as[k], getElem?_eq_getElem hk, hpk⟩⟩
    obtain ⟨a, ha, hpa⟩ := hi
    by_contra hlt
    obtain ⟨hi, rfl⟩ := List.getElem?_eq_some_iff.mp ha
    exact hbefore i (Nat.lt_of_not_le hlt) hpa

end Postings
