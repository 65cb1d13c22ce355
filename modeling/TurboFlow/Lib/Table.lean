import Mathlib.Algebra.Order.BigOperators.Group.List
import Mathlib.Algebra.Order.Ring.Nat
import Mathlib.Algebra.Order.Ring.Int

/-!
# Tallies over a table

Entries of a table are replaced, added and removed one at a time. `tally w t` is their total weight.
An update changes it by the weights it takes out and puts in, which keeps a maintained counter equal
to it.
-/

namespace Table

open List Option

def tally {α : Type*} (w : α → ℕ) (t : List α) : ℕ :=
  (t.map w).sum

variable {α : Type*} {w : α → ℕ} {t : List α} {i : ℕ} {a : α}

@[simp] theorem tally_nil : tally w [] = 0 := rfl

@[simp] theorem tally_cons : tally w (a :: t) = w a + tally w t := by
  simp [tally]

@[simp] theorem tally_append {u : List α} : tally w (t ++ u) = tally w t + tally w u := by
  simp [tally]

theorem tally_replicate_zero {n : ℕ} (h : w a = 0) : tally w (replicate n a) = 0 := by
  simp [tally, h]

theorem exists_around (h : t[i]? = some a) :
    ∃ before behind, t = before ++ a :: behind ∧ (∀ b, t.set i b = before ++ b :: behind) ∧
      t.eraseIdx i = before ++ behind := by
  obtain ⟨hi, rfl⟩ := List.getElem?_eq_some_iff.mp h
  refine ⟨t.take i, t.drop (i + 1), ?_, ?_, ?_⟩
  · rw [getElem_cons_drop, take_append_drop]
  · intro b
    rw [set_eq_take_append_cons_drop, if_pos hi]
  · exact eraseIdx_eq_take_drop_succ t i

theorem set_eq_self (h : t[i]? = some a) : t.set i a = t := by
  obtain ⟨before, behind, ht, hset, -⟩ := exists_around h
  rw [hset, ← ht]

theorem modify_eq_set (h : t[i]? = some a) (f : α → α) : t.modify i f = t.set i (f a) := by
  apply ext_getElem?
  intro j
  rw [getElem?_modify, getElem?_set]
  split
  · rename_i hij
    subst hij
    obtain ⟨hi, rfl⟩ := List.getElem?_eq_some_iff.mp h
    simp [hi]
  · simp

/-- Changing an entry exchanges its weight for that of the new one. -/
theorem tally_set (h : t[i]? = some a) (b : α) : tally w (t.set i b) + w a = tally w t + w b := by
  obtain ⟨before, behind, ht, hset, -⟩ := exists_around h
  rw [hset, ht]
  simp only [tally_append, tally_cons]
  omega

theorem tally_modify (h : t[i]? = some a) (f : α → α) :
    tally w (t.modify i f) + w a = tally w t + w (f a) := by
  rw [modify_eq_set h, tally_set h]

theorem tally_eraseIdx (h : t[i]? = some a) : tally w (t.eraseIdx i) + w a = tally w t := by
  obtain ⟨before, behind, ht, -, herase⟩ := exists_around h
  rw [herase, ht]
  simp only [tally_append, tally_cons]
  omega

theorem le_tally (h : t[i]? = some a) : w a ≤ tally w t := by
  have := tally_eraseIdx (w := w) h
  omega

theorem tally_add {v : α → ℕ} : tally (fun a => w a + v a) t = tally w t + tally v t :=
  sum_map_add

/-- Entries that weigh at most one tally to at most the length; a tally below it leaves an entry of
weight zero. -/
theorem tally_le_length (h : ∀ a ∈ t, w a ≤ 1) : tally w t ≤ t.length := by
  simpa [tally] using sum_le_card_nsmul (t.map w) 1 (forall_mem_map.mpr h)

theorem exists_of_tally_lt (h : ∀ a ∈ t, w a ≤ 1) (hlt : tally w t < t.length) :
    ∃ a ∈ t, w a = 0 := by
  by_contra hne
  push Not at hne
  have hone : ∀ a ∈ t, w a = 1 := by
    intro a ha
    have := h a ha
    have := hne a ha
    omega
  have : tally w t = t.length := by
    rw [tally, map_congr_left hone]
    simp
  omega

theorem forall_mem_modify {P : α → Prop} {f : α → α} (h : ∀ a ∈ t, P a)
    (hf : ∀ a, t[i]? = some a → P (f a)) : ∀ b ∈ t.modify i f, P b := by
  intro b hb
  obtain ⟨j, hj⟩ := mem_iff_getElem?.mp hb
  rw [getElem?_modify] at hj
  obtain ⟨a, ha, hab⟩ := map_eq_some_iff.mp hj
  split at hab
  · rename_i hij
    subst hij hab
    exact hf a ha
  subst hab
  exact h a (mem_of_getElem? ha)

/-- Where the entries have distinct keys, a removed entry leaves no other with its key. -/
theorem key_ne_of_mem_eraseIdx {β : Type*} {key : α → β} {b : α} (hnodup : (t.map key).Nodup)
    (h : t[i]? = some a) (hb : b ∈ t.eraseIdx i) : key b ≠ key a := by
  obtain ⟨before, behind, ht, -, herase⟩ := exists_around h
  rw [ht, map_append, map_cons, perm_middle.nodup_iff, ← map_append, nodup_cons] at hnodup
  intro heq
  exact hnodup.1 (List.mem_map.mpr ⟨b, herase ▸ hb, heq⟩)

theorem getElem?_set_cases {j : ℕ} {b c : α} (h : (t.set i b)[j]? = some c) :
    (i = j ∧ b = c) ∨ (i ≠ j ∧ t[j]? = some c) := by
  rw [getElem?_set] at h
  split_ifs at h with hij hi
  · exact .inl ⟨hij, some.inj h⟩
  · exact .inr ⟨hij, h⟩

theorem le_tally_of_mem (h : a ∈ t) : w a ≤ tally w t := by
  obtain ⟨i, hi⟩ := mem_iff_getElem?.mp h
  exact le_tally hi

theorem tally_eq_zero_iff : tally w t = 0 ↔ ∀ a ∈ t, w a = 0 := by
  rw [tally, List.sum_eq_zero_iff, List.forall_mem_map]

/-- `t'` is `t` with the entries `old` exchanged for the entries `new`, in any place. -/
structure Exchange (t t' old new : List α) : Prop where
  tally_add : ∀ w : α → ℕ, tally w t' + tally w old = tally w t + tally w new
  old_le : ∀ w : α → ℕ, tally w old ≤ tally w t
  mem_or : ∀ b ∈ t', b ∈ t ∨ b ∈ new

namespace Exchange

theorem refl (t : List α) : Exchange t t [] [] :=
  ⟨fun _ => rfl, fun _ => Nat.zero_le _, fun _ hb => Or.inl hb⟩

theorem append (t : List α) (b : α) : Exchange t (t ++ [b]) [] [b] where
  tally_add w := by simp
  old_le _ := Nat.zero_le _
  mem_or c hc := by simpa using hc

theorem modify (h : t[i]? = some a) (b : α) : Exchange t (t.modify i fun _ => b) [a] [b] where
  tally_add w := by simpa using tally_modify (w := w) h fun _ => b
  old_le w := by simpa using le_tally (w := w) h
  mem_or c hc := by
    rw [modify_eq_set h] at hc
    exact (mem_or_eq_of_mem_set hc).imp_right mem_singleton.mpr

theorem append_modify (h : t[i]? = some a) (b c : α) :
    Exchange t ((t ++ [c]).modify i fun _ => b) [a] [b, c] where
  tally_add w := by
    have hi : i < t.length := (List.getElem?_eq_some_iff.mp h).1
    have h' : (t ++ [c])[i]? = some a := by rw [getElem?_append_left hi, h]
    have hw := tally_modify (w := w) h' fun _ => b
    simp only [tally_append, tally_cons, tally_nil] at hw ⊢
    omega
  old_le w := by simpa using le_tally (w := w) h
  mem_or d hd := by
    have hi : i < t.length := (List.getElem?_eq_some_iff.mp h).1
    have h' : (t ++ [c])[i]? = some a := by rw [getElem?_append_left hi, h]
    rw [modify_eq_set h'] at hd
    rcases mem_or_eq_of_mem_set hd with hd | rfl
    · rcases mem_append.mp hd with hd | hd
      · exact Or.inl hd
      · exact Or.inr (mem_cons_of_mem _ hd)
    · exact Or.inr mem_cons_self

variable {t' old new : List α}

theorem mem_old (h : Exchange t t' old new) {b : α} (hb : b ∈ old) : b ∈ t := by
  classical
  by_contra hnot
  have hzero : tally (fun c => if c = b then 1 else 0) t = 0 :=
    tally_eq_zero_iff.mpr fun c hc => if_neg fun (heq : c = b) => hnot (heq ▸ hc)
  have hone := le_tally_of_mem (w := fun c => if c = b then 1 else 0) hb
  have hle := h.old_le fun c => if c = b then 1 else 0
  simp only [if_true] at hone
  omega

theorem tally_eq (h : Exchange t t' old new) (hw : ∀ b ∈ old ++ new, w b = 0) :
    tally w t' = tally w t := by
  have hold : tally w old = 0 := tally_eq_zero_iff.mpr fun b hb => hw b (mem_append_left _ hb)
  have hnew : tally w new = 0 := tally_eq_zero_iff.mpr fun b hb => hw b (mem_append_right _ hb)
  have hadd := h.tally_add w
  omega

end Exchange

end Table
