import Mathlib.Data.List.Sort
import Mathlib.Algebra.BigOperators.Group.List.Basic
import Mathlib.Algebra.Order.Ring.Int

/-!
# Rows of a relational table

A table is a list of rows. `update p f t` is `UPDATE … SET f WHERE p`, which affects `t.countP p`
rows. A statement that selects one row by a key splits the table around that row: `Selects`.
-/

namespace Rows

open List

variable {α β : Type*} {p : α → Bool} {f : α → α} {t before behind : List α} {a b : α}

def update (p : α → Bool) (f : α → α) (t : List α) : List α :=
  t.map fun a => if p a then f a else a

theorem update_eq_self (h : ∀ a ∈ t, p a = false) : update p f t = t := by
  rw [update, map_congr_left fun a ha => if_neg (by simp [h a ha])]
  exact map_id' t

theorem mem_update (h : b ∈ update p f t) :
    ∃ a ∈ t, p a = true ∧ b = f a ∨ p a = false ∧ b = a := by
  obtain ⟨a, ha, rfl⟩ := mem_map.mp h
  cases hp : p a with
  | true => exact ⟨a, ha, .inl ⟨hp, by simp⟩⟩
  | false => exact ⟨a, ha, .inr ⟨hp, by simp⟩⟩

/-- The condition `p` selects the row `a` of the table and no other. -/
structure Selects (p : α → Bool) (t before : List α) (a : α) (behind : List α) : Prop where
  split : t = before ++ a :: behind
  holds : p a = true
  others : ∀ b ∈ before ++ behind, p b = false

/-- A condition that affects one row selects it. -/
theorem exists_selects_of_countP (h : t.countP p = 1) :
    ∃ before a behind, Selects p t before a behind := by
  induction t with
  | nil => simp at h
  | cons c t ih =>
    cases hc : p c with
    | true =>
      have hzero : t.countP p = 0 := by
        rw [countP_cons_of_pos hc] at h
        omega
      refine ⟨[], c, t, rfl, hc, ?_⟩
      intro b hb
      simpa using countP_eq_zero.mp hzero b hb
    | false =>
      rw [countP_cons_of_neg (by simp [hc])] at h
      obtain ⟨before, a, behind, hsel⟩ := ih h
      refine ⟨c :: before, a, behind, by rw [hsel.split, cons_append], hsel.holds, ?_⟩
      rintro b hb
      rcases mem_cons.mp hb with rfl | hb
      · exact hc
      · exact hsel.others b hb

namespace Selects

/-- A row that meets the condition is selected when the rows have distinct keys and the condition
decides the key. -/
theorem of_mem {key : α → β} (hkeys : (t.map key).Nodup) (ha : a ∈ t) (hp : p a = true)
    (hkey : ∀ b ∈ t, p b = true → key b = key a) :
    ∃ before behind, Selects p t before a behind := by
  obtain ⟨before, behind, rfl⟩ := append_of_mem ha
  refine ⟨before, behind, rfl, hp, ?_⟩
  intro b hb
  by_contra hpb
  have hmem : b ∈ before ++ a :: behind := by
    rcases mem_append.mp hb with hb | hb
    · exact mem_append_left _ hb
    · exact mem_append_right _ (mem_cons_of_mem _ hb)
  have heq : key b = key a := hkey b hmem (by simpa using hpb)
  -- The key of the row in the middle occurs nowhere else.
  rw [map_append, map_cons, nodup_middle, nodup_cons, ← map_append, ← heq] at hkeys
  exact hkeys.1 (mem_map_of_mem hb)

section

variable (h : Selects p t before a behind)

include h

theorem mem : a ∈ t := by
  rw [h.split]
  simp

theorem countP : t.countP p = 1 := by
  have hbefore : before.countP p = 0 :=
    countP_eq_zero.mpr fun b hb => by simp [h.others b (mem_append_left _ hb)]
  have hbehind : behind.countP p = 0 :=
    countP_eq_zero.mpr fun b hb => by simp [h.others b (mem_append_right _ hb)]
  rw [h.split, countP_append, countP_cons_of_pos h.holds, hbefore, hbehind]

theorem filter : t.filter p = [a] := by
  have hbefore : before.filter p = [] :=
    filter_eq_nil_iff.mpr fun b hb => by simp [h.others b (mem_append_left _ hb)]
  have hbehind : behind.filter p = [] :=
    filter_eq_nil_iff.mpr fun b hb => by simp [h.others b (mem_append_right _ hb)]
  rw [h.split, filter_append, filter_cons_of_pos h.holds, hbefore, hbehind]
  rfl

theorem update (f : α → α) : Rows.update p f t = before ++ f a :: behind := by
  have hbefore : Rows.update p f before = before :=
    update_eq_self fun b hb => h.others b (mem_append_left _ hb)
  have hbehind : Rows.update p f behind = behind :=
    update_eq_self fun b hb => h.others b (mem_append_right _ hb)
  rw [Rows.update] at hbefore hbehind ⊢
  rw [h.split, map_append, map_cons, hbefore, hbehind, if_pos h.holds]

theorem filter_not : (t.filter fun b => !p b) = before ++ behind := by
  have hkeep : ∀ u ⊆ before ++ behind, (u.filter fun b => !p b) = u := by
    intro u hu
    exact filter_eq_self.mpr fun b hb => by simp [h.others b (hu hb)]
  rw [h.split, filter_append, filter_cons_of_neg (by simp [h.holds]),
    hkeep before (by simp), hkeep behind (by simp)]

end

end Selects

/-- `SELECT key FROM t WHERE p`. -/
def select (p : α → Bool) (key : α → β) (t : List α) : List β :=
  (t.filter p).map key

/-- What a query finds, taken apart around one row. -/
theorem select_around (key : α → β) :
    (select p key (before ++ a :: behind)).Perm
      (select p key [a] ++ select p key (before ++ behind)) := by
  have happend : ∀ t u, select p key (t ++ u) = select p key t ++ select p key u := by
    intro t u
    rw [select, filter_append, map_append]
    rfl
  rw [← singleton_append, happend, happend, happend]
  exact perm_append_comm_assoc _ _ _

/-- `ORDER BY` a key. -/
def orderBy (key : α → ℤ) (t : List α) : List α :=
  t.insertionSort fun a b => key a ≤ key b

theorem orderBy_eq {key : α → ℤ} (h : t.Pairwise fun a b => key a < key b) : orderBy key t = t :=
  (h.imp le_of_lt).insertionSort_eq

end Rows
