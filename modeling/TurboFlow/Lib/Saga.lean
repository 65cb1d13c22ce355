import Mathlib.Algebra.Order.BigOperators.Group.List
import Mathlib.Algebra.Order.Group.Nat
import Mathlib.Order.Nat
import Mathlib.Algebra.Order.Ring.Int

/-!
# Passes of fallible effects and their compensation

A table is brought to a new state by effects that may fail; an outcome carries the number of the
next effect. A `pass` stops at the first entry that fails; a `sweep` goes backwards, does not stop
at a failure and reports the first one.

`forall₂_pass` says what an entry may have become however far the effects got, `forall₂_pass_of_ok`
and `forall₂_sweep_of_ok` what it is where all succeeded. `pass_spends` and `sweep_spends` count
effects.
-/

namespace Saga

open List
open List (Forall₂)

/-- What the effects on a value leave behind. -/
structure Outcome (α ε : Type*) where
  value : α
  next : ℕ
  status : ε

variable {α ε : Type*} {ok : ε} {f : ℕ → α → Outcome α ε}

/-- The outcome reports on the effects numbered from `n` up to its next one: it is `ok` exactly when
they were. -/
structure Reports (ok : ε) (answer : ℕ → ε) (n : ℕ) {β : Type*} (r : Outcome β ε) : Prop where
  le : n ≤ r.next
  ok_iff : r.status = ok ↔ ∀ m, n ≤ m → m < r.next → answer m = ok

variable {as : List α} {R : α → α → Prop} {β γ : Type*} {bs : List β} {n : ℕ} {after before : α → ℕ}
  {answer : ℕ → ε}

/-- Two outcomes, the second after the first, report on the effects of both. -/
theorem Reports.append {r : Outcome β ε} {r' : Outcome γ ε} (h : Reports ok answer n r)
    (h' : Reports ok answer r.next r') :
    n ≤ r'.next ∧
      ((r.status = ok ∧ r'.status = ok) ↔ ∀ m, n ≤ m → m < r'.next → answer m = ok) := by
  refine ⟨h.le.trans h'.le, ?_⟩
  rw [h.ok_iff, h'.ok_iff]
  constructor
  · rintro ⟨hfirst, hsecond⟩ m hm hlt
    rcases Nat.lt_or_ge m r.next with hbefore | hafter
    · exact hfirst m hm hbefore
    · exact hsecond m hafter hlt
  intro hall
  exact ⟨fun m hm hlt => hall m hm (hlt.trans_le h'.le), fun m hm hlt => hall m (h.le.trans hm) hlt⟩

theorem forall₂_trans {R : α → β → Prop} {S : β → γ → Prop} {T : α → γ → Prop}
    (hcomp : ∀ a b c, R a b → S b c → T a c) {cs : List γ} (h : Forall₂ R as bs)
    (h' : Forall₂ S bs cs) : Forall₂ T as cs := by
  induction h generalizing cs with
  | nil =>
    rw [forall₂_nil_left_iff.mp h']
    exact Forall₂.nil
  | cons hab _ ih =>
    obtain ⟨c, cs', hbc, hrest, rfl⟩ := forall₂_cons_left_iff.mp h'
    exact Forall₂.cons (hcomp _ _ _ hab hbc) (ih hrest)

theorem map_eq_of_forall₂ {f : α → γ} {g : β → γ} (h : Forall₂ (fun a b => g b = f a) as bs) :
    bs.map g = as.map f := by
  rw [eq_comm, ← forall₂_eq_eq_eq, forall₂_map_left_iff, forall₂_map_right_iff]
  exact h.imp fun _ _ => Eq.symm

theorem exists_of_forall₂ {R : α → β → Prop} (h : Forall₂ R as bs) {b : β} (hb : b ∈ bs) :
    ∃ a ∈ as, R a b := by
  induction h with
  | nil => simp at hb
  | cons hab _ ih =>
    rcases mem_cons.mp hb with rfl | hb
    · exact ⟨_, mem_cons_self, hab⟩
    obtain ⟨a, ha, hR⟩ := ih hb
    exact ⟨a, mem_cons_of_mem _ ha, hR⟩

variable [DecidableEq ε]

/-- Visit the entries in order and stop at the first failure. -/
def pass (ok : ε) (f : ℕ → α → Outcome α ε) (n : ℕ) : List α → Outcome (List α) ε
  | [] => ⟨[], n, ok⟩
  | a :: as =>
    let r := f n a
    if r.status = ok then
      let rest := pass ok f r.next as
      ⟨r.value :: rest.value, rest.next, rest.status⟩
    else ⟨r.value :: as, r.next, r.status⟩

/-- Visit the entries in reverse order, whatever fails, and report the first failure. -/
def sweep (ok : ε) (f : ℕ → α → Outcome α ε) (n : ℕ) : List α → Outcome (List α) ε
  | [] => ⟨[], n, ok⟩
  | a :: as =>
    let rest := sweep ok f n as
    let r := f rest.next a
    ⟨r.value :: rest.value, r.next, if rest.status = ok then r.status else rest.status⟩

theorem forall₂_pass (hrefl : ∀ a, R a a) (hf : ∀ n a, R a (f n a).value) (n : ℕ) (as : List α) :
    Forall₂ R as (pass ok f n as).value := by
  induction as generalizing n with
  | nil => exact Forall₂.nil
  | cons a as ih =>
    rw [pass]
    split
    · exact Forall₂.cons (hf n a) (ih _)
    · exact Forall₂.cons (hf n a) (forall₂_same.mpr fun b _ => hrefl b)

theorem forall₂_pass_of_ok (hf : ∀ n a, (f n a).status = ok → R a (f n a).value)
    (h : (pass ok f n as).status = ok) : Forall₂ R as (pass ok f n as).value := by
  induction as generalizing n with
  | nil => exact Forall₂.nil
  | cons a as ih =>
    rw [pass] at h ⊢
    split at h
    · rename_i hok
      rw [if_pos hok]
      exact Forall₂.cons (hf n a hok) (ih h)
    rename_i hfail
    exact absurd h hfail

theorem forall₂_sweep_of_ok (hf : ∀ n a, (f n a).status = ok → R a (f n a).value)
    (h : (sweep ok f n as).status = ok) : Forall₂ R as (sweep ok f n as).value := by
  induction as with
  | nil => exact Forall₂.nil
  | cons a as ih =>
    simp only [sweep] at h
    split at h
    · rename_i hrest
      exact Forall₂.cons (hf _ a h) (ih hrest)
    rename_i hrest
    exact absurd h hrest

/-- What the entries may spend pays for the effects of a pass and for what they may spend after
it. -/
theorem pass_spends (hf : ∀ n, ∀ a ∈ as, (f n a).next + after (f n a).value ≤ n + before a)
    (hskip : ∀ a ∈ as, after a ≤ before a) (n : ℕ) :
    (pass ok f n as).next + ((pass ok f n as).value.map after).sum ≤ n + (as.map before).sum := by
  induction as generalizing n with
  | nil => simp [pass]
  | cons a as ih =>
    have hhead := hf n a mem_cons_self
    rw [pass]
    split
    · have htail := ih (fun n b hb => hf n b (mem_cons_of_mem a hb))
        (fun b hb => hskip b (mem_cons_of_mem a hb)) (f n a).next
      simp only [map_cons, sum_cons]
      omega
    have hrest : (as.map after).sum ≤ (as.map before).sum :=
      sum_le_sum fun b hb => hskip b (mem_cons_of_mem a hb)
    simp only [map_cons, sum_cons]
    omega

theorem sweep_spends (hf : ∀ n a, (f n a).next + after (f n a).value ≤ n + before a) (n : ℕ)
    (as : List α) :
    (sweep ok f n as).next + ((sweep ok f n as).value.map after).sum ≤ n + (as.map before).sum := by
  induction as with
  | nil => simp [sweep]
  | cons a as ih =>
    have hhead := hf (sweep ok f n as).next a
    simp only [sweep, map_cons, sum_cons]
    omega

theorem reports_sweep (hf : ∀ n a, Reports ok answer n (f n a)) (n : ℕ) (as : List α) :
    Reports ok answer n (sweep ok f n as) := by
  induction as with
  | nil => exact ⟨le_rfl, by simp only [sweep, true_iff]; omega⟩
  | cons a as ih =>
    have hhead := hf (sweep ok f n as).next a
    refine ⟨ih.le.trans hhead.le, ?_⟩
    have hboth : (sweep ok f n (a :: as)).status = ok ↔
        (sweep ok f n as).status = ok ∧ (f (sweep ok f n as).next a).status = ok := by
      simp only [sweep]
      split <;> simp_all
    rw [hboth, ih.ok_iff, hhead.ok_iff]
    constructor
    · rintro ⟨htail, hlast⟩ m hm hlt
      rcases Nat.lt_or_ge m (sweep ok f n as).next with hbefore | hafter
      · exact htail m hm hbefore
      · exact hlast m hafter hlt
    intro hall
    exact ⟨fun m hm hlt => hall m hm (hlt.trans_le hhead.le),
      fun m hm hlt => hall m (ih.le.trans hm) hlt⟩

end Saga
