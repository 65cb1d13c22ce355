import Mathlib.Data.List.Induction
import Mathlib.Algebra.Order.Ring.Int

/-!
# Runs of a labelled transition relation

`Run step s₀ tr s` says that the labels `tr` lead from `s₀` to `s`. The rules are `Run.invariant`
for the reached state, `Run.invariant_trace` for state and trace, `Run.split` for two moments,
`AtMostOnce.of_mark` for events that cannot happen twice, and `Run.simulate` and `Run.refine`.

`Acts act` is the transition relation of a function `act : σ → ι → Option (σ × ο)` that is undefined
where an operation is not enabled, and `exec` runs a list of operations.
-/

namespace Transition

open List

/-- The labels `tr` lead from `s₀` to the final state. -/
inductive Run {σ ε : Type*} (step : σ → ε → σ → Prop) (s₀ : σ) : List ε → σ → Prop
  | nil : Run step s₀ [] s₀
  | snoc {tr : List ε} {s s' : σ} {e : ε} :
      Run step s₀ tr s → step s e s' → Run step s₀ (tr ++ [e]) s'

namespace Run

variable {σ ε : Type*} {step : σ → ε → σ → Prop} {s₀ s s' : σ} {tr tr' : List ε}

/-- A property of the initial state that every step keeps holds in every reached state. -/
theorem invariant {P : σ → Prop} (h : Run step s₀ tr s) (h₀ : P s₀)
    (hstep : ∀ s e s', P s → step s e s' → P s') : P s := by
  induction h with
  | nil => exact h₀
  | snoc _ hs ih => exact hstep _ _ _ ih hs

/-- The invariant rule for properties of the trace and the state it leads to. -/
theorem invariant_trace {P : List ε → σ → Prop} (h : Run step s₀ tr s) (h₀ : P [] s₀)
    (hstep : ∀ tr s e s', P tr s → step s e s' → P (tr ++ [e]) s') : P tr s := by
  induction h with
  | nil => exact h₀
  | snoc _ hs ih => exact hstep _ _ _ _ ih hs

theorem append (h : Run step s₀ tr s) (h' : Run step s tr' s') : Run step s₀ (tr ++ tr') s' := by
  induction h' with
  | nil => simpa using h
  | snoc _ hs ih =>
    rw [← append_assoc]
    exact snoc ih hs

theorem nil_iff : Run step s [] s' ↔ s' = s := by
  constructor
  · intro h
    generalize hw : ([] : List ε) = w at h
    cases h with
    | nil => rfl
    | snoc => simp at hw
  rintro rfl
  exact nil

theorem snoc_iff {e : ε} : Run step s₀ (tr ++ [e]) s' ↔ ∃ s, Run step s₀ tr s ∧ step s e s' := by
  constructor
  · intro h
    generalize hw : tr ++ [e] = w at h
    cases h with
    | nil => simp at hw
    | snoc h hs =>
      obtain ⟨rfl, hx⟩ := append_inj' hw rfl
      obtain rfl := singleton_inj.mp hx
      exact ⟨_, h, hs⟩
  rintro ⟨s, h, hs⟩
  exact snoc h hs

theorem single_iff {e : ε} : Run step s [e] s' ↔ step s e s' := by
  rw [← nil_append [e], snoc_iff]
  simp [nil_iff]

theorem split (h : Run step s₀ (tr ++ tr') s') : ∃ s, Run step s₀ tr s ∧ Run step s tr' s' := by
  induction tr' using List.reverseRecOn generalizing s' with
  | nil => exact ⟨s', by simpa using h, nil⟩
  | append_singleton u e ih =>
    rw [← append_assoc, snoc_iff] at h
    obtain ⟨t, ht, hs⟩ := h
    obtain ⟨s, hs₀, hu⟩ := ih ht
    exact ⟨s, hs₀, snoc hu hs⟩

theorem cons_iff {e : ε} : Run step s₀ (e :: tr) s' ↔ ∃ s, step s₀ e s ∧ Run step s tr s' := by
  constructor
  · intro h
    obtain ⟨s, hs, hrest⟩ := @split _ _ _ _ _ [e] _ h
    exact ⟨s, single_iff.mp hs, hrest⟩
  rintro ⟨s, hs, hrest⟩
  exact (single_iff.mpr hs).append hrest

theorem mono {step' : σ → ε → σ → Prop} (hmono : ∀ s e s', step s e s' → step' s e s')
    (h : Run step s₀ tr s) : Run step' s₀ tr s := by
  induction h with
  | nil => exact nil
  | snoc _ hs ih => exact snoc ih (hmono _ _ _ hs)

/-- Where every step of a component is a step of its abstraction, every run is. The invariant `I`
may be used at each step. -/
theorem simulate {τ δ : Type*} {next : τ → δ → τ → Prop} {I : σ → Prop} (f : σ → τ) (g : ε → δ)
    (h : Run step s₀ tr s) (h₀ : I s₀) (hinv : ∀ s e s', I s → step s e s' → I s')
    (hstep : ∀ s e s', I s → step s e s' → next (f s) (g e) (f s')) :
    Run next (f s₀) (tr.map g) (f s) := by
  induction h with
  | nil => exact nil
  | snoc h hs ih =>
    rw [map_append]
    exact snoc ih (hstep _ _ _ (h.invariant h₀ hinv) hs)

/-- Refinement: where the states are related and every step is matched by a run of the abstraction,
every run is. -/
theorem refine {τ δ : Type*} {next : τ → δ → τ → Prop} {R : σ → τ → Prop} {t₀ : τ} (g : ε → List δ)
    (h : Run step s₀ tr s) (h₀ : R s₀ t₀)
    (hstep : ∀ s e s' t, R s t → step s e s' → ∃ t', Run next t (g e) t' ∧ R s' t') :
    ∃ t, Run next t₀ (tr.flatMap g) t ∧ R s t := by
  induction h with
  | nil => exact ⟨t₀, nil, h₀⟩
  | snoc _ hs ih =>
    obtain ⟨t, hrun, hR⟩ := ih
    obtain ⟨t', hrun', hR'⟩ := hstep _ _ _ _ hR hs
    refine ⟨t', ?_, hR'⟩
    rw [flatMap_append, flatMap_singleton]
    exact hrun.append hrun'

end Run

/-- No two steps of a run from `s₀` show the event `E`. -/
def AtMostOnce {σ ε : Type*} (step : σ → ε → σ → Prop) (s₀ : σ) (E : σ → σ → Prop) : Prop :=
  ∀ tr s e s', Run step s₀ tr s → step s e s' → E s s' →
    ∀ tr' u e' u', Run step s' tr' u → step u e' u' → ¬ E u u'

/-- An event happens at most once where it leaves a mark that stays and that excludes the event. -/
theorem AtMostOnce.of_mark {σ ε : Type*} {step : σ → ε → σ → Prop} {s₀ : σ} {E : σ → σ → Prop}
    {I M : σ → Prop} (h₀ : I s₀) (hinv : ∀ s e s', I s → step s e s' → I s')
    (hsets : ∀ s e s', I s → step s e s' → E s s' → M s')
    (hstays : ∀ s e s', I s → step s e s' → M s → M s')
    (hexcludes : ∀ s e s', I s → step s e s' → M s → ¬ E s s') : AtMostOnce step s₀ E := by
  intro tr s e s' hrun hstep hE tr' u e' u' hrun' hstep'
  have hs : I s := hrun.invariant h₀ hinv
  have hu : I u ∧ M u :=
    hrun'.invariant (P := fun s => I s ∧ M s) ⟨hinv s e s' hs hstep, hsets s e s' hs hstep hE⟩
      fun t l t' ht hl => ⟨hinv t l t' ht.1 hl, hstays t l t' ht.1 hl ht.2⟩
  exact hexcludes u e' u' hu.1 hstep' hu.2

/-- The steps of `step` at which the condition `C` on the state before and the label holds. -/
def Meeting {σ ε : Type*} (step : σ → ε → σ → Prop) (C : σ → ε → Prop) (s : σ) (e : ε) (s' : σ) :
    Prop :=
  step s e s' ∧ C s e

/-- The transition relation of a partial function, labelled by operations and their outcomes. -/
def Acts {σ ι ο : Type*} (act : σ → ι → Option (σ × ο)) (s : σ) (e : ι × ο) (s' : σ) : Prop :=
  act s e.1 = some (s', e.2)

/-- Run a list of operations whose condition `C` holds whenever they are due, and collect the
outcomes. -/
def execMeeting {σ ι ο : Type*} (act : σ → ι → Option (σ × ο)) (C : σ → ι → Prop)
    [∀ s i, Decidable (C s i)] (s : σ) : List ι → Option (σ × List ο)
  | [] => some (s, [])
  | i :: is =>
    if C s i then
      match act s i with
      | none => none
      | some (s', o) => (execMeeting act C s' is).map fun r => (r.1, o :: r.2)
    else none

/-- Run a list of operations and collect the outcomes. -/
def exec {σ ι ο : Type*} (act : σ → ι → Option (σ × ο)) (s : σ) (is : List ι) :
    Option (σ × List ο) :=
  execMeeting act (fun _ _ => True) s is

/-- The condition `C` holds at every operation of an execution. -/
def Along {σ ι ο : Type*} (act : σ → ι → Option (σ × ο)) (C : σ → ι → Prop) (s : σ) :
    List ι → Prop
  | [] => True
  | i :: is =>
    C s i ∧
      match act s i with
      | none => True
      | some (s', _) => Along act C s' is

/-- An execution is a run whose trace pairs every operation with its outcome. -/
theorem run_of_execMeeting {σ ι ο : Type*} {act : σ → ι → Option (σ × ο)} {C : σ → ι → Prop}
    [∀ s i, Decidable (C s i)] {s s' : σ} {is : List ι} {os : List ο}
    (h : execMeeting act C s is = some (s', os)) :
    Run (Meeting (Acts act) fun s e => C s e.1) s (is.zip os) s' := by
  induction is generalizing s os with
  | nil =>
    obtain ⟨rfl, rfl⟩ : s = s' ∧ [] = os := by simpa [execMeeting] using h
    exact Run.nil
  | cons i is ih =>
    rw [execMeeting] at h
    split at h
    · rename_i hC
      rcases hact : act s i with _ | ⟨t, o⟩
      · simp [hact] at h
      rw [hact] at h
      obtain ⟨⟨u, os'⟩, hrest, heq⟩ := Option.map_eq_some_iff.mp h
      obtain ⟨rfl, rfl⟩ : u = s' ∧ o :: os' = os := by simpa using heq
      exact (Run.single_iff.mpr ⟨hact, hC⟩).append (ih hrest)
    · cases h

/-- A computed result, and what follows from it. -/
theorem and_of_imp {p q : Prop} (hp : p) (hq : p → q) : p ∧ q :=
  ⟨hp, hq hp⟩

theorem run_of_exec {σ ι ο : Type*} {act : σ → ι → Option (σ × ο)} {s s' : σ} {is : List ι}
    {os : List ο} (h : exec act s is = some (s', os)) : Run (Acts act) s (is.zip os) s' :=
  (run_of_execMeeting h).mono fun _ _ _ hstep => hstep.1

end Transition
