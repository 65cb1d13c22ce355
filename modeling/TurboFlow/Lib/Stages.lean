import TurboFlow.Lib.Run

/-!
# Procedures of fallible stages

A procedure runs stages one after the other and returns at the first that fails. A stage maps a
state to an `Outcome`: the state it leaves, the events it showed and its failure, if any.

`Follows` is the rule of pre- and postconditions for stages whose events are steps of a protocol:
whatever fails, the events lead the protocol along, and where nothing is going to fail the stage
completes. `run_backward` is the rule for a loop over a table from its end, seen through its
`column`s.
-/

namespace Stages

open Transition List

/-- What a stage leaves behind. -/
structure Outcome (σ ε φ : Type*) where
  state : σ
  events : List ε
  failure : Option φ
  deriving DecidableEq

variable {σ ε φ : Type*}

/-- Change the state and nothing else. -/
def silently (f : σ → σ) (s : σ) : Outcome σ ε φ :=
  ⟨f s, [], none⟩

/-- Return with a failure where the check finds one. -/
def checking (check : σ → Option φ) (s : σ) : Outcome σ ε φ :=
  ⟨s, [], check s⟩

/-- Run the second stage where the first did not fail. -/
def andThen (f g : σ → Outcome σ ε φ) (s : σ) : Outcome σ ε φ :=
  match (f s).failure with
  | some _ => f s
  | none =>
    ⟨(g (f s).state).state, (f s).events ++ (g (f s).state).events, (g (f s).state).failure⟩

variable {f g : σ → Outcome σ ε φ}

theorem andThen_of_failure {s : σ} {x : φ} (h : (f s).failure = some x) : andThen f g s = f s := by
  simp only [andThen, h]

theorem andThen_of_none {s : σ} (h : (f s).failure = none) :
    andThen f g s =
      ⟨(g (f s).state).state, (f s).events ++ (g (f s).state).events, (g (f s).state).failure⟩ := by
  simp only [andThen, h]

theorem andThen_events_eq_nil {s : σ} (hf : (f s).events = [])
    (hg : (f s).failure = none → (g (f s).state).events = []) : (andThen f g s).events = [] := by
  cases h : (f s).failure with
  | some x =>
    rw [andThen_of_failure h]
    exact hf
  | none =>
    rw [andThen_of_none h]
    simp only [hf, hg h, append_nil]

/-- Every failure of `f` is one of `X`. -/
def FailsWith (X : φ → Prop) (f : σ → Outcome σ ε φ) : Prop :=
  ∀ s x, (f s).failure = some x → X x

theorem FailsWith.andThen {X : φ → Prop} (hf : FailsWith X f)
    (hg : FailsWith X g) : FailsWith X (andThen f g) := by
  intro s x hx
  cases h : (f s).failure with
  | some y =>
    rw [andThen_of_failure h] at hx
    exact hf s x hx
  | none =>
    rw [andThen_of_none h] at hx
    exact hg _ x hx

theorem failsWith_silently {X : φ → Prop} (change : σ → σ) :
    FailsWith X (silently change : σ → Outcome σ ε φ) := by
  intro s x hx
  cases hx

section Rules

/-- What is known between two stages: `always` holds whatever may fail, `calm` is what it takes for
the rest to succeed. -/
structure Assertion (σ : Type*) where
  always : σ → Prop
  calm : σ → Prop

variable {τ : Type*} {step : τ → ε → τ → Prop} {K : σ → τ} {I : σ → Prop} {P Q R : Assertion σ}
  {f g : σ → Outcome σ ε φ}

/-- The outcome `o` of a stage that started in `s`: its events lead the protocol along, `I` holds if
it failed, `Q` otherwise; where `calm` holds, it has not. -/
structure Leads (step : τ → ε → τ → Prop) (K : σ → τ) (I : σ → Prop) (calm : Prop) (s : σ)
    (o : Outcome σ ε φ) (Q : Assertion σ) : Prop where
  run : Run step (K s) o.events (K o.state)
  fails : o.failure ≠ none → I o.state
  succeeds : o.failure = none → Q.always o.state
  completes : calm → o.failure = none ∧ Q.calm o.state

/-- Started where `P` holds, `f` leads to `Q`. -/
def Follows (step : τ → ε → τ → Prop) (K : σ → τ) (I : σ → Prop) (P : Assertion σ)
    (f : σ → Outcome σ ε φ) (Q : Assertion σ) : Prop :=
  ∀ s, P.always s → Leads step K I (P.calm s) s (f s) Q

theorem Follows.andThen (hf : Follows step K I P f Q) (hg : Follows step K I Q g R) :
    Follows step K I P (andThen f g) R := by
  intro s hs
  have hfirst := hf s hs
  cases h : (f s).failure with
  | some x =>
    rw [andThen_of_failure h]
    refine ⟨hfirst.run, hfirst.fails, fun hok => ?_, fun hcalm => ?_⟩
    · rw [h] at hok
      cases hok
    rw [(hfirst.completes hcalm).1] at h
    cases h
  | none =>
    rw [andThen_of_none h]
    have hsecond := hg _ (hfirst.succeeds h)
    exact ⟨hfirst.run.append hsecond.run, hsecond.fails, hsecond.succeeds,
      fun hcalm => hsecond.completes (hfirst.completes hcalm).2⟩

/-- A stage that returns without an event where the protocol sees no change. -/
theorem leads_silent {calm : Prop} {s s' : σ} (hK : K s' = K s) (halways : Q.always s')
    (hcalm : calm → Q.calm s') : Leads step K I calm s (⟨s', [], none⟩ : Outcome σ ε φ) Q where
  run := by
    rw [hK]
    exact Run.nil
  fails hfail := absurd rfl hfail
  succeeds _ := halways
  completes h := ⟨rfl, hcalm h⟩

theorem follows_silently {change : σ → σ} (hK : ∀ s, P.always s → K (change s) = K s)
    (halways : ∀ s, P.always s → Q.always (change s)) (hcalm : ∀ s, P.calm s → Q.calm (change s)) :
    Follows step K I P (silently change : σ → Outcome σ ε φ) Q :=
  fun s hs => leads_silent (hK s hs) (halways s hs) (hcalm s)

/-- A check that a calm state passes. -/
theorem follows_checking {check : σ → Option φ} (hI : ∀ s, P.always s → I s)
    (halways : ∀ s, P.always s → Q.always s) (hcalm : ∀ s, P.calm s → check s = none ∧ Q.calm s) :
    Follows step K I P (checking check) Q :=
  fun s hs => ⟨Run.nil, fun _ => hI s hs, fun _ => halways s hs, hcalm s⟩

end Rules

section Tables

variable {α : Type*} {f : ℕ → α → Outcome α ε φ}

/-- Visit the entries of a table, numbered from `i` on, from the last to the first, up to the first
failure. -/
def backward (f : ℕ → α → Outcome α ε φ) (i : ℕ) : List α → Outcome (List α) ε φ
  | [] => ⟨[], [], none⟩
  | a :: as =>
    let rest := backward f (i + 1) as
    match rest.failure with
    | some x => ⟨a :: rest.state, rest.events, some x⟩
    | none => ⟨(f i a).state :: rest.state, rest.events ++ (f i a).events, (f i a).failure⟩

variable {as : List α}

theorem backward_cons_of_failure {i : ℕ} {a : α} {x : φ}
    (h : (backward f (i + 1) as).failure = some x) :
    backward f i (a :: as) =
      ⟨a :: (backward f (i + 1) as).state, (backward f (i + 1) as).events, some x⟩ := by
  simp only [backward, h]

theorem backward_cons_of_none {i : ℕ} {a : α} (h : (backward f (i + 1) as).failure = none) :
    backward f i (a :: as) =
      ⟨(f i a).state :: (backward f (i + 1) as).state,
        (backward f (i + 1) as).events ++ (f i a).events, (f i a).failure⟩ := by
  simp only [backward, h]

/-- The rule for the loop: a visit leads the protocol along where the entries behind it are done,
and keeps `C`. -/
theorem run_backward {τ : Type*} {step : τ → ε → τ → Prop} {K : List α → τ} {C : List α → Prop}
    {Done : α → Prop} (hvisit : ∀ (pre : List α) (a : α) (post : List α), C (pre ++ a :: post) →
      (∀ b ∈ post, Done b) →
        Run step (K (pre ++ a :: post)) (f pre.length a).events
            (K (pre ++ (f pre.length a).state :: post)) ∧
          C (pre ++ (f pre.length a).state :: post) ∧
          ((f pre.length a).failure = none → Done (f pre.length a).state))
    (hC : C as) :
    Run step (K as) (backward f 0 as).events (K (backward f 0 as).state) ∧
      C (backward f 0 as).state ∧
      ((backward f 0 as).failure = none → ∀ a ∈ (backward f 0 as).state, Done a) := by
  -- The induction is on the entries still to visit, behind a table of those in front of them.
  have hloop : ∀ (as pre : List α), C (pre ++ as) →
      Run step (K (pre ++ as)) (backward f pre.length as).events
          (K (pre ++ (backward f pre.length as).state)) ∧
        C (pre ++ (backward f pre.length as).state) ∧
        ((backward f pre.length as).failure = none →
          ∀ a ∈ (backward f pre.length as).state, Done a) := by
    intro as
    induction as with
    | nil =>
      intro pre hC
      exact ⟨Run.nil, hC, by simp [backward]⟩
    | cons a as ih =>
      intro pre hC
      have hrest := ih (pre ++ [a]) (by simpa using hC)
      simp only [length_append, length_singleton, append_assoc, singleton_append] at hrest
      obtain ⟨hrun, hC', hdone⟩ := hrest
      cases hfail : (backward f (pre.length + 1) as).failure with
      | some x =>
        rw [backward_cons_of_failure hfail]
        exact ⟨hrun, hC', by simp⟩
      | none =>
        rw [backward_cons_of_none hfail]
        obtain ⟨hrun', hC'', hdone'⟩ := hvisit pre a _ hC' (hdone hfail)
        refine ⟨hrun.append hrun', hC'', fun hok => ?_⟩
        exact forall_mem_cons.mpr ⟨hdone' hok, hdone hfail⟩
  exact hloop as [] hC

/-- A loop whose visits do not fail does not fail. -/
theorem backward_failure_eq_none (h : ∀ i, ∀ a ∈ as, (f i a).failure = none) (i : ℕ) :
    (backward f i as).failure = none := by
  induction as generalizing i with
  | nil => rfl
  | cons a as ih =>
    have hrest : (backward f (i + 1) as).failure = none :=
      ih (fun j b hb => h j b (mem_cons_of_mem _ hb)) (i + 1)
    rw [backward_cons_of_none hrest]
    exact h i a mem_cons_self

theorem FailsWith.backward {X : φ → Prop} (hf : ∀ i, FailsWith X (f i)) (i : ℕ) :
    FailsWith X (backward f i) := by
  intro as
  induction as generalizing i with
  | nil =>
    intro x hx
    cases hx
  | cons a as ih =>
    intro x hx
    cases h : (Stages.backward f (i + 1) as).failure with
    | some y =>
      rw [backward_cons_of_failure h] at hx
      exact ih (i + 1) x (h.trans hx)
    | none =>
      rw [backward_cons_of_none h] at hx
      exact hf i a x hx

variable {β : Type*} {d : β} {r : α → β} {a b : α} {pre post : List α}

/-- What `r` reads of the entry with a number, and `d` behind the end of the table. -/
def column (d : β) (r : α → β) (as : List α) (i : ℕ) : β :=
  (as[i]?.map r).getD d

theorem column_length : column d r (pre ++ a :: post) pre.length = r a := by
  simp [column]

theorem column_replace :
    column d r (pre ++ b :: post) =
      Function.update (column d r (pre ++ a :: post)) pre.length (r b) := by
  funext i
  rcases Nat.lt_trichotomy i pre.length with hlt | rfl | hgt
  · rw [Function.update_of_ne (Nat.ne_of_lt hlt)]
    simp [column, getElem?_append_left hlt]
  · simp [column_length]
  rw [Function.update_of_ne (Nat.ne_of_gt hgt)]
  obtain ⟨k, rfl⟩ := Nat.exists_eq_add_of_lt hgt
  simp [column, getElem?_append_right, Nat.add_assoc]

theorem column_set {i : ℕ} (ha : as[i]? = some a) (hb : r b = r a) :
    column d r (as.set i b) = column d r as := by
  funext j
  unfold column
  by_cases hji : i = j
  · obtain rfl := hji
    obtain ⟨hlt, -⟩ := List.getElem?_eq_some_iff.mp ha
    simp [getElem?_set_self hlt, ha, hb]
  · rw [getElem?_set_ne hji]

theorem column_of_forall {P : β → Prop} (hd : P d) (h : ∀ a ∈ as, P (r a)) (i : ℕ) :
    P (column d r as i) := by
  unfold column
  cases hi : as[i]? with
  | none => exact hd
  | some a => exact h a (mem_of_getElem? hi)

theorem column_behind {P : β → Prop} (hd : P d) (h : ∀ b ∈ post, P (r b)) {i : ℕ}
    (hi : pre.length < i) : P (column d r (pre ++ a :: post) i) := by
  obtain ⟨k, rfl⟩ := Nat.exists_eq_add_of_lt hi
  have heq : column d r (pre ++ a :: post) (pre.length + k + 1) = column d r post k := by
    simp [column, getElem?_append_right, Nat.add_assoc]
  rw [heq]
  exact column_of_forall hd h k

end Tables

end Stages
