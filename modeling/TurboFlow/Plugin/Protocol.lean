import TurboFlow.Lib.Precedence
import TurboFlow.Plugin.Generation
import Mathlib.Order.Nat

/-!
# The order of retirement

What retirement is to keep: a protocol whose steps are the events of a generation. `progress i`
counts the callbacks that the owner `i` has completed, `session j` says that the session of
operation `j` is held, `graph` that the Graph is there and `running` that it has to be stopped.
`completed_eq` gives the callbacks of an owner in their order, and `ordered_of_run` which events
stand before which.
-/

namespace TurboFlow.Plugin

open Transition List Option

def Callback.index : Callback → ℕ
  | .quiesce => 0
  | .drain => 1
  | .shutdown => 2
  | .destroy => 3

def lifecycle : List Callback :=
  [.quiesce, .drain, .shutdown, .destroy]

structure Retiring where
  progress : ℕ → ℕ
  session : ℕ → Bool
  graph : Bool
  running : Bool

namespace Retiring

def Ready (t : Retiring) : Callback → Prop
  | .quiesce => True
  | .drain => (∀ j, Callback.quiesce.index < t.progress j) ∧ t.running = false
  | .shutdown => (∀ j, Callback.drain.index < t.progress j) ∧ ∀ k, t.session k = false
  | .destroy => t.graph = false

/-- The owner `i` has completed one callback more. -/
def advance (t : Retiring) (i : ℕ) : Retiring :=
  { t with progress := Function.update t.progress i (t.progress i + 1) }

inductive Step : Retiring → Event → Retiring → Prop
  | called {t : Retiring} {c : Callback} {i : ℕ} (turn : t.progress i = c.index)
      (behind : ∀ j, i < j → c.index < t.progress j) (ready : t.Ready c) :
      Step t (.call c i .ok) (t.advance i)
  | refused {t : Retiring} {c : Callback} {i : ℕ} {st : Status} (failed : st ≠ .ok)
      (turn : t.progress i = c.index) (behind : ∀ j, i < j → c.index < t.progress j)
      (ready : t.Ready c) : Step t (.call c i st) t
  | started {t : Retiring} : Step t .start { t with running := true }
  | stopped {t : Retiring} : Step t (.stop .ok) { t with running := false }
  | stopFailed {t : Retiring} {st : Status} (failed : st ≠ .ok) : Step t (.stop st) t
  | released {t : Retiring} {k : ℕ} :
      Step t (.session k .ok) { t with session := Function.update t.session k false }
  | releaseFailed {t : Retiring} {k : ℕ} {st : Status} (failed : st ≠ .ok) :
      Step t (.session k st) t
  | destroyed {t : Retiring} (rests : t.running = false)
      (down : ∀ j, Callback.shutdown.index < t.progress j) :
      Step t .graphDestroyed { t with graph := false }
  | lease {t : Retiring} {i : ℕ} {st : Status} (gone : Callback.destroy.index < t.progress i) :
      Step t (.lease i st) t

end Retiring

/-- The callback of owner `i` that an event completes. -/
def completes (i : ℕ) : Event → Option Callback
  | .call c j .ok => if j = i then some c else none
  | _ => none

/-- The callbacks of owner `i` that a trace completes. -/
def completed (i : ℕ) (tr : List Event) : List Callback :=
  tr.filterMap (completes i)

def runningAfter (running : Bool) (tr : List Event) : Bool :=
  tr.foldl
    (fun r e =>
      match e with
      | .start => true
      | .stop .ok => false
      | _ => r)
    running

/-- `Requires n sessions a c`: with `n` owners and the sessions `sessions`, the event `a` stands
before `c`. -/
inductive Requires (n : ℕ) (sessions : ℕ → Bool) : Event → Event → Prop
  | reverse {c : Callback} {i j : ℕ} {st : Status} (behind : i < j) (owner : j < n) :
      Requires n sessions (.call c j .ok) (.call c i st)
  | quiesced {i j : ℕ} {st : Status} (owner : j < n) :
      Requires n sessions (.call .quiesce j .ok) (.call .drain i st)
  | drained {i j : ℕ} {st : Status} (owner : j < n) :
      Requires n sessions (.call .drain j .ok) (.call .shutdown i st)
  | session {i k : ℕ} {st : Status} (held : sessions k = true) :
      Requires n sessions (.session k .ok) (.call .shutdown i st)
  | down {j : ℕ} (owner : j < n) :
      Requires n sessions (.call .shutdown j .ok) .graphDestroyed
  | gone {i : ℕ} {st : Status} : Requires n sessions .graphDestroyed (.call .destroy i st)

variable {c : Callback} {i : ℕ}

theorem mem_take_lifecycle : c ∈ lifecycle.take p ↔ c.index < p := by
  match p with
  | 0 => simp
  | 1 => cases c <;> decide
  | 2 => cases c <;> decide
  | 3 => cases c <;> decide
  | p + 4 =>
    have hall : lifecycle.take (p + 4) = lifecycle := take_of_length_le (by simp [lifecycle])
    rw [hall]
    cases c <;> simp [lifecycle, Callback.index]

theorem take_index_succ (c : Callback) :
    lifecycle.take (c.index + 1) = lifecycle.take c.index ++ [c] := by
  cases c <;> rfl

theorem completes_eq_some : completes i e = some c ↔ e = .call c i .ok := by
  unfold completes
  split
  · split <;> simp_all [eq_comm]
  rename_i hne
  simp only [reduceCtorEq, false_iff]
  rintro rfl
  exact hne c i rfl

theorem mem_completed : c ∈ completed i tr ↔ Event.call c i .ok ∈ tr := by
  simp only [completed, mem_filterMap, completes_eq_some, exists_eq_right]

@[simp] theorem completed_append (i : ℕ) (tr tr' : List Event) :
    completed i (tr ++ tr') = completed i tr ++ completed i tr' :=
  filterMap_append

theorem runningAfter_snoc (r : Bool) (tr : List Event) (e : Event) :
    runningAfter r (tr ++ [e]) = runningAfter (runningAfter r tr) [e] := by
  simp only [runningAfter, foldl_append]

/-- The first state of a retirement with `n` owners. -/
def Retiring.initial (n : ℕ) (sessions : ℕ → Bool) (running : Bool) : Retiring where
  progress i := if i < n then 0 else 4
  session := sessions
  graph := true
  running := running

variable {n : ℕ} {sessions : ℕ → Bool} {running : Bool} {tr : List Event} {t : Retiring}

structure Retiring.Records (n : ℕ) (sessions : ℕ → Bool) (running : Bool) (tr : List Event)
    (t : Retiring) : Prop where
  completed_eq : ∀ i, i < n → completed i tr = lifecycle.take (t.progress i)
  session_released : ∀ k, sessions k = true → t.session k = false → Event.session k .ok ∈ tr
  graph_destroyed : t.graph = false → Event.graphDestroyed ∈ tr
  running_eq : t.running = runningAfter running tr

namespace Retiring

theorem records_initial : Records n sessions running [] (initial n sessions running) where
  completed_eq i hi := by simp [completed, initial, hi]
  session_released k hheld hfree := by
    have hk : sessions k = false := hfree
    rw [hheld] at hk
    cases hk
  graph_destroyed h := by cases h
  running_eq := rfl

theorem Records.quiet (h : Records n sessions running tr t) (hquiet : ∀ i, completes i e = none)
    (hprogress : t'.progress = t.progress)
    (hsession : ∀ k, t'.session k = false → t.session k = false ∨ e = .session k .ok)
    (hgraph : t'.graph = false → t.graph = false ∨ e = .graphDestroyed)
    (hrunning : t'.running = runningAfter t.running [e]) :
    Records n sessions running (tr ++ [e]) t' where
  completed_eq i hi := by
    have hnone : completed i [e] = [] := by simp [completed, hquiet i]
    rw [completed_append, hnone, append_nil, hprogress, h.completed_eq i hi]
  session_released k hheld hfree := by
    rcases hsession k hfree with hk | rfl
    · exact mem_append_left _ (h.session_released k hheld hk)
    · simp
  graph_destroyed hgone := by
    rcases hgraph hgone with hg | rfl
    · exact mem_append_left _ (h.graph_destroyed hg)
    · simp
  running_eq := by rw [runningAfter_snoc, ← h.running_eq, hrunning]

theorem Records.step (h : Records n sessions running tr t) (hstep : Step t e t') :
    Records n sessions running (tr ++ [e]) t' := by
  cases hstep with
  | @called c i turn behind ready =>
    refine ⟨fun j hj => ?_, fun k hheld hfree => ?_, fun hgone => ?_, ?_⟩
    · by_cases hji : j = i
      · obtain rfl := hji
        have hone : completed j [Event.call c j .ok] = [c] := by simp [completed, completes]
        have hnext : (t.advance j).progress j = c.index + 1 := by simp [advance, turn]
        rw [completed_append, hone, h.completed_eq j hj, turn, hnext, take_index_succ]
      have hnone : completed j [Event.call c i .ok] = [] := by
        simp [completed, completes, Ne.symm hji]
      have hsame : (t.advance i).progress j = t.progress j := by simp [advance, hji]
      rw [completed_append, hnone, append_nil, hsame, h.completed_eq j hj]
    · exact mem_append_left _ (h.session_released k hheld hfree)
    · exact mem_append_left _ (h.graph_destroyed hgone)
    rw [runningAfter_snoc, ← h.running_eq]
    rfl
  | refused failed turn behind ready =>
    refine h.quiet (fun i => ?_) rfl (fun _ => Or.inl) .inl rfl
    rw [← not_isSome_iff_eq_none, isSome_iff_exists]
    rintro ⟨c, hc⟩
    rw [completes_eq_some] at hc
    simp_all
  | started | stopped | releaseFailed failed | lease gone =>
    exact h.quiet (fun _ => rfl) rfl (fun _ => Or.inl) .inl rfl
  | @stopFailed st failed =>
    refine h.quiet (fun _ => rfl) rfl (fun _ => Or.inl) .inl ?_
    cases st <;> first | rfl | exact absurd rfl failed
  | @released k =>
    refine h.quiet (fun _ => rfl) rfl (fun j hj => ?_) .inl rfl
    by_cases hjk : j = k
    · exact .inr (by rw [hjk])
    · exact .inl (by simpa [Function.update_of_ne hjk] using hj)
  | destroyed rests down =>
    exact h.quiet (fun _ => rfl) rfl (fun _ => Or.inl) (fun _ => .inr rfl) rfl

section

variable (h : Run Step (initial n sessions running) tr t)

include h

theorem records_of_run : Records n sessions running tr t :=
  h.invariant_trace records_initial fun _ _ _ _ hrec hstep => hrec.step hstep

omit h in
theorem Records.mem_iff (h : Records n sessions running tr t) (hi : i < n) :
    Event.call c i .ok ∈ tr ↔ c.index < t.progress i := by
  rw [← mem_completed, h.completed_eq i hi, mem_take_lifecycle]

omit h in
theorem Records.mem_of_ready (h : Records n sessions running tr t)
    (behind : ∀ j, i < j → c.index < t.progress j) (ready : t.Ready c)
    (ha : Requires n sessions a (.call c i st)) : a ∈ tr := by
  cases ha with
  | reverse hij hj => exact (h.mem_iff hj).mpr (behind _ hij)
  | quiesced hj | drained hj => exact (h.mem_iff hj).mpr (ready.1 _)
  | session hheld => exact h.session_released _ hheld (ready.2 _)
  | gone => exact h.graph_destroyed ready

theorem ordered_of_run : Precedence.Ordered (Requires n sessions) tr := by
  induction h with
  | nil => exact Precedence.Ordered.nil
  | snoc hrun hstep ih =>
    have hrec := records_of_run hrun
    refine ih.snoc fun a ha => ?_
    cases hstep with
    | called turn behind ready | refused failed turn behind ready =>
      exact hrec.mem_of_ready behind ready ha
    | destroyed rests down =>
      cases ha with
      | down hj => exact (hrec.mem_iff hj).mpr (down _)
    | started | stopped | stopFailed failed | released | releaseFailed failed | lease gone =>
      cases ha

theorem turn_of_split (hsplit : tr = pre ++ .call c i st :: post) :
    ∃ u, Run Step (initial n sessions running) pre u ∧ u.progress i = c.index ∧ u.Ready c := by
  subst hsplit
  obtain ⟨u, hpre, hrest⟩ := h.split
  obtain ⟨v, hstep, -⟩ := Run.cons_iff.mp hrest
  refine ⟨u, hpre, ?_⟩
  cases hstep with
  | called turn behind ready | refused failed turn behind ready => exact ⟨turn, ready⟩

theorem owner_of_split (hsplit : tr = pre ++ .call c i st :: post) : i < n := by
  by_contra hi
  have hbeyond : ∀ {tr' : List Event} {u : Retiring},
      Run Step (initial n sessions running) tr' u → 4 ≤ u.progress i := by
    intro tr' u hrun
    refine hrun.invariant (P := fun u => 4 ≤ u.progress i) (by simp [initial, hi]) ?_
    intro u e u' hu hstep
    cases hstep with
    | @called c j turn behind ready =>
      by_cases hij : i = j
      · obtain rfl := hij
        simp only [advance, Function.update_self]
        omega
      · simpa [advance, Function.update_of_ne hij] using hu
    | refused failed turn behind ready | started | stopped | stopFailed failed | released
    | releaseFailed failed | destroyed rests down | lease gone => exact hu
  obtain ⟨u, hpre, hturn, -⟩ := turn_of_split h hsplit
  have hu := hbeyond hpre
  rw [hturn] at hu
  cases c <;> simp [Callback.index] at hu

theorem not_repeated (hsplit : tr = pre ++ .call c i .ok :: post) (st : Status) :
    Event.call c i st ∉ post := by
  intro hmem
  obtain ⟨mid, last, rfl⟩ := append_of_mem hmem
  have hsplit' : tr = (pre ++ .call c i .ok :: mid) ++ .call c i st :: last := by
    rw [hsplit]
    simp
  have hi : i < n := owner_of_split h hsplit'
  obtain ⟨u, hrun, hturn, -⟩ := turn_of_split h hsplit'
  have hdone : c.index < u.progress i := ((records_of_run hrun).mem_iff hi).mp (by simp)
  exact absurd hturn (Nat.ne_of_gt hdone)

end

end Retiring

end TurboFlow.Plugin
