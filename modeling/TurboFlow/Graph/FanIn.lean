import TurboFlow.Graph.Plan
import TurboFlow.Lib.Search

/-!
# The unordered fan-in check

The messages behind a fan-in have to keep an order, so the compiler refuses a fan-in that a stage
with unordered output leads to without a reorder boundary in between. Its search goes backwards from
every edge into a fan-in and stops at an inner fan-in, whose edges are searched as well: nothing is
lost.
-/

namespace TurboFlow.Graph

open List
open Relation (ReflTransGen)
open Search

inductive DataStrategy
  | broadcast
  | workerPool
  deriving DecidableEq

inductive ExecKind
  | inline
  | threadPool
  | coroPool
  deriving DecidableEq

/-- The part of `flow_stage_plan_impl_t` that decides on the order of the output of a stage. -/
structure OutputPlan where
  dataStrategy : DataStrategy
  exec : ExecKind
  reorderCapacity : ℕ

structure StageGraph where
  stages : List OutputPlan
  edges : List Edge
  edges_lt : ∀ e ∈ edges, e.fromStage < stages.length ∧ e.toStage < stages.length

def stageOutputIsUnordered (stage : OutputPlan) : Bool :=
  stage.dataStrategy = .workerPool || stage.exec = .threadPool

namespace StageGraph

variable (g : StageGraph)

/-- `incoming_counts[s]`. -/
def incomingCount (s : ℕ) : ℕ :=
  g.edges.countP fun e => e.toStage = s

def reorders (s : ℕ) : Bool :=
  (g.stages[s]?).any fun stage => 0 < stage.reorderCapacity

def unordered (s : ℕ) : Bool :=
  (g.stages[s]?).any stageOutputIsUnordered

/-- What `branch_contains_unordered_before_fanin` returns for a stage without following its
edges. -/
def branchAnswer (s : ℕ) : Option Bool :=
  if g.reorders s = true then some false
  else if g.unordered s = true then some true
  else if g.incomingCount s > 1 then some false
  else none

def followBack (s : ℕ) (e : Edge) : Option ℕ :=
  if e.toStage ≠ s then none else some e.fromStage

/-- `branch_contains_unordered_before_fanin`, with the stages that are marked in `visiting`. -/
def branchContainsUnorderedBeforeFanin (fuel s : ℕ) (visiting : List ℕ) :
    Option (Bool × List ℕ) :=
  dfs g.edges followBack g.branchAnswer fuel s visiting

def branchContainsUnordered (s : ℕ) : Bool :=
  (g.branchContainsUnorderedBeforeFanin (g.stages.length + 1) s []).any (·.1)

/-- `compile_validate_unordered_fanin`, where the allocations succeed. -/
def compileValidateUnorderedFanin : Status :=
  if g.edges.any fun e =>
      g.incomingCount e.toStage > 1 && g.branchContainsUnordered e.fromStage then .einval
  else .ok

def Upstream (a b : ℕ) : Prop :=
  g.reorders a = false ∧ ∃ e ∈ g.edges, e.toStage = a ∧ e.fromStage = b

/-- The output of a stage reaches a fan-in unordered: neither the stage nor a path to the fan-in has
a reorder boundary. -/
def UnorderedInto (u f : ℕ) : Prop :=
  g.unordered u = true ∧ g.reorders u = false ∧
    ∃ e ∈ g.edges, e.toStage = f ∧ ReflTransGen g.Upstream e.fromStage u

variable {g}

theorem branchAnswer_true_iff :
    g.branchAnswer s = some true ↔ g.reorders s = false ∧ g.unordered s = true := by
  unfold branchAnswer
  cases hr : g.reorders s with
  | true => simp
  | false =>
    cases hu : g.unordered s with
    | true => simp
    | false =>
      simp only [Bool.false_eq_true, if_false, and_false, iff_false]
      split <;> simp

theorem branchAnswer_none_iff :
    g.branchAnswer s = none ↔
      g.reorders s = false ∧ g.unordered s = false ∧ g.incomingCount s ≤ 1 := by
  unfold branchAnswer
  cases hr : g.reorders s with
  | true => simp
  | false =>
    cases hu : g.unordered s with
    | true => simp
    | false =>
      simp only [Bool.false_eq_true, if_false, true_and]
      split
      · simp only [reduceCtorEq, false_iff]
        omega
      simp only [true_iff]
      omega

theorem followBack_eq_some : followBack s e = some w ↔ e.toStage = s ∧ e.fromStage = w := by
  unfold followBack
  split
  · rename_i hne
    simp [hne]
  rename_i heq
  simp [not_not.mp heq]

theorem branchContainsUnordered_iff (hs : s < g.stages.length) :
    g.branchContainsUnordered s = true ↔
      ∃ u, ReflTransGen (Step g.edges followBack g.branchAnswer) s u ∧
        g.branchAnswer u = some true := by
  unfold branchContainsUnordered branchContainsUnorderedBeforeFanin
  have hlength : g.stages.length = (range g.stages.length).length := length_range.symm
  conv_lhs => rw [hlength]
  refine dfs_iff ?_ (mem_range.mpr hs)
  intro v _ e he w hfollow
  obtain ⟨-, rfl⟩ := followBack_eq_some.mp hfollow
  exact mem_range.mpr (g.edges_lt e he).1

theorem upstream_of_step (h : Step g.edges followBack g.branchAnswer a b) : g.Upstream a b := by
  obtain ⟨hnone, e, he, hfollow⟩ := h
  obtain ⟨hto, hfrom⟩ := followBack_eq_some.mp hfollow
  exact ⟨(branchAnswer_none_iff.mp hnone).1, e, he, hto, hfrom⟩

theorem exists_found (hpath : ReflTransGen g.Upstream a u) (hu : g.branchAnswer u = some true) :
    (∃ w, ReflTransGen (Step g.edges followBack g.branchAnswer) a w ∧
        g.branchAnswer w = some true) ∨
      ∃ e ∈ g.edges, 1 < g.incomingCount e.toStage ∧
        ∃ w, ReflTransGen (Step g.edges followBack g.branchAnswer) e.fromStage w ∧
          g.branchAnswer w = some true := by
  induction hpath using ReflTransGen.head_induction_on with
  | refl => exact .inl ⟨u, .refl, hu⟩
  | @head a b hab _ ih =>
    obtain ⟨hreorder, e, he, hto, hfrom⟩ := hab
    rcases ih with ⟨w, hpath, hw⟩ | hjoin
    · cases hunordered : g.unordered a with
      | true => exact .inl ⟨a, .refl, branchAnswer_true_iff.mpr ⟨hreorder, hunordered⟩⟩
      | false =>
        rcases Nat.lt_or_ge 1 (g.incomingCount a) with hfan | hsingle
        · -- the search stops at the inner fan-in `a`, but its edge from `b` is searched too
          exact .inr ⟨e, he, hto ▸ hfan, w, hfrom ▸ hpath, hw⟩
        have hnone := branchAnswer_none_iff.mpr ⟨hreorder, hunordered, hsingle⟩
        have hstep : Step g.edges followBack g.branchAnswer a b :=
          ⟨hnone, e, he, followBack_eq_some.mpr ⟨hto, hfrom⟩⟩
        exact .inl ⟨w, .head hstep hpath, hw⟩
    · exact .inr hjoin

/-- The check accepts a graph just when no unordered output reaches a fan-in without a reorder
boundary in between. -/
theorem compileValidateUnorderedFanin_iff (g : StageGraph) :
    g.compileValidateUnorderedFanin = .ok ↔
      ¬ ∃ f u, 1 < g.incomingCount f ∧ g.UnorderedInto u f := by
  have hany : (g.edges.any fun e =>
      g.incomingCount e.toStage > 1 && g.branchContainsUnordered e.fromStage) = true ↔
      ∃ f u, 1 < g.incomingCount f ∧ g.UnorderedInto u f := by
    simp only [any_eq_true, Bool.and_eq_true, decide_eq_true_eq]
    constructor
    · rintro ⟨e, he, hfan, hfound⟩
      obtain ⟨u, hpath, hu⟩ := (branchContainsUnordered_iff (g.edges_lt e he).1).mp hfound
      obtain ⟨hreorder, hunordered⟩ := branchAnswer_true_iff.mp hu
      exact ⟨e.toStage, u, hfan, hunordered, hreorder, e, he, rfl,
        ReflTransGen.mono (fun _ _ => upstream_of_step) _ _ hpath⟩
    rintro ⟨f, u, hfan, hunordered, hreorder, e, he, rfl, hpath⟩
    have hu := branchAnswer_true_iff.mpr ⟨hreorder, hunordered⟩
    rcases exists_found hpath hu with hfound | ⟨e', he', hfan', hfound⟩
    · exact ⟨e, he, hfan, (branchContainsUnordered_iff (g.edges_lt e he).1).mpr hfound⟩
    · exact ⟨e', he', hfan', (branchContainsUnordered_iff (g.edges_lt e' he').1).mpr hfound⟩
  unfold compileValidateUnorderedFanin
  split
  · rename_i hfound
    simp only [reduceCtorEq, false_iff, not_not]
    exact hany.mp hfound
  rename_i hfound
  simp only [true_iff]
  exact fun hviolation => hfound (hany.mpr hviolation)

end StageGraph

end TurboFlow.Graph
