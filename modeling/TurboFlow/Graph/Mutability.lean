import TurboFlow.Graph.Broadcast
import TurboFlow.Lib.Branches
import TurboFlow.Lib.Search

/-!
# The fan-out mutability check

All branches below a fan-out share one message object, so the compiler refuses a stage that may
change it there. `compile_validate_fanout_mutability` searches every branch up to a fan-in.

`AcceptedPlan` is a compiled plan with the results of this check and of the rule that a stage has at
most one reject route (`compile_validate_reject_edges`).
-/

namespace TurboFlow.Graph

open List
open Relation (ReflTransGen)
open Search

inductive Mutability
  | readonly
  | mutatesPrivate
  | mutatesInPlace
  deriving DecidableEq

namespace CompiledPlan

variable (plan : CompiledPlan) (mutability : ℕ → Mutability)

/-- `incoming_counts[s]`. -/
def incomingCount (s : ℕ) : ℕ :=
  plan.edges.countP fun e => e.toStage = s

def outgoingCount (s : ℕ) : ℕ :=
  plan.edges.countP fun e => e.fromStage = s ∧ e.kind ≠ .reject

def FansOut (s : ℕ) : Prop :=
  1 < plan.outgoingCount s

def FansIn (s : ℕ) : Prop :=
  1 < plan.incomingCount s

/-- `fanout_branch_contains_mutable`, with the stages marked in `visiting`; no result when the fuel
is spent. -/
def fanoutBranchContainsMutable : ℕ → ℕ → List ℕ → Option (Bool × List ℕ)
  | 0, _, _ => none
  | fuel + 1, s, visiting =>
    if s ∈ visiting then some (false, visiting)
    else if mutability s ≠ .readonly then some (true, s :: visiting)
    else
      plan.edges.foldl
        (fun result e =>
          match result with
          | some (false, visiting) =>
            if e.fromStage = s ∧ plan.incomingCount e.toStage ≤ 1 then
              fanoutBranchContainsMutable fuel e.toStage visiting
            else some (false, visiting)
          | found => found)
        (some (false, s :: visiting))

def branchContainsMutable (s : ℕ) : Bool :=
  (plan.fanoutBranchContainsMutable mutability (plan.stageCount + 1) s []).any (·.1)

def compileValidateFanoutMutability : Status :=
  if (range plan.stageCount).any fun s =>
      1 < plan.outgoingCount s && plan.edges.any fun e =>
        e.fromStage = s && plan.branchContainsMutable mutability e.toStage then .einval
  else .ok

def Extends (a b : ℕ) : Prop :=
  plan.Linked a b ∧ ¬ plan.FansIn b

/-! ### What the search finds -/

variable {plan mutability}

/-- The search is a depth-first search along the edges to stages with one incoming edge. -/
theorem fanoutBranchContainsMutable_eq_dfs (fuel s : ℕ) (visiting : List ℕ) :
    plan.fanoutBranchContainsMutable mutability fuel s visiting =
      dfs plan.edges
        (fun s e =>
          if e.fromStage = s ∧ plan.incomingCount e.toStage ≤ 1 then some e.toStage else none)
        (fun s => if mutability s ≠ .readonly then some true else none) fuel s visiting := by
  induction fuel generalizing s visiting with
  | zero => rfl
  | succ fuel ih =>
    rw [fanoutBranchContainsMutable, dfs]
    split
    · rfl
    split
    · rfl
    simp only
    congr 1
    funext result e
    rcases result with _ | ⟨found, visited⟩
    · rfl
    cases found with
    | true => rfl
    | false =>
      simp only
      split
      · exact ih e.toStage visited
      · rfl

theorem branchContainsMutable_iff (hs : s < plan.stageCount) :
    plan.branchContainsMutable mutability s = true ↔
      ∃ v, ReflTransGen plan.Extends s v ∧ mutability v ≠ .readonly := by
  have hlength : plan.stageCount = (range plan.stageCount).length := length_range.symm
  have hextends : ∀ v w, Step plan.edges
      (fun s e =>
        if e.fromStage = s ∧ plan.incomingCount e.toStage ≤ 1 then some e.toStage else none)
      (fun s => if mutability s ≠ .readonly then some true else none) v w ↔
      mutability v = .readonly ∧ plan.Extends v w := by
    intro v w
    simp only [Step, Extends, FansIn, Linked]
    constructor
    · rintro ⟨hnone, e, he, hfollow⟩
      split at hfollow
      · rename_i hto
        cases hfollow
        exact ⟨by simpa using hnone, ⟨e, he, hto.1, rfl⟩, Nat.not_lt.mpr hto.2⟩
      · cases hfollow
    rintro ⟨hreadonly, ⟨e, he, hfrom, rfl⟩, hin⟩
    exact ⟨by simpa using hreadonly, e, he, if_pos ⟨hfrom, Nat.le_of_not_lt hin⟩⟩
  unfold branchContainsMutable
  rw [fanoutBranchContainsMutable_eq_dfs]
  conv_lhs => rw [hlength]
  rw [dfs_iff ?_ (mem_range.mpr hs)]
  · clear hs
    constructor
    · rintro ⟨v, hpath, hv⟩
      refine ⟨v, ReflTransGen.mono (fun a b hab => ((hextends a b).mp hab).2) _ _ hpath, ?_⟩
      intro hreadonly
      simp [hreadonly] at hv
    rintro ⟨v, hpath, hv⟩
    -- the search ends at the first stage of the path that is not read-only
    induction hpath using ReflTransGen.head_induction_on with
    | refl => exact ⟨v, .refl, if_pos hv⟩
    | @head a b hab hbv ih =>
      by_cases hreadonly : mutability a = .readonly
      · obtain ⟨w, hpath, hw⟩ := ih
        exact ⟨w, .head ((hextends a b).mpr ⟨hreadonly, hab⟩) hpath, hw⟩
      · exact ⟨a, .refl, if_pos hreadonly⟩
  intro v hv e he w hfollow
  split at hfollow
  · cases hfollow
    exact mem_range.mpr (plan.edges_lt e he).2
  · cases hfollow

/-- The graphs that pass: in front of the first fan-in behind a fan-out, all stages are read-only.
The first stage of a branch counts even if it is a fan-in itself. -/
theorem compileValidate_ok_iff :
    plan.compileValidateFanoutMutability mutability = .ok ↔
      ∀ e ∈ plan.edges, plan.FansOut e.fromStage →
        ∀ v, ReflTransGen plan.Extends e.toStage v → mutability v = .readonly := by
  unfold compileValidateFanoutMutability
  split
  · rename_i hany
    simp only [reduceCtorEq, false_iff, not_forall]
    simp only [any_eq_true, mem_range, Bool.and_eq_true, decide_eq_true_eq] at hany
    obtain ⟨s, hs, hfans, e, he, rfl, hbranch⟩ := hany
    obtain ⟨v, hpath, hv⟩ := (branchContainsMutable_iff (plan.edges_lt e he).2).mp hbranch
    exact ⟨e, he, hfans, v, hpath, hv⟩
  rename_i hnone
  simp only [true_iff]
  intro e he hfans v hpath
  by_contra hv
  refine hnone ?_
  simp only [any_eq_true, mem_range, Bool.and_eq_true, decide_eq_true_eq]
  exact ⟨e.fromStage, (plan.edges_lt e he).1, hfans, e, he, rfl,
    (branchContainsMutable_iff (plan.edges_lt e he).2).mpr ⟨v, hpath, hv⟩⟩

end CompiledPlan

/-- A graph that `turbo_flow_compile` accepts. -/
structure AcceptedPlan extends CompiledPlan where
  mutability : ℕ → Mutability
  reject_unique : ∀ e ∈ edges, ∀ e' ∈ edges, e.kind = .reject → e'.kind = .reject →
    e.fromStage = e'.fromStage → e = e'
  fanout_mutability : toCompiledPlan.compileValidateFanoutMutability mutability = .ok

namespace AcceptedPlan

variable {g : AcceptedPlan}

def Mutates (g : AcceptedPlan) (s : ℕ) : Prop :=
  g.mutability s ≠ .readonly

theorem exists_fansIn (hstep : ∀ a b, step a b → g.Linked a b) (hpath : ReflTransGen step b m) :
    ReflTransGen g.Extends b m ∨
      ∃ j, ReflTransGen step b j ∧ g.FansIn j ∧ ReflTransGen step j m := by
  induction hpath with
  | refl => exact .inl .refl
  | @tail v w hbv hvw ih =>
    by_cases hin : g.FansIn w
    · exact .inr ⟨w, hbv.tail hvw, hin, .refl⟩
    rcases ih with htree | ⟨j, hbj, hj, hjv⟩
    · exact .inl (htree.tail ⟨hstep v w hvw, hin⟩)
    · exact .inr ⟨j, hbj, hj, hjv.tail hvw⟩

end AcceptedPlan

end TurboFlow.Graph
