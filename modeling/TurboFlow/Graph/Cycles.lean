import TurboFlow.Graph.Plan
import TurboFlow.Lib.Kahn

/-!
# The cycle check

`compile_validate_cycles` looks for a cycle with a depth-first search. A stage is active while the
edges out of it are followed, so the active stages lie on a path to the current one, and an edge
back to one of them closes a cycle. A stage that is left gets a rank below those it leads to.
-/

namespace TurboFlow.Graph.Cycles

open List
open Function (update)
open Relation (TransGen)
open Fallible (Ends)

/-- The values of `state` in `dfs_cycle`. -/
inductive Mark
  | unvisited
  | active
  | visited
  deriving DecidableEq

abbrev Marks := ℕ → Mark

/-- Why a search ends early. The fuel bounds the depth of the recursion. -/
inductive Stop
  | cycle
  | fuel

/-- The body of the loop of `dfs_cycle`. -/
def visitEdge (visit : ℕ → Marks → Except Stop Marks) (node : ℕ) (state : Marks) (e : Edge) :
    Except Stop Marks :=
  if e.fromStage ≠ node then .ok state
  else
    match state e.toStage with
    | .active => .error .cycle
    | .unvisited => visit e.toStage state
    | .visited => .ok state

variable (edges : List Edge)

def dfsCycle : ℕ → ℕ → Marks → Except Stop Marks
  | 0, _, _ => .error .fuel
  | fuel + 1, node, state => do
    let state ← edges.foldlM (visitEdge (dfsCycle fuel) node) (update state node .active)
    return update state node .visited

/-- `compile_validate_cycles`, which answers a cycle with `SALTS_EINVAL`. -/
def compileValidateCycles (count : ℕ) : Except Stop Marks :=
  (range count).foldlM
    (fun state i => if state i = .unvisited then dfsCycle edges count i state else .ok state)
    (fun _ => .unvisited)

abbrev Linked := Kahn.Linked Edge.fromStage Edge.toStage edges

abbrev Acyclic := Kahn.Acyclic Edge.fromStage Edge.toStage edges

/-- The edges out of visited stages lead up to visited stages. -/
def Closed (state : Marks) : Prop :=
  ∃ rank : ℕ → ℕ, ∀ e ∈ edges, state e.fromStage = .visited →
    state e.toStage = .visited ∧ rank e.fromStage < rank e.toStage

/-- What a search does to the marks. -/
def Advances (state state' : Marks) : Prop :=
  ∀ s, state' s = state s ∨ state s = .unvisited ∧ state' s = .visited

def remaining (count : ℕ) (state : Marks) : Finset ℕ :=
  {s ∈ Finset.range count | state s = .unvisited}

variable {edges} {state state' state'' : Marks} {count node : ℕ}

theorem Advances.refl (state : Marks) : Advances state state := fun _ => .inl rfl

theorem Advances.trans (h : Advances state state') (h' : Advances state' state'') :
    Advances state state'' := by
  intro s
  have := h s
  have := h' s
  grind

theorem Advances.subset (h : Advances state state') :
    remaining count state' ⊆ remaining count state := by
  intro s
  have := h s
  grind [remaining]

/-- With fuel for the stages that are left, a search succeeds or meets a cycle. -/
theorem dfsCycle_ends (hlt : ∀ e ∈ edges, e.toStage < count) (fuel : ℕ) (hnode : node < count)
    (hstate : state node = .unvisited) (hfuel : (remaining count state).card ≤ fuel)
    (hclosed : Closed edges state)
    (hactive : ∀ s, state s = .active → TransGen (Linked edges) s node) :
    Ends (fun s' => Advances state s' ∧ Closed edges s' ∧ s' node = .visited)
      (· = .cycle ∧ ¬Acyclic edges) (dfsCycle edges fuel node state) := by
  induction fuel generalizing node state with
  | zero =>
    have : node ∈ remaining count state := by simp [remaining, hnode, hstate]
    simp_all
  | succ fuel ih =>
    have hleft : (remaining count (update state node .active)).card ≤ fuel := by
      refine Nat.le_of_lt_succ ((Finset.card_lt_card ?_).trans_le hfuel)
      refine (Finset.ssubset_iff_of_subset fun s => ?_).mpr ⟨node, ?_⟩ <;> grind [remaining]
    refine (Ends.foldlM (I := fun rest s => rest ⊆ edges ∧ Advances (update state node .active) s ∧
      Closed edges s ∧ ∀ e ∈ edges, e.fromStage = node → e ∈ rest ∨ s e.toStage = .visited)
      ?_ edges _ ⟨Subset.refl _, .refl _, ?_, fun _ he _ => .inl he⟩).bind ?_
    · rintro e rest s ⟨hrest, hs, hclosed, htodo⟩
      rw [cons_subset] at hrest
      rw [visitEdge]
      split
      · exact ⟨hrest.2, hs, hclosed, by grind⟩
      -- While the loop runs, the active stages lead to `node`.
      have hactive : ∀ i, s i = .active → TransGen (Linked edges) i e.toStage := by
        intro i hi
        refine TransGen.tail' ?_ ⟨e, hrest.1, not_not.mp ‹_›, rfl⟩
        by_cases hin : i = node
        · exact hin ▸ .refl
        have := hs i
        exact (hactive i (by grind)).to_reflTransGen
      split
      · exact ⟨rfl, fun h => h _ (hactive _ ‹_›)⟩
      · refine (ih (hlt e hrest.1) ‹_› ((Finset.card_le_card hs.subset).trans hleft) hclosed
          hactive).mono (fun s' ⟨hs', hclosed, hvisited⟩ => ?_) fun _ => id
        refine ⟨hrest.2, hs.trans hs', hclosed, fun e' he' hfrom => ?_⟩
        have := hs' e'.toStage
        grind
      · exact ⟨hrest.2, hs, hclosed, by grind⟩
    · obtain ⟨rank, hrank⟩ := hclosed
      exact ⟨rank, by grind⟩
    rintro s' ⟨-, hs', ⟨rank, hrank⟩, hvisited⟩
    -- The stage gets the lowest rank: no visited stage leads to it.
    refine ⟨fun s => ?_, ⟨fun s => if s = node then 0 else rank s + 1, ?_⟩, by simp⟩
    · have := hs' s
      grind
    have := hs' node
    grind

theorem compileValidateCycles_ends (hlt : ∀ e ∈ edges, e.fromStage < count ∧ e.toStage < count) :
    Ends (fun _ => ∃ rank : ℕ → ℕ, ∀ e ∈ edges, rank e.fromStage < rank e.toStage)
      (· = .cycle ∧ ¬Acyclic edges) (compileValidateCycles edges count) := by
  refine (Ends.foldlM (I := fun rest s => rest ⊆ range count ∧ Closed edges s ∧
    ∀ i, s i ≠ .active ∧ (i < count → i ∈ rest ∨ s i = .visited)) ?_ _ _ ⟨Subset.refl _,
    ⟨fun _ => 0, by simp⟩, by simp⟩).mono ?_ fun _ => id
  · rintro i rest s ⟨hrest, hclosed, hall⟩
    rw [cons_subset, mem_range] at hrest
    split
    · refine (dfsCycle_ends (fun e he => (hlt e he).2) count hrest.1 ‹_› ?_ hclosed
        fun i hi => absurd hi (hall i).1).mono (fun s' ⟨hs', hclosed, hi⟩ => ?_) fun _ => id
      · exact (Finset.card_filter_le ..).trans (Finset.card_range _).le
      refine ⟨hrest.2, hclosed, fun i => ?_⟩
      have := hs' i
      have := hall i
      grind
    refine ⟨hrest.2, hclosed, fun i => ?_⟩
    have := hall i
    cases h : s i <;> grind
  rintro s ⟨-, ⟨rank, hrank⟩, hall⟩
  exact ⟨rank, fun e he => (hrank e he (by simpa using (hall _).2 (hlt e he).1)).2⟩

theorem acyclic_of_rank {rank : ℕ → ℕ} (h : ∀ e ∈ edges, rank e.fromStage < rank e.toStage) :
    Acyclic edges := by
  intro v hv
  have hlt : TransGen (· < ·) (rank v) (rank v) :=
    hv.lift rank fun _ _ ⟨e, he, hfrom, hto⟩ => hfrom ▸ hto ▸ h e he
  rw [Relation.transGen_eq_self] at hlt
  exact hlt.false

/-- The check finds a cycle where there is one. All other graphs can be ranked as a plan
requires. -/
theorem compileValidateCycles_spec (hlt : ∀ e ∈ edges, e.fromStage < count ∧ e.toStage < count) :
    compileValidateCycles edges count = .error .cycle ∧ ¬Acyclic edges ∨
      (compileValidateCycles edges count).isOk ∧ Acyclic edges ∧
        ∃ rank : ℕ → ℕ, ∀ e ∈ edges, rank e.fromStage < rank e.toStage := by
  have h := compileValidateCycles_ends hlt
  rcases hres : compileValidateCycles edges count with stop | state <;> rw [hres] at h
  · obtain ⟨rfl, hcyclic⟩ := h
    exact .inl ⟨rfl, hcyclic⟩
  obtain ⟨rank, hrank⟩ := h
  exact .inr ⟨rfl, acyclic_of_rank hrank, rank, hrank⟩

theorem not_acyclic_of_two : ¬Acyclic [⟨0, 1, .unconditional⟩, ⟨1, 0, .unconditional⟩] :=
  ((@compileValidateCycles_spec _ 2 (by decide)).resolve_right fun h => absurd h.1 (by decide)).2

end TurboFlow.Graph.Cycles
