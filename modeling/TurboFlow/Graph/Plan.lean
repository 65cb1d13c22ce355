import Mathlib.Data.List.Chain
import Mathlib.Data.List.Nodup
import TurboFlow.Status

/-!
# The compiled plan

The part of `flow_compiled_plan_t` that one message reads: stages, edges, for every stage the slice
of its outgoing edges, and the CFlow regions, chains of stages executed as one unit.

`CompiledPlan` carries what `turbo_flow_compile` has checked: the edges are distinct
(`compile_validate_duplicate_edges`) and form no cycle (`compile_validate_cycles`), the slices list
the edges of their stage (`flow_build_runtime_plan`), and the inner edges of a region are the only
ones out of their tail and into their head (`flow_assign_candidate_regions`).
-/

namespace TurboFlow.Graph

open List Option

/-- The kind of a route, `turbo_flow_edge_kind_t`. -/
inductive EdgeKind
  | unconditional
  | conditional
  | reject
  deriving DecidableEq

/-- An edge of the plan, `flow_runtime_edge_plan_t`. -/
structure Edge where
  fromStage : ℕ
  toStage : ℕ
  kind : EdgeKind
  deriving DecidableEq

/-- A stage of the plan. `emitting` is set when the stage has an `emit_fn`, a `keyed_emit_fn` or a
`window_fn`. -/
structure Stage where
  name : String
  isSource : Bool := false
  isPort : Bool := false
  isBuffer : Bool := false
  emitting : Bool := false

/-- The slice of outgoing edges of one stage, `flow_runtime_node_plan_t`. -/
structure Node where
  outgoingBegin : ℕ
  outgoingCount : ℕ

/-- A CFlow region: the chain of its stages, starting with `entryStage`. -/
structure Region where
  entryStage : ℕ
  inner : List ℕ
  deriving DecidableEq

namespace Region

def members (r : Region) : List ℕ := r.entryStage :: r.inner

def exitStage (r : Region) : ℕ := r.members.getLast (cons_ne_nil _ _)

theorem entryStage_mem (r : Region) : r.entryStage ∈ r.members := mem_cons_self

theorem exitStage_mem (r : Region) : r.exitStage ∈ r.members := getLast_mem _

theorem mem_members_of_inner {r : Region} {s : ℕ} (h : s ∈ r.inner) : s ∈ r.members :=
  mem_cons_of_mem _ h

end Region

/-- What holds at the first element of a chain and passes from each to the next holds at all of
them. -/
theorem forall_mem_of_isChain {α : Type*} {R : α → α → Prop} {P : α → Prop} {a : α} {l : List α}
    (h : (a :: l).IsChain R) (ha : P a)
    (hstep : ∀ p m, p ∈ (a :: l).dropLast → m ∈ l → R p m → P p → P m) : ∀ m ∈ a :: l, P m := by
  induction l generalizing a with
  | nil => simpa using ha
  | cons b l ih =>
    obtain ⟨hab, hl⟩ := isChain_cons_cons.mp h
    have hb : P b := hstep a b (by simp) (by simp) hab ha
    have hrest := ih hl hb fun p m hp hm => hstep p m (by simp [hp]) (by simp [hm])
    intro m hm
    rcases mem_cons.mp hm with rfl | hm
    · exact ha
    · exact hrest m hm

/-- Edge `a → b` is unconditional, the only edge out of `a` and the only edge into `b`. -/
def Fused (edges : List Edge) (a b : ℕ) : Prop :=
  (edges.filter fun e => e.fromStage = a) = [⟨a, b, .unconditional⟩] ∧
    (edges.filter fun e => e.toStage = b) = [⟨a, b, .unconditional⟩]

instance (edges : List Edge) (a b : ℕ) : Decidable (Fused edges a b) :=
  inferInstanceAs (Decidable (_ ∧ _))

structure CompiledPlan where
  stages : List Stage
  nodes : List Node
  edges : List Edge
  regions : List Region := []
  nodes_length : nodes.length = stages.length := by rfl
  slices : ∀ s, (h : s < nodes.length) →
    nodes[s].outgoingBegin ≤ edges.length ∧
      nodes[s].outgoingCount ≤ edges.length - nodes[s].outgoingBegin ∧
      (edges.drop nodes[s].outgoingBegin).take nodes[s].outgoingCount =
        edges.filter fun e => e.fromStage = s := by decide
  edges_nodup : edges.Nodup := by decide
  edges_lt : ∀ e ∈ edges, e.fromStage < stages.length ∧ e.toStage < stages.length := by decide
  acyclic : ∃ rank : ℕ → ℕ, ∀ e ∈ edges, rank e.fromStage < rank e.toStage := by
    exact ⟨id, by decide⟩
  regions_nodup : (regions.flatMap Region.members).Nodup := by exact List.nodup_nil
  regions_fused : ∀ r ∈ regions, r.members.IsChain (Fused edges) := by simp
  regions_executable : ∀ r ∈ regions, ∀ s ∈ r.members, s < stages.length ∧
    (stages[s]?).all fun stage => !stage.isSource && !stage.isPort && !stage.isBuffer := by simp

namespace CompiledPlan

variable (plan : CompiledPlan)

def stageCount : ℕ := plan.stages.length

def isSource (s : ℕ) : Bool := (plan.stages[s]?).any (·.isSource)

def isPort (s : ℕ) : Bool := (plan.stages[s]?).any (·.isPort)

def isBuffer (s : ℕ) : Bool := (plan.stages[s]?).any (·.isBuffer)

def emitting (s : ℕ) : Bool := (plan.stages[s]?).any (·.emitting)

def named (s : ℕ) (name : String) : Bool := (plan.stages[s]?).any (·.name == name)

def outgoing? (s : ℕ) : Option (List Edge) :=
  match plan.nodes[s]? with
  | none => none
  | some node =>
    if plan.edges.length < node.outgoingBegin ∨
        plan.edges.length - node.outgoingBegin < node.outgoingCount then none
    else some ((plan.edges.drop node.outgoingBegin).take node.outgoingCount)

theorem outgoing?_eq (h : s < plan.stageCount) :
    plan.outgoing? s = some (plan.edges.filter fun e => e.fromStage = s) := by
  have hlt : s < plan.nodes.length := plan.nodes_length ▸ h
  obtain ⟨hbegin, hcount, hslice⟩ := plan.slices s hlt
  rw [outgoing?, getElem?_eq_getElem hlt]
  dsimp only
  rw [if_neg (by omega), hslice]

/-! ### Regions -/

def regionForEntry (s : ℕ) : Option Region :=
  plan.regions.find? fun r => r.entryStage = s

/-- Whether the stage belongs to a region, `cflow_region_by_stage`. -/
def inRegion (s : ℕ) : Bool := plan.regions.any fun r => s ∈ r.members

/-- The stages that are executed when `s` is taken from the ready queue. -/
def unit (s : ℕ) : List ℕ :=
  match plan.regionForEntry s with
  | some r => r.members
  | none => [s]

def unitExit (s : ℕ) : ℕ :=
  match plan.regionForEntry s with
  | some r => r.exitStage
  | none => s

variable {plan} {r : Region} {s p m : ℕ} {e : Edge}

section

variable (hr : r ∈ plan.regions)

include hr

theorem region_unique (hr' : r' ∈ plan.regions) (h : s ∈ r.members) (h' : s ∈ r'.members) :
    r = r' := by
  by_contra hne
  have : Std.Symm (Function.onFun List.Disjoint Region.members) :=
    ⟨fun _ _ hdisjoint _ h₂ h₁ => hdisjoint h₁ h₂⟩
  exact (nodup_flatMap.mp plan.regions_nodup).2.forall hr hr' hne h h'

theorem members_nodup : r.members.Nodup :=
  (nodup_flatMap.mp plan.regions_nodup).1 r hr

omit hr in
theorem regionForEntry_some (h : plan.regionForEntry s = some r) :
    r ∈ plan.regions ∧ r.entryStage = s :=
  ⟨mem_of_find?_eq_some h, by simpa using find?_some h⟩

theorem regionForEntry_entryStage : plan.regionForEntry r.entryStage = some r := by
  cases h : plan.regionForEntry r.entryStage with
  | none =>
    have hnone := find?_eq_none.mp h r hr
    simp at hnone
  | some r' =>
    obtain ⟨hr', hentry⟩ := regionForEntry_some h
    rw [region_unique hr' hr r'.entryStage_mem (hentry ▸ r.entryStage_mem)]

omit hr in
theorem unitExit_mem_unit (s : ℕ) : plan.unitExit s ∈ plan.unit s := by
  unfold unitExit unit
  cases plan.regionForEntry s with
  | none => simp
  | some r => exact r.exitStage_mem

omit hr in
theorem mem_unit_self (s : ℕ) : s ∈ plan.unit s := by
  unfold unit
  cases h : plan.regionForEntry s with
  | none => simp
  | some r => exact (regionForEntry_some h).2 ▸ r.entryStage_mem

omit hr in
theorem unit_cases (plan : CompiledPlan) (u : ℕ) :
    (plan.regionForEntry u = none ∧ plan.unit u = [u] ∧ plan.unitExit u = u) ∨
      ∃ r ∈ plan.regions, r.entryStage = u ∧ plan.unit u = r.members ∧
        plan.unitExit u = r.exitStage := by
  unfold unit unitExit
  cases h : plan.regionForEntry u with
  | none => exact .inl ⟨rfl, rfl, rfl⟩
  | some r =>
    obtain ⟨hr, hentry⟩ := regionForEntry_some h
    exact .inr ⟨r, hr, hentry, rfl, rfl⟩

/-- The exit of a unit lies in a region with another exit only if the unit is that inner stage. -/
theorem inner_of_unitExit (hexit : plan.unitExit u ∈ r.members)
    (hne : plan.unitExit u ≠ r.exitStage) : plan.unitExit u = u ∧ u ∈ r.inner := by
  rcases plan.unit_cases u with ⟨hnone, -, hself⟩ | ⟨r', hr', -, -, hexit'⟩
  · rw [hself] at hexit
    rcases mem_cons.mp hexit with heq | hinner
    · rw [heq, regionForEntry_entryStage hr] at hnone
      cases hnone
    · exact ⟨hself, hinner⟩
  rw [hexit'] at hexit hne
  exact absurd (congrArg Region.exitStage (region_unique hr' hr r'.exitStage_mem hexit)) hne

omit hr in
theorem isBuffer_of_mem (plan : CompiledPlan) (hr : r ∈ plan.regions) (h : s ∈ r.members) :
    plan.isBuffer s = false := by
  obtain ⟨hlt, hall⟩ := plan.regions_executable r hr s h
  rw [getElem?_eq_getElem hlt, all_some] at hall
  rw [isBuffer, getElem?_eq_getElem hlt, any_some]
  simpa using (Bool.and_eq_true_iff.mp hall).2

omit hr in
theorem isPort_of_mem (plan : CompiledPlan) (hr : r ∈ plan.regions) (h : s ∈ r.members) :
    plan.isPort s = false := by
  obtain ⟨hlt, hall⟩ := plan.regions_executable r hr s h
  rw [getElem?_eq_getElem hlt, all_some] at hall
  rw [isPort, getElem?_eq_getElem hlt, any_some]
  simpa using (Bool.and_eq_true_iff.mp (Bool.and_eq_true_iff.mp hall).1).2

theorem ne_exitStage_iff (h : s ∈ r.members) : s ≠ r.exitStage ↔ s ∈ r.members.dropLast := by
  have hsplit : r.members.dropLast ++ [r.exitStage] = r.members := dropLast_append_getLast _
  have hnodup := members_nodup hr
  rw [← hsplit] at h hnodup
  have hlast := (nodup_append.mp hnodup).2.2
  constructor
  · intro hne
    simpa [hne] using h
  intro hmem heq
  exact hlast s hmem r.exitStage (by simp) heq

theorem region_induction {P : ℕ → Prop} (hentry : P r.entryStage)
    (hstep : ∀ p m, p ∈ r.members → p ≠ r.exitStage → m ∈ r.inner → Fused plan.edges p m →
      P p → P m) : ∀ m ∈ r.members, P m := by
  refine forall_mem_of_isChain (plan.regions_fused r hr) hentry fun p m hp hm hfused => ?_
  have hmem : p ∈ r.members := dropLast_subset _ hp
  exact hstep p m hmem ((ne_exitStage_iff hr hmem).mpr hp) hm hfused

theorem exists_fused_before (h : m ∈ r.inner) :
    ∃ p ∈ r.members, p ≠ r.exitStage ∧ Fused plan.edges p m := by
  have hwalk : m = r.entryStage ∨ ∃ p ∈ r.members, p ≠ r.exitStage ∧ Fused plan.edges p m :=
    region_induction (P := fun m => m = r.entryStage ∨
      ∃ p ∈ r.members, p ≠ r.exitStage ∧ Fused plan.edges p m) hr (.inl rfl)
      (fun p m hp hne _ hfused _ => .inr ⟨p, hp, hne, hfused⟩) m (Region.mem_members_of_inner h)
  refine hwalk.resolve_left ?_
  rintro rfl
  exact (nodup_cons.mp (members_nodup hr)).1 h

theorem exists_fused_after (h : p ∈ r.members) (hne : p ≠ r.exitStage) :
    ∃ m ∈ r.inner, Fused plan.edges p m := by
  have hlast := (ne_exitStage_iff hr h).mp hne
  have hchain := plan.regions_fused r hr
  unfold Region.members at hlast hchain
  generalize r.entryStage = a at hlast hchain
  generalize r.inner = l at hlast hchain
  induction l generalizing a with
  | nil => simp at hlast
  | cons b l ih =>
    obtain ⟨hab, hl⟩ := isChain_cons_cons.mp hchain
    rw [dropLast_cons_cons] at hlast
    rcases mem_cons.mp hlast with rfl | hlast
    · exact ⟨b, by simp, hab⟩
    obtain ⟨m, hm, hfused⟩ := ih b hlast hl
    exact ⟨m, by simp [hm], hfused⟩

variable {edges : List Edge}

omit hr in
theorem Fused.mem (h : Fused edges p m) : ⟨p, m, .unconditional⟩ ∈ edges :=
  (mem_filter.mp (h.1 ▸ mem_singleton.mpr rfl)).1

omit hr in
theorem Fused.eq_of_from (h : Fused edges p m) (he : e ∈ edges)
    (hfrom : e.fromStage = p) : e = ⟨p, m, .unconditional⟩ := by
  have hmem : e ∈ edges.filter fun e => e.fromStage = p := by simp [he, hfrom]
  rw [h.1] at hmem
  exact mem_singleton.mp hmem

omit hr in
theorem Fused.eq_of_to (h : Fused edges p m) (he : e ∈ edges)
    (hto : e.toStage = m) : e = ⟨p, m, .unconditional⟩ := by
  have hmem : e ∈ edges.filter fun e => e.toStage = m := by simp [he, hto]
  rw [h.2] at hmem
  exact mem_singleton.mp hmem

theorem from_of_to_inner (he : e ∈ plan.edges) (h : e.toStage ∈ r.inner) :
    e.fromStage ∈ r.members ∧ e.fromStage ≠ r.exitStage := by
  obtain ⟨p, hp, hne, hfused⟩ := exists_fused_before hr h
  rw [Fused.eq_of_to hfused he rfl]
  exact ⟨hp, hne⟩

theorem to_inner_of_from (he : e ∈ plan.edges) (h : e.fromStage ∈ r.members)
    (hne : e.fromStage ≠ r.exitStage) : e.toStage ∈ r.inner := by
  obtain ⟨m, hm, hfused⟩ := exists_fused_after hr h hne
  rw [Fused.eq_of_from hfused he rfl]
  exact hm

end

theorem to_mem_unit {u : ℕ} (he : e ∈ plan.edges) (h : e.fromStage ∈ plan.unit u)
    (hne : e.fromStage ≠ plan.unitExit u) :
    e.toStage ∈ plan.unit u ∧ plan.isBuffer e.toStage = false := by
  rcases plan.unit_cases u with ⟨-, hunit, hexit⟩ | ⟨r, hr, -, hunit, hexit⟩
  · rw [hunit, mem_singleton] at h
    exact absurd (h.trans hexit.symm) hne
  rw [hunit] at h ⊢
  rw [hexit] at hne
  have hto := Region.mem_members_of_inner (to_inner_of_from hr he h hne)
  exact ⟨hto, plan.isBuffer_of_mem hr hto⟩

theorem rank_entryStage_le {rank : ℕ → ℕ}
    (hrank : ∀ e ∈ plan.edges, rank e.fromStage < rank e.toStage) (hr : r ∈ plan.regions)
    (h : m ∈ r.members) : rank r.entryStage ≤ rank m := by
  refine region_induction (P := fun m => rank r.entryStage ≤ rank m) hr le_rfl ?_ m h
  intro p m _ _ _ hfused ih
  exact ih.trans (hrank _ (Fused.mem hfused)).le

end CompiledPlan

end TurboFlow.Graph
