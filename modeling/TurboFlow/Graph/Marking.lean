import Mathlib.Data.List.Perm.Subperm
import TurboFlow.Lib.Worklist
import TurboFlow.Graph.Plan

/-!
# Marking the execution region

`flow_mark_execution_region_from_stage` marks the stages that a message can visit: those reached
from the origin without passing through another buffer. It is a breadth-first search with room for
`stage_count` entries, which never runs out (`mark_spec`).
-/

namespace TurboFlow.Graph

open Fallible List

/-- Why a call of the runtime ends early, which keeps apart the statements that return the same
status. -/
inductive Cause
  /-- The origin is no stage of the plan. -/
  | invalidOrigin
  /-- A completion is for no stage of the plan. -/
  | invalidStage
  /-- The slices of the plan are inconsistent. -/
  | malformed
  /-- A queue with `stage_count` entries is full. -/
  | full
  /-- An edge is resolved although no edge into its head is outstanding. -/
  | underflow
  /-- The loop has not ended. -/
  | unfinished
  /-- `flow_dispatch_validate_stage` failed. -/
  | validation (status : Status)
  /-- `flow_reorder_reserve` failed. -/
  | reservation (status : Status)
  /-- `flow_route_edge_active` failed. -/
  | route (status : Status)
  /-- A data rule names a route that does not exist. -/
  | unknownRoute
  /-- `flow_durable_buffer_admit_stage` failed. -/
  | admission (status : Status)
  /-- A stage without a reject edge failed. -/
  | failure (stage : ℕ) (status : Status)
  /-- `flow_msg_set_failure` failed. -/
  | capture (status : Status)
  /-- The outputs of an emitting stage could not be run. -/
  | emission (status : Status)

namespace Cause

/-- The status that the source returns. The code of a loop that has not ended is never used. -/
def status : Cause → Status
  | invalidOrigin | invalidStage => .einval
  | malformed => .eproto
  | full => .enospc
  | underflow => .einval
  | unfinished => .other 0
  | validation status => status
  | reservation status => status
  | route status => status
  | unknownRoute => .eproto
  | admission status => status
  | failure _ status => status
  | capture status => status
  | emission status => status

def isGuard : Cause → Bool
  | invalidStage | malformed | full | underflow | unfinished => true
  | _ => false

end Cause

/-- `reachable[]` and the filled part of the worklist. -/
structure Marking where
  reachable : ℕ → Bool
  worklist : List ℕ

namespace CompiledPlan

variable (plan : CompiledPlan) (origin : ℕ)

/-- The stages that one message from `origin` can visit. -/
inductive Reaches : ℕ → Prop
  | origin : Reaches origin
  | edge {e : Edge} : e ∈ plan.edges → Reaches e.fromStage →
      (e.fromStage = origin ∨ plan.isBuffer e.fromStage = false) → Reaches e.toStage

def markEdge (current : ℕ) (m : Marking) (e : Edge) : Except Cause Marking :=
  if e.fromStage ≠ current ∨ plan.stageCount ≤ e.toStage then .error .malformed
  else if m.reachable e.toStage then .ok m
  else if plan.stageCount ≤ m.worklist.length then .error .full
  else .ok
    { reachable := Function.update m.reachable e.toStage true
      worklist := m.worklist ++ [e.toStage] }

def markStage (current : ℕ) (m : Marking) : Except Cause Marking :=
  match plan.outgoing? current with
  | none => .error .malformed
  | some outgoing =>
    if current ≠ origin ∧ plan.isBuffer current then .ok m
    else outgoing.foldlM (plan.markEdge current) m

def markExecutionRegionFromStage : Except Cause Marking :=
  if plan.stageCount ≤ origin then .error .invalidOrigin
  else
    drain Marking.worklist (plan.markStage origin) (fun _ => .unfinished) (plan.stageCount + 1) 0
      { reachable := Function.update (fun _ => false) origin true, worklist := [origin] }

variable {plan origin}

/-- What holds of the search when the first `head` entries of the worklist have been expanded. -/
structure Marks (plan : CompiledPlan) (origin head : ℕ) (m : Marking) : Prop where
  reachable_iff : ∀ s, m.reachable s = true ↔ s ∈ m.worklist
  nodup : m.worklist.Nodup
  lt : ∀ s ∈ m.worklist, s < plan.stageCount
  sound : ∀ s ∈ m.worklist, plan.Reaches origin s
  origin_mem : origin ∈ m.worklist
  head_le : head ≤ m.worklist.length
  closed : ∀ e ∈ plan.edges, e.fromStage ∈ m.worklist.take head →
    (e.fromStage = origin ∨ plan.isBuffer e.fromStage = false) → e.toStage ∈ m.worklist

theorem length_le_of_lt {l : List ℕ} {n : ℕ} (hnodup : l.Nodup) (hlt : ∀ s ∈ l, s < n) :
    l.length ≤ n := by
  have hsub : l ⊆ range n := fun s hs => mem_range.mpr (hlt s hs)
  simpa using (subperm_of_subset hnodup hsub).length_le

variable {m : Marking} {current head s : ℕ} {e : Edge}

theorem Marks.push (h : Marks plan origin head m) (hs : m.reachable s = false)
    (hlt : s < plan.stageCount) (hreach : plan.Reaches origin s) :
    m.worklist.length < plan.stageCount ∧
      Marks plan origin head
        { reachable := Function.update m.reachable s true, worklist := m.worklist ++ [s] } := by
  have hmem : s ∉ m.worklist := fun hmem => by simp [(h.reachable_iff s).mpr hmem] at hs
  have hnodup : (m.worklist ++ [s]).Nodup := by
    exact nodup_append_comm.mpr (nodup_cons.mpr ⟨hmem, h.nodup⟩)
  have hall : ∀ t ∈ m.worklist ++ [s], t < plan.stageCount :=
    forall_mem_append.mpr ⟨h.lt, forall_mem_singleton.mpr hlt⟩
  have hlength : m.worklist.length + 1 ≤ plan.stageCount := by
    simpa using length_le_of_lt hnodup hall
  refine ⟨hlength, ?_, hnodup, hall, ?_, ?_, ?_, ?_⟩
  · intro t
    by_cases ht : t = s
    · simp [ht]
    · simp [h.reachable_iff, ht]
  · exact forall_mem_append.mpr ⟨h.sound, forall_mem_singleton.mpr hreach⟩
  · exact mem_append_left _ h.origin_mem
  · have := h.head_le
    simp only [length_append]
    omega
  intro e he hfrom hopen
  rw [take_append_of_le_length h.head_le] at hfrom
  exact mem_append_left _ (h.closed e he hfrom hopen)

/-- What holds while the entry at position `head` is expanded and `rest` is left of its slice. -/
structure Expanding (plan : CompiledPlan) (origin head current : ℕ) (rest : List Edge)
    (m : Marking) : Prop where
  marks : Marks plan origin head m
  entry : m.worklist[head]? = some current
  slice : ∀ e ∈ rest, e ∈ plan.edges ∧ e.fromStage = current
  cover : ∀ e ∈ plan.edges, e.fromStage = current → e.toStage ∈ m.worklist ∨ e ∈ rest

theorem markEdge_ends (hexpand : current = origin ∨ plan.isBuffer current = false)
    (h : Expanding plan origin head current (e :: rest) m) :
    Ends (Expanding plan origin head current rest) (fun _ => False)
      (plan.markEdge current m e) := by
  obtain ⟨hm, hhead, hslice, hcover⟩ := h
  obtain ⟨he, hfrom⟩ := hslice e mem_cons_self
  have hrest : ∀ e' ∈ rest, e' ∈ plan.edges ∧ e'.fromStage = current :=
    fun e' he' => hslice e' (mem_cons_of_mem _ he')
  have hlt : e.toStage < plan.stageCount := (plan.edges_lt e he).2
  have hcurrent : current ∈ m.worklist := mem_of_getElem? hhead
  rw [markEdge, if_neg (by rintro (hne | hge) <;> omega)]
  by_cases hmarked : m.reachable e.toStage = true
  · rw [if_pos hmarked]
    refine ⟨hm, hhead, hrest, fun e' he' hfrom' => ?_⟩
    rcases hcover e' he' hfrom' with hmem | hmem
    · exact .inl hmem
    rcases mem_cons.mp hmem with rfl | hmem
    · exact .inl ((hm.reachable_iff _).mp hmarked)
    · exact .inr hmem
  have hreach : plan.Reaches origin e.toStage :=
    .edge he (hfrom ▸ hm.sound current hcurrent) (hfrom ▸ hexpand)
  obtain ⟨hroom, hm'⟩ := hm.push (by simpa using hmarked) hlt hreach
  rw [if_neg hmarked, if_neg (by omega)]
  refine ⟨hm', ?_, hrest, fun e' he' hfrom' => ?_⟩
  · rw [getElem?_append_left (List.getElem?_eq_some_iff.mp hhead).1]
    exact hhead
  rcases hcover e' he' hfrom' with hmem | hmem
  · exact .inl (mem_append_left _ hmem)
  rcases mem_cons.mp hmem with rfl | hmem
  · exact .inl (by simp)
  · exact .inr hmem

theorem markStage_ends (h : Marks plan origin head m) (hhead : m.worklist[head]? = some current) :
    Ends (Marks plan origin (head + 1)) (fun _ => False) (plan.markStage origin current m) := by
  have hmem : current ∈ m.worklist := mem_of_getElem? hhead
  have hlength : head < m.worklist.length := (List.getElem?_eq_some_iff.mp hhead).1
  have htake : ∀ m' : Marking, m'.worklist[head]? = some current →
      ∀ s, s ∈ m'.worklist.take (head + 1) → s ∈ m'.worklist.take head ∨ s = current := by
    intro m' hm' s hs
    rw [take_add_one, hm'] at hs
    simpa using hs
  rw [markStage, plan.outgoing?_eq (h.lt current hmem)]
  dsimp only
  split
  case isTrue hstop =>
    refine ⟨h.reachable_iff, h.nodup, h.lt, h.sound, h.origin_mem, hlength, ?_⟩
    intro e he hfrom hexpand
    rcases htake m hhead _ hfrom with hfrom | hfrom
    · exact h.closed e he hfrom hexpand
    rcases hexpand with heq | hbuffer
    · exact absurd (hfrom.symm.trans heq) hstop.1
    · simp [← hfrom, hbuffer] at hstop
  case isFalse hgo =>
    have hexpand : current = origin ∨ plan.isBuffer current = false := by
      by_contra hcontra
      rw [not_or, Bool.not_eq_false] at hcontra
      exact hgo hcontra
    refine (Ends.foldlM
      (fun e rest m => markEdge_ends hexpand) _ m
      ⟨h, hhead, by simp, fun e he hfrom => .inr (by simp [he, hfrom])⟩).mono ?_ fun _ => id
    rintro m' ⟨hm', hhead', -, hcover⟩
    refine ⟨hm'.reachable_iff, hm'.nodup, hm'.lt, hm'.sound, hm'.origin_mem,
      (List.getElem?_eq_some_iff.mp hhead').1, ?_⟩
    intro e he hfrom hexpand'
    rcases htake m' hhead' _ hfrom with hfrom | hfrom
    · exact hm'.closed e he hfrom hexpand'
    · simpa using hcover e he hfrom

theorem Marks.complete (h : Marks plan origin m.worklist.length m) (hs : plan.Reaches origin s) :
    s ∈ m.worklist := by
  induction hs with
  | origin => exact h.origin_mem
  | edge he _ hexpand ih => exact h.closed _ he (by simpa using ih) hexpand

theorem mark_spec (horigin : origin < plan.stageCount) :
    ∃ m, plan.markExecutionRegionFromStage origin = .ok m ∧
      ∀ s, m.reachable s = true ↔ plan.Reaches origin s := by
  have hinit : Marks plan origin 0
      { reachable := Function.update (fun _ => false) origin true, worklist := [origin] } := by
    refine ⟨fun s => ?_, by simp, by simpa using horigin, ?_, by simp, by simp, by simp⟩
    · by_cases hs : s = origin
      · simp [hs]
      · simp [hs]
    · simpa using Reaches.origin
  have hends := Ends.drain (q := Marking.worklist) (f := plan.markStage origin)
    (x := fun _ => Cause.unfinished) (E := fun _ => False) (n := plan.stageCount)
    (fun head m h => ⟨h.head_le, length_le_of_lt h.nodup h.lt⟩)
    (fun head m current => markStage_ends) (plan.stageCount + 1) 0 _ hinit (by omega)
  rw [markExecutionRegionFromStage, if_neg (by omega)]
  generalize drain Marking.worklist _ _ _ _ _ = result at hends
  cases result with
  | error cause => exact hends.elim
  | ok m =>
    refine ⟨m, rfl, fun s => ⟨fun hs => ?_, fun hs => ?_⟩⟩
    · exact hends.sound s ((hends.reachable_iff s).mp hs)
    · exact (hends.reachable_iff s).mpr (hends.complete hs)

theorem Reaches.lt (h : plan.Reaches origin s) (horigin : origin < plan.stageCount) :
    s < plan.stageCount := by
  cases h with
  | origin => exact horigin
  | edge he _ _ => exact (plan.edges_lt _ he).2

theorem Reaches.rank_lt {rank : ℕ → ℕ} (h : plan.Reaches origin s)
    (hrank : ∀ e ∈ plan.edges, rank e.fromStage < rank e.toStage) :
    s = origin ∨ rank origin < rank s := by
  induction h with
  | origin => exact .inl rfl
  | edge he _ _ ih =>
    have hlt := hrank _ he
    rcases ih with heq | hlt'
    · exact .inr (heq ▸ hlt)
    · exact .inr (hlt'.trans hlt)

theorem Reaches.ne_origin (h : plan.Reaches origin e.fromStage) (he : e ∈ plan.edges) :
    e.toStage ≠ origin := by
  obtain ⟨rank, hrank⟩ := plan.acyclic
  have hlt := hrank e he
  intro heq
  rcases h.rank_lt hrank with hfrom | hfrom
  · rw [hfrom, heq] at hlt
    exact lt_irrefl _ hlt
  rw [heq] at hlt
  exact lt_asymm hlt hfrom

theorem Reaches.member {r : Region} {m : ℕ} (h : plan.Reaches origin r.entryStage)
    (hr : r ∈ plan.regions) (hm : m ∈ r.members) : plan.Reaches origin m := by
  refine region_induction hr h ?_ m hm
  intro p m hp _ _ hfused hreach
  exact .edge (Fused.mem hfused) hreach (.inr (plan.isBuffer_of_mem hr hp))

end CompiledPlan

end TurboFlow.Graph
