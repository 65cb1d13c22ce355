import Mathlib.Data.List.Nodup
import TurboFlow.Discovery.Controller

/-!
# Targets of a replacement

`flow_discovery_build_targets` hands every listed peer one slot, an active peer the slot it has: the
peers among the targets are a permutation of the list. Each loop only fills empty targets (`Grows`).
-/

namespace TurboFlow.Discovery

open List Option
open List (Perm)

variable {peers : List Peer}

theorem slotEndpointEqual_iff : slotEndpointEqual s p = true ↔ s.peer = some p := by
  unfold slotEndpointEqual
  split
  · rename_i hpeer
    simp [hpeer]
  rename_i q hpeer
  obtain ⟨⟨host, path, port⟩, peerId⟩ := q
  obtain ⟨⟨host', path', port'⟩, peerId'⟩ := p
  simp only [hpeer, Bool.and_eq_true, decide_eq_true_eq, some.injEq, Peer.mk.injEq,
    Endpoint.mk.injEq]
  tauto

theorem filterMap_set_none {α : Type*} {ts : List (Option α)} {i : ℕ} {p : α}
    (h : ts[i]? = some none) : Perm ((ts.set i (some p)).filterMap id) (p :: ts.filterMap id) := by
  induction ts generalizing i with
  | nil => simp at h
  | cons t ts ih =>
    cases i with
    | zero =>
      cases h
      simp
    | succ i =>
      have hrest := ih (by simpa using h)
      cases t with
      | none => simpa using hrest
      | some q =>
        simp only [set_cons_succ, filterMap_cons_some (f := id) (b := q) rfl]
        exact (hrest.cons q).trans (List.Perm.swap p q _)

/-- The targets `ts'` are the targets `ts` with the peers `ps` put into empty entries. -/
structure Grows (ts : List (Option Peer)) (ps : List Peer) (ts' : List (Option Peer)) : Prop where
  length : ts'.length = ts.length
  perm : Perm (ts'.filterMap id) (ps ++ ts.filterMap id)
  keeps : ∀ (i : ℕ) (p : Peer), ts[i]? = some (some p) → ts'[i]? = some (some p)

namespace Grows

theorem refl : Grows ts [] ts :=
  ⟨rfl, Perm.refl _, fun _ _ h => h⟩

theorem trans (h : Grows ts ps ts') (h' : Grows ts' ps' ts'') : Grows ts (ps ++ ps') ts'' where
  length := h'.length.trans h.length
  perm := by
    have hswap : Perm (ps' ++ ps ++ ts.filterMap id) (ps ++ ps' ++ ts.filterMap id) :=
      perm_append_comm.append_right _
    refine h'.perm.trans ((h.perm.append_left ps').trans ?_)
    rwa [← append_assoc]
  keeps i p hi := h'.keeps i p (h.keeps i p hi)

theorem of_targetSet (h : targetSet ts i p = .ok ts') :
    Grows ts [p] ts' ∧ ts'[i]? = some (some p) := by
  unfold targetSet at h
  split at h
  · rename_i hempty
    obtain rfl : ts.set i (some p) = ts' := Except.ok.inj h
    have hi : i < ts.length := by
      by_contra hge
      rw [getElem?_eq_none (by omega)] at hempty
      exact absurd hempty (by simp)
    refine ⟨⟨length_set, filterMap_set_none hempty, ?_⟩, by simp [hi]⟩
    intro j q hj
    have hne : i ≠ j := by
      rintro rfl
      rw [hempty] at hj
      exact absurd hj (by simp)
    rw [getElem?_set_ne hne, hj]
  · exact absurd h (by simp)

end Grows

def activePeers (slots : List Slot) (ps : List Peer) : List Peer :=
  ps.filter fun p => (findActivePeer slots p.peerId).isSome

def newPeers (slots : List Slot) (ps : List Peer) : List Peer :=
  ps.filter fun p => !(findActivePeer slots p.peerId).isSome

variable {slots : List Slot} {ts : List (Option Peer)}

theorem keepActive_cons (h : keepActive slots prior (p :: rest) ts = .ok ts') :
    p.peerId ∉ prior.map (·.peerId) ∧
      ∃ ts₁, Grows ts (activePeers slots [p]) ts₁ ∧
        (∀ i, findActivePeer slots p.peerId = some i → ts₁[i]? = some (some p)) ∧
        keepActive slots (prior ++ [p]) rest ts₁ = .ok ts' := by
  rw [keepActive] at h
  split at h
  · exact absurd h (by simp)
  split at h
  · exact absurd h (by simp)
  rename_i hfresh
  have hnotin : p.peerId ∉ prior.map (·.peerId) := by simpa using hfresh
  refine ⟨hnotin, ?_⟩
  split at h
  · rename_i hnone
    refine ⟨ts, ?_, ?_, h⟩
    · simpa [activePeers, hnone] using Grows.refl
    intro i hi
    rw [hnone] at hi
    exact absurd hi (by simp)
  rename_i i hsome
  split at h
  · exact absurd h (by simp)
  rename_i ts₁ hset
  obtain ⟨hgrows, hat⟩ := Grows.of_targetSet hset
  refine ⟨ts₁, ?_, ?_, h⟩
  · simpa [activePeers, hsome] using hgrows
  intro j hj
  obtain rfl := some.inj (hsome.symm.trans hj)
  exact hat

theorem keepActive_spec (h : keepActive slots prior rest ts = .ok ts')
    (hprior : (prior.map (·.peerId)).Nodup) :
    Grows ts (activePeers slots rest) ts' ∧
      (∀ p ∈ rest, ∀ i, findActivePeer slots p.peerId = some i → ts'[i]? = some (some p)) ∧
      ((prior ++ rest).map (·.peerId)).Nodup := by
  induction rest generalizing prior ts with
  | nil =>
    cases h
    exact ⟨Grows.refl, by simp, by simpa using hprior⟩
  | cons p rest ih =>
    obtain ⟨hnotin, ts₁, hfirst, hat, hrest⟩ := keepActive_cons h
    have hnext : ((prior ++ [p]).map (·.peerId)).Nodup := by
      rw [map_append]
      exact nodup_append_comm.mpr (nodup_cons.mpr ⟨hnotin, hprior⟩)
    obtain ⟨hgrows, hactive, hnodup⟩ := ih hrest hnext
    refine ⟨?_, ?_, by simpa using hnodup⟩
    · have hsplit : activePeers slots (p :: rest) =
          activePeers slots [p] ++ activePeers slots rest := by
        rw [activePeers, activePeers, activePeers, ← filter_append, singleton_append]
      rw [hsplit]
      exact hfirst.trans hgrows
    intro q hq i hi
    rcases mem_cons.mp hq with rfl | hmem
    · exact hgrows.keeps i q (hat i hi)
    · exact hactive q hmem i hi

theorem placeNew_grows (h : placeNew slots rest ts = .ok ts') :
    Grows ts (newPeers slots rest) ts' := by
  induction rest generalizing ts with
  | nil =>
    cases h
    exact Grows.refl
  | cons p rest ih =>
    rw [placeNew] at h
    split at h
    · rename_i i hsome
      simpa [newPeers, hsome] using ih h
    rename_i hnone
    split at h
    · exact absurd h (by simp)
    split at h
    · exact absurd h (by simp)
    rename_i hset
    simpa [newPeers, hnone] using (Grows.of_targetSet hset).1.trans (ih h)

theorem targetSet_error (h : targetSet ts i p = .error rc) : rc ≠ .ok := by
  unfold targetSet at h
  split at h
  · exact absurd h (by simp)
  obtain rfl : Status.einval = rc := Except.error.inj h
  simp

theorem keepActive_error (h : keepActive slots prior rest ts = .error rc) : rc ≠ .ok := by
  fun_induction keepActive slots prior rest ts with
  | case1 => exact absurd h (by simp)
  | case2 => exact Except.error.inj h ▸ by simp
  | case3 => exact Except.error.inj h ▸ by simp
  | case4 _ _ _ _ _ _ _ ih => exact ih h
  | case5 _ _ _ _ _ _ _ _ _ hset =>
    cases h
    exact targetSet_error hset
  | case6 _ _ _ _ _ _ _ _ _ _ ih => exact ih h

theorem placeNew_error (h : placeNew slots rest ts = .error rc) : rc ≠ .ok := by
  fun_induction placeNew slots rest ts with
  | case1 => exact absurd h (by simp)
  | case2 _ _ _ _ _ ih => exact ih h
  | case3 => exact Except.error.inj h ▸ by simp
  | case4 _ _ _ _ _ _ _ hset =>
    cases h
    exact targetSet_error hset
  | case5 _ _ _ _ _ _ _ _ ih => exact ih h

theorem buildTargets_error (h : buildTargets slots version peers = .error rc) : rc ≠ .ok := by
  unfold buildTargets at h
  split at h
  · cases h
    split <;> simp
  split at h
  · rename_i hkeep
    cases h
    exact keepActive_error hkeep
  · exact placeNew_error h

structure Targets (slots : List Slot) (peers : List Peer) (ts : List (Option Peer)) : Prop where
  length : ts.length = slots.length
  perm : Perm (ts.filterMap id) peers
  keeps : ∀ p ∈ peers, ∀ i, findActivePeer slots p.peerId = some i → ts[i]? = some (some p)
  nodup : (peers.map (·.peerId)).Nodup

theorem buildTargets_spec (h : buildTargets slots version peers = .ok ts) :
    Targets slots peers ts := by
  unfold buildTargets at h
  split at h
  · exact absurd h (by simp)
  split at h
  · exact absurd h (by simp)
  rename_i kept hkeep
  obtain ⟨hkept, hactive, hnodup⟩ := keepActive_spec hkeep (by simp)
  have hall := hkept.trans (placeNew_grows h)
  refine ⟨by simpa using hall.length, ?_, ?_, by simpa using hnodup⟩
  · have hempty : (replicate slots.length (none : Option Peer)).filterMap id = [] := by simp
    have hperm := hall.perm
    rw [hempty, append_nil] at hperm
    exact hperm.trans (filter_append_perm _ peers)
  intro p hp i hi
  exact (placeNew_grows h).keeps i p (hactive p hp i hi)

theorem findActivePeer_eq (hnodup : ((slots.filterMap (·.peer)).map (·.peerId)).Nodup)
    (hi : slots[i]? = some s) (hp : s.peer = some p) : findActivePeer slots p.peerId = some i := by
  induction slots generalizing i with
  | nil => simp at hi
  | cons t slots ih =>
    unfold findActivePeer
    cases i with
    | zero =>
      cases hi
      simp [findIdx?_cons, hp]
    | succ i =>
      have hi' : slots[i]? = some s := by simpa using hi
      have hmem : p ∈ slots.filterMap (·.peer) := mem_filterMap.mpr ⟨s, mem_of_getElem? hi', hp⟩
      have hother : (t.peer.any fun q => decide (q.peerId = p.peerId)) = false := by
        cases ht : t.peer with
        | none => rfl
        | some q =>
          rw [filterMap_cons_some ht, map_cons, nodup_cons] at hnodup
          have hne : q.peerId ≠ p.peerId := by
            intro heq
            exact hnodup.1 (heq ▸ List.mem_map_of_mem hmem)
          simpa using hne
      have htail : ((slots.filterMap (·.peer)).map (·.peerId)).Nodup := by
        cases ht : t.peer with
        | none => rwa [filterMap_cons_none ht] at hnodup
        | some q =>
          rw [filterMap_cons_some ht, map_cons, nodup_cons] at hnodup
          exact hnodup.2
      have hrest := ih htail hi'
      unfold findActivePeer at hrest
      rw [findIdx?_cons, hother]
      simp [hrest]

end TurboFlow.Discovery
