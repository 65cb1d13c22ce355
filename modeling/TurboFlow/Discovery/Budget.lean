import TurboFlow.Discovery.Replacement

/-!
# Slots and commands suffice

A valid list that fits the slots is always turned into targets: a slot holds one peer and the ids
are distinct, so the first loop meets no taken target, and the second finds a free one by counting.
`Cell.owed` is what a slot may still cost once its target is applied, `Cell.undo` what undoing it
may.
-/

namespace TurboFlow.Discovery

open List Cell
open List (Perm)
open Saga (pass sweep pass_spends sweep_spends)

/-! ### Targets -/

/-- The lists that the checks of `flow_discovery_build_targets` let pass. -/
structure ValidList (registryVersion : ℕ) (peers : List Peer) : Prop where
  version : registryVersion ≠ 0
  bound : peers.length ≤ maxPeers
  valid : ∀ p ∈ peers, peerValid p = true
  nodup : (peers.map (·.peerId)).Nodup

variable {slots : List Slot} {ts : List (Option Peer)}

variable {i : ℕ}

theorem findActivePeer_some (h : findActivePeer slots peerId = some i) :
    i < slots.length ∧ ∃ s p, slots[i]? = some s ∧ s.peer = some p ∧ p.peerId = peerId := by
  obtain ⟨hlt, hfound, -⟩ := findIdx?_eq_some_iff_getElem.mp h
  obtain ⟨p, hp, hid⟩ := (Option.any_eq_true _ _).mp hfound
  exact ⟨hlt, slots[i], p, getElem?_eq_getElem hlt, hp, by simpa using hid⟩

theorem findActivePeer_inj (hx : findActivePeer slots x = some i)
    (hy : findActivePeer slots y = some i) : x = y := by
  obtain ⟨_, s, p, hs, hp, rfl⟩ := findActivePeer_some hx
  obtain ⟨_, s', p', hs', hp', rfl⟩ := findActivePeer_some hy
  obtain rfl : s = s' := Option.some.inj (hs.symm.trans hs')
  obtain rfl : p = p' := Option.some.inj (hp.symm.trans hp')
  rfl

theorem targetSet_of_free (h : ts[i]? = some none) :
    targetSet ts i p = .ok (ts.set i (some p)) := by
  simp only [targetSet, h]

theorem exists_keepActive (hvalid : ∀ p ∈ rest, peerValid p = true)
    (hnodup : ((prior ++ rest).map (·.peerId)).Nodup)
    (hfree : ∀ p ∈ rest, ∀ i, findActivePeer slots p.peerId = some i → ts[i]? = some none) :
    ∃ ts', keepActive slots prior rest ts = .ok ts' := by
  induction rest generalizing prior ts with
  | nil => exact ⟨ts, rfl⟩
  | cons p rest ih =>
    have hmoved : ((prior ++ [p] ++ rest).map (·.peerId)).Nodup := by
      rwa [append_assoc, singleton_append]
    have hfresh : (prior.any fun q => decide (q.peerId = p.peerId)) = false := by
      rw [map_append, nodup_append] at hnodup
      simp only [any_eq_false, decide_eq_true_eq]
      intro q hq
      exact hnodup.2.2 _ (mem_map_of_mem hq) _ (by simp)
    have hother : ∀ q ∈ rest, q.peerId ≠ p.peerId := by
      rw [map_append, nodup_append, map_cons, nodup_cons] at hnodup
      intro q hq heq
      exact hnodup.2.1.1 (heq ▸ mem_map_of_mem hq)
    have hvalid' : ∀ q ∈ rest, peerValid q = true := fun q hq => hvalid q (mem_cons_of_mem p hq)
    rw [keepActive, hvalid p mem_cons_self, hfresh]
    cases hfound : findActivePeer slots p.peerId with
    | none =>
      exact ih hvalid' hmoved fun q hq => hfree q (mem_cons_of_mem p hq)
    | some i =>
      have hset := targetSet_of_free (p := p) (hfree p mem_cons_self i hfound)
      simp only [hset]
      refine ih hvalid' hmoved ?_
      intro q hq j hj
      have hne : i ≠ j := by
        rintro rfl
        exact hother q hq (findActivePeer_inj hj hfound)
      rw [getElem?_set_ne hne]
      exact hfree q (mem_cons_of_mem p hq) j hj

theorem exists_free (h : (ts.filterMap id).length < ts.length) : none ∈ ts := by
  by_contra hfull
  refine absurd h (Nat.not_lt.mpr ?_)
  rw [length_filterMap_eq_countP, countP_eq_length.mpr]
  intro t ht
  cases t with
  | none => exact absurd ht hfull
  | some p => rfl

theorem exists_selectSlot (h : none ∈ ts) :
    ∃ i, selectSlot slots ts = some i ∧ ts[i]? = some none := by
  unfold selectSlot
  split
  · rename_i i hi
    obtain ⟨hlt, hfound, -⟩ := findIdx?_eq_some_iff_getElem.mp hi
    have hts : i < ts.length := by
      rw [length_zip] at hlt
      omega
    have hnone : ts[i] = none := by
      rw [Bool.and_eq_true, getElem_zip] at hfound
      simpa using hfound.2
    exact ⟨i, rfl, by rw [getElem?_eq_getElem hts, hnone]⟩
  obtain ⟨i, hi⟩ : ∃ i, ts.findIdx? Option.isNone = some i := by
    rw [← Option.isSome_iff_exists, findIdx?_isSome, any_eq_true]
    exact ⟨none, h, rfl⟩
  obtain ⟨hlt, hfound, -⟩ := findIdx?_eq_some_iff_getElem.mp hi
  refine ⟨i, hi, ?_⟩
  rw [getElem?_eq_getElem hlt, Option.isNone_iff_eq_none.mp hfound]

theorem exists_placeNew
    (hroom : (newPeers slots rest).length + (ts.filterMap id).length ≤ ts.length) :
    ∃ ts', placeNew slots rest ts = .ok ts' := by
  induction rest generalizing ts with
  | nil => exact ⟨ts, rfl⟩
  | cons p rest ih =>
    rw [placeNew]
    cases hfound : findActivePeer slots p.peerId with
    | some i =>
      exact ih (by simpa [newPeers, hfound] using hroom)
    | none =>
      have hlen : (newPeers slots (p :: rest)).length = (newPeers slots rest).length + 1 := by
        simp [newPeers, hfound]
      rw [hlen] at hroom
      obtain ⟨i, hselect, hfree⟩ : ∃ i, selectSlot slots ts = some i ∧ ts[i]? = some none :=
        exists_selectSlot (exists_free (by omega))
      have hset := targetSet_of_free (p := p) hfree
      have hcount := (filterMap_set_none (p := p) hfree).length_eq
      rw [length_cons] at hcount
      simp only [hselect, hset]
      refine ih ?_
      rw [hcount, length_set]
      omega

theorem exists_placeNew_of_keepActive (hlen : peers.length ≤ slots.length)
    (h : keepActive slots [] peers (replicate slots.length none) = .ok kept) :
    ∃ targets, placeNew slots peers kept = .ok targets := by
  obtain ⟨hgrows, -, -⟩ := keepActive_spec h (by simp)
  have hkept : (kept.filterMap id).length = (activePeers slots peers).length := by
    rw [hgrows.perm.length_eq]
    simp
  have hsplit : (activePeers slots peers).length + (newPeers slots peers).length =
      peers.length := by
    rw [← length_append]
    exact (filter_append_perm _ peers).length_eq
  have htotal : kept.length = slots.length := by
    rw [hgrows.length, length_replicate]
  exact exists_placeNew (by omega)

theorem keepActive_ne_enospc : keepActive slots prior rest ts ≠ .error .enospc := by
  fun_induction keepActive slots prior rest ts with
  | case1 => simp
  | case2 => simp
  | case3 => simp
  | case4 _ _ _ _ _ _ _ ih => exact ih
  | case5 _ _ _ _ _ _ _ _ rc hset =>
    unfold targetSet at hset
    split at hset
    · simp at hset
    · simpa using fun h => absurd (h ▸ Except.error.inj hset) (by simp)
  | case6 _ _ _ _ _ _ _ _ _ _ ih => exact ih

theorem buildTargets_enospc_iff :
    buildTargets slots registryVersion peers = .error .enospc ↔ slots.length < peers.length := by
  unfold buildTargets
  split
  · by_cases hlong : slots.length < peers.length <;> simp [hlong]
  rename_i hchecked
  have hlen : peers.length ≤ slots.length := by omega
  refine iff_of_false ?_ (Nat.not_lt.mpr hlen)
  cases hkept : keepActive slots [] peers (replicate slots.length none) with
  | error rc =>
    intro h
    exact keepActive_ne_enospc (hkept.trans h)
  | ok kept =>
    obtain ⟨targets, hplaced⟩ := exists_placeNew_of_keepActive hlen hkept
    simp [hplaced]

theorem exists_buildTargets (h : ValidList registryVersion peers)
    (hlen : peers.length ≤ slots.length) :
    ∃ targets, buildTargets slots registryVersion peers = .ok targets := by
  have hchecked : ¬ (registryVersion = 0 ∨ slots.length < peers.length ∨
      maxPeers < peers.length) := by
    have := h.version
    have := h.bound
    omega
  have hfree : ∀ p ∈ peers, ∀ i, findActivePeer slots p.peerId = some i →
      (replicate slots.length (none : Option Peer))[i]? = some none := by
    intro p _ i hi
    simp [(findActivePeer_some hi).1]
  obtain ⟨kept, hkept⟩ : ∃ kept, keepActive slots [] peers (replicate slots.length none) =
      .ok kept := exists_keepActive h.valid (by simpa using h.nodup) hfree
  obtain ⟨targets, hplaced⟩ := exists_placeNew_of_keepActive hlen hkept
  exact ⟨targets, by rw [buildTargets, if_neg hchecked, hkept]; exact hplaced⟩

theorem existsUnique_of_perm {α : Type*} {ts : List (Option α)} {ps : List α}
    (hperm : Perm (ts.filterMap id) ps) (hnodup : ps.Nodup) {p : α} (hp : p ∈ ps) :
    ∃! i : ℕ, ts[i]? = some (some p) := by
  have hmem : some p ∈ ts := by
    simpa using hperm.mem_iff.mpr hp
  obtain ⟨i, hi⟩ := mem_iff_getElem?.mp hmem
  refine ⟨i, hi, ?_⟩
  have hset : (ts.filterMap id).Nodup := hperm.nodup_iff.mpr hnodup
  clear hperm hmem
  intro j hj
  induction ts generalizing i j with
  | nil => simp at hi
  | cons t ts ih =>
    -- the head is absent, or it is `p` and no later entry is
    have hlater : t = some p → ∀ k : ℕ, ts[k]? ≠ some (some p) := by
      rintro rfl k hk
      rw [filterMap_cons_some (f := id) (b := p) rfl, nodup_cons] at hset
      exact hset.1 (mem_filterMap.mpr ⟨some p, mem_of_getElem? hk, rfl⟩)
    have htail : (ts.filterMap id).Nodup := by
      cases t with
      | none => simpa using hset
      | some q =>
        rw [filterMap_cons_some (f := id) (b := q) rfl, nodup_cons] at hset
        exact hset.2
    cases i with
    | zero =>
      cases j with
      | zero => rfl
      | succ j => exact absurd (by simpa using hj) (hlater (by simpa using hi) j)
    | succ i =>
      cases j with
      | zero => exact absurd (by simpa using hi) (hlater (by simpa using hj) i)
      | succ j => rw [ih i (by simpa using hi) htail j (by simpa using hj)]

/-! ### Commands -/

def Cell.undo (c : Cell) : ℕ :=
  if c.action = .none then 0 else 1

def Cell.owed (c : Cell) : ℕ :=
  c.undo + if c.target.isSome ∨ c.slot.active = false then 0 else 2

def Cell.redo (c : Cell) : ℕ :=
  if c.action = .add ∨ c.action = .replace then 1 else 0

variable (answer : ℕ → Status) (n : ℕ) (c : Cell)

theorem command_eq (kind : Command) :
    ∃ owner, command answer n c kind = ⟨{ c with owner := owner }, n + 1, answer n⟩ := by
  rcases command_cases answer n c kind with ⟨hok, h⟩ | ⟨-, h⟩
  · exact ⟨_, by rw [h, hok]⟩
  · exact ⟨c.owner, h⟩

theorem owed_le_budget (hnew : c.action = .none) : c.owed ≤ c.budget := by
  unfold owed undo budget
  cases htarget : c.target with
  | none => cases hactive : c.slot.active <;> simp [hnew]
  | some p => simp [hnew]

theorem applyTarget_spends (hnew : c.action = .none) :
    (applyTarget answer n c).next + (applyTarget answer n c).value.owed ≤ n + c.budget := by
  have howed := owed_le_budget c hnew
  cases htarget : c.target with
  | none => simpa [applyTarget, htarget] using howed
  | some p =>
    obtain ⟨owner, hreplace⟩ := command_eq answer n c (.replaceEndpoint p.toEndpoint)
    obtain ⟨owner', hresume⟩ := command_eq answer (n + 1)
      { c with owner := owner, action := .add } .resume
    simp only [applyTarget, budget, htarget, hreplace]
    split
    · simp [owed, undo, hnew, htarget]
    -- a failed replacement records no action
    split
    · simp only [owed, undo, hnew, Option.isSome_some, true_or, if_true]
      split <;> omega
    split
    · simp [owed, undo]
    rw [htarget] at hresume
    simp [hresume, owed, undo]

theorem applyRemoval_spends :
    (applyRemoval answer n c).next + (applyRemoval answer n c).value.undo ≤ n + c.owed := by
  obtain ⟨owner, h⟩ := command_eq answer n c .quiesce
  unfold applyRemoval owed
  split
  · exact le_rfl
  simp only [h]
  split
  · change n + 1 + c.undo ≤ n + (c.undo + 2)
    omega
  simp only [undo, reduceCtorEq, if_false]
  omega

theorem undoRemoval_spends :
    (undoRemoval answer n c).next + (undoRemoval answer n c).value.redo ≤ n + c.undo := by
  obtain ⟨owner, h⟩ := command_eq answer n c .resume
  unfold undoRemoval undo
  cases haction : c.action with
  | none | add | replace => simp [redo, haction]
  | remove => simp [h, redo, haction]

theorem undoTarget_spends : (undoTarget answer n c).next ≤ n + c.redo := by
  unfold undoTarget
  split
  · rename_i hadd
    obtain ⟨owner, h⟩ := command_eq answer n c .quiesce
    simp [h, redo, hadd]
  · rename_i p hreplace _
    obtain ⟨owner, h⟩ := command_eq answer n c (.replaceEndpoint p.toEndpoint)
    simp [h, redo, hreplace]
  · exact Nat.le_add_right n _

theorem applyAll_spends (hnew : ∀ c ∈ cells, c.action = .none) :
    (applyAll answer cells).next + ((applyAll answer cells).value.map undo).sum ≤
      (cells.map budget).sum := by
  have hundo : ∀ c : Cell, c.undo ≤ c.owed := fun c => Nat.le_add_right _ _
  have hfirst : (pass .ok (applyTarget answer) 0 cells).next +
      ((pass .ok (applyTarget answer) 0 cells).value.map owed).sum ≤
        0 + (cells.map budget).sum :=
    pass_spends (fun n c hc => applyTarget_spends answer n c (hnew c hc))
      (fun c hc => owed_le_budget c (hnew c hc)) 0
  rw [Nat.zero_add] at hfirst
  refine le_trans ?_ hfirst
  unfold applyAll
  dsimp only
  split
  · exact pass_spends (fun n c _ => applyRemoval_spends answer n c) (fun c _ => hundo c) _
  · exact Nat.add_le_add_left (sum_le_sum fun c _ => hundo c) _

theorem rollback_spends (cells : List Cell) :
    (rollback answer n cells).next ≤ n + (cells.map undo).sum := by
  have htargets : ∀ m cells', (sweep .ok (undoTarget answer) m cells').next +
      (((sweep .ok (undoTarget answer) m cells').value).map fun _ => 0).sum ≤
        m + (cells'.map redo).sum :=
    fun m cells' => sweep_spends (undoTarget_spends answer) m cells'
  refine (Nat.le_of_add_right_le (htargets _ _)).trans ?_
  exact sweep_spends (undoRemoval_spends answer) n cells

def Result.reserved (r : Result) : ℕ :=
  3 * r.added + 2 * r.updated + 2 * r.removed

theorem sum_budget (w : World) (version : ℕ) (cells : List Cell) :
    (cells.map budget).sum = (commitResult w version cells).reserved := by
  simp only [commitResult, Result.reserved]
  induction cells with
  | nil => rfl
  | cons c cells ih =>
    have hcell : c.budget =
        3 * (if c.target.isSome && !c.slot.active then 1 else 0) +
        2 * (if c.target.isSome && c.slot.active && !c.unchanged then 1 else 0) +
        2 * (if c.target.isNone && c.slot.active then 1 else 0) := by
      unfold budget unchanged
      cases c.target with
      | none => cases c.slot.active <;> rfl
      | some p =>
        cases hequal : slotEndpointEqual c.slot p with
        | false => cases c.slot.active <;> simp [hequal]
        | true => simp [hequal, Slot.active, slotEndpointEqual_iff.mp hequal]
    simp only [map_cons, sum_cons, ih, hcell, countP_cons]
    omega

theorem issued_le (w : World) (q : Request) :
    (w.replacePeerList q).2.issued ≤
      match buildTargets w.slots q.registryVersion q.peers with
      | .error _ => 0
      | .ok targets => (commitResult w q.registryVersion (w.cells targets)).reserved := by
  unfold World.replacePeerList
  split
  · exact Nat.zero_le _
  cases buildTargets w.slots q.registryVersion q.peers with
  | error rc => exact le_rfl
  | ok targets =>
    dsimp only
    rw [← sum_budget]
    have hnew : ∀ c ∈ w.cells targets, c.action = .none := by
      intro c hc
      obtain ⟨i, hi⟩ := mem_iff_getElem?.mp hc
      obtain ⟨p, t, -, -, rfl⟩ := getElem?_zipWith_eq_some.mp hi
      rfl
    have hall := applyAll_spends q.answer hnew
    have hundo := rollback_spends q.answer (applyAll q.answer (w.cells targets)).next
      (applyAll q.answer (w.cells targets)).value
    split
    · exact Nat.zero_le _
    split
    · split <;> exact Nat.zero_le _
    split
    · exact Nat.zero_le _
    unfold World.commandOwners
    dsimp only
    split <;> dsimp only <;> omega

/-- A valid list that fits the slots is never refused for want of a slot: every peer gets one slot,
and a slot the peer that it is the target of. The commands of a call, with the compensations of a
failure at any of them, stay within what is reserved for them. -/
theorem slots_and_commands_suffice (w : World) (q : Request) :
    (ValidList q.registryVersion q.peers → q.peers.length ≤ w.slots.length →
      ∃ targets, buildTargets w.slots q.registryVersion q.peers = .ok targets ∧
        targets.length = w.slots.length ∧
        (∀ p ∈ q.peers, ∃! i : ℕ, targets[i]? = some (some p)) ∧
        ∀ (i : ℕ) (p : Peer), targets[i]? = some (some p) → p ∈ q.peers) ∧
    (buildTargets w.slots q.registryVersion q.peers = .error .enospc ↔
      w.slots.length < q.peers.length) ∧
    (w.replacePeerList q).2.issued ≤
      match buildTargets w.slots q.registryVersion q.peers with
      | .error _ => 0
      | .ok targets => (commitResult w q.registryVersion (w.cells targets)).reserved := by
  refine ⟨fun hvalid hlen => ?_, buildTargets_enospc_iff, issued_le w q⟩
  obtain ⟨targets, htargets⟩ := exists_buildTargets hvalid hlen
  obtain ⟨hlength, hperm, -, hnodup⟩ := buildTargets_spec htargets
  refine ⟨targets, htargets, hlength, fun p hp => ?_, fun i p hi => ?_⟩
  · have hpeers : q.peers.Nodup :=
      List.Pairwise.of_map _ (fun _ _ hne heq => hne (congrArg _ heq)) hnodup
    exact existsUnique_of_perm hperm hpeers hp
  · exact hperm.mem_iff.mp (mem_filterMap.mpr ⟨some p, mem_of_getElem? hi, rfl⟩)

theorem slots_and_commands_suffice_pair : ValidList 1 pairRequest.peers ∧
    ∃ targets, buildTargets pairWorld.slots 1 pairRequest.peers = .ok targets ∧
      ∀ p ∈ pairRequest.peers, ∃! i : ℕ, targets[i]? = some (some p) := by
  have hvalid : ValidList 1 pairRequest.peers := ⟨by decide, by decide, by decide, by decide⟩
  obtain ⟨targets, htargets, -, hunique, -⟩ :=
    (slots_and_commands_suffice pairWorld pairRequest).1 hvalid (by decide)
  exact ⟨hvalid, targets, htargets, hunique⟩

end TurboFlow.Discovery
